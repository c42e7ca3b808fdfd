import Niflhel.Journal
import Niflhel.LineLog

/-!
# A torn write

A process dies while it writes a line and leaves a part of it. The journal that is opened after
it appends to the same file, and what it writes first continues the part. The files are those
of `Journal`, byte for byte and with the write that made each byte.
-/

namespace Niflhel
namespace Journal
open Numbering LineLog

/-- The file operation that fails: the rename, with the older file gone or not, the opening of
the file, or the write after some bytes of the line's text. -/
inductive Fault where
  | rename (removed : Bool)
  | create
  | write (n : ℕ)
  deriving DecidableEq, Repr

/-- A call of `Write`, with the frame of the call at which it stops. A process that dies stops
like one that fails. -/
structure Attempt where
  kind : String
  data : List UInt8
  time : Time := 0
  stop : Option (ℕ × Fault) := none
  deriving DecidableEq, Repr

structure Store where
  old : List (Put Frame) := []
  cur : List (Put Frame) := []
  deriving DecidableEq, Repr

namespace Store

def puts (s : Store) : List (Put Frame) := s.old ++ s.cur

def full (c : LineCodec Frame) (s : Store) : Bool := (content c s.cur).length > limit

def rotate (c : LineCodec Frame) (s : Store) : Store := if s.full c then ⟨s.cur, []⟩ else s

def add (s : Store) (e : Put Frame) : Store := { s with cur := s.cur ++ [e] }

def store (c : LineCodec Frame) (done : Bool) (s : Store) (f : Frame) : Store :=
  (s.rotate c).add (.line f done)

def fail (c : LineCodec Frame) (s : Store) (f : Frame) : Fault → Store
  | .rename removed => if s.full c && removed then { s with old := [] } else s
  | .create => s.rotate c
  | .write n => (s.rotate c).add (.part f n)

end Store

def openStore (c : LineCodec Frame) (s : Store) : Journal :=
  (LineLog.scan c maxLine (content c s.cur)).foldl load
    ((LineLog.scan c maxLine (content c s.old)).foldl load {})

structure Process where
  journal : Journal := {}
  store : Store := {}

def Process.attempt (c : LineCodec Frame) (p : Process) (a : Attempt) : Process :=
  let fs := p.journal.newFrames a.kind a.data a.time
  let whole : Process := ⟨fs.foldl record p.journal, fs.foldl (Store.store c true) p.store⟩
  match a.stop with
  | none => whole
  | some (n, fault) =>
    match fs[n]? with
    | none => whole
    | some f =>
      ⟨(fs.take (n + 1)).foldl record p.journal,
        ((fs.take n).foldl (Store.store c false) p.store).fail c f fault⟩

structure Message where
  kind : String
  data : List UInt8
  time : Time := 0
  deriving DecidableEq, Repr

def Message.attempt (m : Message) : Attempt := { kind := m.kind, data := m.data, time := m.time }

def firstLife (c : LineCodec Frame) (before : List Attempt) : Process :=
  before.foldl (Process.attempt c) {}

def secondLife (c : LineCodec Frame) (before : List Attempt) (after : List Message) : Process :=
  (after.map Message.attempt).foldl (Process.attempt c)
    ⟨openStore c (firstLife c before).store, (firstLife c before).store⟩

/-- The journal opened now has the frames of the finished calls that are in the files, in their
order and as they were given. -/
def Intact (c : LineCodec Frame) (s : Store) : Prop :=
  ((s.puts.filter Put.done).map Put.record).Sublist (openStore c s).frames

def Store.readable (c : LineCodec Frame) (s : Store) : List (Put Frame) :=
  LineLog.readable c maxLine s.old ++ LineLog.readable c maxLine s.cur

instance (c : LineCodec Frame) (s : Store) : Decidable (Intact c s) :=
  inferInstanceAs (Decidable (List.Sublist _ _))

/-- The lines from the first one of a finished call on fit the memory. -/
def Roomy (c : LineCodec Frame) (s : Store) : Prop :=
  ∀ front e rest, s.readable c = front ++ e :: rest → e.done = true →
    ((e :: rest).map fun x => cost x.record).sum ≤ limit

def frameCount (data : List UInt8) : ℕ := (pieces data.length data).length

structure Ordered (n : ℕ) (s : Store) : Prop where
  ascending : s.puts.Pairwise fun a b => number a.record < number b.record
  le : ∀ e ∈ s.puts, number e.record ≤ n
  short : ∀ e ∈ s.puts, e.record.data.length ≤ chunkSize

section numbers
variable {c : LineCodec Frame} {s t : Store} {e : Put Frame} {f : Frame} {fs : List Frame} {n : ℕ}
  {d : Bool} {p : Process} {a : Attempt}

theorem rotate_puts : (s.rotate c).puts.Sublist s.puts := by
  unfold Store.rotate
  split
  · change (s.cur ++ []).Sublist _
    rw [List.append_nil]
    exact List.sublist_append_right s.old s.cur
  · exact List.Sublist.refl _

theorem add_puts : ((s.rotate c).add e).puts.Sublist (s.puts ++ [e]) := by
  have hadd : ((s.rotate c).add e).puts = (s.rotate c).puts ++ [e] :=
    (List.append_assoc _ _ _).symm
  rw [hadd]
  exact rotate_puts.append_right [e]

theorem fail_puts (fault : Fault) : ∃ k, (s.fail c f fault).puts.Sublist (s.puts ++ [.part f k]) := by
  cases fault with
  | rename removed =>
    refine ⟨0, List.Sublist.trans ?_ (List.sublist_append_left _ _)⟩
    rw [Store.fail]
    split
    · exact List.sublist_append_right s.old s.cur
    · exact List.Sublist.refl _
  | create => exact ⟨0, rotate_puts.trans (List.sublist_append_left _ _)⟩
  | write k => exact ⟨k, add_puts⟩

theorem Ordered.step (h : Ordered n s) (ht : t.puts.Sublist (s.puts ++ [e]))
    (hnumber : number e.record = n + 1) (hshort : e.record.data.length ≤ chunkSize) :
    Ordered (n + 1) t := by
  have hmem : ∀ x ∈ t.puts, x ∈ s.puts ∨ x = e := by
    intro x hx
    simpa using ht.subset hx
  refine ⟨List.Pairwise.sublist ht ?_, fun x hx => ?_, fun x hx => ?_⟩
  · refine List.pairwise_append.2 ⟨h.ascending, List.pairwise_singleton _ _, fun x hx y hy => ?_⟩
    have hle := h.le x hx
    rw [List.mem_singleton.1 hy]
    omega
  · rcases hmem x hx with hx | rfl
    · have hle := h.le x hx
      omega
    · omega
  · rcases hmem x hx with hx | rfl
    · exact h.short x hx
    · exact hshort

theorem Ordered.stores (h : Ordered n s) (hfs : Consecutive number (n + 1) fs)
    (hshort : ∀ f ∈ fs, f.data.length ≤ chunkSize) :
    Ordered (n + fs.length) (fs.foldl (Store.store c d) s) := by
  induction fs generalizing n s with
  | nil => exact h
  | cons f fs ih =>
    have hstep : Ordered (n + 1) (s.store c d f) :=
      h.step add_puts hfs.1 (hshort f List.mem_cons_self)
    have hrest := ih hstep hfs.2 fun g hg => hshort g (List.mem_cons_of_mem f hg)
    rw [List.length_cons, Nat.add_comm fs.length, ← Nat.add_assoc]
    exact hrest

theorem newFrames_numbered {j : Journal} {kind : String} {data : List UInt8} {time : Time}
    (hroom : j.seq.toNat + frameCount data < 2 ^ 64) :
    Consecutive number (j.seq.toNat + 1) (j.newFrames kind data time) ∧
      (j.newFrames kind data time).length = frameCount data ∧
      ∀ f ∈ j.newFrames kind data time, f.data.length ≤ chunkSize :=
  ⟨consecutive_stamp hroom, length_stamp, fun _ hf => (mem_pieces (mem_stamp hf).2.1).2⟩

theorem Ordered.attempt (h : Ordered p.journal.seq.toNat p.store)
    (hroom : p.journal.seq.toNat + frameCount a.data < 2 ^ 64) :
    Ordered (p.attempt c a).journal.seq.toNat (p.attempt c a).store ∧
      (p.attempt c a).journal.seq.toNat ≤ p.journal.seq.toNat + frameCount a.data := by
  obtain ⟨hfs, hlen, hshort⟩ := @newFrames_numbered p.journal a.kind a.data a.time hroom
  have hwhole : Ordered ((p.journal.newFrames a.kind a.data a.time).foldl record p.journal).seq.toNat
        ((p.journal.newFrames a.kind a.data a.time).foldl (Store.store c true) p.store) ∧
      ((p.journal.newFrames a.kind a.data a.time).foldl record p.journal).seq.toNat ≤
        p.journal.seq.toNat + frameCount a.data := by
    rw [foldl_record_seq hfs, hlen, ← hlen]
    exact ⟨h.stores hfs hshort, le_rfl⟩
  unfold Process.attempt
  generalize p.journal.newFrames a.kind a.data a.time = fs at hfs hlen hshort hwhole ⊢
  cases a.stop with
  | none => exact hwhole
  | some stop =>
    obtain ⟨n, fault⟩ := stop
    dsimp only
    cases hf : fs[n]? with
    | none => exact hwhole
    | some f =>
      obtain ⟨hn, hget⟩ := List.getElem?_eq_some_iff.1 hf
      have hsplit : fs = fs.take n ++ f :: fs.drop (n + 1) := by
        rw [← hget, List.getElem_cons_drop, List.take_append_drop]
      have htake : fs.take (n + 1) = fs.take n ++ [f] := by
        rw [List.take_succ_eq_append_getElem hn, hget]
      have hlength : (fs.take n).length = n := List.length_take_of_le hn.le
      rw [hsplit] at hfs
      obtain ⟨hfront, hfirst, -⟩ := consecutive_append.1 hfs
      rw [hlength] at hfirst
      have hfront' : Consecutive number (p.journal.seq.toNat + 1) (fs.take n ++ [f]) :=
        consecutive_append.2 ⟨hfront, by rw [hlength]; exact hfirst, trivial⟩
      have hstored := @Ordered.stores c p.store (fs.take n) p.journal.seq.toNat false h hfront
        fun g hg => hshort g (List.take_subset _ _ hg)
      rw [hlength] at hstored
      rw [htake, foldl_record_seq hfront', List.length_append, hlength, List.length_singleton]
      obtain ⟨k, hputs⟩ := @fail_puts c ((fs.take n).foldl (Store.store c false) p.store) f fault
      refine ⟨hstored.step hputs ?_ (hshort f (List.mem_of_getElem? hf)), by omega⟩
      change number f = _
      omega

theorem Ordered.attempts {calls : List Attempt} (h : Ordered p.journal.seq.toNat p.store)
    (hroom : p.journal.seq.toNat + (calls.map fun a => frameCount a.data).sum < 2 ^ 64) :
    Ordered (calls.foldl (Process.attempt c) p).journal.seq.toNat
        (calls.foldl (Process.attempt c) p).store ∧
      (calls.foldl (Process.attempt c) p).journal.seq.toNat ≤
        p.journal.seq.toNat + (calls.map fun a => frameCount a.data).sum := by
  induction calls generalizing p with
  | nil => exact ⟨h, le_rfl⟩
  | cons a calls ih =>
    rw [List.map_cons, List.sum_cons] at hroom ⊢
    obtain ⟨hstep, hseq⟩ := h.attempt (c := c) (a := a) (by omega)
    obtain ⟨hrest, hle⟩ := @ih (p.attempt c a) hstep (by omega)
    exact ⟨hrest, by rw [List.foldl_cons]; omega⟩

end numbers

section opening
variable {c : LineCodec Frame} {s : Store} {l : List Frame} {j : Journal} {f : Frame} {n : ℕ}

theorem openStore_eq : openStore c s = ((s.readable c).map Put.record).foldl load {} := by
  rw [openStore, scan_content, scan_content, Store.readable, List.map_append, List.foldl_append]

theorem loaded_openStore : Loaded ((s.readable c).map Put.record) (openStore c s) := by
  rw [openStore_eq]
  exact loaded_foldl loaded_empty

theorem readable_puts : (s.readable c).Sublist s.puts := readable_sublist.append readable_sublist

theorem seq_le_load : j.seq.toNat ≤ (j.load f).seq.toNat ∧ number f ≤ (j.load f).seq.toNat := by
  have hload : (j.load f).seq = if f.sequence > j.seq then f.sequence else j.seq := rfl
  rw [hload]
  split
  · rename_i h
    exact ⟨(UInt64.lt_iff_toNat_lt.1 h).le, le_rfl⟩
  · rename_i h
    exact ⟨le_rfl, UInt64.le_iff_toNat_le.1 (UInt64.not_lt.1 h)⟩

theorem le_foldl_load : j.seq.toNat ≤ (l.foldl load j).seq.toNat ∧
    ∀ f ∈ l, number f ≤ (l.foldl load j).seq.toNat := by
  induction l generalizing j with
  | nil => exact ⟨le_rfl, by simp⟩
  | cons f l ih =>
    obtain ⟨hseq, hall⟩ := @ih (j.load f)
    obtain ⟨hbefore, hf⟩ := @seq_le_load j f
    refine ⟨hbefore.trans hseq, fun g hg => ?_⟩
    rcases List.mem_cons.1 hg with rfl | hg
    · exact hf.trans hseq
    · exact hall g hg

theorem foldl_load_le (hj : j.seq.toNat ≤ n) (hl : ∀ f ∈ l, number f ≤ n) :
    (l.foldl load j).seq.toNat ≤ n := by
  induction l generalizing j with
  | nil => exact hj
  | cons f l ih =>
    refine ih ?_ fun g hg => hl g (List.mem_cons_of_mem f hg)
    have hload : (j.load f).seq = if f.sequence > j.seq then f.sequence else j.seq := rfl
    rw [hload]
    split
    · exact hl f List.mem_cons_self
    · exact hj

theorem readable_le_seq {e : Put Frame} (he : e ∈ s.readable c) :
    number e.record ≤ (openStore c s).seq.toNat := by
  rw [openStore_eq]
  exact le_foldl_load.2 e.record (List.mem_map_of_mem he)

theorem openStore_seq_le (h : Ordered n s) : (openStore c s).seq.toNat ≤ n := by
  rw [openStore_eq]
  refine foldl_load_le (Nat.zero_le n) fun f hf => ?_
  obtain ⟨e, he, rfl⟩ := List.mem_map.1 hf
  exact h.le e (readable_puts.subset he)

end opening

/-- A file of the first process with lines of finished calls after it. Their numbers are larger
than `k`. -/
def Extends (k : ℕ) (s : Store) (file : List (Put Frame)) : Prop :=
  ∃ base new, (base = [] ∨ base = s.old ∨ base = s.cur) ∧ file = base ++ new ∧
    ∀ e ∈ new, e.done = true ∧ k < number e.record ∧ e.record.data.length ≤ chunkSize

structure Grown (k : ℕ) (s t : Store) : Prop where
  old : Extends k s t.old
  cur : Extends k s t.cur

section growing
variable {c : LineCodec Frame} {s t : Store} {f : Frame} {fs : List Frame} {k n : ℕ} {p : Process}

theorem grown_self : Grown k s s :=
  ⟨⟨s.old, [], by simp⟩, ⟨s.cur, [], by simp⟩⟩

theorem extends_nil : Extends k s [] := ⟨[], [], by simp⟩

theorem Extends.concat {file : List (Put Frame)} (h : Extends k s file) (hk : k < number f)
    (hshort : f.data.length ≤ chunkSize) : Extends k s (file ++ [.line f true]) := by
  obtain ⟨base, new, hbase, rfl, hnew⟩ := h
  refine ⟨base, new ++ [.line f true], hbase, List.append_assoc _ _ _, fun e he => ?_⟩
  rcases List.mem_append.1 he with he | he
  · exact hnew e he
  · rw [List.mem_singleton.1 he]
    exact ⟨rfl, hk, hshort⟩

theorem Grown.store (h : Grown k s t) (hk : k < number f) (hshort : f.data.length ≤ chunkSize) :
    Grown k s (t.store c true f) := by
  unfold Store.store Store.rotate
  split
  · exact ⟨h.cur, extends_nil.concat hk hshort⟩
  · exact ⟨h.old, h.cur.concat hk hshort⟩

theorem Grown.stores (h : Grown k s t) (hfs : ∀ f ∈ fs, k < number f ∧ f.data.length ≤ chunkSize) :
    Grown k s (fs.foldl (Store.store c true) t) := by
  induction fs generalizing t with
  | nil => exact h
  | cons f fs ih =>
    obtain ⟨hk, hshort⟩ := hfs f List.mem_cons_self
    exact ih (h.store hk hshort) fun g hg => hfs g (List.mem_cons_of_mem f hg)

theorem Grown.messages {after : List Message} (h : Grown k s p.store) (hk : k ≤ p.journal.seq.toNat)
    (hroom : p.journal.seq.toNat + (after.map fun m => frameCount m.data).sum < 2 ^ 64) :
    Grown k s ((after.map Message.attempt).foldl (Process.attempt c) p).store := by
  induction after generalizing p with
  | nil => exact h
  | cons m after ih =>
    rw [List.map_cons, List.sum_cons] at hroom
    obtain ⟨hfs, hlen, hshort⟩ := @newFrames_numbered p.journal m.kind m.data m.time (by omega)
    have hseq := foldl_record_seq hfs
    have hstep : p.attempt c m.attempt =
        ⟨(p.journal.newFrames m.kind m.data m.time).foldl record p.journal,
          (p.journal.newFrames m.kind m.data m.time).foldl (Store.store c true) p.store⟩ := rfl
    rw [List.map_cons, List.foldl_cons, hstep]
    refine ih (h.stores fun f hf => ⟨?_, hshort f hf⟩) ?_ ?_
    · have hlow := (Consecutive.bounds hfs hf).1
      omega
    · dsimp only
      omega
    · dsimp only
      omega

end growing

section
variable {c : LineCodec Frame} {s t : Store} {n : ℕ}

structure Successive (c : LineCodec Frame) (s t : Store) : Prop where
  ordered : ∃ n, Ordered n s
  grown : Grown (openStore c s).seq.toNat s t

theorem successive_secondLife {before : List Attempt} {after : List Message}
    (hroom : (before.map fun a => frameCount a.data).sum + (after.map fun m => frameCount m.data).sum <
      2 ^ 64) :
    Successive c (firstLife c before).store (secondLife c before after).store := by
  have hempty : Ordered ({} : Process).journal.seq.toNat ({} : Process).store :=
    ⟨List.Pairwise.nil, nofun, nofun⟩
  obtain ⟨hordered, hseq⟩ := @Ordered.attempts c {} before hempty (by
    change 0 + _ < _
    omega)
  have hopen : (openStore c (firstLife c before).store).seq.toNat ≤
      (before.map fun a => frameCount a.data).sum := by
    have hle := @openStore_seq_le c _ _ hordered
    change _ ≤ 0 + _ at hseq
    rw [Nat.zero_add] at hseq
    exact hle.trans hseq
  refine ⟨⟨_, hordered⟩, Grown.messages grown_self le_rfl ?_⟩
  dsimp only
  omega

theorem Extends.mem {k : ℕ} {file : List (Put Frame)} {e : Put Frame} (h : Extends k s file)
    (he : e ∈ file) : e ∈ s.puts ∨
      e.done = true ∧ k < number e.record ∧ e.record.data.length ≤ chunkSize := by
  obtain ⟨base, new, hbase, rfl, hnew⟩ := h
  rcases List.mem_append.1 he with he | he
  · left
    rcases hbase with rfl | rfl | rfl
    · cases he
    · exact List.mem_append_left _ he
    · exact List.mem_append_right _ he
  · exact Or.inr (hnew e he)

theorem Extends.readable {k : ℕ} {file : List (Put Frame)} {e : Put Frame} (h : Extends k s file)
    (he : e ∈ LineLog.readable c maxLine file) (hdone : e.done = false) : e ∈ s.readable c := by
  obtain ⟨base, new, hbase, rfl, hnew⟩ := h
  have hmem : e ∈ LineLog.readable c maxLine base :=
    mem_readable_of_append (fun x hx => (hnew x hx).1) he hdone
  rcases hbase with rfl | rfl | rfl
  · cases readable_sublist.subset hmem
  · exact List.mem_append_left _ hmem
  · exact List.mem_append_right _ hmem

theorem Grown.mem {k : ℕ} {e : Put Frame} (h : Grown k s t) (he : e ∈ t.puts) : e ∈ s.puts ∨
    e.done = true ∧ k < number e.record ∧ e.record.data.length ≤ chunkSize :=
  (List.mem_append.1 he).elim h.old.mem h.cur.mem

theorem Grown.readable {k : ℕ} {e : Put Frame} (h : Grown k s t) (he : e ∈ t.readable c)
    (hdone : e.done = false) : e ∈ s.readable c :=
  (List.mem_append.1 he).elim (fun he => h.old.readable he hdone) fun he => h.cur.readable he hdone

theorem Successive.cost_le (h : Successive c s t) {e : Put Frame} (he : e ∈ t.puts) :
    cost e.record ≤ limit := by
  obtain ⟨n, hordered⟩ := h.ordered
  rcases h.grown.mem he with he | ⟨-, -, hshort⟩
  · exact cost_le_of_short (hordered.short e he)
  · exact cost_le_of_short hshort

/-- No frame of a call that did not finish is read in the place of one that did. -/
theorem Successive.apart (h : Successive c s t) {x y : Put Frame} (hx : x ∈ t.puts)
    (hdone : x.done = true) (hy : y ∈ t.readable c) (hopen : y.done = false) :
    x.record ≠ y.record := by
  have hread := h.grown.readable hy hopen
  have hseq := readable_le_seq hread
  intro heq
  obtain ⟨n, hordered⟩ := h.ordered
  rcases h.grown.mem hx with hx | ⟨-, hlater, -⟩
  · have hnodup : (s.puts.map Put.record).Nodup := by
      refine List.pairwise_map.2 (hordered.ascending.imp fun {a b} hlt hab => ?_)
      rw [hab] at hlt
      exact lt_irrefl _ hlt
    have hsame := List.inj_on_of_nodup_map hnodup hx (readable_puts.subset hread) heq
    rw [hsame, hopen] at hdone
    cases hdone
  · rw [heq] at hlater
    omega

theorem append_eq_append {β : Type} {a a' b b' : List β} (ha : a.Sublist a') (hb : b.Sublist b') :
    a ++ b = a' ++ b' ↔ a = a' ∧ b = b' := by
  refine ⟨fun h => ?_, fun ⟨ha, hb⟩ => by rw [ha, hb]⟩
  have hlen := congrArg List.length h
  rw [List.length_append, List.length_append] at hlen
  have hle := ha.length_le
  have hle' := hb.length_le
  exact ⟨ha.eq_of_length (by omega), hb.eq_of_length (by omega)⟩

/-- What is readable has all frames of finished calls if and only if both files are clear. -/
theorem filter_readable_puts : (s.readable c).filter Put.done = s.puts.filter Put.done ↔
    Clear c maxLine s.old ∧ Clear c maxLine s.cur := by
  rw [Store.readable, Store.puts, List.filter_append, List.filter_append,
    append_eq_append (readable_sublist.filter _) (readable_sublist.filter _), filter_readable,
    filter_readable]

/-- The memory drops no frame of a finished call if and only if there is room. -/
theorem roomy_iff {cut kept : List (Put Frame)} (hcost : ∀ e ∈ s.puts, cost e.record ≤ limit)
    (hsplit : s.readable c = cut ++ kept) (hkept : kept.map Put.record = (openStore c s).frames) :
    Roomy c s ↔ cut.filter Put.done = [] := by
  have hloaded : Loaded ((s.readable c).map Put.record) (openStore c s) := loaded_openStore
  have hfits : (kept.map fun x => cost x.record).sum ≤ limit := by
    have hle := hloaded.fits fun f hf => by
      obtain ⟨e, he, rfl⟩ := List.mem_map.1 hf
      exact hcost e (readable_puts.subset he)
    rwa [← hkept, List.map_map] at hle
  rw [List.filter_eq_nil_iff]
  constructor
  · intro h e he hdone
    obtain ⟨front, rest, rfl⟩ := List.append_of_mem he
    have hsum := h front e (rest ++ kept) (by rw [hsplit]; simp) hdone
    have hsuffix := hloaded.longest ((e :: (rest ++ kept)).map Put.record)
      (by rw [hsplit]; exact ⟨front.map Put.record, by simp⟩) (by rwa [List.map_map])
    have hlen := hsuffix.length_le
    rw [← hkept] at hlen
    simp only [List.length_map, List.length_cons, List.length_append] at hlen
    omega
  · intro h front e rest hfront hdone
    rw [hsplit] at hfront
    rcases List.append_eq_append_iff.1 hfront with ⟨mid, hmid, hrest⟩ | ⟨mid, hmid, hrest⟩
    · rw [hrest, List.map_append, List.sum_append] at hfits
      omega
    · cases mid with
      | nil =>
        rwa [hrest]
      | cons x mid =>
        obtain ⟨rfl, -⟩ := List.cons.inj hrest
        exact absurd hdone (h e (by rw [hmid]; simp))

theorem Successive.intact_iff (hsuccessive : Successive c s t) :
    Intact c t ↔ Clear c maxLine t.old ∧ Clear c maxLine t.cur ∧ Roomy c t := by
  obtain ⟨front, hfront⟩ := (@loaded_openStore c t).suffix
  obtain ⟨cut, kept, hsplit, -, hkept⟩ := List.map_eq_append_iff.1 hfront.symm
  have hsub : kept.Sublist t.puts := by
    refine List.Sublist.trans ?_ (readable_puts (c := c))
    rw [hsplit]
    exact List.sublist_append_right cut kept
  have hintact : Intact c t ↔ kept.filter Put.done = t.puts.filter Put.done := by
    rw [Intact, ← hkept]
    refine map_filter_sublist_iff hsub fun x hx hdone y hy hopen => ?_
    refine hsuccessive.apart hx hdone ?_ hopen
    rw [hsplit]
    exact List.mem_append_right _ hy
  rw [hintact, ← and_assoc, ← filter_readable_puts,
    roomy_iff (fun e he => hsuccessive.cost_le he) hsplit hkept, hsplit, List.filter_append]
  constructor
  · intro h
    have hle : (cut.filter Put.done ++ kept.filter Put.done).length ≤ (t.puts.filter Put.done).length := by
      have hfilter := (readable_puts (c := c) (s := t)).filter Put.done
      rw [hsplit, List.filter_append] at hfilter
      exact hfilter.length_le
    have hnil : cut.filter Put.done = [] := by
      rw [List.length_append, h] at hle
      exact List.length_eq_zero_iff.1 (by omega)
    exact ⟨by rw [hnil, h, List.nil_append], hnil⟩
  · rintro ⟨h, hnil⟩
    rw [← h, hnil, List.nil_append]

end

/-- A journal opened after two processes has every frame of a finished call that the files hold
if and only if each of these frames begins a line, the lines up to them fit the scanner, and the
frames from the first of them on fit the memory. -/
theorem torn_write_intact_iff (c : LineCodec Frame) (before : List Attempt) (after : List Message)
    (hroom : (before.map fun a => frameCount a.data).sum + (after.map fun m => frameCount m.data).sum <
      2 ^ 64) :
    Intact c (secondLife c before after).store ↔
      Clear c maxLine (secondLife c before after).store.old ∧
        Clear c maxLine (secondLife c before after).store.cur ∧
        Roomy c (secondLife c before after).store :=
  (successive_secondLife hroom).intact_iff

section untorn
variable {c : LineCodec Frame} {s : Store} {f : Frame} {e : Put Frame} {file : List (Put Frame)}
  {p : Process} {a : Attempt} {n : ℕ} {d : Bool}

def Begun (c : LineCodec Frame) (file : List (Put Frame)) : Prop :=
  ∀ front e rest, file = front ++ e :: rest → e.done = true → Ended (content c front)

/-- Every record of a finished call begins a line, and so will the next one, perhaps in a new
file. -/
structure Store.Level (c : LineCodec Frame) (s : Store) : Prop where
  old : Begun c s.old
  cur : Begun c s.cur
  next : Ended (content c s.cur) ∨ s.full c = true

theorem begun_nil : Begun c [] := by
  intro front e rest hfile
  simp at hfile

theorem Begun.concat (h : Begun c file) (he : e.done = true → Ended (content c file)) :
    Begun c (file ++ [e]) := by
  intro front x rest hfile hx
  rcases List.eq_nil_or_concat' rest with rfl | ⟨init, y, rfl⟩
  · obtain ⟨rfl, hxe⟩ := List.append_inj' hfile rfl
    obtain rfl := List.singleton_inj.1 hxe
    exact he hx
  · rw [← List.cons_append, ← List.append_assoc] at hfile
    exact h front x init (List.append_inj' hfile rfl).1 hx

theorem content_append (l m : List (Put Frame)) : content c (l ++ m) = content c l ++ content c m :=
  List.flatMap_append

theorem Store.Level.rotate (h : s.Level c) :
    Begun c (s.rotate c).old ∧ Begun c (s.rotate c).cur ∧ Ended (content c (s.rotate c).cur) := by
  unfold Store.rotate
  split
  · exact ⟨h.cur, begun_nil, .inl rfl⟩
  · rename_i hfull
    exact ⟨h.old, h.cur, h.next.resolve_right hfull⟩

theorem Store.Level.store (h : s.Level c) : (s.store c d f).Level c := by
  obtain ⟨hold, hcur, hended⟩ := h.rotate
  refine ⟨hold, hcur.concat fun _ => hended, .inl ?_⟩
  change Ended (content c (_ ++ _))
  rw [content_append, ended_append_line]
  exact .inl rfl

theorem Store.Level.stores (h : s.Level c) (fs : List Frame) :
    (fs.foldl (Store.store c d) s).Level c :=
  List.foldlRecOn fs _ h fun _ hs _ _ => hs.store

theorem Store.Level.torn (h : s.Level c)
    (hn : n = 0 ∨ (s.fail c f (.write n)).full c = true) : (s.fail c f (.write n)).Level c := by
  obtain ⟨hold, hcur, hended⟩ := h.rotate
  refine ⟨hold, hcur.concat (by rintro ⟨⟩), hn.imp_left ?_⟩
  rintro rfl
  change Ended (content c (_ ++ _))
  rw [content_append]
  simpa [content, Put.bytes] using hended

theorem Store.Level.attempt (h : p.store.Level c) (ha : a.stop = none ∨
    ∃ i n, a.stop = some (i, .write n) ∧ (n = 0 ∨ (p.attempt c a).store.full c = true)) :
    (p.attempt c a).store.Level c := by
  unfold Process.attempt at ha ⊢
  rcases ha with ha | ⟨i, n, ha, hn⟩
  · rw [ha]
    exact h.stores _
  · rw [ha] at hn ⊢
    dsimp only at hn ⊢
    split
    · exact h.stores _
    · rename_i f hf
      rw [hf] at hn
      exact (h.stores _).torn hn

theorem Store.Level.attempts {calls : List Attempt} (h : p.store.Level c)
    (hcalls : ∀ a ∈ calls, a.stop = none) : (calls.foldl (Process.attempt c) p).store.Level c :=
  List.foldlRecOn (motive := fun q : Process => q.store.Level c) calls _ h fun _ hq a ha =>
    hq.attempt (.inl (hcalls a ha))

theorem scanLines_ended (line x y : List UInt8) :
    scanLines line (x ++ 10 :: y) = scanLines line (x ++ [10]) ++ scanLines [] y := by
  induction x generalizing line with
  | nil => simp [scanLines]
  | cons b x ih =>
    simp only [List.cons_append, scanLines]
    split
    · rw [ih, List.cons_append]
    · exact ih _

theorem Begun.clear (h : Begun c file) (hfit : ∀ l ∈ scanLines [] (content c file), l.length < maxLine) :
    Clear c maxLine file := by
  intro front e rest hfile hdone
  refine ⟨h front e rest hfile hdone, fun l hl => hfit l ?_⟩
  cases e with
  | part => cases hdone
  | line a d =>
    have hline : content c (front ++ [.line a d]) = (content c front ++ c.encode a) ++ [10] := by
      rw [content_append, List.append_assoc]
      simp [content, Put.bytes]
    rw [hfile, ← List.singleton_append, ← List.append_assoc, content_append, hline, List.append_assoc,
      List.singleton_append, scanLines_ended, ← hline]
    exact List.mem_append_left _ hl

end untorn

/-- The condition on the calls: the process that dies in its last call has left no byte of the
line it was writing, or the next call begins a new file. -/
theorem intact_of_untorn (c : LineCodec Frame) {calls : List Attempt} {last : Attempt} {i n : ℕ}
    {after : List Message} {t : Store} (ht : t = (secondLife c (calls ++ [last]) after).store)
    (hroom : ((calls ++ [last]).map fun a => frameCount a.data).sum +
      (after.map fun m => frameCount m.data).sum < 2 ^ 64)
    (hcalls : ∀ a ∈ calls, a.stop = none) (hlast : last.stop = some (i, .write n))
    (hn : n = 0 ∨ (firstLife c (calls ++ [last])).store.full c = true)
    (hfit : ∀ l ∈ scanLines [] (content c t.old) ++ scanLines [] (content c t.cur), l.length < maxLine)
    (hroomy : Roomy c t) : Intact c t := by
  subst ht
  have hempty : ({} : Process).store.Level c := ⟨begun_nil, begun_nil, .inl (.inl rfl)⟩
  have hfirst : (firstLife c (calls ++ [last])).store.Level c := by
    unfold firstLife at hn ⊢
    rw [List.foldl_append] at hn ⊢
    exact (hempty.attempts hcalls).attempt (.inr ⟨i, n, hlast, hn⟩)
  have hlevel : (secondLife c (calls ++ [last]) after).store.Level c := by
    refine Store.Level.attempts (p := ⟨_, _⟩) hfirst fun a ha => ?_
    obtain ⟨m, -, rfl⟩ := List.mem_map.1 ha
    rfl
  exact (successive_secondLife hroom).intact_iff.2
    ⟨hlevel.old.clear fun l hl => hfit l (List.mem_append_left _ hl),
      hlevel.cur.clear fun l hl => hfit l (List.mem_append_right _ hl), hroomy⟩

def frameCode : PrefixCode Frame :=
  ((PrefixCode.string.pair ((PrefixCode.list PrefixCode.nat).pair PrefixCode.string)).pair
    ((PrefixCode.list PrefixCode.int).pair
      ((PrefixCode.nat.pair PrefixCode.nat).pair (PrefixCode.nat.pair PrefixCode.nat)))).map
    (fun x => { type := x.1.1, data := x.1.2.1.map UInt8.ofNat, message := x.1.2.2,
                code := x.2.1.head?, width := .ofNat x.2.2.1.1, height := .ofNat x.2.2.1.2,
                sequence := .ofNat x.2.2.2.1, time := x.2.2.2.2 })
    (fun f => ((f.type, f.data.map UInt8.toNat, f.message), f.code.toList,
      (f.width.toNat, f.height.toNat), f.sequence.toNat, f.time))
    fun f => by
      simp [List.map_map, Function.comp_def]

def sampleCodec : LineCodec Frame := braces frameCode

/-- Two writes; of the second, the given number of bytes. -/
def tornAt (n : ℕ) : List Attempt :=
  [{ kind := "stdout", data := [1] }, { kind := "stdout", data := [2], stop := some (0, .write n) }]

/-- A process that dies before the first byte of a line. -/
theorem torn_write_intact_empty :
    Intact sampleCodec (secondLife sampleCodec (tornAt 0) [⟨"stdout", [3], 0⟩]).store ∧
      Clear sampleCodec maxLine (secondLife sampleCodec (tornAt 0) [⟨"stdout", [3], 0⟩]).store.cur ∧
      Roomy sampleCodec (secondLife sampleCodec (tornAt 0) [⟨"stdout", [3], 0⟩]).store := by
  have hintact : Intact sampleCodec (secondLife sampleCodec (tornAt 0) [⟨"stdout", [3], 0⟩]).store := by
    decide +kernel
  have hclear := (torn_write_intact_iff sampleCodec (tornAt 0) [⟨"stdout", [3], 0⟩]
    (by decide +kernel)).1 hintact
  exact ⟨hintact, hclear.2⟩

/-- It dies after the first byte. The call of the second process returns without an error, and
its frame is not in the journal opened after it. -/
theorem torn_line_swallows_frame :
    ((secondLife sampleCodec (tornAt 1) [⟨"stdout", [3], 0⟩]).store.puts.filter Put.done).map
        (fun e => (e.record.data, e.record.sequence)) = [([1], 1), ([3], 2)] ∧
      (openStore sampleCodec (secondLife sampleCodec (tornAt 1) [⟨"stdout", [3], 0⟩]).store).frames.map
        (fun f => (f.data, f.sequence)) = [([1], 1)] ∧
      ¬ Intact sampleCodec (secondLife sampleCodec (tornAt 1) [⟨"stdout", [3], 0⟩]).store := by
  decide +kernel

end Journal
end Niflhel
