import Mathlib.Data.UInt
import Niflhel.Journal

/-!
# Paging through a journal

The readers of a journal ask for batches, each time with the number of the last frame they
got, until a batch is empty. Numbers are 64-bit: `Read` adds one to the number it is given.
-/

namespace Niflhel
namespace Journal
open Numbering

/-- A call of `Write`. With `stop` the file operations for that frame of the call fail, and the
call returns after it. -/
structure WriteCall where
  kind : String
  data : List UInt8
  time : Time := 0
  stop : Option ℕ := none
  deriving DecidableEq, Repr

def WriteCall.frames (c : WriteCall) (j : Journal) : List Frame :=
  match c.stop with
  | none => j.newFrames c.kind c.data c.time
  | some n => (j.newFrames c.kind c.data c.time).take (n + 1)

def WriteCall.perform (j : Journal) (c : WriteCall) : Journal := (c.frames j).foldl record j

def afterCalls (j : Journal) (calls : List WriteCall) : Journal := calls.foldl WriteCall.perform j

def logged (j : Journal) : List WriteCall → List Frame
  | [] => []
  | c :: rest => c.frames j ++ logged (c.perform j) rest

/-- Reading batch after batch, from the last number of a batch on, until one is empty. -/
def drain (j : Journal) : ℕ → UInt64 → Option (List Frame)
  | 0, _ => none
  | n + 1, after =>
    match (j.read after).getLast? with
    | none => some []
    | some f => (j.drain n f.sequence).map (j.read after ++ ·)

def Dropped (history : List Frame) (j : Journal) (after : UInt64) : Prop :=
  ∃ f ∈ history, number f = after.toNat + 1 ∧ f ∉ j.frames

instance (history : List Frame) (j : Journal) (after : UInt64) :
    Decidable (Dropped history j after) :=
  inferInstanceAs (Decidable (∃ f ∈ history, number f = after.toNat + 1 ∧ f ∉ j.frames))

/-- What a reader is to get from a number on: the frames kept, after a gap if the next one is
missing. -/
def due (history : List Frame) (j : Journal) (after : UInt64) : List Frame :=
  (match j.frames with
    | f :: _ => if Dropped history j after then [gap f.sequence] else []
    | [] => []) ++ j.frames.filter fun f => decide (after.toNat < number f)

/-- A reader that begins after the given number gets ascending batches, and exactly what is due
to it, in finitely many of them. -/
structure Pages (history : List Frame) (j : Journal) (after : UInt64) : Prop where
  later : ∀ f ∈ j.read after, after.toNat < number f
  ascending : (j.read after).Pairwise fun f g => number f < number g
  complete : ∃ rounds, j.drain rounds after = some (due history j after)

section calls
variable {j : Journal} {calls : List WriteCall} {c : WriteCall}

theorem afterCalls_eq : afterCalls j calls = (logged j calls).foldl record j := by
  induction calls generalizing j with
  | nil => rfl
  | cons c rest ih =>
    rw [logged, List.foldl_append]
    exact ih

theorem length_logged_cons : (logged j (c :: calls)).length =
    (c.frames j).length + (logged (c.perform j) calls).length := by
  rw [logged, List.length_append]

theorem stamp_take {kind : String} {time : Time} {seq : UInt64} {n : ℕ} {ps : List (List UInt8)} :
    (stamp kind time seq ps).take n = stamp kind time seq (ps.take n) := by
  induction ps generalizing seq n with
  | nil => simp [stamp]
  | cons p ps ih =>
    cases n with
    | zero => rfl
    | succ n => rw [stamp, List.take_succ_cons, ih, List.take_succ_cons, stamp]

theorem consecutive_frames (h : j.seq.toNat + (c.frames j).length < 2 ^ 64) :
    Consecutive number (j.seq.toNat + 1) (c.frames j) := by
  unfold WriteCall.frames at h ⊢
  split at h
  · rw [newFrames, length_stamp] at h
    exact consecutive_stamp h
  · rw [newFrames, stamp_take, length_stamp] at h
    rw [newFrames, stamp_take]
    exact consecutive_stamp h

theorem mem_newFrames_of_mem_frames {f : Frame} (h : f ∈ c.frames j) :
    f ∈ j.newFrames c.kind c.data c.time := by
  unfold WriteCall.frames at h
  split at h
  · exact h
  · exact List.mem_of_mem_take h

theorem short_logged {f : Frame} (h : f ∈ logged j calls) : f.data.length ≤ chunkSize := by
  induction calls generalizing j with
  | nil => cases h
  | cons c rest ih =>
    rcases List.mem_append.1 h with h | h
    · exact (mem_pieces (mem_stamp (mem_newFrames_of_mem_frames h)).2.1).2
    · exact ih h

theorem written_logged (hkinds : ∀ c ∈ calls, c.kind.length ≤ 6) {f : Frame} (h : f ∈ logged j calls) :
    Written f := by
  induction calls generalizing j with
  | nil => cases h
  | cons c rest ih =>
    rcases List.mem_append.1 h with h | h
    · have hnew : f ∈ j.newFrames c.kind c.data c.time := mem_newFrames_of_mem_frames h
      exact (written_newFrames (hkinds c List.mem_cons_self) hnew).1
    · exact ih (fun d hd => hkinds d (List.mem_cons_of_mem c hd)) h

theorem consecutive_logged (h : j.seq.toNat + (logged j calls).length < 2 ^ 64) :
    Consecutive number (j.seq.toNat + 1) (logged j calls) := by
  induction calls generalizing j with
  | nil => trivial
  | cons c rest ih =>
    rw [length_logged_cons] at h
    have hframes : Consecutive number (j.seq.toNat + 1) (c.frames j) :=
      consecutive_frames (by omega)
    have hseq : (c.perform j).seq.toNat = j.seq.toNat + (c.frames j).length :=
      foldl_record_seq hframes
    have hrest := ih (j := c.perform j) (by omega)
    rw [logged, consecutive_append]
    refine ⟨hframes, ?_⟩
    rwa [hseq, Nat.add_right_comm] at hrest

theorem loaded_record {l fs : List Frame} (h : Loaded l j) : Loaded (l ++ fs) (fs.foldl record j) := by
  induction fs generalizing l j with
  | nil => rwa [List.append_nil]
  | cons f fs ih =>
    have hnext : Loaded (l ++ [f] ++ fs) (fs.foldl record (j.record f)) := ih h.record
    rwa [List.append_assoc, List.singleton_append] at hnext

theorem loaded_afterCalls : Loaded (logged {} calls) (afterCalls {} calls) := by
  rw [afterCalls_eq]
  exact loaded_record loaded_empty

theorem consecutive_written (h : (logged {} calls).length < 2 ^ 64) :
    Consecutive number 1 (logged {} calls) := by
  apply @consecutive_logged {} calls
  rwa [show ({} : Journal).seq.toNat = 0 from rfl, Nat.zero_add]

theorem afterCalls_seq (h : (logged {} calls).length < 2 ^ 64) :
    (afterCalls {} calls).seq.toNat = (logged {} calls).length := by
  rw [afterCalls_eq, @foldl_record_seq {} _ (consecutive_written h)]
  exact Nat.zero_add _

end calls

section drain
variable {j : Journal} {after : UInt64} {n : ℕ} {f : Frame} {history : List Frame}

/-- What is kept after the last frame of a batch is what the batch leaves out. -/
theorem filter_eq_collect_append (h : UpTo number n j.frames)
    (hlast : (collect after 0 j.frames).getLast? = some f) :
    (j.frames.filter fun g => decide (after.toNat < number g)) =
      collect after 0 j.frames ++ j.frames.filter fun g => decide (number f < number g) := by
  obtain ⟨first, hfirst, -, -⟩ := h
  obtain ⟨init, hinit⟩ := List.getLast?_eq_some_iff.1 hlast
  have hf := mem_collect (hinit ▸ List.mem_append_right init List.mem_cons_self)
  obtain ⟨rest, hrest⟩ : collect after 0 j.frames <+:
    j.frames.filter fun g => decide (after.toNat < number g) := collect_prefix
  have hsorted := hfirst.pairwise.filter fun g => decide (after.toNat < number g)
  rw [← hrest] at hsorted ⊢
  obtain ⟨hbatch, hafter, hcross⟩ := List.pairwise_append.1 hsorted
  have hle : ∀ g ∈ collect after 0 j.frames, number g ≤ number f := by
    intro g hg
    rw [hinit] at hbatch hg
    rcases List.mem_append.1 hg with hg | hg
    · exact ((List.pairwise_append.1 hbatch).2.2 g hg f List.mem_cons_self).le
    · rw [List.mem_singleton.1 hg]
  congr 1
  refine eq_of_ascending hafter (hfirst.pairwise.filter _) fun g => ⟨fun hg => ?_, fun hg => ?_⟩
  · have hmem : g ∈ j.frames.filter fun g => decide (after.toNat < number g) :=
      hrest ▸ List.mem_append_right _ hg
    refine List.mem_filter.2 ⟨(List.mem_filter.1 hmem).1, decide_eq_true ?_⟩
    exact hcross f (hinit ▸ List.mem_append_right init List.mem_cons_self) g hg
  · obtain ⟨hmem, hgt⟩ := List.mem_filter.1 hg
    have hgt := of_decide_eq_true hgt
    have hin : g ∈ collect after 0 j.frames ++ rest := by
      rw [hrest, List.mem_filter]
      exact ⟨hmem, decide_eq_true (by omega)⟩
    rcases List.mem_append.1 hin with hin | hin
    · have hg := hle g hin
      omega
    · exact hin

theorem misses_of_mem (h : UpTo number n j.frames) (hn : n + 1 < 2 ^ 64) (hf : f ∈ j.frames) :
    j.misses f.sequence = false := by
  have hle := (h.bounds hf).2
  have hsucc : (f.sequence + 1).toNat = number f + 1 := toNat_succ (by unfold number at hle; omega)
  obtain ⟨first, hfirst, -, -⟩ := h
  unfold misses
  split
  · rename_i head rest hframes
    have hhead : number head = first := by
      rw [hframes] at hfirst
      exact hfirst.1
    have hlow := (hfirst.bounds hf).1
    rw [decide_eq_false_iff_not, UInt64.lt_iff_toNat_lt, hsucc]
    change ¬ number f + 1 < number head
    omega
  · rfl

theorem drain_retained (h : UpTo number n j.frames) (hn : n + 1 < 2 ^ 64)
    (hmiss : j.misses after = false) : ∃ rounds, j.drain rounds after =
      some (j.frames.filter fun g => decide (after.toNat < number g)) := by
  -- By induction on the number of frames left.
  generalize hk : (j.frames.filter fun g => decide (after.toNat < number g)).length = k
  induction k using Nat.strong_induction_on generalizing after with
  | _ k ih =>
  obtain ⟨hread, -⟩ := read_retained h hmiss
  cases hlast : (collect after 0 j.frames).getLast? with
  | none =>
    have hnil : collect after 0 j.frames = [] := List.getLast?_eq_none_iff.1 hlast
    refine ⟨1, ?_⟩
    rw [drain, hread, hlast]
    refine congrArg some (Eq.symm (List.filter_eq_nil_iff.2 fun g hg => ?_))
    have hle := le_of_read_eq_nil (hread.trans hnil) hg
    simpa using hle
  | some f =>
    have hsplit := filter_eq_collect_append h hlast
    have hf := mem_collect (List.mem_of_getLast? hlast)
    have hne : 0 < (collect after 0 j.frames).length :=
      List.length_pos_iff.2 fun hnil => by simp [hnil] at hlast
    have hless : (j.frames.filter fun g => decide (f.sequence.toNat < number g)).length < k := by
      rw [← hk, hsplit, List.length_append]
      exact Nat.lt_add_of_pos_left hne
    obtain ⟨rounds, hrounds⟩ := ih _ hless (misses_of_mem h hn hf.1) rfl
    refine ⟨rounds + 1, ?_⟩
    rw [drain, hread, hlast, hsplit]
    simp only [hrounds]
    rfl

theorem drain_missed (h : UpTo number n j.frames) (hn : n + 1 < 2 ^ 64)
    (hafter : after.toNat + 1 < 2 ^ 64) (hmiss : j.misses after = true) :
    ∃ first rest rounds, j.frames = first :: rest ∧ j.drain rounds after =
      some (gap first.sequence :: j.frames.filter fun g => decide (after.toNat < number g)) := by
  obtain ⟨first, batch, hread, hne, hlt, hbatch, hin⟩ := read_missed h hmiss hafter
  unfold misses at hmiss
  split at hmiss
  · rename_i head rest hframes
    have hgap : j.read after = gap head.sequence :: collect after 0 j.frames := by
      unfold read
      rw [hframes]
      exact congrArg (· ++ _) (if_pos (of_decide_eq_true hmiss))
    have hcollect : batch = collect after 0 j.frames := by
      rw [hgap] at hread
      exact (List.cons.inj hread).2.symm
    subst hcollect
    obtain ⟨f, hlast⟩ : ∃ f, (collect after 0 j.frames).getLast? = some f :=
      Option.ne_none_iff_exists'.1 (mt List.getLast?_eq_none_iff.1 hne)
    have hf := mem_collect (List.mem_of_getLast? hlast)
    obtain ⟨rounds, hrounds⟩ := drain_retained h hn (misses_of_mem h hn hf.1)
    refine ⟨head, rest, rounds + 1, hframes, ?_⟩
    have hreadLast : (j.read after).getLast? = some f := by
      rw [hgap, List.getLast?_cons, hlast]
      rfl
    rw [drain, hreadLast, hgap, filter_eq_collect_append h hlast]
    simp only [hrounds]
    rfl
  · cases hmiss

/-- A journal whose batches are never empty is never drained. -/
theorem drain_eq_none (h : ∀ c, j.read c ≠ []) (rounds : ℕ) : j.drain rounds after = none := by
  induction rounds generalizing after with
  | zero => rfl
  | succ rounds ih =>
    rw [drain]
    split
    · rename_i hnone
      exact absurd (List.getLast?_eq_none_iff.1 hnone) (h after)
    · rw [ih, Option.map_none]

end drain

section pages
variable {history : List Frame} {j : Journal} {after : UInt64}

/-- The frame after a number is missing exactly when `Read` reports a gap. -/
theorem misses_iff_dropped (hhistory : Consecutive number 1 history) (hloaded : Loaded history j)
    (hcost : ∀ f ∈ history, cost f ≤ limit) (hafter : after.toNat + 1 < 2 ^ 64) :
    j.misses after = true ↔ Dropped history j after := by
  obtain ⟨front, hfront⟩ := hloaded.suffix
  obtain ⟨hdropped, hkept⟩ := consecutive_append.1 (hfront ▸ hhistory)
  cases hframes : j.frames with
  | nil =>
    -- An empty journal has never been written to.
    have hempty : history = [] := by
      by_contra hne
      exact hloaded.ne_nil hne hcost hframes
    simp [misses, hframes, Dropped, hempty]
  | cons head rest =>
    have hhead : number head = 1 + front.length := by
      rw [hframes] at hkept
      exact hkept.1
    have hmiss : j.misses after = true ↔ after.toNat + 1 < number head := by
      rw [misses, hframes, decide_eq_true_eq, UInt64.lt_iff_toNat_lt, toNat_succ hafter]
      rfl
    rw [hmiss]
    constructor
    · intro hlt
      obtain ⟨f, hf, hnumber⟩ := hdropped.exists_mem (by omega : 1 ≤ after.toNat + 1) (by omega)
      refine ⟨f, hfront ▸ List.mem_append_left _ hf, hnumber, fun hmem => ?_⟩
      have hlow := (hkept.bounds hmem).1
      omega
    · rintro ⟨f, hf, hnumber, hgone⟩
      rw [← hfront] at hf
      have hmem := (List.mem_append.1 hf).resolve_right hgone
      have hhigh := (hdropped.bounds hmem).2
      omega

/-- A reader gets what is due to it exactly when neither its number nor the last number of the
journal is the largest one. -/
theorem pages_iff (hhistory : Consecutive number 1 history) (hloaded : Loaded history j)
    (hcost : ∀ f ∈ history, cost f ≤ limit) (hlen : history.length < 2 ^ 64) :
    Pages history j after ↔
      j.frames = [] ∨ (after.toNat + 1 < 2 ^ 64 ∧ history.length + 1 < 2 ^ 64) := by
  have hup : UpTo number history.length j.frames :=
    UpTo.suffix ⟨1, hhistory, by omega, le_rfl⟩ hloaded.suffix
  constructor
  · intro hpages
    by_contra hcond
    obtain ⟨hne, hlarge⟩ := not_or.1 hcond
    obtain ⟨head, rest, hframes⟩ := List.exists_cons_of_ne_nil hne
    have hhead := hup.bounds (hframes ▸ List.mem_cons_self : head ∈ j.frames)
    have hall := after.toNat_lt
    have hgap : ∀ c : UInt64, c.toNat + 1 = 2 ^ 64 → gap head.sequence ∈ j.read c := by
      intro c hc
      have hzero : (c + 1).toNat = 0 := by
        rw [UInt64.toNat_add, UInt64.toNat_one]
        omega
      unfold read
      rw [hframes]
      refine List.mem_append_left _ ?_
      have hlt : c + 1 < head.sequence := by
        rw [UInt64.lt_iff_toNat_lt, hzero]
        exact hhead.1
      dsimp only
      rw [if_pos hlt]
      exact List.mem_singleton_self _
    by_cases hafter : after.toNat + 1 < 2 ^ 64
    · -- The last frame has the largest number, and no batch is ever empty.
      obtain ⟨rounds, hrounds⟩ := hpages.complete
      rw [drain_eq_none] at hrounds
      · cases hrounds
      intro c hnil
      obtain ⟨first, hfirst, hcount, -⟩ := hup
      obtain ⟨f, hf, hnumber⟩ := hfirst.exists_mem (n := history.length)
        (by rw [hframes] at hcount; simp at hcount; omega) (by omega)
      have hle := le_of_read_eq_nil hnil hf
      have hc := c.toNat_lt
      have hmem := hgap c (by omega)
      rw [hnil] at hmem
      cases hmem
    · have hlater := hpages.later _ (hgap after (by omega))
      have hnumber : number (gap head.sequence) + 1 = number head := toNat_pred hhead.1
      omega
  · rintro (hnil | ⟨hafter, hn⟩)
    · have hread : j.read after = [] := by simp [read, hnil, collect]
      refine ⟨by simp [hread], by simp [hread], 1, ?_⟩
      simp [drain, hread, due, hnil]
    · obtain ⟨hascending, hlater⟩ := read_ascending hup hafter
      refine ⟨fun f hf => (hlater f hf).1, hascending, ?_⟩
      have hdropped := misses_iff_dropped hhistory hloaded hcost hafter
      cases hmiss : j.misses after with
      | false =>
        have hno : ¬ Dropped history j after := fun hd => by
          rw [hdropped.2 hd] at hmiss
          cases hmiss
        obtain ⟨rounds, hrounds⟩ := drain_retained hup hn hmiss
        refine ⟨rounds, hrounds.trans (congrArg some ?_)⟩
        unfold due
        split
        · rw [if_neg hno, List.nil_append]
        · rw [List.nil_append]
      | true =>
        obtain ⟨head, rest, rounds, hframes, hrounds⟩ := drain_missed hup hn hafter hmiss
        refine ⟨rounds, hrounds.trans (congrArg some ?_)⟩
        unfold due
        rw [hframes]
        dsimp only
        rw [if_pos (hdropped.1 hmiss)]
        rfl

end pages

/-- The readers of a journal get what is due to them exactly if they begin before the largest
number and it is not in use. -/
theorem pages_exact (calls : List WriteCall) (after : UInt64)
    (hlen : (logged {} calls).length < 2 ^ 64) :
    Pages (logged {} calls) (afterCalls {} calls) after ↔
      (afterCalls {} calls).frames = [] ∨
        (after.toNat + 1 < 2 ^ 64 ∧ (afterCalls {} calls).seq.toNat + 1 < 2 ^ 64) := by
  rw [afterCalls_seq hlen]
  exact pages_iff (consecutive_written hlen) loaded_afterCalls
    (fun f hf => cost_le_of_short (short_logged hf)) hlen

/-- A reader that begins after frame 1 of three gets the other two. -/
theorem pages_exact_three : Pages (logged {} (List.replicate 3 ⟨"stdout", [7], 0, none⟩))
    (afterCalls {} (List.replicate 3 ⟨"stdout", [7], 0, none⟩)) 1 :=
  (pages_exact (List.replicate 3 ⟨"stdout", [7], 0, none⟩) 1 (by decide +kernel)).2
    (.inr ⟨by decide, by decide +kernel⟩)

/-- With the largest number, `Read` adds one and reports a gap before the first frame. -/
theorem largest_cursor_rereads :
    (afterCalls {} [⟨"stdout", [7], 0, none⟩]).read (2 ^ 64 - 1) = [gap 1] ∧
      ¬ Pages (logged {} [⟨"stdout", [7], 0, none⟩]) (afterCalls {} [⟨"stdout", [7], 0, none⟩])
        (2 ^ 64 - 1) := by
  have hread : (afterCalls {} [⟨"stdout", [7], 0, none⟩]).read (2 ^ 64 - 1) = [gap 1] := by
    decide +kernel
  refine ⟨hread, fun hpages => ?_⟩
  have hlater := hpages.later (gap 1) (by rw [hread]; exact List.mem_singleton_self _)
  revert hlater
  decide +kernel

end Journal
end Niflhel
