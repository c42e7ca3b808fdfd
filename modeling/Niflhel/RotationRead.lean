import Niflhel.Follow
import Niflhel.Reopening

/-!
# Reading a journal while it rotates

`Open` reads `path + ".1"` and then `path`. A writer that has grown `path` beyond the limit
removes `path + ".1"`, renames `path` to it and begins a new file. A reader whose two reads
enclose a rename has the old file before last and the new one; the file between them is missing,
and `Read` looks for a gap only before the first frame.
-/

namespace Niflhel
namespace Journal
open Numbering

/-- A writer in the middle of a call of `Write`: the frames still to be stored and the step for
the first of them. `made` are all frames so far, `rotations` the renames. -/
structure Writer where
  journal : Journal := {}
  files : Files := {}
  queue : List Frame := []
  stage : Follow.Stage := .checking
  made : List Frame := []
  rotations : ℕ := 0

def Writer.advance (enc : Encoding) (w : Writer) : Writer :=
  match w.queue with
  | [] => w
  | f :: rest =>
    match w.stage with
    | .checking => { w with stage := if w.files.full enc then .removing else .adding }
    | .removing => { w with files := { w.files with old := [] }, stage := .moving }
    | .moving => { w with files := w.files.rotate, stage := .adding, rotations := w.rotations + 1 }
    | .adding => { w with files := w.files.add f, queue := rest, stage := .checking }

inductive Move where
  | call (kind : String) (data : List UInt8) (time : Time)
  | advance

def Writer.move (enc : Encoding) (w : Writer) : Move → Writer
  | .call kind b time =>
    if w.queue = [] then
      { w with
        journal := w.journal.write kind b time
        queue := w.journal.newFrames kind b time
        made := w.made ++ w.journal.newFrames kind b time }
    else w
  | .advance => w.advance enc

def Writer.run (enc : Encoding) (w : Writer) (moves : List Move) : Writer :=
  moves.foldl (Writer.move enc) w

/-- What a reader has that reads the first file now and the second one at a later state. -/
def sample (enc : Encoding) (before later : Writer) : Journal :=
  openFiles enc ⟨before.files.old, later.files.cur⟩

def isGap (f : Frame) : Prop := f.type = "gap" ∧ f.message = gapMessage

/-- Frames follow each other without a hole, or after a gap frame that covers it. -/
def HoleFree (fs : List Frame) : Prop :=
  fs.IsChain fun f g => number g = number f + 1 ∨ (isGap g ∧ number f < number g)

/-- The reads enclose a rename, both files have frames, and the memory of the reader holds the
second file and the last frame of the first one. -/
def Torn (before later : Writer) : Prop :=
  before.rotations ≠ later.rotations ∧ later.files.cur ≠ [] ∧
    ∃ f, before.files.old.getLast? = some f ∧ cost f + (later.files.cur.map cost).sum ≤ limit

structure Writer.Orderly (w : Writer) : Prop where
  numbered : Consecutive number 1 w.made
  seq : w.journal.seq.toNat = w.made.length
  lines : w.files.lines ++ w.queue <:+ w.made
  plain : ∀ f ∈ w.made, f.data.length ≤ chunkSize ∧ f.message = ""
  removing : w.stage = .removing → w.files.cur ≠ []
  moving : w.stage = .moving → w.files.cur ≠ []

def Writer.begun (w : Writer) : ℕ := w.made.length - w.queue.length - w.files.cur.length

variable {moves : List Move}

section writer
variable {enc : Encoding} {w w' : Writer} {m : Move}

theorem Writer.Orderly.split (h : w.Orderly) : ∃ front, w.made = front ++ w.files.old ++
    w.files.cur ++ w.queue ∧ w.begun = front.length + w.files.old.length := by
  obtain ⟨front, hfront⟩ := h.lines
  refine ⟨front, ?_, ?_⟩
  · rw [← hfront]
    simp [Files.lines]
  · unfold Writer.begun
    rw [← hfront]
    simp only [Files.lines, List.length_append]
    omega

theorem Writer.Orderly.cur (h : w.Orderly) : Consecutive number (w.begun + 1) w.files.cur := by
  obtain ⟨front, hmade, hbegun⟩ := h.split
  have hnumbered := h.numbered
  rw [hmade, consecutive_append, consecutive_append, List.length_append, Nat.add_comm 1,
    ← hbegun] at hnumbered
  exact hnumbered.1.2

theorem Writer.Orderly.old (h : w.Orderly) : ∃ first, 1 ≤ first ∧ Consecutive number first w.files.old ∧
    first + w.files.old.length = w.begun + 1 := by
  obtain ⟨front, hmade, hbegun⟩ := h.split
  have hnumbered := h.numbered
  rw [hmade, List.append_assoc, List.append_assoc, consecutive_append, consecutive_append] at hnumbered
  exact ⟨1 + front.length, by omega, hnumbered.2.1, by omega⟩

theorem cur_ne_nil {files : Files} (h : files.full enc = true) : files.cur ≠ [] := by
  intro hnil
  simp [Files.full, hnil] at h

/-- The numbering goes on, and the files are changed only in the order of `Write`. -/
theorem Writer.Orderly.move (h : w.Orderly) (hroom : (w.move enc m).made.length < 2 ^ 64) :
    (w.move enc m).Orderly := by
  cases m with
  | call kind b time =>
    unfold Writer.move at hroom ⊢
    dsimp only at hroom ⊢
    by_cases hqueue : w.queue = []
    · rw [if_pos hqueue] at hroom ⊢
      dsimp only at hroom
      have hlen : w.journal.seq.toNat + (pieces b.length b).length < 2 ^ 64 := by
        rw [List.length_append, newFrames, length_stamp] at hroom
        rwa [h.seq]
      have hnew : Consecutive number (w.journal.seq.toNat + 1) (w.journal.newFrames kind b time) :=
        consecutive_stamp hlen
      refine ⟨?_, ?_, ?_, fun f hf => ?_, h.removing, h.moving⟩
      · rw [h.seq, Nat.add_comm] at hnew
        exact consecutive_append.2 ⟨h.numbered, hnew⟩
      · dsimp only
        rw [write_seq hlen, h.seq, List.length_append, newFrames, length_stamp]
      · obtain ⟨front, hfront⟩ := h.lines
        rw [hqueue, List.append_nil] at hfront
        exact ⟨front, by rw [← hfront, List.append_assoc]⟩
      · rcases List.mem_append.1 hf with hf | hf
        · exact h.plain f hf
        · obtain ⟨-, hdata, hmessage, -⟩ := mem_stamp hf
          exact ⟨(mem_pieces hdata).2, hmessage⟩
    · rw [if_neg hqueue]
      exact h
  | advance =>
    unfold Writer.move Writer.advance
    dsimp only
    cases hqueue : w.queue with
    | nil => exact h
    | cons f rest =>
      have hlines := h.lines
      rw [hqueue] at hlines
      dsimp only
      cases hstage : w.stage with
      | checking =>
        dsimp only
        refine ⟨h.numbered, h.seq, hqueue ▸ hlines, h.plain, fun hr => ?_, fun hm => ?_⟩
        · dsimp only at hr
          split_ifs at hr with hfull
          exact cur_ne_nil hfull
        · dsimp only at hm
          split_ifs at hm
      | removing =>
        refine ⟨h.numbered, h.seq, ?_, h.plain, by rintro ⟨⟩, fun _ => h.removing hstage⟩
        dsimp only [Files.lines]
        refine List.IsSuffix.trans ?_ hlines
        exact ⟨w.files.old, by simp [Files.lines]⟩
      | moving =>
        refine ⟨h.numbered, h.seq, ?_, h.plain, by rintro ⟨⟩, by rintro ⟨⟩⟩
        dsimp only [Files.lines, Files.rotate]
        refine List.IsSuffix.trans ?_ hlines
        exact ⟨w.files.old, by simp [Files.lines]⟩
      | adding =>
        refine ⟨h.numbered, h.seq, ?_, h.plain, by rintro ⟨⟩, by rintro ⟨⟩⟩
        simpa [Files.lines, Files.add] using hlines

theorem Writer.Orderly.grows (h : w.Orderly) :
    ((w.move enc m).rotations = w.rotations ∧ w.files.cur <+: (w.move enc m).files.cur ∧
      (w.move enc m).begun = w.begun) ∨
    (w.rotations < (w.move enc m).rotations ∧ w.begun < (w.move enc m).begun) := by
  obtain ⟨front, hmade, -⟩ := h.split
  have hlen := congrArg List.length hmade
  simp only [List.length_append] at hlen
  cases m with
  | call kind b time =>
    unfold Writer.move
    dsimp only
    by_cases hqueue : w.queue = []
    · rw [if_pos hqueue]
      refine .inl ⟨rfl, List.prefix_rfl, ?_⟩
      simp only [Writer.begun, List.length_append, hqueue, List.length_nil]
      omega
    · rw [if_neg hqueue]
      exact .inl ⟨rfl, List.prefix_rfl, rfl⟩
  | advance =>
    unfold Writer.move Writer.advance
    cases hqueue : w.queue with
    | nil => exact .inl ⟨rfl, List.prefix_rfl, rfl⟩
    | cons f rest =>
      cases hstage : w.stage with
      | checking | removing => exact .inl ⟨rfl, List.prefix_rfl, by simp [Writer.begun, hqueue]⟩
      | moving =>
        have hpos := List.length_pos_iff.2 (h.moving hstage)
        refine .inr ⟨Nat.lt_succ_self _, ?_⟩
        simp only [Writer.begun, Files.rotate, List.length_nil, hqueue] at hlen ⊢
        omega
      | adding =>
        refine .inl ⟨rfl, List.prefix_append _ _, ?_⟩
        simp only [Writer.begun, Files.add, hqueue, List.length_append, List.length_cons,
          List.length_nil] at hlen ⊢
        omega

theorem Writer.made_move : w.made <+: (w.move enc m).made := by
  cases m with
  | call kind b time =>
    unfold Writer.move
    dsimp only
    split
    · exact List.prefix_append _ _
    · exact List.prefix_rfl
  | advance =>
    unfold Writer.move Writer.advance
    dsimp only
    split
    · exact List.prefix_rfl
    · split <;> exact List.prefix_rfl

theorem Writer.run_cons : w.run enc (m :: moves) = (w.move enc m).run enc moves := rfl

theorem Writer.made_run : w.made <+: (w.run enc moves).made := by
  induction moves generalizing w with
  | nil => exact List.prefix_rfl
  | cons m moves ih => exact Writer.made_move.trans ih

theorem Writer.Orderly.run (h : w.Orderly)
    (hroom : (w.run enc moves).made.length < 2 ^ 64) : (w.run enc moves).Orderly := by
  induction moves generalizing w with
  | nil => exact h
  | cons m moves ih =>
    have hmade : (w.move enc m).made <+: (w.run enc (m :: moves)).made := Writer.made_run
    exact ih (h.move (hmade.length_le.trans_lt hroom)) hroom

theorem Writer.Orderly.run_grows (h : w.Orderly) (hroom : (w.run enc moves).made.length < 2 ^ 64) :
    ((w.run enc moves).rotations = w.rotations ∧ (w.run enc moves).begun = w.begun) ∨
    (w.rotations < (w.run enc moves).rotations ∧ w.begun < (w.run enc moves).begun) := by
  induction moves generalizing w with
  | nil => exact .inl ⟨rfl, rfl⟩
  | cons m moves ih =>
    have hmade : (w.move enc m).made <+: (w.run enc (m :: moves)).made := Writer.made_run
    have hnext := h.move (hmade.length_le.trans_lt hroom)
    rw [Writer.run_cons] at hroom ⊢
    rcases @Writer.Orderly.grows enc w m h with ⟨hrot, -, hbegun⟩ | ⟨hrot, hbegun⟩
    · rcases ih hnext hroom with ⟨hrot', hbegun'⟩ | ⟨hrot', hbegun'⟩
      · exact .inl ⟨hrot'.trans hrot, hbegun'.trans hbegun⟩
      · exact .inr ⟨by omega, by omega⟩
    · rcases ih hnext hroom with ⟨hrot', hbegun'⟩ | ⟨hrot', hbegun'⟩
      · exact .inr ⟨by omega, by omega⟩
      · exact .inr ⟨by omega, by omega⟩

theorem orderly_empty : Writer.Orderly {} :=
  ⟨trivial, rfl, List.suffix_rfl, nofun, nofun, nofun⟩

end writer

section reader
variable {enc : Encoding} {j : Journal} {before later : Writer} {f g : Frame} {first : ℕ} {c : UInt64}

theorem holeFree_read (hfirst : 1 ≤ first) (h : Consecutive number first j.frames) (c : UInt64) :
    HoleFree (j.read c) := by
  have hup : UpTo number (first + j.frames.length - 1) j.frames := ⟨first, h, by omega, hfirst⟩
  by_cases hc : c.toNat + 1 < 2 ^ 64
  · cases hmiss : j.misses c with
    | false =>
      obtain ⟨-, hbatch⟩ := read_retained hup hmiss
      exact hbatch.isChain.imp fun _ _ heq => .inl heq
    | true =>
      obtain ⟨start, batch, hread, hne, hlt, hbatch, -⟩ := read_missed hup hmiss hc
      have hgap : number (gap start) + 1 = start.toNat := toNat_pred (by omega)
      have hwhole : Consecutive number (number (gap start)) (gap start :: batch) :=
        ⟨rfl, by rwa [hgap]⟩
      rw [hread]
      exact hwhole.isChain.imp fun _ _ heq => .inl heq
  · -- No number is larger: at most a gap is returned.
    have hnone : collect c 0 j.frames = [] := by
      rw [List.eq_nil_iff_forall_not_mem]
      intro g hg
      have hlt := (mem_collect hg).2
      have hmax := number_lt g
      omega
    unfold HoleFree read
    rw [hnone, List.append_nil]
    split
    · split
      · exact List.isChain_singleton _
      · exact List.isChain_nil
    · exact List.isChain_nil

variable {rest : List Frame}

theorem collect_cons_eq {size : ℕ} (hf : c.toNat < number f) :
    ∃ more, collect c size (f :: rest) = f :: more := by
  have hlt : f.sequence > c := UInt64.lt_iff_toNat_lt.2 hf
  unfold collect
  rw [if_pos hlt]
  split
  · exact ⟨[], rfl⟩
  · exact ⟨_, rfl⟩

/-- From the frame before a hole on, a batch shows it. -/
theorem collect_hole {front : List Frame} (hfront : ∀ h ∈ front, number h ≤ c.toNat)
    (hf : c.toNat < number f) (hg : c.toNat < number g) (hshort : f.data.length ≤ chunkSize) :
    ∃ more, collect c 0 (front ++ f :: g :: rest) = f :: g :: more := by
  induction front with
  | nil =>
    have hlt : f.sequence > c := UInt64.lt_iff_toNat_lt.2 hf
    have hroom : ¬ 0 + f.data.length ≥ batchSize := by
      unfold chunkSize at hshort
      unfold batchSize
      omega
    obtain ⟨more, hmore⟩ := @collect_cons_eq g c rest (0 + f.data.length) hg
    refine ⟨more, ?_⟩
    rw [List.nil_append, collect, if_pos hlt, if_neg hroom, hmore]
  | cons h front ih =>
    obtain ⟨hle, hrest⟩ := List.forall_mem_cons.1 hfront
    have hnot : ¬ h.sequence > c := fun hgt => by
      have hlt := UInt64.lt_iff_toNat_lt.1 hgt
      unfold number at hle
      omega
    rw [List.cons_append, collect, if_neg hnot]
    exact ih hrest

/-- A reader that has seen the frames before `f` is shown the hole behind it. -/
theorem read_hole {front : List Frame} (hframes : j.frames = front ++ f :: g :: rest)
    (hascending : j.frames.Pairwise fun a b => number a < number b) (hpos : 1 ≤ number f)
    (hshort : f.data.length ≤ chunkSize) (hplain : g.message = "")
    (hhole : number g ≠ number f + 1) : ¬ HoleFree (j.read (f.sequence - 1)) := by
  have hpred : (f.sequence - 1).toNat + 1 = number f := toNat_pred hpos
  rw [hframes, List.pairwise_append] at hascending
  obtain ⟨-, htail, hcross⟩ := hascending
  have hfg := (List.pairwise_cons.1 htail).1 g List.mem_cons_self
  have hfront : ∀ h ∈ front, number h ≤ (f.sequence - 1).toNat := by
    intro h hh
    have hlt := hcross h hh f List.mem_cons_self
    omega
  obtain ⟨more, hmore⟩ : ∃ more, collect (f.sequence - 1) 0 (front ++ f :: g :: rest) = f :: g :: more :=
    collect_hole hfront (by omega) (by omega) hshort
  intro hfree
  unfold HoleFree read at hfree
  rw [hframes, hmore, List.isChain_append] at hfree
  rcases (List.isChain_cons_cons.1 hfree.2.1).1 with heq | ⟨⟨-, hgap⟩, -⟩
  · exact hhole heq
  · rw [hplain] at hgap
    exact absurd hgap (by decide)

/-- The files that enclose no rename continue each other; otherwise a file is missing between
them. -/
theorem sample_numbers (hbefore : before.Orderly) (hlater : later.Orderly)
    (hbegun : before.begun ≤ later.begun) :
    (before.files.old ++ later.files.cur).Pairwise (fun a b => number a < number b) ∧
      (∀ f ∈ before.files.old, 1 ≤ number f) := by
  obtain ⟨first, hpos, hold, hlen⟩ := hbefore.old
  refine ⟨List.pairwise_append.2 ⟨hold.pairwise, hlater.cur.pairwise, fun a ha b hb => ?_⟩,
    fun f hf => hpos.trans (hold.bounds hf).1⟩
  have hhigh := (hold.bounds ha).2
  have hlow := (hlater.cur.bounds hb).1
  omega

theorem sample_consecutive (hbefore : before.Orderly) (hlater : later.Orderly)
    (hbegun : later.begun = before.begun) :
    ∃ first, 1 ≤ first ∧ Consecutive number first (before.files.old ++ later.files.cur) := by
  obtain ⟨first, hpos, hold, hlen⟩ := hbefore.old
  refine ⟨first, hpos, consecutive_append.2 ⟨hold, ?_⟩⟩
  rw [hlen, ← hbegun]
  exact hlater.cur

theorem consecutive_suffix {l m : List Frame} (hfirst : 1 ≤ first) (h : Consecutive number first l)
    (hm : m <:+ l) : ∃ first, 1 ≤ first ∧ Consecutive number first m := by
  obtain ⟨front, rfl⟩ := hm
  exact ⟨first + front.length, by omega, (consecutive_append.1 h).2⟩

/-- If the reader keeps the last frame of the first file and the second file, which a rename has
begun meanwhile, it sees the hole. -/
theorem torn_hole (hbefore : before.Orderly) (hlater : later.Orderly)
    (hlt : before.begun < later.begun)
    (hloaded : Loaded (before.files.old ++ later.files.cur) (sample enc before later))
    (hlast : before.files.old.getLast? = some f) (hcur : later.files.cur ≠ [])
    (hfits : cost f + (later.files.cur.map cost).sum ≤ limit) :
    ¬ HoleFree ((sample enc before later).read (f.sequence - 1)) := by
  obtain ⟨hascending, hpositive⟩ := sample_numbers hbefore hlater hlt.le
  obtain ⟨g, rest, hg⟩ := List.exists_cons_of_ne_nil hcur
  obtain ⟨init, hold⟩ := List.getLast?_eq_some_iff.1 hlast
  have hmem : f ∈ before.files.old := List.mem_of_getLast? hlast
  have hkept : f :: later.files.cur <:+ (sample enc before later).frames := by
    apply hloaded.longest
    · exact ⟨init, by rw [hold]; simp⟩
    · simpa using hfits
  obtain ⟨front, hfront⟩ := hkept
  have hhole : number g ≠ number f + 1 := by
    obtain ⟨first, -, hnumbers, hlen⟩ := hbefore.old
    have hf := (hnumbers.bounds hmem).2
    have hstart : number g = later.begun + 1 := by
      have hcurNumbers := hlater.cur
      rw [hg] at hcurNumbers
      exact hcurNumbers.1
    omega
  rw [hg] at hfront
  have hshort := (hbefore.plain f (hbefore.lines.subset (by simp [Files.lines, hmem]))).1
  have hplain := (hlater.plain g (hlater.lines.subset (by simp [Files.lines, hg]))).2
  exact read_hole hfront.symm (hascending.sublist hloaded.suffix.sublist) (hpositive f hmem) hshort
    hplain hhole

theorem sample_holeFree_iff (hbefore : before.Orderly) (hlater : later.Orderly)
    (hgrows : (later.rotations = before.rotations ∧ later.begun = before.begun) ∨
      (before.rotations < later.rotations ∧ before.begun < later.begun))
    (hloaded : Loaded (before.files.old ++ later.files.cur) (sample enc before later)) :
    (∀ c, HoleFree ((sample enc before later).read c)) ↔ ¬ Torn before later := by
  have hcost : ∀ f ∈ before.files.old ++ later.files.cur, cost f ≤ limit := by
    intro f hf
    rcases List.mem_append.1 hf with hf | hf
    · exact cost_le_of_short (hbefore.plain f (hbefore.lines.subset (by simp [Files.lines, hf]))).1
    · exact cost_le_of_short (hlater.plain f (hlater.lines.subset (by simp [Files.lines, hf]))).1
  constructor
  · rintro hfree ⟨hrot, hcur, f, hlast, hfits⟩
    have hlt : before.begun < later.begun := by
      rcases hgrows with ⟨heq, -⟩ | ⟨-, hlt⟩
      · exact absurd heq.symm hrot
      · exact hlt
    exact torn_hole hbefore hlater hlt hloaded hlast hcur hfits (hfree _)
  · intro htorn c
    obtain ⟨oldFirst, holdPos, hold, -⟩ := hbefore.old
    -- What the reader keeps has consecutive numbers in each of the cases.
    have hconsecutive : ∃ first, 1 ≤ first ∧ Consecutive number first (sample enc before later).frames := by
      rcases hgrows with ⟨-, heq⟩ | ⟨hrot, -⟩
      · obtain ⟨first, hpos, hfirst⟩ := sample_consecutive hbefore hlater heq
        exact consecutive_suffix hpos hfirst hloaded.suffix
      · rcases List.eq_nil_or_concat' before.files.old with hnil | ⟨init, f, hconcat⟩
        · have hsuffix := hloaded.suffix
          rw [hnil, List.nil_append] at hsuffix
          exact consecutive_suffix (by omega) hlater.cur hsuffix
        by_cases hcur : later.files.cur = []
        · have hsuffix := hloaded.suffix
          rw [hcur, List.append_nil] at hsuffix
          exact consecutive_suffix holdPos hold hsuffix
        have hover : ¬ cost f + (later.files.cur.map cost).sum ≤ limit := fun hle =>
          htorn ⟨hrot.ne, hcur, f, by rw [hconcat, List.getLast?_concat], hle⟩
        have hsuffix : (sample enc before later).frames <:+ later.files.cur := by
          have htail : f :: later.files.cur <:+ before.files.old ++ later.files.cur :=
            ⟨init, by rw [hconcat]; simp⟩
          rcases List.suffix_or_suffix_of_suffix hloaded.suffix htail with hle | hge
          · rcases List.suffix_cons_iff.1 hle with heq | hle
            · have hfits := hloaded.fits hcost
              rw [heq, List.map_cons, List.sum_cons] at hfits
              exact absurd hfits hover
            · exact hle
          · have hfits := hloaded.fits hcost
            obtain ⟨front, hfront⟩ := hge
            rw [← hfront, List.map_append, List.sum_append, List.map_cons, List.sum_cons] at hfits
            omega
        exact consecutive_suffix (by omega) hlater.cur hsuffix
    obtain ⟨first, hpos, hfirst⟩ := hconsecutive
    exact holeFree_read hpos hfirst c

end reader

structure Writer.Sampled (enc : Encoding) (before later : Writer) : Prop where
  first : before.Orderly
  second : later.Orderly
  grows : (later.rotations = before.rotations ∧ later.begun = before.begun) ∨
    (before.rotations < later.rotations ∧ before.begun < later.begun)
  loaded : Loaded (before.files.old ++ later.files.cur) (sample enc before later)

theorem sampled_of_runs {enc : Encoding} {start between : List Move}
    (hroom : (Writer.run enc {} (start ++ between)).made.length < 2 ^ 64)
    (hfit : ∀ f ∈ (Writer.run enc {} (start ++ between)).made, enc.size f ≤ maxLine) :
    Writer.Sampled enc (Writer.run enc {} start) (Writer.run enc {} (start ++ between)) := by
  have hsplit : Writer.run enc {} (start ++ between) = (Writer.run enc {} start).run enc between :=
    List.foldl_append
  rw [hsplit] at hroom hfit ⊢
  have hmade : (Writer.run enc {} start).made <+: ((Writer.run enc {} start).run enc between).made :=
    Writer.made_run
  have hbefore : (Writer.run enc {} start).Orderly :=
    orderly_empty.run (hmade.length_le.trans_lt hroom)
  have hlater := hbefore.run hroom
  have hlines : ∀ f ∈ Files.lines ⟨(Writer.run enc {} start).files.old,
      ((Writer.run enc {} start).run enc between).files.cur⟩, enc.size f ≤ maxLine := by
    intro f hf
    rcases List.mem_append.1 hf with hf | hf
    · have hline : f ∈ (Writer.run enc {} start).files.lines := List.mem_append_left _ hf
      exact hfit f (hmade.subset (hbefore.lines.subset (List.mem_append_left _ hline)))
    · have hline : f ∈ ((Writer.run enc {} start).run enc between).files.lines :=
        List.mem_append_right _ hf
      exact hfit f (hlater.lines.subset (List.mem_append_left _ hline))
  exact ⟨hbefore, hlater, hbefore.run_grows hroom, loaded_of_fits hlines⟩

/-- For every course of the writer before and between the two reads, with lines that `Open`
accepts: no answer has a hole exactly if the reads are not torn. -/
theorem reads_holeFree_iff (enc : Encoding) (start between : List Move)
    (hroom : (Writer.run enc {} (start ++ between)).made.length < 2 ^ 64)
    (hfit : ∀ f ∈ (Writer.run enc {} (start ++ between)).made, enc.size f ≤ maxLine) :
    (∀ c, HoleFree ((sample enc (Writer.run enc {} start)
      (Writer.run enc {} (start ++ between))).read c)) ↔
      ¬ Torn (Writer.run enc {} start) (Writer.run enc {} (start ++ between)) := by
  have h := sampled_of_runs hroom hfit
  exact sample_holeFree_iff h.first h.second h.grows h.loaded

/-- As much as `Write` puts into one frame. -/
@[irreducible] def fullData : List UInt8 := List.replicate chunkSize 7

def fullFrame (seq : UInt64) : Frame := { type := "stdout", data := fullData, sequence := seq, time := 0 }

/-- Calls of `Write` with a full frame each, with enough steps to finish them. -/
@[irreducible] def fullWrites (n : ℕ) : List Move :=
  (List.replicate n [Move.call "stdout" fullData 0, .advance, .advance, .advance, .advance]).flatten

theorem length_fullData : fullData.length = chunkSize := by
  rw [fullData, List.length_replicate]

theorem fullData_ne_nil : fullData ≠ [] := by
  intro hnil
  have hlength := length_fullData
  rw [hnil] at hlength
  cases hlength

theorem size_fullFrame (seq : UInt64) : 43695 ≤ (jsonEncoding zeroClock).size (fullFrame seq) ∧
    (jsonEncoding zeroClock).size (fullFrame seq) ≤ 43880 := by
  have hlength : (fullFrame seq).data.length = 32768 := length_fullData
  have hkind : (fullFrame seq).type.toList.length = 6 := by
    change "stdout".toList.length = 6
    decide
  have hmessage : (fullFrame seq).message.toList.length = 0 := by
    change "".toList.length = 0
    decide
  have hhigh : (frameJson zeroClock (fullFrame seq)).length ≤ _ := length_frameJson rfl
  have hlow : (JsonText.utf8 (JsonText.bytes (fullFrame seq).data)).length ≤
      (frameJson zeroClock (fullFrame seq)).length :=
    JsonText.le_length_object (f := ("Data", JsonText.utf8 (JsonText.bytes (fullFrame seq).data)))
      (List.mem_cons_of_mem _ List.mem_cons_self)
  rw [JsonText.length_bytes_of_ne (b := (fullFrame seq).data) fullData_ne_nil] at hlow
  rw [hlength] at hhigh hlow
  rw [hkind, hmessage] at hhigh
  change 43695 ≤ (frameJson zeroClock (fullFrame seq)).length + 1 ∧
    (frameJson zeroClock (fullFrame seq)).length + 1 ≤ 43880
  omega

theorem cost_fullFrame (seq : UInt64) : cost (fullFrame seq) = 32896 := by
  change fullData.length + 128 = 32896
  rw [length_fullData]
  rfl

def AllFull (fs : List Frame) : Prop := ∀ f ∈ fs, ∃ seq, f = fullFrame seq

theorem AllFull.sum_size {fs : List Frame} (h : AllFull fs) :
    43695 * fs.length ≤ (fs.map (jsonEncoding zeroClock).size).sum ∧
      (fs.map (jsonEncoding zeroClock).size).sum ≤ 43880 * fs.length := by
  induction fs with
  | nil => exact ⟨le_rfl, le_rfl⟩
  | cons f fs ih =>
    obtain ⟨⟨seq, rfl⟩, hrest⟩ := List.forall_mem_cons.1 h
    obtain ⟨hlow, hhigh⟩ := size_fullFrame seq
    obtain ⟨hlow', hhigh'⟩ := ih hrest
    simp only [List.map_cons, List.sum_cons, List.length_cons]
    omega

/-- A file has reached the limit with its 192nd frame. -/
theorem AllFull.full_iff {files : Files} (h : AllFull files.cur) :
    files.full (jsonEncoding zeroClock) = true ↔ 192 ≤ files.cur.length := by
  obtain ⟨hlow, hhigh⟩ := h.sum_size
  unfold Files.full limit
  rw [decide_eq_true_eq]
  omega

structure Writer.Idle (n : ℕ) (w : Writer) : Prop where
  queue : w.queue = []
  stage : w.stage = .checking
  length : w.files.cur.length = n
  cur : AllFull w.files.cur
  made : AllFull w.made

section idle
variable {w : Writer} {n k : ℕ}

theorem run_fullWrite (hqueue : w.queue = []) (hstage : w.stage = .checking) :
    w.run (jsonEncoding zeroClock) (fullWrites 1) =
      { journal := w.journal.write "stdout" fullData 0
        files := w.files.store (jsonEncoding zeroClock) (fullFrame (w.journal.seq + 1))
        queue := []
        stage := .checking
        made := w.made ++ [fullFrame (w.journal.seq + 1)]
        rotations := w.rotations + if w.files.full (jsonEncoding zeroClock) then 1 else 0 } := by
  have hnew : w.journal.newFrames "stdout" fullData 0 = [fullFrame (w.journal.seq + 1)] :=
    newFrames_short fullData_ne_nil length_fullData.le
  obtain ⟨journal, files, queue, stage, made, rotations⟩ := w
  subst hqueue hstage
  simp only [fullWrites, List.replicate_one, List.flatten_singleton, Writer.run, List.foldl_cons, List.foldl_nil, Writer.move, if_true] at hnew ⊢
  rw [hnew]
  cases hfull : files.full (jsonEncoding zeroClock) <;>
    simp [Writer.advance, Files.store, Files.rotate, Files.add, hfull]

theorem Writer.Idle.write (h : w.Idle n) (hn : n < 192) :
    let w' := w.run (jsonEncoding zeroClock) (fullWrites 1)
    w'.Idle (n + 1) ∧ w'.files.old = w.files.old ∧ w'.rotations = w.rotations ∧
      w'.made.length = w.made.length + 1 := by
  have hroom : w.files.full (jsonEncoding zeroClock) = false := by
    rw [← Bool.not_eq_true, h.cur.full_iff, h.length]
    omega
  intro w'
  have hw' : w' = _ := run_fullWrite h.queue h.stage
  rw [Files.store, hroom] at hw'
  rw [hw']
  have hsnoc : ∀ {fs : List Frame} {seq : UInt64}, AllFull fs → AllFull (fs ++ [fullFrame seq]) :=
    fun hfs f hf => (List.mem_append.1 hf).elim (hfs f) fun hf => ⟨_, List.mem_singleton.1 hf⟩
  exact ⟨⟨rfl, rfl, by simp [Files.add, h.length], hsnoc h.cur, hsnoc h.made⟩, rfl, rfl, by simp⟩

theorem Writer.Idle.rotate (h : w.Idle 192) :
    let w' := w.run (jsonEncoding zeroClock) (fullWrites 1)
    w'.Idle 1 ∧ w'.files.old = w.files.cur ∧ w'.rotations = w.rotations + 1 ∧
      w'.made.length = w.made.length + 1 := by
  have hfull : w.files.full (jsonEncoding zeroClock) = true := h.cur.full_iff.2 h.length.ge
  intro w'
  have hw' : w' = _ := run_fullWrite h.queue h.stage
  rw [Files.store, hfull] at hw'
  rw [hw']
  refine ⟨⟨rfl, rfl, rfl, ?_, ?_⟩, rfl, rfl, by simp⟩
  · intro f hf
    exact ⟨_, List.mem_singleton.1 hf⟩
  · intro f hf
    exact (List.mem_append.1 hf).elim (h.made f) fun hf => ⟨_, List.mem_singleton.1 hf⟩

theorem fullWrites_succ (k : ℕ) : fullWrites (k + 1) = fullWrites k ++ fullWrites 1 := by
  simp [fullWrites, List.replicate_succ']

theorem run_append {enc : Encoding} {more : List Move} :
    w.run enc (moves ++ more) = (w.run enc moves).run enc more := List.foldl_append

theorem Writer.Idle.writes (h : w.Idle n) (hk : n + k ≤ 192) :
    let w' := w.run (jsonEncoding zeroClock) (fullWrites k)
    w'.Idle (n + k) ∧ w'.files.old = w.files.old ∧ w'.rotations = w.rotations ∧
      w'.made.length = w.made.length + k := by
  induction k with
  | zero =>
    have hnone : fullWrites 0 = [] := by simp [fullWrites]
    rw [hnone]
    exact ⟨h, rfl, rfl, rfl⟩
  | succ k ih =>
    obtain ⟨hidle, hold, hrot, hmade⟩ := ih (by omega)
    obtain ⟨hidle', hold', hrot', hmade'⟩ := hidle.write (by omega)
    rw [fullWrites_succ, run_append]
    exact ⟨hidle', hold'.trans hold, hrot'.trans hrot, by rw [hmade', hmade]; omega⟩

end idle

theorem idle_empty : Writer.Idle 0 {} := ⟨rfl, rfl, rfl, by simp [AllFull], by simp [AllFull]⟩

theorem idle_rotated : let w := Writer.run (jsonEncoding zeroClock) {} (fullWrites 193)
    w.Idle 1 ∧ w.files.old.length = 192 ∧ AllFull w.files.old ∧ w.rotations = 1 ∧
      w.made.length = 193 := by
  obtain ⟨hidle, -, hrot, hmade⟩ := idle_empty.writes (show 0 + 192 ≤ 192 by omega)
  obtain ⟨hidle', hold', hrot', hmade'⟩ := Writer.Idle.rotate hidle
  rw [show fullWrites 193 = fullWrites 192 ++ fullWrites 1 from fullWrites_succ 192, run_append]
  exact ⟨hidle', by rw [hold']; exact hidle.length, by rw [hold']; exact hidle.cur, by rw [hrot', hrot],
    by rw [hmade', hmade]; rfl⟩

theorem AllFull.fits {fs : List Frame} (h : AllFull fs) :
    ∀ f ∈ fs, (jsonEncoding zeroClock).size f ≤ maxLine := by
  intro f hf
  obtain ⟨seq, rfl⟩ := h f hf
  exact (size_fullFrame seq).2.trans (by decide)

/-- The writer fills its file between the reads, but does not rename it. -/
theorem reads_holeFree_iff_filled :
    (Writer.run (jsonEncoding zeroClock) {} (fullWrites 193 ++ fullWrites 191)).files.cur.length = 192 ∧
      ∀ c, HoleFree ((sample (jsonEncoding zeroClock)
        (Writer.run (jsonEncoding zeroClock) {} (fullWrites 193))
        (Writer.run (jsonEncoding zeroClock) {} (fullWrites 193 ++ fullWrites 191))).read c) := by
  obtain ⟨hidle, -, -, -, hmade⟩ := idle_rotated
  obtain ⟨hfilled, -, hrot, hmade'⟩ := hidle.writes (show 1 + 191 ≤ 192 by omega)
  rw [← run_append] at hfilled hrot hmade'
  refine ⟨hfilled.length, (reads_holeFree_iff (jsonEncoding zeroClock) (fullWrites 193)
    (fullWrites 191) ?_ hfilled.made.fits).2 fun htorn => htorn.1 hrot.symm⟩
  rw [hmade', hmade]
  decide

theorem Writer.Idle.begun {w : Writer} {n : ℕ} (h : w.Idle n) : w.begun = w.made.length - n := by
  unfold Writer.begun
  rw [h.queue, h.length, List.length_nil, Nat.sub_zero]

theorem hole_behind_192 {enc : Encoding} {before later : Writer} (h : Writer.Sampled enc before later)
    (hbefore : before.begun = 192) (hlater : later.Idle 1) (hbegun : later.begun = 384)
    (hlength : before.files.old.length = 192) (hold : AllFull before.files.old) :
    before.files.old.getLast?.map Frame.sequence = some 192 ∧
      later.files.cur.map Frame.sequence = [385] ∧
      ¬ HoleFree ((sample enc before later).read 191) := by
  obtain ⟨g, hg⟩ := List.length_eq_one_iff.1 hlater.length
  obtain ⟨init, f, hlast⟩ : ∃ init f, before.files.old = init ++ [f] :=
    (List.eq_nil_or_concat' before.files.old).resolve_left fun hnil => by simp [hnil] at hlength
  have hg' : number g = 385 := by
    have hcur := h.second.cur
    rw [hg, hbegun] at hcur
    exact hcur.1
  have hf : number f = 192 := by
    obtain ⟨first, -, hnumbers, hlen⟩ := h.first.old
    rw [hlength, hbefore] at hlen
    rw [hlast, List.length_append, List.length_singleton] at hlength
    rw [hlast, consecutive_append] at hnumbers
    have hnumber := hnumbers.2.1
    omega
  have hnumber : f.sequence = 192 := UInt64.toNat_inj.1 hf
  have hnumber' : g.sequence = 385 := UInt64.toNat_inj.1 hg'
  have hlast? : before.files.old.getLast? = some f := by rw [hlast, List.getLast?_concat]
  have hfits : cost f + (later.files.cur.map cost).sum ≤ limit := by
    obtain ⟨seq, rfl⟩ := hold f (List.mem_of_getLast? hlast?)
    obtain ⟨seq', rfl⟩ := hlater.cur g (by simp [hg])
    rw [hg, List.map_singleton, List.sum_singleton, cost_fullFrame, cost_fullFrame]
    decide
  have hhole := torn_hole h.first h.second (by omega) h.loaded hlast? (by simp [hg]) hfits
  rw [hnumber] at hhole
  exact ⟨by rw [hlast?, Option.map_some, hnumber], by rw [hg, List.map_singleton, hnumber'], hhole⟩

/-- The reader has the frames up to 192 when the writer fills its file and renames it: frame 192
is followed by frame 385. -/
theorem rotation_leaves_hole : let before := Writer.run (jsonEncoding zeroClock) {} (fullWrites 193)
    let later := Writer.run (jsonEncoding zeroClock) {} (fullWrites 193 ++ fullWrites 192)
    before.files.old.getLast?.map Frame.sequence = some 192 ∧
      later.files.cur.map Frame.sequence = [385] ∧
      ¬ HoleFree ((sample (jsonEncoding zeroClock) before later).read 191) := by
  obtain ⟨hidle, hlength, hold, -, hmade⟩ := idle_rotated
  obtain ⟨hfilled, -, -, hmade'⟩ := hidle.writes (show 1 + 191 ≤ 192 by omega)
  obtain ⟨hrotated, -, -, hmade''⟩ := Writer.Idle.rotate hfilled
  have hmoves : fullWrites 191 ++ fullWrites 1 = fullWrites 192 := (fullWrites_succ 191).symm
  rw [← run_append, ← run_append, hmoves] at hrotated
  rw [← @run_append (fullWrites 191), hmoves, hmade', hmade, ← run_append] at hmade''
  have hsampled := @sampled_of_runs (jsonEncoding zeroClock) (fullWrites 193) (fullWrites 192)
    (by rw [hmade'']; decide) hrotated.made.fits
  exact hole_behind_192 hsampled (by rw [hidle.begun, hmade]) hrotated
    (by rw [hrotated.begun, hmade'']) hlength hold

end Journal
end Niflhel
