import Mathlib.Algebra.Group.Action.Defs
import Mathlib.Algebra.Order.BigOperators.Group.List
import Niflhel.LogDelivery

/-!
# Lost frames leave a record

A frame that the guest's journal no longer keeps is reported to the monitor as a gap. The
polling loop copies the message of a gap to the host's log; the drain copies its data, of
which it has none, so that nothing is written. Lost frames leave a record whenever no batch
of the drain begins with a gap.
-/

namespace Niflhel
namespace LogRelay
open Numbering Journal

/-- Between two copies with no other copy between them, whose numbers are not consecutive,
stands a gap record. -/
def LossRecorded (log : List Entry) : Prop :=
  ∀ before x mid y after a b, log = before ++ x :: (mid ++ y :: after) →
    mark x.source = some a → mark y.source = some b → (∀ e ∈ mid, mark e.source = none) →
    a + 1 < b → ∃ e ∈ mid, e.frame.type = "gap"

/-- The run is orderly, and a `logs` call of the drain finds the frame after the cursor. -/
def drainsRetained (s : State) (act : Action) : Bool :=
  orderly s act &&
    match act with
    | .tick i _ _ =>
      match s.monitors[i]?, s.agent with
      | some ⟨_, _, cursor, _, .draining⟩, some a => !a.journal.misses cursor
      | _, _ => true
    | _ => true

def Follows : Option ℕ → Option ℕ → Prop
  | some a, some b => b ≤ a + 1
  | _, _ => True

theorem follows_none_left {b : Option ℕ} : Follows none b := trivial

theorem follows_none_right {a : Option ℕ} : Follows a none := by cases a <;> trivial

/-- Nothing is skipped without a gap, and a monitor continues behind the last copy, unless it
begins anew. -/
structure Smooth (s : State) : Prop where
  chain : (course s).IsChain Follows
  resumes : ∀ m ∈ s.monitors, m.goal = 0 ∨ (course s).getLast? = some (some m.goal.toNat)
  tails : ∀ m ∈ s.monitors, m.tailing = true → ∀ f ∈ m.pending, f.type ≠ "gap"
  types : ∀ e ∈ s.log, e.frame.type = e.source.type

variable {rest : List Frame}

section smooth
variable {enc : Encoding} {s s' : State} {j : Journal} {m m' : Monitor} {f : Frame}
  {batch : List Frame}

theorem marks_plain (h : ∀ f ∈ batch, f.type ≠ "gap") :
    batch.map mark = batch.map fun f => some (number f) :=
  List.map_congr_left fun f hf => if_neg (h f hf)

theorem follows_batch {first : ℕ} (h : Consecutive number first batch)
    (hplain : ∀ f ∈ batch, f.type ≠ "gap") : (batch.map mark).IsChain Follows := by
  rw [marks_plain hplain, List.isChain_map]
  refine h.isChain.imp fun f g hfg => ?_
  exact hfg.le

theorem Smooth.ended (h : Smooth s) : Smooth { s with monitors := [] } := by
  refine ⟨?_, nofun, nofun, h.types⟩
  have hcourse : course { s with monitors := [] } = marks s.log := by simp [course]
  rw [hcourse]
  exact h.chain.left_of_append

/-- A batch that begins after the cursor continues what is relayed. -/
theorem Smooth.follows_head {a b : Option ℕ} (h : Smooth s) (hm : m ∈ s.monitors)
    (hp : m.pending = []) (hbatch : Consecutive number (m.cursor.toNat + 1) batch)
    (hplain : ∀ f ∈ batch, f.type ≠ "gap") (ha : a ∈ (course s).getLast?)
    (hb : b ∈ (batch.map mark).head?) : Follows a b := by
  cases batch with
  | nil => cases hb
  | cons f rest => ?_
  obtain rfl : mark f = b := by simpa using hb
  have hmark : mark f = some (number f) := if_neg (hplain f (List.mem_cons_self ..))
  rw [hmark, hbatch.1]
  have hresume := h.resumes m hm
  rw [goal_idle hp] at hresume
  rcases hresume with hzero | hlast
  · cases a with
    | none => exact follows_none_left
    | some q => simp [Follows, hzero]
  · obtain rfl : some m.cursor.toNat = a := by
      rw [hlast] at ha
      simpa using ha
    exact le_rfl

theorem Smooth.received (ho : Ordered s j) (h : Smooth s) (hm : s.monitors = [m])
    (hp : m.pending = []) (hc : m'.cursor = m.cursor) (hp' : m'.pending = j.read m.cursor)
    (ht : m'.tailing = true → j.misses m.cursor = false) : Smooth { s with monitors := [m'] } := by
  have hmem : m ∈ s.monitors := by simp [hm]
  have hroom := ho.read_room hmem hp
  have hcourse : course { s with monitors := [m'] } = course s ++ m'.pending.map mark := by
    simp [course, hm, hp]
  obtain ⟨front, first, batch, hread, hbatch, hin, hlt, hcase⟩ := batch_cases ho.kept.memory hroom
  have hplain : ∀ f ∈ batch, f.type ≠ "gap" := fun f hf => ho.plain.1 f (hin f hf)
  have hchain := follows_batch hbatch hplain
  refine ⟨?_, fun m₁ hm₁ => ?_, fun m₁ hm₁ htail f hf => ?_, h.types⟩
  · rw [hcourse, hp', hread]
    rcases hcase with ⟨rfl, _, rfl⟩ | ⟨_, _, k, rfl⟩
    · exact h.chain.append hchain fun a ha b hb => h.follows_head hmem hp hbatch hplain ha hb
    · refine h.chain.append (List.isChain_cons.2 ⟨fun b _ => follows_none_left, hchain⟩) ?_
      intro a _ b hb
      obtain rfl : none = b := by simpa [mark, gap] using hb
      exact follows_none_right
  · obtain rfl : m₁ = m' := by simpa using hm₁
    rcases goal_received ho.kept.memory hroom hc hp' with ⟨hnil, hgoal⟩ | ⟨f, hf, hlast, hgoal, _, _⟩
    · have hresume := h.resumes m hmem
      rw [goal_idle hp] at hresume
      rw [hgoal, hcourse, hnil, List.map_nil, List.append_nil]
      exact hresume
    · right
      have hmark : mark f = some (number f) := if_neg (ho.plain.1 f hf)
      rw [hcourse, List.getLast?_append, List.getLast?_map, hlast, hgoal]
      exact congrArg some hmark
  · obtain rfl : m₁ = m' := by simpa using hm₁
    rcases hcase with ⟨rfl, _, _⟩ | ⟨hmiss, _, _⟩
    · rw [hp', hread] at hf
      exact hplain f hf
    · rw [ht htail] at hmiss
      cases hmiss

theorem Smooth.copied {text : List UInt8} {time : Time} {host : Files}
    (ho : Ordered s j) (h : Smooth s) (hm : s.monitors = [m]) (hp : m.pending = f :: rest)
    (hp' : m'.pending = rest) (hc : m'.cursor = f.sequence) (ht : m'.tailing = m.tailing)
    (htext : text = if f.type = "gap" ∧ m.tailing = false then textBytes f.message else f.data) :
    Smooth { s with
      host := host
      log := s.log ++ (m.log.newFrames f.type text time).map (⟨·, f⟩)
      monitors := [m'] } := by
  have hmem : m ∈ s.monitors := by simp [hm]
  have hone : (m.log.newFrames f.type text time).length = 1 := by
    refine length_newFrames ((ho.monitors m hmem).2.2 f (by simp [hp])) htext fun hgap => ?_
    by_contra htail
    exact h.tails m hmem (by simpa using htail) f (by simp [hp]) hgap
  have hcourse : course { s with
      host := host
      log := s.log ++ (m.log.newFrames f.type text time).map (⟨·, f⟩)
      monitors := [m'] } = course s := by
    rw [course_pending hm hp]
    simp [course, marks_copied, hone, hp']
  refine ⟨hcourse ▸ h.chain, fun m₁ hm₁ => ?_, fun m₁ hm₁ htail g hg => ?_, fun e he => ?_⟩
  · obtain rfl : m₁ = m' := by simpa using hm₁
    rw [hcourse, goal_copied hp hp' hc]
    exact h.resumes m hmem
  · obtain rfl : m₁ = m' := by simpa using hm₁
    exact h.tails m hmem (ht ▸ htail) g (by rw [hp, ← hp']; exact List.mem_cons_of_mem f hg)
  · rcases List.mem_append.1 he with he | he
    · exact h.types e he
    · obtain ⟨g, hg, rfl⟩ := List.mem_map.1 he
      exact (mem_stamp hg).1

theorem Smooth.ticked {out : State × Option Monitor} (ho : Ordered s j) (h : Smooth s)
    (hm : s.monitors = [m])
    (hdrain : ∀ a, m.phase = .draining → s.agent = some a → a.journal.misses m.cursor = false)
    (ht : Ticked enc s m out) : Smooth { out.1 with monitors := out.2.toList } := by
  cases ht with
  | ended => exact h.ended
  | @moved m' cursors hc hg hp hp' hs =>
    have hcourse : course { s with cursors := cursors, monitors := [m'] } = course s := by
      simp [course, hm, hp, hp']
    refine ⟨hcourse ▸ h.chain, fun m₁ hm₁ => ?_, fun m₁ hm₁ _ f hf => ?_, h.types⟩
    · obtain rfl : m₁ = m' := by simpa using hm₁
      rw [goal_moved hp hp' hc]
      exact hcourse ▸ h.resumes m (by simp [hm])
    · obtain rfl : m₁ = m' := by simpa using hm₁
      rw [hp'] at hf
      cases hf
  | @received a m' ha hc hg hp hp' ht =>
    obtain rfl := ho.agent a ha
    exact h.received ho hm hp hc hp' fun htail => hdrain a (ht htail) ha
  | copied hp hp' hc hg ht htext => exact h.copied ho hm hp hp' hc ht htext

theorem Smooth.congr (h : Smooth s) (hlog : s'.log = s.log) (hmon : s'.monitors = s.monitors) :
    Smooth s' := by
  have hcourse : course s' = course s := by
    unfold course
    rw [hlog, hmon]
  exact ⟨hcourse ▸ h.chain, hcourse ▸ hmon ▸ h.resumes, hmon ▸ h.tails, hlog ▸ h.types⟩

theorem Smooth.monitored (ho : Ordered s j) (h : Smooth s) (hstage : s.stage = .booted)
    (hm : m.cursor = s.cursors s.generation) (hp : m.pending = []) :
    Smooth { s with monitors := s.monitors ++ [m], stage := .monitored } := by
  obtain ⟨hcursor, hmon⟩ := ho.booted hstage
  have hcourse : course { s with monitors := s.monitors ++ [m], stage := .monitored } = course s := by
    simp [course, hmon, hp]
  refine ⟨hcourse ▸ h.chain, fun m₁ hm₁ => Or.inl ?_, fun m₁ hm₁ _ f hf => ?_, h.types⟩
  · obtain rfl : m₁ = m := by simpa [hmon] using hm₁
    rw [goal_idle hp, hm, hcursor]
  · obtain rfl : m₁ = m := by simpa [hmon] using hm₁
    rw [hp] at hf
    cases hf

theorem Smooth.step {act : Action} (ho : Ordered s j) (h : Smooth s)
    (hok : drainsRetained s act = true) (hs : step enc s act = some s') : Smooth s' := by
  obtain ⟨_, hretained⟩ := Bool.and_eq_true_iff.1 hok
  cases act with
  | commit | boot =>
    simp only [LogRelay.step] at hs
    split_ifs at hs
    cases hs
    exact h.congr rfl rfl
  | monitor =>
    simp only [LogRelay.step] at hs
    split_ifs at hs with hstage
    cases hs
    exact h.monitored ho hstage rfl rfl
  | halt =>
    cases hs
    exact h.congr rfl rfl
  | write out b time =>
    simp only [LogRelay.step] at hs
    split at hs
    · split_ifs at hs
      cases hs
      exact h.congr rfl rfl
    · cases hs
  | exit =>
    obtain ⟨a, ha, rfl⟩ := Option.map_eq_some_iff.1 hs
    exact h.congr rfl rfl
  | tick i ok time =>
    obtain ⟨m, out, hget, hm, ht, rfl⟩ := ticked_of_tick ho.single hs
    refine h.ticked ho hm (fun a hphase ha => ?_) ht
    obtain ⟨_, _, cursor, _, phase⟩ := m
    obtain rfl : phase = .draining := hphase
    simpa [hget, ha] using hretained
  | quit i =>
    obtain ⟨m, hm, rfl⟩ := eq_of_quit ho.single hs
    exact h.ended

/-- A hole in the numbers between two copies is not between neighbours of the log. -/
theorem Smooth.lossRecorded (h : Smooth s) : LossRecorded s.log := by
  intro before x mid y after a b hlog hx hy hmid hskip
  have hchain : (marks s.log).IsChain Follows := h.chain.left_of_append
  cases mid with
  | nil =>
    rw [hlog] at hchain
    simp only [marks, List.nil_append, List.map_append, List.map_cons] at hchain
    have hle := (List.isChain_append_cons_cons.1 hchain).2.1
    rw [hx, hy] at hle
    exact absurd hle (by simp only [Follows]; omega)
  | cons e mid =>
    refine ⟨e, List.mem_cons_self .., ?_⟩
    rw [h.types e (by simp [hlog])]
    have hnone := hmid e (List.mem_cons_self ..)
    unfold mark at hnone
    split_ifs at hnone with hgap
    exact hgap

end smooth

/-- In every orderly run in which no batch of a drain begins with a gap, frames that are
missing between two copies leave a gap record between them. -/
theorem lost_frames_recorded (enc : Encoding) (acts : List Action) (s : State)
    (h : Traces.run (step enc) drainsRetained start acts = some s) : LossRecorded s.log := by
  have hstart : ∃ j, Ordered start j ∧ Smooth start :=
    ⟨{}, ordered_start, List.isChain_nil, nofun, nofun, nofun⟩
  have hinv : ∃ j, Ordered s j ∧ Smooth s := by
    apply Traces.run_invariant (I := fun s => ∃ j, Ordered s j ∧ Smooth s) _ hstart h
    rintro s act s' ⟨j, ho, h⟩ hok hs
    exact ⟨_, ho.step (Bool.and_eq_true_iff.1 hok).1 hs, h.step ho hok hs⟩
  obtain ⟨j, _, hsmooth⟩ := hinv
  exact hsmooth.lossRecorded

section flood
variable {j : Journal} {n : ℕ} {b : List UInt8}

def flood (b : List UInt8) (n : ℕ) : List Action := List.replicate n (.write .stdout b 30)

def flooded (b : List UInt8) (j : Journal) : ℕ → Journal
  | 0 => j
  | n + 1 => flooded b (j.write "stdout" b 30) n

/-- The journal keeps no more than its limit, and all its frames but the first are full. -/
structure Filled (j : Journal) : Prop where
  memory : UpTo number j.seq.toNat j.frames
  nonempty : j.frames ≠ []
  bytes : j.bytes = (j.frames.map cost).sum
  bounded : j.bytes ≤ limit ∨ j.frames.length ≤ 1
  full : ∀ f ∈ j.frames, 2 ≤ number f → f.type = "stdout" ∧ f.data.length = chunkSize

theorem full_ne_nil (hb : b.length = chunkSize) : b ≠ [] := by
  rintro rfl
  cases hb

theorem evict_ne_nil {frames : List Frame} {bytes : ℕ} (h : frames ≠ []) :
    (evict frames bytes).1 ≠ [] := by
  fun_induction evict frames bytes with
  | case1 f g rest bytes hfull ih => exact ih (List.cons_ne_nil g rest)
  | case2 | case3 => exact h

theorem write_full (hb : b.length = chunkSize) : j.write "stdout" b 30 = j.record { type := "stdout", data := b, sequence := j.seq + 1, time := 30 } := by
  unfold Journal.write
  rw [newFrames_short (full_ne_nil hb) hb.le]
  rfl

theorem Filled.write (hb : b.length = chunkSize) (h : Filled j) (hroom : j.seq.toNat + 1 < 2 ^ 64) :
    Filled (j.write "stdout" b 30) ∧ (j.write "stdout" b 30).seq.toNat = j.seq.toNat + 1 := by
  rw [write_full hb]
  have hseq : (j.seq + 1).toNat = j.seq.toNat + 1 := toNat_succ hroom
  refine ⟨?_, hseq⟩
  let f : Frame := { type := "stdout", data := b, sequence := j.seq + 1, time := 30 }
  have hsuffix : (j.record f).frames <:+ j.frames ++ [f] := append_suffix
  have hcost : j.bytes + cost f = ((j.frames ++ [f]).map cost).sum := by simp [h.bytes]
  obtain ⟨hbytes, hbound⟩ := evict_bytes hcost
  refine ⟨?_, evict_ne_nil (by simp), hbytes, hbound, fun g hg hlow => ?_⟩
  · have happ : UpTo number (j.seq.toNat + 1) (j.frames ++ [f]) := h.memory.append hseq
    rw [← hseq] at happ
    exact happ.suffix hsuffix
  · rcases List.mem_append.1 (hsuffix.subset hg) with hg | hg
    · exact h.full g hg hlow
    · rw [List.mem_singleton.1 hg]
      exact ⟨rfl, hb⟩

theorem Filled.flooded (hb : b.length = chunkSize) (h : Filled j)
    (hroom : j.seq.toNat + n < 2 ^ 64) :
    Filled (flooded b j n) ∧ (flooded b j n).seq.toNat = j.seq.toNat + n := by
  induction n generalizing j with
  | zero => exact ⟨h, rfl⟩
  | succ n ih =>
    obtain ⟨hnext, hseq⟩ := h.write hb (by omega)
    obtain ⟨hfill, hlast⟩ := ih hnext (by omega)
    refine ⟨hfill, ?_⟩
    rw [LogRelay.flooded, hlast, hseq]
    omega

theorem Filled.length_le (h : Filled j) : j.frames.length ≤ 256 := by
  rcases h.bounded with hle | hle
  · obtain ⟨first, hfirst, hlen, hpos⟩ := h.memory
    cases hframes : j.frames with
    | nil => simp
    | cons f rest =>
      have hrest : ∀ c ∈ rest.map cost, chunkSize + 128 ≤ c := by
        intro c hc
        obtain ⟨g, hg, rfl⟩ := List.mem_map.1 hc
        rw [hframes] at hfirst
        have hlow := (Consecutive.bounds hfirst.2 hg).1
        have hdata := (h.full g (by simp [hframes, hg]) (by omega)).2
        rw [cost, hdata]
      have hsum := List.card_nsmul_le_sum _ _ hrest
      have hbytes := h.bytes
      rw [hframes, List.map_cons, List.sum_cons] at hbytes
      rw [List.length_map, smul_eq_mul] at hsum
      unfold limit at hle
      unfold chunkSize at hsum
      rw [List.length_cons]
      omega
  · omega

theorem Filled.misses (h : Filled j) (hseq : 257 < j.seq.toNat) : j.misses 1 = true := by
  have hlen := h.length_le
  obtain ⟨first, hfirst, hsum, _⟩ := h.memory
  unfold Journal.misses
  cases hframes : j.frames with
  | nil => exact absurd hframes h.nonempty
  | cons f rest =>
    rw [hframes] at hfirst
    have hf : number f = first := hfirst.1
    refine decide_eq_true (UInt64.lt_iff_toNat_lt.2 ?_)
    change 2 < number f
    omega

theorem run_flood (enc : Encoding) {ok : State → Action → Bool} {s : State} {a : Agent} (hb : b.length = chunkSize)
    (hok : ∀ s out b time, ok s (.write out b time) = orderly s (.write out b time))
    (ha : s.agent = some a) (hrunning : a.exited = false)
    (hroom : a.journal.seq.toNat + n + 1 < 2 ^ 64) :
    ∃ disk, Traces.run (step enc) ok s (flood b n) =
      some { s with agent := some { a with journal := flooded b a.journal n }, disk := disk } := by
  induction n generalizing s a with
  | zero => exact ⟨s.disk, by rw [LogRelay.flooded, ← ha]; rfl⟩
  | succ n ih =>
    have hone : pieces b.length b = [b] := pieces_short (full_ne_nil hb) hb.le
    have horderly : ok s (.write .stdout b 30) = true := by
      rw [hok]
      simp only [orderly, ha, hone, decide_eq_true_eq, List.length_singleton]
      omega
    have hseq : (a.journal.write "stdout" b 30).seq.toNat = a.journal.seq.toNat + 1 := by
      rw [write_full hb]
      exact toNat_succ (by omega)
    let s' : State := { s with
      agent := some { a with journal := a.journal.write "stdout" b 30 }
      disk := a.journal.writeFiles enc s.disk "stdout" b 30 }
    have hstep : step enc s (.write .stdout b 30) = some s' := by
      simp [step, ha, hrunning, s', Output.kind]
    obtain ⟨disk, hdisk⟩ := ih (s := s') rfl hrunning (by
      rw [hseq]
      omega)
    refine ⟨disk, ?_⟩
    change Traces.run (step enc) ok s (.write .stdout b 30 :: flood b n) = _
    rw [Traces.run, if_pos horderly, hstep]
    exact hdisk

theorem Filled.read (h : Filled j) (hseq : 257 < j.seq.toNat) :
    ∃ first f rest, j.read 1 = gap first :: f :: rest ∧ 2 < number f ∧ f.type = "stdout" ∧
      f.data.length = chunkSize := by
  obtain ⟨first, batch, hread, hne, hlt, hbatch, hin⟩ :=
    read_missed h.memory (h.misses hseq) (by decide)
  obtain ⟨f, rest, rfl⟩ := List.exists_cons_of_ne_nil hne
  have hlow : 2 < number f := by
    rw [hbatch.1]
    exact hlt
  exact ⟨first, f, rest, hread, hlow, h.full f (hin f (List.mem_cons_self ..)) hlow.le⟩

end flood

def chunk : List UInt8 := List.replicate chunkSize 46

def oneLine : Journal := ({} : Journal).write "stdout" [104, 105] 10

theorem filled_oneLine : Filled oneLine where
  memory := ⟨1, ⟨rfl, trivial⟩, rfl, le_rfl⟩
  nonempty := by decide
  bytes := by decide
  bounded := by decide
  full := by decide

/-- When the application prints 300 full frames after its first line, the next batch for a
monitor that has relayed the line begins with a gap. -/
theorem flooded_run {ok : State → Action → Bool} {acts : List Action} {s : State}
    (hok : ∀ s out b time, ok s (.write out b time) = orderly s (.write out b time))
    (hrun : Traces.run (step lineEncoding) ok start acts = some s)
    (ha : s.agent = some ⟨1, oneLine, false⟩) :
    ∃ j disk first f rest,
      Traces.run (step lineEncoding) ok start (acts ++ flood chunk 300) =
        some { s with agent := some ⟨1, j, false⟩, disk := disk } ∧
      j.read 1 = gap first :: f :: rest ∧ 2 < number f ∧ f.type = "stdout" ∧
      f.data.length = chunkSize := by
  have hchunk : chunk.length = chunkSize := List.length_replicate
  obtain ⟨disk, hflood⟩ := run_flood lineEncoding hchunk hok ha rfl (n := 300) (by decide)
  obtain ⟨hfilled, hseq⟩ := filled_oneLine.flooded hchunk (n := 300) (by decide)
  obtain ⟨first, f, rest, hread⟩ := hfilled.read (by rw [hseq]; decide)
  refine ⟨flooded chunk oneLine 300, disk, first, f, rest, ?_, hread⟩
  rw [Traces.run_append, hrun]
  exact hflood

def line (time : Time) : Frame :=
  { type := "stdout", data := [104, 105], sequence := 1, time := time }

theorem mark_line {time : Time} : mark (line time) = some 1 := rfl

theorem not_lossRecorded {x y : Entry} {a b : ℕ} (hx : mark x.source = some a)
    (hy : mark y.source = some b) (hskip : a + 1 < b) : ¬ LossRecorded [x, y] := by
  intro h
  obtain ⟨e, he, _⟩ := h [] x [] y [] a b rfl hx hy nofun hskip
  cases he

/-- The polling loop writes the message of a gap before the frame that follows it. -/
theorem poll_records_gap (enc : Encoding) {s : State} {m : Monitor} {a : Agent} {first : UInt64} {f : Frame}
    (hm : s.monitors = [m]) (hphase : m.phase = .waiting)
    (hgen : s.generation = m.generation) (ha : s.agent = some a)
    (hread : a.journal.read m.cursor = gap first :: f :: rest) (hf : f.type ≠ "gap") :
    ∃ s', ∃ log : Journal, Traces.run (step enc) drainsRetained s (poll 0) = some s' ∧
      s'.log = s.log ++ (m.log.newFrames "gap" (textBytes gapMessage) 20).map (⟨·, gap first⟩) ++
        (log.newFrames f.type f.data 20).map (⟨·, f⟩) := by
  obtain ⟨generation, log, cursor, failures, phase⟩ := m
  obtain rfl : phase = .waiting := hphase
  simp [poll, List.replicate, Traces.run, drainsRetained, orderly, step, tick, copy, hm, hgen, ha, hread]
  refine ⟨log.write "gap" (textBytes gapMessage) 20, ?_⟩
  rw [if_neg hf]
  rfl

/-- The drain writes its data, that is nothing. -/
theorem drain_skips_gap (enc : Encoding) {s : State} {m : Monitor} {a : Agent} {first : UInt64} {f : Frame}
    (hm : s.monitors = [m]) (hphase : m.phase = .asking)
    (hgen : a.generation = m.generation) (ha : s.agent = some a)
    (hread : a.journal.read m.cursor = gap first :: f :: rest) :
    ∃ s', Traces.run (step enc) orderly s (.exit :: poll 0) = some s' ∧
      s'.log = s.log ++ (m.log.newFrames f.type f.data 20).map (⟨·, f⟩) := by
  obtain ⟨generation, log, cursor, failures, phase⟩ := m
  obtain rfl : phase = .asking := hphase
  simp [poll, List.replicate, Traces.run, orderly, step, tick, copy, hm, hgen, ha, hread]
  rfl

/-- The guest prints so much between two polls that frames are lost: a record between the
copies tells of them. -/
theorem lost_frames_recorded_polled : ∃ s k, Traces.run (step lineEncoding) drainsRetained start
        (firstLine ++ poll 1 ++ flood chunk 300 ++ poll 0) = some s ∧
      relayed s.log = [1, k] ∧ 2 < k ∧ s.log.map (·.frame.type) = ["stdout", "gap", "stdout"] ∧
      LossRecorded s.log := by
  obtain ⟨s, hrun, ha, hgen, hm, hlog⟩ : ∃ s,
      Traces.run (step lineEncoding) drainsRetained start (firstLine ++ poll 1) = some s ∧
      s.agent = some ⟨1, oneLine, false⟩ ∧ s.generation = 1 ∧
      s.monitors = [⟨1, ({} : Journal).write "stdout" [104, 105] 20, 1, 0, .waiting⟩] ∧
      s.log = [⟨line 20, line 10⟩] :=
    ⟨_, rfl, rfl, rfl, rfl, rfl⟩
  obtain ⟨j, disk, first, f, rest, hflood, hread, hlow, htype, hlen⟩ :=
    flooded_run (fun _ _ _ _ => by simp [drainsRetained]) hrun ha
  have hplain : f.type ≠ "gap" := by
    rw [htype]
    decide
  obtain ⟨s', log, hpoll, hlog'⟩ := poll_records_gap lineEncoding
    (s := { s with agent := some ⟨1, j, false⟩, disk := disk }) hm rfl hgen rfl hread hplain
  have hmark : mark f = some (number f) := if_neg hplain
  have hgap : mark (gap first) = none := rfl
  rw [newFrames_short (full_ne_nil hlen) hlen.le,
    newFrames_short textBytes_gap.1 textBytes_gap.2] at hlog'
  simp only [hlog, List.map_cons, List.map_nil, List.singleton_append] at hlog'
  have hrun' : Traces.run (step lineEncoding) drainsRetained start
      (firstLine ++ poll 1 ++ flood chunk 300 ++ poll 0) = some s' := by
    rw [Traces.run_append, hflood]
    exact hpoll
  refine ⟨s', number f, hrun', ?_, hlow, ?_, lost_frames_recorded _ _ s' hrun'⟩
  · rw [hlog']
    simp [relayed, marks, hmark, hgap, mark_line]
  · rw [hlog']
    simp [htype, line]

/-- The guest prints so much between the answers to `logs` and `status` that frames are lost,
and exits: the drain relays what is left, and no record tells of the lost frames. -/
theorem lost_frames_unrecorded : ∃ s k, Traces.run (step lineEncoding) orderly start
        (firstLine ++ poll 0 ++ flood chunk 300 ++ .exit :: poll 0) = some s ∧
      relayed s.log = [1, k] ∧ 2 < k ∧ s.log.map (·.frame.type) = ["stdout", "stdout"] ∧
      ¬ LossRecorded s.log := by
  obtain ⟨s, hrun, ha, hm, hlog⟩ : ∃ s,
      Traces.run (step lineEncoding) orderly start (firstLine ++ poll 0) = some s ∧
      s.agent = some ⟨1, oneLine, false⟩ ∧
      s.monitors = [⟨1, ({} : Journal).write "stdout" [104, 105] 20, 1, 0, .asking⟩] ∧
      s.log = [⟨line 20, line 10⟩] :=
    ⟨_, rfl, rfl, rfl, rfl⟩
  obtain ⟨j, disk, first, f, rest, hflood, hread, hlow, htype, hlen⟩ :=
    flooded_run (fun _ _ _ _ => rfl) hrun ha
  obtain ⟨s', hdrain, hlog'⟩ := drain_skips_gap lineEncoding
    (s := { s with agent := some ⟨1, j, false⟩, disk := disk }) hm rfl rfl rfl hread
  have hmark : mark f = some (number f) := if_neg (by rw [htype]; decide)
  rw [newFrames_short (full_ne_nil hlen) hlen.le] at hlog'
  simp only [hlog, List.map_cons, List.map_nil, List.singleton_append] at hlog'
  refine ⟨s', number f, ?_, ?_, hlow, ?_, ?_⟩
  · rw [Traces.run_append, hflood]
    exact hdrain
  · rw [hlog']
    simp [relayed, marks, hmark, mark_line]
  · rw [hlog']
    simp [htype, line]
  · rw [hlog']
    exact not_lossRecorded mark_line hmark hlow

end LogRelay
end Niflhel
