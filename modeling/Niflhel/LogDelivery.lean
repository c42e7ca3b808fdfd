import Niflhel.LogRelay

/-!
# Frames relayed at most once

A cursor belongs to one generation, while the guest's journal outlives it: a monitor of a
later generation relays again whatever the journal still holds. When an agent opens only
frames that were not relayed, every frame is relayed at most once.
-/

namespace Niflhel
namespace LogRelay
open Numbering Journal

/-- What the host's log holds, followed by what the monitors are about to append to it. -/
def course (s : State) : List (Option ℕ) :=
  marks s.log ++ (s.monitors.flatMap Monitor.pending).map mark

def numbers (s : State) : List ℕ := (course s).filterMap id

section course
variable {s : State} {j : Journal} {m m' : Monitor} {f : Frame}

theorem relayed_sublist : List.Sublist (relayed s.log) (numbers s) := by
  unfold relayed numbers course
  rw [List.filterMap_append]
  exact List.sublist_append_left _ _

theorem marks_copied {log : List Entry} {frames : List Frame} :
    marks (log ++ frames.map (⟨·, f⟩)) = marks log ++ List.replicate frames.length (mark f) := by
  unfold marks
  rw [List.map_append, List.map_map]
  congr 1
  change frames.map (fun _ => mark f) = _
  exact List.map_const' ..

theorem course_pending {rest : List Frame} (hm : s.monitors = [m]) (hp : m.pending = f :: rest) :
    course s = marks s.log ++ ([mark f] ++ rest.map mark) := by
  simp [course, hm, hp]

theorem textBytes_gap : textBytes gapMessage ≠ [] ∧ (textBytes gapMessage).length ≤ chunkSize := by
  decide

theorem length_newFrames {log : Journal} {text : List UInt8} {time : Time} (hf : Relayable f)
    (htext : text = if f.type = "gap" ∧ m.tailing = false then textBytes f.message else f.data)
    (hgap : f.type = "gap" → m.tailing = false) :
    (log.newFrames f.type text time).length = 1 := by
  rcases hf with ⟨hw, hplain⟩ | ⟨first, rfl⟩
  · rw [htext, if_neg fun h => hplain h.1, newFrames_short hw.nonempty hw.short]
    rfl
  · rw [htext, if_pos ⟨rfl, hgap rfl⟩]
    exact congrArg List.length (newFrames_short textBytes_gap.1 textBytes_gap.2)

theorem batch_marks {front batch : List Frame} (hfront : front = [] ∨ ∃ k, front = [gap k])
    (hbatch : ∀ f ∈ batch, f.type ≠ "gap") :
    ((front ++ batch).map mark).filterMap id = batch.map number := by
  have hnone : (front.map mark).filterMap id = [] := by
    rcases hfront with rfl | ⟨k, rfl⟩ <;> rfl
  have hsome : batch.map mark = (batch.map number).map some := by
    rw [List.map_map]
    exact List.map_congr_left fun f hf => if_neg (hbatch f hf)
  rw [List.map_append, List.filterMap_append, hnone, hsome, List.filterMap_map, List.nil_append]
  simp

end course

/-- The run is orderly, and the journal an agent opens holds no frame that was relayed. -/
def opensUnread (enc : Encoding) (s : State) (act : Action) : Bool :=
  orderly s act &&
    match act with
    | .boot => (openFiles enc s.disk).frames.all fun f => !(relayed s.log).contains (number f)
    | _ => true

/-- Frames are relayed in the order of their numbers, and what a monitor will read next was
not relayed before. -/
structure Once (s : State) (j : Journal) : Prop where
  ascending : (numbers s).Pairwise (· < ·)
  bounded : ∀ q ∈ numbers s, q ≤ j.seq.toNat
  unread : s.stage = .booted → ∀ f ∈ j.frames, ∀ q ∈ numbers s, q < number f
  fresh : ∀ m ∈ s.monitors, ∀ f ∈ j.frames, m.goal.toNat < number f →
    ∀ q ∈ numbers s, q < number f

section once
variable {enc : Encoding} {s s' : State} {j : Journal} {m : Monitor}

theorem Once.ticked {out : State × Option Monitor} (ho : Ordered s j) (h : Once s j)
    (hm : s.monitors = [m]) (ht : Ticked enc s m out) :
    Once { out.1 with monitors := out.2.toList } j := by
  have hmem : m ∈ s.monitors := by simp [hm]
  have hbooted : s.stage ≠ .booted := by
    intro hb
    rw [(ho.booted hb).2] at hm
    cases hm
  have hsame : ∀ s₁ : State, numbers s₁ = numbers s → s₁.stage = s.stage →
      (∀ m₁ ∈ s₁.monitors, m₁.goal = m.goal) → Once s₁ j := by
    intro s₁ hnum hstage hgoal
    refine ⟨hnum ▸ h.ascending, hnum ▸ h.bounded, fun hb => absurd (hstage.symm.trans hb) hbooted,
      fun m₁ hm₁ f hf hlt => ?_⟩
    rw [hnum]
    exact h.fresh m hmem f hf (hgoal m₁ hm₁ ▸ hlt)
  cases ht with
  | ended =>
    -- What was pending is lost.
    have hsub : List.Sublist (numbers { s with monitors := [] }) (numbers s) := by
      have heq : numbers { s with monitors := [] } = relayed s.log := by
        simp [numbers, course, relayed]
      rw [heq]
      exact relayed_sublist
    exact ⟨h.ascending.sublist hsub, fun q hq => h.bounded q (hsub.subset hq),
      fun hb => absurd hb hbooted, nofun⟩
  | @moved m' cursors hc hg hp hp' hs =>
    refine hsame _ ?_ rfl ?_
    · simp [numbers, course, hm, hp, hp']
    · simp [goal_moved hp hp' hc]
  | @received a m' ha hc hg hp hp' ht =>
    rw [ho.agent a ha] at hp'
    have hroom := ho.read_room hmem hp
    obtain ⟨front, first, batch, hread, hbatch, hin, hlt, hcase⟩ :=
      batch_cases ho.kept.memory hroom
    have hnum : numbers { s with monitors := [m'] } = numbers s ++ batch.map number := by
      have hmarks : ((j.read m.cursor).map mark).filterMap id = batch.map number := by
        rw [hread]
        refine batch_marks ?_ fun f hf => ho.plain.1 f (hin f hf)
        rcases hcase with ⟨hnil, _, _⟩ | ⟨_, _, k, hk⟩
        · exact Or.inl hnil
        · exact Or.inr ⟨k, hk⟩
      simp only [numbers, course, hm, List.flatMap_singleton, hp, hp', List.map_nil,
        List.append_nil, List.filterMap_append, hmarks]
    have hnew : ∀ q ∈ numbers s, ∀ f ∈ batch, q < number f := by
      intro q hq f hf
      refine h.fresh m hmem f (hin f hf) ?_ q hq
      rw [goal_idle hp]
      exact hlt.trans_le (hbatch.bounds hf).1
    change Once { s with monitors := [m'] } j
    refine ⟨?_, fun q hq => ?_, fun hb => absurd hb hbooted, fun m₁ hm₁ f hf hgoal q hq => ?_⟩
    · rw [hnum, List.pairwise_append]
      refine ⟨h.ascending, List.pairwise_map.2 hbatch.pairwise, fun q hq b hb => ?_⟩
      obtain ⟨f, hf, rfl⟩ := List.mem_map.1 hb
      exact hnew q hq f hf
    · rw [hnum] at hq
      rcases List.mem_append.1 hq with hq | hq
      · exact h.bounded q hq
      · obtain ⟨f, hf, rfl⟩ := List.mem_map.1 hq
        exact (ho.kept.memory.bounds (hin f hf)).2
    · obtain rfl : m₁ = m' := by simpa using hm₁
      rw [hnum] at hq
      have hold : m.cursor.toNat < number f := by
        rcases goal_received ho.kept.memory hroom hc hp' with ⟨_, hg'⟩ | ⟨l, _, _, hg', hl, _⟩
        · rwa [hg'] at hgoal
        · rw [hg'] at hgoal
          exact hl.trans hgoal
      rcases List.mem_append.1 hq with hq | hq
      · exact h.fresh m hmem f hf (by rwa [goal_idle hp]) q hq
      · obtain ⟨b, hb, rfl⟩ := List.mem_map.1 hq
        have hpend : b ∈ m₁.pending := by
          rw [hp', hread]
          exact List.mem_append_right _ hb
        rcases goal_received ho.kept.memory hroom hc hp' with ⟨hnil, _⟩ | ⟨l, _, _, hg', _, hl⟩
        · rw [hnil] at hpend
          cases hpend
        · rw [hg'] at hgoal
          exact (hl b hpend (ho.plain.1 b (hin b hb))).trans_lt hgoal
  | @copied f rest text time host m' hp hp' hc hg ht htext =>
    refine hsame _ ?_ rfl ?_
    · have hone : (List.replicate (m.log.newFrames f.type text time).length (mark f)).filterMap id =
          [mark f].filterMap id := by
        by_cases hgap : f.type = "gap"
        · have hnone : mark f = none := if_pos hgap
          rw [hnone]
          simp
        · have hf := (ho.monitors m hmem).2.2 f (by simp [hp])
          rw [length_newFrames hf htext fun h => absurd h hgap]
          rfl
      simp only [numbers, course_pending hm hp, List.filterMap_append, ← hone]
      simp [course, marks_copied, hp']
    · simp [goal_copied hp hp' hc]

theorem Once.congr (h : Once s j) (hlog : s'.log = s.log) (hmon : s'.monitors = s.monitors)
    (hstage : s'.stage = .booted → s.stage = .booted) : Once s' j := by
  have hnum : numbers s' = numbers s := by
    unfold numbers course
    rw [hlog, hmon]
  refine ⟨hnum ▸ h.ascending, hnum ▸ h.bounded, fun hb => hnum ▸ h.unread (hstage hb), ?_⟩
  rw [hnum, hmon]
  exact h.fresh

theorem Once.write {out : Output} {b : List UInt8} {time : Time} (h : Once s j)
    (hroom : j.seq.toNat + (pieces b.length b).length + 1 < 2 ^ 64) :
    Once s (j.write out.kind b time) := by
  have hseq : (j.write out.kind b time).seq.toNat = _ := write_seq (Nat.lt_of_succ_lt hroom)
  have hnew : ∀ f ∈ j.newFrames out.kind b time, ∀ q ∈ numbers s, q < number f := by
    intro f hf q hq
    have hlow := ((consecutive_stamp (Nat.lt_of_succ_lt hroom)).bounds hf).1
    have hbound := h.bounded q hq
    omega
  refine ⟨h.ascending, fun q hq => ?_, fun hb f hf => ?_, fun m hm f hf hgoal => ?_⟩
  · have hbound := h.bounded q hq
    omega
  · exact (mem_write hf).elim (h.unread hb f) (hnew f)
  · exact (mem_write hf).elim (fun hf => h.fresh m hm f hf hgoal) (hnew f)

/-- An agent opens a journal whose frames are not relayed: they all come after those that
are. -/
theorem Once.boot (ho : Ordered s j) (h : Once s j) (hmon : s.monitors = [])
    (hunread : ∀ f ∈ (openFiles enc s.disk).frames, number f ∉ relayed s.log)
    (hs' : s'.log = s.log) (hmon' : s'.monitors = []) : Once s' (openFiles enc s.disk) := by
  obtain ⟨hkept, hseq⟩ : Kept s.disk (openFiles enc s.disk) ∧ (openFiles enc s.disk).seq = j.seq :=
    ho.kept.reopen
  have hnum : numbers s' = numbers s := by
    unfold numbers course
    rw [hs', hmon, hmon']
  have hrelayed : numbers s = relayed s.log := by simp [numbers, course, relayed, hmon]
  refine ⟨hnum ▸ h.ascending, hnum ▸ hseq ▸ h.bounded, fun _ f hf q hq => ?_, ?_⟩
  · rw [hnum] at hq
    have hle : q ≤ (openFiles enc s.disk).seq.toNat := hseq ▸ h.bounded q hq
    by_contra hge
    obtain ⟨first, hfirst, hlen, _⟩ := hkept.memory
    have hlow := (hfirst.bounds hf).1
    obtain ⟨g, hg, hgq⟩ := hfirst.exists_mem (n := q) (by omega) (by omega)
    rw [hrelayed, ← hgq] at hq
    exact hunread g hg hq
  · rw [hmon']
    nofun

theorem Once.step {act : Action} (ho : Ordered s j) (h : Once s j)
    (hok : opensUnread enc s act = true) (hs : step enc s act = some s') :
    Once s' (journalAfter enc s j act) := by
  obtain ⟨horderly, hunread⟩ := Bool.and_eq_true_iff.1 hok
  cases act with
  | commit =>
    simp only [LogRelay.step] at hs
    split_ifs at hs with hnone
    cases hs
    exact h.congr rfl rfl (by rintro ⟨⟩)
  | boot =>
    simp only [LogRelay.step] at hs
    split_ifs at hs with hstage
    cases hs
    have hmon : s.monitors = [] := List.isEmpty_iff.1 horderly
    refine h.boot ho hmon (fun f hf hmem => ?_) rfl hmon
    have hnot : number f ∉ relayed s.log := by simpa using List.all_eq_true.1 hunread f hf
    exact hnot hmem
  | monitor =>
    simp only [LogRelay.step] at hs
    split_ifs at hs with hstage
    cases hs
    have hmon := (ho.booted hstage).2
    have hnum : ∀ m : Monitor, m.pending = [] →
        numbers { s with monitors := s.monitors ++ [m], stage := .monitored } = numbers s := by
      intro m hp
      simp [numbers, course, hmon, hp]
    have hnum := hnum ⟨s.generation, openFiles enc s.host, s.cursors s.generation, 0, .waiting⟩ rfl
    refine ⟨hnum ▸ h.ascending, hnum ▸ h.bounded, by rintro ⟨⟩, fun m hm f hf _ => ?_⟩
    rw [hnum]
    exact h.unread hstage f hf
  | halt =>
    cases hs
    exact h.congr rfl rfl id
  | write out b time =>
    simp only [LogRelay.step] at hs
    cases ha : s.agent with
    | none => simp [ha] at hs
    | some a =>
      simp only [ha] at hs
      split_ifs at hs with hexited
      cases hs
      obtain rfl := ho.agent a ha
      simp only [orderly, ha, decide_eq_true_eq] at horderly
      exact (h.write horderly).congr rfl rfl id
  | exit =>
    obtain ⟨a, ha, rfl⟩ := Option.map_eq_some_iff.1 hs
    exact h.congr rfl rfl id
  | tick i ok time =>
    obtain ⟨m, out, _, hm, ht, rfl⟩ := ticked_of_tick ho.single hs
    exact h.ticked ho hm ht
  | quit i =>
    obtain ⟨m, hm, rfl⟩ := eq_of_quit ho.single hs
    have hend : Ticked enc s m (s, none) := .ended
    exact h.ticked ho hm hend

end once

/-- In every orderly run in which no agent opens a journal with a frame that was relayed, each
guest frame is appended to the host's log at most once. -/
theorem relayed_at_most_once (enc : Encoding) (acts : List Action) (s : State)
    (h : Traces.run (step enc) (opensUnread enc) start acts = some s) : (relayed s.log).Nodup := by
  have hstart : ∃ j, Ordered start j ∧ Once start j :=
    ⟨{}, ordered_start, List.Pairwise.nil, nofun, nofun, nofun⟩
  have hinv : ∃ j, Ordered s j ∧ Once s j := by
    apply Traces.run_invariant (I := fun s => ∃ j, Ordered s j ∧ Once s j) _ hstart h
    rintro s act s' ⟨j, ho, h⟩ hok hs
    exact ⟨_, ho.step (Bool.and_eq_true_iff.1 hok).1 hs, h.step ho hok hs⟩
  obtain ⟨j, _, honce⟩ := hinv
  exact (honce.ascending.sublist relayed_sublist).imp Nat.ne_of_lt

def firstLine : List Action := [.commit, .boot, .monitor, .write .stdout [104, 105] 10]

/-- A successful round of the polling loop over a batch of the given length, from the check
of the generation to the answer to `status`. -/
def poll (frames : ℕ) : List Action := List.replicate (frames + 4) (.tick 0 true 20)

/-- The VM ends before the first poll, and a monitor of the next generation relays the frame
together with a later one. -/
theorem relayed_at_most_once_restarted :
    ∃ s, Traces.run (step lineEncoding) (opensUnread lineEncoding) start
        (firstLine ++ [.halt, .commit, .tick 0 true 15, .boot, .monitor] ++ poll 1 ++
          [.write .stderr [33] 30] ++ poll 1) = some s ∧
      relayed s.log = [1, 2] ∧ (relayed s.log).Nodup := by
  have hrun : ∃ s, Traces.run (step lineEncoding) (opensUnread lineEncoding) start
        (firstLine ++ [.halt, .commit, .tick 0 true 15, .boot, .monitor] ++ poll 1 ++
          [.write .stderr [33] 30] ++ poll 1) = some s ∧ relayed s.log = [1, 2] := by
    rw [← Option.map_eq_some_iff]
    decide +kernel
  obtain ⟨s, hs, hlog⟩ := hrun
  exact ⟨s, hs, hlog, relayed_at_most_once _ _ s hs⟩

/-- The frame is relayed, the application exits and the sandbox is started again: the monitor
of the second generation begins at zero and relays the frame once more. -/
theorem frame_relayed_twice : ∃ s, Traces.run (step lineEncoding) orderly start
        (firstLine ++ poll 1 ++ [.exit] ++ poll 0 ++ [.tick 0 true 25, .halt, .commit, .boot, .monitor] ++
          poll 1) = some s ∧
      relayed s.log = [1, 1] ∧ ¬ (relayed s.log).Nodup := by
  have hrun : ∃ s, Traces.run (step lineEncoding) orderly start
        (firstLine ++ poll 1 ++ [.exit] ++ poll 0 ++ [.tick 0 true 25, .halt, .commit, .boot, .monitor] ++
          poll 1) = some s ∧ relayed s.log = [1, 1] := by
    rw [← Option.map_eq_some_iff]
    decide +kernel
  obtain ⟨s, hs, hlog⟩ := hrun
  refine ⟨s, hs, hlog, ?_⟩
  rw [hlog]
  decide

end LogRelay
end Niflhel
