import Niflhel.Journal
import Niflhel.Lifecycle
import Niflhel.Operation
import Niflhel.Traces

/-!
# Relaying application logs

The agent in the VM writes the output of the application to a journal on the state disk,
which outlives the VM. For each generation of a sandbox the daemon starts a monitor, which
polls the agent for the frames after its cursor and appends them to a journal on the host;
when the application has exited it drains what is left. The VM can end at any moment, and
every call of a monitor can fail.
-/

namespace Niflhel
namespace LogRelay
open Numbering Journal Concurrent

inductive Output where
  | stdout
  | stderr
  deriving DecidableEq, Repr

def Output.kind : Output → String
  | .stdout => "stdout"
  | .stderr => "stderr"

structure Agent where
  generation : ℕ
  journal : Journal
  exited : Bool := false

structure Entry where
  frame : Frame
  source : Frame

/-- Where a monitor stands in its loop: before the store is asked for the generation, before
the `logs` call, in the loop over a batch, before the `status` call, before a `logs` call of
the drain, and in the loop over one of its batches. -/
inductive Phase where
  | waiting
  | checked
  | copying (frames : List Frame)
  | asking
  | draining
  | tail (frames : List Frame)

structure Monitor where
  generation : ℕ
  log : Journal
  cursor : UInt64
  failures : ℕ := 0
  phase : Phase := .waiting

inductive Stage where
  | idle
  | committed
  | booted
  | monitored
  deriving DecidableEq, Repr

/-- `cursors` are the cursor files of the generations, and `log` is everything ever appended
to the host journal. -/
structure State where
  generation : ℕ := 0
  stage : Stage := .idle
  disk : Files := {}
  agent : Option Agent := none
  host : Files := {}
  cursors : ℕ → UInt64 := fun _ => 0
  monitors : List Monitor := []
  log : List Entry := []

def start : State := {}

/-- `tick` is a step of one monitor: `ok` tells whether its call succeeds, and `time` is the
clock. -/
inductive Action where
  | commit
  | boot
  | monitor
  | halt
  | write (out : Output) (b : List UInt8) (time : Time)
  | exit
  | tick (i : ℕ) (ok : Bool) (time : Time)
  | quit (i : ℕ)

def copy (enc : Encoding) (s : State) (m : Monitor) (f : Frame) (text : List UInt8) (time : Time)
    (phase : Phase) : State × Option Monitor :=
  ({ s with
      host := m.log.writeFiles enc s.host f.type text time
      log := s.log ++ (m.log.newFrames f.type text time).map (⟨·, f⟩) },
    some { m with log := m.log.write f.type text time, cursor := f.sequence, phase := phase })

/-- After five failures in a row the monitor finishes the sandbox and returns. -/
def failed (s : State) (m : Monitor) : State × Option Monitor :=
  (s, if m.failures + 1 ≥ 5 then none
    else some { m with failures := m.failures + 1, phase := .waiting })

def tick (enc : Encoding) (s : State) (ok : Bool) (time : Time) (m : Monitor) :
    State × Option Monitor :=
  match m.phase with
  | .waiting =>
    (s, if ok = true ∧ s.generation = m.generation then some { m with phase := .checked } else none)
  | .checked =>
    match s.agent, ok with
    | some a, true => (s, some { m with phase := .copying (a.journal.read m.cursor) })
    | _, _ => failed s m
  | .copying (f :: rest) =>
    copy enc s m f (if f.type = "gap" then textBytes f.message else f.data) time (.copying rest)
  | .copying [] =>
    ({ s with cursors := Function.update s.cursors m.generation m.cursor },
      some { m with phase := .asking })
  | .asking =>
    match s.agent, ok with
    | some a, true =>
      -- A status of another generation counts as a hundred failures.
      (s, if a.generation ≠ m.generation then none
        else some { m with failures := 0, phase := if a.exited then .draining else .waiting })
    | _, _ => failed s m
  | .draining =>
    match s.agent, ok with
    | some a, true =>
      (s, match a.journal.read m.cursor with
        | [] => none
        | frames => some { m with phase := .tail frames })
    | _, _ => (s, none)
  | .tail (f :: rest) => copy enc s m f f.data time (.tail rest)
  | .tail [] => (s, some { m with phase := .draining })

def step (enc : Encoding) (s : State) : Action → Option State
  | .commit =>
    if s.agent.isNone then some { s with generation := s.generation + 1, stage := .committed }
    else none
  | .boot =>
    if s.stage = .committed then
      some { s with agent := some ⟨s.generation, openFiles enc s.disk, false⟩, stage := .booted }
    else none
  | .monitor =>
    if s.stage = .booted then
      some { s with
        monitors := s.monitors ++
          [⟨s.generation, openFiles enc s.host, s.cursors s.generation, 0, .waiting⟩]
        stage := .monitored }
    else none
  | .halt => some { s with agent := none }
  | .write out b time =>
    match s.agent with
    | some a =>
      if a.exited then none
      else some { s with
        agent := some { a with journal := a.journal.write out.kind b time }
        disk := a.journal.writeFiles enc s.disk out.kind b time }
    | none => none
  | .exit => s.agent.map fun a => { s with agent := some { a with exited := true } }
  | .tick i ok time => s.monitors[i]?.map fun m =>
    let (s', m') := tick enc s ok time m
    { s' with monitors := s.monitors.take i ++ m'.toList ++ s.monitors.drop (i + 1) }
  | .quit i => s.monitors[i]?.bind fun m =>
    match m.phase with
    | .waiting => some { s with monitors := s.monitors.eraseIdx i }
    | _ => none

def mark (f : Frame) : Option ℕ := if f.type = "gap" then none else some (number f)

def marks (log : List Entry) : List (Option ℕ) := log.map fun e => mark e.source

def relayed (log : List Entry) : List ℕ := (marks log).filterMap id

def Monitor.pending (m : Monitor) : List Frame :=
  match m.phase with
  | .copying frames => frames
  | .tail frames => frames
  | _ => []

def Monitor.tailing (m : Monitor) : Bool :=
  match m.phase with
  | .tail _ => true
  | _ => false

def Monitor.goal (m : Monitor) : UInt64 := (m.pending.getLast?.map Frame.sequence).getD m.cursor

inductive Ticked (enc : Encoding) (s : State) (m : Monitor) : State × Option Monitor → Prop where
  | ended : Ticked enc s m (s, none)
  | moved {m' : Monitor} {cursors : ℕ → UInt64} (hc : m'.cursor = m.cursor)
      (hg : m'.generation = m.generation) (hp : m.pending = []) (hp' : m'.pending = [])
      (hs : ∀ g, g ≠ m.generation → cursors g = s.cursors g) :
      Ticked enc s m ({ s with cursors := cursors }, some m')
  | received {a : Agent} {m' : Monitor} (ha : s.agent = some a) (hc : m'.cursor = m.cursor)
      (hg : m'.generation = m.generation) (hp : m.pending = [])
      (hp' : m'.pending = a.journal.read m.cursor)
      (ht : m'.tailing = true → m.phase = .draining) : Ticked enc s m (s, some m')
  | copied {f : Frame} {rest : List Frame} {text : List UInt8} {time : Time} {host : Files}
      {m' : Monitor} (hp : m.pending = f :: rest) (hp' : m'.pending = rest)
      (hc : m'.cursor = f.sequence) (hg : m'.generation = m.generation)
      (ht : m'.tailing = m.tailing)
      (htext : text = if f.type = "gap" ∧ m.tailing = false then textBytes f.message else f.data) :
      Ticked enc s m
        ({ s with
            host := host
            log := s.log ++ (m.log.newFrames f.type text time).map (⟨·, f⟩) }, some m')

theorem ticked_failed {enc : Encoding} {s : State} {m : Monitor} (hp : m.pending = []) :
    Ticked enc s m (failed s m) := by
  unfold failed
  split
  · exact .ended
  · exact .moved rfl rfl hp rfl fun _ _ => rfl

theorem ticked_tick {enc : Encoding} {s : State} {ok : Bool} {time : Time} {m : Monitor} :
    Ticked enc s m (tick enc s ok time m) := by
  have hidle : ∀ phase, m.phase = phase → (∀ frames, phase ≠ .copying frames) →
      (∀ frames, phase ≠ .tail frames) → m.pending = [] := by
    intro phase hphase hcopying htail
    unfold Monitor.pending
    rw [hphase]
    cases phase with
    | copying frames => exact absurd rfl (hcopying frames)
    | tail frames => exact absurd rfl (htail frames)
    | _ => rfl
  unfold tick
  split
  · rename_i hphase
    split
    · exact .moved rfl rfl (hidle _ hphase nofun nofun) rfl fun _ _ => rfl
    · exact .ended
  · rename_i hphase
    split
    · rename_i a ha
      exact .received ha rfl rfl (hidle _ hphase nofun nofun) rfl nofun
    · exact ticked_failed (hidle _ hphase nofun nofun)
  · rename_i f rest hphase
    have hpending : m.pending = f :: rest := by
      unfold Monitor.pending
      rw [hphase]
    have htail : m.tailing = false := by
      unfold Monitor.tailing
      rw [hphase]
    exact .copied hpending rfl rfl rfl htail.symm (by simp [htail])
  · rename_i hphase
    have hpending : m.pending = [] := by
      unfold Monitor.pending
      rw [hphase]
    exact .moved rfl rfl hpending rfl fun g hg => Function.update_of_ne hg _ _
  · rename_i hphase
    split
    · rename_i a ha
      split
      · exact .ended
      · refine .moved rfl rfl (hidle _ hphase nofun nofun) ?_ fun _ _ => rfl
        cases a.exited <;> rfl
    · exact ticked_failed (hidle _ hphase nofun nofun)
  · rename_i hphase
    split
    · rename_i a ha
      split
      · exact .ended
      · exact .received ha rfl rfl (hidle _ hphase nofun nofun) rfl fun _ => hphase
    · exact .ended
  · rename_i f rest hphase
    have hpending : m.pending = f :: rest := by
      unfold Monitor.pending
      rw [hphase]
    have htail : m.tailing = true := by
      unfold Monitor.tailing
      rw [hphase]
    exact .copied hpending rfl rfl rfl htail.symm (by simp [htail])
  · rename_i hphase
    have hpending : m.pending = [] := by
      unfold Monitor.pending
      rw [hphase]
    exact .moved rfl rfl hpending rfl fun _ _ => rfl

/-- The guest's counter does not wrap, and an agent starts after the monitors of earlier
generations have returned. -/
def orderly (s : State) : Action → Bool
  | .write _ b _ =>
    match s.agent with
    | some a => a.journal.seq.toNat + (pieces b.length b).length + 1 < 2 ^ 64
    | none => true
  | .boot => s.monitors.isEmpty
  | _ => true

def journalAfter (enc : Encoding) (s : State) (j : Journal) : Action → Journal
  | .boot => openFiles enc s.disk
  | .write out b time => j.write out.kind b time
  | _ => j

def Relayable (f : Frame) : Prop := (Written f ∧ f.type ≠ "gap") ∨ ∃ first, f = gap first

/-- The state of an orderly run, where `j` is the guest's journal: at most one monitor is at
work, and the cursor of a new generation is zero. -/
structure Ordered (s : State) (j : Journal) : Prop where
  kept : Kept s.disk j
  agent : ∀ a, s.agent = some a → a.journal = j
  room : j.seq.toNat + 1 < 2 ^ 64
  plain : (∀ f ∈ j.frames, f.type ≠ "gap") ∧ ∀ f ∈ s.disk.lines, f.type ≠ "gap"
  single : s.monitors.length ≤ 1
  unused : ∀ g, s.generation < g → s.cursors g = 0
  committed : s.stage = .committed →
    s.cursors s.generation = 0 ∧ ∀ m ∈ s.monitors, m.generation < s.generation
  booted : s.stage = .booted → s.cursors s.generation = 0 ∧ s.monitors = []
  monitors : ∀ m ∈ s.monitors, m.generation ≤ s.generation ∧ m.goal.toNat ≤ j.seq.toNat ∧
    ∀ f ∈ m.pending, Relayable f

section orderly
variable {enc : Encoding} {s s' : State} {j : Journal} {m m' : Monitor}

theorem ordered_start : Ordered start {} where
  kept := kept_empty
  agent a ha := by cases ha
  room := by decide
  plain := by simp [start, Files.lines]
  single := Nat.zero_le 1
  unused g hg := rfl
  committed h := by cases h
  booted h := by cases h
  monitors m hm := by cases hm

theorem eq_singleton_of_getElem? {i : ℕ} (h : s.monitors.length ≤ 1)
    (hm : s.monitors[i]? = some m) : s.monitors = [m] ∧ i = 0 := by
  obtain ⟨hi, hget⟩ := List.getElem?_eq_some_iff.1 hm
  match hlist : s.monitors, h with
  | [], _ => simp [hlist] at hi
  | [m₁], _ =>
    obtain rfl : i = 0 := by
      rw [hlist] at hi
      simpa using hi
    simp [hlist] at hm
    simp [hm]

theorem ticked_of_tick {i : ℕ} {ok : Bool} {time : Time} (h : s.monitors.length ≤ 1)
    (hs : step enc s (.tick i ok time) = some s') :
    ∃ m out, s.monitors[i]? = some m ∧ s.monitors = [m] ∧ Ticked enc s m out ∧
      s' = { out.1 with monitors := out.2.toList } := by
  obtain ⟨m, hm, rfl⟩ := Option.map_eq_some_iff.1 hs
  obtain ⟨hlist, rfl⟩ := eq_singleton_of_getElem? h hm
  refine ⟨m, tick enc s ok time m, hm, hlist, ticked_tick, ?_⟩
  simp [hlist]

theorem eq_of_quit {i : ℕ} (h : s.monitors.length ≤ 1) (hs : step enc s (.quit i) = some s') :
    ∃ m, s.monitors = [m] ∧ s' = { s with monitors := [] } := by
  obtain ⟨m, hm, hquit⟩ := Option.bind_eq_some_iff.1 hs
  obtain ⟨hlist, rfl⟩ := eq_singleton_of_getElem? h hm
  refine ⟨m, hlist, ?_⟩
  split at hquit
  · cases hquit
    simp [hlist]
  · cases hquit

/-- A batch read after `cursor`: an optional gap, and frames of the journal that follow it or
the cursor. -/
theorem batch_cases {n : ℕ} {cursor : UInt64} (hj : UpTo number n j.frames)
    (hroom : cursor.toNat + 1 < 2 ^ 64) :
    ∃ front first batch, j.read cursor = front ++ batch ∧ Consecutive number first batch ∧
      (∀ f ∈ batch, f ∈ j.frames) ∧ cursor.toNat < first ∧
      ((front = [] ∧ j.misses cursor = false ∧ first = cursor.toNat + 1) ∨
        (j.misses cursor = true ∧ batch ≠ [] ∧ ∃ k, front = [gap k])) := by
  cases hmiss : j.misses cursor with
  | false =>
    obtain ⟨hread, hbatch⟩ := read_retained hj hmiss
    refine ⟨[], cursor.toNat + 1, j.read cursor, rfl, hbatch, fun f hf => ?_, by omega,
      Or.inl ⟨rfl, rfl, rfl⟩⟩
    rw [hread] at hf
    exact (mem_collect hf).1
  | true =>
    obtain ⟨k, batch, hread, hne, hlt, hbatch, hmem⟩ := read_missed hj hmiss hroom
    exact ⟨[gap k], k.toNat, batch, hread, hbatch, hmem, by omega, Or.inr ⟨rfl, hne, k, rfl⟩⟩

theorem goal_received {n : ℕ} (hj : UpTo number n j.frames) (hroom : m.cursor.toNat + 1 < 2 ^ 64)
    (hc : m'.cursor = m.cursor) (hp : m'.pending = j.read m.cursor) :
    (m'.pending = [] ∧ m'.goal = m.cursor) ∨
      ∃ f ∈ j.frames, m'.pending.getLast? = some f ∧ m'.goal = f.sequence ∧
        m.cursor.toNat < number f ∧ ∀ g ∈ m'.pending, g.type ≠ "gap" → number g ≤ number f := by
  obtain ⟨front, first, batch, hread, hbatch, hmem, hlt, hcase⟩ := batch_cases hj hroom
  rw [← hp] at hread
  cases hlast : batch.getLast? with
  | none =>
    obtain rfl := List.getLast?_eq_none_iff.1 hlast
    rcases hcase with ⟨rfl, _, _⟩ | ⟨_, hne, _⟩
    · left
      refine ⟨hread, ?_⟩
      unfold Monitor.goal
      rw [hread]
      exact hc
    · exact absurd rfl hne
  | some f =>
    right
    have hf : f ∈ batch := List.mem_of_getLast? hlast
    have hpending : m'.pending.getLast? = some f := by
      rw [hread, List.getLast?_append, hlast]
      rfl
    refine ⟨f, hmem f hf, hpending, ?_, hlt.trans_le (hbatch.bounds hf).1, fun g hg hplain => ?_⟩
    · unfold Monitor.goal
      rw [hpending]
      rfl
    · have hend := hbatch.last hlast
      rw [hread] at hg
      rcases List.mem_append.1 hg with hg | hg
      · rcases hcase with ⟨rfl, _, _⟩ | ⟨_, _, k, rfl⟩
        · cases hg
        · rw [List.mem_singleton.1 hg] at hplain
          exact absurd rfl hplain
      · have hbound := (hbatch.bounds hg).2
        omega

theorem goal_copied {f : Frame} {rest : List Frame} (hp : m.pending = f :: rest)
    (hp' : m'.pending = rest) (hc : m'.cursor = f.sequence) : m'.goal = m.goal := by
  unfold Monitor.goal
  rw [hp, hp', hc, List.getLast?_cons]
  cases rest.getLast? <;> rfl

theorem goal_moved (hp : m.pending = []) (hp' : m'.pending = []) (hc : m'.cursor = m.cursor) :
    m'.goal = m.goal := by
  unfold Monitor.goal
  rw [hp, hp', hc]

theorem goal_idle (hp : m.pending = []) : m.goal = m.cursor := by
  unfold Monitor.goal
  rw [hp]
  rfl

theorem Ordered.read_room (h : Ordered s j) (hm : m ∈ s.monitors) (hp : m.pending = []) :
    m.cursor.toNat + 1 < 2 ^ 64 := by
  have hgoal := (h.monitors m hm).2.1
  rw [goal_idle hp] at hgoal
  have hroom := h.room
  omega

theorem Ordered.relayable (h : Ordered s j) (hroom : m.cursor.toNat + 1 < 2 ^ 64) :
    ∀ f ∈ j.read m.cursor, Relayable f := by
  intro f hf
  obtain ⟨front, first, batch, hread, _, hmem, _, hcase⟩ := batch_cases h.kept.memory hroom
  rw [hread] at hf
  rcases List.mem_append.1 hf with hf | hf
  · rcases hcase with ⟨rfl, _, _⟩ | ⟨_, _, k, rfl⟩
    · cases hf
    · exact Or.inr ⟨k, List.mem_singleton.1 hf⟩
  · exact Or.inl ⟨h.kept.written f (hmem f hf), h.plain.1 f (hmem f hf)⟩

/-- The part of the invariant that concerns the monitor after one of its steps. -/
theorem Ordered.ticked {out : State × Option Monitor} (h : Ordered s j) (hm : m ∈ s.monitors)
    (ht : Ticked enc s m out) : Ordered { out.1 with monitors := out.2.toList } j := by
  obtain ⟨hgen, hgoal, hpending⟩ := h.monitors m hm
  have hbooted : s.stage ≠ .booted := by
    intro hb
    rw [(h.booted hb).2] at hm
    cases hm
  cases ht with
  | ended =>
    exact ⟨h.kept, h.agent, h.room, h.plain, Nat.zero_le 1, h.unused,
      fun hst => ⟨(h.committed hst).1, by simp⟩, fun hst => absurd hst hbooted, by simp⟩
  | @moved m' cursors hc hg hp hp' hs =>
    refine ⟨h.kept, h.agent, h.room, h.plain, le_rfl, fun g hlt => ?_, fun hst => ⟨?_, ?_⟩,
      fun hst => absurd hst hbooted, ?_⟩
    · have hne : g ≠ m.generation := (hgen.trans_lt hlt).ne'
      exact (hs g hne).trans (h.unused g hlt)
    · have hne := ((h.committed hst).2 m hm).ne'
      exact (hs _ hne).trans (h.committed hst).1
    · simpa [hg] using (h.committed hst).2 m hm
    · simp [hg, hgen, hp', goal_moved hp hp' hc, hgoal]
  | @received a m' ha hc hg hp hp' ht =>
    have haj := h.agent a ha
    have hroom := h.read_room hm hp
    refine ⟨h.kept, h.agent, h.room, h.plain, le_rfl, h.unused, fun hst => ⟨(h.committed hst).1, ?_⟩,
      fun hst => absurd hst hbooted, ?_⟩
    · simpa [hg] using (h.committed hst).2 m hm
    · intro m₁ hm₁
      obtain rfl : m₁ = m' := by simpa using hm₁
      rw [haj] at hp'
      refine ⟨hg ▸ hgen, ?_, fun f hf => h.relayable hroom f (hp' ▸ hf)⟩
      rcases goal_received h.kept.memory hroom hc hp' with ⟨_, hgoal'⟩ | ⟨f, hf, _, hgoal', _, _⟩
      · rw [hgoal', ← goal_idle hp]
        exact hgoal
      · rw [hgoal']
        exact (h.kept.memory.bounds hf).2
  | @copied f rest text time host m' hp hp' hc hg ht htext =>
    refine ⟨h.kept, h.agent, h.room, h.plain, le_rfl, h.unused, fun hst => ⟨(h.committed hst).1, ?_⟩,
      fun hst => absurd hst hbooted, ?_⟩
    · simpa [hg] using (h.committed hst).2 m hm
    · intro m₁ hm₁
      obtain rfl : m₁ = m' := by simpa using hm₁
      rw [goal_copied hp hp' hc, hp', hg]
      exact ⟨hgen, hgoal, fun f' hf' => hpending f' (by simp [hp, hf'])⟩

theorem Ordered.write {out : Output} {b : List UInt8} {time : Time} {a : Agent} (h : Ordered s j)
    (ha : s.agent = some a)
    (hok : a.journal.seq.toNat + (pieces b.length b).length + 1 < 2 ^ 64) :
    Ordered { s with
      agent := some { a with journal := a.journal.write out.kind b time }
      disk := a.journal.writeFiles enc s.disk out.kind b time } (j.write out.kind b time) := by
  obtain rfl := h.agent a ha
  have hkind : out.kind.length ≤ 6 ∧ out.kind ≠ "gap" := by cases out <;> decide
  have hseq : (a.journal.write out.kind b time).seq.toNat = _ := write_seq (Nat.lt_of_succ_lt hok)
  have hnew : ∀ f ∈ a.journal.newFrames out.kind b time, f.type ≠ "gap" := fun f hf =>
    (written_newFrames hkind.1 hf).2 ▸ hkind.2
  refine ⟨h.kept.write hkind.1 (Nat.lt_of_succ_lt hok), fun a' ha' => ?_, by omega, ⟨fun f hf => ?_, fun f hf => ?_⟩, h.single, h.unused,
    h.committed, h.booted, fun m hm => ?_⟩
  · rw [← Option.some.inj ha']
  · exact (mem_write hf).elim (h.plain.1 f) (hnew f)
  · exact (mem_writeFiles hf).elim (h.plain.2 f) (hnew f)
  · obtain ⟨hgen, hgoal, hpending⟩ := h.monitors m hm
    exact ⟨hgen, by omega, hpending⟩

theorem Ordered.boot (h : Ordered s j) (hmon : s.monitors = []) (hstage : s.stage = .committed) :
    Ordered { s with agent := some ⟨s.generation, openFiles enc s.disk, false⟩, stage := .booted }
      (openFiles enc s.disk) := by
  obtain ⟨hkept, hseq⟩ : Kept s.disk (openFiles enc s.disk) ∧ (openFiles enc s.disk).seq = j.seq :=
    h.kept.reopen
  refine ⟨hkept, fun a ha => ?_, by rw [hseq]; exact h.room, ⟨fun f hf => ?_, h.plain.2⟩, h.single,
    h.unused, nofun, fun _ => ⟨(h.committed hstage).1, hmon⟩, fun m hm => ?_⟩
  · rw [← Option.some.inj ha]
  · exact h.plain.2 f ((openFiles_suffix h.kept.stored).subset hf)
  · rw [hmon] at hm
    cases hm

theorem Ordered.step {act : Action} (h : Ordered s j) (hok : orderly s act = true)
    (hs : step enc s act = some s') : Ordered s' (journalAfter enc s j act) := by
  cases act with
  | commit =>
    simp only [LogRelay.step] at hs
    split_ifs at hs with hnone
    cases hs
    refine ⟨h.kept, h.agent, h.room, h.plain, h.single, fun g hg => ?_, fun _ => ⟨?_, fun m hm => ?_⟩,
      nofun, fun m hm => ?_⟩
    · exact h.unused g (Nat.lt_of_succ_lt hg)
    · exact h.unused _ (Nat.lt_succ_self _)
    · exact Nat.lt_succ_of_le (h.monitors m hm).1
    · obtain ⟨hgen, hrest⟩ := h.monitors m hm
      exact ⟨Nat.le_succ_of_le hgen, hrest⟩
  | boot =>
    simp only [LogRelay.step] at hs
    split_ifs at hs with hstage
    cases hs
    exact h.boot (List.isEmpty_iff.1 hok) hstage
  | monitor =>
    simp only [LogRelay.step] at hs
    split_ifs at hs with hstage
    cases hs
    obtain ⟨hcursor, hmon⟩ := h.booted hstage
    refine ⟨h.kept, h.agent, h.room, h.plain, by simp [hmon], h.unused, nofun, nofun,
      fun m hm => ?_⟩
    obtain rfl : m = _ := by simpa [hmon] using hm
    refine ⟨le_rfl, ?_, by simp [Monitor.pending]⟩
    rw [goal_idle rfl]
    simp [hcursor]
  | halt =>
    cases hs
    exact ⟨h.kept, nofun, h.room, h.plain, h.single, h.unused, h.committed, h.booted, h.monitors⟩
  | write out b time =>
    simp only [LogRelay.step] at hs
    cases ha : s.agent with
    | none => simp [ha] at hs
    | some a =>
      simp only [ha] at hs
      split_ifs at hs with hexited
      cases hs
      simp only [orderly, ha, decide_eq_true_eq] at hok
      exact h.write ha hok
  | exit =>
    obtain ⟨a, ha, rfl⟩ := Option.map_eq_some_iff.1 hs
    refine ⟨h.kept, fun a' ha' => ?_, h.room, h.plain, h.single, h.unused, h.committed, h.booted,
      h.monitors⟩
    rw [← Option.some.inj ha']
    exact h.agent a ha
  | tick i ok time =>
    obtain ⟨m, out, hm, _, ht, rfl⟩ := ticked_of_tick h.single hs
    exact h.ticked (List.mem_of_getElem? hm) ht
  | quit i =>
    obtain ⟨m, hm, rfl⟩ := eq_of_quit h.single hs
    have hend : Ticked enc s m (s, none) := .ended
    exact h.ticked (by simp [hm]) hend

end orderly

section program
variable {v : Sandbox} {exit : Exit} {p : Prog Unit} {n k : ℕ} {m : Monitor} {enc : Encoding}
  {s : State} {ok : Bool} {time : Time} {calls polls : List (Call Op Op.Reply)}

def polled (v : Sandbox) (n : ℕ) : ℕ ⊕ Exit → Prog Unit
  | .inr exit => do
    external (.drain v)
    finish v exit
  | .inl failures => do
    if failures ≥ 5 then finish v (controlLost (← external .now)) else monitorRounds v n failures

def counts : Phase → Bool
  | .draining | .tail _ => false
  | _ => true

/-- The goroutine for `v`, which began with `p`, may be in the poll in which the monitor is, with
`n` polls to come after it. -/
def Stands (v : Sandbox) (p : Prog Unit) (n : ℕ) (m : Monitor) : Prop :=
  m.generation = v.generation ∧ ∃ polls failures,
    p.Makes polls (monitorRounds v (n + 1) failures) ∧ (counts m.phase = true → failures = m.failures)

def Ends (v : Sandbox) (p : Prog Unit) : Prop :=
  ∃ calls, p.Makes calls (pure ()) ∨ ∃ exit, p.Makes calls (finish v exit)

def Mirrors (v : Sandbox) (p : Prog Unit) (n : ℕ) : Option Monitor → Prop
  | some m => Stands v p n m
  | none => Ends v p

theorem makes_round {r : ℕ ⊕ Exit} (h : (poll v k).Makes calls (pure r)) :
    (monitorRounds v (n + 1) k).Makes (⟨.get v.id, .ok v⟩ :: calls) (polled v n r) := by
  have hget : (monitorRounds v (n + 1) k).Makes [⟨.get v.id, .ok v⟩] _ := .cons .nil
  dsimp only [Program.bind] at hget
  rw [if_neg (by simp)] at hget
  exact hget.trans (h.bind (polled v n))

theorem makes_status {st : GuestStatus} {r : ℕ ⊕ Exit}
    (hst : (if st.id ≠ v.id ∨ st.generation ≠ v.generation then .inl 100
      else if st.state = "exited" then st.exit.elim (.inl 0) .inr else .inl 0) = r) :
    (poll v k).Makes [⟨.external (.client v), none⟩, ⟨.external (.logs v), none⟩,
      ⟨.external (.status v), .ok st⟩] (pure r) := by
  refine .cons (.cons (.cons ?_))
  subst hst
  dsimp only [Program.bind]
  split_ifs <;> cases st.exit <;> exact .nil

theorem makes_lost : (poll v k).Makes [⟨.external (.client v), some ""⟩] (pure (.inl (k + 1))) :=
  .cons .nil

theorem Stands.moved {m' : Monitor} (h : Stands v p n m) (hg : m'.generation = m.generation)
    (hf : counts m'.phase = true → counts m.phase = true ∧ m'.failures = m.failures) :
    Stands v p n m' := by
  obtain ⟨hgen, polls, k, hp, hk⟩ := h
  exact ⟨hg.trans hgen, polls, k, hp, fun hc => (hk (hf hc).1).trans (hf hc).2.symm⟩

theorem Stands.polled (h : Stands v p (n + 1) m) (hc : counts m.phase = true)
    (hpoll : (poll v m.failures).Makes calls (pure (.inl k))) :
    Mirrors v p n (if k ≥ 5 then none else some { m with failures := k, phase := .waiting }) := by
  obtain ⟨hg, polls, failures, hp, hf⟩ := h
  obtain rfl := hf hc
  have hround := hp.trans (makes_round hpoll)
  rw [LogRelay.polled] at hround
  split
  · rename_i hk
    rw [if_pos hk] at hround
    exact ⟨_, .inr ⟨_, hround.append 0⟩⟩
  · rename_i hk
    rw [if_neg hk] at hround
    exact ⟨hg, _, k, hround, fun _ => rfl⟩

theorem Stands.exited (h : Stands v p n m) : Ends v p := by
  obtain ⟨-, polls, k, hp, -⟩ := h
  have hpoll := @makes_status v k ⟨1, v.id, v.generation, "exited", some (controlLost 0)⟩
    (.inr (controlLost 0)) (by simp)
  exact ⟨_, .inr ⟨controlLost 0, (hp.trans (makes_round hpoll)).append ()⟩⟩

theorem mirrors_tick (h : Stands v p (n + 1) m) :
    ∃ n', n ≤ n' ∧ Mirrors v p n' (tick enc s ok time m).2 := by
  have hmoved : ∀ {m' : Monitor}, m'.generation = m.generation →
      (counts m'.phase = true → counts m.phase = true ∧ m'.failures = m.failures) →
      ∃ n', n ≤ n' ∧ Mirrors v p n' (some m') := fun hg hf => ⟨n + 1, by omega, h.moved hg hf⟩
  unfold tick
  cases hphase : m.phase with
  | waiting =>
    dsimp only
    split
    · exact hmoved rfl (by simp [hphase, counts])
    · obtain ⟨-, polls, k, hp, -⟩ := h
      exact ⟨n, le_rfl, _, .inl (hp.trans (.cons (r := .error "") .nil))⟩
  | checked =>
    dsimp only
    split
    · exact hmoved rfl (by simp [hphase, counts])
    · exact ⟨n, le_rfl, h.polled (by simp [hphase, counts]) makes_lost⟩
  | copying frames => cases frames <;> exact hmoved rfl (by simp [hphase, counts])
  | asking =>
    have hcounts : counts m.phase = true := by simp [hphase, counts]
    dsimp only
    split
    · rename_i a _
      by_cases hgen : a.generation = m.generation
      · rw [if_neg (by simp [hgen])]
        cases a.exited with
        | true => exact hmoved rfl (by simp [counts])
        | false =>
          have hpoll := @makes_status v m.failures ⟨1, v.id, v.generation, "running", none⟩ _ rfl
          exact ⟨n, le_rfl, h.polled (k := 0) hcounts (by simpa using hpoll)⟩
      · rw [if_pos hgen]
        have hpoll := @makes_status v m.failures ⟨1, v.id, a.generation, "running", none⟩ _ rfl
        rw [h.1] at hgen
        exact ⟨n, le_rfl, h.polled (k := 100) hcounts (by simpa [hgen] using hpoll)⟩
    · exact ⟨n, le_rfl, h.polled hcounts makes_lost⟩
  | draining =>
    dsimp only
    split
    · split
      · exact ⟨n, le_rfl, h.exited⟩
      · exact hmoved rfl (by simp [counts])
    · exact ⟨n, le_rfl, h.exited⟩
  | tail frames => cases frames <;> exact hmoved rfl (by simp [counts])

/-- Steps of one monitor, whatever happens around them. -/
inductive Ticks (enc : Encoding) (m : Monitor) : ℕ → Option Monitor → Prop where
  | start : Ticks enc m 0 (some m)
  | tick {k : ℕ} {m' : Monitor} (h : Ticks enc m k (some m')) (s : State) (ok : Bool) (time : Time) :
      Ticks enc m (k + 1) (LogRelay.tick enc s ok time m').2

/-- A monitor does what the goroutine of `Lifecycle` does, poll by poll: they count the same
failures and end with the same polls. -/
theorem ticks_mirrored {o : Option Monitor} (hg : m.generation = v.generation) (h : Ticks enc m k o)
    (hk : k ≤ n) : ∃ n', n ≤ n' + k ∧ Mirrors v (monitorRounds v (n + 1) m.failures) n' o := by
  induction h with
  | start => exact ⟨n, le_rfl, hg, [], m.failures, .nil, fun _ => rfl⟩
  | @tick k m' _ s ok time ih =>
    obtain ⟨n', hn, hstands⟩ := ih (by omega)
    obtain ⟨n', rfl⟩ : ∃ i, n' = i + 1 := ⟨n' - 1, by omega⟩
    obtain ⟨i, hi, hmirrors⟩ := mirrors_tick hstands
    exact ⟨i, by omega, hmirrors⟩

end program

end LogRelay
end Niflhel
