import Niflhel.Program

/-!
# Interleaved thread pools with crashes

A system runs any number of threads over one shared state. One step lets one thread
perform its next call, lets the environment start a requested job on a new thread, or
crashes the whole pool: every thread is lost, the state keeps what survives, and thread
zero boots. `exec` is partial, so a call may block or refuse a reply.
-/

namespace Concurrent
open Relation

structure System (State Op : Type) (Reply : Op → Type) (Job : Type) where
  exec : ℕ → State → (o : Op) → Reply o → Option State
  forks : Op → Option Job
  code : Job → Program Op Reply Unit
  accepts : State → Job → Bool
  crash : State → State
  boot : Job

structure Config (State Op : Type) (Reply : Op → Type) where
  state : State
  threads : ℕ → Program Op Reply Unit
  count : ℕ

inductive Label (Op : Type) (Reply : Op → Type) (Job : Type) where
  | run (t : ℕ) (o : Op) (r : Reply o)
  | request (j : Job)
  | crash

namespace System
variable {State Op Job : Type} {Reply : Op → Type} (S : System State Op Reply Job)

/-- Replaces one thread and starts the thread forked by the call, if any. -/
def resume (c : Config State Op Reply) (t : ℕ) (o : Op) (p : Program Op Reply Unit)
    (s : State) : Config State Op Reply :=
  match S.forks o with
  | none => ⟨s, Function.update c.threads t p, c.count⟩
  | some j => ⟨s, Function.update (Function.update c.threads t p) c.count (S.code j), c.count + 1⟩

@[simp] theorem resume_state (c : Config State Op Reply) (t : ℕ) (o : Op)
    (p : Program Op Reply Unit) (s : State) : (S.resume c t o p s).state = s := by
  unfold resume
  cases S.forks o with
  | none | some => rfl

variable {c : Config State Op Reply} {t : ℕ}

theorem resume_self (ht : t < c.count) (o : Op) (p : Program Op Reply Unit) (s : State) :
    (S.resume c t o p s).threads t = p ∧ t < (S.resume c t o p s).count := by
  unfold resume
  cases S.forks o with
  | none => exact ⟨by simp, ht⟩
  | some j => exact ⟨by simp [ht.ne], ht.trans (Nat.lt_succ_self _)⟩

theorem resume_other {u : ℕ} (hu : u ≠ t) (hc : u < c.count) (o : Op)
    (p : Program Op Reply Unit) (s : State) :
    (S.resume c t o p s).threads u = c.threads u ∧ u < (S.resume c t o p s).count := by
  unfold resume
  cases S.forks o with
  | none => exact ⟨by simp [hu], hc⟩
  | some j => exact ⟨by simp [hu, hc.ne], hc.trans (Nat.lt_succ_self _)⟩

theorem resume_cases (ht : t < c.count) (o : Op) (p : Program Op Reply Unit) (s : State) (u : ℕ) :
    (u = t ∧ (S.resume c t o p s).threads u = p) ∨
    (u ≠ t ∧ (S.resume c t o p s).threads u = c.threads u) ∨
    (u = c.count ∧ ∃ j, (S.resume c t o p s).threads u = S.code j) := by
  by_cases hut : u = t
  · subst hut
    exact .inl ⟨rfl, (S.resume_self ht o p s).1⟩
  · unfold resume
    cases S.forks o with
    | none => exact .inr (.inl ⟨hut, by simp [hut]⟩)
    | some j =>
      by_cases hu : u = c.count
      · exact .inr (.inr ⟨hu, j, by simp [hu]⟩)
      · exact .inr (.inl ⟨hut, by simp [hut, hu]⟩)

def start (c : Config State Op Reply) (j : Job) : Config State Op Reply :=
  ⟨c.state, Function.update c.threads c.count (S.code j), c.count + 1⟩

def booted (s : State) : Config State Op Reply :=
  ⟨s, Function.update (fun _ => .pure ()) 0 (S.code S.boot), 1⟩

inductive Step : Config State Op Reply → Label Op Reply Job → Config State Op Reply → Prop where
  | run {c : Config State Op Reply} {t : ℕ} {o : Op} {next : Reply o → Program Op Reply Unit}
      {r : Reply o} {s : State} (ht : c.threads t = .call o next)
      (hx : S.exec t c.state o r = some s) : Step c (.run t o r) (S.resume c t o (next r) s)
  | request {c : Config State Op Reply} {j : Job} (hj : S.accepts c.state j = true) :
      Step c (.request j) (S.start c j)
  | crash {c : Config State Op Reply} : Step c .crash (S.booted (S.crash c.state))

def Runs (ok : Config State Op Reply → Label Op Reply Job → Prop) :
    Config State Op Reply → Config State Op Reply → Prop :=
  ReflTransGen fun c c' => ∃ l, ok c l ∧ S.Step c l c'

def Reachable (init : State → Prop) (c : Config State Op Reply) : Prop :=
  ∃ s, init s ∧ S.Runs (fun _ _ => True) (S.booted s) c

variable {init : State → Prop} {c' : Config State Op Reply}

theorem Reachable.step {l : Label Op Reply Job} (h : S.Reachable init c) (hs : S.Step c l c') :
    S.Reachable init c' := by
  obtain ⟨s, hi, hr⟩ := h
  exact ⟨s, hi, hr.tail ⟨l, trivial, hs⟩⟩

theorem Runs.mono {ok ok' : Config State Op Reply → Label Op Reply Job → Prop}
    (h : S.Runs ok c c') (hok : ∀ c l, ok c l → ok' c l) :
    S.Runs ok' c c' :=
  ReflTransGen.mono (fun _ _ ⟨l, hl, hs⟩ => ⟨l, hok _ l hl, hs⟩) c c' h

theorem Reachable.runs {ok : Config State Op Reply → Label Op Reply Job → Prop}
    (h : S.Reachable init c) (hr : S.Runs ok c c') : S.Reachable init c' := by
  obtain ⟨s, hi, h0⟩ := h
  exact ⟨s, hi, h0.trans (Runs.mono S hr fun _ _ _ => trivial)⟩

inductive Trace (c : Config State Op Reply) : List (Label Op Reply Job) → Config State Op Reply → Prop
  where
  | nil : Trace c [] c
  | snoc {labels : List (Label Op Reply Job)} {l : Label Op Reply Job} {c' c'' : Config State Op Reply}
      (h : Trace c labels c') (hs : S.Step c' l c'') : Trace c (labels ++ [l]) c''

theorem Trace.runs {labels : List (Label Op Reply Job)}
    (h : S.Trace c labels c') : S.Runs (fun _ _ => True) c c' := by
  induction h with
  | nil => exact .refl
  | snoc _ hs ih => exact ih.tail ⟨_, trivial, hs⟩

/-- The invariant rule: what holds in every booted initial state and is kept by every
step from a reachable configuration holds in every reachable configuration. -/
theorem Reachable.induct {P : Config State Op Reply → Prop} (hinit : ∀ s, init s → P (S.booted s))
    (hstep : ∀ c l c', S.Reachable init c → P c → S.Step c l c' → P c')
    (h : S.Reachable init c) : P c := by
  obtain ⟨s, hi, hr⟩ := h
  induction hr with
  | refl => exact hinit s hi
  | tail h0 hs ih =>
    obtain ⟨l, _, hstep'⟩ := hs
    exact hstep _ l _ ⟨s, hi, h0⟩ ih hstep'

theorem Runs.uses {allowed : Op → Prop}
    (hr : S.Runs (fun _ l => l ≠ .crash) c c') (ht : t < c.count)
    (hp : (c.threads t).Uses allowed) : (c'.threads t).Uses allowed := by
  suffices hall : t < c'.count ∧ (c'.threads t).Uses allowed from hall.2
  induction hr with
  | refl => exact ⟨ht, hp⟩
  | tail _ hlast ih =>
    obtain ⟨hlt, huses⟩ := ih
    obtain ⟨l, hok, hstep⟩ := hlast
    cases hstep with
    | @run u o next r s hu hx =>
      by_cases hut : u = t
      · subst hut
        obtain ⟨hthread, hlt'⟩ := S.resume_self hlt o (next r) s
        rw [hthread]
        rw [hu] at huses
        exact ⟨hlt', huses.2 r⟩
      · obtain ⟨hthread, hlt'⟩ := S.resume_other (Ne.symm hut) hlt o (next r) s
        rw [hthread]
        exact ⟨hlt', huses⟩
    | request hj => exact ⟨Nat.lt_succ_of_lt hlt, by simpa [System.start, hlt.ne] using huses⟩
    | crash => exact absurd rfl hok

def Meets (ok : State → (o : Op) → Reply o → Bool) (c : Config State Op Reply) :
    Label Op Reply Job → Prop
  | .run _ o r => ok c.state o r = true
  | .request _ => True
  | .crash => True

/-- The same system with only the calls that meet the condition. -/
def restrict (ok : State → (o : Op) → Reply o → Bool) : System State Op Reply Job :=
  { S with exec := fun t s o r => if ok s o r then S.exec t s o r else none }

theorem restrict_exec_eq_some {ok : State → (o : Op) → Reply o → Bool} {s s' : State}
    {o : Op} {r : Reply o} :
    (S.restrict ok).exec t s o r = some s' ↔ ok s o r = true ∧ S.exec t s o r = some s' := by
  simp only [restrict]
  split_ifs with h
  · simp [h]
  · simp [h]

theorem restrict_step {ok : State → (o : Op) → Reply o → Bool}
    {l : Label Op Reply Job} : (S.restrict ok).Step c l c' ↔ Meets ok c l ∧ S.Step c l c' := by
  constructor
  · intro h
    cases h with
    | run ht hx =>
      obtain ⟨hok, hx'⟩ := (S.restrict_exec_eq_some).1 hx
      exact ⟨hok, .run ht hx'⟩
    | request hj => exact ⟨trivial, .request hj⟩
    | crash => exact ⟨trivial, .crash⟩
  · rintro ⟨hok, h⟩
    cases h with
    | run ht hx => exact .run (S := S.restrict ok) ht ((S.restrict_exec_eq_some).2 ⟨hok, hx⟩)
    | request hj => exact .request (S := S.restrict ok) hj
    | crash => exact .crash (S := S.restrict ok)

/-- Runs that meet the condition are the runs of the restricted system. -/
theorem restrict_runs {ok : State → (o : Op) → Reply o → Bool} :
    (S.restrict ok).Runs (fun _ _ => True) c c' ↔ S.Runs (Meets ok) c c' := by
  have hrel : ∀ a b, (∃ l, True ∧ (S.restrict ok).Step a l b) ↔
      ∃ l, Meets ok a l ∧ S.Step a l b := by
    intro a b
    simp only [restrict_step, true_and]
  constructor
  · exact ReflTransGen.mono (fun a b => (hrel a b).1) c c'
  · exact ReflTransGen.mono (fun a b => (hrel a b).2) c c'

/-- One entry of a schedule. The reply of a call is chosen by an oracle that sees the
state, the call and a tag. -/
inductive Move (Job : Type) where
  | run (t tag : ℕ)
  | request (j : Job)
  | crash

def move (reply : State → (o : Op) → ℕ → Reply o) (c : Config State Op Reply) :
    Move Job → Option (Config State Op Reply)
  | .run t tag =>
    match c.threads t with
    | .pure _ => none
    | .call o next =>
      (S.exec t c.state o (reply c.state o tag)).map
        (S.resume c t o (next (reply c.state o tag)))
  | .request j => if S.accepts c.state j then some (S.start c j) else none
  | .crash => some (S.booted (S.crash c.state))

def replay (reply : State → (o : Op) → ℕ → Reply o) :
    Config State Op Reply → List (Move Job) → Option (Config State Op Reply)
  | c, [] => some c
  | c, m :: ms => (S.move reply c m).bind fun c' => replay reply c' ms

theorem move_step {reply : State → (o : Op) → ℕ → Reply o}
    {m : Move Job} (h : S.move reply c m = some c') : ∃ l, S.Step c l c' := by
  cases m with
  | run t tag =>
    simp only [move] at h
    split at h
    · cases h
    · rename_i o next ht
      obtain ⟨s, hs, rfl⟩ := Option.map_eq_some_iff.1 h
      exact ⟨_, .run ht hs⟩
  | request j =>
    simp only [move] at h
    split_ifs at h with hj
    cases h
    exact ⟨_, .request hj⟩
  | crash =>
    cases h
    exact ⟨_, .crash⟩

theorem replay_runs {reply : State → (o : Op) → ℕ → Reply o} {ms : List (Move Job)}
    (h : S.replay reply c ms = some c') :
    S.Runs (fun _ _ => True) c c' := by
  induction ms generalizing c with
  | nil =>
    cases h
    exact .refl
  | cons m ms ih =>
    obtain ⟨c₁, hm, hrest⟩ := Option.bind_eq_some_iff.1 h
    obtain ⟨l, hl⟩ := S.move_step hm
    exact ReflTransGen.head ⟨l, trivial, hl⟩ (ih hrest)

end System
end Concurrent
