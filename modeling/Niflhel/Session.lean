import Niflhel.Program

/-!
# Sequential sessions with crashes

A machine serves one request at a time. A step performs the next call of the request,
starts a request when none is in progress, or crashes: the rest of the request is lost and
the state keeps what survives. `Safe` is the proof rule for one request, with an invariant
after every call and a postcondition at the end; `settled_of_runs` lifts it to runs.
`complete` lets a program run to its end with chosen replies.
-/

namespace Concurrent
open Relation

structure Machine (State Op : Type) (Reply : Op → Type) (Job Loss : Type) where
  exec : State → (o : Op) → Reply o → Option State
  code : Job → Program Op Reply Unit
  crash : Loss → State → State

structure Session (State Op : Type) (Reply : Op → Type) where
  state : State
  program : Program Op Reply Unit

def Session.idle {State Op : Type} {Reply : Op → Type} (c : Session State Op Reply) : Bool :=
  match c.program with
  | .pure _ => true
  | .call _ _ => false

theorem Session.program_of_idle {State Op : Type} {Reply : Op → Type}
    {c : Session State Op Reply} (h : c.idle = true) : c.program = .pure () := by
  unfold idle at h
  split at h
  · assumption
  · cases h

inductive Event (Op : Type) (Reply : Op → Type) (Job Loss : Type) where
  | run (o : Op) (r : Reply o)
  | request (j : Job)
  | crash (l : Loss)

namespace Machine
variable {State Op Job Loss : Type} {Reply : Op → Type} (M : Machine State Op Reply Job Loss)
  {α β : Type}

inductive Step : Session State Op Reply → Event Op Reply Job Loss → Session State Op Reply → Prop where
  | run {s s' : State} {o : Op} {next : Reply o → Program Op Reply Unit} {r : Reply o}
      (hx : M.exec s o r = some s') : Step ⟨s, .call o next⟩ (.run o r) ⟨s', next r⟩
  | request {s : State} {j : Job} : Step ⟨s, .pure ()⟩ (.request j) ⟨s, M.code j⟩
  | crash {s : State} {p : Program Op Reply Unit} {l : Loss} :
      Step ⟨s, p⟩ (.crash l) ⟨M.crash l s, .pure ()⟩

def Runs (ok : State → Event Op Reply Job Loss → Bool) :
    Session State Op Reply → Session State Op Reply → Prop :=
  ReflTransGen fun c c' => ∃ e, ok c.state e = true ∧ M.Step c e c'

section safe
variable (ok : State → Event Op Reply Job Loss → Bool) (inv : State → Prop)

/-- The invariant holds after every call, and the postcondition when the program returns. -/
def Safe (post : α → State → Prop) : Program Op Reply α → State → Prop
  | .pure a, s => post a s
  | .call o next, s => ∀ r s', ok s (.run o r) = true → M.exec s o r = some s' →
      inv s' ∧ Safe post (next r) s'

variable {ok inv} {post : α → State → Prop} {s : State}

theorem safe_pure {a : α} (h : post a s) : M.Safe ok inv post (pure a : Program Op Reply α) s := h

theorem safe_perform {o : Op} {f : Reply o → Program Op Reply α}
    (h : ∀ r s', ok s (.run o r) = true → M.exec s o r = some s' →
      inv s' ∧ M.Safe ok inv post (f r) s') :
    M.Safe ok inv post (Program.perform o >>= f) s := h

theorem Safe.bind {post' : β → State → Prop} {p : Program Op Reply α}
    {f : α → Program Op Reply β} (hp : M.Safe ok inv post p s)
    (hf : ∀ a s', post a s' → M.Safe ok inv post' (f a) s') : M.Safe ok inv post' (p >>= f) s := by
  induction p generalizing s with
  | pure a => exact hf a s hp
  | call o next ih =>
    intro r s' hok hx
    obtain ⟨hi, hnext⟩ := hp r s' hok hx
    exact ⟨hi, ih r hnext⟩

theorem Safe.weaken {post' : α → State → Prop} {p : Program Op Reply α}
    (hp : M.Safe ok inv post p s) (h : ∀ a s', post a s' → post' a s') :
    M.Safe ok inv post' p s := by
  induction p generalizing s with
  | pure a => exact h a s hp
  | call o next ih =>
    intro r s' hok hx
    obtain ⟨hi, hnext⟩ := hp r s' hok hx
    exact ⟨hi, ih r hnext⟩

theorem safe_of_invariant {J : State → Prop} (hexec : ∀ s o r s', J s → M.exec s o r = some s' → J s')
    (hs : J s) (p : Program Op Reply α) : M.Safe ok J (fun _ s' => J s') p s := by
  induction p generalizing s with
  | pure a => exact hs
  | call o next ih =>
    intro r s' _ hx
    have hs' := hexec s o r s' hs hx
    exact ⟨hs', ih r hs'⟩

theorem safe_of_uses {P : State → Prop} {allowed : Op → Prop} {p : Program Op Reply α}
    (hP : ∀ s, P s → inv s) (hp : p.Uses allowed)
    (hexec : ∀ s o r s', allowed o → P s → M.exec s o r = some s' → P s') (hs : P s) :
    M.Safe ok inv (fun _ s' => P s') p s := by
  induction p generalizing s with
  | pure a => exact hs
  | call o next ih =>
    intro r s' _ hx
    have hs' := hexec s o r s' hp.1 hs hx
    exact ⟨hP s' hs', ih r (hp.2 r) hs'⟩

/-- What a run maintains between its steps: the invariant, and safety of what is left of
the request in progress, which is to end at rest. -/
def Settled (ok : State → Event Op Reply Job Loss → Bool) (inv rest : State → Prop)
    (c : Session State Op Reply) : Prop :=
  inv c.state ∧ M.Safe ok inv (fun _ s => rest s) c.program c.state

/-- The run rule: requests lead from rest to rest, and so does what survives a crash. -/
theorem settled_of_runs {rest : State → Prop}
    (hjob : ∀ j s, ok s (.request j) = true → inv s → rest s →
      M.Safe ok inv (fun _ s' => rest s') (M.code j) s)
    (hcrash : ∀ l s, ok s (.crash l) = true → inv s → inv (M.crash l s) ∧ rest (M.crash l s))
    {c c' : Session State Op Reply} (hc : M.Settled ok inv rest c) (hr : M.Runs ok c c') :
    M.Settled ok inv rest c' := by
  induction hr with
  | refl => exact hc
  | tail _ hlast ih =>
    obtain ⟨e, hok, hstep⟩ := hlast
    cases hstep with
    | run hx => exact ih.2 _ _ hok hx
    | request => exact ⟨ih.1, hjob _ _ hok ih.1 ih.2⟩
    | crash => exact hcrash _ _ hok ih.1

end safe

/-- What every call and every crash keeps holds along a run. -/
theorem invariant_of_runs {ok : State → Event Op Reply Job Loss → Bool} {J : State → Prop}
    (hexec : ∀ s o r s', J s → M.exec s o r = some s' → J s') (hcrash : ∀ l s, J s → J (M.crash l s))
    {c c' : Session State Op Reply} (hc : J c.state) (hr : M.Runs ok c c') : J c'.state := by
  induction hr with
  | refl => exact hc
  | tail _ hlast ih =>
    obtain ⟨e, _, hstep⟩ := hlast
    cases hstep with
    | run hx => exact hexec _ _ _ _ ih hx
    | request => exact ih
    | crash => exact hcrash _ _ ih

section complete
variable (reply : State → (o : Op) → Option (Reply o))

/-- The result and the last state of a program whose calls get the chosen replies. -/
def complete : State → Program Op Reply α → Option (α × State)
  | s, .pure a => some (a, s)
  | s, .call o next => (reply s o).bind fun r =>
      (M.exec s o r).bind fun s' => complete s' (next r)

def serve : State → List Job → Option State
  | s, [] => some s
  | s, j :: js => (M.complete reply s (M.code j)).bind fun x => serve x.2 js

variable {reply} {s : State}

@[simp] theorem complete_pure (a : α) :
    M.complete reply s (pure a : Program Op Reply α) = some (a, s) := rfl

theorem complete_bind (p : Program Op Reply α) (f : α → Program Op Reply β) :
    M.complete reply s (p >>= f) =
      (M.complete reply s p).bind fun x => M.complete reply x.2 (f x.1) := by
  induction p generalizing s with
  | pure a => rfl
  | call o next ih =>
    change ((reply s o).bind fun r => (M.exec s o r).bind fun s' =>
      M.complete reply s' (next r >>= f)) = _
    simp only [ih, complete, Option.bind_assoc]

theorem complete_perform {o : Op} {r : Reply o} {s' : State} (hr : reply s o = some r)
    (hx : M.exec s o r = some s') (f : Reply o → Program Op Reply α) :
    M.complete reply s (Program.perform o >>= f) = M.complete reply s' (f r) := by
  change ((reply s o).bind fun r => (M.exec s o r).bind fun s' => M.complete reply s' (f r)) = _
  rw [hr, Option.bind_some, hx, Option.bind_some]

theorem Safe.complete {ok : State → Event Op Reply Job Loss → Bool} {inv : State → Prop}
    {post : α → State → Prop} {p : Program Op Reply α} {a : α} {s' : State}
    (hp : M.Safe ok inv post p s)
    (hok : ∀ s o r, reply s o = some r → ok s (.run o r) = true)
    (h : M.complete reply s p = some (a, s')) : post a s' := by
  induction p generalizing s with
  | pure b =>
    cases h
    exact hp
  | call o next ih =>
    obtain ⟨r, hr, h⟩ := Option.bind_eq_some_iff.1 h
    obtain ⟨s₁, hx, h⟩ := Option.bind_eq_some_iff.1 h
    exact ih r (hp r s₁ (hok s o r hr) hx).2 h

end complete

inductive Move (Job Loss : Type) where
  | run (tag : ℕ)
  | request (j : Job)
  | crash (l : Loss)

def move (ok : State → Event Op Reply Job Loss → Bool) (reply : State → (o : Op) → ℕ → Reply o)
    (c : Session State Op Reply) : Move Job Loss → Option (Session State Op Reply)
  | .run tag =>
    match c.program with
    | .pure _ => none
    | .call o next =>
      let r := reply c.state o tag
      if ok c.state (.run o r) then (M.exec c.state o r).map fun s => ⟨s, next r⟩ else none
  | .request j =>
    match c.program with
    | .pure _ => if ok c.state (.request j) then some ⟨c.state, M.code j⟩ else none
    | .call _ _ => none
  | .crash l => if ok c.state (.crash l) then some ⟨M.crash l c.state, .pure ()⟩ else none

def replay (ok : State → Event Op Reply Job Loss → Bool) (reply : State → (o : Op) → ℕ → Reply o) :
    Session State Op Reply → List (Move Job Loss) → Option (Session State Op Reply)
  | c, [] => some c
  | c, m :: ms => (M.move ok reply c m).bind fun c' => replay ok reply c' ms

variable {ok : State → Event Op Reply Job Loss → Bool} {reply : State → (o : Op) → ℕ → Reply o}
  {c c' : Session State Op Reply}

theorem move_step {m : Move Job Loss} (h : M.move ok reply c m = some c') :
    ∃ e, ok c.state e = true ∧ M.Step c e c' := by
  obtain ⟨s, p⟩ := c
  cases m with
  | run tag =>
    cases p with
    | pure a => cases h
    | call o next =>
      simp only [move] at h
      split_ifs at h with hok
      obtain ⟨s', hx, rfl⟩ := Option.map_eq_some_iff.1 h
      exact ⟨_, hok, .run hx⟩
  | request j =>
    cases p with
    | call o next => cases h
    | pure a =>
      simp only [move] at h
      split_ifs at h with hok
      cases h
      exact ⟨_, hok, .request⟩
  | crash l =>
    simp only [move] at h
    split_ifs at h with hok
    cases h
    exact ⟨_, hok, .crash⟩

theorem replay_runs {ms : List (Move Job Loss)} (h : M.replay ok reply c ms = some c') :
    M.Runs ok c c' := by
  induction ms generalizing c with
  | nil =>
    cases h
    exact .refl
  | cons m ms ih =>
    obtain ⟨c₁, hm, hrest⟩ := Option.bind_eq_some_iff.1 h
    exact ReflTransGen.head (M.move_step hm) (ih hrest)

/-- A schedule whose outcome passes a test. -/
theorem exists_of_replay {ms : List (Move Job Loss)} {p : Session State Op Reply → Bool}
    (h : (M.replay ok reply c ms).any p = true) : ∃ c', M.Runs ok c c' ∧ p c' = true := by
  cases hc : M.replay ok reply c ms with
  | none => simp [hc] at h
  | some c' =>
    rw [hc, Option.any_some] at h
    exact ⟨c', M.replay_runs hc, h⟩

end Machine
end Concurrent
