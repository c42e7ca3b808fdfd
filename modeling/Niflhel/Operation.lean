import Niflhel.RelyGuarantee

/-!
# Operations inside runs

An operation is a program that one thread executes in the middle of a run, between the
steps of other threads. `During` follows it: the calls it has made so far with their
replies, and what is left of it. An outline is a proof about one operation in a system with
a sound discipline: every call it makes, and its result, may be judged by the calls made
before. The calls of the run may be restricted by a condition.
-/

namespace Concurrent
open Relation

variable {State Op Job : Type} {Reply : Op → Type} {α β : Type}

abbrev Call (Op : Type) (Reply : Op → Type) := (o : Op) × Reply o

theorem mem_append_call_iff {o : Op} {r r' : Reply o} {calls : List (Call Op Reply)} :
    (⟨o, r'⟩ : Call Op Reply) ∈ calls ++ [⟨o, r⟩] ↔ ⟨o, r'⟩ ∈ calls ∨ r' = r := by
  simp

theorem mem_append_call_of_ne {o o' : Op} {r : Reply o} {r' : Reply o'}
    {calls : List (Call Op Reply)} (h : o' ≠ o) :
    (⟨o', r'⟩ : Call Op Reply) ∈ calls ++ [⟨o, r⟩] ↔ ⟨o', r'⟩ ∈ calls := by
  simp [h]

def Label.elsewhere (t : ℕ) : Label Op Reply Job → Prop
  | .run u _ _ => u ≠ t
  | .request _ => True
  | .crash => False

/-- The program makes the calls, gets the replies, and `q` is left of it. -/
inductive Program.Makes : Program Op Reply α → List (Call Op Reply) → Program Op Reply α → Prop where
  | nil {p : Program Op Reply α} : Makes p [] p
  | cons {o : Op} {next : Reply o → Program Op Reply α} {r : Reply o}
      {calls : List (Call Op Reply)} {q : Program Op Reply α} (h : Makes (next r) calls q) :
      Makes (.call o next) (⟨o, r⟩ :: calls) q

theorem Program.Makes.append {p : Program Op Reply α} {calls : List (Call Op Reply)} {o : Op}
    {next : Reply o → Program Op Reply α} (h : p.Makes calls (.call o next)) (r : Reply o) :
    p.Makes (calls ++ [⟨o, r⟩]) (next r) := by
  generalize hq : (Program.call o next : Program Op Reply α) = q at h
  induction h with
  | nil =>
    subst hq
    exact .cons .nil
  | cons h ih => exact .cons (ih hq)

theorem Program.Makes.trans {p q r : Program Op Reply α} {first rest : List (Call Op Reply)}
    (h : p.Makes first q) (hr : q.Makes rest r) : p.Makes (first ++ rest) r := by
  induction h with
  | nil => exact hr
  | cons _ ih => exact .cons (ih hr)

theorem Program.Makes.bind {p q : Program Op Reply α} {calls : List (Call Op Reply)}
    (h : p.Makes calls q) (f : α → Program Op Reply β) : (p >>= f).Makes calls (q >>= f) := by
  induction h with
  | nil => exact .nil
  | cons _ ih => exact .cons ih

theorem Program.Uses.makes {allowed : Op → Prop} {p q : Program Op Reply α}
    {calls : List (Call Op Reply)} (hp : p.Uses allowed) (h : p.Makes calls q) :
    ∀ a ∈ calls, allowed a.1 := by
  induction h with
  | nil => simp
  | @cons o next r calls q h ih =>
    intro a ha
    rcases List.mem_cons.1 ha with rfl | ha
    · exact hp.1
    · exact ih (hp.2 r) a ha

/-- The calls of a sequence that returns are those of its first part and of the rest. -/
theorem Program.makes_bind {p : Program Op Reply α} {f : α → Program Op Reply β}
    {calls : List (Call Op Reply)} {b : β} (h : (p >>= f).Makes calls (.pure b)) :
    ∃ a first rest, calls = first ++ rest ∧ p.Makes first (.pure a) ∧
      (f a).Makes rest (.pure b) := by
  induction p generalizing calls with
  | pure a => exact ⟨a, [], calls, rfl, .nil, h⟩
  | call o next ih =>
    cases h with
    | cons h =>
      obtain ⟨a, first, rest, rfl, hfirst, hrest⟩ := ih _ h
      exact ⟨a, _ :: first, rest, rfl, .cons hfirst, hrest⟩

def Program.Within (p : Program Op Reply α) (calls : List (Call Op Reply)) : Prop :=
  ∃ a part, part <:+: calls ∧ p.Makes part (.pure a)

theorem Program.Within.mono {p : Program Op Reply α} {part calls : List (Call Op Reply)}
    (h : p.Within part) (hpart : part <:+: calls) : p.Within calls := by
  obtain ⟨a, inner, hinner, hmakes⟩ := h
  exact ⟨a, inner, hinner.trans hpart, hmakes⟩

namespace System
variable (S : System State Op Reply Job)

def anyCall (_ : State) (o : Op) (_ : Reply o) : Bool := true

/-- From `c₀`, where thread `t` is about to execute `p`, a run has reached `c`; in it, the
thread has made the given calls of `p`, and `q` is left of `p`. -/
inductive During (ok : State → (o : Op) → Reply o → Bool) (t : ℕ) (p : Program Op Reply α)
    (c₀ : Config State Op Reply) :
    List (Call Op Reply) → Program Op Reply α → Config State Op Reply → Prop where
  | enter {k : α → Program Op Reply Unit} (ht : c₀.threads t = p >>= k) (hc : t < c₀.count) :
      During ok t p c₀ [] p c₀
  | other {calls : List (Call Op Reply)} {q : Program Op Reply α} {c c' : Config State Op Reply}
      {l : Label Op Reply Job} (h : During ok t p c₀ calls q c) (hl : l.elsewhere t)
      (hok : Meets ok c l) (hs : S.Step c l c') : During ok t p c₀ calls q c'
  | own {calls : List (Call Op Reply)} {o : Op} {next : Reply o → Program Op Reply α}
      {c c' : Config State Op Reply} {r : Reply o}
      (h : During ok t p c₀ calls (.call o next) c)
      (hok : Meets ok c (.run t o r : Label Op Reply Job)) (hs : S.Step c (.run t o r) c') :
      During ok t p c₀ (calls ++ [⟨o, r⟩]) (next r) c'

variable {ok : State → (o : Op) → Reply o → Bool} {t : ℕ} {p q : Program Op Reply α}
  {c₀ c c' : Config State Op Reply} {calls : List (Call Op Reply)}

theorem During.runs (h : S.During ok t p c₀ calls q c) : S.Runs (Meets ok) c₀ c := by
  induction h with
  | enter ht hc => exact .refl
  | other h hl hok hs ih => exact ih.tail ⟨_, hok, hs⟩
  | own h hok hs ih => exact ih.tail ⟨_, hok, hs⟩

theorem During.reachable {init : State → Prop} (h : S.During ok t p c₀ calls q c)
    (hc : S.Reachable init c₀) : S.Reachable init c := hc.runs S (h.runs S)

theorem During.thread (h : S.During ok t p c₀ calls q c) :
    ∃ k : α → Program Op Reply Unit, c.threads t = q >>= k ∧ t < c.count := by
  induction h with
  | @enter k ht hc => exact ⟨k, ht, hc⟩
  | other h hl hok hs ih =>
    obtain ⟨k, hk, hc⟩ := ih
    cases hs with
    | run ht hx =>
      obtain ⟨hsame, hcount⟩ := S.resume_other (Ne.symm hl) hc _ _ _
      exact ⟨k, hsame.trans hk, hcount⟩
    | request hj =>
      refine ⟨k, ?_, hc.trans (Nat.lt_succ_self _)⟩
      simpa [System.start, hc.ne] using hk
    | crash => exact hl.elim
  | own h hok hs ih =>
    obtain ⟨k, hk, hc⟩ := ih
    cases hs with
    | run ht hx =>
      obtain ⟨hself, hcount⟩ := S.resume_self hc _ _ _
      refine ⟨k, hself.trans ?_, hcount⟩
      rw [hk] at ht
      cases ht
      rfl

theorem During.makes (h : S.During ok t p c₀ calls q c) : p.Makes calls q := by
  induction h with
  | enter ht hc => exact .nil
  | other h hl hok hs ih => exact ih
  | own h hok hs ih => exact ih.append _

theorem During.rest (h : S.During ok t p c₀ calls q c) : S.During ok t q c [] q c := by
  obtain ⟨k, hk, hc⟩ := h.thread
  exact .enter hk hc

/-- An operation inside an operation: where the rest of the outer one begins with an inner
one, the thread enters the latter. -/
theorem During.inner {p' : Program Op Reply β} {f : β → Program Op Reply α}
    (h : S.During ok t p c₀ calls (p' >>= f) c) : S.During ok t p' c [] p' c := by
  obtain ⟨k, hk, hc⟩ := h.thread
  exact .enter (k := fun b => f b >>= k) (hk.trans (Program.bind_assoc _ _ _)) hc

theorem exec_of_step {o : Op} {r : Reply o} (hs : S.Step c (.run t o r) c') :
    S.exec t c.state o r = some c'.state := by
  cases hs with
  | run ht hx => rwa [resume_state]

theorem During.request {j : Job} {k : α → Program Op Reply Unit} (hj : S.code j = p >>= k) :
    S.During ok c.count p (S.start c j) [] p (S.start c j) :=
  .enter (k := k) (by simp [System.start, hj]) (Nat.lt_succ_self _)

def follow (reply : State → (o : Op) → ℕ → Reply o) (t : ℕ) :
    Program Op Reply α → Config State Op Reply → List (Move Job) →
      Option (List (Call Op Reply) × Program Op Reply α × Config State Op Reply)
  | q, c, [] => some ([], q, c)
  | q, c, .request j :: ms => (S.move reply c (.request j)).bind fun c' => follow reply t q c' ms
  | _, _, .crash :: _ => none
  | q, c, .run u tag :: ms => (S.move reply c (.run u tag)).bind fun c' =>
      if u = t then
        match q with
        | .pure _ => none
        | .call o next =>
          (follow reply t (next (reply c.state o tag)) c' ms).map fun (calls, q', c'') =>
            (⟨o, reply c.state o tag⟩ :: calls, q', c'')
      else follow reply t q c' ms

theorem During.follow {reply : State → (o : Op) → ℕ → Reply o} {ms : List (Move Job)}
    {more : List (Call Op Reply)} {q' : Program Op Reply α} (h : S.During ok t p c₀ calls q c)
    (hf : (S.restrict ok).follow reply t q c ms = some (more, q', c')) :
    S.During ok t p c₀ (calls ++ more) q' c' := by
  induction ms generalizing calls q c more with
  | nil =>
    obtain ⟨rfl, rfl, rfl⟩ : [] = more ∧ q = q' ∧ c = c' := by
      simpa [System.follow] using hf
    rwa [List.append_nil]
  | cons m ms ih =>
    cases m with
    | crash => simp [System.follow] at hf
    | request j =>
      obtain ⟨c₁, hm, hrest⟩ := Option.bind_eq_some_iff.1 hf
      simp only [System.move] at hm
      split_ifs at hm with hj
      cases hm
      exact ih (.other (l := .request j) h trivial trivial (.request hj)) hrest
    | run u tag =>
      obtain ⟨c₁, hm, hrest⟩ := Option.bind_eq_some_iff.1 hf
      simp only [System.move] at hm
      split at hm
      · cases hm
      rename_i o next hthread
      obtain ⟨s, hx, rfl⟩ := Option.map_eq_some_iff.1 hm
      obtain ⟨hok, hstep⟩ := S.restrict_step.1 (.run hthread hx)
      by_cases hu : u = t
      · subst hu
        rw [if_pos rfl] at hrest
        obtain ⟨k, hk, _⟩ := h.thread S
        cases q with
        | pure a => cases hrest
        | call o' next' =>
          obtain ⟨⟨calls', q₁, c₂⟩, hf', heq⟩ := Option.map_eq_some_iff.1 hrest
          cases heq
          rw [hk] at hthread
          cases hthread
          have hown := ih (.own h hok hstep) hf'
          rwa [List.append_assoc, List.singleton_append] at hown
      · rw [if_neg hu] at hrest
        exact ih (.other (l := .run u o (reply c.state o tag)) h hu hok hstep) hrest

end System

namespace Discipline
variable {S : System State Op Reply Job} (D : Discipline S)

/-- Under interference, every call of the program that meets the condition `ok` satisfies
`P`, and the program returns with the postcondition. Both may look at the calls made. -/
def Outline (ok : State → (o : Op) → Reply o → Bool) (t : ℕ)
    (P : List (Call Op Reply) → State → (o : Op) → Reply o → Prop)
    (post : List (Call Op Reply) → α → State → Prop) :
    List (Call Op Reply) → Program Op Reply α → State → Prop
  | calls, .pure a, s => post calls a s
  | calls, .call o next, s => ∀ s₁, D.Rely t s s₁ → D.inv s₁ → ∀ r s₂,
      S.exec t s₁ o r = some s₂ → D.permit t s₁ o r → ok s₁ o r = true →
      P calls s₁ o r ∧ Outline ok t P post (calls ++ [⟨o, r⟩]) (next r) s₂

variable {D} {ok : State → (o : Op) → Reply o → Bool} {t : ℕ}
  {P : List (Call Op Reply) → State → (o : Op) → Reply o → Prop}
  {post : List (Call Op Reply) → α → State → Prop}
  {post' : List (Call Op Reply) → β → State → Prop}
  {calls : List (Call Op Reply)} {p : Program Op Reply α} {s : State}

theorem Outline.bind {f : α → Program Op Reply β}
    (h : D.Outline ok t P (fun calls a s => D.Outline ok t P post' calls (f a) s) calls p s) :
    D.Outline ok t P post' calls (p >>= f) s := by
  induction p generalizing calls s with
  | pure a => exact h
  | call o next ih =>
    intro s₁ hr hi r s₂ hx hp hok
    obtain ⟨hP, hnext⟩ := h s₁ hr hi r s₂ hx hp hok
    exact ⟨hP, ih r hnext⟩

theorem Outline.weaken {post₂ : List (Call Op Reply) → α → State → Prop}
    (h : D.Outline ok t P post calls p s) (hpost : ∀ calls a s, post calls a s → post₂ calls a s) :
    D.Outline ok t P post₂ calls p s := by
  induction p generalizing calls s with
  | pure a => exact hpost _ _ _ h
  | call o next ih =>
    intro s₁ hr hi r s₂ hx hp hok
    obtain ⟨hP, hnext⟩ := h s₁ hr hi r s₂ hx hp hok
    exact ⟨hP, ih r hnext⟩

theorem Outline.step {Q : State → Prop} {o : Op} {next : Reply o → Program Op Reply α}
    (hQ : D.Stable t Q) (hs : Q s)
    (h : ∀ s₁ r s₂, D.inv s₁ → Q s₁ → S.exec t s₁ o r = some s₂ → D.permit t s₁ o r →
      ok s₁ o r = true → P calls s₁ o r ∧
        D.Outline ok t P post (calls ++ [⟨o, r⟩]) (next r) s₂) :
    D.Outline ok t P post calls (.call o next) s :=
  fun s₁ hr hi r s₂ hx hp hok => h s₁ r s₂ hi (hQ.rely hr hs) hx hp hok

theorem outline_of_uses {Q : State → Prop} {allowed : Op → Prop} (hQ : D.Stable t Q)
    (hp : p.Uses allowed)
    (hstep : ∀ calls o r s s', allowed o → D.inv s → Q s → S.exec t s o r = some s' →
      D.permit t s o r → ok s o r = true → P calls s o r ∧ Q s') (hs : Q s) :
    D.Outline ok t P (fun calls' _ s' => calls <+: calls' ∧ Q s') calls p s := by
  induction p generalizing calls s with
  | pure a => exact ⟨List.prefix_rfl, hs⟩
  | call o next ih =>
    refine Outline.step hQ hs fun s₁ r s₂ hi hs₁ hx hperm hok => ?_
    obtain ⟨hP, hs₂⟩ := hstep calls o r s₁ s₂ hp.1 hi hs₁ hx hperm hok
    refine ⟨hP, (ih r (hp.2 r) hs₂).weaken fun calls' _ _ h => ⟨?_, h.2⟩⟩
    exact (List.prefix_append _ _).trans h.1

variable {init : State → Prop} {c₀ c c' : Config State Op Reply} {o : Op}
  {next : Reply o → Program Op Reply α} {r : Reply o}

theorem Sound.interferes (hD : D.Sound init) (hc : S.Reachable init c) {l : Label Op Reply Job}
    (hl : l.elsewhere t) (hs : S.Step c l c') :
    D.Interferes t c.state c'.state ∨ c'.state = c.state := by
  cases hs with
  | @run u o next r s ht hx =>
    left
    rw [System.resume_state]
    have hg := hD.guarded hc
    exact ⟨hg.inv, u, o, r, hl, (hg.permit ht hx).1, hx⟩
  | request hj => exact Or.inr rfl
  | crash => exact hl.elim

/-- An outline that holds where the operation is entered holds wherever it stands. -/
theorem Outline.during (hD : D.Sound init) (hc : S.Reachable init c₀)
    (hp : D.Outline ok t P post [] p c₀.state)
    (h : S.During ok t p c₀ calls (.call o next) c) :
    D.Outline ok t P post calls (.call o next) c.state := by
  generalize hq : (Program.call o next : Program Op Reply α) = q at h
  induction h generalizing o next with
  | enter ht hcount => exact hp
  | @other calls q c c' l h hl hok hs ih =>
    have hc' : S.Reachable init c := h.reachable S hc
    rcases hD.interferes hc' hl hs with hi | hsame
    · have hold := ih hq
      subst hq
      exact fun s₁ hr => hold s₁ (ReflTransGen.head hi hr)
    · rw [hsame]
      exact ih hq
  | @own calls o' next' c c' r h hok hs ih =>
    have hc' : S.Reachable init c := h.reachable S hc
    exact (ih rfl c.state .refl (hD.guarded hc').inv r c'.state (S.exec_of_step hs)
      (hD.permit hc' hs) hok).2

/-- The next call of the operation satisfies `P`, and what follows it has an outline. -/
theorem Outline.own (hD : D.Sound init) (hc : S.Reachable init c₀)
    (hp : D.Outline ok t P post [] p c₀.state)
    (h : S.During ok t p c₀ calls (.call o next) c)
    (hok : System.Meets ok c (.run t o r : Label Op Reply Job)) (hs : S.Step c (.run t o r) c') :
    P calls c.state o r ∧ D.Outline ok t P post (calls ++ [⟨o, r⟩]) (next r) c'.state := by
  have hc' : S.Reachable init c := h.reachable S hc
  exact Outline.during hD hc hp h c.state .refl (hD.guarded hc').inv r c'.state
    (S.exec_of_step hs) (hD.permit hc' hs) hok

end Discipline
end Concurrent
