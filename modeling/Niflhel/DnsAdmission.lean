import Niflhel.DnsBucket
import Niflhel.Traces

/-!
# Admission of DNS queries

`dnsAdmission.acquire` of `internal/network/dns.go` admits a query if the token bucket of its
sandbox and the one shared by all sandboxes let it pass, and if it gets a slot of its sandbox and
one of those shared by all. The steps of any number of queries interleave: a call of a bucket is
one step, and so is an operation on a channel.
-/

namespace Niflhel.Dns

structure Setup where
  localRate : ℚ
  localBurst : ℤ
  localSlots : ℕ
  globalRate : ℚ
  globalBurst : ℤ
  globalSlots : ℕ

def processSetup : Setup where
  localRate := 256
  localBurst := 512
  localSlots := 64
  globalRate := 4096
  globalBurst := 8192
  globalSlots := 256

/-- Where a query is: in `acquire` up to `full`, then with the function that releases it. -/
inductive Phase where
  /-- Before `localTokens.allow`. -/
  | entered
  /-- Before `globalTokens.allow`. -/
  | metered
  /-- Before it takes a slot of its sandbox. -/
  | allowed
  /-- Before it takes a shared slot. -/
  | holding
  /-- There is no shared slot: before it gives back the slot of its sandbox. -/
  | full
  /-- Granted: before the release gives back the shared slot. -/
  | granted
  /-- Before the release gives back the slot of the sandbox. -/
  | returning
  | done
  | refused
  deriving DecidableEq, Repr

structure Query where
  sandbox : ℕ
  now : ℚ
  phase : Phase
  deriving DecidableEq

structure State where
  localTokens : ℕ → TokenBucket
  globalTokens : TokenBucket
  localWork : ℕ → ℕ
  globalWork : ℕ
  queries : List Query

def State.start (D : Setup) : State where
  localTokens _ := newTokenBucket D.localRate D.localBurst
  globalTokens := newTokenBucket D.globalRate D.globalBurst
  localWork _ := 0
  globalWork := 0
  queries := []

namespace State

def setPhase (s : State) (i : ℕ) (q : Query) (phase : Phase) : State :=
  { s with queries := s.queries.set i { q with phase } }

def setLocalTokens (s : State) (x : ℕ) (b : TokenBucket) : State :=
  { s with localTokens := Function.update s.localTokens x b }

def setLocalWork (s : State) (x n : ℕ) : State :=
  { s with localWork := Function.update s.localWork x n }

def setGlobalWork (s : State) (n : ℕ) : State := { s with globalWork := n }

end State

inductive Move where
  | arrive (sandbox : ℕ) (now : ℚ)
  | advance (i : ℕ)
  deriving DecidableEq

/-- The next step of query `i`. A receive from an empty channel would block. -/
def advance (D : Setup) (s : State) (i : ℕ) (q : Query) : Option State :=
  match q.phase with
  | .entered =>
    let (b, ok) := (s.localTokens q.sandbox).allow q.now
    some ((s.setLocalTokens q.sandbox b).setPhase i q (if ok then .metered else .refused))
  | .metered =>
    let (b, ok) := s.globalTokens.allow q.now
    some ({ s with globalTokens := b }.setPhase i q (if ok then .allowed else .refused))
  | .allowed =>
    if s.localWork q.sandbox < D.localSlots then
      some ((s.setLocalWork q.sandbox (s.localWork q.sandbox + 1)).setPhase i q .holding)
    else some (s.setPhase i q .refused)
  | .holding =>
    if s.globalWork < D.globalSlots then
      some ((s.setGlobalWork (s.globalWork + 1)).setPhase i q .granted)
    else some (s.setPhase i q .full)
  | .full =>
    if s.localWork q.sandbox = 0 then none
    else some ((s.setLocalWork q.sandbox (s.localWork q.sandbox - 1)).setPhase i q .refused)
  | .granted =>
    if s.globalWork = 0 then none
    else some ((s.setGlobalWork (s.globalWork - 1)).setPhase i q .returning)
  | .returning =>
    if s.localWork q.sandbox = 0 then none
    else some ((s.setLocalWork q.sandbox (s.localWork q.sandbox - 1)).setPhase i q .done)
  | .done | .refused => none

def step (D : Setup) (s : State) : Move → Option State
  | .arrive sandbox now => some { s with queries := s.queries ++ [⟨sandbox, now, .entered⟩] }
  | .advance i => s.queries[i]?.bind fun q => advance D s i q

def Runs (D : Setup) (moves : List Move) (s : State) : Prop :=
  Traces.run (step D) (fun _ _ => true) (State.start D) moves = some s

def Phase.acquiring : Phase → Bool
  | .holding | .full => true
  | _ => false

def Phase.working : Phase → Bool
  | .granted | .returning => true
  | _ => false

def Phase.holdsLocal (p : Phase) : Bool := p.acquiring || p.working

def Phase.holdsGlobal : Phase → Bool
  | .granted => true
  | _ => false

def Query.holdsLocal (x : ℕ) (q : Query) : Bool := q.sandbox == x && q.phase.holdsLocal

def Query.holdsGlobal (q : Query) : Bool := q.phase.holdsGlobal

theorem countP_set {α : Type} (p : α → Bool) {l : List α} {i : ℕ} {old : α} (new : α)
    (h : l[i]? = some old) :
    (l.set i new).countP p + (p old).toNat = l.countP p + (p new).toNat := by
  obtain ⟨hi, rfl⟩ := List.getElem?_eq_some_iff.1 h
  rw [List.countP_set hi]
  cases hp : p l[i] with
  | false => cases p new <;> rfl
  | true =>
    have hpos : 0 < l.countP p := List.countP_pos_iff.2 ⟨_, List.getElem_mem hi, hp⟩
    cases p new <;> simp only [Bool.toNat] <;> simp <;> omega

/-- What one step of query `i` does to the channels: they change as what the query holds, within
their capacities. -/
structure Moved (D : Setup) (s s' : State) (i : ℕ) (q q' : Query) : Prop where
  queries : s'.queries = s.queries.set i q'
  sandbox : q'.sandbox = q.sandbox
  localWork : ∀ x, s'.localWork x + (q.holdsLocal x).toNat = s.localWork x + (q'.holdsLocal x).toNat
  globalWork : s'.globalWork + q.holdsGlobal.toNat = s.globalWork + q'.holdsGlobal.toNat
  localSlots : ∀ x, s.localWork x ≤ D.localSlots → s'.localWork x ≤ D.localSlots
  globalSlots : s.globalWork ≤ D.globalSlots → s'.globalWork ≤ D.globalSlots

section
variable {D : Setup} {s s' : State} {i : ℕ} {q : Query}

theorem moved_still {p : Phase} (hqueries : s'.queries = s.queries.set i { q with phase := p })
    (hlocal : s'.localWork = s.localWork) (hglobal : s'.globalWork = s.globalWork)
    (hheld : p.holdsLocal = q.phase.holdsLocal) (hshared : p.holdsGlobal = q.phase.holdsGlobal) :
    Moved D s s' i q { q with phase := p } where
  queries := hqueries
  sandbox := rfl
  localWork x := by rw [hlocal, Query.holdsLocal, Query.holdsLocal, hheld]
  globalWork := by rw [hglobal, Query.holdsGlobal, Query.holdsGlobal, hshared]
  localSlots x h := by rwa [hlocal]
  globalSlots h := by rwa [hglobal]

theorem moved_local {p : Phase} {n : ℕ}
    (hn : n + q.phase.holdsLocal.toNat = s.localWork q.sandbox + p.holdsLocal.toNat)
    (hslots : s.localWork q.sandbox ≤ D.localSlots → n ≤ D.localSlots)
    (hshared : p.holdsGlobal = q.phase.holdsGlobal) :
    Moved D s ((s.setLocalWork q.sandbox n).setPhase i q p) i q { q with phase := p } where
  queries := rfl
  sandbox := rfl
  localWork x := by
    by_cases hx : x = q.sandbox
    · subst hx
      simpa [State.setPhase, State.setLocalWork, Query.holdsLocal] using hn
    · have hne : (q.sandbox == x) = false := by simpa using Ne.symm hx
      simp [State.setPhase, State.setLocalWork, Query.holdsLocal, hx, hne]
  globalWork := by simp [State.setPhase, State.setLocalWork, Query.holdsGlobal, hshared]
  localSlots x h := by
    by_cases hx : x = q.sandbox
    · subst hx
      simpa [State.setPhase, State.setLocalWork] using hslots h
    · simpa [State.setPhase, State.setLocalWork, hx] using h
  globalSlots h := h

theorem moved_global {p : Phase} {n : ℕ}
    (hn : n + q.phase.holdsGlobal.toNat = s.globalWork + p.holdsGlobal.toNat)
    (hslots : s.globalWork ≤ D.globalSlots → n ≤ D.globalSlots)
    (hheld : p.holdsLocal = q.phase.holdsLocal) :
    Moved D s ((s.setGlobalWork n).setPhase i q p) i q { q with phase := p } where
  queries := rfl
  sandbox := rfl
  localWork x := by simp [State.setPhase, State.setGlobalWork, Query.holdsLocal, hheld]
  globalWork := hn
  localSlots x h := h
  globalSlots := hslots

theorem moved_of_advance (h : advance D s i q = some s') :
    ∃ p, Moved D s s' i q { q with phase := p } := by
  unfold advance at h
  cases hp : q.phase with
  | entered | metered =>
    rw [hp] at h
    cases h
    refine ⟨_, moved_still rfl rfl rfl ?_ ?_⟩ <;> rw [hp] <;> split <;> rfl
  | allowed =>
    rw [hp] at h
    dsimp only at h
    split at h
    · rename_i hroom
      cases h
      exact ⟨_, moved_local (by rw [hp]; rfl) (fun _ => hroom) (by rw [hp]; rfl)⟩
    · cases h
      exact ⟨_, moved_still rfl rfl rfl (by rw [hp]; rfl) (by rw [hp]; rfl)⟩
  | holding =>
    rw [hp] at h
    dsimp only at h
    split at h
    · rename_i hroom
      cases h
      exact ⟨_, moved_global (by rw [hp]; rfl) (fun _ => hroom) (by rw [hp]; rfl)⟩
    · cases h
      exact ⟨_, moved_still rfl rfl rfl (by rw [hp]; rfl) (by rw [hp]; rfl)⟩
  | full | returning =>
    rw [hp] at h
    dsimp only at h
    split at h
    · cases h
    · cases h
      refine ⟨_, moved_local ?_ (by omega) (by rw [hp]; rfl)⟩
      rw [hp]
      change s.localWork q.sandbox - 1 + 1 = s.localWork q.sandbox + 0
      omega
  | granted =>
    rw [hp] at h
    dsimp only at h
    split at h
    · cases h
    · cases h
      refine ⟨_, moved_global ?_ (by omega) (by rw [hp]; rfl)⟩
      rw [hp]
      change s.globalWork - 1 + 1 = s.globalWork + 0
      omega
  | done | refused =>
    rw [hp] at h
    cases h

end

structure Accounted (D : Setup) (s : State) : Prop where
  localWork : ∀ x, s.localWork x = s.queries.countP (Query.holdsLocal x)
  globalWork : s.globalWork = s.queries.countP Query.holdsGlobal
  localSlots : ∀ x, s.localWork x ≤ D.localSlots
  globalSlots : s.globalWork ≤ D.globalSlots

theorem accounted_step {D : Setup} {s s' : State} {m : Move} (h : Accounted D s)
    (hstep : step D s m = some s') : Accounted D s' := by
  cases m with
  | arrive sandbox now =>
    cases hstep
    refine ⟨fun x => ?_, ?_, h.localSlots, h.globalSlots⟩
    · rw [List.countP_append, ← h.localWork x]
      simp [Query.holdsLocal, Phase.holdsLocal, Phase.acquiring, Phase.working]
    · rw [List.countP_append, ← h.globalWork]
      simp [Query.holdsGlobal, Phase.holdsGlobal]
  | advance i =>
    obtain ⟨q, hq, hadvance⟩ := Option.bind_eq_some_iff.1 hstep
    obtain ⟨p, hmoved⟩ := moved_of_advance hadvance
    refine ⟨fun x => ?_, ?_, fun x => hmoved.localSlots x (h.localSlots x),
      hmoved.globalSlots h.globalSlots⟩
    · have hcount := countP_set (Query.holdsLocal x) { q with phase := p } hq
      have hwork := hmoved.localWork x
      have hbefore := h.localWork x
      rw [hmoved.queries]
      omega
    · have hcount := countP_set Query.holdsGlobal { q with phase := p } hq
      have hwork := hmoved.globalWork
      have hbefore := h.globalWork
      rw [hmoved.queries]
      omega

theorem accounted_of_runs {D : Setup} {moves : List Move} {s : State} (h : Runs D moves s) :
    Accounted D s :=
  Traces.run_invariant (fun _ _ _ hs _ hnext => accounted_step hs hnext)
    ⟨fun _ => rfl, rfl, fun _ => Nat.zero_le _, Nat.zero_le _⟩ h

def ownEffect (D : Setup) (i x : ℕ) : State → List Move → ℤ × ℤ
  | _, [] => (0, 0)
  | s, m :: moves =>
    match step D s m with
    | none => (0, 0)
    | some s' =>
      let rest := ownEffect D i x s' moves
      if m = .advance i then
        (s'.localWork x - s.localWork x + rest.1, s'.globalWork - s.globalWork + rest.2)
      else rest

def held (s : State) (i x : ℕ) : ℤ × ℤ :=
  match s.queries[i]? with
  | some q => ((q.holdsLocal x).toNat, q.holdsGlobal.toNat)
  | none => (0, 0)

theorem held_arrive {s : State} {i x sandbox : ℕ} {now : ℚ} :
    held { s with queries := s.queries ++ [⟨sandbox, now, .entered⟩] } i x = held s i x := by
  unfold held
  by_cases hi : i < s.queries.length
  · rw [List.getElem?_append_left hi]
  · have hnone : s.queries[i]? = none := List.getElem?_eq_none (by omega)
    rw [List.getElem?_append_right (by omega), hnone]
    cases hnew : [(⟨sandbox, now, .entered⟩ : Query)][i - s.queries.length]? with
    | none => rfl
    | some q =>
      obtain rfl : q = ⟨sandbox, now, .entered⟩ := by
        simpa using List.mem_of_getElem? hnew
      simp [Query.holdsLocal, Query.holdsGlobal, Phase.holdsLocal, Phase.acquiring, Phase.working,
        Phase.holdsGlobal]

/-- The steps of a query add up to what it holds in the end. -/
theorem ownEffect_eq_held {D : Setup} {i x : ℕ} {moves : List Move} {s s' : State}
    (h : Traces.run (step D) (fun _ _ => true) s moves = some s') :
    (held s i x).1 + (ownEffect D i x s moves).1 = (held s' i x).1 ∧
      (held s i x).2 + (ownEffect D i x s moves).2 = (held s' i x).2 := by
  induction moves generalizing s with
  | nil =>
    cases h
    simp [ownEffect]
  | cons m moves ih =>
    obtain ⟨s₁, hstep, hrest⟩ := Option.bind_eq_some_iff.1 (by simpa [Traces.run] using h)
    obtain ⟨hlocal, hglobal⟩ := ih hrest
    cases m with
    | arrive sandbox now =>
      have hheld : held s₁ i x = held s i x := by
        cases hstep
        exact held_arrive
      rw [hheld] at hlocal hglobal
      simpa [ownEffect, hstep] using And.intro hlocal hglobal
    | advance k =>
      obtain ⟨q, hq, hadvance⟩ := Option.bind_eq_some_iff.1 hstep
      obtain ⟨p, hmoved⟩ := moved_of_advance hadvance
      by_cases hk : k = i
      · subst hk
        have hlt : k < s.queries.length := (List.getElem?_eq_some_iff.1 hq).1
        have hbefore : held s k x = (((q.holdsLocal x).toNat : ℤ), (q.holdsGlobal.toNat : ℤ)) := by
          simp [held, hq]
        have hafter : held s₁ k x = (((Query.holdsLocal x { q with phase := p }).toNat : ℤ),
            ((Query.holdsGlobal { q with phase := p }).toNat : ℤ)) := by
          simp [held, hmoved.queries, hlt]
        have hl := hmoved.localWork x
        have hg := hmoved.globalWork
        rw [hafter] at hlocal hglobal
        simp only [ownEffect, hstep, if_true, hbefore]
        exact ⟨by omega, by omega⟩
      · have hheld : held s₁ i x = held s i x := by
          simp [held, hmoved.queries, List.getElem?_set_ne hk]
        rw [hheld] at hlocal hglobal
        simpa [ownEffect, hstep, hk] using And.intro hlocal hglobal

theorem countP_or_disjoint {α : Type} {p r : α → Bool} (hdisjoint : ∀ a, ¬ (p a = true ∧ r a = true))
    (l : List α) : l.countP (fun a => p a || r a) = l.countP p + l.countP r := by
  induction l with
  | nil => rfl
  | cons a l ih =>
    cases hp : p a <;> cases hr : r a <;> simp_all <;> omega

/-- For any number of sandboxes and queries and every interleaving of their steps: the slots in
use of a sandbox are within its capacity, and as many as it has granted queries that have not
given theirs back and acquires that have taken one and are not granted or rolled back yet. The
shared slots in use are within their capacity, and as many as there are granted queries whose
release has not given its slot back. The steps of a refused acquire leave both channels as they
were. -/
theorem slots_accounted {D : Setup} {moves : List Move} {s : State} (h : Runs D moves s) :
    (∀ x, s.localWork x ≤ D.localSlots ∧ s.localWork x =
      s.queries.countP (fun q => q.sandbox == x && q.phase.working) +
        s.queries.countP (fun q => q.sandbox == x && q.phase.acquiring)) ∧
    (s.globalWork ≤ D.globalSlots ∧ s.globalWork = s.queries.countP Query.holdsGlobal) ∧
    ∀ (i : ℕ) (q : Query), s.queries[i]? = some q → q.phase = .refused →
      ∀ x, ownEffect D i x (State.start D) moves = (0, 0) := by
  have hinv := accounted_of_runs h
  refine ⟨fun x => ⟨hinv.localSlots x, ?_⟩, ⟨hinv.globalSlots, hinv.globalWork⟩, ?_⟩
  · have hsplit : Query.holdsLocal x = fun q =>
        (q.sandbox == x && q.phase.working) || (q.sandbox == x && q.phase.acquiring) := by
      funext q
      cases hx : q.sandbox == x <;> cases hw : q.phase.working <;> cases ha : q.phase.acquiring <;>
        simp [Query.holdsLocal, Phase.holdsLocal, hx, hw, ha]
    have hdisjoint : ∀ q : Query, ¬ ((q.sandbox == x && q.phase.working) = true ∧
        (q.sandbox == x && q.phase.acquiring) = true) := by
      intro q
      cases q.phase <;> simp [Phase.working, Phase.acquiring]
    rw [hinv.localWork x, hsplit, countP_or_disjoint hdisjoint]
  · intro i q hq hrefused x
    obtain ⟨hlocal, hglobal⟩ := @ownEffect_eq_held D i x moves _ _ h
    have hend : held s i x = (0, 0) := by
      simp [held, hq, Query.holdsLocal, Query.holdsGlobal, hrefused, Phase.holdsLocal,
        Phase.acquiring, Phase.working, Phase.holdsGlobal]
    have hstart : held (State.start D) i x = (0, 0) := rfl
    rw [hend, hstart] at hlocal hglobal
    exact Prod.ext (by simpa using hlocal) (by simpa using hglobal)

/-- Two queries of one sandbox with one shared slot: the first is granted, the second takes a slot
of its sandbox, finds no shared one and gives its slot back. -/
def pairMoves : List Move :=
  [.arrive 0 1, .advance 0, .advance 0, .advance 0, .advance 0, .arrive 0 1, .advance 1, .advance 1,
    .advance 1, .advance 1, .advance 1]

def pairSetup : Setup := { processSetup with localSlots := 2, globalSlots := 1 }

theorem slots_accounted_pair : ∃ s, Runs pairSetup pairMoves s ∧ s.globalWork ≤ 1 ∧
    ownEffect pairSetup 1 0 (State.start pairSetup) pairMoves = (0, 0) := by
  have hend : (Traces.run (step pairSetup) (fun _ _ => true) (State.start pairSetup) pairMoves).any
      (fun s => s.queries[1]?.any fun q => decide (q.phase = .refused)) = true := by decide +kernel
  obtain ⟨s, hs, hq⟩ := (Option.any_eq_true _ _).1 hend
  obtain ⟨q, hq, hrefused⟩ := (Option.any_eq_true _ _).1 hq
  obtain ⟨-, hglobal, heffect⟩ := slots_accounted hs
  exact ⟨s, hs, hglobal.1, heffect 1 q hq (by simpa using hrefused) 0⟩

/-- No step blocks: a channel that a query receives from holds its slot. -/
theorem advance_enabled {D : Setup} {moves : List Move} {s : State} (h : Runs D moves s) {i : ℕ}
    {q : Query} (hq : s.queries[i]? = some q) (hdone : q.phase ≠ .done)
    (hrefused : q.phase ≠ .refused) : (step D s (.advance i)).isSome = true := by
  have hinv := accounted_of_runs h
  have hmem := List.mem_of_getElem? hq
  have hlocal : q.phase.holdsLocal = true → s.localWork q.sandbox ≠ 0 := by
    intro hp
    have hpos : 0 < s.queries.countP (Query.holdsLocal q.sandbox) :=
      List.countP_pos_iff.2 ⟨q, hmem, by simp [Query.holdsLocal, hp]⟩
    rw [hinv.localWork q.sandbox]
    omega
  have hglobal : q.phase.holdsGlobal = true → s.globalWork ≠ 0 := by
    intro hp
    have hpos : 0 < s.queries.countP Query.holdsGlobal :=
      List.countP_pos_iff.2 ⟨q, hmem, hp⟩
    rw [hinv.globalWork]
    omega
  rw [step, hq, Option.bind_some, advance]
  cases hp : q.phase with
  | entered | metered => rfl
  | allowed | holding =>
    dsimp only
    split <;> rfl
  | full =>
    rw [hp] at hlocal
    rw [if_neg (hlocal rfl)]
    rfl
  | granted =>
    rw [hp] at hglobal
    rw [if_neg (hglobal rfl)]
    rfl
  | returning =>
    rw [hp] at hlocal
    dsimp only
    rw [if_neg (hlocal rfl)]
    rfl
  | done => exact absurd hp hdone
  | refused => exact absurd hp hrefused

/-- One query stands before the release of its global slot, the other before the return of the
local slot that it took in vain. -/
theorem advance_enabled_receives : ∃ s, Runs pairSetup pairMoves.dropLast s ∧
    s.queries.map (fun q => q.phase) = [.granted, .full] ∧
    (step pairSetup s (.advance 0)).isSome = true ∧
    (step pairSetup s (.advance 1)).isSome = true := by
  have hend : (Traces.run (step pairSetup) (fun _ _ => true) (State.start pairSetup)
      pairMoves.dropLast).any (fun s => decide (s.queries.map (fun q => q.phase) =
        [.granted, .full])) = true := by
    decide +kernel
  obtain ⟨s, hs, hphases⟩ := (Option.any_eq_true _ _).1 hend
  have hphases := of_decide_eq_true hphases
  have hbefore : ∀ (i : ℕ) (phase : Phase), [Phase.granted, .full][i]? = some phase →
      ∃ q, s.queries[i]? = some q ∧ q.phase = phase := fun i phase hi => by
    rw [← hphases, List.getElem?_map] at hi
    exact Option.map_eq_some_iff.1 hi
  obtain ⟨q₀, hq₀, hgranted⟩ := hbefore 0 .granted rfl
  obtain ⟨q₁, hq₁, hfull⟩ := hbefore 1 .full rfl
  exact ⟨s, hs, hphases, advance_enabled hs hq₀ (by simp [hgranted]) (by simp [hgranted]),
    advance_enabled hs hq₁ (by simp [hfull]) (by simp [hfull])⟩

end Niflhel.Dns
