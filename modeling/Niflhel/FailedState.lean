import Niflhel.ExitOnce

/-!
# Failed sandboxes

The transition table leads from failed to removing only. `finish` and the commits of
`Create` and `Start` write the state without asking the table. A `Start` holds the mutex of
the sandbox and has seen it created or exited. A `finish` of a sandbox that has failed
makes it exited, and a `Create` does not notice that its sandbox was stopped meanwhile.
-/

namespace Niflhel
open Concurrent

/-- A commit of `finish` finds the record starting, running or stopping, and the commit of
`Create` finds it creating. -/
def commitsInTurn (s : Host) : (o : Op) → o.Reply → Bool
  | .update id (.createCommit _), _ =>
    match s.store.row id with
    | some v => v.state == .creating
    | none => true
  | o, r => finishesActive s o r

variable {D : Setup} {id : String}

theorem RunEdit.failed {s : Host} {e : Edit} {x y : Sandbox}
    (hed : RunEdit D commitsInTurn id e x y s) (hx : x.state = .failed ∨ x.state = .removing) :
    y.state = .failed ∨ y.state = .removing := by
  obtain ⟨t, r, _, hq, hok⟩ := hed.permitted
  cases hwhole : e.whole with
  | none =>
    rcases Edit.apply_state hed.applied hwhole with hs | ⟨ht, hs⟩ | hf
    · rwa [hs]
    · rcases hx with hx | hx
      · rw [hx] at ht
        exact Or.inr (List.mem_singleton.1 ht)
      · rw [hx] at ht
        cases ht
    · rcases Edit.forces_eq_some hf with hs | hs | ⟨_, exit, netErr, vmErr, rfl⟩
      · exact Or.inl hs
      · exact Or.inr hs
      · have hact : x.state.isActive = true := by
          simpa [commitsInTurn, finishesActive, hed.found] using hok
        rcases hx with hx | hx <;> simp [hx, State.isActive] at hact
  | some z =>
    cases e with
    | createCommit w =>
      have hnew : x.state = .creating := by
        simpa [commitsInTurn, hed.found] using hok
      rcases hx with hx | hx <;> simp [hx] at hnew
    | startCommit w =>
      have hidle := hq.2.2.2 hed.noAlias x hed.found
      rcases hx with hx | hx <;> simp [hx] at hidle
    | _ => cases hwhole

/-- In every run whose commits find the record in turn, a failed sandbox stays failed or is
being removed. -/
theorem failed_absorbing (D : Setup) (c₁ c₂ : Config Host Op Op.Reply) (id : String)
    (v₁ v₂ : Sandbox) (h₁ : daemonReachable D c₁) (hv₁ : c₁.state.store.row id = some v₁)
    (hfailed : v₁.state = .failed) (h₂ : (daemon D).Runs (System.Meets commitsInTurn) c₁ c₂)
    (hn : c₂.state.NoAlias) (hv₂ : c₂.state.store.row id = some v₂) :
    v₂.state = .failed ∨ v₂.state = .removing := by
  have hkept : RowKept id (fun v => v.state = .failed ∨ v.state = .removing) c₂.state := by
    refine rowKept_of_runs h₁ h₂ hn (fun _ _ _ _ _ hed hx => hed.failed hx)
      ⟨⟨_, (inv_of_reachable h₁).row_recorded hv₁⟩, fun v hv => ?_⟩
    rw [← Option.some.inj (hv₁.symm.trans hv)]
    exact Or.inl hfailed
  exact hkept.2 v₂ hv₂

namespace Sample

/-- Sandbox `a` runs; a `Stop` whose guest call fails finishes it, but its network is not
removed. -/
def stopFails : List (System.Move Job) :=
  createA ++ [.request (.start "a")] ++ steps 3 21 ++ [.request (.stop "a" 0)] ++ steps 5 2 ++
    [.run 5 1] ++ steps 5 3 ++ [.run 5 1] ++ steps 5 2 ++ [.run 5 1] ++ steps 5 3

def stateOf (s : Host) : Option State := (s.store.row (ident 0)).map Sandbox.state

theorem stateOf_eq_some {s : Host} {state : State} (h : stateOf s = some state) :
    ∃ v, s.store.row (ident 0) = some v ∧ v.state = state := Option.map_eq_some_iff.1 h

end Sample

open Sample in
theorem failed_absorbing_removed :
    ∃ c₁ c₂ v₁ v₂, daemonReachable setup c₁ ∧ c₁.state.store.row (ident 0) = some v₁ ∧
      v₁.state = .failed ∧ (daemon setup).Runs (System.Meets commitsInTurn) c₁ c₂ ∧
      c₂.state.NoAlias ∧ c₂.state.store.row (ident 0) = some v₂ ∧
      (v₂.state = .failed ∨ v₂.state = .removing) := by
  have hrun : ((afterBoth ((daemon setup).restrict commitsInTurn) stopFails
      ([.request (.remove "a" true)] ++ steps 6 8)).map fun p =>
        (stateOf p.1, stateOf p.2, p.2.created)) =
          some (some .failed, some .removing, [(ident 0, "a")]) := by
    decide +kernel
  obtain ⟨⟨s₁, s₂⟩, hs, hfacts⟩ := Option.map_eq_some_iff.1 hrun
  simp only [Prod.mk.injEq] at hfacts
  obtain ⟨hstate₁, hstate₂, hcreated⟩ := hfacts
  obtain ⟨c₁, c₂, h₁, h₂, rfl, rfl⟩ := runs_afterBoth hs
  obtain ⟨v₁, hv₁, hs₁⟩ := stateOf_eq_some hstate₁
  obtain ⟨v₂, hv₂, _⟩ := stateOf_eq_some hstate₂
  have hn : c₂.state.NoAlias := by
    unfold Host.NoAlias
    rw [hcreated]
    decide
  have hreach : daemonReachable setup c₁ :=
    System.Reachable.runs _ ⟨_, rfl, .refl⟩ ((System.restrict_runs (daemon setup)).1 h₁)
  have hruns := (System.restrict_runs (daemon setup)).1 h₂
  exact ⟨c₁, c₂, v₁, v₂, hreach, hv₁, hs₁, hruns, hn, hv₂,
    failed_absorbing setup c₁ c₂ (ident 0) v₁ v₂ hreach hv₁ hs₁ hruns hn hv₂⟩

open Sample in
/-- A second `Stop` finishes the failed sandbox once more, now with a complete cleanup. -/
theorem failed_becomes_exited :
    ∃ c₁ c₂ v₁ v₂, daemonReachable setup c₁ ∧ c₁.state.store.row (ident 0) = some v₁ ∧
      v₁.state = .failed ∧ (daemon setup).Runs (fun _ _ => True) c₁ c₂ ∧
      c₂.state.store.row (ident 0) = some v₂ ∧ v₂.state = .exited := by
  have hrun : ((afterBoth (daemon setup) stopFails ([.request (.stop "a" 0), .run 6 0, .run 6 1,
      .run 6 1] ++ steps 6 3 ++ [.run 6 1] ++ steps 6 5)).map fun p =>
        (stateOf p.1, stateOf p.2)) = some (some .failed, some .exited) := by
    decide +kernel
  obtain ⟨⟨s₁, s₂⟩, hs, hfacts⟩ := Option.map_eq_some_iff.1 hrun
  obtain ⟨hstate₁, hstate₂⟩ := Prod.mk.inj hfacts
  obtain ⟨c₁, c₂, h₁, h₂, rfl, rfl⟩ := runs_afterBoth hs
  obtain ⟨v₁, hv₁, hs₁⟩ := stateOf_eq_some hstate₁
  obtain ⟨v₂, hv₂, hs₂⟩ := stateOf_eq_some hstate₂
  exact ⟨c₁, c₂, v₁, v₂, ⟨_, rfl, h₁⟩, hv₁, hs₁, h₂, hv₂, hs₂⟩

end Niflhel
