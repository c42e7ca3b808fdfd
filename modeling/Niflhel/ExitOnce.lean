import Niflhel.Allocation

/-!
# The exit status of a generation

`finish` compares generations but not states, so two of them can commit for one
generation: the monitor records the guest's exit code, and a `Stop` whose guest call then
fails replaces it. The exit is written once in every run in which `finish` commits only
over a record that is still starting, running or stopping.
-/

namespace Niflhel
open Concurrent

/-- A commit of `finish` finds the record starting, running or stopping. -/
def finishesActive (s : Host) : (o : Op) → o.Reply → Bool
  | .update id (.finished _ _ _), _ =>
    match s.store.row id with
    | some v => v.state.isActive
    | none => true
  | _, _ => true

variable {D : Setup} {c c' : Config Host Op Op.Reply} {id : String}

def ExitedStarted (s : Host) : Prop :=
  ∀ id v, s.store.row id = some v → v.state = .exited → 1 ≤ v.generation

theorem Edited.started {s s' : Host} {t : ℕ} {e : Edit} {x y : Sandbox}
    (hed : Edited s s' id e x y) (hi : Inv s) (hp : editPermit t s id e)
    (hfin : ∀ exit netErr vmErr, e = .finished exit netErr vmErr → x.state.isActive = true)
    (hx : x.state = .exited → 1 ≤ x.generation) (hy : y.state = .exited) :
    1 ≤ y.generation := by
  have hactive : x.state.isActive = true → 1 ≤ x.generation := by
    intro hact
    obtain rfl := (Store.row_eq_some hed.found).2
    obtain ⟨v, hv, _, hgen⟩ := hi.admitted x.id (hi.active x hed.found hact)
    rwa [Option.some.inj (hed.found.symm.trans hv)]
  cases hwhole : e.whole with
  | none =>
    have hgen : y.generation = x.generation := by rw [Edit.apply_frame hed.applied hwhole]
    rw [hgen]
    rcases Edit.apply_state hed.applied hwhole with hs | ⟨_, hs⟩ | hf
    · exact hx (hs.symm.trans hy)
    · simp [hy] at hs
    · rw [hy] at hf
      rcases Edit.forces_eq_some hf with hs | hs | ⟨_, exit, netErr, vmErr, rfl⟩
      · cases hs
      · cases hs
      · exact hactive (hfin exit netErr vmErr rfl)
  | some w =>
    rw [Edit.apply_whole hed.applied hwhole] at hy ⊢
    cases e with
    | createCommit w =>
      cases hwhole
      rw [hp.2.2.2.1] at hy
      cases hy
    | startCommit w =>
      cases hwhole
      exact hp.2.2.2.1
    | _ => cases hwhole

/-- The condition at an edit: what `finish` overwrites is active. -/
theorem active_of_meets {t : ℕ} {e : Edit} {r : Except String Time} {x : Sandbox}
    (hok : System.Meets finishesActive c (.run t (.update id e) r : Label Op Op.Reply Job))
    (hx : c.state.store.row id = some x) :
    ∀ exit netErr vmErr, e = .finished exit netErr vmErr → x.state.isActive = true := by
  rintro exit netErr vmErr rfl
  simpa [System.Meets, finishesActive, hx] using hok

theorem exitedStarted_step {l : Label Op Op.Reply Job} (hc : daemonReachable D c)
    (hs : (daemon D).Step c l c') (hok : System.Meets finishesActive c l)
    (h : ExitedStarted c.state) : ExitedStarted c'.state := by
  intro id v hv hexit
  rcases row_of_step hc hs id with hr | ⟨t, e, r, x, y, rfl, hp, hed⟩ | ⟨_, _, w, hw, hnew⟩ | hr
  · exact h id v (hr.symm.trans hv) hexit
  · obtain ⟨now, hself⟩ := hed.row_self
    cases hself.symm.trans hv
    exact hed.started (inv_of_reachable hc) hp (active_of_meets hok hed.found)
      (h id x hed.found) hexit
  · rw [Option.some.inj (hv.symm.trans hw), hnew] at hexit
    cases hexit
  · rw [hv] at hr
    cases hr

theorem exitedStarted_of_runs
    (h : (daemon D).Runs (System.Meets finishesActive) ((daemon D).booted Host.initial) c) :
    daemonReachable D c ∧ ExitedStarted c.state := by
  induction h with
  | refl =>
    refine ⟨⟨_, rfl, .refl⟩, fun id v hv => ?_⟩
    simp [System.booted, Host.initial, Store.empty, Store.row] at hv
  | tail _ hs ih =>
    obtain ⟨l, hok, hstep⟩ := hs
    exact ⟨ih.1.step _ hstep, exitedStarted_step ih.1 hstep hok ih.2⟩

/-- The sandbox was finished in generation `g` with exit `e`, or has been started again. -/
def ExitKept (id : String) (g : ℕ) (e : Exit) (s : Host) : Prop :=
  (∃ name, (id, name) ∈ s.created) ∧ ∀ v, s.store.row id = some v →
    (v.generation = g ∧ v.exit = some e ∧ v.state.isActive = false) ∨ g < v.generation

theorem RunEdit.exitKept {s : Host} {g : ℕ} {e : Edit} {exit : Exit} {x y : Sandbox}
    (hed : RunEdit D finishesActive id e x y s) (hg : 1 ≤ g)
    (hx : (x.generation = g ∧ x.exit = some exit ∧ x.state.isActive = false) ∨
      g < x.generation) :
    (y.generation = g ∧ y.exit = some exit ∧ y.state.isActive = false) ∨ g < y.generation := by
  obtain ⟨t, r, hp, _, hok⟩ := hed.permitted
  cases hwhole : e.whole with
  | none =>
    have hgen : y.generation = x.generation := by
      rw [Edit.apply_frame hed.applied hwhole]
    rcases hx with ⟨hxg, hxe, hxa⟩ | hx
    · refine Or.inl ⟨hgen.trans hxg, ?_, ?_⟩
      · rw [Edit.apply_exit hed.applied hwhole fun exit netErr vmErr he => ?_]
        · exact hxe
        · subst he
          have hact : x.state.isActive = true := by
            simpa [finishesActive, hed.found] using hok
          rw [hact] at hxa
          cases hxa
      · cases hya : y.state.isActive with
        | false => rfl
        | true =>
          rw [Edit.apply_active hed.applied hwhole hya] at hxa
          cases hxa
    · exact Or.inr (hgen.symm ▸ hx)
  | some w =>
    have hy := Edit.apply_whole hed.applied hwhole
    have hle : g ≤ x.generation := by
      rcases hx with ⟨hxg, _⟩ | hx
      · exact hxg.ge
      · exact hx.le
    cases e with
    | createCommit w =>
      have hzero : x.generation = 0 := hp.2.1 x hed.found
      omega
    | startCommit w =>
      cases hwhole
      have hpos : 1 ≤ y.generation := by
        rw [hy]
        exact hp.2.2.2.1
      have hnext : x.generation = y.generation - 1 := by
        rw [hy]
        exact (hp.2.2.2.2.2.2 hed.noAlias).2 x hed.found
      right
      omega
    | _ => cases hwhole

/-- In every run whose `finish` commits find active records, the exit recorded for a
generation stays until a start commits a later generation. -/
theorem exit_write_once (D : Setup) (c₁ c₂ : Config Host Op Op.Reply) (id : String)
    (v₁ v₂ : Sandbox) (e : Exit)
    (h₁ : (daemon D).Runs (System.Meets finishesActive) ((daemon D).booted Host.initial) c₁)
    (hv₁ : c₁.state.store.row id = some v₁) (hexited : v₁.state = .exited)
    (he : v₁.exit = some e) (h₂ : (daemon D).Runs (System.Meets finishesActive) c₁ c₂)
    (hn : c₂.state.NoAlias) (hv₂ : c₂.state.store.row id = some v₂) :
    (v₂.generation = v₁.generation ∧ v₂.exit = some e) ∨ v₁.generation < v₂.generation := by
  obtain ⟨hreach, hstarted⟩ := exitedStarted_of_runs h₁
  have hg : 1 ≤ v₁.generation := hstarted id v₁ hv₁ hexited
  have hkept : ExitKept id v₁.generation e c₂.state := by
    refine rowKept_of_runs hreach h₂ hn (fun _ _ _ _ _ hed hx => hed.exitKept hg hx)
      ⟨⟨_, (inv_of_reachable hreach).row_recorded hv₁⟩, fun v hv => ?_⟩
    obtain rfl : v₁ = v := Option.some.inj (hv₁.symm.trans hv)
    exact Or.inl ⟨rfl, he, by rw [hexited]; rfl⟩
  rcases hkept.2 v₂ hv₂ with ⟨hgen, hexit, _⟩ | hgt
  · exact Or.inl ⟨hgen, hexit⟩
  · exact Or.inr hgt

namespace Sample

/-- Sandbox `a` runs and a `Stop` has read its record; then its monitor, thread four, sees
the guest exit with code three and finishes. -/
def monitorFinishes : List (System.Move Job) :=
  createA ++ [.request (.start "a")] ++ steps 3 21 ++ [.request (.stop "a" 0)] ++ steps 5 2 ++
    [.run 4 1] ++ steps 4 3 ++ [.run 4 1] ++ steps 4 3 ++ [.run 4 1] ++ steps 4 6

def stopFinishes : List (System.Move Job) :=
  [.run 5 1] ++ steps 5 3 ++ [.run 5 1] ++ steps 5 5

structure Seen where
  state : State
  generation : ℕ
  code : Option (Option ℤ)
  deriving DecidableEq

def exitOf (s : Host) : Option Seen :=
  (s.store.row (ident 0)).map fun v => ⟨v.state, v.generation, v.exit.map Exit.code⟩

theorem exitOf_eq_some {s : Host} {state : State} {g : ℕ} {code : Option ℤ}
    (h : exitOf s = some ⟨state, g, some code⟩) : ∃ v e, s.store.row (ident 0) = some v ∧
      v.state = state ∧ v.generation = g ∧ v.exit = some e ∧ e.code = code := by
  obtain ⟨v, hv, hfacts⟩ := Option.map_eq_some_iff.1 h
  simp only [Seen.mk.injEq] at hfacts
  obtain ⟨hs, hg, hexit⟩ := hfacts
  obtain ⟨e, he, hcode⟩ := Option.map_eq_some_iff.1 hexit
  exact ⟨v, e, hv, hs, hg, he, hcode⟩

end Sample

open Sample in
theorem exit_write_once_monitored : ∃ c₁ c₂ v₁ v₂ e,
      (daemon setup).Runs (System.Meets finishesActive)
        ((daemon setup).booted Host.initial) c₁ ∧
      c₁.state.store.row (ident 0) = some v₁ ∧ v₁.state = .exited ∧ v₁.exit = some e ∧
      (daemon setup).Runs (System.Meets finishesActive) c₁ c₂ ∧ c₂.state.NoAlias ∧
      c₂.state.store.row (ident 0) = some v₂ ∧
      ((v₂.generation = v₁.generation ∧ v₂.exit = some e) ∨ v₁.generation < v₂.generation) := by
  have hrun : ((afterBoth ((daemon setup).restrict finishesActive) monitorFinishes
      (steps 5 4)).map fun p => (exitOf p.1, exitOf p.2, p.2.created)) =
        some (some ⟨.exited, 1, some (some 3)⟩, some ⟨.exited, 1, some (some 3)⟩,
          [(ident 0, "a")]) := by
    decide +kernel
  obtain ⟨⟨s₁, s₂⟩, hs, hfacts⟩ := Option.map_eq_some_iff.1 hrun
  simp only [Prod.mk.injEq] at hfacts
  obtain ⟨hexit₁, hexit₂, hcreated⟩ := hfacts
  obtain ⟨c₁, c₂, h₁, h₂, rfl, rfl⟩ := runs_afterBoth hs
  obtain ⟨v₁, e, hv₁, hs₁, _, he, _⟩ := exitOf_eq_some hexit₁
  obtain ⟨v₂, _, hv₂, _⟩ := exitOf_eq_some hexit₂
  have hn : c₂.state.NoAlias := by
    unfold Host.NoAlias
    rw [hcreated]
    decide
  have hruns₁ := (System.restrict_runs (daemon setup)).1 h₁
  have hruns₂ := (System.restrict_runs (daemon setup)).1 h₂
  exact ⟨c₁, c₂, v₁, v₂, e, hruns₁, hv₁, hs₁, he, hruns₂, hn, hv₂,
    exit_write_once setup c₁ c₂ (ident 0) v₁ v₂ e hruns₁ hv₁ hs₁ he hruns₂ hn hv₂⟩

open Sample in
/-- The exit code the monitor recorded is replaced by an exit without a code, in the same
generation. -/
theorem exit_overwritten : ∃ c₁ c₂ v₁ v₂ e₁ e₂, daemonReachable setup c₁ ∧
      (daemon setup).Runs (fun _ _ => True) c₁ c₂ ∧
      c₁.state.store.row (ident 0) = some v₁ ∧ v₁.state = .exited ∧ v₁.exit = some e₁ ∧
      e₁.code = some 3 ∧ c₂.state.store.row (ident 0) = some v₂ ∧
      v₂.generation = v₁.generation ∧ v₂.exit = some e₂ ∧ e₂.code = none := by
  have hrun : ((afterBoth (daemon setup) monitorFinishes stopFinishes).map fun p =>
      (exitOf p.1, exitOf p.2)) =
        some (some ⟨.exited, 1, some (some 3)⟩, some ⟨.exited, 1, some none⟩) := by
    decide +kernel
  obtain ⟨⟨s₁, s₂⟩, hs, hfacts⟩ := Option.map_eq_some_iff.1 hrun
  obtain ⟨hexit₁, hexit₂⟩ := Prod.mk.inj hfacts
  obtain ⟨c₁, c₂, h₁, h₂, rfl, rfl⟩ := runs_afterBoth hs
  obtain ⟨v₁, e₁, hv₁, hs₁, hg₁, he₁, hc₁⟩ := exitOf_eq_some hexit₁
  obtain ⟨v₂, e₂, hv₂, _, hg₂, he₂, hc₂⟩ := exitOf_eq_some hexit₂
  exact ⟨c₁, c₂, v₁, v₂, e₁, e₂, ⟨_, rfl, h₁⟩, h₂, hv₁, hs₁, he₁, hc₁, hv₂,
    hg₂.trans hg₁.symm, he₂, hc₂⟩

end Niflhel
