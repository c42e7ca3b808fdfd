import Niflhel.StopResult

/-!
# Finishing an old generation

`finish` reads the record under its mutex and goes on only if the generation is the one it
was called for. While it holds the mutex no `Start` can commit a later one, and successive
commits of one sandbox increase the generation, across crashes as well.
-/

namespace Niflhel
open Concurrent

def Op.isDestructive : Op → Bool
  | .kill _ | .update _ _ | .delete _ => true
  | .external (.networkRemove _) | .external (.vmRemove _) | .external (.removeAll _) => true
  | _ => false

section generations
variable {D : Setup} {id : String} {ok : Host → (o : Op) → o.Reply → Bool}

theorem RunEdit.generation_le {s : Host} {e : Edit} {x y : Sandbox}
    (hed : RunEdit D ok id e x y s) : x.generation ≤ y.generation := by
  obtain ⟨t, r, hp, _⟩ := hed.permitted
  cases hwhole : e.whole with
  | none =>
    rw [Edit.apply_frame hed.applied hwhole]
  | some z =>
    rw [Edit.apply_whole hed.applied hwhole]
    cases e with
    | createCommit w =>
      rw [hp.2.1 x hed.found]
      exact Nat.zero_le _
    | startCommit w =>
      cases hwhole
      rw [(hp.2.2.2.2.2.2 hed.noAlias).2 x hed.found]
      exact Nat.sub_le _ _
    | _ => cases hwhole

/-- After a commit of `Start`, the generation of the record never falls below it. -/
theorem generation_kept {c₁ c₁' c₂ : Config Host Op Op.Reply} {t : ℕ} {w : Sandbox} {now : Time}
    (h₁ : daemonReachable D c₁)
    (hs : (daemon D).Step c₁ (.run t (.update id (.startCommit w)) (.ok now)) c₁')
    (hruns : (daemon D).Runs (fun _ _ => True) c₁' c₂) (hn : c₂.state.NoAlias) :
    RowKept id (fun v => w.generation ≤ v.generation) c₂.state := by
  have hreach : daemonReachable D c₁' := h₁.step _ hs
  have hruns' : (daemon D).Runs (System.Meets System.anyCall) c₁' c₂ := by
    refine System.Runs.mono _ hruns fun c l _ => ?_
    cases l <;> trivial
  have hp : editPermit t c₁.state id (.startCommit w) := (ownership_sound D).permit h₁ hs
  have hx : exec D t c₁.state (.update id (.startCommit w)) (.ok now) = some c₁'.state :=
    (daemon D).exec_of_step hs
  obtain ⟨x, y, hed, _⟩ := edited hp hx
  refine rowKept_of_runs hreach hruns' hn (fun _ _ _ _ _ hed' hx => hx.trans hed'.generation_le)
    ⟨⟨x.name, ?_⟩, fun v hv => ?_⟩
  · exact created_of_step h₁ hs _ ((inv_of_reachable h₁).row_recorded hed.found)
  · obtain ⟨now', hself⟩ := hed.row_self
    rw [← Option.some.inj (hself.symm.trans hv), Edit.apply_whole hed.applied rfl]

end generations

/-- The record that was read under the mutex. It is the one of the sandbox unless there are
aliases, and then it keeps its generation. -/
def Tracked (t : ℕ) (v current : Sandbox) (s : Host) : Prop :=
  (current.id, current.name) ∈ s.created ∧
    (s.NoAlias → current.id = v.id → Owns t v.id s ∧
      ∃ w, s.store.row v.id = some w ∧ w.generation = v.generation)

section outline
variable {D : Setup} {t : ℕ} {s s' : Host} {v current : Sandbox} {o : Op}
  {r : o.Reply}

/-- Only a deletion removes a record and only a commit of `Start` changes its generation. -/
theorem OwnedCall.row_generation {id : String} {w : Sandbox}
    (hc : OwnedCall D t s o r s') (hw : s.store.row id = some w) :
    (∃ w', s'.store.row id = some w' ∧ w'.generation = w.generation) ∨ o = .delete id ∨
      ∃ z, o = .update id (.startCommit z) := by
  rcases row_step hc.permitted hc.exec id with
    hr | ⟨e, x, y, rfl, hp, hed⟩ | ⟨hr, _⟩ | ⟨hdelete, _⟩
  · exact Or.inl ⟨w, hr.trans hw, rfl⟩
  · cases hed.found.symm.trans hw
    obtain ⟨now, hself⟩ := hed.row_self
    rcases hed.generation hp with hg | ⟨_, _, hadm⟩
    · exact Or.inl ⟨_, hself, hg⟩
    · cases e with
      | startCommit z => exact Or.inr (Or.inr ⟨z, rfl⟩)
      | _ => cases hadm
  · rw [hw] at hr
    cases hr
  · exact Or.inr (Or.inl hdelete)

theorem stable_tracked (v current : Sandbox) : (records D).Stable t (Tracked t v current) := by
  rintro s s' ⟨_, u, o, r, hu, _, hx⟩ ⟨hcreated, htrack⟩
  have hc := enforced_exec.1 hx
  refine ⟨hc.evolves.created _ hcreated, fun hn hid => ?_⟩
  have hn₀ := hc.evolves.noAlias hn
  obtain ⟨ho, w, hw, hgen⟩ := htrack hn₀ hid
  have hother : ¬ Owns u v.id s := fun hou => hu (hc.inv.owns_unique hou ho)
  refine ⟨hc.evolves.owns hu ho, ?_⟩
  rcases hc.row_generation hw with ⟨w', hw', hg⟩ | rfl | ⟨z, rfl⟩
  · exact ⟨w', hw', hg.trans hgen⟩
  · exact absurd (hc.permitted hn₀).1 hother
  · exact absurd (hc.permitted.2.2.2.2.2.2 hn₀).1 hother

def Op.isSettling : Op → Bool
  | .kill _ | .stopDNS _ => true
  | .update _ e => e.whole.isNone
  | o => o.isQuery

theorem Queries.settling {α : Type} {p : Prog α} (h : Queries p) :
    p.Uses fun o => o.isSettling = true := by
  refine h.mono fun o ho => ?_
  cases o <;> first | rfl | cases ho

theorem OwnedCall.locks_settling (hc : OwnedCall D t s o r s') (ho : o.isSettling = true) :
    s'.locks = s.locks ∧ s'.booting = s.booting ∧ s'.monitored = s.monitored := by
  cases effect_of_exec hc.exec with
  | plain | refused | edited | killed => exact ⟨rfl, rfl, rfl⟩
  | _ => cases ho

theorem Tracked.own (h : Tracked t v current s)
    (hc : OwnedCall D t s o r s') (ho : o.isSettling = true) : Tracked t v current s' := by
  refine ⟨hc.evolves.created _ h.1, fun hn hid => ?_⟩
  obtain ⟨hown, w, hw, hgen⟩ := h.2 (hc.evolves.noAlias hn) hid
  obtain ⟨hlocks, hboot, hmon⟩ := hc.locks_settling ho
  refine ⟨?_, ?_⟩
  · unfold Owns
    rwa [hlocks, hboot, hmon]
  · rcases hc.row_generation hw with ⟨w', hw', hg⟩ | rfl | ⟨z, rfl⟩
    · exact ⟨w', hw', hg.trans hgen⟩
    · cases ho
    · cases ho

/-- What a destructive call of `finish` finds: the record still has the generation. -/
def FinishesCurrent (v : Sandbox) (_ : List (Call Op Op.Reply)) (s : Host) (o : Op) (_ : o.Reply) :
    Prop :=
  o.isDestructive = true → Inv s → s.NoAlias → (∃ name, (v.id, name) ∈ s.created) →
    ∃ w, s.store.row v.id = some w ∧ w.generation = v.generation

theorem finishesCurrent_of_harmless {calls : List (Call Op Op.Reply)}
    (ho : o.isDestructive = false) : FinishesCurrent v calls s o r := by
  intro h
  rw [ho] at h
  cases h

def Matches (v current : Sandbox) : Prop :=
  current.id = v.id ∨ current.name = v.id ∨ GoText.hasPrefix current.id v.id = true

theorem Tracked.finishesCurrent {calls : List (Call Op Op.Reply)}
    (hm : Matches v current) (h : Tracked t v current s) : FinishesCurrent v calls s o r := by
  rintro - hi hn ⟨name, hname⟩
  have hid : current.id = v.id := by
    rcases hm with hm | hm | hm
    · exact hm
    · exact hn _ h.1 _ hname hm
    · exact eq_of_hasPrefix_of_isID (hi.ids _ h.1) (hi.ids _ hname) hm
  exact (h.2 hn hid).2

variable {ok : Host → (o : Op) → o.Reply → Bool} {calls : List (Call Op Op.Reply)}

theorem outline_settling {α : Type} {f : o.Reply → Prog α}
    {post : List (Call Op Op.Reply) → α → Host → Prop} (hm : Matches v current)
    (hs : Tracked t v current s) (ho : o.isSettling = true)
    (h : ∀ r s₁, Tracked t v current s₁ →
      (stewardship D).Outline ok t (FinishesCurrent v) post (calls ++ [⟨o, r⟩]) (f r) s₁) :
    (stewardship D).Outline ok t (FinishesCurrent v) post calls (op o >>= f) s :=
  steward_call (stable_tracked v current) hs fun _ r s₂ hc _ hs₁ _ =>
    ⟨hs₁.finishesCurrent hm, h r s₂ (hs₁.own hc ho)⟩

theorem outline_queries {α β : Type} {p : Prog α} {f : α → Prog β}
    {post : List (Call Op Op.Reply) → β → Host → Prop} (hm : Matches v current)
    (hs : Tracked t v current s) (hp : Queries p)
    (h : ∀ a calls' s₁, Tracked t v current s₁ →
      (stewardship D).Outline ok t (FinishesCurrent v) post calls' (f a) s₁) :
    (stewardship D).Outline ok t (FinishesCurrent v) post calls (p >>= f) s := by
  apply Discipline.Outline.bind
  refine (steward_uses hp.settling (stable_tracked v current)
    (fun _ _ _ _ _ ho hc hs => ⟨hs.finishesCurrent hm, hs.own hc ho⟩) hs).weaken
    fun calls' a s₁ hs₁ => h a calls' s₁ hs₁.2

theorem outline_conclude (exit : Exit) (autoRemove : Bool) (hm : Matches v current)
    (hs : Tracked t v current s) :
    (stewardship D).Outline ok t (FinishesCurrent v) (fun _ _ _ => True) calls
      (conclude v exit autoRemove) s := by
  refine outline_settling hm hs rfl fun _ s₁ hs₁ => ?_
  refine outline_queries hm hs₁ (queries_removeResources v) fun errs _ s₂ hs₂ => ?_
  obtain ⟨netErr, vmErr⟩ := errs
  refine outline_settling hm hs₂ rfl fun _ s₃ hs₃ => ?_
  split
  · refine outline_settling hm hs₃ rfl fun
      | some e, _, hs₄ => outline_settling hm hs₄ rfl fun _ _ _ => trivial
      | none, s₄, hs₄ => ?_
    refine outline_settling hm hs₄ rfl fun _ s₅ hs₅ => ?_
    -- Nothing follows the deletion of the record.
    exact steward_call (stable_tracked v current) hs₅ fun _ _ _ _ _ hs₆ _ =>
      ⟨hs₆.finishesCurrent hm, trivial⟩
  · exact trivial

theorem outline_finishLocked (exit : Exit) (hs : Holds t v.id s) :
    (stewardship D).Outline ok t (FinishesCurrent v) (fun _ _ _ => True) calls
      (finishLocked v exit) s := by
  have hP := (records_overlay D).stable (t := t) (robust_holds v.id)
  refine steward_query hP hs rfl fun s₁ got hc _ hs₁ _ =>
    ⟨finishesCurrent_of_harmless rfl, ?_⟩
  cases got with
  | error e => exact trivial
  | ok current => ?_
  obtain ⟨hmem, hm⟩ := Store.get_eq_ok (exec_get hc.exec).2
  obtain ⟨hknown, hrow⟩ := hc.inv.known_of_mem hmem
  dsimp only
  split
  · exact trivial
  rename_i hgen
  have htrack : Tracked t v current s₁ := by
    refine ⟨hknown.1, fun _ hid => ⟨Or.inl hs₁, current, ?_, not_not.1 hgen⟩⟩
    rw [← hid]
    exact hrow
  refine outline_queries hm htrack (queries_requestShutdown v) fun _ _ s₂ hs₂ => ?_
  exact outline_settling hm hs₂ rfl fun
    | some e, _, hs₃ => outline_settling hm hs₃ rfl fun _ _ _ => trivial
    | none, _, hs₃ => outline_conclude exit current.spec.autoRemove hm hs₃

theorem outline_finish (v : Sandbox) (exit : Exit) :
    (stewardship D).Outline ok t (FinishesCurrent v) (fun _ _ _ => True) [] (finish v exit) s := by
  refine steward_locked (Discipline.stable_const _ t True) trivial
    (fun _ _ => finishesCurrent_of_harmless rfl) (fun _ _ => finishesCurrent_of_harmless rfl)
    (fun s₁ _ => ?_) fun s₁ hs₁ => outline_finishLocked exit hs₁
  simp [Holds]

end outline

/-- A `finish` of an old generation destroys and settles nothing, and the generations that
`Start` commits for one sandbox increase. -/
theorem stale_finish_harmless (D : Setup) :
    (∀ (t u : ℕ) (v w : Sandbox) (exit : Exit) (now : Time) (o : Op) (r : o.Reply)
      (next : o.Reply → Prog Unit) (calls : List (Call Op Op.Reply))
      (c₀ c c' c₁ c₁' : Config Host Op Op.Reply), daemonReachable D c₀ →
      (daemon D).During System.anyCall t (finish v exit) c₀ calls (.call o next) c →
      (daemon D).Step c (.run t o r) c' → c.state.NoAlias → daemonReachable D c₁ →
      (daemon D).Step c₁ (.run u (.update v.id (.startCommit w)) (.ok now)) c₁' →
      (daemon D).Runs (fun _ _ => True) c₁' c → v.generation < w.generation →
        o.isDestructive = false) ∧
    ∀ (t₁ t₂ : ℕ) (id : String) (w₁ w₂ : Sandbox) (now₁ now₂ : Time)
      (c₁ c₁' c₂ c₂' : Config Host Op Op.Reply), daemonReachable D c₁ →
      (daemon D).Step c₁ (.run t₁ (.update id (.startCommit w₁)) (.ok now₁)) c₁' →
      (daemon D).Runs (fun _ _ => True) c₁' c₂ → c₂.state.NoAlias →
      (daemon D).Step c₂ (.run t₂ (.update id (.startCommit w₂)) (.ok now₂)) c₂' →
        w₁.generation < w₂.generation := by
  constructor
  · intro t u v w exit now o r next calls c₀ c c' c₁ c₁' h₀ h hs hn h₁ hcommit hruns hlt
    have hreach : daemonReachable D c := h.reachable _ h₀
    obtain ⟨hcreated, hrow⟩ := generation_kept h₁ hcommit hruns hn
    have hown := (Discipline.Outline.own (stewardship_sound D) h₀ (outline_finish v exit) h
      rfl hs).1
    cases ho : o.isDestructive with
    | false => rfl
    | true =>
      obtain ⟨x, hx, hgen⟩ := hown ho (inv_of_reachable hreach) hn hcreated
      have hle := hrow x hx
      omega
  · intro t₁ t₂ id w₁ w₂ now₁ now₂ c₁ c₁' c₂ c₂' h₁ hs₁ hruns hn hs₂
    have hreach : daemonReachable D c₂ :=
      System.Reachable.runs _ (h₁.step _ hs₁) hruns
    obtain ⟨_, hrow⟩ := generation_kept h₁ hs₁ hruns hn
    have hp : editPermit t₂ c₂.state id (.startCommit w₂) := (ownership_sound D).permit hreach hs₂
    have hexec : exec D t₂ c₂.state (.update id (.startCommit w₂)) (.ok now₂) = some c₂'.state :=
      (daemon D).exec_of_step hs₂
    obtain ⟨x, _, hx, _⟩ := exec_update hexec
    have hle := hrow x hx
    have hprev := (hp.2.2.2.2.2.2 hn).2 x hx
    have hpos := hp.2.2.2.1
    omega

namespace Sample

def commitBy (u : ℕ) (c : Config Host Op Op.Reply) :
    Option (String × Sandbox × Config Host Op Op.Reply) :=
  match c.threads u with
  | .call (.update i (.startCommit w)) next =>
    (exec setup u c.state (.update i (.startCommit w)) (.ok 0)).map fun s =>
      (i, w, (daemon setup).resume c u (.update i (.startCommit w)) (next (.ok 0)) s)
  | _ => none

theorem step_of_commitBy {u : ℕ} {c c' : Config Host Op Op.Reply} {i : String} {w : Sandbox}
    (h : commitBy u c = some (i, w, c')) :
    (daemon setup).Step c (.run u (.update i (.startCommit w)) (.ok 0)) c' := by
  unfold commitBy at h
  split at h
  · rename_i ht
    obtain ⟨s, hs, heq⟩ := Option.map_eq_some_iff.1 h
    obtain ⟨rfl, rfl, rfl⟩ : _ ∧ _ ∧ _ := by simpa using heq
    exact .run ht hs
  · cases h

def forcedBy : List (Call Op Op.Reply) → Option (Sandbox × Time)
  | [⟨.get _, .ok v⟩, ⟨.update _ .stopping, _⟩, ⟨.external (.client _), some _⟩,
      ⟨.external .now, n⟩] => some (v, n)
  | _ => none

theorem finish_of_forcedBy {id : String} {calls : List (Call Op Op.Reply)}
    {q : Prog (Option String)} {v : Sandbox} {n : Time} (h : (stop id 0).Makes calls q)
    (hcalls : forcedBy calls = some (v, n)) (hstate : v.state = .running) :
    ∃ f, q = finish v (forcedStop n) >>= f := by
  unfold forcedBy at hcalls
  split at hcalls
  · cases hcalls
    cases h with
    | cons h =>
      dsimp only [Program.bind] at h
      rw [if_neg (by simp [hstate]), if_neg (by simp)] at h
      cases h with
      | cons h =>
      cases h with
      | cons h =>
      cases h with
      | cons h =>
      cases h with
      | nil => exact ⟨_, rfl⟩
  · cases hcalls

/-- A `Stop` reads sandbox `a` in its first generation; the monitor finishes it, and a
`Start` is about to commit the second one. -/
def stopThenRestart : List (System.Move Job) :=
  [.run 5 0, .run 4 1] ++ steps 4 3 ++ [.run 4 1] ++ steps 4 3 ++ [.run 4 1] ++ steps 4 6 ++
    [.request (.start "a")] ++ steps 6 8

def restartThenFinish : List (System.Move Job) := steps 6 12 ++ [.run 5 0, .run 5 1, .run 5 0]

end Sample

open Sample in
theorem stale_finish_harmless_restarted :
    ∃ t u v w exit o r next calls c₀ c c' c₁ c₁', daemonReachable setup c₀ ∧
      (daemon setup).During System.anyCall t (finish v exit) c₀ calls (.call o next) c ∧
      (daemon setup).Step c (.run t o r) c' ∧ c.state.NoAlias ∧ daemonReachable setup c₁ ∧
      (daemon setup).Step c₁ (.run u (.update v.id (.startCommit w)) (.ok 0)) c₁' ∧
      (daemon setup).Runs (fun _ _ => True) c₁' c ∧ v.generation < w.generation ∧
      o.isDestructive = false ∧
      ∃ t₀ w₀ cA cA', daemonReachable setup cA ∧
        (daemon setup).Step cA (.run t₀ (.update v.id (.startCommit w₀)) (.ok 0)) cA' ∧
        (daemon setup).Runs (fun _ _ => True) cA' c₁ ∧ w₀.generation < w.generation := by
  let S := (daemon setup).restrict System.anyCall
  have hrun : (((daemon setup).replay reply ((daemon setup).booted Host.initial)
      (createA ++ [.request (.start "a")] ++ steps 3 8)).bind fun cA => (commitBy 3 cA).bind fun pA =>
    ((daemon setup).replay reply pA.2.2 (steps 3 12)).bind fun cB =>
    (S.follow reply 5 (stop "a" 0) (S.start cB (.stop "a" 0)) stopThenRestart).bind fun f₁ =>
    (commitBy 6 f₁.2.2).bind fun p => (S.follow reply 5 f₁.2.1 p.2.2 restartThenFinish).bind fun f₂ =>
    (forcedBy (f₁.1 ++ f₂.1)).bind fun r =>
    (S.follow reply 5 (finish r.1 (forcedStop r.2)) f₂.2.2 (steps 5 2)).bind fun f₃ =>
    (lastStep System.anyCall 0 (5, f₃.1, f₃.2.1, f₃.2.2)).map fun _ =>
      ((S.accepts cB.state (.stop "a" 0), r.1.state),
        ([cB.count, r.1.generation, p.2.1.generation], [r.1.id, pA.1, p.1]),
        [f₁.2.2.state.created, f₃.2.2.state.created])) =
      some ((true, .running), ([5, 1, 2], [ident 0, ident 0, ident 0]),
        [[(ident 0, "a")], [(ident 0, "a")]]) := by
    decide +kernel
  obtain ⟨cA, hcA, h⟩ := Option.bind_eq_some_iff.1 hrun
  obtain ⟨⟨i₀, w₀, cA'⟩, hcommitA, h⟩ := Option.bind_eq_some_iff.1 h
  obtain ⟨cB, hcB, h⟩ := Option.bind_eq_some_iff.1 h
  obtain ⟨⟨calls₁, q₁, c₁⟩, hf₁, h⟩ := Option.bind_eq_some_iff.1 h
  obtain ⟨⟨i, w, c₁'⟩, hcommit, h⟩ := Option.bind_eq_some_iff.1 h
  obtain ⟨⟨calls₂, q₂, c₀⟩, hf₂, h⟩ := Option.bind_eq_some_iff.1 h
  obtain ⟨⟨v, n⟩, hforced, h⟩ := Option.bind_eq_some_iff.1 h
  obtain ⟨⟨calls, q, c⟩, hf, h⟩ := Option.bind_eq_some_iff.1 h
  obtain ⟨⟨a, s⟩, hlast, hfacts⟩ := Option.map_eq_some_iff.1 h
  simp only [Prod.mk.injEq, List.cons.injEq, and_true] at hfacts
  obtain ⟨⟨haccepts, hstate⟩, ⟨⟨hcount, hgen, hgen'⟩, hv, hi₀, hi⟩, hcreated₁, hcreated⟩ := hfacts
  subst hi₀ hi
  have hsA := step_of_commitBy hcommitA
  have hs₁ := step_of_commitBy hcommit
  have hreachA : daemonReachable setup cA := ⟨_, rfl, System.replay_runs _ hcA⟩
  have hreachB : daemonReachable setup ((daemon setup).start cB (.stop "a" 0)) :=
    System.Reachable.step _ (System.Reachable.runs _ (hreachA.step _ hsA)
      (System.replay_runs _ hcB)) (.request haccepts)
  have hstop : (daemon setup).During System.anyCall 5 (stop "a" 0)
      ((daemon setup).start cB (.stop "a" 0)) [] (stop "a" 0)
      ((daemon setup).start cB (.stop "a" 0)) := by
    rw [← hcount]
    exact System.During.request (daemon setup) (k := fun _ => pure ()) rfl
  have hstop₁ := hstop.follow _ hf₁
  have hstop₂ := System.During.other hstop₁ (l := .run 6 _ _) (by simp [Label.elsewhere]) rfl hs₁
  have hrest := (hstop₂.rest _).follow _ hf₂
  have hstop₃ := hstop₂.follow _ hf₂
  obtain ⟨f, rfl⟩ := finish_of_forcedBy (hstop₃.makes _) hforced hstate
  have hfinish := (hstop₃.inner _).follow _ hf
  obtain ⟨o, next, r, c', rfl, _, hs, _, rfl⟩ := step_of_lastStep hfinish hlast
  have hreach₁ : daemonReachable setup c₁ := hstop₁.reachable _ hreachB
  have hreach₀ : daemonReachable setup c₀ := hstop₃.reachable _ hreachB
  have hn : c.state.NoAlias := by
    unfold Host.NoAlias
    rw [hcreated]
    decide
  have hn₁ : c₁.state.NoAlias := by
    unfold Host.NoAlias
    rw [hcreated₁]
    decide
  have hruns : (daemon setup).Runs (fun _ _ => True) c₁' c :=
    System.Runs.mono _ ((hrest.runs _).trans (hfinish.runs _)) fun _ _ _ => trivial
  have hrunsA : (daemon setup).Runs (fun _ _ => True) cA' c₁ :=
    ((System.replay_runs _ hcB).tail ⟨_, trivial, .request haccepts⟩).trans
      (System.Runs.mono _ (hstop₁.runs _) fun _ _ _ => trivial)
  rw [← hv] at hsA hs₁
  have hlt : v.generation < w.generation := by omega
  exact ⟨5, 6, v, w, forcedStop n, o, r, next, calls, c₀, c, c', c₁, c₁', hreach₀, hfinish, hs, hn,
    hreach₁, hs₁, hruns, hlt,
    (stale_finish_harmless setup).1 5 6 v w _ 0 o r next calls c₀ c c' c₁ c₁' hreach₀ hfinish hs
      hn hreach₁ hs₁ hruns hlt,
    3, w₀, cA, cA', hreachA, hsA, hrunsA,
    (stale_finish_harmless setup).2 3 6 v.id w₀ w 0 0 cA cA' c₁ c₁' hreachA hsA hrunsA hn₁ hs₁⟩

end Niflhel
