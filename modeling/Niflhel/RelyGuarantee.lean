import Niflhel.Pool

/-!
# Rely-guarantee reasoning for thread pools

A discipline states once what each call may assume: `permit t s o r` holds whenever
thread `t` performs `o` in state `s` and gets `r`. A program is `Safe` for a thread when
all of its calls are permitted under interference, that is, whatever permitted calls the
other threads perform in between. If every job is safe, then every step of every run is
permitted and the discipline's invariant holds in every reachable state.
-/

namespace Concurrent
open Relation

variable {State Op Job : Type} {Reply : Op → Type}

structure Discipline (S : System State Op Reply Job) where
  inv : State → Prop
  permit : ℕ → State → (o : Op) → Reply o → Prop
  /-- What a thread that was never started may rely on. -/
  fresh : ℕ → State → Prop
  /-- What a job may assume when its thread starts. -/
  pre : Job → ℕ → State → Prop
  inv_step : ∀ {t s o r s'}, inv s → permit t s o r → S.exec t s o r = some s' → inv s'
  fresh_step : ∀ {t u s o r s'}, u ≠ t → inv s → permit t s o r → S.exec t s o r = some s' →
    fresh u s → fresh u s'

namespace Discipline
variable {S : System State Op Reply Job} (D : Discipline S) {α β : Type}

def Interferes (t : ℕ) (s s' : State) : Prop :=
  D.inv s ∧ ∃ u o r, u ≠ t ∧ D.permit u s o r ∧ S.exec u s o r = some s'

def Rely (t : ℕ) : State → State → Prop := ReflTransGen (D.Interferes t)

def Stable (t : ℕ) (P : State → Prop) : Prop := ∀ s s', D.Interferes t s s' → P s → P s'

def Persistent (F : State → Prop) : Prop :=
  ∀ t s o r s', D.inv s → D.permit t s o r → S.exec t s o r = some s' → F s → F s'

/-- All calls of the program are permitted under interference, and it returns with the
postcondition. -/
def Safe (t : ℕ) (post : α → State → Prop) : Program Op Reply α → State → Prop
  | .pure a, s => post a s
  | .call o next, s => ∀ s₁, D.Rely t s s₁ → D.inv s₁ → ∀ r s₂, S.exec t s₁ o r = some s₂ →
      D.permit t s₁ o r ∧ (∀ j, S.forks o = some j → ∀ u, D.pre j u s₂) ∧ Safe t post (next r) s₂

abbrev Respects (t : ℕ) (p : Program Op Reply α) (s : State) : Prop :=
  D.Safe t (fun _ _ => True) p s

/-- What soundness maintains: the invariant, safety of every thread, and that threads
not yet started are fresh. -/
structure Guarded (c : Config State Op Reply) : Prop where
  inv : D.inv c.state
  safe : ∀ t, D.Respects t (c.threads t) c.state
  fresh : ∀ t, c.count ≤ t → D.fresh t c.state
  idle : ∀ t, c.count ≤ t → c.threads t = .pure ()

structure Sound (init : State → Prop) : Prop where
  boots : ∀ s, init s → D.inv s ∧ D.pre S.boot 0 s ∧ ∀ t, D.fresh t s
  crashes : ∀ s, D.inv s →
    D.inv (S.crash s) ∧ D.pre S.boot 0 (S.crash s) ∧ ∀ t, D.fresh t (S.crash s)
  accepts : ∀ s j, D.inv s → S.accepts s j = true → ∀ t, D.pre j t s
  jobs : ∀ j t s, D.inv s → D.pre j t s → D.fresh t s →
    D.Respects t (S.code j) s

theorem stable_const (t : ℕ) (p : Prop) : D.Stable t fun _ => p := fun _ _ _ h => h

variable {D} {P F : State → Prop} {o : Op} {p : Program Op Reply α} {t : ℕ} {s s' : State}
  {post : α → State → Prop}

theorem Stable.rely (h : D.Stable t P) (hr : D.Rely t s s') (hs : P s) : P s' := by
  induction hr with
  | refl => exact hs
  | tail _ hi ih => exact h _ _ hi ih

theorem safe_ret {a : α} (h : post a s) : D.Safe t post (pure a : Program Op Reply α) s := h

theorem Safe.step {next : Reply o → Program Op Reply α} (hP : D.Stable t P) (hs : P s)
    (h : ∀ s₁, D.inv s₁ → P s₁ → ∀ r s₂, S.exec t s₁ o r = some s₂ → D.permit t s₁ o r ∧
      (∀ j, S.forks o = some j → ∀ u, D.pre j u s₂) ∧ D.Safe t post (next r) s₂) :
    D.Safe t post (.call o next) s :=
  fun s₁ hr hi r s₂ hx => h s₁ hi (hP.rely hr hs) r s₂ hx

theorem Safe.bind {post' : β → State → Prop} {f : α → Program Op Reply β}
    (hp : D.Safe t post p s) (hf : ∀ a s', post a s' → D.Safe t post' (f a) s') :
    D.Safe t post' (p >>= f) s := by
  induction p generalizing s with
  | pure a => exact hf a s hp
  | call o next ih =>
    intro s₁ hr hi r s₂ hx
    obtain ⟨hperm, hpre, hnext⟩ := hp s₁ hr hi r s₂ hx
    exact ⟨hperm, hpre, ih r hnext⟩

theorem Safe.weaken {post' : α → State → Prop} (hp : D.Safe t post p s)
    (h : ∀ a s', post a s' → post' a s') : D.Safe t post' p s := by
  induction p generalizing s with
  | pure a => exact h a s hp
  | call o next ih =>
    intro s₁ hr hi r s₂ hx
    obtain ⟨hperm, hpre, hnext⟩ := hp s₁ hr hi r s₂ hx
    exact ⟨hperm, hpre, ih r hnext⟩

theorem Persistent.stable (h : D.Persistent F) (t : ℕ) : D.Stable t F := by
  rintro s s' ⟨hi, u, o, r, _, hp, hx⟩ hs
  exact h u s o r s' hi hp hx hs

/-- The frame rule: an assertion kept by the program's own calls and by interference
still holds when the program returns. -/
theorem Safe.frame {allowed : Op → Prop} (h : D.Safe t post p s) (hF : D.Stable t F)
    (hp : p.Uses allowed)
    (hkeep : ∀ o r s s', allowed o → D.inv s → D.permit t s o r → S.exec t s o r = some s' →
      F s → F s') (hs : F s) : D.Safe t (fun a s' => post a s' ∧ F s') p s := by
  induction p generalizing s with
  | pure a => exact ⟨h, hs⟩
  | call o next ih =>
    intro s₁ hr hi r s₂ hx
    obtain ⟨hperm, hpre, hnext⟩ := h s₁ hr hi r s₂ hx
    have hs₁ : F s₁ := hF.rely hr hs
    exact ⟨hperm, hpre, ih r hnext (hp.2 r) (hkeep o r s₁ s₂ hp.1 hi hperm hx hs₁)⟩

theorem Safe.persist (h : D.Safe t post p s) (hF : D.Persistent F) (hs : F s) : D.Safe t (fun a s' => post a s' ∧ F s') p s :=
  h.frame (hF.stable t) p.uses_true (fun o r s s' _ => hF t s o r s') hs

theorem safe_of_uses {allowed : Op → Prop} (hP : D.Stable t P) (hp : p.Uses allowed)
    (hstep : ∀ o r s s', allowed o → D.inv s → P s → S.exec t s o r = some s' →
      D.permit t s o r ∧ (∀ j, S.forks o = some j → ∀ u, D.pre j u s') ∧ P s')
    (hs : P s) : D.Safe t (fun _ s' => P s') p s := by
  induction p generalizing s with
  | pure a => exact hs
  | call o next ih =>
    intro s₁ hr hi r s₂ hx
    obtain ⟨hperm, hpre, hs₂⟩ := hstep o r s₁ s₂ hp.1 hi (hP.rely hr hs) hx
    exact ⟨hperm, hpre, ih r (hp.2 r) hs₂⟩

/-- Interference by a permitted call keeps a thread safe. -/
theorem Safe.interfere (hpost : ∀ a, D.Stable t (post a)) (hp : D.Safe t post p s)
    (hi : D.Interferes t s s') : D.Safe t post p s' := by
  cases p with
  | pure a => exact hpost a s s' hi hp
  | call o next => exact fun s₁ hr => hp s₁ (ReflTransGen.head hi hr)

variable {init : State → Prop} {c c' : Config State Op Reply}

theorem Sound.guarded_booted (h : D.Sound init) (hi : D.inv s)
    (hp : D.pre S.boot 0 s) (hf : ∀ t, D.fresh t s) : D.Guarded (S.booted s) := by
  refine ⟨hi, fun t => ?_, fun t _ => hf t, fun t ht => ?_⟩
  · by_cases ht : t = 0
    · subst t
      simpa [System.booted] using h.jobs S.boot 0 s hi hp (hf 0)
    · simp [System.booted, ht, Safe]
  · have ht' : t ≠ 0 := by
      intro he
      subst t
      exact absurd ht (by simp [System.booted])
    simp [System.booted, ht']

theorem Guarded.start (h : D.Sound init) (hg : D.Guarded c) {j : Job}
    (hp : D.pre j c.count c.state) : D.Guarded (S.start c j) := by
  refine ⟨hg.inv, fun t => ?_, fun t ht => hg.fresh t (Nat.le_of_succ_le ht), fun t ht => ?_⟩
  · by_cases ht : t = c.count
    · subst t
      simpa [System.start] using h.jobs j c.count c.state hg.inv hp (hg.fresh _ le_rfl)
    · simpa [System.start, ht] using hg.safe t
  · have hlt : c.count < t := ht
    have hne : t ≠ c.count := hlt.ne'
    simpa [System.start, hne] using hg.idle t hlt.le

variable {r : Reply o}

theorem Guarded.permit (hg : D.Guarded c) {next : Reply o → Program Op Reply Unit}
    (ht : c.threads t = .call o next) (hx : S.exec t c.state o r = some s) :
    D.permit t c.state o r ∧ (∀ j, S.forks o = some j → ∀ u, D.pre j u s) ∧
      D.Respects t (next r) s := by
  have hs := hg.safe t
  rw [ht] at hs
  exact hs c.state .refl hg.inv r s hx

theorem Guarded.replace (hg : D.Guarded c) {next : Reply o → Program Op Reply Unit}
    (ht : c.threads t = .call o next) (hx : S.exec t c.state o r = some s) :
    D.Guarded ⟨s, Function.update c.threads t (next r), c.count⟩ := by
  obtain ⟨hperm, _, hnext⟩ := hg.permit ht hx
  have hlt : t < c.count := by
    by_contra hge
    rw [hg.idle t (not_lt.1 hge)] at ht
    cases ht
  refine ⟨D.inv_step hg.inv hperm hx, fun u => ?_, fun u hu => ?_, fun u hu => ?_⟩
  · by_cases hu : u = t
    · subst u
      simpa using hnext
    · simpa [hu] using (hg.safe u).interfere (fun _ => D.stable_const u True)
        ⟨hg.inv, t, o, r, Ne.symm hu, hperm, hx⟩
  · exact D.fresh_step (hlt.trans_le hu).ne' hg.inv hperm hx (hg.fresh u hu)
  · have hne : u ≠ t := (hlt.trans_le hu).ne'
    simpa [hne] using hg.idle u hu

theorem Guarded.step (h : D.Sound init) (hg : D.Guarded c) {l : Label Op Reply Job}
    (hs : S.Step c l c') : D.Guarded c' := by
  cases hs with
  | @run t o next r s ht hx =>
    have hrep := hg.replace ht hx
    cases hf : S.forks o with
    | none => simpa [System.resume, hf] using hrep
    | some j =>
      have hp := (hg.permit ht hx).2.1 j hf c.count
      simpa [System.resume, hf, System.start] using Guarded.start h hrep hp
  | request hj => exact hg.start h (h.accepts _ _ hg.inv hj _)
  | crash =>
    obtain ⟨hi, hp, hf⟩ := h.crashes _ hg.inv
    exact h.guarded_booted hi hp hf

/-- Soundness: every reachable configuration is guarded. -/
theorem Sound.guarded (h : D.Sound init) (hc : S.Reachable init c) : D.Guarded c := by
  refine System.Reachable.induct S (fun s hi => ?_) (fun _ _ _ _ hg hs => hg.step h hs) hc
  obtain ⟨hinv, hp, hf⟩ := h.boots s hi
  exact h.guarded_booted hinv hp hf

/-- Soundness: every call of every run is permitted where it happens. -/
theorem Sound.permit (h : D.Sound init) (hc : S.Reachable init c)
    (hs : S.Step c (.run t o r) c') : D.permit t c.state o r := by
  cases hs with
  | run ht hx => exact ((h.guarded hc).permit ht hx).1

/-- What a thread returns with in a guarded pool, it returns with in every run that does not
crash, if the postcondition is stable. -/
theorem Sound.tracked (h : D.Sound init) (hc : S.Reachable init c)
    {post : Unit → State → Prop} (hpost : ∀ a, D.Stable t (post a))
    (hp : D.Safe t post (c.threads t) c.state) (hlt : t < c.count)
    (hr : S.Runs (fun _ l => l ≠ .crash) c c') : D.Safe t post (c'.threads t) c'.state := by
  suffices hall : S.Reachable init c' ∧ t < c'.count ∧ D.Safe t post (c'.threads t) c'.state from hall.2.2
  induction hr with
  | refl => exact ⟨hc, hlt, hp⟩
  | tail _ hlast ih =>
    obtain ⟨hreach, hlt, hsafe⟩ := ih
    obtain ⟨l, hok, hstep⟩ := hlast
    have hguarded := h.guarded hreach
    refine ⟨hreach.step S hstep, ?_⟩
    cases hstep with
    | @run u o next r s hu hx =>
      obtain ⟨hperm, -, -⟩ := hguarded.permit hu hx
      rw [System.resume_state]
      by_cases hut : u = t
      · subst hut
        obtain ⟨hthread, hlt'⟩ := S.resume_self hlt o (next r) s
        rw [hthread]
        rw [hu] at hsafe
        exact ⟨hlt', (hsafe _ .refl hguarded.inv r s hx).2.2⟩
      · obtain ⟨hthread, hlt'⟩ := S.resume_other (Ne.symm hut) hlt o (next r) s
        rw [hthread]
        exact ⟨hlt', hsafe.interfere hpost ⟨hguarded.inv, u, o, r, hut, hperm, hx⟩⟩
    | request hj => exact ⟨Nat.lt_succ_of_lt hlt, by simpa [System.start, hlt.ne] using hsafe⟩
    | crash => exact absurd rfl hok

section enforced
variable (D)

open Classical in
/-- The system whose calls are all permitted, from states with the invariant. A further
discipline for this system may use both at every call. -/
noncomputable def enforced : System State Op Reply Job :=
  { S with exec := fun t s o r => if D.inv s ∧ D.permit t s o r then S.exec t s o r else none }

theorem enforced_exec_eq_some : D.enforced.exec t s o r = some s' ↔
      (D.inv s ∧ D.permit t s o r) ∧ S.exec t s o r = some s' := by
  simp only [enforced]
  split_ifs with h
  · simp [h]
  · simp [h]

end enforced

theorem Sound.enforced_step (h : D.Sound init) (hc : S.Reachable init c) {l : Label Op Reply Job}
    (hs : S.Step c l c') : D.enforced.Step c l c' := by
  cases hs with
  | run ht hx =>
    have hperm := ((h.guarded hc).permit ht hx).1
    exact .run (S := D.enforced) ht
      (D.enforced_exec_eq_some.2 ⟨⟨(h.guarded hc).inv, hperm⟩, hx⟩)
  | request hj => exact .request (S := D.enforced) hj
  | crash => exact .crash (S := D.enforced)

/-- The runs of a system with a sound discipline are runs of the enforced system. -/
theorem Sound.enforced_runs (h : D.Sound init) (hs : init s)
    {ok : Config State Op Reply → Label Op Reply Job → Prop} (hr : S.Runs ok (S.booted s) c) :
    D.enforced.Runs ok (D.enforced.booted s) c := by
  induction hr with
  | refl => exact .refl
  | tail hrun hlast ih =>
    obtain ⟨l, hok, hstep⟩ := hlast
    have hreach : S.Reachable init _ :=
      System.Reachable.runs S ⟨s, hs, .refl⟩ hrun
    exact ih.tail ⟨l, hok, h.enforced_step hreach hstep⟩

section extend
variable (D) (E : Discipline D.enforced)

def extend : Discipline S where
  inv s := D.inv s ∧ E.inv s
  permit t s o r := D.permit t s o r ∧ E.permit t s o r
  fresh t s := D.fresh t s ∧ E.fresh t s
  pre j t s := D.pre j t s ∧ E.pre j t s
  inv_step hi hp hx := ⟨D.inv_step hi.1 hp.1 hx,
    E.inv_step hi.2 hp.2 (D.enforced_exec_eq_some.2 ⟨⟨hi.1, hp.1⟩, hx⟩)⟩
  fresh_step hu hi hp hx hf := ⟨D.fresh_step hu hi.1 hp.1 hx hf.1,
    E.fresh_step hu hi.2 hp.2 (D.enforced_exec_eq_some.2 ⟨⟨hi.1, hp.1⟩, hx⟩) hf.2⟩

variable {D E}

theorem interferes_extend (h : (D.extend E).Interferes t s s') :
    D.Interferes t s s' ∧ E.Interferes t s s' := by
  obtain ⟨hi, u, o, r, hu, hp, hx⟩ := h
  exact ⟨⟨hi.1, u, o, r, hu, hp.1, hx⟩,
    ⟨hi.2, u, o, r, hu, hp.2, D.enforced_exec_eq_some.2 ⟨⟨hi.1, hp.1⟩, hx⟩⟩⟩

theorem Safe.extend {post' : α → State → Prop} (hd : D.Safe t post p s) (he : E.Safe t post' p s) :
    (D.extend E).Safe t (fun a s' => post a s' ∧ post' a s') p s := by
  induction p generalizing s with
  | pure a => exact ⟨hd, he⟩
  | call o next ih =>
    intro s₁ hr hi r s₂ hx
    have hrd : D.Rely t s s₁ := ReflTransGen.mono (fun _ _ h => (interferes_extend h).1) _ _ hr
    have hre : E.Rely t s s₁ := ReflTransGen.mono (fun _ _ h => (interferes_extend h).2) _ _ hr
    obtain ⟨hperm, hpre, hnext⟩ := hd s₁ hrd hi.1 r s₂ hx
    obtain ⟨hperm', hpre', hnext'⟩ := he s₁ hre hi.2 r s₂
      (D.enforced_exec_eq_some.2 ⟨⟨hi.1, hperm⟩, hx⟩)
    exact ⟨⟨hperm, hperm'⟩, fun j hj u => ⟨hpre j hj u, hpre' j hj u⟩, ih r hnext hnext'⟩

theorem Sound.extend (hd : D.Sound init) (he : E.Sound init) : (D.extend E).Sound init where
  boots s hs := by
    obtain ⟨hi, hp, hf⟩ := hd.boots s hs
    obtain ⟨hi', hp', hf'⟩ := he.boots s hs
    exact ⟨⟨hi, hi'⟩, ⟨hp, hp'⟩, fun t => ⟨hf t, hf' t⟩⟩
  crashes s hs := by
    obtain ⟨hi, hp, hf⟩ := hd.crashes s hs.1
    obtain ⟨hi', hp', hf'⟩ := he.crashes s hs.2
    exact ⟨⟨hi, hi'⟩, ⟨hp, hp'⟩, fun t => ⟨hf t, hf' t⟩⟩
  accepts s j hs hj t := ⟨hd.accepts s j hs.1 hj t, he.accepts s j hs.2 hj t⟩
  jobs j t s hs hp hf :=
    ((hd.jobs j t s hs.1 hp.1 hf.1).extend (he.jobs j t s hs.2 hp.2 hf.2)).weaken fun _ _ _ => trivial

end extend
end Discipline
end Concurrent
