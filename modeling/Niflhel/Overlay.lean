import Niflhel.Guarantees
import Niflhel.Operation

/-!
# Further disciplines on top of the lock discipline

An overlay is a discipline for runs of the daemon that already respect the lock discipline.
It may use ownership at every call, constrains neither queries nor mutexes, and asks
nothing of a thread that another one forks. The rules below are those of `Guarantees`, for an
overlay.
-/

namespace Niflhel
open Concurrent

structure OwnedCall (D : Setup) (t : ℕ) (s : Host) (o : Op) (r : o.Reply) (s' : Host) : Prop where
  inv : Inv s
  permitted : permit t s o r
  exec : exec D t s o r = some s'

theorem enforced_exec {D : Setup} {t : ℕ} {s s' : Host} {o : Op} {r : o.Reply} :
    (ownership D).enforced.exec t s o r = some s' ↔ OwnedCall D t s o r s' := by
  rw [Discipline.enforced_exec_eq_some]
  exact ⟨fun ⟨⟨hi, hp⟩, hx⟩ => ⟨hi, hp, hx⟩, fun h => ⟨⟨h.inv, h.permitted⟩, h.exec⟩⟩

theorem OwnedCall.evolves {D : Setup} {t : ℕ} {s s' : Host} {o : Op} {r : o.Reply}
    (h : OwnedCall D t s o r s') : Evolves t s s' := Niflhel.evolves h.inv h.permitted h.exec

def Op.isNeutral : Op → Bool
  | .lock _ | .unlock _ => true
  | o => o.isQuery

structure Overlay (D : Setup) {S : System Host Op Op.Reply Job} (E : Discipline S) : Prop where
  owned : ∀ {t s o r s'}, S.exec t s o r = some s' → OwnedCall D t s o r s'
  neutral : ∀ {t s o r}, o.isNeutral = true → E.permit t s o r
  pre : ∀ {o j}, S.forks o = some j → ∀ t s, E.pre j t s

theorem exec_query {D : Setup} {t : ℕ} {s s' : Host} {o : Op} {r : o.Reply}
    (ho : o.isQuery = true) (h : exec D t s o r = some s') : s' = s := by
  cases o with
  | external c => exact (Option.some.inj h).symm
  | list => cases r with
    | error e => exact (Option.some.inj h).symm
    | ok all => exact (exec_list h).1
  | get id => cases r with
    | error e => exact (Option.some.inj h).symm
    | ok v => exact (exec_get h).1
  | volume name => cases r with
    | error e => exact (Option.some.inj h).symm
    | ok v =>
      simp only [exec] at h
      split_ifs at h
      exact (Option.some.inj h).symm
  | _ => cases ho

theorem isNeutral_of_isQuery {o : Op} (ho : o.isQuery = true) : o.isNeutral = true := by
  cases o <;> first | rfl | exact ho

namespace Overlay
variable {D : Setup} {S : System Host Op Op.Reply Job} {E : Discipline S} {t : ℕ} {α : Type}
  {post : α → Host → Prop} {P Q : Host → Prop} {s : Host} {o : Op} {f : o.Reply → Prog α}

theorem stable (L : Overlay D E) (h : Robust t P) : E.Stable t P := by
  rintro s s' ⟨_, u, o, r, hu, _, hx⟩ hs
  have hc := L.owned hx
  exact h s s' u hu hc.inv hc.evolves hs

theorem call (L : Overlay D E) (hP : E.Stable t P) (hs : P s)
    (h : ∀ s₁ r s₂, S.exec t s₁ o r = some s₂ → E.inv s₁ → P s₁ → E.permit t s₁ o r ∧
      E.Safe t post (f r) s₂) : E.Safe t post (op o >>= f) s := by
  refine Discipline.Safe.step hP hs fun s₁ hi hs₁ r s₂ hx => ?_
  obtain ⟨hperm, hnext⟩ := h s₁ r s₂ hx hi hs₁
  exact ⟨hperm, fun j hj u => L.pre hj u s₂, hnext⟩

theorem query (L : Overlay D E) (hP : E.Stable t P) (hs : P s) (ho : o.isQuery = true)
    (h : ∀ s₁ r, OwnedCall D t s₁ o r s₁ → E.inv s₁ → P s₁ → E.Safe t post (f r) s₁) :
    E.Safe t post (op o >>= f) s := by
  refine L.call hP hs fun s₁ r s₂ hx hi hs₁ => ⟨L.neutral (isNeutral_of_isQuery ho), ?_⟩
  have hc := L.owned hx
  obtain rfl := exec_query ho hc.exec
  exact h s₂ r hc hi hs₁

theorem queries (L : Overlay D E) {p : Prog α} (hp : Queries p) (hP : E.Stable t P) (hs : P s) :
    E.Safe t (fun _ s' => P s') p s := by
  induction p generalizing s with
  | pure a => exact hs
  | call o next ih => exact L.query hP hs hp.1 fun _ r _ _ hs₁ => ih r (hp.2 r) hs₁

/-- The mutex pattern: a body between a lock and its release. -/
theorem locked (L : Overlay D E) {k : String} {body : Prog α} {R : α → Host → Prop}
    (hP : E.Stable t P) (hs : P s)
    (hlock : ∀ s₁, Inv s₁ → P s₁ → Q { s₁ with locks := Function.update s₁.locks k (some t) })
    (hbody : ∀ s₁, Q s₁ → E.Safe t R body s₁) (hR : ∀ a, E.Stable t (R a))
    (hunlock : ∀ a s₁, Inv s₁ → R a s₁ →
      post a { s₁ with locks := Function.update s₁.locks k none }) :
    E.Safe t post (locked k body) s := by
  unfold Niflhel.locked
  refine L.call hP hs fun s₁ r s₂ hx _ hs₁ => ⟨L.neutral rfl, ?_⟩
  have hc := L.owned hx
  have hlocked := hc.exec
  simp only [exec] at hlocked
  split_ifs at hlocked
  cases hlocked
  refine (hbody _ (hlock s₁ hc.inv hs₁)).bind fun a s₃ hs₃ => ?_
  refine L.call (hR a) hs₃ fun s₄ r' s₅ hx' _ hs₄ => ⟨L.neutral rfl, ?_⟩
  have hc' := L.owned hx'
  have hunlocked := hc'.exec
  simp only [exec] at hunlocked
  split_ifs at hunlocked
  cases hunlocked
  exact hunlock a s₄ hc'.inv hs₄

theorem locked_true (L : Overlay D E) {k : String} {body : Prog α} (hP : E.Stable t P) (hs : P s)
    (hlock : ∀ s₁, Inv s₁ → P s₁ → Q { s₁ with locks := Function.update s₁.locks k (some t) })
    (hbody : ∀ s₁, Q s₁ → E.Respects t body s₁) :
    E.Respects t (Niflhel.locked k body) s :=
  L.locked hP hs hlock hbody (fun _ => E.stable_const t True) fun _ _ _ _ => trivial

theorem allocating (L : Overlay D E) {body : Prog α} (hbody : ∀ s₁, Holds t allocations s₁ →
      E.Respects t body s₁) :
    E.Respects t (Niflhel.locked allocations body) s :=
  L.locked_true (E.stable_const t True) trivial (fun s₁ _ _ => by simp [Holds]) hbody

theorem free (L : Overlay D E) {allowed : Op → Prop} {p : Prog α} (hp : p.Uses allowed)
    (hperm : ∀ o r s, allowed o → E.permit t s o r) : E.Respects t p s :=
  Discipline.safe_of_uses (E.stable_const t True) hp
    (fun o r s s' ho _ _ _ => ⟨hperm o r s ho, fun _ hj u => L.pre hj u s', trivial⟩) trivial

/-- `Create` up to its last disk. The pull decides what is known about the base. -/
theorem prepare (L : Overlay D E) {v : Sandbox} {Q : Base.Bundle → Host → Prop}
    (hP : E.Stable t P) (hQ : ∀ b, E.Stable t (Q b)) (hs : P s)
    (hpull : ∀ s₁ r s₂, S.exec t s₁ (.basesPull v.spec.base v.spec.pull) r = some s₂ → E.inv s₁ →
      P s₁ → E.permit t s₁ (.basesPull v.spec.base v.spec.pull) r ∧
        ∀ b, r.1 = .ok b → Q b s₂) :
    E.Safe t (fun r s' => ∀ w, r = .ok w → ∃ p img b, w = preparedRecord v p img b ∧ Q b s')
      (prepare v) s := by
  have herr : ∀ (e : String) (s₁ : Host), E.Safe t
      (fun r s' => ∀ w, r = .ok w → ∃ p img b, w = preparedRecord v p img b ∧ Q b s')
      (pure (.error e) : Prog (Except String Sandbox)) s₁ := by
    intro e s₁
    refine Discipline.safe_ret fun w hw => ?_
    cases hw
  unfold Niflhel.prepare
  refine L.query hP hs rfl fun
    | s₁, some e, _, _, _ => herr e s₁
    | s₁, none, _, _, hs₁ => ?_
  refine L.query hP hs₁ rfl fun
    | s₂, .error e, _, _, _ => herr e s₂
    | s₂, .ok img, _, _, hs₂ => ?_
  refine L.call hP hs₂ fun s₃ pulled s₄ hx hi hs₃ => ?_
  obtain ⟨hperm, hbase⟩ := hpull s₃ pulled s₄ hx hi hs₃
  refine ⟨hperm, ?_⟩
  obtain ⟨base, fetched, writes⟩ := pulled
  cases base with
  | error e => exact herr e s₄
  | ok b =>
  have hs₄ := hbase b rfl
  dsimp only
  split
  · exact herr _ s₄
  · refine L.query (hQ b) hs₄ rfl fun
      | s₅, some e, _, _, _ => herr e s₅
      | s₅, none, _, _, hs₅ => ?_
    refine L.query (hQ b) hs₅ rfl fun
      | s₆, some e, _, _, _ => herr e s₆
      | s₆, none, _, _, hs₆ => ?_
    refine L.query (hQ b) hs₆ rfl fun
      | s₇, some e, _, _, _ => herr e s₇
      | s₇, none, _, _, hs₇ => ?_
    refine L.query (hQ b) hs₇ rfl fun
      | s₈, some e, _, _, _ => herr e s₈
      | s₈, none, _, _, hs₈ => ?_
    refine Discipline.safe_ret fun w hw => ?_
    exact ⟨_, img, b, (Except.ok.inj hw).symm, hs₈⟩

theorem ignored {p : Prog α} (h : E.Respects t p s) : E.Respects t (ignore p) s :=
  h.bind fun _ _ _ => trivial

end Overlay
end Niflhel
