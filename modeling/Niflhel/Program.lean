import Mathlib.Logic.Relation
import Mathlib.Logic.Function.Basic
import Mathlib.Order.Nat
import Mathlib.Tactic.Common

/-!
# Sequential programs as trees of atomic calls

A program either returns or performs one atomic call and continues with the reply. The
calls and the types of their replies are parameters. Programs form a monad, so that
code with early returns can be written with `do`.
-/

namespace Concurrent

inductive Program (Op : Type) (Reply : Op → Type) (α : Type) where
  | pure (a : α)
  | call (o : Op) (next : Reply o → Program Op Reply α)

namespace Program
variable {Op : Type} {Reply : Op → Type} {α β γ : Type}

def bind : Program Op Reply α → (α → Program Op Reply β) → Program Op Reply β
  | .pure a, f => f a
  | .call o next, f => .call o fun r => (next r).bind f

instance : Monad (Program Op Reply) where
  pure := .pure
  bind := bind

def perform (o : Op) : Program Op Reply (Reply o) := .call o .pure

def Uses (allowed : Op → Prop) : Program Op Reply α → Prop
  | .pure _ => True
  | .call o next => allowed o ∧ ∀ r, (next r).Uses allowed

theorem uses_true (p : Program Op Reply α) : p.Uses fun _ => True := by
  induction p with
  | pure a => trivial
  | call o next ih => exact ⟨trivial, ih⟩

variable {allowed : Op → Prop} {p : Program Op Reply α}

theorem uses_bind {f : α → Program Op Reply β}
    (hp : p.Uses allowed) (hf : ∀ a, (f a).Uses allowed) : (p >>= f).Uses allowed := by
  induction p with
  | pure a => exact hf a
  | call o next ih => exact ⟨hp.1, fun r => ih r (hp.2 r)⟩

theorem uses_pure (a : α) : (Pure.pure a : Program Op Reply α).Uses allowed := trivial

theorem uses_perform {o : Op} {f : Reply o → Program Op Reply α}
    (ho : allowed o) (hf : ∀ r, (f r).Uses allowed) : (perform o >>= f).Uses allowed := ⟨ho, hf⟩

theorem Uses.mono {allowed' : Op → Prop}
    (h : p.Uses allowed) (hsub : ∀ o, allowed o → allowed' o) : p.Uses allowed' := by
  induction p with
  | pure a => trivial
  | call o next ih => exact ⟨hsub o h.1, fun r => ih r (h.2 r)⟩

theorem bind_assoc (p : Program Op Reply α) (f : α → Program Op Reply β)
    (g : β → Program Op Reply γ) : p >>= f >>= g = p >>= fun a => f a >>= g := by
  induction p with
  | pure a => rfl
  | call o next ih => exact congrArg (Program.call o) (funext ih)

theorem bind_pure (p : Program Op Reply α) : (p >>= Pure.pure) = p := by
  induction p with
  | pure a => rfl
  | call o next ih => exact congrArg (Program.call o) (funext ih)

section expand
variable {Op' : Type} {Reply' : Op' → Type} (steps : (o : Op) → Program Op' Reply' (Reply o))

/-- Replaces every call by a program of finer calls. -/
def expand : Program Op Reply α → Program Op' Reply' α
  | .pure a => .pure a
  | .call o next => steps o >>= fun r => (next r).expand

theorem expand_bind (p : Program Op Reply α) (f : α → Program Op Reply β) :
    (p >>= f).expand steps = p.expand steps >>= fun a => (f a).expand steps := by
  induction p with
  | pure a => rfl
  | call o next ih =>
    have hnext : (fun r => (next r >>= f).expand steps) =
        fun r => (next r).expand steps >>= fun a => (f a).expand steps := funext ih
    change (steps o >>= fun r => (next r >>= f).expand steps) = _
    rw [hnext, ← bind_assoc]
    rfl

theorem uses_expand {allowed' : Op' → Prop}
    (hp : p.Uses allowed) (hsteps : ∀ o, allowed o → (steps o).Uses allowed') :
    (p.expand steps).Uses allowed' := by
  induction p with
  | pure a => trivial
  | call o next ih => exact uses_bind (hsteps o hp.1) fun r => ih r (hp.2 r)

end expand

section runOn
variable {σ : Type}

/-- Execution without interference, against a state that answers every call. -/
def runOn (answer : (o : Op) → σ → Reply o × σ) : Program Op Reply α → σ → α × σ
  | .pure a, s => (a, s)
  | .call o next, s => (next (answer o s).1).runOn answer (answer o s).2

theorem runOn_bind {answer : (o : Op) → σ → Reply o × σ} (p : Program Op Reply α)
    (f : α → Program Op Reply β) (s : σ) :
    (p >>= f).runOn answer s = (f (p.runOn answer s).1).runOn answer (p.runOn answer s).2 := by
  induction p generalizing s with
  | pure a => rfl
  | call o next ih => exact ih _ _

theorem runOn_perform_bind {answer : (o : Op) → σ → Reply o × σ} {o : Op}
    (f : Reply o → Program Op Reply α) (s : σ) :
    (perform o >>= f).runOn answer s = (f (answer o s).1).runOn answer (answer o s).2 := rfl

end runOn
end Program
end Concurrent
