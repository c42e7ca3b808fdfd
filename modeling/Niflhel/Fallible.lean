import Niflhel.Operation

/-!
# Programs whose calls may fail

Every call fails with a text or returns a value. The environment may fail any call; the
values it may return are given by a law, which may depend on the calls answered before.
`Ensures` is what holds of every run of a program in such an environment, and `Delivers`
what holds of the runs in which nothing fails. `Alike` compares two programs that cannot be
told apart in such an environment.
-/

namespace Concurrent

variable {Op : Type} {Value : Op → Type} {α β : Type}

abbrev Answer (Op : Type) (Value : Op → Type) := Call Op fun o => Except String (Value o)

abbrev Fallible (Op : Type) (Value : Op → Type) :=
  ExceptT String (Program Op fun o => Except String (Value o))

namespace Fallible

def call (o : Op) : Fallible Op Value (Value o) := ExceptT.mk (Program.perform o)

def refuse (c : Prop) [Decidable c] (text : String) : Fallible Op Value Unit :=
  if c then throw text else pure ()

def wrap (text : String) (x : Fallible Op Value α) : Fallible Op Value α :=
  ExceptT.mk (x.run >>= fun r => pure (r.mapError (text ++ ·)))

/-- Runs `x`, then `last` whether or not `x` fails; the first error counts. -/
def andFinally (x : Fallible Op Value α) (last : Fallible Op Value Unit) : Fallible Op Value α :=
  ExceptT.mk (x.run >>= fun r => last.run >>= fun c => pure (r.bind fun a => c.map fun _ => a))

end Fallible

section
variable (law : List (Answer Op Value) → (o : Op) → Value o → Prop)

def Permits (past : List (Answer Op Value)) (o : Op) : Except String (Value o) → Prop
  | .ok v => law past o v
  | .error _ => True

def Answered : List (Answer Op Value) → List (Answer Op Value) → Prop
  | _, [] => True
  | past, c :: calls => Permits law past c.1 c.2 ∧ Answered (past ++ [c]) calls

/-- However the program is answered after the calls `past`, what it returns and the calls
made by then satisfy `Q`. -/
def Ensures (Q : List (Answer Op Value) → α → Prop) :
    List (Answer Op Value) → Program Op (fun o => Except String (Value o)) α → Prop
  | past, .pure a => Q past a
  | past, .call o next => ∀ r, Permits law past o r → Ensures Q (past ++ [⟨o, r⟩]) (next r)

def Returned (Q : List (Answer Op Value) → α → Prop) (past : List (Answer Op Value)) :
    Except String α → Prop
  | .ok a => Q past a
  | .error _ => True

def Delivers (past : List (Answer Op Value)) (x : Fallible Op Value α)
    (Q : List (Answer Op Value) → α → Prop) : Prop :=
  Ensures law (Returned Q) past x.run

/-- Under the law, the two programs make the same calls and return the same. -/
def Alike : List (Answer Op Value) → Program Op (fun o => Except String (Value o)) α →
    Program Op (fun o => Except String (Value o)) α → Prop
  | _, .pure a, .pure b => a = b
  | past, .call o next, q => ∃ other, q = .call o other ∧
      ∀ r, Permits law past o r → Alike (past ++ [⟨o, r⟩]) (next r) (other r)
  | _, .pure _, .call _ _ => False

end

variable {law : List (Answer Op Value) → (o : Op) → Value o → Prop}
  {past : List (Answer Op Value)} {Q R : List (Answer Op Value) → α → Prop}

theorem Ensures.mono {p : Program Op (fun o => Except String (Value o)) α}
    (h : Ensures law Q past p) (hQR : ∀ past a, Q past a → R past a) : Ensures law R past p := by
  induction p generalizing past with
  | pure a => exact hQR past a h
  | call o next ih => exact fun r hr => ih r (h r hr)

theorem ensures_true {p : Program Op (fun o => Except String (Value o)) α} :
    Ensures law (fun _ _ => True) past p := by
  induction p generalizing past with
  | pure a => trivial
  | call o next ih => exact fun r _ => ih r

theorem ensures_bind {Q : List (Answer Op Value) → β → Prop}
    {p : Program Op (fun o => Except String (Value o)) α}
    {f : α → Program Op (fun o => Except String (Value o)) β}
    (h : Ensures law (fun past a => Ensures law Q past (f a)) past p) :
    Ensures law Q past (p >>= f) := by
  induction p generalizing past with
  | pure a => exact h
  | call o next ih => exact fun r hr => ih r (h r hr)

theorem Ensures.of_makes {p : Program Op (fun o => Except String (Value o)) α} {a : α}
    {calls : List (Answer Op Value)} (h : Ensures law Q past p) (hmakes : p.Makes calls (.pure a))
    (hans : Answered law past calls) : Q (past ++ calls) a := by
  induction p generalizing past calls with
  | pure b =>
    cases hmakes
    rwa [List.append_nil]
  | call o next ih =>
    cases hmakes with
    | @cons _ _ r calls _ hmakes =>
      have h := ih r (h r hans.1) hmakes hans.2
      rwa [List.append_assoc, List.singleton_append] at h

/-- The calls made before are still known at the end. -/
theorem Ensures.extends {p : Program Op (fun o => Except String (Value o)) α}
    (h : Ensures law Q past p) :
    Ensures law (fun past' a => past <+: past' ∧ Q past' a) past p := by
  induction p generalizing past with
  | pure a => exact ⟨List.prefix_rfl, h⟩
  | call o next ih =>
    intro r hr
    apply (ih r (h r hr)).mono
    intro past' a ⟨hpast, ha⟩
    exact ⟨(List.prefix_append _ _).trans hpast, ha⟩

variable {x : Fallible Op Value α}

theorem Delivers.mono (h : Delivers law past x Q)
    (hQR : ∀ past a, Q past a → R past a) : Delivers law past x R :=
  Ensures.mono h fun past r hr => match r, hr with
    | .ok a, hr => hQR past a hr
    | .error _, _ => trivial

theorem Delivers.extends (h : Delivers law past x Q) :
    Delivers law past x fun past' a => past <+: past' ∧ Q past' a :=
  (@Ensures.extends Op Value _ law past (Returned Q) _ h).mono fun _ r hr => match r, hr with
    | .ok _, hr => hr
    | .error _, _ => trivial

theorem delivers_pure {a : α} (h : Q past a) : Delivers law past (pure a) Q := h

variable {text : String}

theorem delivers_throw : Delivers law past (throw text) Q := trivial

theorem delivers_bind {f : α → Fallible Op Value β} {Q : List (Answer Op Value) → β → Prop}
    (h : Delivers law past x fun past a => Delivers law past (f a) Q) :
    Delivers law past (x >>= f) Q :=
  ensures_bind (Ensures.mono h fun _ r hr => match r, hr with
    | .ok _, hr => hr
    | .error _, _ => trivial)

theorem delivers_call {o : Op} {Q : List (Answer Op Value) → Value o → Prop}
    (h : ∀ v, law past o v → Q (past ++ [⟨o, .ok v⟩]) v) :
    Delivers law past (Fallible.call o) Q
  | .ok v, hv => h v hv
  | .error _, _ => trivial

theorem delivers_call_bind {o : Op} {f : Value o → Fallible Op Value α}
    (h : ∀ v, law past o v → Delivers law (past ++ [⟨o, .ok v⟩]) (f v) Q) :
    Delivers law past (Fallible.call o >>= f) Q :=
  delivers_bind (delivers_call h)

theorem delivers_refuse_bind {c : Prop} [Decidable c]
    {f : Unit → Fallible Op Value α} (h : ¬ c → Delivers law past (f ()) Q) :
    Delivers law past (Fallible.refuse c text >>= f) Q := by
  apply delivers_bind
  unfold Fallible.refuse
  split
  · exact delivers_throw
  · rename_i hc
    exact delivers_pure (h hc)

theorem delivers_wrap (h : Delivers law past x Q) : Delivers law past (Fallible.wrap text x) Q :=
  ensures_bind (Ensures.mono h fun _ r hr => match r, hr with
    | .ok _, hr => hr
    | .error _, _ => trivial)

theorem delivers_andFinally {last : Fallible Op Value Unit}
    (h : Delivers law past x fun past a => Delivers law past last fun past _ => Q past a) :
    Delivers law past (x.andFinally last) Q := by
  refine ensures_bind (Ensures.mono h fun past r hr => ?_)
  cases r with
  | ok a =>
    exact ensures_bind (Ensures.mono hr fun past c hc => match c, hc with
      | .ok _, hc => hc
      | .error _, _ => trivial)
  | error e => exact ensures_bind (ensures_true.mono fun _ _ _ => trivial)

theorem Delivers.of_makes {a : α} {calls : List (Answer Op Value)}
    (h : Delivers law past x Q) (hmakes : x.run.Makes calls (.pure (.ok a)))
    (hans : Answered law past calls) : Q (past ++ calls) a :=
  @Ensures.of_makes Op Value _ law past (Returned Q) _ _ calls h hmakes hans

theorem Alike.refl (p : Program Op (fun o => Except String (Value o)) α) : Alike law past p p := by
  induction p generalizing past with
  | pure a => rfl
  | call o next ih => exact ⟨next, rfl, fun r _ => ih r⟩

theorem alike_bind {p : Program Op (fun o => Except String (Value o)) α}
    {f g : α → Program Op (fun o => Except String (Value o)) β} (h : Ensures law Q past p)
    (hfg : ∀ past a, Q past a → Alike law past (f a) (g a)) :
    Alike law past (p >>= f) (p >>= g) := by
  induction p generalizing past with
  | pure a => exact hfg past a h
  | call o next ih => exact ⟨fun r => next r >>= g, rfl, fun r hr => ih r (h r hr)⟩

/-- Sequences with the same first part are alike if their rests are, where the first part
has not failed. -/
theorem alike_delivers_bind {f g : α → Fallible Op Value β} (h : Delivers law past x Q)
    (hfg : ∀ past a, Q past a → Alike law past (f a).run (g a).run) :
    Alike law past (x >>= f).run (x >>= g).run :=
  alike_bind h fun _ r hr => match r, hr with
    | .ok a, hr => hfg _ a hr
    | .error _, _ => Alike.refl _

section Follow
variable {Reply : Op → Type} [DecidableEq Op]

def Program.follow : Program Op Reply α → List (Call Op Reply) → Option α
  | .pure a, [] => some a
  | .pure _, _ :: _ => none
  | .call _ _, [] => none
  | .call o next, ⟨o', r⟩ :: calls => if h : o' = o then (next (h ▸ r)).follow calls else none

theorem Program.makes_of_follow {p : Program Op Reply α} {calls : List (Call Op Reply)} {a : α}
    (h : p.follow calls = some a) : p.Makes calls (.pure a) := by
  induction p generalizing calls with
  | pure b =>
    cases calls with
    | nil => cases h; exact .nil
    | cons c calls => cases h
  | call o next ih =>
    cases calls with
    | nil => cases h
    | cons c calls =>
      obtain ⟨o', r⟩ := c
      simp only [follow] at h
      split at h
      · rename_i ho
        subst ho
        exact .cons (ih r h)
      · cases h

end Follow
end Concurrent
