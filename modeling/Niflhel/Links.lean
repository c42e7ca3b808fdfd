import Mathlib.Data.List.Basic
import Mathlib.Tactic.Common

/-!
# Links between two parties

A link carries messages between a client and a peer in both directions, directly or through
something in between that takes steps of its own. A lawful link keeps the messages in order
and loses none as long as it is open, and it closes rather than failing an operation.
-/

namespace Links

/-- `upward` and `downward` are the messages in flight. A message sent after the other party
has closed may still be accepted and lost, if `late`. -/
structure Link (α ε σ ι : Type) where
  clientSend : σ → Bool → α → Option ε × σ
  clientRecv : σ → Option (Except ε α × σ)
  clientClose : σ → σ
  peerSend : σ → Bool → α → Option ε × σ
  peerRecv : σ → Option (Except ε α × σ)
  peerClose : σ → σ
  move : σ → ι → Option σ
  upward : σ → List α
  downward : σ → List α
  isOpen : σ → Bool

variable {α ε σ ι : Type}

structure Link.Idle (L : Link α ε σ ι) (s : σ) : Prop where
  isOpen : L.isOpen s = true
  upward : L.upward s = []
  downward : L.downward s = []

def Link.moves (L : Link α ε σ ι) : σ → List ι → Option σ
  | s, [] => some s
  | s, i :: is => (L.move s i).bind fun s' => L.moves s' is

structure Link.Keeps (L : Link α ε σ ι) (I : σ → Prop) (s s' : σ) : Prop where
  inv : I s'
  upward : L.isOpen s' = true → L.isOpen s = true ∧ L.upward s' = L.upward s

/-- The laws of a link for messages that fit, where `I` holds in all its states. -/
structure Link.Lawful (L : Link α ε σ ι) (fits : α → Prop) (I : σ → Prop) : Prop where
  sent : ∀ {s late a s'}, I s → fits a → L.clientSend s late a = (none, s') → I s' ∧
    (L.isOpen s' = true → L.isOpen s = true ∧ L.upward s' = L.upward s ++ [a])
  unsent : ∀ {s late a e s'}, I s → fits a → L.clientSend s late a = (some e, s') →
    I s' ∧ L.isOpen s' = false
  received : ∀ {s a s'}, I s → L.peerRecv s = some (.ok a, s') → I s' ∧
    (L.isOpen s' = true → L.isOpen s = true ∧ L.upward s = a :: L.upward s')
  ended : ∀ {s e s'}, I s → L.peerRecv s = some (.error e, s') → I s' ∧ L.isOpen s' = false
  clientRecv : ∀ {s r s'}, I s → L.clientRecv s = some (r, s') → L.Keeps I s s'
  peerSend : ∀ {s late a r s'}, I s → L.peerSend s late a = (r, s') → L.Keeps I s s'
  move : ∀ {s i s'}, I s → L.move s i = some s' → L.Keeps I s s'
  clientClose : ∀ {s}, I s → I (L.clientClose s) ∧ L.isOpen (L.clientClose s) = false
  peerClose : ∀ {s}, I s → I (L.peerClose s) ∧ L.isOpen (L.peerClose s) = false
  /-- A message sent on an idle link can be delivered. -/
  carries : ∀ {s a}, I s → fits a → L.Idle s → ∃ s₁ is s₂ s₃, L.clientSend s false a = (none, s₁) ∧
    L.moves s₁ is = some s₂ ∧ L.peerRecv s₂ = some (.ok a, s₃) ∧ I s₃ ∧ L.Idle s₃

structure Wire (α : Type) where
  up : List α := []
  down : List α := []
  clientClosed : Bool := false
  peerClosed : Bool := false
  deriving DecidableEq, Repr

structure Errors (ε : Type) where
  tooLarge : ε
  closed : ε
  broken : ε
  eof : ε

def transmit (err : Errors ε) (fits : α → Bool) (closed gone late : Bool) (a : α) (queue : List α) :
    Option ε × List α :=
  if !fits a then (some err.tooLarge, queue)
  else if closed then (some err.closed, queue)
  else if gone then (if late then none else some err.broken, queue)
  else (none, queue ++ [a])

def accept (err : Errors ε) (closed gone : Bool) (queue : List α) : Option (Except ε α × List α) :=
  if closed then some (.error err.closed, queue)
  else
    match queue with
    | a :: rest => some (.ok a, rest)
    | [] => if gone then some (.error err.eof, []) else none

/-- Two parties on one connection. A failed `Recv` closes it. -/
def wire (err : Errors ε) (fits : α → Bool) : Link α ε (Wire α) Empty where
  clientSend s late a :=
    let (r, up) := transmit err fits s.clientClosed s.peerClosed late a s.up
    (r, { s with up := up })
  clientRecv s := (accept err s.clientClosed s.peerClosed s.down).map fun (r, down) =>
    (r, { s with down := down, clientClosed := s.clientClosed || !r.toBool })
  clientClose s := { s with clientClosed := true }
  peerSend s late a :=
    let (r, down) := transmit err fits s.peerClosed s.clientClosed late a s.down
    (r, { s with down := down })
  peerRecv s := (accept err s.peerClosed s.clientClosed s.up).map fun (r, up) =>
    (r, { s with up := up, peerClosed := s.peerClosed || !r.toBool })
  peerClose s := { s with peerClosed := true }
  move _ i := i.elim
  upward s := s.up
  downward s := s.down
  isOpen s := !s.clientClosed && !s.peerClosed

section wire
variable {err : Errors ε} {fits : α → Bool} {closed gone late : Bool} {a : α} {queue queue' : List α}

theorem transmit_open (hfits : fits a = true) :
    transmit err fits false false late a queue = (none, queue ++ [a]) := by
  simp [transmit, hfits]

theorem accept_eq_ok (h : accept err closed gone queue = some (.ok a, queue')) :
    queue = a :: queue' := by
  unfold accept at h
  split at h
  · cases h
  · split at h
    · cases h
      rfl
    · split at h <;> cases h

theorem wire_isOpen {s : Wire α} :
    (wire err fits).isOpen s = true ↔ s.clientClosed = false ∧ s.peerClosed = false := by
  simp [wire]

theorem wire_clientSend {s s' : Wire α} {r : Option ε} (h : (wire err fits).clientSend s late a = (r, s')) :
    (transmit err fits s.clientClosed s.peerClosed late a s.up).1 = r ∧
      s' = { s with up := (transmit err fits s.clientClosed s.peerClosed late a s.up).2 } :=
  ⟨congrArg Prod.fst h, (congrArg Prod.snd h).symm⟩

theorem wire_lawful : (wire err fits).Lawful (fun a => fits a = true) fun _ => True where
  sent := by
    intro s late a s' _ hfits h
    refine ⟨trivial, fun hopen => ?_⟩
    obtain ⟨_, rfl⟩ := wire_clientSend h
    obtain ⟨hclient, hpeer⟩ := wire_isOpen.1 hopen
    refine ⟨wire_isOpen.2 ⟨hclient, hpeer⟩, ?_⟩
    rw [hclient, hpeer, transmit_open hfits]
    rfl
  unsent := by
    intro s late a e s' _ hfits h
    obtain ⟨hfail, rfl⟩ := wire_clientSend h
    refine ⟨trivial, Bool.eq_false_iff.2 fun hopen => ?_⟩
    obtain ⟨hclient, hpeer⟩ := wire_isOpen.1 hopen
    rw [hclient, hpeer, transmit_open hfits] at hfail
    cases hfail
  received := by
    intro s a s' _ h
    obtain ⟨⟨r, up⟩, hr, heq⟩ := Option.map_eq_some_iff.1 h
    cases heq
    refine ⟨trivial, fun hopen => ?_⟩
    obtain ⟨hclient, hpeer⟩ := wire_isOpen.1 hopen
    refine ⟨wire_isOpen.2 ⟨hclient, (Bool.or_eq_false_iff.1 hpeer).1⟩, accept_eq_ok hr⟩
  ended := by
    intro s e s' _ h
    obtain ⟨⟨r, up⟩, hr, heq⟩ := Option.map_eq_some_iff.1 h
    cases heq
    exact ⟨trivial, by simp [wire, Except.toBool]⟩
  clientRecv := by
    intro s r s' _ h
    obtain ⟨⟨r', down⟩, hr, heq⟩ := Option.map_eq_some_iff.1 h
    cases heq
    refine ⟨trivial, fun hopen => ?_⟩
    obtain ⟨hclient, hpeer⟩ := wire_isOpen.1 hopen
    exact ⟨wire_isOpen.2 ⟨(Bool.or_eq_false_iff.1 hclient).1, hpeer⟩, rfl⟩
  peerSend := by
    intro s late a r s' _ h
    obtain ⟨_, rfl⟩ := Prod.mk.inj h
    exact ⟨trivial, fun hopen => ⟨hopen, rfl⟩⟩
  move := by
    intro s i
    exact i.elim
  clientClose := by
    intro s _
    exact ⟨trivial, rfl⟩
  peerClose := by
    intro s _
    exact ⟨trivial, by simp [wire]⟩
  carries := by
    intro s a _ hfits hidle
    obtain ⟨hclient, hpeer⟩ := wire_isOpen.1 hidle.isOpen
    have hup : s.up = [] := hidle.upward
    have hdown : s.down = [] := hidle.downward
    refine ⟨{ s with up := [a] }, [], { s with up := [a] }, { s with up := [] }, ?_, rfl, ?_, trivial, ?_⟩
    · simp [wire, hclient, hpeer, transmit_open hfits, hup]
    · simp [wire, accept, hclient, hpeer, Except.toBool]
    · exact ⟨wire_isOpen.2 ⟨hclient, hpeer⟩, rfl, hdown⟩

end wire

end Links
