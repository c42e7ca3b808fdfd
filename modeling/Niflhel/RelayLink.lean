import Niflhel.Links
import Niflhel.Relay

/-!
# The relay as a link

A client and a guest with the relay between them. Frames that fit and do not end a session
are carried upward in order as long as all ends are open.
-/

namespace Niflhel
namespace Relay
open Links

structure Relayed where
  relay : State := start
  clientRead : ℕ := 0
  guestRead : ℕ := 0
  deriving DecidableEq, Repr

inductive Hop where
  | down (late : Bool)
  | up (late : Bool)
  | main
  deriving DecidableEq, Repr

def Hop.action : Hop → Action
  | .down late => .down late
  | .up late => .up late
  | .main => .main

def Control.held : Control → List Frame
  | .send f => [f]
  | _ => []

def Line.frame? : Line → Option Frame
  | .frame f => some f
  | .bad _ => none

def partySend (size : Frame → ℕ) (s : Stream) (late : Bool) (f : Frame) : Option String × Stream :=
  if size f > maxFrame then (some "frame too large", s)
  else
    match s.arrive (.frame f) with
    | some s => (none, s)
    | none => (if late && !s.hungUp then none else some "broken pipe", s)

def partyRecv (s : Stream) (n : ℕ) : Option (Except String Frame × Stream × ℕ) :=
  if s.hungUp then some (.error "use of closed network connection", s, n)
  else
    match s.written[n]? with
    | some f => some (.ok f, s, n + 1)
    | none => if s.closed then some (.error "EOF", { s with hungUp := true }, n) else none

def link (size : Frame → ℕ) : Link Frame String Relayed Hop where
  clientSend s late f :=
    let (r, a) := partySend size s.relay.a late f
    (r, { s with relay := { s.relay with a := a } })
  clientRecv s := (partyRecv s.relay.a s.clientRead).map fun (r, a, n) =>
    (r, { s with relay := { s.relay with a := a }, clientRead := n })
  clientClose s := { s with relay := { s.relay with a := { s.relay.a with hungUp := true } } }
  peerSend s late f :=
    let (r, b) := partySend size s.relay.b late f
    (r, { s with relay := { s.relay with b := b } })
  peerRecv s := (partyRecv s.relay.b s.guestRead).map fun (r, b, n) =>
    (r, { s with relay := { s.relay with b := b }, guestRead := n })
  peerClose s := { s with relay := { s.relay with b := { s.relay.b with hungUp := true } } }
  move s h := (step size s.relay h.action).map fun r => { s with relay := r }
  upward s := s.relay.b.written.drop s.guestRead ++ s.relay.up.held ++
    s.relay.a.inbox.filterMap Line.frame?
  downward s := s.relay.a.written.drop s.clientRead ++ s.relay.down.held ++
    s.relay.b.inbox.filterMap Line.frame?
  isOpen s := !s.relay.a.closed && !s.relay.a.hungUp && !s.relay.b.closed && !s.relay.b.hungUp

def Fits (size : Frame → ℕ) (f : Frame) : Prop := size f ≤ maxFrame ∧ terminal f = false

/-- While all ends are open, the upward loop holds and finds frames that fit. -/
structure Carrying (size : Frame → ℕ) (s : Relayed) : Prop where
  read : s.guestRead ≤ s.relay.b.written.length
  loop : (link size).isOpen s = true → s.relay.up = .recv ∨ ∃ f, s.relay.up = .send f ∧ Fits size f
  inbox : (link size).isOpen s = true → ∀ l ∈ s.relay.a.inbox, ∃ f, l = .frame f ∧ Fits size f

section link
variable {size : Frame → ℕ} {s s' : Relayed}

theorem link_isOpen : (link size).isOpen s = true ↔
    (s.relay.a.closed = false ∧ s.relay.a.hungUp = false) ∧
      s.relay.b.closed = false ∧ s.relay.b.hungUp = false := by
  simp [link, and_assoc]

theorem carrying_start : Carrying size {} :=
  ⟨Nat.zero_le _, fun _ => Or.inl rfl, fun _ => nofun⟩

theorem carrying_closed (hread : s.guestRead ≤ s.relay.b.written.length)
    (hclosed : (link size).isOpen s = false) : Carrying size s := by
  refine ⟨hread, fun hopen => ?_, fun hopen => ?_⟩ <;> simp [hclosed] at hopen

variable {f : Frame}

theorem drop_written {w : List Frame} {n : ℕ} (h : n ≤ w.length) :
    (w ++ [f]).drop n = w.drop n ++ [f] :=
  List.drop_append_of_le_length h

theorem keeps_closed (hread : s'.guestRead ≤ s'.relay.b.written.length)
    (hclosed : ¬ ((s'.relay.a.closed = false ∧ s'.relay.a.hungUp = false) ∧
      s'.relay.b.closed = false ∧ s'.relay.b.hungUp = false)) :
    (link size).Keeps (Carrying size) s s' := by
  have hopen : ¬ (link size).isOpen s' = true := mt link_isOpen.1 hclosed
  exact ⟨⟨hread, fun h => absurd h hopen, fun h => absurd h hopen⟩, fun h => absurd h hopen⟩

theorem Carrying.fits_held (h : Carrying size s) (ho : (link size).isOpen s = true)
    (hup : s.relay.up = .send f) : Fits size f := by
  rcases h.loop ho with hrecv | ⟨g, hsend, hfits⟩
  · rw [hup] at hrecv
    cases hrecv
  · rw [hup] at hsend
    cases hsend
    exact hfits

variable {late : Bool}

/-- A step of the upward loop moves a frame on. -/
theorem Carrying.up {c : Copy} (h : Carrying size s)
    (hc : Copied size late s.relay.b s.relay.a s.relay.done s.relay.up c) :
    (link size).Keeps (Carrying size) s { s with relay := { s.relay with
      b := c.dst, a := c.src, up := c.control, done := c.done } } := by
  generalize hup : s.relay.up = control at hc
  cases hc with
  | @received f rest hbuf hin =>
    -- The frame is taken from the inbox into the hand of the loop.
    have hopen : (link size).isOpen { s with relay := { s.relay with
        b := s.relay.b, a := { s.relay.a with inbox := rest }, up := .send f } } = true →
        (link size).isOpen s = true := id
    refine ⟨⟨h.read, fun ho => Or.inr ⟨f, rfl, ?_⟩, fun ho l hl => ?_⟩, fun ho => ⟨hopen ho, ?_⟩⟩
    · obtain ⟨g, hg, hfits⟩ := h.inbox (hopen ho) (.frame f) (by simp [hin])
      cases hg
      exact hfits
    · exact h.inbox (hopen ho) l (by simp [hin, show l ∈ rest from hl])
    · simp [link, hup, hin, Control.held, Line.frame?]
  | refused hin =>
    refine ⟨⟨h.read, fun ho => ?_, fun ho => ?_⟩, fun ho => ?_⟩ <;>
    · obtain ⟨g, hg, _⟩ := h.inbox (show (link size).isOpen s = true from ho) _ (by rw [hin]; exact List.mem_cons_self ..)
      cases hg
  | ended hin hgone => exact keeps_closed h.read fun ho => by simp [Stream.close] at ho
  | cut hclosed => exact keeps_closed h.read fun ho => by simp [hclosed] at ho
  | @sent f hfit hopen hgone =>
    have hs : (link size).isOpen { s with relay := { s.relay with
        b := { s.relay.b with written := s.relay.b.written ++ [f] }, up := .after f } } = true →
        (link size).isOpen s = true := id
    have hafter : (link size).isOpen s = true → Control.after f = .recv := fun ho =>
      if_neg (by simp [(h.fits_held ho hup).2])
    refine ⟨⟨?_, fun ho => Or.inl (hafter (hs ho)), h.inbox⟩, fun ho => ⟨hs ho, ?_⟩⟩
    · change s.guestRead ≤ (s.relay.b.written ++ [f]).length
      rw [List.length_append]
      exact h.read.trans (Nat.le_add_right _ _)
    · simp only [link, hup, hafter (hs ho), drop_written h.read, Control.held, List.append_nil]
  | vanished hfit hopen hlate hgone => exact keeps_closed h.read fun ho => by simp [hgone] at ho
  | failed hwhy =>
    by_cases hs : (link size).isOpen s = true
    · have hfit := (h.fits_held hs hup).1
      obtain ⟨_, hb, hbh⟩ := link_isOpen.1 hs
      rcases hwhy with hsize | hclosed | hgone
      · omega
      · simp [hclosed] at hb
      · simp [hgone] at hbh
    · exact keeps_closed h.read fun ho => hs (link_isOpen.2 ho)
  | reported =>
    refine keeps_closed h.read fun ho => ?_
    rcases h.loop (link_isOpen.2 ho) with hrecv | ⟨f, hsend, _⟩
    · rw [hup] at hrecv
      cases hrecv
    · rw [hup] at hsend
      cases hsend

theorem Carrying.down {c : Copy} (h : Carrying size s)
    (hc : Copied size late s.relay.a s.relay.b s.relay.done s.relay.down c) :
    (link size).Keeps (Carrying size) s { s with relay := { s.relay with
      a := c.dst, b := c.src, down := c.control, done := c.done } } := by
  generalize hdown : s.relay.down = control at hc
  cases hc with
  | ended hin hgone => exact keeps_closed h.read fun ho => by simp [Stream.close] at ho
  | _ => exact ⟨⟨h.read, h.loop, h.inbox⟩, fun ho => ⟨ho, rfl⟩⟩

theorem Carrying.main {r : State} (h : Carrying size s) (hr : mainStep s.relay = some r) :
    (link size).Keeps (Carrying size) s { s with relay := r } := by
  unfold mainStep at hr
  split at hr
  · split at hr
    · cases hr
    · cases hr
      exact ⟨⟨h.read, h.loop, h.inbox⟩, fun ho => ⟨ho, rfl⟩⟩
  · cases hr
    exact keeps_closed h.read fun ho => by simp [Stream.close] at ho
  · cases hr
    exact keeps_closed h.read fun ho => by simp [Stream.close] at ho
  · split at hr
    · cases hr
    · cases hr
      exact ⟨⟨h.read, h.loop, h.inbox⟩, fun ho => ⟨ho, rfl⟩⟩
  · cases hr

theorem Carrying.move {hop : Hop} (h : Carrying size s) (hm : (link size).move s hop = some s') :
    (link size).Keeps (Carrying size) s s' := by
  obtain ⟨r, hr, rfl⟩ := Option.map_eq_some_iff.1 hm
  cases hop with
  | down late =>
    obtain ⟨c, hc, rfl⟩ := Option.map_eq_some_iff.1 hr
    exact h.down (copied_of_copyFrames hc)
  | up late =>
    obtain ⟨c, hc, rfl⟩ := Option.map_eq_some_iff.1 hr
    exact h.up (copied_of_copyFrames hc)
  | main => exact h.main hr

theorem partySend_open {t : Stream} (hfit : size f ≤ maxFrame)
    (hclosed : t.closed = false) (hgone : t.hungUp = false) :
    partySend size t late f =
      (none, { t with arrived := t.arrived ++ [.frame f], inbox := t.inbox ++ [.frame f] }) := by
  simp [partySend, Stream.arrive, hclosed, hgone, Nat.not_lt.2 hfit]

/-- A party's `Send` adds at most a frame, and closes nothing. -/
theorem partySend_cases (size : Frame → ℕ) (t : Stream) (late : Bool) (f : Frame) :
    (partySend size t late f).2 = t ∨ (partySend size t late f).2 =
      { t with arrived := t.arrived ++ [.frame f], inbox := t.inbox ++ [.frame f] } := by
  unfold partySend Stream.arrive
  split_ifs <;> simp

theorem partyRecv_ok {t t' : Stream} {n n' : ℕ} (h : partyRecv t n = some (.ok f, t', n')) :
    t' = t ∧ n' = n + 1 ∧ t.written[n]? = some f := by
  unfold partyRecv at h
  split at h
  · cases h
  · split at h
    · rename_i g hg
      cases h
      exact ⟨rfl, rfl, hg⟩
    · split at h <;> cases h

theorem partyRecv_error {t t' : Stream} {n n' : ℕ} {e : String}
    (h : partyRecv t n = some (.error e, t', n')) :
    t'.hungUp = true ∧ t'.written = t.written ∧ n' = n := by
  unfold partyRecv at h
  split at h
  · rename_i hgone
    cases h
    exact ⟨hgone, rfl, rfl⟩
  · split at h
    · cases h
    · split at h
      · cases h
        exact ⟨rfl, rfl, rfl⟩
      · cases h

theorem link_clientSend {r : Option String} (h : (link size).clientSend s late f = (r, s')) :
    (partySend size s.relay.a late f).1 = r ∧
      s' = { s with relay := { s.relay with a := (partySend size s.relay.a late f).2 } } :=
  ⟨congrArg Prod.fst h, (congrArg Prod.snd h).symm⟩

theorem link_peerSend {r : Option String} (h : (link size).peerSend s late f = (r, s')) :
    s' = { s with relay := { s.relay with b := (partySend size s.relay.b late f).2 } } :=
  (congrArg Prod.snd h).symm

theorem Carrying.clientSend (h : Carrying size s) (hfits : Fits size f) :
    Carrying size { s with relay := { s.relay with a := (partySend size s.relay.a late f).2 } } := by
  rcases partySend_cases size s.relay.a late f with heq | heq
  · rw [heq]
    exact h
  · rw [heq]
    refine ⟨h.read, h.loop, fun ho l hl => ?_⟩
    rcases List.mem_append.1 hl with hl | hl
    · exact h.inbox ho l hl
    · exact ⟨f, List.mem_singleton.1 hl, hfits⟩

theorem link_isOpen_clientSend : (link size).isOpen
        { s with relay := { s.relay with a := (partySend size s.relay.a late f).2 } } =
      (link size).isOpen s := by
  rcases partySend_cases size s.relay.a late f with heq | heq
  · rw [heq]
  · rw [heq]
    rfl

theorem Carrying.idle (h : Carrying size s) (hidle : (link size).Idle s) :
    s.relay.up = .recv ∧ s.relay.a.inbox = [] ∧ s.guestRead = s.relay.b.written.length := by
  have hnil : s.relay.b.written.drop s.guestRead ++ s.relay.up.held ++
      s.relay.a.inbox.filterMap Line.frame? = [] := hidle.upward
  obtain ⟨hrest, hinbox⟩ := List.append_eq_nil_iff.1 hnil
  obtain ⟨hdrop, hheld⟩ := List.append_eq_nil_iff.1 hrest
  refine ⟨?_, ?_, le_antisymm h.read (List.drop_eq_nil_iff.1 hdrop)⟩
  · rcases h.loop hidle.isOpen with hrecv | ⟨f, hsend, _⟩
    · exact hrecv
    · rw [hsend] at hheld
      cases hheld
  · cases hin : s.relay.a.inbox with
    | nil => rfl
    | cons l rest =>
      obtain ⟨f, rfl, _⟩ := h.inbox hidle.isOpen l (by simp [hin])
      rw [hin] at hinbox
      cases hinbox

theorem link_lawful : (link size).Lawful (Fits size) (Carrying size) where
  sent := by
    intro s late f s' h hfits hs
    obtain ⟨_, rfl⟩ := link_clientSend hs
    refine ⟨h.clientSend hfits, fun ho => ?_⟩
    rw [link_isOpen_clientSend] at ho
    obtain ⟨⟨ha, hah⟩, _⟩ := link_isOpen.1 ho
    refine ⟨ho, ?_⟩
    rw [partySend_open hfits.1 ha hah]
    simp [link, Line.frame?]
  unsent := by
    intro s late f e s' h hfits hs
    obtain ⟨hfail, rfl⟩ := link_clientSend hs
    refine ⟨h.clientSend hfits, Bool.eq_false_iff.2 fun ho => ?_⟩
    rw [link_isOpen_clientSend] at ho
    obtain ⟨⟨ha, hah⟩, _⟩ := link_isOpen.1 ho
    rw [partySend_open hfits.1 ha hah] at hfail
    cases hfail
  received := by
    intro s f s' h hs
    obtain ⟨⟨r, b, n⟩, hr, heq⟩ := Option.map_eq_some_iff.1 hs
    cases heq
    obtain ⟨rfl, rfl, hget⟩ := partyRecv_ok hr
    obtain ⟨hlt, hf⟩ := List.getElem?_eq_some_iff.1 hget
    refine ⟨⟨hlt, h.loop, h.inbox⟩, fun ho => ⟨ho, ?_⟩⟩
    simp only [link]
    rw [List.drop_eq_getElem_cons hlt, hf]
    rfl
  ended := by
    intro s e s' h hs
    obtain ⟨⟨r, b, n⟩, hr, heq⟩ := Option.map_eq_some_iff.1 hs
    cases heq
    obtain ⟨hgone, hwritten, rfl⟩ := partyRecv_error hr
    have hclosed : (link size).isOpen
        { s with relay := { s.relay with b := b }, guestRead := s.guestRead } = false := by
      simp [link, hgone]
    refine ⟨carrying_closed ?_ hclosed, hclosed⟩
    rw [hwritten]
    exact h.read
  clientRecv := by
    intro s r s' h hs
    obtain ⟨⟨r', a, n⟩, hr, heq⟩ := Option.map_eq_some_iff.1 hs
    obtain ⟨rfl, rfl⟩ := Prod.mk.inj heq
    cases r' with
    | ok f =>
      obtain ⟨rfl, rfl, _⟩ := partyRecv_ok hr
      exact ⟨⟨h.read, h.loop, h.inbox⟩, fun ho => ⟨ho, rfl⟩⟩
    | error e =>
      obtain ⟨hgone, _, _⟩ := partyRecv_error hr
      exact keeps_closed h.read fun ho => by simp [hgone] at ho
  peerSend := by
    intro s late f r s' h hs
    obtain rfl := link_peerSend hs
    rcases partySend_cases size s.relay.b late f with heq | heq
    · rw [heq]
      exact ⟨h, fun ho => ⟨ho, rfl⟩⟩
    · rw [heq]
      exact ⟨⟨h.read, h.loop, h.inbox⟩, fun ho => ⟨ho, rfl⟩⟩
  move := Carrying.move
  clientClose := by
    intro s h
    have hclosed : (link size).isOpen ((link size).clientClose s) = false := by simp [link]
    exact ⟨carrying_closed h.read hclosed, hclosed⟩
  peerClose := by
    intro s h
    have hclosed : (link size).isOpen ((link size).peerClose s) = false := by simp [link]
    exact ⟨carrying_closed h.read hclosed, hclosed⟩
  carries := by
    intro s f h hfits hidle
    obtain ⟨⟨ha, hah⟩, hb, hbh⟩ := link_isOpen.1 hidle.isOpen
    obtain ⟨hup, hinbox, hread⟩ := h.idle hidle
    have hafter : Control.after f = .recv := if_neg (by simp [hfits.2])
    let a₁ : Stream := { s.relay.a with arrived := s.relay.a.arrived ++ [.frame f], inbox := [.frame f] }
    let b₁ : Stream := { s.relay.b with written := s.relay.b.written ++ [f] }
    refine ⟨{ s with relay := { s.relay with a := a₁ } }, [.up false, .up false],
      { s with relay := { s.relay with a := { a₁ with inbox := [] }, b := b₁ } },
      { s with relay := { s.relay with a := { a₁ with inbox := [] }, b := b₁ }, guestRead := s.guestRead + 1 },
      ?_, ?_, ?_, ⟨?_, fun _ => Or.inl hup, fun _ => nofun⟩, hidle.isOpen, ?_, hidle.downward⟩
    · simp [link, partySend_open hfits.1 ha hah, hinbox, a₁]
    · simp [Link.moves, link, Hop.action, step, copyFrames, Stream.recv, Stream.send, hup, ha, hb, hbh, a₁, b₁, hafter, Nat.not_lt.2 hfits.1]
    · simp [link, partyRecv, hbh, b₁, hread]
    · simp [b₁, hread]
    · simp [link, b₁, hread, hup, Control.held]

end link

end Relay
end Niflhel
