import Niflhel.Archive
import Niflhel.RelayLink

/-!
# Uploads

`cp` to a container and the loading of images and bases send an archive through a session.
In the command one goroutine sends the data and another waits for the reply; the peer, which
is the guest agent behind the relay or the daemon, feeds the data into an extraction and
replies when that is done. A sender whose source fails keeps the error for itself until
there is a reply, and the reply waits for the end of the data: both parties then wait for
each other, unless the extraction fails on the data that was sent.
-/

namespace Niflhel
namespace Upload
open Links Journal

structure Source where
  chunks : List Bytes
  failure : Option String
  short : ∀ c ∈ chunks, c ≠ [] ∧ c.length ≤ chunkSize

def dataFrame (b : Bytes) : Frame := { type := "data", data := b }

def eofFrame : Frame := { type := "eof" }

def errorFrame (m : String) : Frame := { type := "error", message := m }

def Source.frames (src : Source) : List Frame :=
  src.chunks.map dataFrame ++ if src.failure.isNone then [eofFrame] else []

/-- The source of `cp`: the archive of a tree, in frames of at most 32 KiB. -/
def archived {τ : Type} (encode : String → τ → Except String (List Bytes)) (name : String)
    (tree : Filecopy.Node τ) : Source where
  chunks := (Filecopy.archiveFile encode name tree).1.flatMap fun b => pieces b.length b
  failure := (Filecopy.archiveFile encode name tree).2
  short c hc := by
    obtain ⟨b, _, hb⟩ := List.mem_flatMap.1 hc
    exact mem_pieces hb

inductive Service where
  | copyIn
  | load
  deriving DecidableEq, Repr

/-- The party that receives an upload: whether its extraction asks for more after the given
bytes, and its result when the data ends. -/
structure Peer where
  service : Service
  asks : Bytes → Bool
  result : Bytes → Tar.Ending → Option String

def peer {σ : Type} (service : Service) (F : Tar.Format) (fs : Filecopy.FileSystem σ) (st : σ)
    (dest : String) : Peer where
  service := service
  asks := Filecopy.asks F fs st dest
  result b e := (Filecopy.extract F fs st dest ⟨b, e⟩).2

inductive Sender where
  | sending (todo : List Frame)
  | terminated (result : Option String)

inductive Client where
  | receiving
  | waiting
  | returned (result : Option String)

inductive Pump where
  | receiving
  | writing (b : Bytes)
  | stopped

inductive Handler where
  | opening
  | extracting
  | replying (f : Frame)
  | closing
  | finished
  deriving DecidableEq

/-- `pipe` is how the pump has closed the pipe, `consumed` what the extraction has read, and
`received` the frames that the pump has received. -/
structure State (σ : Type) where
  link : σ
  sender : Sender
  client : Client := .receiving
  pump : Pump := .stopped
  pipe : Option Tar.Ending := none
  consumed : Bytes := []
  handler : Handler := .opening
  received : List Frame := []

def start {σ : Type} (link : σ) (src : Source) : State σ :=
  { link, sender := .sending src.frames }

/-- `timeout` is a `Send` that runs into its deadline, and `cancel` the end of the command's
context. After the extraction of an image or a base it is imported, which can fail. -/
inductive Action (ι : Type) where
  | send (late : Bool)
  | timeout
  | clientRecv
  | clientWait
  | cancel
  | move (i : ι)
  | accept
  | refuse (m : String)
  | pumpRecv
  | pumpWrite
  | handle (imported : Except String String)
  | reply (late : Bool)
  | close

variable {σ ι : Type}

def Client.take (service : Service) (f : Frame) : Client :=
  if f.type = "error" then .returned (some f.message)
  else if f.type = "exit" then .waiting
  else
    match service with
    | .load => .receiving
    | .copyIn => .returned (some "invalid copy response")

def State.setClient (L : Link Frame String σ ι) (s : State σ) : Client → State σ
  | .returned e => { s with client := .returned e, link := L.clientClose s.link }
  | c => { s with client := c }

def Service.invalid : Service → String
  | .copyIn => "invalid copy frame"
  | .load => "invalid upload frame"

/-- `CloseWithError`, where `io.EOF` is a regular end. -/
def ending (e : String) : Tar.Ending := if e = "EOF" then .eof else .error e

def State.feed (service : Service) (s : State σ) (f : Frame) : State σ :=
  if f.type = "eof" then { s with pump := .stopped, pipe := some .eof }
  else if f.type ≠ "data" then { s with pump := .stopped, pipe := some (.error service.invalid) }
  else { s with pump := .writing f.data }

def Service.answer (service : Service) (imported : Except String String) : Frame :=
  match service, imported with
  | .copyIn, _ => { type := "exit" }
  | .load, .ok digest => { type := "exit", message := digest }
  | .load, .error m => errorFrame m

def step (L : Link Frame String σ ι) (p : Peer) (src : Source) (s : State σ) :
    Action ι → Option (State σ)
  | .send late =>
    match s.sender with
    | .sending (f :: rest) =>
      match L.clientSend s.link late f with
      | (none, link) => some { s with link := link, sender := .sending rest }
      | (some e, link) => some { s with link := link, sender := .terminated (some e) }
    | .sending [] => some { s with sender := .terminated src.failure }
    | .terminated _ => none
  | .timeout =>
    match s.sender with
    | .sending (_ :: _) => some { s with sender := .terminated (some "i/o timeout") }
    | _ => none
  | .clientRecv =>
    match s.client with
    | .receiving =>
      match L.clientRecv s.link with
      | some (.ok f, link) => some ({ s with link := link }.setClient L (.take p.service f))
      | some (.error e, link) => some ({ s with link := link }.setClient L (.returned (some e)))
      | none => none
    | _ => none
  | .clientWait =>
    match s.client, s.sender with
    | .waiting, .terminated e => some (s.setClient L (.returned e))
    | _, _ => none
  | .cancel => some { s with link := L.clientClose s.link }
  | .move i => (L.move s.link i).map fun link => { s with link := link }
  | .accept =>
    if s.handler = .opening then some { s with handler := .extracting, pump := .receiving } else none
  | .refuse m =>
    if s.handler = .opening then some { s with handler := .replying (errorFrame m) } else none
  | .pumpRecv =>
    match s.pump with
    | .receiving =>
      match L.peerRecv s.link with
      | some (.ok f, link) =>
        some ({ s with link := link, received := s.received ++ [f] }.feed p.service f)
      | some (.error e, link) =>
        some { s with link := link, pump := .stopped, pipe := some (ending e) }
      | none => none
    | _ => none
  | .pumpWrite =>
    match s.pump with
    | .writing b =>
      -- The pipe hands the data to the extraction, or fails once the handler has returned.
      if s.handler = .extracting then
        if p.asks s.consumed then some { s with consumed := s.consumed ++ b, pump := .receiving }
        else none
      else some { s with pump := .stopped }
    | _ => none
  | .handle imported =>
    if s.handler = .extracting ∧ (s.pipe = none → p.asks s.consumed = false) then
      some { s with
        handler := .replying
          (match p.result s.consumed (s.pipe.getD .eof) with
          | some m => errorFrame m
          | none => p.service.answer imported) }
    else none
  | .reply late =>
    match s.handler with
    | .replying f =>
      match L.peerSend s.link late f with
      | (none, link) => some { s with link := link, handler := .closing }
      | (some e, link) =>
        -- The server reports the error of a handler, but not that of its own report.
        some { s with
          link := link, handler := if f.type = "error" then .closing else .replying (errorFrame e) }
    | _ => none
  | .close =>
    if s.handler = .closing then
      some { s with link := L.peerClose s.link, handler := .finished }
    else none

def prompt (_ : State σ) : Action ι → Bool
  | .timeout => false
  | _ => true

/-- The command waits for a reply and the peer for data, and nothing else will happen. -/
structure Stuck (L : Link Frame String σ ι) (p : Peer) (s : State σ) : Prop where
  client : s.client = .receiving
  sender : ∃ e, s.sender = .terminated e
  pump : s.pump = .receiving
  handler : s.handler = .extracting
  pipe : s.pipe = none
  asks : p.asks s.consumed = true
  idle : L.Idle s.link

def Sender.todo : Sender → List Frame
  | .sending todo => todo
  | .terminated _ => []

/-- On an open link every frame has been received, is in flight or is still to be sent. -/
structure Carried (L : Link Frame String σ ι) (I : σ → Prop) (src : Source) (link : σ)
    (todo received : List Frame) : Prop where
  inv : I link
  unsent : todo <:+ src.frames
  carried : L.isOpen link = true → src.frames = received ++ L.upward link ++ todo

structure Asked (p : Peer) (received : List Frame) : Prop where
  data : ∀ f ∈ received, f.type = "data"
  asked : ∀ q, q <+: received → q ≠ received → p.asks (payload q) = true

/-- What the pump has received and the extraction consumed while the pump runs. -/
inductive Fed (p : Peer) : Pump → List Frame → Bytes → Prop where
  | stopped {received : List Frame} {consumed : Bytes} : Fed p .stopped received consumed
  | receiving {received : List Frame} (h : Asked p received) :
      Fed p .receiving received (payload received)
  | writing {received : List Frame} {f : Frame} (h : Asked p received) (hf : f.type = "data") :
      Fed p (.writing f.data) (received ++ [f]) (payload received)

structure Inv (L : Link Frame String σ ι) (I : σ → Prop) (p : Peer) (src : Source) (s : State σ) :
    Prop where
  carried : Carried L I src s.link s.sender.todo s.received
  fed : Fed p s.pump s.received s.consumed
  fresh : s.handler = .opening → s.pump = .stopped ∧ s.received = [] ∧ s.consumed = []

section
variable {L : Link Frame String σ ι} {I : σ → Prop} {fits : Frame → Prop} {p : Peer} {src : Source}
  {s s' : State σ} {link link' : σ} {todo received : List Frame} {f : Frame} {pump : Pump}
  {consumed : Bytes}

theorem Carried.keeps (h : Carried L I src link todo received) (hk : L.Keeps I link link') :
    Carried L I src link' todo received := by
  refine ⟨hk.inv, h.unsent, fun hopen => ?_⟩
  obtain ⟨hbefore, hup⟩ := hk.upward hopen
  rw [hup]
  exact h.carried hbefore

theorem Carried.closed (h : Carried L I src link todo received) (hI : I link')
    (hclosed : L.isOpen link' = false) {todo' received' : List Frame} (htodo : todo' <:+ todo) :
    Carried L I src link' todo' received' := by
  refine ⟨hI, htodo.trans h.unsent, fun hopen => ?_⟩
  rw [hclosed] at hopen
  cases hopen

theorem payload_append (q : List Frame) : payload (q ++ [f]) = payload q ++ f.data := by
  simp [payload]

theorem Asked.append (h : Asked p received) (hasks : p.asks (payload received) = true)
    (hf : f.type = "data") : Asked p (received ++ [f]) := by
  refine ⟨?_, fun q hq hne => ?_⟩
  · rintro g hg
    rcases List.mem_append.1 hg with hg | hg
    · exact h.data g hg
    · rwa [List.mem_singleton.1 hg]
  · rcases List.prefix_concat_iff.1 hq with rfl | hq
    · exact absurd rfl hne
    · by_cases heq : q = received
      · rwa [heq]
      · exact h.asked q hq heq

theorem Fed.asked (h : Fed p .receiving received consumed) :
    Asked p received ∧ consumed = payload received := by
  cases h with
  | receiving hasked => exact ⟨hasked, rfl⟩

theorem Fed.write {b : Bytes} (h : Fed p (.writing b) received consumed)
    (hasks : p.asks consumed = true) : Fed p .receiving received (consumed ++ b) := by
  cases h with
  | writing hasked hf =>
    rw [← payload_append]
    exact .receiving (hasked.append hasks hf)

/-- A received frame is handed to the pipe or stops the pump. -/
theorem Fed.feed (h : Fed p .receiving received consumed) {t : State σ}
    (hreceived : t.received = received ++ [f]) (hconsumed : t.consumed = consumed) :
    Fed p (t.feed p.service f).pump (t.feed p.service f).received (t.feed p.service f).consumed := by
  unfold State.feed
  split_ifs with heof hdata
  · exact .stopped
  · exact .stopped
  · obtain ⟨hasked, rfl⟩ := h.asked
    rw [hreceived, hconsumed]
    exact .writing hasked (not_not.1 hdata)

theorem feed_same {t : State σ} {service : Service} : (t.feed service f).link = t.link ∧
    (t.feed service f).sender = t.sender ∧ (t.feed service f).received = t.received ∧
      (t.feed service f).handler = t.handler := by
  unfold State.feed
  split_ifs <;> exact ⟨rfl, rfl, rfl, rfl⟩

theorem Inv.setClient (hL : L.Lawful fits I) (h : Inv L I p src s) (c : Client) :
    Inv L I p src (s.setClient L c) := by
  cases c with
  | receiving | waiting => exact ⟨h.carried, h.fed, h.fresh⟩
  | returned e =>
    obtain ⟨hI, hclosed⟩ := hL.clientClose h.carried.inv
    exact ⟨h.carried.closed hI hclosed (List.suffix_refl _), h.fed, h.fresh⟩

/-- The link moves on by itself or for the client. -/
theorem Inv.keeps (h : Inv L I p src s) (hk : L.Keeps I s.link link') :
    Inv L I p src { s with link := link' } :=
  ⟨h.carried.keeps hk, h.fed, h.fresh⟩

theorem Inv.send (hL : L.Lawful fits I) (hfits : ∀ f ∈ src.frames, fits f) (h : Inv L I p src s)
    {late : Bool} (hs : step L p src s (.send late) = some s') : Inv L I p src s' := by
  simp only [step] at hs
  split at hs
  · rename_i f rest hsender
    have hc := h.carried
    rw [hsender] at hc
    have hfit : fits f := hfits f (hc.unsent.subset (List.mem_cons_self ..))
    have hsuffix : rest <:+ f :: rest := List.suffix_cons f rest
    split at hs
    · rename_i link' hsend
      cases hs
      obtain ⟨hI, hup⟩ := hL.sent hc.inv hfit hsend
      refine ⟨⟨hI, hsuffix.trans hc.unsent, fun hopen => ?_⟩, h.fed, h.fresh⟩
      obtain ⟨hbefore, hafter⟩ := hup hopen
      have hframes := hc.carried hbefore
      rw [hframes, hafter]
      simp [Sender.todo]
    · rename_i e link' hsend
      cases hs
      obtain ⟨hI, hclosed⟩ := hL.unsent hc.inv hfit hsend
      exact ⟨hc.closed hI hclosed List.nil_suffix, h.fed, h.fresh⟩
  · rename_i hsender
    cases hs
    have hc := h.carried
    rw [hsender] at hc
    exact ⟨hc, h.fed, h.fresh⟩
  · cases hs

theorem Inv.pumpRecv (hL : L.Lawful fits I) (h : Inv L I p src s)
    (hs : step L p src s .pumpRecv = some s') : Inv L I p src s' := by
  simp only [step] at hs
  split at hs
  · rename_i hpump
    have hfed := h.fed
    rw [hpump] at hfed
    have hrunning : s.handler ≠ .opening := by
      intro hopening
      have hstopped := (h.fresh hopening).1
      rw [hpump] at hstopped
      cases hstopped
    split at hs
    · rename_i f link' hrecv
      cases hs
      obtain ⟨hI, hup⟩ := hL.received h.carried.inv hrecv
      have hsame := @feed_same σ f { s with link := link', received := s.received ++ [f] } p.service
      obtain ⟨hlink, hsender, hreceived, hhandler⟩ := hsame
      refine ⟨?_, hfed.feed rfl rfl, fun hopening => absurd (hhandler ▸ hopening) hrunning⟩
      rw [hlink, hsender, hreceived]
      refine ⟨hI, h.carried.unsent, fun hopen => ?_⟩
      obtain ⟨hbefore, hafter⟩ := hup hopen
      have hframes := h.carried.carried hbefore
      rw [hframes, hafter]
      simp
    · rename_i e link' hrecv
      cases hs
      obtain ⟨hI, hclosed⟩ := hL.ended h.carried.inv hrecv
      exact ⟨h.carried.closed hI hclosed (List.suffix_refl _), .stopped,
        fun hopening => absurd hopening hrunning⟩
    · cases hs
  · cases hs

theorem Inv.pumpWrite (h : Inv L I p src s) (hs : step L p src s .pumpWrite = some s') :
    Inv L I p src s' := by
  simp only [step] at hs
  split at hs
  · rename_i b hpump
    have hfed := h.fed
    rw [hpump] at hfed
    split at hs
    · rename_i hextracting
      split at hs
      · rename_i hasks
        cases hs
        refine ⟨h.carried, hfed.write hasks, fun hopening => ?_⟩
        rw [hextracting] at hopening
        cases hopening
      · cases hs
    · cases hs
      refine ⟨h.carried, .stopped, fun hopening => ⟨rfl, (h.fresh hopening).2⟩⟩
  · cases hs

theorem Inv.clientRecv (hL : L.Lawful fits I) (h : Inv L I p src s)
    (hs : step L p src s .clientRecv = some s') : Inv L I p src s' := by
  simp only [step] at hs
  split at hs
  · split at hs
    · rename_i hrecv
      cases hs
      exact (h.keeps (hL.clientRecv h.carried.inv hrecv)).setClient hL _
    · rename_i hrecv
      cases hs
      exact (h.keeps (hL.clientRecv h.carried.inv hrecv)).setClient hL _
    · cases hs
  · cases hs

theorem Inv.reply (hL : L.Lawful fits I) (h : Inv L I p src s) {late : Bool}
    (hs : step L p src s (.reply late) = some s') : Inv L I p src s' := by
  simp only [step] at hs
  split at hs
  · split at hs
    · rename_i hsend
      cases hs
      have hk := h.keeps (hL.peerSend h.carried.inv hsend)
      exact ⟨hk.carried, hk.fed, nofun⟩
    · rename_i hsend
      cases hs
      have hk := h.keeps (hL.peerSend h.carried.inv hsend)
      refine ⟨hk.carried, hk.fed, fun hopening => ?_⟩
      split_ifs at hopening
  · cases hs

theorem Inv.step (hL : L.Lawful fits I) (hfits : ∀ f ∈ src.frames, fits f) {a : Action ι}
    (h : Inv L I p src s) (hprompt : prompt s a = true) (hs : step L p src s a = some s') :
    Inv L I p src s' := by
  cases a with
  | send late => exact h.send hL hfits hs
  | timeout => cases hprompt
  | clientRecv => exact h.clientRecv hL hs
  | clientWait =>
    simp only [Upload.step] at hs
    split at hs
    · cases hs
      exact h.setClient hL _
    · cases hs
  | cancel =>
    cases hs
    obtain ⟨hI, hclosed⟩ := hL.clientClose h.carried.inv
    exact ⟨h.carried.closed hI hclosed (List.suffix_refl _), h.fed, h.fresh⟩
  | move i =>
    obtain ⟨link', hmove, rfl⟩ := Option.map_eq_some_iff.1 hs
    exact h.keeps (hL.move h.carried.inv hmove)
  | accept =>
    simp only [Upload.step] at hs
    split at hs
    · rename_i hopening
      cases hs
      obtain ⟨_, hreceived, hconsumed⟩ := h.fresh hopening
      refine ⟨h.carried, ?_, by rintro ⟨⟩⟩
      change Fed p .receiving s.received s.consumed
      rw [hreceived, hconsumed]
      refine .receiving ⟨by rintro _ ⟨⟩, fun q hq hne => ?_⟩
      exact absurd (List.prefix_nil.1 hq) hne
    · cases hs
  | refuse | handle =>
    simp only [Upload.step] at hs
    split at hs
    · cases hs
      exact ⟨h.carried, h.fed, by rintro ⟨⟩⟩
    · cases hs
  | pumpRecv => exact h.pumpRecv hL hs
  | pumpWrite => exact h.pumpWrite hs
  | reply late => exact h.reply hL hs
  | close =>
    simp only [Upload.step] at hs
    split at hs
    · cases hs
      obtain ⟨hI, hclosed⟩ := hL.peerClose h.carried.inv
      exact ⟨h.carried.closed hI hclosed (List.suffix_refl _), h.fed, by rintro ⟨⟩⟩
    · cases hs

theorem inv_start (hI : I link) (hidle : L.Idle link) : Inv L I p src (start link src) := by
  refine ⟨⟨hI, List.suffix_refl _, fun _ => ?_⟩, .stopped, fun _ => ⟨rfl, rfl, rfl⟩⟩
  change src.frames = [] ++ L.upward link ++ src.frames
  rw [hidle.upward]
  rfl

/-- The parties can only wait for each other when the source has failed and the extraction
asked for more after every part of the data. -/
theorem Inv.stuck (h : Inv L I p src s) (hstuck : Stuck L p s) :
    src.failure.isSome = true ∧ ∀ q, q <+: src.chunks → p.asks q.flatten = true := by
  have hfed := h.fed
  rw [hstuck.pump] at hfed
  obtain ⟨hasked, hconsumed⟩ := hfed.asked
  obtain ⟨e, hsender⟩ := hstuck.sender
  have hframes : src.frames = s.received := by
    have hcarried := h.carried.carried hstuck.idle.isOpen
    rw [hstuck.idle.upward, hsender] at hcarried
    simpa [Sender.todo] using hcarried
  have hfailed : src.failure.isSome = true := by
    by_contra hnone
    have heof : eofFrame ∈ s.received := by
      rw [← hframes, Source.frames]
      simp [Option.not_isSome_iff_eq_none.1 hnone]
    have htype := hasked.data _ heof
    simp [eofFrame] at htype
  refine ⟨hfailed, fun q hq => ?_⟩
  have hreceived : s.received = src.chunks.map dataFrame := by
    rw [← hframes, Source.frames, Option.isNone_eq_false_iff.2 hfailed]
    simp
  have hpayload : payload (q.map dataFrame) = q.flatten := by
    simp [payload, Function.comp_def, dataFrame]
  rw [← hpayload]
  by_cases heq : q.map dataFrame = s.received
  · rw [heq, ← hconsumed]
    exact hstuck.asks
  · refine hasked.asked _ ?_ heq
    rw [hreceived]
    exact hq.map dataFrame

/-- While the link is open and the pump runs, the extraction has read an initial part of the
source's data. -/
theorem Inv.consumed_prefix (h : Inv L I p src s) (hopen : L.isOpen s.link = true)
    (hpump : s.pump ≠ .stopped) : s.consumed <+: src.chunks.flatten := by
  have hpayload : ∀ fs gs : List Frame, payload (fs ++ gs) = payload fs ++ payload gs := by
    simp [payload]
  have hall : payload src.frames = src.chunks.flatten := by
    rw [Source.frames, hpayload]
    split <;> simp [payload, Function.comp_def, dataFrame, eofFrame]
  have hcarried := h.carried.carried hopen
  rw [List.append_assoc] at hcarried
  rw [← hall, hcarried, hpayload]
  have hfed := h.fed
  generalize s.pump = pump, s.received = received, s.consumed = consumed at hfed hpump
  cases hfed with
  | stopped => exact absurd rfl hpump
  | receiving => exact List.prefix_append _ _
  | writing =>
    rw [hpayload, List.append_assoc]
    exact List.prefix_append _ _

def feeding (link : σ) (todo received : List Frame) (consumed : Bytes) : State σ :=
  { link, sender := .sending todo, pump := .receiving, handler := .extracting, consumed, received }

theorem run_moves {is : List ι} (h : L.moves link is = some link') :
    Traces.run (step L p src) prompt { s with link := link } (is.map .move) =
      some { s with link := link' } := by
  induction is generalizing link with
  | nil =>
    cases h
    rfl
  | cons i is ih =>
    obtain ⟨link₁, hmove, hrest⟩ := Option.bind_eq_some_iff.1 h
    simp only [List.map_cons, Traces.run, prompt, if_true, step, hmove, Option.map_some,
      Option.bind_some]
    exact ih hrest

theorem run_feed (hL : L.Lawful fits I) (hI : I link) (hidle : L.Idle link) {b : Bytes}
    (hfit : fits (dataFrame b)) (hasks : p.asks consumed = true) :
    ∃ acts link', Traces.run (step L p src) prompt
        (feeding link (dataFrame b :: todo) received consumed) acts =
          some (feeding link' todo (received ++ [dataFrame b]) (consumed ++ b)) ∧
      I link' ∧ L.Idle link' := by
  obtain ⟨link₁, is, link₂, link₃, hsend, hmoves, hrecv, hI₃, hidle₃⟩ := hL.carries hI hfit hidle
  refine ⟨.send false :: (is.map .move ++ [.pumpRecv, .pumpWrite]), link₃, ?_, hI₃, hidle₃⟩
  have hsent : step L p src (feeding link (dataFrame b :: todo) received consumed) (.send false) =
      some (feeding link₁ todo received consumed) := by
    simp only [step, feeding, hsend]
  have hmoved : Traces.run (step L p src) prompt (feeding link₁ todo received consumed)
      (is.map .move) = some (feeding link₂ todo received consumed) :=
    @run_moves σ ι L p src (feeding link₁ todo received consumed) link₁ link₂ is hmoves
  have hreceived : step L p src (feeding link₂ todo received consumed) .pumpRecv =
      some { feeding link₃ todo (received ++ [dataFrame b]) consumed with pump := .writing b } := by
    simp only [step, feeding, hrecv]
    rfl
  simp only [Traces.run, prompt, if_true, hsent, Option.bind_some, Traces.run_append, hmoved,
    hreceived]
  simp only [step, feeding, if_true, hasks, Option.bind_some]

theorem run_feed_all (hL : L.Lawful fits I) (hI : I link) (hidle : L.Idle link)
    {chunks : List Bytes} (hfits : ∀ b ∈ chunks, fits (dataFrame b))
    (hasks : ∀ q, q <+: chunks → p.asks (consumed ++ q.flatten) = true) :
    ∃ acts link' received', Traces.run (step L p src) prompt
        (feeding link (chunks.map dataFrame) received consumed) acts =
          some (feeding link' [] received' (consumed ++ chunks.flatten)) ∧ L.Idle link' := by
  induction chunks generalizing link received consumed with
  | nil => exact ⟨[], link, received, by simp [Traces.run], hidle⟩
  | cons b rest ih =>
    obtain ⟨hb, hrest⟩ := List.forall_mem_cons.1 hfits
    have hnow : p.asks consumed = true := by
      have h := hasks [] List.nil_prefix
      rwa [List.flatten_nil, List.append_nil] at h
    obtain ⟨acts₁, link₁, hrun₁, hI₁, hidle₁⟩ :=
      @run_feed σ ι L I fits p src link (rest.map dataFrame) received consumed hL hI hidle b hb hnow
    obtain ⟨acts₂, link₂, received₂, hrun₂, hidle₂⟩ :=
      @ih link₁ (received ++ [dataFrame b]) (consumed ++ b) hI₁ hidle₁ hrest (by
        intro q hq
        have h := hasks (b :: q) (List.cons_prefix_cons.2 ⟨rfl, hq⟩)
        rwa [List.flatten_cons, ← List.append_assoc] at h)
    refine ⟨acts₁ ++ acts₂, link₂, received₂, ?_, hidle₂⟩
    rw [Traces.run_append, List.map_cons, hrun₁, Option.bind_some, hrun₂, List.append_assoc,
      List.flatten_cons]

/-- A run into the state where both parties wait exists exactly when the source fails and
the extraction fails on no initial part of the data. -/
theorem stuck_reachable_iff (hL : L.Lawful fits I) (hI : I link) (hidle : L.Idle link)
    (hfits : ∀ f ∈ src.frames, fits f) :
    (∃ acts s, Traces.run (step L p src) prompt (start link src) acts = some s ∧ Stuck L p s) ↔
      src.failure.isSome = true ∧ ∀ q, q <+: src.chunks → p.asks q.flatten = true := by
  constructor
  · rintro ⟨acts, s, hrun, hstuck⟩
    have hinv : Inv L I p src s :=
      Traces.run_invariant (fun s a s' h hok hs => h.step hL hfits hok hs) (inv_start hI hidle) hrun
    exact hinv.stuck hstuck
  · rintro ⟨hfailed, hasks⟩
    have hframes : src.frames = src.chunks.map dataFrame := by
      rw [Source.frames, Option.isNone_eq_false_iff.2 hfailed]
      simp
    have hdata : ∀ b ∈ src.chunks, fits (dataFrame b) := by
      intro b hb
      apply hfits
      rw [hframes]
      exact List.mem_map_of_mem hb
    obtain ⟨acts, link', received', hrun, hidle'⟩ :=
      @run_feed_all σ ι L I fits p src link [] [] hL hI hidle src.chunks hdata hasks
    refine ⟨.accept :: (acts ++ [.send false]),
      { feeding link' [] received' src.chunks.flatten with sender := .terminated src.failure }, ?_, ?_⟩
    · have haccept : step L p src (start link src) .accept =
          some (feeding link (src.chunks.map dataFrame) [] []) := by
        rw [← hframes]
        rfl
      simp only [Traces.run, prompt, if_true, haccept, Option.bind_some, Traces.run_append, hrun]
      rfl
    · exact ⟨rfl, ⟨_, rfl⟩, rfl, rfl, rfl, hasks _ (List.prefix_refl _), hidle'⟩

end

/-- The JSON encoder: frames with a piece of data stay below the limit. -/
structure Encoding where
  size : Frame → ℕ
  fits : ∀ f, f.type.length ≤ 4 → f.data.length ≤ chunkSize → f.message = "" → f.code = none →
    size f ≤ Relay.maxFrame

def errors : Errors String where
  tooLarge := "frame too large"
  closed := "use of closed network connection"
  broken := "broken pipe"
  eof := "EOF"

def connection (enc : Encoding) : Link Frame String (Wire Frame) Empty :=
  wire errors fun f => enc.size f ≤ Relay.maxFrame

def Deadlocks (L : Link Frame String σ ι) (p : Peer) (link : σ) (src : Source) : Prop :=
  ∃ acts s, Traces.run (step L p src) prompt (start link src) acts = some s ∧ Stuck L p s

theorem Source.fits (enc : Encoding) (src : Source) : ∀ f ∈ src.frames, Relay.Fits enc.size f := by
  intro f hf
  rcases List.mem_append.1 hf with hf | hf
  · obtain ⟨b, hb, rfl⟩ := List.mem_map.1 hf
    exact ⟨enc.fits _ (show "data".length ≤ 4 by decide) (src.short b hb).2 rfl rfl, rfl⟩
  · split at hf
    · obtain rfl := List.mem_singleton.1 hf
      exact ⟨enc.fits _ (by decide) (Nat.zero_le _) rfl rfl, rfl⟩
    · cases hf

theorem not_deadlocks_iff {L : Link Frame String σ ι} {I : σ → Prop} {fits : Frame → Prop} {p : Peer}
    {src : Source} {link : σ} (hL : L.Lawful fits I) (hI : I link) (hidle : L.Idle link)
    (hfits : ∀ f ∈ src.frames, fits f) :
    ¬ Deadlocks L p link src ↔
      src.failure = none ∨ ∃ q, q <+: src.chunks ∧ p.asks q.flatten = false := by
  rw [Deadlocks, stuck_reachable_iff hL hI hidle hfits, not_and_or]
  simp only [not_forall, Bool.not_eq_true, Option.isSome_eq_false_iff, Option.isNone_iff_eq_none,
    exists_prop]

/-- An upload whose sends are in time never deadlocks exactly when its source does not fail
or the extraction fails on a part of the data: for `cp` over every tree, for the loading of
images and bases over every reader. -/
theorem uploads_deadlock_free_iff {ω : Type} (enc : Encoding) (F : Tar.Format) (fs : Filecopy.FileSystem ω)
    (st : ω) (dest : String) :
    (∀ (τ : Type) (encode : String → τ → Except String (List Bytes)) (name : String)
      (tree : Filecopy.Node τ),
      ¬ Deadlocks (Relay.link enc.size) (peer .copyIn F fs st dest) {} (archived encode name tree) ↔
        tree.archivable encode name = true ∨
          ∃ q, q <+: (archived encode name tree).chunks ∧
            Filecopy.asks F fs st dest q.flatten = false) ∧
    ∀ src : Source,
      ¬ Deadlocks (connection enc) (peer .load F fs st ".") {} src ↔
        src.failure = none ∨
          ∃ q, q <+: src.chunks ∧ Filecopy.asks F fs st "." q.flatten = false := by
  constructor
  · intro τ encode name tree
    rw [← Filecopy.archiveFile_eq_none_iff]
    exact not_deadlocks_iff Relay.link_lawful Relay.carrying_start ⟨rfl, rfl, rfl⟩ (Source.fits enc _)
  · intro src
    refine not_deadlocks_iff wire_lawful trivial ⟨rfl, rfl, rfl⟩ fun f hf => ?_
    exact decide_eq_true (src.fits enc f hf).1

/-- Whatever the sender, the relay and the pump do in turn, a copy into a sandbox is extracted
from an initial part of the archive, in order and without a gap. -/
theorem upload_extracts_initial (enc : Encoding) (p : Peer) (src : Source) {acts : List (Action Relay.Hop)}
    {s : State Relay.Relayed} (hrun : Traces.run (step (Relay.link enc.size) p src) prompt
      (start {} src) acts = some s)
    (hopen : (Relay.link enc.size).isOpen s.link = true) (hpump : s.pump ≠ .stopped) :
    s.consumed <+: src.chunks.flatten := by
  have hstart : Inv (Relay.link enc.size) (Relay.Carrying enc.size) p src (start {} src) :=
    inv_start Relay.carrying_start ⟨rfl, rfl, rfl⟩
  have hinv := Traces.run_invariant
    (fun s a s' h hok hs => Inv.step Relay.link_lawful (src.fits enc) h hok hs) hstart hrun
  exact hinv.consumed_prefix hopen hpump

def encoding : Encoding where
  size f := 4 * ((f.data.length + 2) / 3) + 64
  fits f _ hdata _ _ := by
    unfold chunkSize at hdata
    unfold Relay.maxFrame
    omega

def linked : Filecopy.Node Unit :=
  .dir () none (.unopened "link" "too many levels of symbolic links" .nil)

def directoryHeader (_ : String) (_ : Unit) : Except String (List Bytes) :=
  .ok [97 :: List.replicate 511 0]

def relayed : List (Action Relay.Hop) :=
  [.send false, .move (.up false), .move (.up false), .pumpRecv, .pumpWrite]

def damaged : Source where
  chunks := [97 :: List.replicate 511 0]
  failure := some "input/output error"
  short := by
    intro c hc
    rw [List.mem_singleton.1 hc, List.length_cons, List.length_replicate]
    exact ⟨List.cons_ne_nil _ _, by decide⟩

set_option maxRecDepth 20000 in
/-- The first block of the damaged file has gone all the way. -/
theorem upload_extracts_initial_block : ∃ s, Traces.run (step (Relay.link encoding.size)
        (peer .copyIn Transfer.format Transfer.recorder [] "/data") damaged) prompt (start {} damaged)
        (.accept :: relayed) = some s ∧ s.consumed.length = 512 ∧
      s.consumed <+: damaged.chunks.flatten := by
  have hpump : Pump.receiving ≠ .stopped := by rintro ⟨⟩
  refine ⟨_, rfl, by decide +kernel, ?_⟩
  exact @upload_extracts_initial encoding (peer .copyIn Transfer.format Transfer.recorder [] "/data")
    damaged (.accept :: relayed) _ rfl rfl hpump

set_option maxRecDepth 20000 in
/-- The header of the directory and the trailer are sent, the walk fails, and the guest waits
for the end of the data while the command waits for the reply. An upload from a damaged file
ends in the same way. -/
theorem failed_sources_deadlock :
    (Filecopy.archiveFile directoryHeader "a" linked).2 = some "too many levels of symbolic links" ∧
      (∃ s, Traces.run (step (Relay.link encoding.size)
          (peer .copyIn Transfer.format Transfer.recorder [] "/data") (archived directoryHeader "a" linked))
          prompt (start {} (archived directoryHeader "a" linked))
          (.accept :: (relayed ++ relayed ++ relayed ++ [.send false])) = some s ∧
        Stuck (Relay.link encoding.size) (peer .copyIn Transfer.format Transfer.recorder [] "/data") s ∧
        s.sender = .terminated (some "too many levels of symbolic links")) ∧
      ∃ s, Traces.run (step (connection encoding)
          (peer .load Transfer.format Transfer.recorder [] ".") damaged) prompt (start {} damaged)
          [.accept, .send false, .pumpRecv, .pumpWrite, .send false] = some s ∧
        Stuck (connection encoding) (peer .load Transfer.format Transfer.recorder [] ".") s ∧
        s.sender = .terminated (some "input/output error") := by
  refine ⟨rfl, ⟨_, rfl, ⟨rfl, ⟨_, rfl⟩, rfl, rfl, rfl, ?_, ⟨rfl, rfl, rfl⟩⟩, rfl⟩,
    ⟨_, rfl, ⟨rfl, ⟨_, rfl⟩, rfl, rfl, rfl, ?_, ⟨rfl, rfl, rfl⟩⟩, rfl⟩⟩
  · decide +kernel
  · decide +kernel

end Upload
end Niflhel
