import Niflhel.Api
import Niflhel.Traces

/-!
# The relay between a client and a guest

`Relay` forwards frames between the client's stream `a` and the upstream stream `b` with
two concurrent loops. Whichever loop stops first makes the relay close both streams. The
peers send lines and hang up at any point. A stream records everything its peer has sent
and everything that reached its peer; the encoded size of a frame is a parameter.
-/

namespace Niflhel
namespace Relay

def maxFrame : ℕ := 2 ^ 20

inductive Failure where
  | eof
  | other (m : String)
  deriving DecidableEq, Repr

/-- A line as `Recv` finds it: a frame, or the reason why it is refused. -/
inductive Line where
  | frame (f : Frame)
  | bad (m : String)
  deriving DecidableEq, Repr

def Line.isFrame : Line → Bool
  | .frame _ => true
  | .bad _ => false

structure Stream where
  arrived : List Line := []
  inbox : List Line := []
  written : List Frame := []
  closed : Bool := false
  hungUp : Bool := false
  deriving DecidableEq, Repr

def Stream.close (s : Stream) : Stream := { s with closed := true }

def Stream.arrive (s : Stream) (l : Line) : Option Stream :=
  if s.closed ∨ s.hungUp then none
  else some { s with arrived := s.arrived ++ [l], inbox := s.inbox ++ [l] }

/-- `Recv`, which blocks on an open connection without a line. After a close it still
finds the lines that were buffered, if `late`. -/
def Stream.recv (s : Stream) (late : Bool) : Option (Except Failure Frame × Stream) :=
  if s.closed ∧ ¬ late then some (.error (.other "use of closed network connection"), s)
  else
    match s.inbox with
    | .frame f :: rest => some (.ok f, { s with inbox := rest })
    | .bad m :: rest => some (.error (.other m), { s with inbox := rest })
    | [] =>
      if s.closed then some (.error (.other "use of closed network connection"), s)
      else if s.hungUp then some (.error .eof, s.close)
      else none

/-- `Send`. A write after the peer has hung up is lost in the kernel, if `late`. -/
def Stream.send (size : Frame → ℕ) (s : Stream) (late : Bool) (f : Frame) :
    Option Failure × Stream :=
  if size f > maxFrame then (some (.other "frame too large"), s)
  else if s.closed then (some (.other "use of closed network connection"), s)
  else if s.hungUp then (if late then none else some (.other "broken pipe"), s)
  else (none, { s with written := s.written ++ [f] })

def terminal (f : Frame) : Bool := f.type == "exit" || f.type == "error" || f.type == "detached"

inductive Control where
  | recv
  | send (f : Frame)
  | report (e : Option Failure)
  | returned
  deriving DecidableEq, Repr

def Control.stopped : Control → Bool
  | .recv => false
  | .send _ => false
  | .report _ => true
  | .returned => true

def Control.returns : Control → ℕ
  | .returned => 1
  | _ => 0

def Control.after (f : Frame) : Control := if terminal f then .report none else .recv

@[simp] theorem Control.stopped_after (f : Frame) : (Control.after f).stopped = terminal f := by
  unfold Control.after
  cases terminal f with
  | true | false => rfl

structure Copy where
  dst : Stream
  src : Stream
  control : Control
  done : List (Option Failure)

/-- One call of a forwarding loop. The channel `done` holds two results. -/
def copyFrames (size : Frame → ℕ) (late : Bool) (dst src : Stream)
    (done : List (Option Failure)) : Control → Option Copy
  | .recv =>
    match src.recv late with
    | none => none
    | some (.error e, src) => some ⟨dst, src, .report (some e), done⟩
    | some (.ok f, src) => some ⟨dst, src, .send f, done⟩
  | .send f =>
    match dst.send size late f with
    | (some e, dst) => some ⟨dst, src, .report (some e), done⟩
    | (none, dst) => some ⟨dst, src, .after f, done⟩
  | .report e => if done.length < 2 then some ⟨dst, src, .returned, done ++ [e]⟩ else none
  | .returned => none

inductive Main where
  | first
  | closeA (e : Option Failure)
  | closeB (e : Option Failure)
  | second (e : Option Failure)
  | returned (e : Option Failure)
  deriving DecidableEq, Repr

/-- `down` runs `copyFrames(a, b)` and `up` runs `copyFrames(b, a)`. -/
structure State where
  a : Stream := {}
  b : Stream := {}
  down : Control := .recv
  up : Control := .recv
  done : List (Option Failure) := []
  main : Main := .first
  deriving DecidableEq, Repr

def start : State := {}

inductive Action where
  | down (late : Bool)
  | up (late : Bool)
  | main
  | client (l : Line)
  | clientClose
  | upstream (l : Line)
  | upstreamClose
  deriving DecidableEq, Repr

def Action.isDown : Action → Bool
  | .down _ => true
  | _ => false

def mainStep (s : State) : Option State :=
  match s.main with
  | .first =>
    match s.done with
    | [] => none
    | e :: rest => some { s with done := rest, main := .closeA e }
  | .closeA e => some { s with a := s.a.close, main := .closeB e }
  | .closeB e => some { s with b := s.b.close, main := .second e }
  | .second e =>
    match s.done with
    | [] => none
    | _ :: rest =>
      some { s with done := rest, main := .returned (if e = some .eof then none else e) }
  | .returned _ => none

def step (size : Frame → ℕ) (s : State) : Action → Option State
  | .down late => (copyFrames size late s.a s.b s.done s.down).map fun c =>
      { s with a := c.dst, b := c.src, down := c.control, done := c.done }
  | .up late => (copyFrames size late s.b s.a s.done s.up).map fun c =>
      { s with b := c.dst, a := c.src, up := c.control, done := c.done }
  | .main => mainStep s
  | .client l => (s.a.arrive l).map fun a => { s with a := a }
  | .clientClose => some { s with a := { s.a with hungUp := true } }
  | .upstream l => (s.b.arrive l).map fun b => { s with b := b }
  | .upstreamClose => some { s with b := { s.b with hungUp := true } }

/-- The frames up to the first terminal one, if the lines begin with such frames, each as
`Send` accepts it. -/
def owed (size : Frame → ℕ) : List Line → Option (List Frame)
  | [] => none
  | .bad _ :: _ => none
  | .frame f :: rest =>
    if size f > maxFrame then none
    else if terminal f then some [f]
    else (owed size rest).map (f :: ·)

def pending (size : Frame → ℕ) (s : State) (lines : List Line) : Bool :=
  !s.a.hungUp && (owed size lines).any (· ≠ s.a.written)

def continues (size : Frame → ℕ) (s : State) (late : Bool) : Bool :=
  match s.up with
  | .recv => (!s.a.closed || late) && s.a.inbox.head?.any Line.isFrame
  | .send f => size f ≤ maxFrame && !s.b.closed && (!s.b.hungUp || late) && !terminal f
  | .report _ => true
  | .returned => true

/-- The upward loop does not stop while the client is owed frames, and the upstream does
not send its terminal frame after the upward loop has stopped. -/
def orderly (size : Frame → ℕ) (s : State) : Action → Bool
  | .up late => !pending size s s.b.arrived || continues size s late
  | .upstream l => !pending size s (s.b.arrived ++ [l]) || !s.up.stopped
  | _ => true

variable {rest : List Line}

section
variable {size : Frame → ℕ}

def Plain (size : Frame → ℕ) (fs : List Frame) : Prop :=
  ∀ f ∈ fs, size f ≤ maxFrame ∧ terminal f = false

theorem owed_plain {fs : List Frame} (h : Plain size fs) :
    owed size (fs.map .frame ++ rest) = (owed size rest).map (fs ++ ·) := by
  induction fs with
  | nil => simp
  | cons f fs ih =>
    obtain ⟨⟨hfit, hterm⟩, hrest⟩ := List.forall_mem_cons.1 h
    rw [List.map_cons, List.cons_append, owed, if_neg (by omega), if_neg (by simp [hterm]),
      ih hrest, Option.map_map]
    rfl

theorem owed_frames {init : List Frame} {last : Frame}
    (hfit : ∀ f ∈ init ++ [last], size f ≤ maxFrame) (hlast : terminal last = true)
    (hinit : ∀ f ∈ init, terminal f = false) :
    owed size ((init ++ [last]).map .frame ++ rest) = some (init ++ [last]) := by
  have hplain : Plain size init := fun f hf =>
    ⟨hfit f (List.mem_append_left _ hf), hinit f hf⟩
  have hsize : size last ≤ maxFrame := hfit last (by simp)
  rw [List.map_append, List.append_assoc, owed_plain hplain, List.map_singleton,
    List.singleton_append, owed, if_neg (by omega), if_pos hlast]
  rfl

inductive Copied (size : Frame → ℕ) (late : Bool) (dst src : Stream)
    (done : List (Option Failure)) : Control → Copy → Prop where
  | received {f : Frame} {rest : List Line} (hopen : src.closed = false ∨ late = true)
      (hin : src.inbox = .frame f :: rest) :
      Copied size late dst src done .recv ⟨dst, { src with inbox := rest }, .send f, done⟩
  | refused {m : String} {rest : List Line} (hin : src.inbox = .bad m :: rest) :
      Copied size late dst src done .recv
        ⟨dst, { src with inbox := rest }, .report (some (.other m)), done⟩
  | ended (hin : src.inbox = []) (hup : src.hungUp = true) :
      Copied size late dst src done .recv ⟨dst, src.close, .report (some .eof), done⟩
  | cut {e : Failure} (hclosed : src.closed = true) :
      Copied size late dst src done .recv ⟨dst, src, .report (some e), done⟩
  | sent {f : Frame} (hfit : size f ≤ maxFrame) (hopen : dst.closed = false)
      (hup : dst.hungUp = false) :
      Copied size late dst src done (.send f)
        ⟨{ dst with written := dst.written ++ [f] }, src, .after f, done⟩
  | vanished {f : Frame} (hfit : size f ≤ maxFrame) (hopen : dst.closed = false)
      (hlate : late = true) (hup : dst.hungUp = true) :
      Copied size late dst src done (.send f) ⟨dst, src, .after f, done⟩
  | failed {f : Frame} {e : Failure}
      (hwhy : size f > maxFrame ∨ dst.closed = true ∨ dst.hungUp = true) :
      Copied size late dst src done (.send f) ⟨dst, src, .report (some e), done⟩
  | reported {e : Option Failure} :
      Copied size late dst src done (.report e) ⟨dst, src, .returned, done ++ [e]⟩

variable {dst src : Stream} {done : List (Option Failure)} {control : Control} {late : Bool}
  {c : Copy}

theorem copied_of_copyFrames (h : copyFrames size late dst src done control = some c) :
    Copied size late dst src done control c := by
  cases control with
  | recv =>
    simp only [copyFrames, Stream.recv] at h
    by_cases hcut : src.closed = true ∧ ¬ late = true
    · rw [if_pos hcut] at h
      cases h
      exact .cut hcut.1
    rw [if_neg hcut] at h
    cases hin : src.inbox with
    | nil =>
      simp only [hin] at h
      by_cases hclosed : src.closed = true
      · rw [if_pos hclosed] at h
        cases h
        exact .cut hclosed
      rw [if_neg hclosed] at h
      by_cases hup : src.hungUp = true
      · rw [if_pos hup] at h
        cases h
        exact .ended hin hup
      · simp [hup] at h
    | cons l rest =>
      cases l with
      | frame f =>
        simp only [hin] at h
        cases h
        refine .received ?_ hin
        by_contra hor
        simp only [not_or, Bool.not_eq_false] at hor
        exact hcut hor
      | bad m =>
        simp only [hin] at h
        cases h
        exact .refused hin
  | send f =>
    simp only [copyFrames, Stream.send] at h
    by_cases hfit : size f > maxFrame
    · rw [if_pos hfit] at h
      cases h
      exact .failed (Or.inl hfit)
    rw [if_neg hfit] at h
    by_cases hclosed : dst.closed = true
    · rw [if_pos hclosed] at h
      cases h
      exact .failed (Or.inr (Or.inl hclosed))
    rw [if_neg hclosed] at h
    by_cases hup : dst.hungUp = true
    · rw [if_pos hup] at h
      cases late with
      | false =>
        cases h
        exact .failed (Or.inr (Or.inr hup))
      | true =>
        cases h
        exact .vanished (by omega) (by simpa using hclosed) rfl hup
    · rw [if_neg hup] at h
      cases h
      exact .sent (by omega) (by simpa using hclosed) (by simpa using hup)
  | report e =>
    simp only [copyFrames] at h
    split at h
    · cases h
      exact .reported
    · cases h
  | returned => cases h

theorem copyFrames_recv {f : Frame}
    (hopen : src.closed = false ∨ late = true) (hin : src.inbox = .frame f :: rest) :
    copyFrames size late dst src done .recv =
      some ⟨dst, { src with inbox := rest }, .send f, done⟩ := by
  have hcut : ¬ (src.closed = true ∧ ¬ late = true) := by
    rintro ⟨hclosed, hlate⟩
    rcases hopen with hopen | hl
    · simp [hopen] at hclosed
    · exact hlate hl
  simp only [copyFrames, Stream.recv, if_neg hcut, hin]

theorem copyFrames_send (src : Stream) (done : List (Option Failure)) {f : Frame}
    (hfit : size f ≤ maxFrame) (hopen : dst.closed = false)
    (hup : dst.hungUp = false ∨ late = true) :
    ∃ dst', copyFrames size late dst src done (.send f) = some ⟨dst', src, .after f, done⟩ := by
  simp only [copyFrames, Stream.send, if_neg (Nat.not_lt.2 hfit), hopen]
  by_cases hgone : dst.hungUp = true
  · have hlate : late = true := hup.resolve_left (by simp [hgone])
    exact ⟨dst, by simp [hgone, hlate]⟩
  · exact ⟨{ dst with written := dst.written ++ [f] }, by simp [hgone, hopen]⟩

theorem Copied.stopped (h : Copied size late dst src done control c) (hs : control.stopped = true) :
    c.control.stopped = true := by
  cases h <;> first | rfl | cases hs

theorem Copied.dst_eq (h : Copied size late dst src done control c) :
    c.dst = { dst with written := c.dst.written } := by
  cases h <;> rfl

theorem Copied.src_eq (h : Copied size late dst src done control c) :
    c.src = { src with inbox := c.src.inbox, closed := c.src.closed } := by
  cases h <;> rfl

/-- A call keeps that whatever is closed or reported has its cause in a stopped loop. -/
theorem Copied.caused {p other : Prop} (h : Copied size late dst src done control c)
    (hold : dst.closed = true ∨ src.closed = true ∨ done ≠ [] ∨ p →
      control.stopped = true ∨ other)
    (hnew : c.dst.closed = true ∨ c.src.closed = true ∨ c.done ≠ [] ∨ p) :
    c.control.stopped = true ∨ other := by
  have hkeep : control.stopped = true ∨ other → c.control.stopped = true ∨ other :=
    Or.imp_left h.stopped
  cases h with
  | ended | reported => exact Or.inl rfl
  | _ => exact hkeep (hold hnew)

theorem Copied.done_length (h : Copied size late dst src done control c) :
    c.done.length + control.returns = done.length + c.control.returns := by
  cases h with
  | sent | vanished =>
    unfold Control.after
    split <;> rfl
  | reported => simp [Control.returns]
  | _ => rfl

theorem Copied.src_closed (h : Copied size late dst src done control c) (hs : src.closed = true) :
    c.src.closed = true := by
  cases h with
  | ended hin hup => rfl
  | _ => exact hs

end

section
variable {size : Frame → ℕ} {s s' : State} {i : Action} {late : Bool}

def Carried (size : Frame → ℕ) (s : State) (rest : List Line) : Prop :=
  s.b.arrived = s.a.written.map .frame ++ rest ∧ Plain size s.a.written

def Settled (size : Frame → ℕ) (s : State) : Prop :=
  ∀ more fs, (s.b.hungUp = true → more = []) →
    owed size (s.b.arrived ++ more) = some fs → fs = s.a.written

/-- No frame is lost by a running downward loop, and it stops early only after the upward
loop. -/
def Flow (size : Frame → ℕ) (s : State) : Prop :=
  s.a.hungUp = false →
    match s.down with
    | .recv => Carried size s s.b.inbox
    | .send f => Carried size s (.frame f :: s.b.inbox)
    | _ => Settled size s ∨ (s.up.stopped = true ∧ ∃ rest, Carried size s rest)

def Caused (s : State) : Prop :=
  s.a.closed = true ∨ s.b.closed = true ∨ s.done ≠ [] ∨ s.main ≠ .first →
    s.down.stopped = true ∨ s.up.stopped = true

def Quiet (size : Frame → ℕ) (s : State) : Prop :=
  s.up.stopped = true → s.a.hungUp = false →
    ∀ fs, owed size s.b.arrived = some fs → fs = s.a.written

/-- Until the relay wakes up, the channel holds the results of the loops that returned;
then it first closes the client's stream. -/
def Posted (s : State) : Prop :=
  (s.main = .first → s.done.length = s.down.returns + s.up.returns) ∧
    (s.a.closed = false → s.main = .first ∨ ∃ e, s.main = .closeA e)

theorem Carried.settled_bad {m : String} (h : Carried size s (.bad m :: rest)) :
    Settled size s := by
  intro more fs _ howed
  rw [h.1, List.append_assoc, owed_plain h.2] at howed
  simp [owed] at howed

theorem Carried.settled_large {f : Frame}
    (h : Carried size s (.frame f :: rest)) (hf : size f > maxFrame) : Settled size s := by
  intro more fs _ howed
  rw [h.1, List.append_assoc, owed_plain h.2] at howed
  simp [owed, hf] at howed

theorem Carried.settled_end (h : Carried size s []) (hup : s.b.hungUp = true) : Settled size s := by
  intro more fs hmore howed
  rw [hmore hup, h.1, List.append_nil, owed_plain h.2] at howed
  simp [owed] at howed

/-- After the terminal frame nothing more is owed. -/
theorem settled_terminal {ws : List Frame} {f : Frame}
    (harr : s.b.arrived = ws.map .frame ++ .frame f :: rest) (hws : Plain size ws)
    (hf : size f ≤ maxFrame) (ht : terminal f = true) (hw : s.a.written = ws ++ [f]) :
    Settled size s := by
  intro more fs _ howed
  rw [harr, List.append_assoc, owed_plain hws, List.cons_append, owed, if_neg (by omega),
    if_pos ht] at howed
  rw [hw, ← Option.some.inj howed]

/-- A running loop has the client's frames in order, and they are not all it is owed. -/
theorem Carried.owed_split {fs : List Frame} (h : Carried size s rest)
    (howed : owed size s.b.arrived = some fs) :
    ∃ more, owed size rest = some more ∧ fs = s.a.written ++ more := by
  rw [h.1, owed_plain h.2] at howed
  obtain ⟨more, hmore, rfl⟩ := Option.map_eq_some_iff.1 howed
  exact ⟨more, hmore, rfl⟩

variable {lines : List Line}

theorem owed_ne_nil (h : owed size lines = some []) : False := by
  cases lines with
  | nil => cases h
  | cons l rest => ?_
  cases l with
  | bad m => cases h
  | frame f =>
    simp only [owed] at h
    split at h
    · cases h
    split at h
    · cases h
    · simp at h

theorem Flow.down {c : Copy} (hflow : Flow size s) (hcaused : Caused s)
    (h : Copied size late s.a s.b s.done s.down c) :
    Flow size { s with a := c.dst, b := c.src, down := c.control, done := c.done } := by
  intro hup
  generalize hd : s.down = control at h
  cases h with
  | received hopen hin =>
    have hcar := hflow hup
    rw [hd, hin] at hcar
    exact hcar
  | refused hin =>
    have hcar := hflow hup
    rw [hd, hin] at hcar
    exact Or.inl (Carried.settled_bad hcar)
  | ended hin hend =>
    have hcar := hflow hup
    rw [hd, hin] at hcar
    exact Or.inl (Carried.settled_end hcar hend)
  | cut hclosed =>
    have hcar := hflow hup
    rw [hd] at hcar
    rcases hcaused (Or.inr (Or.inl hclosed)) with hdown | hstop
    · rw [hd] at hdown
      cases hdown
    · exact Or.inr ⟨hstop, _, hcar⟩
  | sent hfit hopen hconn =>
    rename_i f
    have hcar := hflow hconn
    rw [hd] at hcar
    obtain ⟨harr, hplain⟩ := hcar
    by_cases ht : terminal f = true
    · simp only [Control.after, ht, if_true]
      exact Or.inl (settled_terminal harr hplain hfit ht rfl)
    · simp only [Control.after, ht]
      refine ⟨by simpa using harr, ?_⟩
      intro g hg
      rcases List.mem_append.1 hg with hold | hnew
      · exact hplain g hold
      · obtain rfl := List.mem_singleton.1 hnew
        exact ⟨hfit, by simpa using ht⟩
  | vanished hfit hopen hlate hgone =>
    exact absurd hup (by simp [hgone])
  | failed hwhy =>
    have hcar := hflow hup
    rw [hd] at hcar
    rcases hwhy with hlarge | hclosed | hgone
    · exact Or.inl (Carried.settled_large hcar hlarge)
    · rcases hcaused (Or.inl hclosed) with hdown | hstop
      · rw [hd] at hdown
        cases hdown
      · exact Or.inr ⟨hstop, _, hcar⟩
    · exact absurd hup (by simp [hgone])
  | reported =>
    have hset := hflow hup
    rw [hd] at hset
    exact hset

/-- The flow is not concerned by the other calls. -/
theorem Flow.frame (hflow : Flow size s) (hup : s'.a.hungUp = false → s.a.hungUp = false)
    (hw : s'.a.written = s.a.written) (harr : s'.b.arrived = s.b.arrived)
    (hin : s'.b.inbox = s.b.inbox) (hend : s.b.hungUp = true → s'.b.hungUp = true)
    (hd : s'.down = s.down) (hs : s.up.stopped = true → s'.up.stopped = true) :
    Flow size s' := by
  intro hconn
  have h := hflow (hup hconn)
  have hcar : ∀ rest, Carried size s rest → Carried size s' rest := by
    intro rest hc
    unfold Carried
    rw [hw, harr]
    exact hc
  have hset : Settled size s → Settled size s' := by
    intro hset more fs hmore howed
    rw [harr] at howed
    rw [hw]
    exact hset more fs (fun hu => hmore (hend hu)) howed
  rw [hd]
  cases hc : s.down with
  | recv | send =>
    rw [hc] at h
    rw [hin]
    exact hcar _ h
  | report | returned =>
    rw [hc] at h
    exact h.imp hset fun ⟨hstop, rest, hrest⟩ => ⟨hs hstop, rest, hcar rest hrest⟩

theorem Flow.upstream {l : Line} (hflow : Flow size s) (hopen : s.b.hungUp = false) :
    Flow size { s with
      b := { s.b with arrived := s.b.arrived ++ [l], inbox := s.b.inbox ++ [l] } } := by
  intro hconn
  have h := hflow hconn
  have hcar : ∀ rest, Carried size s rest → Carried size { s with
      b := { s.b with arrived := s.b.arrived ++ [l], inbox := s.b.inbox ++ [l] } }
        (rest ++ [l]) := by
    rintro rest ⟨harr, hplain⟩
    refine ⟨?_, hplain⟩
    rw [harr, List.append_assoc]
  have hset : Settled size s → Settled size { s with
      b := { s.b with arrived := s.b.arrived ++ [l], inbox := s.b.inbox ++ [l] } } := by
    intro hset more fs _ howed
    apply hset ([l] ++ more) fs (fun hu => absurd hu (by simp [hopen]))
    rw [← List.append_assoc]
    exact howed
  cases hc : s.down with
  | recv | send =>
    rw [hc] at h
    exact hcar _ h
  | report | returned =>
    rw [hc] at h
    exact h.imp hset fun ⟨hstop, rest, hrest⟩ => ⟨hstop, _, hcar rest hrest⟩

theorem not_pending {fs : List Frame} (h : pending size s lines = false)
    (hconn : s.a.hungUp = false) (howed : owed size lines = some fs) : fs = s.a.written := by
  simpa [pending, hconn, howed] using h

theorem Quiet.down {c : Copy} (hquiet : Quiet size s) (hflow : Flow size s)
    (h : Copied size late s.a s.b s.done s.down c) :
    Quiet size { s with a := c.dst, b := c.src, down := c.control, done := c.done } := by
  intro hstop hconn fs howed
  have hall := hquiet hstop
  generalize hd : s.down = control at h
  cases h with
  | sent hfit hopen hup =>
    -- the frame being sent is owed as well
    have hcar := hflow hup
    rw [hd] at hcar
    obtain ⟨more, hmore, hfs⟩ := hcar.owed_split howed
    have hnil : more = [] := by
      have := hall hup fs howed
      rw [hfs] at this
      simpa using this
    rw [hnil] at hmore
    exact (owed_ne_nil hmore).elim
  | _ => exact hall hconn fs howed

theorem continues_running {c : Copy} (h : continues size s late = true)
    (hrun : s.up.stopped = false) (hc : copyFrames size late s.b s.a s.done s.up = some c) :
    c.control.stopped = false := by
  unfold continues at h
  cases hu : s.up with
  | recv =>
    simp only [hu, Bool.and_eq_true, Bool.or_eq_true, Bool.not_eq_true'] at h
    cases hin : s.a.inbox with
    | nil => simp [hin] at h
    | cons l rest =>
      cases l with
      | bad m => simp [hin, Line.isFrame] at h
      | frame f =>
        rw [hu, copyFrames_recv h.1 hin] at hc
        cases hc
        rfl
  | send f =>
    simp only [hu, Bool.and_eq_true, Bool.or_eq_true, Bool.not_eq_true', decide_eq_true_eq] at h
    obtain ⟨⟨⟨hfit, hopen⟩, hup⟩, hterm⟩ := h
    obtain ⟨dst', hsend⟩ := copyFrames_send s.a s.done hfit hopen hup
    rw [hu, hsend] at hc
    cases hc
    simp [hterm]
  | report | returned => simp [hu, Control.stopped] at hrun

theorem Posted.up {c : Copy} (hposted : Posted s) (h : Copied size late s.b s.a s.done s.up c) :
    Posted { s with b := c.dst, a := c.src, up := c.control, done := c.done } := by
  refine ⟨fun hm => ?_, fun hopen => hposted.2 ?_⟩
  · have := h.done_length
    have := hposted.1 hm
    dsimp only
    omega
  · by_contra hclosed
    have := h.src_closed (by simpa using hclosed)
    simp [this] at hopen

structure Inv (size : Frame → ℕ) (s : State) : Prop where
  flow : Flow size s
  caused : Caused s
  quiet : Quiet size s
  posted : Posted s

theorem inv_start : Inv size start where
  flow _ := ⟨rfl, nofun⟩
  caused h := by simp [start] at h
  quiet h := by simp [start, Control.stopped] at h
  posted := ⟨fun _ => rfl, fun _ => Or.inl rfl⟩

theorem Inv.down {c : Copy} (hinv : Inv size s) (h : Copied size late s.a s.b s.done s.down c) :
    Inv size { s with a := c.dst, b := c.src, down := c.control, done := c.done } where
  flow := hinv.flow.down hinv.caused h
  caused := h.caused hinv.caused
  quiet := hinv.quiet.down hinv.flow h
  posted := by
    refine ⟨fun hm => ?_, fun hopen => hinv.posted.2 ?_⟩
    · have := h.done_length
      have := hinv.posted.1 hm
      dsimp only
      omega
    · dsimp only at hopen
      rw [h.dst_eq] at hopen
      exact hopen

theorem Inv.up {c : Copy} (hinv : Inv size s) (hok : orderly size s (.up late) = true)
    (hc : copyFrames size late s.b s.a s.done s.up = some c) :
    Inv size { s with b := c.dst, a := c.src, up := c.control, done := c.done } := by
  have h := copied_of_copyFrames hc
  have hdst := h.dst_eq
  have hsrc := h.src_eq
  constructor
  · apply hinv.flow.frame
    · intro hconn
      rw [hsrc] at hconn
      exact hconn
    · rw [hsrc]
    · rw [hdst]
    · rw [hdst]
    · rw [hdst]
      exact id
    · rfl
    · exact h.stopped
  · intro hnew
    have hold : s.b.closed = true ∨ s.a.closed = true ∨ s.done ≠ [] ∨ s.main ≠ .first →
        s.up.stopped = true ∨ s.down.stopped = true := by
      intro hold
      apply (hinv.caused _).symm
      tauto
    apply (h.caused hold _).symm
    tauto
  · intro hstop hconn fs howed
    rw [hdst] at howed
    rw [hsrc] at hconn ⊢
    by_cases hbefore : s.up.stopped = true
    · exact hinv.quiet hbefore hconn fs howed
    -- the loop has just stopped, so the condition says that nothing is pending
    simp only [orderly, Bool.or_eq_true, Bool.not_eq_true'] at hok
    rcases hok with hnone | hgo
    · exact not_pending hnone hconn howed
    · have := continues_running hgo (by simpa using hbefore) hc
      simp [hstop] at this
  · exact hinv.posted.up h

theorem Inv.main (hinv : Inv size s) (h : mainStep s = some s') : Inv size s' := by
  have hcause : s.main ≠ .first ∨ s.done ≠ [] → s.down.stopped = true ∨ s.up.stopped = true := by
    intro hwoken
    apply hinv.caused
    tauto
  unfold mainStep at h
  cases hm : s.main with
  | first =>
    cases hd : s.done with
    | nil => simp [hm, hd] at h
    | cons e rest =>
      simp only [hm, hd] at h
      cases h
      have hany := hcause (Or.inr (by simp [hd]))
      exact ⟨hinv.flow.frame id rfl rfl rfl id rfl id, fun _ => hany, hinv.quiet,
        nofun, fun _ => Or.inr ⟨e, rfl⟩⟩
  | closeA e =>
    simp only [hm] at h
    cases h
    have hany := hcause (Or.inl (by simp [hm]))
    exact ⟨hinv.flow.frame id rfl rfl rfl id rfl id, fun _ => hany, hinv.quiet, nofun, nofun⟩
  | closeB e =>
    simp only [hm] at h
    cases h
    have hany := hcause (Or.inl (by simp [hm]))
    have hclosed : ¬ s.a.closed = false := by
      intro hopen
      have := hinv.posted.2 hopen
      simp [hm] at this
    exact ⟨hinv.flow.frame id rfl rfl rfl id rfl id, fun _ => hany, hinv.quiet, nofun,
      fun hopen => absurd hopen hclosed⟩
  | second e =>
    cases hd : s.done with
    | nil => simp [hm, hd] at h
    | cons e' rest =>
      simp only [hm, hd] at h
      cases h
      have hany := hcause (Or.inl (by simp [hm]))
      have hclosed : ¬ s.a.closed = false := by
        intro hopen
        have := hinv.posted.2 hopen
        simp [hm] at this
      exact ⟨hinv.flow.frame id rfl rfl rfl id rfl id, fun _ => hany, hinv.quiet, nofun,
        fun hopen => absurd hopen hclosed⟩
  | returned e => simp [hm] at h

theorem Inv.step (hinv : Inv size s) (hok : orderly size s i = true)
    (h : step size s i = some s') : Inv size s' := by
  cases i with
  | down late =>
    obtain ⟨c, hc, rfl⟩ := Option.map_eq_some_iff.1 h
    exact hinv.down (copied_of_copyFrames hc)
  | up late =>
    obtain ⟨c, hc, rfl⟩ := Option.map_eq_some_iff.1 h
    exact hinv.up hok hc
  | main => exact hinv.main h
  | client l =>
    obtain ⟨a, ha, rfl⟩ := Option.map_eq_some_iff.1 h
    unfold Stream.arrive at ha
    split at ha
    · cases ha
    · cases ha
      exact ⟨hinv.flow.frame id rfl rfl rfl id rfl id, hinv.caused, hinv.quiet, hinv.posted⟩
  | clientClose =>
    cases h
    exact ⟨nofun, hinv.caused, fun _ => nofun, hinv.posted⟩
  | upstream l =>
    obtain ⟨b, hb, rfl⟩ := Option.map_eq_some_iff.1 h
    unfold Stream.arrive at hb
    split at hb
    · cases hb
    · rename_i hopen
      cases hb
      refine ⟨hinv.flow.upstream (by simpa using (not_or.1 hopen).2), hinv.caused, ?_,
        hinv.posted⟩
      intro hstop hconn fs howed
      simp only [orderly, Bool.or_eq_true, Bool.not_eq_true'] at hok
      rcases hok with hnone | hrun
      · exact not_pending hnone hconn howed
      · exact absurd hstop (by simp [hrun])
  | upstreamClose =>
    cases h
    exact ⟨hinv.flow.frame id rfl rfl rfl (fun _ => rfl) rfl id, hinv.caused, hinv.quiet,
      hinv.posted⟩

variable {fs : List Frame}

theorem Inv.written_prefix (hinv : Inv size s) (hconn : s.a.hungUp = false)
    (howed : owed size s.b.arrived = some fs) : s.a.written <+: fs := by
  have hsplit : ∀ rest, Carried size s rest → s.a.written <+: fs := by
    intro rest hcar
    obtain ⟨more, _, rfl⟩ := hcar.owed_split howed
    exact List.prefix_append _ _
  have hflow := hinv.flow hconn
  cases hd : s.down with
  | recv | send =>
    rw [hd] at hflow
    exact hsplit _ hflow
  | _ =>
    rw [hd] at hflow
    rcases hflow with hset | ⟨_, rest, hcar⟩
    · have hall := hset [] fs (fun _ => rfl) (by rwa [List.append_nil])
      exact ⟨[], by rw [hall, List.append_nil]⟩
    · exact hsplit rest hcar

/-- When a loop has stopped, the client has all it is owed. -/
theorem Inv.written_eq (hinv : Inv size s) (hconn : s.a.hungUp = false)
    (howed : owed size s.b.arrived = some fs)
    (hstop : s.down.stopped = true ∨ s.up.stopped = true) : s.a.written = fs := by
  by_cases hup : s.up.stopped = true
  · exact (hinv.quiet hup hconn fs howed).symm
  have hdown := hstop.resolve_right hup
  have hflow := hinv.flow hconn
  cases hd : s.down with
  | recv | send => simp [hd, Control.stopped] at hdown
  | _ =>
    rw [hd] at hflow
    rcases hflow with hset | ⟨hs, _⟩
    · exact (hset [] fs (fun _ => rfl) (by rwa [List.append_nil])).symm
    · exact absurd hs hup

/-- While frames are owed, the streams are open and the relay sleeps. -/
theorem Inv.waiting (hinv : Inv size s) (hconn : s.a.hungUp = false)
    (howed : owed size s.b.arrived = some fs) (hne : s.a.written ≠ fs) :
    s.a.closed = false ∧ s.b.closed = false ∧ s.done = [] ∧ s.main = .first ∧
      s.down.stopped = false ∧ s.up.stopped = false := by
  have hrun : ¬ (s.down.stopped = true ∨ s.up.stopped = true) := fun h =>
    hne (hinv.written_eq hconn howed h)
  have hcause := mt hinv.caused hrun
  simp only [not_or, Bool.not_eq_true, not_not] at hcause hrun
  exact ⟨hcause.1, hcause.2.1, hcause.2.2.1, hcause.2.2.2, hrun⟩

theorem owed_head (h : owed size lines = some fs) :
    ∃ f rest, lines = .frame f :: rest ∧ size f ≤ maxFrame := by
  cases lines with
  | nil => cases h
  | cons l rest =>
    cases l with
    | bad m => cases h
    | frame f =>
      refine ⟨f, rest, rfl, ?_⟩
      by_contra hf
      simp [owed, Nat.lt_of_not_le hf] at h

/-- While frames are owed, the downward loop is not blocked. -/
theorem Inv.down_enabled (hinv : Inv size s) (hconn : s.a.hungUp = false)
    (howed : owed size s.b.arrived = some fs) (hne : s.a.written ≠ fs) :
    (Relay.step size s (.down false)).isSome = true := by
  obtain ⟨hopen, hbopen, _, _, hrun, _⟩ := hinv.waiting hconn howed hne
  have hflow := hinv.flow hconn
  cases hd : s.down with
  | recv =>
    rw [hd] at hflow
    obtain ⟨more, hmore, _⟩ := Carried.owed_split hflow howed
    obtain ⟨f, rest, hin, _⟩ := owed_head hmore
    simp [Relay.step, hd, copyFrames_recv (Or.inl hbopen) hin]
  | send f =>
    rw [hd] at hflow
    obtain ⟨more, hmore, _⟩ := Carried.owed_split hflow howed
    obtain ⟨g, rest, hin, hfit⟩ := owed_head hmore
    obtain ⟨rfl, _⟩ := List.cons.inj hin |>.imp_left Line.frame.inj
    have hup : s.a.hungUp = false ∨ false = true := Or.inl hconn
    obtain ⟨dst, hsend⟩ := copyFrames_send s.b s.done hfit hopen hup
    simp [Relay.step, hd, hsend]
  | report | returned => simp [hd, Control.stopped] at hrun

def progress (s : State) : ℕ :=
  match s.down with
  | .send _ => 2 * s.a.written.length + 1
  | _ => 2 * s.a.written.length

def Counted (acts : List Action) (s : State) : Prop :=
  s.a.hungUp = false → s.down.stopped = false → acts.countP Action.isDown = progress s

variable {acts : List Action}

theorem Counted.frame (hcount : Counted acts s)
    (hi : i.isDown = false) (hup : s'.a.hungUp = false → s.a.hungUp = false)
    (hw : s'.a.written = s.a.written) (hd : s'.down = s.down) : Counted (acts ++ [i]) s' := by
  intro hconn hrun
  rw [hd] at hrun
  rw [List.countP_append, hcount (hup hconn) hrun]
  simp [hi, progress, hd, hw]

theorem Counted.step (hcount : Counted acts s)
    (h : step size s i = some s') : Counted (acts ++ [i]) s' := by
  cases i with
  | down late =>
    obtain ⟨c, hc, rfl⟩ := Option.map_eq_some_iff.1 h
    have hcop := copied_of_copyFrames hc
    intro hconn hrun
    rw [List.countP_append]
    unfold Counted at hcount
    generalize hd : s.down = control at hcop hcount
    cases hcop with
    | received hopen hin => simp [hcount hconn rfl, progress, hd, Action.isDown]
    | sent hfit hopen hup =>
      rename_i f
      have hnext : Control.after f = .recv := by
        unfold Control.after at hrun ⊢
        split at hrun
        · cases hrun
        · rename_i hterm
          rw [if_neg hterm]
      simp only [hcount hup rfl, progress, hd, hnext, List.length_append]
      simp [Action.isDown]
      omega
    | vanished hfit hopen hlate hup => simp [hup] at hconn
    | refused | ended | cut | failed | reported => cases hrun
  | up late =>
    obtain ⟨c, hc, rfl⟩ := Option.map_eq_some_iff.1 h
    have hsrc := (copied_of_copyFrames hc).src_eq
    apply hcount.frame rfl
    · intro hconn
      rw [hsrc] at hconn
      exact hconn
    · rw [hsrc]
    · rfl
  | main =>
    simp only [Relay.step, mainStep] at h
    split at h
    · split at h
      · cases h
      · cases h
        exact hcount.frame rfl id rfl rfl
    · cases h
      exact hcount.frame rfl id rfl rfl
    · cases h
      exact hcount.frame rfl id rfl rfl
    · split at h
      · cases h
      · cases h
        exact hcount.frame rfl id rfl rfl
    · cases h
  | client l =>
    obtain ⟨a, ha, rfl⟩ := Option.map_eq_some_iff.1 h
    unfold Stream.arrive at ha
    split at ha
    · cases ha
    · cases ha
      exact hcount.frame rfl id rfl rfl
  | clientClose =>
    cases h
    exact nofun
  | upstream l =>
    obtain ⟨b, hb, rfl⟩ := Option.map_eq_some_iff.1 h
    exact hcount.frame rfl id rfl rfl
  | upstreamClose =>
    cases h
    exact hcount.frame rfl id rfl rfl

theorem pending_iff : pending size s lines = true ↔
    s.a.hungUp = false ∧ ∃ fs, owed size lines = some fs ∧ s.a.written ≠ fs := by
  simp only [pending, Bool.and_eq_true, Bool.not_eq_true', Option.any_eq_true, decide_eq_true_eq,
    ne_comm]

/-- A running loop that does not go on has a result to report. -/
theorem report_of_not_continues {c : Copy} (h : continues size s late = false)
    (hrun : s.up.stopped = false) (hc : copyFrames size late s.b s.a s.done s.up = some c) :
    c.control.stopped = true := by
  have hcop := copied_of_copyFrames hc
  unfold continues at h
  generalize s.up = control at hcop h hrun
  cases hcop with
  | received hopen hin =>
    rcases hopen with hopen | hlate
    · simp [hopen, hin, Line.isFrame] at h
    · simp [hlate, hin, Line.isFrame] at h
  | sent hfit hopen hup =>
    simpa [hfit, hopen, hup] using h
  | vanished hfit hopen hlate hup =>
    simpa [hfit, hopen, hlate] using h
  | refused | ended | cut | failed | reported => rfl

/-- Once the upward loop has stopped, the relay can close the client's stream at once. -/
theorem closes_of_up_stopped (size : Frame → ℕ) (hposted : Posted s) (hstop : s.up.stopped = true) :
    ∃ acts s', Traces.run (step size) (fun _ _ => true) s acts = some s' ∧
      s'.a = s.a.close ∧ s'.b = s.b := by
  by_cases hclosed : s.a.closed = true
  · exact ⟨[], s, rfl, by simp [Stream.close, ← hclosed], rfl⟩
  have hwake : ∀ t : State, t.a = s.a → t.b = s.b → t.main = .first → t.done ≠ [] →
      ∃ s', Traces.run (step size) (fun _ _ => true) t [.main, .main] = some s' ∧
        s'.a = s.a.close ∧ s'.b = s.b := by
    intro t ha hb hm hd
    obtain ⟨e, rest, hdone⟩ := List.exists_cons_of_ne_nil hd
    refine ⟨{ t with a := t.a.close, done := rest, main := .closeB e }, ?_, by rw [ha], hb⟩
    simp [Traces.run, step, mainStep, hm, hdone]
  rcases hposted.2 (by simpa using hclosed) with hm | ⟨e, hm⟩
  · have hlen := hposted.1 hm
    cases hu : s.up with
    | recv | send => simp [hu, Control.stopped] at hstop
    | report e =>
      have hone : s.down.returns ≤ 1 := by
        cases s.down <;> simp [Control.returns]
      have hroom : s.done.length < 2 := by
        simp only [hu, Control.returns] at hlen hone ⊢
        omega
      obtain ⟨s', hrun, hs'⟩ := hwake
        { s with up := .returned, done := s.done ++ [e] } rfl rfl hm (by simp)
      refine ⟨[.up false, .main, .main], s', ?_, hs'⟩
      rw [Traces.run, if_pos rfl]
      simp only [step, hu, copyFrames, if_pos hroom, Option.map_some, Option.bind_some]
      exact hrun
    | returned =>
      have hd : s.done ≠ [] := by
        intro hnil
        simp [hu, hnil, Control.returns] at hlen
      obtain ⟨s', hrun, hs'⟩ := hwake s rfl rfl hm hd
      exact ⟨[.main, .main], s', hrun, hs'⟩
  · refine ⟨[.main], { s with a := s.a.close, main := .closeB e }, ?_, rfl, rfl⟩
    simp [Traces.run, step, mainStep, hm]

/-- A step that breaks the condition can be followed by the loss of an owed frame. -/
theorem Inv.lost (hinv : Inv size s) (h : Relay.step size s i = some s')
    (hbreak : orderly size s i = false) :
    ∃ acts s'', Traces.run (Relay.step size) (fun _ _ => true) s' acts = some s'' ∧
      s''.a.closed = true ∧ pending size s'' s''.b.arrived = true := by
  have hbad : Posted s' ∧ s'.up.stopped = true ∧ pending size s' s'.b.arrived = true := by
    cases i with
    | up late =>
      obtain ⟨c, hc, rfl⟩ := Option.map_eq_some_iff.1 h
      have hcop := copied_of_copyFrames hc
      simp only [orderly, Bool.or_eq_false_iff, Bool.not_eq_false'] at hbreak
      obtain ⟨hpend, hstuck⟩ := hbreak
      rw [pending_iff] at hpend ⊢
      obtain ⟨hconn, fs, howed, hne⟩ := hpend
      obtain ⟨_, _, _, _, _, hup⟩ := hinv.waiting hconn howed hne
      refine ⟨hinv.posted.up hcop, report_of_not_continues hstuck hup hc, ?_⟩
      rw [hcop.dst_eq, hcop.src_eq]
      exact ⟨hconn, fs, howed, hne⟩
    | upstream l =>
      obtain ⟨b, hb, rfl⟩ := Option.map_eq_some_iff.1 h
      unfold Stream.arrive at hb
      split at hb
      · cases hb
      · cases hb
        simp only [orderly, Bool.or_eq_false_iff, Bool.not_eq_false'] at hbreak
        exact ⟨hinv.posted, hbreak.2, hbreak.1⟩
    | down | main | client | clientClose | upstreamClose => cases hbreak
  obtain ⟨hposted, hstop, hpend⟩ := hbad
  obtain ⟨acts, s'', hrun, ha, hb⟩ := closes_of_up_stopped size hposted hstop
  refine ⟨acts, s'', hrun, by rw [ha]; rfl, ?_⟩
  rw [pending_iff] at hpend ⊢
  rw [ha, hb]
  exact hpend

/-- In a run that meets the condition the client receives the upstream's frames in order,
all of them before its stream is closed. The downward loop is never blocked before, and two
of its calls deliver a frame. A step that breaks the condition can be followed by a loss. -/
theorem relay_delivers_while_orderly
    (hrun : Traces.run (step size) (orderly size) start acts = some s) :
    (∀ init last rest, s.b.arrived = (init ++ [last]).map .frame ++ rest →
      (∀ f ∈ init ++ [last], size f ≤ maxFrame) → terminal last = true →
      (∀ f ∈ init, terminal f = false) → s.a.hungUp = false →
        s.a.written <+: init ++ [last] ∧
        (s.a.closed = true → s.a.written = init ++ [last]) ∧
        (2 * (init.length + 1) ≤ acts.countP Action.isDown → s.a.written = init ++ [last]) ∧
        (s.a.written ≠ init ++ [last] → (step size s (.down false)).isSome = true)) ∧
    (∀ i s', step size s i = some s' → orderly size s i = false →
      ∃ more s'', Traces.run (step size) (fun _ _ => true) s' more = some s'' ∧
        s''.a.closed = true ∧ pending size s'' s''.b.arrived = true) := by
  have hstart : Inv size start ∧ Counted [] start := ⟨inv_start, fun _ _ => rfl⟩
  obtain ⟨hinv, hcount⟩ : Inv size s ∧ Counted acts s := by
    apply Traces.run_induct (P := fun past s => Inv size s ∧ Counted past s) _ hstart hrun
    intro past s i s' h hok hstep
    exact ⟨h.1.step hok hstep, h.2.step hstep⟩
  refine ⟨?_, fun i s' => hinv.lost⟩
  intro init last rest harr hfit hlast hinit hconn
  have howed : owed size s.b.arrived = some (init ++ [last]) := by
    rw [harr]
    exact owed_frames hfit hlast hinit
  have hpre := hinv.written_prefix hconn howed
  refine ⟨hpre, fun hclosed => hinv.written_eq hconn howed (hinv.caused (Or.inl hclosed)), ?_,
    hinv.down_enabled hconn howed⟩
  intro hcalls
  by_contra hne
  obtain ⟨_, _, _, _, hdown, _⟩ := hinv.waiting hconn howed hne
  have hprogress := hcount hconn hdown
  have hshort : s.a.written.length < (init ++ [last]).length := by
    apply lt_of_le_of_ne hpre.length_le
    exact fun hlen => hne (hpre.eq_of_length hlen)
  rw [List.length_append, List.length_singleton] at hshort
  unfold progress at hprogress
  split at hprogress <;> omega

end

def output : Frame := { type := "stdout", data := [104, 105] }

def exitFrame : Frame := { type := "exit", code := some 3 }

def input : Frame := { type := "stdin", data := [10] }

def session : List Action :=
  [.upstream (.frame output), .upstream (.frame exitFrame), .upstreamClose,
    .client (.frame input)]

def dataSize (f : Frame) : ℕ := f.data.length

theorem relay_delivers_while_orderly_session :
    ∃ s, Traces.run (step dataSize) (orderly dataSize) start
        (session ++ [.up false, .down false, .down false, .down false, .down false,
          .up false, .up false, .main, .main]) = some s ∧
      s.b.arrived = ([output] ++ [exitFrame]).map .frame ++ [] ∧ s.a.hungUp = false ∧
      s.a.closed = true ∧ s.a.written = [output, exitFrame] := by
  have hends : ∃ s, Traces.run (step dataSize) (orderly dataSize) start
        (session ++ [.up false, .down false, .down false, .down false, .down false,
          .up false, .up false, .main, .main]) = some s ∧
      s.b.arrived = ([output] ++ [exitFrame]).map .frame ++ [] ∧ s.a.hungUp = false ∧
      s.a.closed = true := ⟨_, rfl, rfl, rfl, rfl⟩
  obtain ⟨s, hrun, harr, hconn, hclosed⟩ := hends
  have h := (relay_delivers_while_orderly hrun).1 [output] exitFrame [] harr (by decide) rfl
    (by decide) hconn
  exact ⟨s, hrun, harr, hconn, hclosed, h.2.1 hclosed⟩

/-- The upward loop reads the input first and fails to send it: the relay closes the
client's stream, and the output and the exit code are lost. -/
theorem exit_frame_lost : ∃ s, Traces.run (step dataSize) (fun _ _ => true) start
        (session ++ [.up false, .up false, .up false, .main, .main, .main, .down false,
          .down false, .main]) = some s ∧
      s.b.arrived = [.frame output, .frame exitFrame] ∧ s.a.hungUp = false ∧
      s.a.closed = true ∧ s.a.written = [] ∧
      s.main = .returned (some (.other "broken pipe")) := by
  exact ⟨_, rfl, rfl, rfl, rfl, rfl, rfl⟩

end Relay
end Niflhel
