import Mathlib.Data.List.Nodup
import Niflhel.Api
import Niflhel.RelyGuarantee

/-!
# The guest's agent

Requests to the agent run concurrently and share its fields under one mutex. `start` holds the
mutex while it launches the container and until it has recorded the operation; `exec` records
the ID of a command under the mutex and launches it afterwards. A goroutine waits for the
container's process and publishes its exit.

The operations on the fields are single steps of a thread, between which other threads run.
-/

namespace Niflhel
namespace GuestAgent
open Concurrent GoText

inductive Status where
  | ready
  | running
  | exited
  deriving DecidableEq, Repr

def Status.text : Status → String
  | ready => "ready"
  | running => "running"
  | exited => "exited"

structure Fields where
  state : Status := .ready
  exit : Option Exit := none
  pid : ℤ := 0
  op : String := ""
  execs : List String := []
  deriving DecidableEq, Repr

structure State where
  fields : Fields := {}
  holder : Option ℕ := none
  /-- The file that the runtime writes when the container's init process runs. -/
  pidFile : Option String := none
  /-- The operations for which a container process was launched. -/
  launches : List String := []
  /-- The IDs of commands, the thread that submitted each, and the status it saw. -/
  submitted : List (String × ℕ × Status) := []
  /-- The IDs for which a command was launched. -/
  execLaunches : List String := []
  /-- The thread that has collected the container's process. -/
  reaper : Option ℕ := none
  /-- What `start` has returned to each thread, and what was answered to it. -/
  returned : List (ℕ × Option String) := []
  answers : List (ℕ × Option String) := []
  deriving DecidableEq, Repr

/-- How a wait ends: the time to poll again, the timer, or the context with its error. -/
inductive Wake where
  | again
  | timeout
  | cancelled (e : String)
  deriving DecidableEq, Repr

inductive Op where
  | lock
  | unlock
  | get
  | setStarted (op : String)
  | setExited (exit : Exit)
  | setPid (pid : ℤ)
  | submit (id : String)
  /-- `runtime.Build`, `runtime.User` and `fsutil.JSON`. -/
  | build
  | lookupUser (user : String)
  | writeFile
  /-- Starting the container's process, or a command in the container. -/
  | launch (op : String)
  | launchExec (id : String)
  /-- The goroutine that waits for the container's process. -/
  | spawn
  | wait
  | cleanUp
  | waitExec
  | readPid
  | pause
  | kill (signal : String)
  | writePid (text : String)
  | note (e : Option String)
  | answer (e : Option String)
  deriving DecidableEq, Repr

abbrev Op.Reply : Op → Type
  | .get => Fields
  | .build => Option String
  | .lookupUser _ => Option String
  | .writeFile => Option String
  | .launch _ => Option String
  | .launchExec _ => Option String
  | .wait => Exit
  | .waitExec => Option String
  | .readPid => Option String
  | .pause => Wake
  | .kill _ => Option String
  | _ => Unit

abbrev Prog := Program Op Op.Reply

abbrev perform (o : Op) : Prog o.Reply := Program.perform o

def exec (t : ℕ) (s : State) : (o : Op) → o.Reply → Option State
  | .lock, _ => if s.holder = none then some { s with holder := some t } else none
  | .unlock, _ => some { s with holder := none }
  | .get, r => if r = s.fields then some s else none
  | .setStarted op, _ => some { s with fields := { s.fields with op := op, state := .running } }
  | .setExited exit, _ => some { s with fields := { s.fields with state := .exited, exit := some exit } }
  | .setPid pid, _ => some { s with fields := { s.fields with pid := pid } }
  | .submit id, _ => some { s with
      fields := { s.fields with execs := id :: s.fields.execs }
      submitted := (id, t, s.fields.state) :: s.submitted }
  | .launch op, none => some { s with launches := s.launches ++ [op] }
  | .launchExec id, none => some { s with execLaunches := s.execLaunches ++ [id] }
  | .wait, _ => if s.launches ≠ [] ∧ s.reaper = none then some { s with reaper := some t } else none
  | .readPid, r => if r = s.pidFile then some s else none
  | .writePid text, _ => if s.pidFile = none then some { s with pidFile := some text } else some s
  | .note e, _ => some { s with returned := (t, e) :: s.returned }
  | .answer e, _ => some { s with answers := (t, e) :: s.answers }
  | _, _ => some s

def locked {α : Type} (body : Prog α) : Prog α := do
  perform .lock
  let a ← body
  perform .unlock
  return a

def launchContainer (op : String) : Prog (Option String) := do
  match ← perform .build with
  | some e => return some e
  | none =>
    match ← perform .writeFile with
    | some e => return some e
    | none =>
      match ← perform (.launch op) with
      | some e => return some e
      | none =>
        perform (.setStarted op)
        perform .spawn
        return none

def start (op : String) : Prog (Option String) := locked do
  let a ← perform .get
  if op = "" then return some "operation ID required"
  else if a.op = op then return none
  else if a.state ≠ .ready then
    return some ("one container per VM; current state " ++ a.state.text)
  else launchContainer op

def waiter : Prog Unit := do
  let exit ← perform .wait
  perform .cleanUp
  locked (perform (.setExited exit))

def parsePid (text : String) : Option ℤ :=
  (atoi (trimSpace text)).bind fun pid => if pid > 1 then some pid else none

/-- The loop of `awaitStarted`; `none` when it still polls after this many rounds. -/
def awaitStarted : ℕ → Prog (Option (Option String))
  | 0 => return none
  | rounds + 1 => do
    match (← perform .readPid).bind parsePid with
    | some pid =>
      locked (perform (.setPid pid))
      return some none
    | none =>
      let a ← locked (perform .get)
      match a.exit with
      | some exit =>
        return some (some ("container runtime exited before init was started: " ++ exit.reason))
      | none =>
        match ← perform .pause with
        | .cancelled e => return some (some e)
        | .timeout => return some (some "container init start timeout")
        | .again => awaitStarted rounds

def startCall (op : String) (rounds : ℕ) : Prog (Option (Option String)) := do
  let e ← start op
  perform (.note e)
  match e with
  | some e => return some (some e)
  | none => awaitStarted rounds

/-- Upper case; besides the ASCII letters, two others have an ASCII letter as upper case. -/
def upper (s : String) : String :=
  String.ofList (s.toList.map fun c => if c = 'ı' then 'I' else if c = 'ſ' then 'S' else c.toUpper)

def signalNames : List (String × ℤ) :=
  [("TERM", 15), ("KILL", 9), ("INT", 2), ("HUP", 1), ("QUIT", 3), ("USR1", 10), ("USR2", 12),
    ("WINCH", 28)]

@[irreducible] def parseSignal (s : String) : Except String ℤ :=
  let s := trimPrefix (upper s) "SIG"
  match signalNames.lookup s with
  | some n => .ok n
  | none =>
    match atoi s with
    | none => .error "invalid signal"
    | some n => if n < 1 ∨ n > 64 then .error "invalid signal" else .ok n

def running : Prog Bool := do
  let a ← locked (perform .get)
  return a.state = .running

def signal (sig : String) : Prog (Option String) := do
  match parseSignal sig with
  | .error e => return some e
  | .ok _ =>
    if ← running then perform (.kill sig) else return some "container not running"

def stopLoop : ℕ → Prog (Option (Option String))
  | 0 => return none
  | rounds + 1 => do
    if ← running then
      match ← perform .pause with
      | .cancelled e => return some (some e)
      | .timeout => return some (← signal "SIGKILL")
      | .again => stopLoop rounds
    else return some none

def stop (stopSignal : String) (seconds : ℤ) (rounds : ℕ) : Prog (Option (Option String)) := do
  if seconds < 0 ∨ seconds > 300 then return some (some "invalid stop timeout")
  else if ← running then
    match ← signal (if stopSignal = "" then "SIGTERM" else stopSignal) with
    | some e => return some (some e)
    | none => stopLoop rounds
  else return some none

structure ExecRequest where
  id : String
  args : List String
  cwd : String
  user : String
  deriving DecidableEq, Repr

def admitExec (id : String) : Prog (Option String) := locked do
  let a ← perform .get
  if a.state ≠ .running then return some "container not running"
  else if id ∈ a.execs then return some "exec ID already submitted; command will not be replayed"
  else
    perform (.submit id)
    return none

def launchCommand (q : ExecRequest) : Prog (Option String) := do
  match ← perform .build with
  | some e => return some e
  | none =>
    if q.cwd ≠ "" ∧ ¬ isAbs q.cwd then return some "exec workdir must be absolute"
    else
      match ← (if q.user = "" then return none else perform (.lookupUser q.user)) with
      | some e => return some e
      | none =>
        match ← perform .writeFile with
        | some e => return some e
        | none =>
          match ← perform (.launchExec q.id) with
          | some e => return some e
          | none => perform .waitExec

def execCall (q : Option ExecRequest) : Prog (Option String) := do
  match q with
  | none => return some "exec ID and arguments required"
  | some q =>
    if q.args = [] ∨ q.id = "" then return some "exec ID and arguments required"
    else
      match ← admitExec q.id with
      | some e => return some e
      | none => launchCommand q

inductive Job where
  | idle
  | status
  | start (op : String) (rounds : ℕ)
  | signal (sig : String)
  | stop (stopSignal : String) (seconds : ℤ) (rounds : ℕ)
  | exec (q : Option ExecRequest)
  | waiter
  /-- The runtime reports the container's init process. -/
  | report (text : String)
  deriving DecidableEq, Repr

def reply (r : Option (Option String)) : Prog Unit :=
  match r with
  | none => return ()
  | some e => perform (.answer e)

def code : Job → Prog Unit
  | .idle => return ()
  | .status => do
    let _ ← locked (perform .get)
    perform (.answer none)
  | .start op rounds => do reply (← startCall op rounds)
  | .signal sig => do perform (.answer (← signal sig))
  | .stop stopSignal seconds rounds => do reply (← stop stopSignal seconds rounds)
  | .exec q => do perform (.answer (← execCall q))
  | .waiter => waiter
  | .report text => perform (.writePid text)

/-- An agent that starts again is another one. -/
def agent : System State Op Op.Reply Job where
  exec := exec
  forks
    | .spawn => some .waiter
    | _ => none
  code := code
  accepts s
    | .waiter => false
    | .report _ => s.launches ≠ []
    | _ => true
  crash _ := {}
  boot := .idle

/-- The operation, the status and the launched processes. The last case is between the launch
and its record, while the mutex is held. -/
inductive Launched : State → Prop where
  | none {s : State} (hl : s.launches = []) (ho : s.fields.op = "") (hs : s.fields.state = .ready) :
      Launched s
  | recorded {s : State} {op : String} (hl : s.launches = [op]) (ho : s.fields.op = op) (hne : op ≠ "")
      (hs : s.fields.state ≠ .ready) : Launched s
  | pending {s : State} {op : String} (hl : s.launches = [op]) (ho : s.fields.op = "") (hne : op ≠ "")
      (hs : s.fields.state = .ready) (hh : s.holder ≠ Option.none) : Launched s

structure Inv (s : State) : Prop where
  launched : Launched s
  reaped : s.fields.state = .exited → s.reaper ≠ none
  reported : s.pidFile ≠ none → s.launches ≠ []
  recorded : ∀ id, id ∈ s.fields.execs ↔ id ∈ s.submitted.map Prod.fst
  distinct : (s.submitted.map Prod.fst).Nodup
  running : ∀ x ∈ s.submitted, x.2.2 = .running
  once : s.execLaunches.Nodup
  admitted : ∀ id ∈ s.execLaunches, id ∈ s.submitted.map Prod.fst

def permit (t : ℕ) (s : State) : (o : Op) → o.Reply → Prop
  | .unlock, _ => s.holder = some t ∧ (s.fields.state = .ready → s.launches = [])
  | .get, _ => s.holder = some t
  | .setStarted op, _ => s.holder = some t ∧ s.launches = [op] ∧ op ≠ "" ∧ s.fields.state = .ready
  | .setExited _, _ => s.holder = some t ∧ s.reaper = some t ∧ s.fields.state = .running
  | .setPid _, _ => s.holder = some t
  | .submit id, _ => s.holder = some t ∧ s.fields.state = .running ∧ id ∉ s.fields.execs
  | .launch op, _ => s.holder = some t ∧ s.launches = [] ∧ op ≠ ""
  | .launchExec id, _ => (∃ st, (id, t, st) ∈ s.submitted) ∧ id ∉ s.execLaunches
  | .writePid _, _ => s.launches ≠ []
  | _, _ => True

inductive Status.Moves : Status → Status → Prop where
  | same (a : Status) : Moves a a
  | started : Moves .ready .running
  | stopped : Moves .running .exited

theorem Status.Moves.ne_ready {a b : Status} (h : a.Moves b) (ha : a ≠ .ready) : b ≠ .ready := by
  cases h with
  | same => exact ha
  | started | stopped => exact nofun

def Op.waits : Op → Bool
  | .lock | .unlock | .wait => true
  | _ => false

inductive Effect (t : ℕ) (s : State) : Op → State → Prop where
  | quiet (o : Op) (ho : o.waits = false) : Effect t s o s
  | lock (hfree : s.holder = none) : Effect t s .lock { s with holder := some t }
  | unlock (hh : s.holder = some t) (hsettled : s.fields.state = .ready → s.launches = []) :
      Effect t s .unlock { s with holder := none }
  | setStarted (op : String) (hh : s.holder = some t) (hl : s.launches = [op]) (hne : op ≠ "")
      (hs : s.fields.state = .ready) :
      Effect t s (.setStarted op) { s with fields := { s.fields with op := op, state := .running } }
  | setExited (exit : Exit) (hh : s.holder = some t) (hr : s.reaper = some t)
      (hs : s.fields.state = .running) : Effect t s (.setExited exit) { s with
        fields := { s.fields with state := .exited, exit := some exit } }
  | setPid (pid : ℤ) (hh : s.holder = some t) :
      Effect t s (.setPid pid) { s with fields := { s.fields with pid := pid } }
  | submit (id : String) (hh : s.holder = some t) (hs : s.fields.state = .running)
      (hid : id ∉ s.fields.execs) : Effect t s (.submit id) { s with
        fields := { s.fields with execs := id :: s.fields.execs }
        submitted := (id, t, s.fields.state) :: s.submitted }
  | launch (op : String) (hh : s.holder = some t) (hl : s.launches = []) (hne : op ≠ "") :
      Effect t s (.launch op) { s with launches := s.launches ++ [op] }
  | launchExec (id : String) (st : Status) (hid : (id, t, st) ∈ s.submitted)
      (hnew : id ∉ s.execLaunches) :
      Effect t s (.launchExec id) { s with execLaunches := s.execLaunches ++ [id] }
  | wait (hr : s.reaper = none) : Effect t s .wait { s with reaper := some t }
  | report (text : String) (hl : s.launches ≠ []) (hnone : s.pidFile = none) :
      Effect t s (.writePid text) { s with pidFile := some text }
  | note (e : Option String) : Effect t s (.note e) { s with returned := (t, e) :: s.returned }
  | answer (e : Option String) : Effect t s (.answer e) { s with answers := (t, e) :: s.answers }

section steps
variable {t u : ℕ} {s s' : State} {o : Op} {r : o.Reply}

theorem effect_of_exec (hperm : permit t s o r) (hx : exec t s o r = some s') : Effect t s o s' := by
  cases o with
  | lock =>
    simp only [exec] at hx
    split_ifs at hx with hfree
    exact Option.some.inj hx ▸ .lock hfree
  | unlock => exact Option.some.inj hx ▸ .unlock hperm.1 hperm.2
  | get | readPid =>
    simp only [exec] at hx
    split_ifs at hx
    exact Option.some.inj hx ▸ .quiet _ rfl
  | setStarted op => exact Option.some.inj hx ▸ .setStarted op hperm.1 hperm.2.1 hperm.2.2.1 hperm.2.2.2
  | setExited exit => exact Option.some.inj hx ▸ .setExited exit hperm.1 hperm.2.1 hperm.2.2
  | setPid pid => exact Option.some.inj hx ▸ .setPid pid hperm
  | submit id => exact Option.some.inj hx ▸ .submit id hperm.1 hperm.2.1 hperm.2.2
  | launch op =>
    cases r with
    | none => exact Option.some.inj hx ▸ .launch op hperm.1 hperm.2.1 hperm.2.2
    | some e => exact Option.some.inj hx ▸ .quiet _ rfl
  | launchExec id =>
    obtain ⟨⟨st, hid⟩, hnew⟩ := hperm
    cases r with
    | none => exact Option.some.inj hx ▸ .launchExec id st hid hnew
    | some e => exact Option.some.inj hx ▸ .quiet _ rfl
  | wait =>
    simp only [exec] at hx
    split_ifs at hx with hr
    exact Option.some.inj hx ▸ .wait hr.2
  | writePid text =>
    simp only [exec] at hx
    split_ifs at hx with hnone
    · exact Option.some.inj hx ▸ .report text hperm hnone
    · exact Option.some.inj hx ▸ .quiet _ rfl
  | note e => exact Option.some.inj hx ▸ .note e
  | answer e => exact Option.some.inj hx ▸ .answer e
  | _ => exact Option.some.inj hx ▸ .quiet _ rfl

theorem Effect.moves (h : Effect t s o s') : s.fields.state.Moves s'.fields.state := by
  cases h with
  | setStarted op hh hl hne hs =>
    rw [hs]
    exact .started
  | setExited exit hh hr hs =>
    rw [hs]
    exact .stopped
  | _ => exact .same _

theorem Effect.launched (h : Effect t s o s') (hs : Launched s) : Launched s' := by
  cases h with
  | lock hfree =>
    cases hs with
    | none hl ho hs => exact .none hl ho hs
    | recorded hl ho hne hs => exact .recorded hl ho hne hs
    | pending hl ho hne hs hh => exact absurd hfree hh
  | unlock hh hsettled =>
    cases hs with
    | none hl ho hs => exact .none hl ho hs
    | recorded hl ho hne hs => exact .recorded hl ho hne hs
    | pending hl ho hne hs hh =>
      rw [hsettled hs] at hl
      cases hl
  | setStarted op hh hl hne hs => exact .recorded hl rfl hne nofun
  | setExited exit hh hr hrun =>
    cases hs with
    | none hl ho hs =>
      rw [hrun] at hs
      cases hs
    | recorded hl ho hne hs => exact .recorded hl ho hne nofun
    | pending hl ho hne hs hh =>
      rw [hrun] at hs
      cases hs
  | launch op hh hl hne =>
    cases hs with
    | none _ ho hs => exact .pending (by rw [hl]; rfl) ho hne hs (by rw [hh]; exact nofun)
    | recorded hl' ho hne' hs =>
      rw [hl] at hl'
      cases hl'
    | pending hl' ho hne' hs hh =>
      rw [hl] at hl'
      cases hl'
  | _ =>
    cases hs with
    | none hl ho hs => exact .none hl ho hs
    | recorded hl ho hne hs => exact .recorded hl ho hne hs
    | pending hl ho hne hs hh => exact .pending hl ho hne hs hh

theorem Effect.inv (h : Effect t s o s') (hs : Inv s) : Inv s' := by
  have hl := h.launched hs.launched
  cases h with
  | setStarted op hh hlaunch hne hstate =>
    exact ⟨hl, nofun, hs.reported, hs.recorded, hs.distinct, hs.running, hs.once, hs.admitted⟩
  | setExited exit hh hr hstate =>
    refine ⟨hl, fun _ => ?_, hs.reported, hs.recorded, hs.distinct, hs.running, hs.once, hs.admitted⟩
    rw [hr]
    exact nofun
  | submit id hh hstate hid =>
    have hnew : id ∉ s.submitted.map Prod.fst := fun hmem => hid ((hs.recorded id).2 hmem)
    refine ⟨hl, hs.reaped, hs.reported, fun x => ?_, ?_, ?_, hs.once, fun x hx => ?_⟩
    · change x ∈ id :: s.fields.execs ↔ x ∈ id :: s.submitted.map Prod.fst
      rw [List.mem_cons, List.mem_cons, hs.recorded x]
    · exact List.nodup_cons.2 ⟨hnew, hs.distinct⟩
    · exact List.forall_mem_cons.2 ⟨hstate, hs.running⟩
    · exact List.mem_cons_of_mem _ (hs.admitted x hx)
  | launch op hh hnone hne =>
    refine ⟨hl, hs.reaped, fun _ => ?_, hs.recorded, hs.distinct, hs.running, hs.once, hs.admitted⟩
    simp
  | launchExec id st hid hnew =>
    refine ⟨hl, hs.reaped, hs.reported, hs.recorded, hs.distinct, hs.running, ?_, fun x hx => ?_⟩
    · rw [← List.concat_eq_append]
      exact hs.once.concat hnew
    · rcases List.mem_append.1 hx with hx | hx
      · exact hs.admitted x hx
      · rw [List.mem_singleton.1 hx]
        exact List.mem_map_of_mem hid
  | wait hr =>
    exact ⟨hl, fun _ => nofun, hs.reported, hs.recorded, hs.distinct, hs.running, hs.once, hs.admitted⟩
  | report text hlaunch hnone =>
    exact ⟨hl, hs.reaped, fun _ => hlaunch, hs.recorded, hs.distinct, hs.running, hs.once, hs.admitted⟩
  | _ =>
    exact ⟨hl, hs.reaped, hs.reported, hs.recorded, hs.distinct, hs.running, hs.once, hs.admitted⟩

end steps

/-- Threads follow the rules of the mutex, and only their own commands are launched. -/
def discipline : Discipline agent where
  inv := Inv
  permit := permit
  fresh _ _ := True
  pre j _ s :=
    match j with
    | .waiter => s.fields.state ≠ .ready
    | .report _ => s.launches ≠ []
    | _ => True
  inv_step hi hp hx := (effect_of_exec hp hx).inv hi
  fresh_step _ _ _ _ _ := trivial

inductive Settled (s : State) : Prop where
  | none (hl : s.launches = []) (ho : s.fields.op = "") (hs : s.fields.state = .ready)
  | recorded (op : String) (hl : s.launches = [op]) (ho : s.fields.op = op) (hne : op ≠ "")
      (hs : s.fields.state ≠ .ready)

theorem Launched.settled {s : State} (h : Launched s) (hfree : s.holder = Option.none) :
    Settled s := by
  cases h with
  | none hl ho hs => exact .none hl ho hs
  | recorded hl ho hne hs => exact .recorded _ hl ho hne hs
  | pending hl ho hne hs hh => exact absurd hfree hh

theorem Settled.launches_of_ready {s : State} (h : Settled s) (hs : s.fields.state = .ready) :
    s.launches = [] := by
  cases h with
  | none hl ho _ => exact hl
  | recorded op hl ho hne hs' => exact absurd hs hs'

structure Owns (t : ℕ) (F : Fields) (L : List String) (s : State) : Prop where
  holder : s.holder = some t
  fields : s.fields = F
  launches : s.launches = L

structure Ticket (t : ℕ) (id : String) (s : State) : Prop where
  submitted : ∃ st, (id, t, st) ∈ s.submitted
  unused : id ∉ s.execLaunches

structure Reaping (t : ℕ) (s : State) : Prop where
  reaper : s.reaper = some t
  state : s.fields.state = .running

def said (t : ℕ) (log : List (ℕ × Option String)) : List (Option String) :=
  (log.filter fun x => x.1 = t).map Prod.snd

theorem said_cons_self (t : ℕ) (e : Option String) (log : List (ℕ × Option String)) :
    said t ((t, e) :: log) = e :: said t log := by
  simp [said]

theorem said_cons_other {t u : ℕ} (h : u ≠ t) (e : Option String) (log : List (ℕ × Option String)) :
    said t ((u, e) :: log) = said t log := by
  simp [said, h]

structure Since (t : ℕ) (s₀ s : State) : Prop where
  launches : s₀.launches ≠ [] → s.launches = s₀.launches
  pidFile : s₀.pidFile ≠ none → s.pidFile = s₀.pidFile
  returned : said t s.returned = said t s₀.returned
  answers : said t s.answers = said t s₀.answers

theorem Since.refl (t : ℕ) (s : State) : Since t s s := ⟨fun _ => rfl, fun _ => rfl, rfl, rfl⟩

variable {s₀ : State}

theorem Since.trans {t : ℕ} {s s' : State} (h : Since t s₀ s) (h' : Since t s s') :
    Since t s₀ s' where
  launches hl := (h'.launches (by rwa [h.launches hl])).trans (h.launches hl)
  pidFile hp := (h'.pidFile (by rwa [h.pidFile hp])).trans (h.pidFile hp)
  returned := h'.returned.trans h.returned
  answers := h'.answers.trans h.answers

def Op.silent : Op → Bool
  | .note _ | .answer _ | .wait => false
  | _ => true

section interference
variable {t u : ℕ} {s s' : State} {o : Op}

theorem Effect.owns {F : Fields} {L : List String} (h : Effect u s o s') (hut : u ≠ t)
    (hs : Owns t F L s) : Owns t F L s' := by
  have hother : s.holder ≠ some u := by
    rw [hs.holder]
    exact fun he => hut (Option.some.inj he).symm
  have hheld : s.holder ≠ none := by
    rw [hs.holder]
    exact nofun
  cases h with
  | lock hfree => exact absurd hfree hheld
  | unlock hh | setStarted _ hh | setExited _ hh | setPid _ hh | submit _ hh | launch _ hh =>
    exact absurd hh hother
  | quiet | launchExec | wait | report | note | answer => exact ⟨hs.holder, hs.fields, hs.launches⟩

theorem Effect.ticket {id : String} (h : Effect u s o s') (hut : u ≠ t) (hi : Inv s)
    (hs : Ticket t id s) : Ticket t id s' := by
  obtain ⟨⟨st, hst⟩, hunused⟩ := hs
  cases h with
  | submit id' hh hstate hid => exact ⟨⟨st, List.mem_cons_of_mem _ hst⟩, hunused⟩
  | launchExec id' st' hid hnew =>
    refine ⟨⟨st, hst⟩, fun hmem => ?_⟩
    rcases List.mem_append.1 hmem with hmem | hmem
    · exact hunused hmem
    · -- The ID was submitted once, by the thread that launches now.
      rw [List.mem_singleton.1 hmem] at hst
      have he := List.inj_on_of_nodup_map hi.distinct hst hid rfl
      exact hut (congrArg (fun x => x.2.1) he).symm
  | _ => exact ⟨⟨st, hst⟩, hunused⟩

theorem Effect.reaping (h : Effect u s o s') (hut : u ≠ t) (hs : Reaping t s) : Reaping t s' := by
  cases h with
  | setStarted op hh hl hne hready =>
    rw [hs.state] at hready
    cases hready
  | setExited exit hh hr hrun =>
    rw [hs.reaper] at hr
    exact absurd (Option.some.inj hr).symm hut
  | wait hr =>
    rw [hs.reaper] at hr
    cases hr
  | _ => exact ⟨hs.reaper, hs.state⟩

theorem Effect.since (h : Effect u s o s') (hsaid : u ≠ t ∨ o.silent = true) : Since t s s' := by
  cases h with
  | launch op hh hl hne => exact ⟨fun h => absurd hl h, fun _ => rfl, rfl, rfl⟩
  | report text hl hnone => exact ⟨fun _ => rfl, fun h => absurd hnone h, rfl, rfl⟩
  | note e =>
    have hut := hsaid.resolve_right nofun
    exact ⟨fun _ => rfl, fun _ => rfl, said_cons_other hut e _, rfl⟩
  | answer e =>
    have hut := hsaid.resolve_right nofun
    exact ⟨fun _ => rfl, fun _ => rfl, rfl, said_cons_other hut e _⟩
  | _ => exact ⟨fun _ => rfl, fun _ => rfl, rfl, rfl⟩

theorem effect_of_interferes (h : discipline.Interferes t s s') :
    Inv s ∧ ∃ u o, u ≠ t ∧ Effect u s o s' := by
  obtain ⟨hi, u, o, r, hut, hperm, hx⟩ := h
  exact ⟨hi, u, o, hut, effect_of_exec hperm hx⟩

theorem stable_owns (F : Fields) (L : List String) : discipline.Stable t (Owns t F L) := by
  intro s s' h hs
  obtain ⟨_, u, o, hut, he⟩ := effect_of_interferes h
  exact he.owns hut hs

theorem stable_ticket (id : String) : discipline.Stable t (Ticket t id) := by
  intro s s' h hs
  obtain ⟨hi, u, o, hut, he⟩ := effect_of_interferes h
  exact he.ticket hut hi hs

theorem stable_reaping : discipline.Stable t (Reaping t) := by
  intro s s' h hs
  obtain ⟨_, u, o, hut, he⟩ := effect_of_interferes h
  exact he.reaping hut hs

theorem stable_since (s₀ : State) : discipline.Stable t (Since t s₀) := by
  intro s s' h hs
  obtain ⟨_, u, o, hut, he⟩ := effect_of_interferes h
  exact hs.trans (he.since (.inl hut))

end interference

section safe
variable {α : Type} {t : ℕ} {s : State} {P : State → Prop}

theorem safe_perform {o : Op} {Q : o.Reply → State → Prop} (hP : discipline.Stable t P) (hs : P s)
    (h : ∀ s₁, Inv s₁ → P s₁ → ∀ r s₂, exec t s₁ o r = some s₂ → permit t s₁ o r ∧
      (∀ j, agent.forks o = some j → ∀ u, discipline.pre j u s₂) ∧ Q r s₂) :
    discipline.Safe t Q (perform o) s :=
  Discipline.Safe.step hP hs h

def Op.outside : Op → Bool
  | .build | .lookupUser _ | .writeFile | .cleanUp | .waitExec | .pause | .kill _ => true
  | _ => false

theorem safe_outside {o : Op} (ho : o.outside = true) (hP : discipline.Stable t P) (hs : P s) :
    discipline.Safe t (fun _ s' => P s') (perform o) s := by
  refine safe_perform hP hs fun s₁ _ h₁ r s₂ hx => ?_
  cases o with
  | build | lookupUser | writeFile | cleanUp | waitExec | pause | kill =>
    exact ⟨trivial, nofun, Option.some.inj hx ▸ h₁⟩
  | _ => cases ho

theorem Settled.transfer {s s' : State} (h : Settled s) (hs : Owns t s.fields s.launches s') :
    Settled s' := by
  cases h with
  | none hl ho hr =>
    rw [← hs.fields] at ho hr
    exact .none (hs.launches.trans hl) ho hr
  | recorded op hl ho hne hr =>
    rw [← hs.fields] at ho hr
    exact .recorded op (hs.launches.trans hl) ho hne hr

theorem stable_settled {Q : State → Prop} (hQ : discipline.Stable t Q) :
    discipline.Stable t fun s => s.holder = some t ∧ Settled s ∧ Q s := by
  rintro s s' h ⟨hh, hs, hq⟩
  have howns := stable_owns s.fields s.launches s s' h ⟨hh, rfl, rfl⟩
  exact ⟨howns.holder, hs.transfer howns, hQ s s' h hq⟩

theorem safe_locked {body : Prog α} {Q : α → State → Prop}
    (hP : discipline.Stable t P) (hPh : ∀ s h, P s → P { s with holder := h })
    (hQ : ∀ a, discipline.Stable t (Q a)) (hQh : ∀ a s h, Q a s → Q a { s with holder := h })
    (hbody : ∀ s, s.holder = some t → Settled s → P s →
      discipline.Safe t (fun a s' => s'.holder = some t ∧ Settled s' ∧ Q a s') body s)
    (hs : P s) : discipline.Safe t Q (locked body) s := by
  have hlock : discipline.Safe t (fun _ s => s.holder = some t ∧ Settled s ∧ P s) (perform .lock) s := by
    refine safe_perform hP hs fun s₁ hi h₁ r s₂ hx => ⟨trivial, nofun, ?_⟩
    simp only [exec] at hx
    split_ifs at hx with hfree
    cases hx
    have hset := hi.launched.settled hfree
    exact ⟨rfl, hset.transfer ⟨rfl, rfl, rfl⟩, hPh s₁ _ h₁⟩
  have hunlock : ∀ a s, s.holder = some t ∧ Settled s ∧ Q a s →
      discipline.Safe t (fun _ s => Q a s) (perform .unlock) s := by
    intro a s h
    refine safe_perform (stable_settled (hQ a)) h ?_
    rintro s₁ - ⟨hh, hset, hq⟩ r s₂ hx
    cases hx
    exact ⟨⟨hh, hset.launches_of_ready⟩, nofun, hQh a s₁ none hq⟩
  refine hlock.bind fun _ s₁ ⟨hh, hset, hp⟩ => ?_
  refine (hbody s₁ hh hset hp).bind fun a s₂ h₂ => ?_
  exact (hunlock a s₂ h₂).bind fun _ s₃ h₃ => h₃

def Outcome (op launched : String) (e : Option String) : Prop :=
  if op = launched then e = none
  else e = some "operation ID required" ∨
    ∃ st : Status, st ≠ .ready ∧ e = some ("one container per VM; current state " ++ st.text)

theorem safe_get (hh : s.holder = some t) : discipline.Safe t
    (fun a s' => a = s.fields ∧ Owns t s.fields s.launches s') (perform .get) s := by
  refine safe_perform (stable_owns s.fields s.launches) ⟨hh, rfl, rfl⟩ fun s₁ _ h₁ r s₂ hx => ?_
  simp only [exec] at hx
  split_ifs at hx with hr
  cases hx
  exact ⟨h₁.holder, nofun, hr.trans h₁.fields, h₁⟩

theorem safe_look (hP : discipline.Stable t P) (hPh : ∀ s h, P s → P { s with holder := h }) (hs : P s) :
    discipline.Safe t (fun _ s' => P s') (locked (perform .get)) s := by
  refine safe_locked hP hPh (fun _ => hP) (fun _ => hPh) (fun s hh hset hp => ?_) hs
  refine safe_perform (stable_settled hP) ⟨hh, hset, hp⟩ ?_
  rintro s₁ - h₁ r s₂ hx
  simp only [exec] at hx
  split_ifs at hx
  cases hx
  exact ⟨h₁.1, nofun, h₁⟩

theorem safe_setPid (pid : ℤ) : discipline.Respects t (locked (perform (.setPid pid))) s := by
  have htrue := discipline.stable_const t True
  refine safe_locked htrue (fun _ _ h => h) (fun _ => htrue) (fun _ _ _ h => h)
    (fun s hh hset _ => ?_) trivial
  refine safe_perform (stable_settled htrue) ⟨hh, hset, trivial⟩ ?_
  rintro s₁ - ⟨hh, hset, -⟩ r s₂ hx
  cases hx
  refine ⟨hh, nofun, hh, ?_, trivial⟩
  cases hset with
  | none hl ho hs => exact .none hl ho hs
  | recorded op hl ho hne hs => exact .recorded op hl ho hne hs

theorem Settled.outcome {op launched : String} (h : Settled s) (hl : s.launches = [launched]) :
    (op = "" → Outcome op launched (some "operation ID required")) ∧
    (op ≠ "" → s.fields.op = op → Outcome op launched Option.none) ∧
    (s.fields.op ≠ op → s.fields.state ≠ .ready →
      Outcome op launched (some ("one container per VM; current state " ++ s.fields.state.text))) := by
  cases h with
  | none hnone ho hr =>
    rw [hnone] at hl
    cases hl
  | recorded op' hl' ho hne hr =>
    obtain rfl : op' = launched := by
      rw [hl'] at hl
      exact (List.cons.inj hl).1
    unfold Outcome
    refine ⟨fun he => ?_, fun _ he => ?_, fun hother hs => ?_⟩
    · rw [if_neg (by rw [he]; exact hne.symm)]
      exact .inl rfl
    · rw [if_pos (he.symm.trans ho)]
    · rw [if_neg (fun he => hother (ho.trans he.symm))]
      exact .inr ⟨_, hs, rfl⟩

theorem safe_launchContainer {op : String} {F : Fields} (hne : op ≠ "") (hF : F.state = .ready)
    (ho : F.op = "") (hs : Owns t F [] s) :
    discipline.Safe t (fun _ s' => s'.holder = some t ∧ Settled s') (launchContainer op) s := by
  have hunlaunched : ∀ s, Owns t F [] s → s.holder = some t ∧ Settled s := by
    intro s h
    exact ⟨h.holder, .none h.launches (by rw [h.fields, ho]) (by rw [h.fields, hF])⟩
  have hlaunch : ∀ s, Owns t F [] s → discipline.Safe t
      (fun e s' => Owns t F (if e = none then [op] else []) s') (perform (.launch op)) s := by
    intro s h
    refine safe_perform (stable_owns F []) h fun s₁ _ h₁ e s₂ hx => ⟨⟨h₁.holder, h₁.launches, hne⟩, nofun, ?_⟩
    cases e with
    | some e =>
      cases hx
      exact h₁
    | none =>
      cases hx
      exact ⟨h₁.holder, h₁.fields, by rw [h₁.launches]; rfl⟩
  have hstarted : ∀ s, Owns t F [op] s → discipline.Safe t
      (fun _ s' => Owns t { F with op := op, state := .running } [op] s') (perform (.setStarted op)) s := by
    intro s h
    refine safe_perform (stable_owns F [op]) h fun s₁ _ h₁ r s₂ hx => ?_
    cases hx
    exact ⟨⟨h₁.holder, h₁.launches, hne, by rw [h₁.fields, hF]⟩, nofun, h₁.holder, by rw [← h₁.fields], h₁.launches⟩
  have hspawn : ∀ s, Owns t { F with op := op, state := .running } [op] s → discipline.Safe t
      (fun _ s' => s'.holder = some t ∧ Settled s') (perform .spawn) s := by
    intro s h
    refine safe_perform (stable_owns _ [op]) h fun s₁ _ h₁ r s₂ hx => ?_
    cases hx
    have hrun : s₁.fields.state ≠ .ready := by
      rw [h₁.fields]
      exact nofun
    refine ⟨trivial, fun j hj u => ?_, h₁.holder, .recorded op h₁.launches (by rw [h₁.fields]) hne hrun⟩
    obtain rfl : Job.waiter = j := Option.some.inj hj
    exact hrun
  refine (safe_outside rfl (stable_owns F []) hs).bind fun
    | some e, s₁, h₁ => hunlaunched s₁ h₁
    | none, s₁, h₁ => ?_
  refine (safe_outside rfl (stable_owns F []) h₁).bind fun
    | some e, s₂, h₂ => hunlaunched s₂ h₂
    | none, s₂, h₂ => ?_
  refine (hlaunch s₂ h₂).bind fun
    | some e, s₃, h₃ => hunlaunched s₃ h₃
    | none, s₃, h₃ => ?_
  refine (hstarted s₃ h₃).bind fun _ s₄ h₄ => ?_
  exact (hspawn s₄ h₄).bind fun _ s₅ h₅ => h₅

theorem safe_start (op : String) (hs : Since t s₀ s) :
    discipline.Safe t (fun e _ => ∀ launched, s₀.launches = [launched] → Outcome op launched e)
      (start op) s := by
  refine safe_locked (stable_since s₀) (fun _ _ h => ⟨h.1, h.2, h.3, h.4⟩)
    (fun e => discipline.stable_const t _) (fun _ _ _ h => h) (fun s hh hset hs => ?_) hs
  have hknown : ∀ launched, s₀.launches = [launched] → s.launches = [launched] := by
    intro launched hl
    rw [← hl]
    exact hs.launches (by rw [hl]; exact nofun)
  refine (safe_get hh).bind ?_
  rintro a s₁ ⟨rfl, h₁⟩
  have hset₁ := hset.transfer h₁
  by_cases hop : op = ""
  · rw [if_pos hop]
    exact ⟨h₁.holder, hset₁, fun l hl => (hset.outcome (hknown l hl)).1 hop⟩
  rw [if_neg hop]
  by_cases hsame : s.fields.op = op
  · rw [if_pos hsame]
    exact ⟨h₁.holder, hset₁, fun l hl => (hset.outcome (hknown l hl)).2.1 hop hsame⟩
  rw [if_neg hsame]
  by_cases hready : s.fields.state ≠ .ready
  · rw [if_pos hready]
    exact ⟨h₁.holder, hset₁, fun l hl => (hset.outcome (hknown l hl)).2.2 hsame hready⟩
  rw [if_neg hready]
  have hl := hset.launches_of_ready (not_not.1 hready)
  have hblank : s.fields.op = "" := by
    cases hset with
    | none _ ho _ => exact ho
    | recorded _ _ _ _ hs => exact absurd hs hready
  rw [hl] at h₁
  refine (safe_launchContainer hop (not_not.1 hready) hblank h₁).weaken ?_
  rintro e s₂ ⟨hh, hset₂⟩
  refine ⟨hh, hset₂, fun launched hlaunched => ?_⟩
  rw [hknown launched hlaunched] at hl
  cases hl

theorem safe_readPid (hs : Since t s₀ s) : discipline.Safe t
    (fun r s' => Since t s₀ s' ∧ (s₀.pidFile ≠ none → r = s₀.pidFile)) (perform .readPid) s := by
  refine safe_perform (stable_since s₀) hs fun s₁ _ h₁ r s₂ hx => ⟨trivial, nofun, ?_⟩
  simp only [exec] at hx
  split_ifs at hx with hr
  cases hx
  exact ⟨h₁, fun h => hr.trans (h₁.pidFile h)⟩

def Reported (s : State) : Prop := ∃ pid, s.pidFile.bind parsePid = some pid

theorem safe_awaitStarted (rounds : ℕ) (hs : Since t s₀ s) :
    discipline.Safe t (fun r _ => Reported s₀ → 0 < rounds → r = some none) (awaitStarted rounds) s := by
  induction rounds generalizing s with
  | zero => exact fun _ h => absurd h (lt_irrefl 0)
  | succ rounds ih =>
    refine (safe_readPid hs).bind fun r s₁ ⟨h₁, hr⟩ => ?_
    cases hp : r.bind parsePid with
    | some pid => exact (safe_setPid pid).bind fun _ s₂ _ => fun _ _ => rfl
    | none =>
      -- A report would have been read.
      have hnone : ¬ Reported s₀ := by
        rintro ⟨pid, hpid⟩
        have hne : s₀.pidFile ≠ none := by
          intro h
          rw [h] at hpid
          cases hpid
        rw [hr hne, hpid] at hp
        cases hp
      refine (safe_look (stable_since s₀) (fun _ _ h => ⟨h.1, h.2, h.3, h.4⟩) h₁).bind fun a s₂ h₂ => ?_
      cases a.exit with
      | some exit => exact fun h => absurd h hnone
      | none =>
        exact (safe_outside rfl (stable_since s₀) h₂).bind fun
          | .cancelled e, _, _ => fun h => absurd h hnone
          | .timeout, _, _ => fun h => absurd h hnone
          | .again, _, h₃ => (ih h₃).weaken fun _ _ _ h => absurd h hnone

theorem safe_running : discipline.Respects t running s :=
  (safe_look (discipline.stable_const t True) (fun _ _ h => h) trivial).bind fun _ _ _ => trivial

theorem safe_signal (sig : String) : discipline.Respects t (signal sig) s := by
  unfold signal
  cases parseSignal sig with
  | error e => exact trivial
  | ok n =>
    exact safe_running.bind fun
      | true, _, _ => safe_outside rfl (discipline.stable_const t True) trivial
      | false, _, _ => trivial

theorem safe_stopLoop (rounds : ℕ) : discipline.Respects t (stopLoop rounds) s := by
  induction rounds generalizing s with
  | zero => exact trivial
  | succ rounds ih =>
    refine safe_running.bind fun
      | false, _, _ => trivial
      | true, s₁, _ => ?_
    exact (safe_outside rfl (discipline.stable_const t True) trivial).bind fun
      | .cancelled e, _, _ => trivial
      | .timeout, _, _ => (safe_signal _).bind fun _ _ _ => trivial
      | .again, _, _ => ih

theorem safe_stop (stopSignal : String) (seconds : ℤ) (rounds : ℕ) :
    discipline.Respects t (stop stopSignal seconds rounds) s := by
  unfold stop
  by_cases hseconds : seconds < 0 ∨ seconds > 300
  · rw [if_pos hseconds]
    exact trivial
  rw [if_neg hseconds]
  refine safe_running.bind fun
    | false, _, _ => trivial
    | true, s₁, _ => ?_
  exact (safe_signal _).bind fun
    | some e, _, _ => trivial
    | none, _, _ => safe_stopLoop rounds

theorem safe_admitExec (id : String) : discipline.Safe t (fun e s' => e = none → Ticket t id s') (admitExec id) s := by
  have htrue := discipline.stable_const t True
  have hpost : ∀ e : Option String, discipline.Stable t fun s => e = none → Ticket t id s :=
    fun e s s' h hs he => stable_ticket id s s' h (hs he)
  refine safe_locked htrue (fun _ _ h => h) hpost (fun _ _ _ h he => ⟨(h he).1, (h he).2⟩)
    (fun s hh hset _ => ?_) trivial
  refine (safe_get hh).bind ?_
  rintro a s₁ ⟨rfl, h₁⟩
  have hset₁ := hset.transfer h₁
  by_cases hrun : s.fields.state ≠ .running
  · rw [if_pos hrun]
    exact ⟨h₁.holder, hset₁, nofun⟩
  rw [if_neg hrun]
  by_cases hid : id ∈ s.fields.execs
  · rw [if_pos hid]
    exact ⟨h₁.holder, hset₁, nofun⟩
  rw [if_neg hid]
  have hsubmit : discipline.Safe t (fun _ s' => s'.holder = some t ∧ Settled s' ∧ Ticket t id s')
      (perform (.submit id)) s₁ := by
    refine safe_perform (stable_owns s.fields s.launches) h₁ fun s₂ hi h₂ r s₃ hx => ?_
    cases hx
    have hnew : id ∉ s₂.fields.execs := by rwa [h₂.fields]
    refine ⟨⟨h₂.holder, by rw [h₂.fields]; exact not_not.1 hrun, hnew⟩, nofun, h₂.holder, ?_, ?_, ?_⟩
    · cases hset.transfer h₂ with
      | none hl ho hs => exact .none hl ho hs
      | recorded op hl ho hne hs => exact .recorded op hl ho hne hs
    · exact ⟨_, List.mem_cons_self⟩
    · exact fun hmem => hnew ((hi.recorded id).2 (hi.admitted id hmem))
  exact hsubmit.bind fun _ s₂ ⟨hh, hset, hticket⟩ => ⟨hh, hset, fun _ => hticket⟩

theorem safe_launchCommand (q : ExecRequest) (hs : Ticket t q.id s) :
    discipline.Respects t (launchCommand q) s := by
  have hstable := @stable_ticket t q.id
  have huser : ∀ s, Ticket t q.id s → discipline.Safe t (fun _ s' => Ticket t q.id s')
      (if q.user = "" then return none else perform (.lookupUser q.user) : Prog (Option String)) s := by
    intro s hs
    by_cases h : q.user = ""
    · rw [if_pos h]
      exact hs
    · rw [if_neg h]
      exact safe_outside rfl hstable hs
  refine (safe_outside rfl hstable hs).bind fun
    | some e, _, _ => trivial
    | none, s₁, h₁ => ?_
  by_cases hcwd : q.cwd ≠ "" ∧ ¬ isAbs q.cwd = true
  · simp only [if_pos hcwd]
    exact trivial
  simp only [if_neg hcwd]
  refine (huser s₁ h₁).bind fun
    | some e, _, _ => trivial
    | none, s₂, h₂ => ?_
  refine (safe_outside rfl hstable h₂).bind fun
    | some e, _, _ => trivial
    | none, s₃, h₃ => ?_
  have hlaunch : discipline.Respects t (perform (.launchExec q.id)) s₃ :=
    safe_perform hstable h₃ fun s₄ _ h₄ r s₅ _ => ⟨⟨h₄.submitted, h₄.unused⟩, nofun, trivial⟩
  exact hlaunch.bind fun
    | some e, _, _ => trivial
    | none, _, _ => safe_outside rfl (discipline.stable_const t True) trivial

theorem safe_execCall (q : Option ExecRequest) : discipline.Respects t (execCall q) s := by
  cases q with
  | none => exact trivial
  | some q => ?_
  unfold execCall
  by_cases hq : q.args = [] ∨ q.id = ""
  · simp only [if_pos hq]
    exact trivial
  simp only [if_neg hq]
  exact (safe_admitExec q.id).bind fun
    | some e, _, _ => trivial
    | none, _, h₁ => safe_launchCommand q (h₁ rfl)

theorem safe_waiter (hs : s.fields.state ≠ .ready) : discipline.Respects t waiter s := by
  have hstate : discipline.Stable t fun s => s.fields.state ≠ .ready := by
    intro s s' h hs
    obtain ⟨_, u, o, _, he⟩ := effect_of_interferes h
    exact he.moves.ne_ready hs
  have hwait : discipline.Safe t (fun _ s' => Reaping t s') (perform .wait) s := by
    refine safe_perform hstate hs fun s₁ hi h₁ r s₂ hx => ⟨trivial, nofun, ?_⟩
    simp only [exec] at hx
    split_ifs at hx with hnone
    cases hx
    refine ⟨rfl, ?_⟩
    cases hst : s₁.fields.state with
    | ready => exact absurd hst h₁
    | running => rfl
    | exited => exact absurd hnone.2 (hi.reaped hst)
  have htrue := discipline.stable_const t True
  refine hwait.bind fun exit s₁ h₁ => ?_
  refine (safe_outside rfl stable_reaping h₁).bind fun _ s₂ h₂ => ?_
  refine safe_locked stable_reaping (fun _ _ h => ⟨h.1, h.2⟩) (fun _ => htrue) (fun _ _ _ h => h)
    (fun s hh hset hr => ?_) h₂
  refine safe_perform (stable_settled stable_reaping) ⟨hh, hset, hr⟩ ?_
  rintro s₃ - ⟨hh, hset, hr⟩ r s₄ hx
  cases hx
  refine ⟨⟨hh, hr.reaper, hr.state⟩, nofun, hh, ?_, trivial⟩
  cases hset with
  | none hl ho hs =>
    rw [hr.state] at hs
    cases hs
  | recorded op hl ho hne hs => exact .recorded op hl ho hne nofun

theorem safe_answer (e : Option String) : discipline.Respects t (perform (.answer e)) s :=
  safe_perform (discipline.stable_const t True) trivial fun _ _ _ _ _ _ => ⟨trivial, nofun, trivial⟩

theorem safe_reply (r : Option (Option String)) : discipline.Respects t (reply r) s := by
  cases r with
  | none => exact trivial
  | some e => exact safe_answer e

theorem safe_since {p : Prog α} {post : α → State → Prop}
    (h : discipline.Safe t post p s) (hp : p.Uses fun o => o.silent = true) (hs : Since t s₀ s) :
    discipline.Safe t (fun a s' => post a s' ∧ Since t s₀ s') p s :=
  h.frame (stable_since s₀) hp
    (fun _ _ _ _ ho _ hperm hx h => h.trans ((effect_of_exec hperm hx).since (.inr ho))) hs

theorem silent_locked {body : Prog α} (h : body.Uses fun o => o.silent = true) :
    (locked body).Uses fun o => o.silent = true :=
  Program.uses_perform rfl fun _ => Program.uses_bind h fun _ => Program.uses_perform rfl fun _ => trivial

theorem silent_start (op : String) : (start op).Uses fun o => o.silent = true := by
  refine silent_locked (Program.uses_perform rfl fun a => ?_)
  split_ifs with _ _ hready
  · trivial
  · trivial
  · trivial
  · refine Program.uses_perform rfl fun
      | some e => trivial
      | none => ?_
    refine Program.uses_perform rfl fun
      | some e => trivial
      | none => ?_
    exact Program.uses_perform rfl fun
      | some e => trivial
      | none => ⟨rfl, fun _ => ⟨rfl, fun _ => trivial⟩⟩

theorem silent_awaitStarted (rounds : ℕ) : (awaitStarted rounds).Uses fun o => o.silent = true := by
  induction rounds with
  | zero => trivial
  | succ rounds ih =>
    refine Program.uses_perform rfl fun r => ?_
    cases r.bind parsePid with
    | some pid => exact Program.uses_bind (silent_locked ⟨rfl, fun _ => trivial⟩) fun _ => trivial
    | none =>
      refine Program.uses_bind (silent_locked ⟨rfl, fun _ => trivial⟩) fun a => ?_
      cases a.exit with
      | some exit => trivial
      | none =>
        exact Program.uses_perform rfl fun
          | .cancelled e => trivial
          | .timeout => trivial
          | .again => ih

/-- One more thing was returned to the thread, the outcome of the operation; the thread was
answered the same, except perhaps when it had to wait for the report. -/
def Told (t : ℕ) (op : String) (rounds : ℕ) (s₀ s : State) : Prop :=
  ∃ e, said t s.returned = e :: said t s₀.returned ∧
    (∀ launched, s₀.launches = [launched] → Outcome op launched e) ∧
    ((e = none → Reported s₀ ∧ 0 < rounds) → said t s.answers = e :: said t s₀.answers)

theorem stable_told (op : String) (rounds : ℕ) (s₀ : State) :
    discipline.Stable t (Told t op rounds s₀) := by
  rintro s s' h ⟨e, hret, hout, hans⟩
  have hsince := stable_since s s s' h (.refl t s)
  exact ⟨e, hsince.returned.trans hret, hout, fun he => hsince.answers.trans (hans he)⟩

theorem safe_note (e : Option String) (hs : Since t s₀ s) : discipline.Safe t
    (fun _ s' => ∃ s₁, Since t s₀ s₁ ∧ s' = { s₁ with returned := (t, e) :: s₁.returned })
    (perform (.note e)) s := by
  refine safe_perform (stable_since s₀) hs fun s₁ _ h₁ r s₂ hx => ⟨trivial, nofun, s₁, h₁, ?_⟩
  cases hx
  rfl

theorem safe_startCall (op : String) (rounds : ℕ) (s₀ : State) :
    discipline.Safe t (fun r s' => ∃ e s₁, Since t s₀ s₁ ∧
        (∀ launched, s₀.launches = [launched] → Outcome op launched e) ∧
        ((e = none → Reported s₀ ∧ 0 < rounds) → r = some e) ∧
        Since t { s₁ with returned := (t, e) :: s₁.returned } s') (startCall op rounds) s₀ := by
  have hs := Since.refl t s₀
  refine (safe_since (safe_start op hs) (silent_start op) hs).bind fun e s₁ ⟨hout, h₁⟩ => ?_
  refine (safe_note e h₁).bind ?_
  rintro - s₃ ⟨s₂, h₂, rfl⟩
  cases e with
  | some e => exact ⟨some e, s₂, h₂, hout, fun _ => rfl, .refl t _⟩
  | none => ?_
  have h₃ := Since.refl t { s₂ with returned := (t, none) :: s₂.returned }
  refine (safe_since (safe_awaitStarted rounds h₃) (silent_awaitStarted rounds) h₃).weaken ?_
  rintro r s₄ ⟨hr, h₄⟩
  refine ⟨none, s₂, h₂, hout, fun hwait => ?_, h₄⟩
  obtain ⟨⟨pid, hpid⟩, hrounds⟩ := hwait rfl
  have hfile : s₂.pidFile = s₀.pidFile := by
    refine h₂.pidFile fun hnone => ?_
    rw [hnone] at hpid
    cases hpid
  exact hr ⟨pid, by rw [← hpid, ← hfile]⟩ hrounds

theorem safe_start_job (op : String) (rounds : ℕ) (s₀ : State) :
    discipline.Safe t (fun _ s => Told t op rounds s₀ s) (code (.start op rounds)) s₀ := by
  refine (safe_startCall op rounds s₀).bind ?_
  rintro r s₂ ⟨e, s₁, h₁, hout, hr, h₂⟩
  have hret : ∀ s, Since t { s₁ with returned := (t, e) :: s₁.returned } s →
      said t s.returned = e :: said t s₀.returned := by
    intro s h
    rw [h.returned, said_cons_self, h₁.returned]
  cases r with
  | none => exact ⟨e, hret s₂ h₂, hout, fun h => absurd (hr h) nofun⟩
  | some e' =>
    refine safe_perform (stable_since _) h₂ fun s₃ _ h₃ _ s₄ hx => ⟨trivial, nofun, ?_⟩
    cases hx
    refine ⟨e, hret s₃ h₃, hout, fun h => ?_⟩
    obtain rfl : e' = e := Option.some.inj (hr h)
    rw [said_cons_self, h₃.answers, h₁.answers]

end safe

theorem sound : discipline.Sound (· = {}) where
  boots s hs := by
    subst hs
    exact ⟨⟨.none rfl rfl rfl, nofun, fun h => absurd rfl h, fun _ => Iff.rfl, .nil, nofun, .nil, nofun⟩, trivial, fun _ => trivial⟩
  crashes s _ :=
    ⟨⟨.none rfl rfl rfl, nofun, fun h => absurd rfl h, fun _ => Iff.rfl, .nil, nofun, .nil, nofun⟩, trivial, fun _ => trivial⟩
  accepts s j _ hj t := by
    cases j with
    | waiter => cases hj
    | report text =>
      have hl : s.launches ≠ [] := of_decide_eq_true hj
      exact hl
    | _ => trivial
  jobs j t s _ hpre _ := by
    cases j with
    | idle => trivial
    | status =>
      exact (safe_look (discipline.stable_const t True) (fun _ _ h => h) trivial).bind
        fun _ _ _ => safe_answer none
    | start op rounds => exact (safe_start_job op rounds s).weaken fun _ _ _ => trivial
    | signal sig => exact (safe_signal sig).bind fun e _ _ => safe_answer e
    | stop stopSignal seconds rounds =>
      exact (safe_stop stopSignal seconds rounds).bind fun r _ _ => safe_reply r
    | exec q => exact (safe_execCall q).bind fun e _ _ => safe_answer e
    | waiter => exact safe_waiter hpre
    | report text =>
      have hlaunched : discipline.Stable t fun s => s.launches ≠ [] := by
        intro s s' h hs
        have hsince := stable_since s s s' h (.refl t s)
        rwa [hsince.launches hs]
      exact safe_perform hlaunched hpre fun _ _ h₁ _ _ _ => ⟨h₁, nofun, trivial⟩

def Op.holds : Op → Bool → Bool
  | .lock, _ => true
  | .unlock, _ => false
  | _, held => held

/-- A program that starts with or without the mutex, waits for nothing while it holds it, and
ends without it (or with it, as `after` says). -/
def Bracketed {α : Type} (after : Bool) : Bool → Prog α → Prop
  | held, .pure _ => held = after
  | held, .call o next => (o = .lock ∨ o = .wait → held = false) ∧
      ∀ r, Bracketed after (o.holds held) (next r)

section bracketed
variable {α β : Type}

theorem Bracketed.bind {first held last : Bool} {p : Prog α} {f : α → Prog β}
    (hp : Bracketed held first p) (hf : ∀ a, Bracketed last held (f a)) :
    Bracketed last first (p >>= f) := by
  induction p generalizing first with
  | pure a =>
    obtain rfl : first = held := hp
    exact hf a
  | call o next ih => exact ⟨hp.1, fun r => ih r (hp.2 r)⟩

theorem bracketed_perform {o : Op} (ho : o.waits = false) (held : Bool) :
    Bracketed held held (perform o) := by
  cases o with
  | lock | unlock | wait => cases ho
  | _ => exact ⟨by simp, fun _ => rfl⟩

theorem bracketed_locked {body : Prog α} (h : Bracketed true true body) :
    Bracketed false false (locked body) := by
  refine ⟨fun _ => rfl, fun _ => ?_⟩
  refine h.bind fun a => ⟨fun he => ?_, fun _ => rfl⟩
  rcases he with he | he
  · cases he
  · cases he

theorem bracketed_look : Bracketed false false (locked (perform .get)) :=
  bracketed_locked (bracketed_perform rfl true)

theorem bracketed_launchContainer (op : String) : Bracketed true true (launchContainer op) := by
  refine (bracketed_perform rfl true).bind fun
    | some e => rfl
    | none => ?_
  refine (bracketed_perform rfl true).bind fun
    | some e => rfl
    | none => ?_
  refine (bracketed_perform rfl true).bind fun
    | some e => rfl
    | none => ?_
  refine (bracketed_perform rfl true).bind fun _ => ?_
  exact (bracketed_perform rfl true).bind fun _ => rfl

theorem bracketed_start (op : String) : Bracketed false false (start op) := by
  refine bracketed_locked ((bracketed_perform rfl true).bind fun a => ?_)
  split_ifs with _ _ hready
  · rfl
  · rfl
  · rfl
  · exact bracketed_launchContainer op

theorem bracketed_awaitStarted (rounds : ℕ) : Bracketed false false (awaitStarted rounds) := by
  induction rounds with
  | zero => rfl
  | succ rounds ih =>
    refine (bracketed_perform rfl false).bind fun r => ?_
    cases r.bind parsePid with
    | some pid =>
      exact (bracketed_locked (bracketed_perform rfl true)).bind fun _ => rfl
    | none =>
      refine bracketed_look.bind fun a => ?_
      cases a.exit with
      | some exit => rfl
      | none =>
        exact (bracketed_perform rfl false).bind fun
          | .cancelled e => rfl
          | .timeout => rfl
          | .again => ih

theorem bracketed_startCall (op : String) (rounds : ℕ) : Bracketed false false (startCall op rounds) := by
  refine (bracketed_start op).bind fun e => ?_
  refine (bracketed_perform rfl false).bind fun _ => ?_
  cases e with
  | some e => rfl
  | none => exact bracketed_awaitStarted rounds

theorem bracketed_signal (sig : String) : Bracketed false false (signal sig) := by
  unfold signal
  cases parseSignal sig with
  | error e => rfl
  | ok n =>
    exact (bracketed_look.bind fun a => rfl : Bracketed false false running).bind fun
      | true => bracketed_perform rfl false
      | false => rfl

theorem bracketed_running : Bracketed false false running := bracketed_look.bind fun _ => rfl

theorem bracketed_stopLoop (rounds : ℕ) : Bracketed false false (stopLoop rounds) := by
  induction rounds with
  | zero => rfl
  | succ rounds ih =>
    refine bracketed_running.bind fun
      | false => rfl
      | true => ?_
    exact (bracketed_perform rfl false).bind fun
      | .cancelled e => rfl
      | .timeout => (bracketed_signal _).bind fun _ => rfl
      | .again => ih

theorem bracketed_stop (stopSignal : String) (seconds : ℤ) (rounds : ℕ) :
    Bracketed false false (stop stopSignal seconds rounds) := by
  unfold stop
  by_cases hseconds : seconds < 0 ∨ seconds > 300
  · rw [if_pos hseconds]
    rfl
  rw [if_neg hseconds]
  refine bracketed_running.bind fun
    | false => rfl
    | true => ?_
  exact (bracketed_signal _).bind fun
    | some e => rfl
    | none => bracketed_stopLoop rounds

theorem bracketed_admitExec (id : String) : Bracketed false false (admitExec id) := by
  refine bracketed_locked ((bracketed_perform rfl true).bind fun a => ?_)
  split_ifs
  · rfl
  · rfl
  · exact (bracketed_perform rfl true).bind fun _ => rfl

theorem bracketed_launchCommand (q : ExecRequest) : Bracketed false false (launchCommand q) := by
  have huser : Bracketed false false (if q.user = "" then return none
      else perform (.lookupUser q.user) : Prog (Option String)) := by
    split_ifs
    · rfl
    · exact bracketed_perform rfl false
  refine (bracketed_perform rfl false).bind fun
    | some e => rfl
    | none => ?_
  by_cases hcwd : q.cwd ≠ "" ∧ ¬ isAbs q.cwd = true
  · simp only [if_pos hcwd]
    rfl
  simp only [if_neg hcwd]
  refine huser.bind fun
    | some e => rfl
    | none => ?_
  refine (bracketed_perform rfl false).bind fun
    | some e => rfl
    | none => ?_
  exact (bracketed_perform rfl false).bind fun
    | some e => rfl
    | none => bracketed_perform rfl false

theorem bracketed_execCall (q : Option ExecRequest) : Bracketed false false (execCall q) := by
  cases q with
  | none => rfl
  | some q => ?_
  unfold execCall
  by_cases hq : q.args = [] ∨ q.id = ""
  · simp only [if_pos hq]
    rfl
  simp only [if_neg hq]
  exact (bracketed_admitExec q.id).bind fun
    | some e => rfl
    | none => bracketed_launchCommand q

theorem bracketed_reply (r : Option (Option String)) : Bracketed false false (reply r) := by
  cases r with
  | none => rfl
  | some e => exact bracketed_perform rfl false

theorem bracketed_code (j : Job) : Bracketed false false (code j) := by
  cases j with
  | idle => rfl
  | status => exact bracketed_look.bind fun _ => bracketed_perform rfl false
  | start op rounds => exact (bracketed_startCall op rounds).bind bracketed_reply
  | signal sig => exact (bracketed_signal sig).bind fun e => bracketed_perform rfl false
  | stop stopSignal seconds rounds =>
    exact (bracketed_stop stopSignal seconds rounds).bind bracketed_reply
  | exec q => exact (bracketed_execCall q).bind fun e => bracketed_perform rfl false
  | waiter =>
    refine ⟨fun _ => rfl, fun exit => ?_⟩
    refine (bracketed_perform rfl false).bind fun _ => ?_
    exact bracketed_locked (bracketed_perform rfl true)
  | report text => exact bracketed_perform rfl false

end bracketed

section progress
variable {c c' : Config State Op Op.Reply}

/-- What a call does to the mutex, for the thread itself and for the others. -/
theorem Effect.holder {t : ℕ} {s s' : State} {o : Op} (h : Effect t s o s') :
    decide (s'.holder = some t) = o.holds (decide (s.holder = some t)) ∧
      ∀ u, u ≠ t → (s'.holder = some u ↔ s.holder = some u) := by
  cases h with
  | lock hfree =>
    refine ⟨by simp [Op.holds], fun u hu => ?_⟩
    simp [hfree, Ne.symm hu]
  | unlock hh hsettled =>
    refine ⟨by simp [Op.holds], fun u hu => ?_⟩
    simp [hh, Ne.symm hu]
  | quiet o ho =>
    refine ⟨?_, fun _ _ => Iff.rfl⟩
    cases o with
    | lock | unlock => cases ho
    | _ => rfl
  | _ => exact ⟨rfl, fun _ _ => Iff.rfl⟩

theorem exec_enabled (t : ℕ) (s : State) {o : Op} (hw : o ≠ .wait)
    (hl : o = .lock → s.holder = none) : ∃ r s', exec t s o r = some s' := by
  cases o with
  | lock => exact ⟨(), _, if_pos (hl rfl)⟩
  | wait => exact absurd rfl hw
  | get => exact ⟨s.fields, s, if_pos rfl⟩
  | readPid => exact ⟨s.pidFile, s, if_pos rfl⟩
  | pause => exact ⟨.timeout, s, rfl⟩
  | writePid text =>
    by_cases hnone : s.pidFile = none
    · exact ⟨(), _, if_pos hnone⟩
    · exact ⟨(), s, if_neg hnone⟩
  | build | lookupUser | writeFile | launch | launchExec | waitExec | kill => exact ⟨none, _, rfl⟩
  | _ => exact ⟨(), _, rfl⟩

theorem bracketed_booted (t : ℕ) :
    Bracketed false (decide ((agent.booted {}).state.holder = some t)) ((agent.booted {}).threads t) := by
  by_cases ht : t = 0
  · subst ht
    exact bracketed_code .idle
  · simp [System.booted, ht, Bracketed]

theorem bracketed_step (hc : agent.Reachable (· = {}) c) {l : Label Op Op.Reply Job}
    (h : ∀ t, Bracketed false (decide (c.state.holder = some t)) (c.threads t))
    (hs : agent.Step c l c') (t : ℕ) :
    Bracketed false (decide (c'.state.holder = some t)) (c'.threads t) := by
  have hguarded := sound.guarded hc
  have hidle : ∀ u, c.count ≤ u → c.state.holder ≠ some u := by
    intro u hu
    have hb := h u
    rw [hguarded.idle u hu] at hb
    exact of_decide_eq_false hb
  cases hs with
  | @run u o next r s hu hx =>
    obtain ⟨hself, hothers⟩ := (effect_of_exec (hguarded.permit hu hx).1 hx).holder
    have hlt : u < c.count := by
      by_contra hge
      rw [hguarded.idle u (not_lt.1 hge)] at hu
      cases hu
    rw [System.resume_state]
    rcases agent.resume_cases hlt o (next r) s t with ⟨rfl, hp⟩ | ⟨hne, hp⟩ | ⟨rfl, j, hp⟩
    · rw [hp, hself]
      have hb := h t
      rw [hu] at hb
      exact hb.2 r
    · rw [hp, decide_eq_decide.2 (hothers t hne)]
      exact h t
    · rw [hp, decide_eq_decide.2 (hothers _ hlt.ne'), decide_eq_false (hidle _ le_rfl)]
      exact bracketed_code j
  | @request j hj =>
    by_cases ht : t = c.count
    · subst ht
      have hp : (agent.start c j).threads c.count = code j := by simp [System.start, agent]
      rw [hp, decide_eq_false]
      · exact bracketed_code j
      · exact hidle c.count le_rfl
    · have hp : (agent.start c j).threads t = c.threads t := by simp [System.start, ht]
      rw [hp]
      exact h t
  | crash => exact bracketed_booted t

theorem bracketed_of_reachable (hc : agent.Reachable (· = {}) c) (t : ℕ) :
    Bracketed false (decide (c.state.holder = some t)) (c.threads t) := by
  refine System.Reachable.induct agent (P := fun c => ∀ t,
    Bracketed false (decide (c.state.holder = some t)) (c.threads t)) ?_ ?_ hc t
  · rintro s rfl t
    exact bracketed_booted t
  · exact fun c l c' hc h hs => bracketed_step hc h hs

/-- A thread that is not waiting for the container can go on, or the mutex's holder can. -/
theorem step_enabled (hc : agent.Reachable (· = {}) c) {t : ℕ} {o : Op}
    {next : o.Reply → Prog Unit} (ht : c.threads t = .call o next) (hw : o ≠ .wait) :
    ∃ u o r c', (u = t ∨ c.state.holder = some u) ∧ agent.Step c (.run u o r) c' := by
  by_cases hl : o = .lock → c.state.holder = none
  · obtain ⟨r, s', hx⟩ := exec_enabled t c.state hw hl
    exact ⟨t, o, r, _, .inl rfl, .run ht hx⟩
  -- Another thread holds the mutex; its program goes on, and not with a wait.
  · obtain ⟨rfl, hheld⟩ := Classical.not_imp.1 hl
    obtain ⟨u, hu⟩ := Option.ne_none_iff_exists'.1 hheld
    have hb := bracketed_of_reachable hc u
    rw [hu, decide_eq_true rfl] at hb
    cases hp : c.threads u with
    | pure a =>
      rw [hp] at hb
      cases hb
    | call o' next' =>
      rw [hp] at hb
      have hnot : o' ≠ .lock ∧ o' ≠ .wait :=
        ⟨fun he => absurd (hb.1 (.inl he)) nofun, fun he => absurd (hb.1 (.inr he)) nofun⟩
      obtain ⟨r, s', hx⟩ := exec_enabled u c.state hnot.2 fun he => absurd he hnot.1
      exact ⟨u, o', r, _, .inr hu, .run hp hx⟩

/-- The mutex is not held for good: from every state its holder can run, alone, until it has
released it. -/
theorem mutex_released {u : ℕ} (hc : agent.Reachable (· = {}) c) (hu : c.state.holder = some u) :
    ∃ c', agent.Runs (fun _ l => ∃ o r, l = .run u o r) c c' ∧ c'.state.holder = none := by
  generalize hp : c.threads u = p
  induction p generalizing c with
  | pure a =>
    have hb := bracketed_of_reachable hc u
    rw [hu, hp, decide_eq_true rfl] at hb
    cases hb
  | call o next ih =>
    have hb := bracketed_of_reachable hc u
    rw [hu, hp, decide_eq_true rfl] at hb
    have hl : o ≠ .lock := fun he => Bool.noConfusion (hb.1 (.inl he))
    have hw : o ≠ .wait := fun he => Bool.noConfusion (hb.1 (.inr he))
    obtain ⟨r, s', hx⟩ := exec_enabled u c.state hw fun he => absurd he hl
    have hs : agent.Step c (.run u o r) (agent.resume c u o (next r) s') := .run hp hx
    have hstate : (agent.resume c u o (next r) s').state = s' := agent.resume_state ..
    have hguarded := sound.guarded hc
    have hlt : u < c.count := by
      by_contra hge
      rw [hguarded.idle u (not_lt.1 hge)] at hp
      cases hp
    have hother := (effect_of_exec (hguarded.permit hp hx).1 hx).holder.2
    rw [← hstate] at hother
    cases hh : (agent.resume c u o (next r) s').state.holder with
    | none => exact ⟨_, .single ⟨_, ⟨o, r, rfl⟩, hs⟩, hh⟩
    | some v =>
      -- no other thread has come to hold it
      obtain rfl : v = u := by
        by_contra hv
        exact hv (Option.some.inj (((hother v hv).1 hh).symm.trans hu))
      obtain ⟨c', hruns, hfree⟩ := ih r (hc.step agent hs) hh (agent.resume_self hlt o (next r) s').1
      exact ⟨c', .head ⟨_, ⟨o, r, rfl⟩, hs⟩ hruns, hfree⟩

end progress

theorem waitless_start (op : String) (rounds : ℕ) : (code (.start op rounds)).Uses (· ≠ .wait) := by
  have hsilent : ∀ o : Op, o.silent = true → o ≠ .wait := by
    rintro o ho rfl
    cases ho
  refine Program.uses_bind (Program.uses_bind ((silent_start op).mono hsilent) fun e => ?_) fun r => ?_
  · refine Program.uses_perform nofun fun _ => ?_
    cases e with
    | some e => trivial
    | none => exact (silent_awaitStarted rounds).mono hsilent
  · cases r with
    | none => trivial
    | some e => exact ⟨nofun, fun _ => trivial⟩

theorem Launched.length_le {s : State} (h : Launched s) : s.launches.length ≤ 1 := by
  cases h with
  | none hl =>
    rw [hl]
    exact Nat.zero_le 1
  | recorded hl =>
    rw [hl]
    exact le_rfl
  | pending hl =>
    rw [hl]
    exact le_rfl

theorem moves_of_step {c c' : Config State Op Op.Reply} (hc : agent.Reachable (· = {}) c)
    {l : Label Op Op.Reply Job} (hl : l ≠ .crash) (hs : agent.Step c l c') :
    c.state.fields.state.Moves c'.state.fields.state := by
  cases hs with
  | run ht hx =>
    rw [System.resume_state]
    exact (effect_of_exec ((sound.guarded hc).permit ht hx).1 hx).moves
  | request hj => exact .same _
  | crash => exact absurd rfl hl

/-- At most one container process and one process per command ID are launched, the status only
moves forward, and a start request that begins after the launch is told its outcome. -/
theorem launched_at_most_once {c : Config State Op Op.Reply} (hc : agent.Reachable (· = {}) c) :
    c.state.launches.length ≤ 1 ∧
    c.state.execLaunches.Nodup ∧
    (∀ id ∈ c.state.execLaunches, ∃ t, (id, t, Status.running) ∈ c.state.submitted) ∧
    (∀ l c', l ≠ .crash → agent.Step c l c' → c.state.fields.state.Moves c'.state.fields.state) ∧
    ∀ t op rounds, t < c.count → c.threads t = code (.start op rounds) →
      ∀ c', agent.Runs (fun _ l => l ≠ .crash) c c' →
        (c'.threads t = .pure () → Told t op rounds c.state c'.state) ∧
        (c'.threads t ≠ .pure () →
          ∃ u o r c'', (u = t ∨ c'.state.holder = some u) ∧ agent.Step c' (.run u o r) c'') := by
  have hi := (sound.guarded hc).inv
  refine ⟨hi.launched.length_le, hi.once, fun id hid => ?_, fun l c' hl hs => moves_of_step hc hl hs,
    fun t op rounds hlt ht c' hr => ⟨fun hdone => ?_, fun hgoes => ?_⟩⟩
  · obtain ⟨⟨_, t, st⟩, hx, rfl⟩ := List.mem_map.1 (hi.admitted id hid)
    obtain rfl : st = .running := hi.running _ hx
    exact ⟨t, hx⟩
  · have hsafe := safe_start_job (t := t) op rounds c.state
    rw [← ht] at hsafe
    have htold := sound.tracked hc (fun _ => stable_told op rounds c.state) hsafe hlt hr
    rw [hdone] at htold
    exact htold
  · have huses := waitless_start op rounds
    rw [← ht] at huses
    have huses' := System.Runs.uses agent hr hlt huses
    cases hp : c'.threads t with
    | pure a => exact absurd hp hgoes
    | call o next =>
      rw [hp] at huses'
      exact step_enabled (System.Reachable.runs agent hc hr) hp huses'.1

namespace Sample

def oracle (s : State) : (o : Op) → ℕ → o.Reply
  | .get, _ => s.fields
  | .readPid, _ => s.pidFile
  | .wait, _ => ⟨some 0, "application exited", false, 0⟩
  | .pause, _ => .again
  | .build, _ | .lookupUser _, _ | .writeFile, _ | .launch _, _ | .launchExec _, _ | .waitExec, _
  | .kill _, _ => none
  | .lock, _ | .unlock, _ | .setStarted _, _ | .setExited _, _ | .setPid _, _ | .submit _, _
  | .spawn, _ | .cleanUp, _ | .writePid _, _ | .note _, _ | .answer _, _ => ()

def command : ExecRequest := ⟨"x", ["ls"], "", ""⟩

def schedule : List (System.Move Job) :=
  [.request (.start "a" 1)] ++ List.replicate 9 (.run 1 0) ++
  [.request (.report "42\n"), .run 3 0] ++ List.replicate 5 (.run 1 0) ++
  [.request (.exec (some command))] ++ List.replicate 9 (.run 4 0)

def launched : Option (Config State Op Op.Reply) := agent.replay oracle (agent.booted {}) schedule

end Sample

theorem launched_at_most_once_replayed : ∃ c, agent.Reachable (· = {}) c ∧
    c.state.launches = ["a"] ∧ c.state.execLaunches = ["x"] ∧
    ∀ op c', agent.Runs (fun _ l => l ≠ .crash) (agent.start c (.start op 1)) c' →
      c'.threads c.count = .pure () →
      ∃ e, said c.count c'.state.answers = e :: said c.count c.state.answers ∧ Outcome op "a" e := by
  have hrun : (Sample.launched.map fun c => (c.state.launches, c.state.execLaunches,
      c.state.pidFile.bind parsePid)) = some (["a"], ["x"], some 42) := by decide +kernel
  obtain ⟨c, hc, hfacts⟩ := Option.map_eq_some_iff.1 hrun
  simp only [Prod.mk.injEq] at hfacts
  obtain ⟨hl, hx, hpid⟩ := hfacts
  have hreach : agent.Reachable (· = {}) c := ⟨{}, rfl, agent.replay_runs hc⟩
  refine ⟨c, hreach, hl, hx, fun op c' hr hdone => ?_⟩
  have hstart := hreach.step agent (System.Step.request (j := .start op 1) rfl)
  obtain ⟨e, -, hout, hans⟩ := ((launched_at_most_once hstart).2.2.2.2 c.count op 1
    (Nat.lt_succ_self _) (by simp [System.start, agent]) c' hr).1 hdone
  exact ⟨e, hans fun _ => ⟨⟨42, hpid⟩, Nat.one_pos⟩, hout "a" hl⟩

theorem mutex_released_started : ∃ c c', agent.Reachable (· = {}) c ∧ c.state.holder = some 1 ∧
    agent.Runs (fun _ l => ∃ o r, l = .run 1 o r) c c' ∧ c'.state.holder = none := by
  have hrun : ((agent.replay Sample.oracle (agent.booted {}) (Sample.schedule.take 4)).map
      fun c => c.state.holder) = some (some 1) := by decide +kernel
  obtain ⟨c, hc, hu⟩ := Option.map_eq_some_iff.1 hrun
  have hreach : agent.Reachable (· = {}) c := ⟨{}, rfl, agent.replay_runs hc⟩
  obtain ⟨c', hruns, hfree⟩ := mutex_released hreach hu
  exact ⟨c, c', hreach, hu, hruns, hfree⟩

end GuestAgent
end Niflhel
