import Niflhel.GoText

/-!
# The control contract

Records exchanged by the command line, the host daemon and the guest agent, and the
admission check `Spec.validate` every creation request passes. Times are natural numbers,
`int` and `int64` fields are integers, and a pointer that may be nil is an option.
-/

namespace Niflhel
open GoText

abbrev Time := ℕ

def mib : ℤ := 2 ^ 20
def gib : ℤ := 2 ^ 30

structure Port where
  hostIP : String
  hostPort : ℤ
  containerPort : ℤ
  deriving DecidableEq, Repr

structure Mount where
  name : String
  target : String
  readOnly : Bool
  deriving DecidableEq, Repr

structure Spec where
  image : String
  base : String
  name : String
  command : List String
  entrypoint : Option String
  env : List String
  user : String
  workdir : String
  cpus : ℤ
  memory : ℤ
  diskSize : ℤ
  pidsLimit : ℤ
  network : String
  ports : List Port
  mounts : List Mount
  runtime : String
  platform : String
  pull : String
  readOnly : Bool
  interactive : Bool
  tty : Bool
  autoRemove : Bool
  deriving DecidableEq, Repr

def defaultSpec : Spec where
  image := ""
  base := ""
  name := ""
  command := []
  entrypoint := none
  env := []
  user := ""
  workdir := ""
  cpus := 1
  memory := 512 * mib
  diskSize := 4 * gib
  pidsLimit := 256
  network := "bridge"
  ports := []
  mounts := []
  runtime := "runc"
  platform := "linux/amd64"
  pull := "missing"
  readOnly := false
  interactive := false
  tty := false
  autoRemove := false

def isAlnum (c : Char) : Bool :=
  ('a' ≤ c && c ≤ 'z') || ('A' ≤ c && c ≤ 'Z') || ('0' ≤ c && c ≤ '9')

/-- The regular expression `^[a-zA-Z0-9][a-zA-Z0-9_.-]{0,62}$`. -/
def validName (s : String) : Bool :=
  match s.toList with
  | [] => false
  | c :: cs => isAlnum c && decide (cs.length ≤ 62) &&
      cs.all fun d => isAlnum d || d == '_' || d == '.' || d == '-'

def isHexDigit (c : Char) : Bool := ('0' ≤ c && c ≤ '9') || ('a' ≤ c && c ≤ 'f')

/-- Texts `api.ID` can return: sixteen random bytes in lower-case hexadecimal. -/
def isID (s : String) : Bool := decide (s.toList.length = 32) && s.toList.all isHexDigit

def escapes : List (Char × Char) :=
  [('"', '"'), ('\\', '\\'), ('\x07', 'a'), ('\x08', 'b'), ('\x0c', 'f'), ('\n', 'n'), ('\r', 'r'),
    ('\t', 't'), ('\x0b', 'v')]

def quotedChar (c : Char) : List Char :=
  let hex := [Nat.digitChar (c.toNat / 16), Nat.digitChar (c.toNat % 16)]
  match escapes.lookup c with
  | some e => ['\\', e]
  | none =>
    if c.toNat < 32 ∨ c.toNat = 127 then '\\' :: 'x' :: hex
    else if 127 < c.toNat ∧ c.toNat < 160 then '\\' :: 'u' :: '0' :: '0' :: hex
    else [c]

/-- The verb `%q`, for texts whose characters are printable or control characters. -/
def quoted (s : String) : String := "\"" ++ String.ofList (s.toList.flatMap quotedChar) ++ "\""

example : quoted "a\"\n\x01\u0085" = "\"a\\\"\\n\\x01\\u0085\"" := by decide

def validateEnv : List String → Except String Unit
  | [] => .ok ()
  | e :: rest =>
    let (k, _, ok) := cut e '='
    if !ok || k == "" || containsRune e '\x00' then .error "invalid environment entry"
    else validateEnv rest

def validatePorts (seen : List ℤ) : List Port → Except String Unit
  | [] => .ok ()
  | p :: rest =>
    if p.hostIP ≠ "127.0.0.1" ∧ p.hostIP ≠ "0.0.0.0" then
      .error "host IP must be 127.0.0.1 or 0.0.0.0"
    else if p.hostPort < 1 ∨ p.hostPort > 65535 ∨ p.containerPort < 1 ∨
        p.containerPort > 65535 then .error "port out of range"
    else if p.hostPort ∈ seen then .error "duplicate host port"
    else validatePorts (p.hostPort :: seen) rest

def reservedTargets : List String := ["/proc", "/sys", "/dev", "/run/niflhel"]

/-- Targets and names share one set of seen keys, the names under the key `name:NAME`. -/
def validateMounts (seen : List String) : List Mount → Except String Unit
  | [] => .ok ()
  | m :: rest =>
    if !validName m.name || !isAbs m.target || pathClean m.target != m.target ||
        m.target == "/" then .error "invalid named volume mount"
    else if reservedTargets.any fun r => m.target == r || hasPrefix m.target (r ++ "/") then
      .error ("reserved mount target " ++ m.target)
    else if m.target ∈ seen ∨ ("name:" ++ m.name) ∈ seen then
      .error "duplicate volume or destination"
    else validateMounts (("name:" ++ m.name) :: m.target :: seen) rest

def Spec.validate (s : Spec) : Except String Unit := do
  if s.image = "" then throw "image is required"
  if s.name ≠ "" ∧ ¬ validName s.name then throw ("invalid name " ++ quoted s.name)
  if s.runtime ≠ "runc" then
    throw ("UnsupportedFeature: runtime " ++ quoted s.runtime ++ "; phase one supports runc")
  if s.platform ≠ "linux/amd64" then
    throw ("UnsupportedFeature: platform " ++ quoted s.platform)
  if s.cpus < 1 ∨ s.cpus > 32 then throw "cpus must be a whole number between 1 and 32"
  if s.memory < 64 * mib ∨ s.memory > 1024 * gib then
    throw "memory must be between 64 MiB and 1 TiB"
  if s.diskSize < 64 * mib ∨ s.diskSize > 1024 * gib then
    throw "disk size must be between 64 MiB and 1 TiB"
  if s.pidsLimit < 1 ∨ s.pidsLimit > 2 ^ 20 then throw "invalid pids limit"
  if s.network ≠ "bridge" ∧ s.network ≠ "none" then
    throw ("UnsupportedFeature: network " ++ quoted s.network)
  if s.network = "none" ∧ s.ports.length > 0 then
    throw "cannot publish ports with network none"
  if s.pull ≠ "always" ∧ s.pull ≠ "missing" ∧ s.pull ≠ "never" then
    throw "pull must be always, missing, or never"
  if s.workdir ≠ "" ∧ ¬ isAbs s.workdir then throw "workdir must be absolute"
  validateEnv s.env
  validatePorts [] s.ports
  if s.mounts.length > 8 then throw "at most eight named volumes are supported"
  validateMounts [] s.mounts

theorem nodup_of_validatePorts {seen : List ℤ} {ports : List Port}
    (h : validatePorts seen ports = .ok ()) :
    (ports.map Port.hostPort).Nodup ∧ ∀ p ∈ ports, p.hostPort ∉ seen := by
  induction ports generalizing seen with
  | nil => simp
  | cons p rest ih =>
    unfold validatePorts at h
    split_ifs at h with hip hrange hseen
    obtain ⟨hnodup, hapart⟩ := ih h
    refine ⟨List.nodup_cons.2 ⟨fun hmem => ?_, hnodup⟩, fun q hq => ?_⟩
    · obtain ⟨q, hq, hpq⟩ := List.mem_map.1 hmem
      exact hapart q hq (hpq ▸ List.mem_cons_self ..)
    · rcases List.mem_cons.1 hq with rfl | hq
      · exact hseen
      · exact fun hmem => hapart q hq (List.mem_cons_of_mem _ hmem)

/-- A sequence of checks succeeds when each check passes. -/
theorem check_eq_ok {α : Type} {p : Prop} [Decidable p] {e : String} {rest : Except String α}
    {a : α} : (if p then .error e else rest) = .ok a ↔ ¬ p ∧ rest = .ok a := by
  by_cases hp : p
  · simp [hp]
  · simp [hp]

/-- What allocation and the mounts rely on in an accepted specification. -/
theorem Spec.validate_eq_ok {s : Spec} (h : s.validate = .ok ()) :
    64 * mib ≤ s.memory ∧ s.memory ≤ 1024 * gib ∧ (s.ports.map Port.hostPort).Nodup ∧
      s.mounts.length ≤ 8 ∧ validateMounts [] s.mounts = .ok () := by
  unfold Spec.validate at h
  simp only [bind, Except.bind, throw, throwThe, MonadExceptOf.throw, check_eq_ok] at h
  obtain ⟨_, _, _, _, _, hmemory, _, _, _, _, _, _, hrest⟩ := h
  cases henv : validateEnv s.env with
  | error e => simp [henv] at hrest
  | ok u =>
    cases hports : validatePorts [] s.ports with
    | error e => simp [henv, hports] at hrest
    | ok u' =>
      rw [henv, hports] at hrest
      rw [check_eq_ok] at hrest
      exact ⟨by omega, by omega, (nodup_of_validatePorts hports).1, by omega, hrest.2⟩

inductive State where
  | creating | created | starting | running | stopping | exited | failed | removing
  deriving DecidableEq, Repr

def State.text : State → String
  | creating => "creating"
  | created => "created"
  | starting => "starting"
  | running => "running"
  | stopping => "stopping"
  | exited => "exited"
  | failed => "failed"
  | removing => "removing"

structure Exit where
  code : Option ℤ
  reason : String
  oom : Bool
  at_ : Time
  deriving DecidableEq, Repr

structure Process where
  args : List String := []
  env : List String := []
  user : String := ""
  cwd : String := ""
  stopSignal : String := ""
  tty : Bool := false
  interactive : Bool := false
  deriving DecidableEq, Repr

structure ImageConfig where
  entrypoint : List String
  cmd : List String
  env : List String
  user : String
  workingDir : String
  stopSignal : String
  volumes : List String
  healthcheck : Bool
  deriving DecidableEq, Repr

def envKey (entry : String) : String := (cut entry '=').1

def mergeEntry (out : List String) (entry : String) : List String :=
  if out.any fun x => envKey x == envKey entry then
    out.map fun x => if envKey x = envKey entry then entry else x
  else out ++ [entry]

def mergeEnv (base override : List String) : List String :=
  (base ++ override).foldl mergeEntry []

def resolveArgs (s : Spec) (c : ImageConfig) : List String :=
  let entry := match s.entrypoint with
    | none => c.entrypoint
    | some e => if e = "" then [] else [e]
  let cmd := if s.command.length > 0 then s.command
    else if s.entrypoint = none then c.cmd else []
  entry ++ cmd

def resolve (s : Spec) (c : ImageConfig) : Except String Process := do
  let args := resolveArgs s c
  if args.length = 0 then throw "image has no command; specify COMMAND"
  if args.any fun a => containsRune a '\x00' then throw "NUL in argument"
  let cwd := if s.workdir ≠ "" then s.workdir else c.workingDir
  let cwd := if cwd = "" then "/" else cwd
  if !isAbs cwd then throw "image working directory is not absolute"
  return {
    args := args
    env := mergeEnv c.env s.env
    user := if s.user ≠ "" then s.user else c.user
    cwd := cwd
    stopSignal := if c.stopSignal = "" then "SIGTERM" else c.stopSignal
    tty := s.tty
    interactive := s.interactive }

structure Sandbox where
  id : String
  name : String
  spec : Spec
  process : Process
  imageDigest : String
  baseDigest : String
  state : State
  reason : String
  warnings : List String
  generation : ℕ
  created : Time
  updated : Time
  exit : Option Exit
  pid : ℤ
  pidStart : String
  guestMemory : ℤ
  slot : ℕ
  vmResourcesReleased : Bool
  deriving DecidableEq, Repr

structure Volume where
  name : String
  size : ℤ
  created : Time
  deriving DecidableEq, Repr

/-- Records that keep volumes and memory from other sandboxes. -/
def reservesVMResources (v : Sandbox) : Bool :=
  match v.state with
  | .starting | .running | .stopping => true
  | .failed => !v.vmResourcesReleased
  | _ => false

def State.isActive : State → Bool
  | .starting | .running | .stopping => true
  | _ => false

theorem reserves_of_active {v : Sandbox} (h : v.state.isActive = true) :
    reservesVMResources v = true := by
  cases hs : v.state <;> simp_all [State.isActive, reservesVMResources]

structure GuestStatus where
  protocol : ℕ
  id : String
  generation : ℕ
  state : String
  exit : Option Exit
  deriving DecidableEq, Repr

structure Frame where
  type : String
  data : List UInt8 := []
  message : String := ""
  code : Option ℤ := none
  width : UInt16 := 0
  height : UInt16 := 0
  sequence : UInt64 := 0
  time : Time := 0
  deriving DecidableEq, Repr

end Niflhel
