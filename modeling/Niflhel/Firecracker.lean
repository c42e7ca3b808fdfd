import Niflhel.Api
import Niflhel.Oracle

/-!
# Identifying and killing a virtual machine monitor

`Manager.Kill` identifies the process of a sandbox by its number, the host's boot ID and
its start tick, and by the control group it is in, all read from procfs call by call. The
process may also be found through the jailer's PID record.
-/

namespace Niflhel
namespace Firecracker
open GoText Concurrent

/-- Errors of the calls: a missing file, a missing process, or any other. -/
inductive Fault where
  | notExist
  | noProcess
  | other (m : String)
  deriving DecidableEq, Repr

/-- `wait` is the pause between two polls, which the context may end with its error. -/
inductive Op where
  | readBootID
  | readStat (pid : ℤ)
  | readCgroup (pid : ℤ)
  | readPidfile (id : String)
  | pidfdOpen (pid : ℤ)
  | pidfdSendSignal (fd : ℕ)
  | wait
  deriving DecidableEq, Repr

abbrev Reply : Op → Type
  | .readBootID => Except Fault String
  | .readStat _ => Except Fault String
  | .readCgroup _ => Except Fault String
  | .readPidfile _ => Except Fault String
  | .pidfdOpen _ => Except Fault ℕ
  | .pidfdSendSignal _ => Option Fault
  | .wait => Option Fault

abbrev Code := Program Op Reply

def readBootID : Code (Except Fault String) := Program.perform Op.readBootID

def readStat (pid : ℤ) : Code (Except Fault String) := Program.perform (Op.readStat pid)

def readCgroup (pid : ℤ) : Code (Except Fault String) := Program.perform (Op.readCgroup pid)

def readPidfile (id : String) : Code (Except Fault String) := Program.perform (Op.readPidfile id)

def pidfdOpen (pid : ℤ) : Code (Except Fault ℕ) := Program.perform (Op.pidfdOpen pid)

def pidfdSendSignal (fd : ℕ) : Code (Option Fault) := Program.perform (Op.pidfdSendSignal fd)

def wait : Code (Option Fault) := Program.perform Op.wait

/-- The start tick in a process status, field 20 after the command name. -/
def startTick (raw : String) : Option String :=
  (afterLast ')' ' ' raw.toList).bind fun rest => (fields (String.ofList rest))[19]?

def pidStartAt (pid : ℤ) : Code (Except Fault String) := do
  match ← readBootID with
  | .error e => return .error e
  | .ok bootRaw =>
    let bootID := trimSpace bootRaw
    if bootID = "" ∨ containsRune bootID ':' then
      return .error (.other "malformed host boot ID")
    match ← readStat pid with
    | .error e => return .error e
    | .ok raw =>
      match startTick raw with
      | none => return .error (.other "malformed process stat")
      | some tick => return .ok (bootID ++ ":" ++ tick)

def ownsLine (id line : String) : Bool :=
  match splitN line ':' 3 with
  | [_, _, path] => path = "/niflhel/" ++ id
  | _ => false

def owns (id group : String) : Bool := (split group '\n').any (ownsLine id)

def cgroupOwnedAt (s : Sandbox) : Code (Except Fault Bool) := do
  match ← readCgroup s.pid with
  | .error .notExist => return .ok false
  | .error e => return .error e
  | .ok group => return .ok (owns s.id group)

/-- The recorded identity, or a legacy record of the tick alone. -/
def identityMatches (current pidStart : String) : Bool :=
  current == pidStart || (!containsRune pidStart ':' && hasSuffix current (":" ++ pidStart))

def aliveAt (s : Sandbox) : Code Bool := do
  if s.pid ≤ 1 ∨ s.pidStart = "" then return false
  match ← pidStartAt s.pid with
  | .error _ => return false
  | .ok current =>
    if !identityMatches current s.pidStart then return false
    match ← cgroupOwnedAt s with
    | .error _ => return false
    | .ok owned => return owned

def ownedAlive (s : Sandbox) : Code (Except Fault Bool) := do
  if !(← aliveAt s) then return .ok false
  cgroupOwnedAt s

def absent (s : Sandbox) : Sandbox := { s with pid := 0, pidStart := "" }

/-- The second half of `Discover`: the process named by the jailer's PID record. -/
def adopt (s : Sandbox) : Code (Except Fault Sandbox) := do
  match ← readPidfile s.id with
  | .error .notExist => return .ok (absent s)
  | .error e => return .error e
  | .ok raw =>
    match atoi (trimSpace raw) with
    | none => return .error (.other "invalid jailer PID record")
    | some pid =>
      if pid < 2 then return .error (.other "invalid jailer PID record")
      match ← pidStartAt pid with
      | .error .notExist => return .ok (absent s)
      | .error e => return .error e
      | .ok start =>
        let s := { s with pid := pid, pidStart := start }
        match ← ownedAlive s with
        | .error e => return .error e
        | .ok true => return .ok s
        | .ok false => return .ok (absent s)

def discover (s : Sandbox) : Code (Except Fault Sandbox) := do
  match ← ownedAlive s with
  | .error e => return .error e
  | .ok true => return .ok s
  | .ok false => adopt s

/-- Polls until the process is gone or the context ends; `none` when it still polls after
this many rounds. -/
def poll (s : Sandbox) : ℕ → Code (Option (Except Fault Unit))
  | 0 => return none
  | rounds + 1 => do
    if !(← aliveAt s) then return some (.ok ())
    match ← wait with
    | some e => return some (.error e)
    | none => poll s rounds

def signal (rounds : ℕ) (s : Sandbox) (fd : ℕ) : Code (Option (Except Fault Unit)) := do
  match ← ownedAlive s with
  | .error e => return some (.error e)
  | .ok false => return some (.ok ())
  | .ok true =>
    match ← pidfdSendSignal fd with
    | none => poll s rounds
    | some .noProcess => poll s rounds
    | some e => return some (.error e)

def terminate (rounds : ℕ) (s : Sandbox) : Code (Option (Except Fault Unit)) := do
  match ← ownedAlive s with
  | .error e => return some (.error e)
  | .ok false => return some (.ok ())
  | .ok true =>
    match ← pidfdOpen s.pid with
    | .error .noProcess => return some (.ok ())
    | .error e => return some (.error e)
    | .ok fd => signal rounds s fd

def kill (rounds : ℕ) (s : Sandbox) : Code (Option (Except Fault Unit)) := do
  match ← discover s with
  | .error e => return some (.error e)
  | .ok s => terminate rounds s

section
variable {w : ℕ → (o : Op) → Reply o} {t t' : ℕ} {s : Sandbox}
open Program (outcome outcome_bind outcome_pure outcome_perform_bind Performs performs_bind
  performs_perform_bind uses_pure uses_perform uses_bind)

theorem pidStartAt_eq_ok {pid : ℤ} {start : String}
    (h : outcome w t (pidStartAt pid) = (.ok start, t')) :
    t' = t + 2 ∧ ∃ bootRaw raw tick, w t .readBootID = .ok bootRaw ∧
      trimSpace bootRaw ≠ "" ∧ containsRune (trimSpace bootRaw) ':' = false ∧
      w (t + 1) (.readStat pid) = .ok raw ∧ startTick raw = some tick ∧
      start = trimSpace bootRaw ++ ":" ++ tick := by
  unfold pidStartAt readBootID readStat at h
  rw [outcome_perform_bind] at h
  cases hb : w t .readBootID with
  | error e => simp [hb] at h
  | ok bootRaw =>
    simp only [hb] at h
    split at h
    · simp at h
    rename_i hform
    rw [not_or] at hform
    rw [outcome_perform_bind] at h
    cases hr : w (t + 1) (.readStat pid) with
    | error e => simp [hr] at h
    | ok raw =>
      simp only [hr] at h
      cases ht : startTick raw with
      | none => simp [ht] at h
      | some tick =>
        simp only [ht, outcome_pure, Prod.mk.injEq, Except.ok.injEq] at h
        exact ⟨h.2.symm, bootRaw, raw, tick, rfl, hform.1, by simpa using hform.2, rfl, ht,
          h.1.symm⟩

theorem outcome_pidStartAt {pid : ℤ} {bootRaw raw tick : String}
    (hb : w t .readBootID = .ok bootRaw) (hne : trimSpace bootRaw ≠ "")
    (hcolon : containsRune (trimSpace bootRaw) ':' = false)
    (hr : w (t + 1) (.readStat pid) = .ok raw) (ht : startTick raw = some tick) :
    outcome w t (pidStartAt pid) = (.ok (trimSpace bootRaw ++ ":" ++ tick), t + 2) := by
  unfold pidStartAt readBootID readStat
  rw [outcome_perform_bind]
  simp only [hb]
  rw [if_neg (by simp [hne, hcolon]), outcome_perform_bind]
  simp only [hr, ht, outcome_pure]

theorem outcome_cgroupOwnedAt : outcome w t (cgroupOwnedAt s) = (match w t (.readCgroup s.pid) with
      | .error .notExist => .ok false
      | .error e => .error e
      | .ok group => .ok (owns s.id group), t + 1) := by
  unfold cgroupOwnedAt readCgroup
  rw [outcome_perform_bind]
  cases w t (.readCgroup s.pid) with
  | error e => cases e <;> rfl
  | ok group => rfl

theorem cgroupOwnedAt_eq_true (h : outcome w t (cgroupOwnedAt s) = (.ok true, t')) :
    t' = t + 1 ∧ ∃ group, w t (.readCgroup s.pid) = .ok group ∧ owns s.id group = true := by
  rw [outcome_cgroupOwnedAt, Prod.mk.injEq] at h
  cases hg : w t (.readCgroup s.pid) with
  | error e => cases e <;> simp [hg] at h
  | ok group =>
    simp only [hg, Except.ok.injEq] at h
    exact ⟨h.2.symm, group, rfl, h.1⟩

theorem aliveAt_eq_true (h : outcome w t (aliveAt s) = (true, t')) :
    t' = t + 3 ∧ 1 < s.pid ∧ outcome w (t + 2) (cgroupOwnedAt s) = (.ok true, t + 3) ∧
      ∃ current, outcome w t (pidStartAt s.pid) = (.ok current, t + 2) ∧
        identityMatches current s.pidStart = true := by
  unfold aliveAt at h
  split at h
  · simp at h
  rw [outcome_bind] at h
  rcases hp : outcome w t (pidStartAt s.pid) with ⟨e | current, t₁⟩
  · simp [hp] at h
  obtain ⟨rfl, _⟩ := pidStartAt_eq_ok hp
  simp only [hp] at h
  split at h
  · simp at h
  rename_i hm
  rw [outcome_bind] at h
  rcases hg : outcome w (t + 2) (cgroupOwnedAt s) with ⟨e | owned, t₂⟩
  · simp [hg] at h
  simp only [hg, outcome_pure, Prod.mk.injEq] at h
  obtain ⟨rfl, rfl⟩ := h
  obtain ⟨rfl, _⟩ := cgroupOwnedAt_eq_true hg
  exact ⟨rfl, by omega, rfl, current, rfl, by simpa using hm⟩

theorem ownedAlive_eq_true (h : outcome w t (ownedAlive s) = (.ok true, t')) :
    t' = t + 4 ∧ outcome w t (aliveAt s) = (true, t + 3) ∧
      outcome w (t + 3) (cgroupOwnedAt s) = (.ok true, t + 4) := by
  unfold ownedAlive at h
  rw [outcome_bind] at h
  rcases ha : outcome w t (aliveAt s) with ⟨_ | _, t₁⟩
  · simp [ha] at h
  obtain ⟨rfl, _⟩ := aliveAt_eq_true ha
  have hg : outcome w (t + 3) (cgroupOwnedAt s) = (.ok true, t') := by simpa [ha] using h
  obtain ⟨rfl, _⟩ := cgroupOwnedAt_eq_true hg
  exact ⟨rfl, rfl, hg⟩

theorem ownedAlive_absent : outcome w t (ownedAlive (absent s)) = (.ok false, t) := rfl

inductive Discovered (w : ℕ → (o : Op) → Reply o) (s : Sandbox) (t : ℕ) : Sandbox → ℕ → Prop where
  | recorded (h : outcome w t (ownedAlive s) = (.ok true, t + 4)) : Discovered w s t s (t + 4)
  | absent {t' : ℕ} : Discovered w s t (absent s) t'
  | pidfile {t₀ : ℕ} {raw start : String} {pid : ℤ}
      (hread : Performs w t (discover s) t₀ (.readPidfile s.id))
      (hraw : w t₀ (.readPidfile s.id) = .ok raw) (hpid : atoi (trimSpace raw) = some pid)
      (hstart : outcome w (t₀ + 1) (pidStartAt pid) = (.ok start, t₀ + 3)) :
      Discovered w s t { s with pid := pid, pidStart := start } (t₀ + 7)

theorem adopt_eq_ok {v : Sandbox} (h : outcome w t (adopt s) = (.ok v, t')) :
    v = absent s ∨ ∃ raw pid start, w t (.readPidfile s.id) = .ok raw ∧
      atoi (trimSpace raw) = some pid ∧
      outcome w (t + 1) (pidStartAt pid) = (.ok start, t + 3) ∧
      v = { s with pid := pid, pidStart := start } ∧ t' = t + 7 := by
  unfold adopt readPidfile at h
  rw [outcome_perform_bind] at h
  cases hr : w t (.readPidfile s.id) with
  | error e =>
    cases e with
    | notExist =>
      simp only [hr, outcome_pure, Prod.mk.injEq, Except.ok.injEq] at h
      exact Or.inl h.1.symm
    | noProcess | other => simp [hr] at h
  | ok raw =>
    simp only [hr] at h
    cases hp : atoi (trimSpace raw) with
    | none => simp [hp] at h
    | some pid =>
      simp only [hp] at h
      split at h
      · simp at h
      rw [outcome_bind] at h
      rcases hs : outcome w (t + 1) (pidStartAt pid) with ⟨e | start, t₁⟩
      · simp only [hs] at h
        cases e with
        | notExist =>
          simp only [outcome_pure, Prod.mk.injEq, Except.ok.injEq] at h
          exact Or.inl h.1.symm
        | noProcess | other => simp at h
      · obtain ⟨rfl, _⟩ := pidStartAt_eq_ok hs
        simp only [hs] at h
        rw [outcome_bind] at h
        rcases ho : outcome w (t + 1 + 2) (ownedAlive { s with pid := pid, pidStart := start })
          with ⟨e | _ | _, t₂⟩
        · simp [ho] at h
        · simp only [ho, outcome_pure, Prod.mk.injEq, Except.ok.injEq] at h
          exact Or.inl h.1.symm
        · obtain ⟨rfl, _⟩ := ownedAlive_eq_true ho
          simp only [ho, outcome_pure, Prod.mk.injEq, Except.ok.injEq] at h
          exact Or.inr ⟨raw, pid, start, rfl, hp, hs, h.1.symm, h.2.symm⟩

theorem discovered_of_discover {v : Sandbox} (h : outcome w t (discover s) = (.ok v, t')) :
    Discovered w s t v t' := by
  have hadopt : ∀ t₁, outcome w t (ownedAlive s) = (.ok false, t₁) →
      Performs w t (discover s) t₁ (.readPidfile s.id) := by
    intro t₁ ho
    unfold discover
    rw [performs_bind, ho]
    exact Or.inr (Or.inl ⟨rfl, rfl⟩)
  unfold discover at h
  rw [outcome_bind] at h
  rcases ho : outcome w t (ownedAlive s) with ⟨e | _ | _, t₁⟩
  · simp [ho] at h
  · simp only [ho] at h
    rcases adopt_eq_ok h with rfl | ⟨raw, pid, start, hraw, hpid, hstart, rfl, rfl⟩
    · exact .absent
    · exact .pidfile (hadopt t₁ ho) hraw hpid hstart
  · obtain ⟨rfl, _⟩ := ownedAlive_eq_true ho
    simp only [ho, outcome_pure, Prod.mk.injEq, Except.ok.injEq] at h
    obtain ⟨rfl, rfl⟩ := h
    exact .recorded ho

def Op.harmless : Op → Prop
  | .pidfdSendSignal _ => False
  | _ => True

theorem harmless_pidStartAt (pid : ℤ) : (pidStartAt pid).Uses Op.harmless := by
  apply uses_perform trivial
  intro r
  cases r with
  | error e => exact uses_pure _
  | ok bootRaw => ?_
  dsimp only
  split
  · exact uses_pure _
  apply uses_perform trivial
  intro r
  cases r with
  | error e => exact uses_pure _
  | ok raw =>
    dsimp only
    split <;> exact uses_pure _

theorem harmless_cgroupOwnedAt (s : Sandbox) : (cgroupOwnedAt s).Uses Op.harmless := by
  apply uses_perform trivial
  intro r
  split <;> exact uses_pure _

theorem harmless_aliveAt (s : Sandbox) : (aliveAt s).Uses Op.harmless := by
  unfold aliveAt
  split
  · exact uses_pure _
  apply uses_bind (harmless_pidStartAt _)
  intro r
  cases r with
  | error e => exact uses_pure _
  | ok current =>
    dsimp only
    split
    · exact uses_pure _
    apply uses_bind (harmless_cgroupOwnedAt _)
    intro r
    split <;> exact uses_pure _

theorem harmless_ownedAlive (s : Sandbox) : (ownedAlive s).Uses Op.harmless := by
  apply uses_bind (harmless_aliveAt _)
  intro r
  split
  · exact uses_pure _
  · exact harmless_cgroupOwnedAt _

theorem harmless_adopt (s : Sandbox) : (adopt s).Uses Op.harmless := by
  apply uses_perform trivial
  intro r
  split
  · exact uses_pure _
  · exact uses_pure _
  · split
    · exact uses_pure _
    split
    · exact uses_pure _
    apply uses_bind (harmless_pidStartAt _)
    intro r
    split
    · exact uses_pure _
    · exact uses_pure _
    · apply uses_bind (harmless_ownedAlive _)
      intro r
      split <;> exact uses_pure _

theorem harmless_discover (s : Sandbox) : (discover s).Uses Op.harmless := by
  apply uses_bind (harmless_ownedAlive _)
  intro r
  split
  · exact uses_pure _
  · exact uses_pure _
  · exact harmless_adopt _

theorem harmless_poll (s : Sandbox) (rounds : ℕ) : (poll s rounds).Uses Op.harmless := by
  induction rounds with
  | zero => exact uses_pure _
  | succ rounds ih =>
    apply uses_bind (harmless_aliveAt _)
    intro r
    split
    · exact uses_pure _
    apply uses_perform trivial
    intro r
    cases r with
    | none => exact ih
    | some e => exact uses_pure _

variable {rounds k fd fd' : ℕ}

theorem performs_signal (h : Performs w t (signal rounds s fd) k (.pidfdSendSignal fd')) :
    outcome w t (ownedAlive s) = (.ok true, t + 4) ∧ k = t + 4 ∧ fd' = fd := by
  unfold signal pidfdSendSignal at h
  rw [performs_bind] at h
  rcases h with h | h
  · exact ((harmless_ownedAlive s).of_performs h).elim
  rcases ho : outcome w t (ownedAlive s) with ⟨e | _ | _, t₁⟩
  · simp [ho] at h
  · simp [ho] at h
  obtain ⟨rfl, _⟩ := ownedAlive_eq_true ho
  simp only [ho, performs_perform_bind] at h
  rcases h with ⟨rfl, hfd⟩ | h
  · exact ⟨rfl, rfl, Op.pidfdSendSignal.inj hfd⟩
  · split at h
    · exact ((harmless_poll s rounds).of_performs h).elim
    · exact ((harmless_poll s rounds).of_performs h).elim
    · simp at h

theorem performs_terminate (h : Performs w t (terminate rounds s) k (.pidfdSendSignal fd)) :
    outcome w t (ownedAlive s) = (.ok true, t + 4) ∧ w (t + 4) (.pidfdOpen s.pid) = .ok fd ∧
      outcome w (t + 5) (ownedAlive s) = (.ok true, t + 9) ∧ k = t + 9 := by
  unfold terminate pidfdOpen at h
  rw [performs_bind] at h
  rcases h with h | h
  · exact ((harmless_ownedAlive s).of_performs h).elim
  rcases ho : outcome w t (ownedAlive s) with ⟨e | _ | _, t₁⟩
  · simp [ho] at h
  · simp [ho] at h
  obtain ⟨rfl, _⟩ := ownedAlive_eq_true ho
  simp only [ho, performs_perform_bind] at h
  rcases h with ⟨_, hop⟩ | h
  · cases hop
  split at h
  · simp at h
  · simp at h
  · rename_i fd' hopen
    obtain ⟨hagain, hk, rfl⟩ := performs_signal h
    exact ⟨rfl, hopen, hagain, hk⟩

/-- A signal is sent after two successful checks, the pidfd being opened in between. -/
theorem performs_kill (h : Performs w t (kill rounds s) k (.pidfdSendSignal fd)) :
    ∃ v t', outcome w t (discover s) = (.ok v, t') ∧
      outcome w t' (ownedAlive v) = (.ok true, t' + 4) ∧
      w (t' + 4) (.pidfdOpen v.pid) = .ok fd ∧
      outcome w (t' + 5) (ownedAlive v) = (.ok true, t' + 9) ∧ k = t' + 9 := by
  unfold kill at h
  rw [performs_bind] at h
  rcases h with h | h
  · exact ((harmless_discover s).of_performs h).elim
  rcases hd : outcome w t (discover s) with ⟨e | v, t'⟩
  · simp [hd] at h
  · simp only [hd] at h
    exact ⟨v, t', rfl, performs_terminate h⟩

end

end Firecracker
end Niflhel
