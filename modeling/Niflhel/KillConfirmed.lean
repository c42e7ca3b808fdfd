import Niflhel.Procfs

/-!
# When a successful kill means that the process is gone

`Kill` takes a process that a check does not find in its control group for one that is
gone. For the process whose identity is recorded, the result nil means that it is gone
exactly when every check that is made finds it.
-/

namespace Niflhel
namespace Firecracker
open GoText Concurrent
open Program (outcome outcome_bind outcome_pure outcome_perform_bind outcome_congr Performs)

/-- The files are readable and the process is in the sandbox's group, as `aliveAt` started
at this time reads them. -/
def View.Confirms (v : View) (s : Sandbox) (t : ℕ) : Prop :=
  1 < s.pid ∧ (∃ raw, v.bootFile t = .ok raw) ∧ (∃ raw, v.stat (t + 1) = .ok raw) ∧
    ∃ group, v.cgroup (t + 2) = .ok group ∧ owns s.id group = true

def View.Passes (v : View) (s : Sandbox) (t : ℕ) : Prop :=
  v.Confirms s t ∧ ∃ group, v.cgroup (t + 3) = .ok group ∧ owns s.id group = true

def View.Denies (v : View) (s : Sandbox) (t : ℕ) : Prop :=
  ¬ v.Confirms s t ∨ v.cgroup (t + 3) = .error .notExist ∨
    ∃ group, v.cgroup (t + 3) = .ok group ∧ owns s.id group = false

/-- Every check that is made finds the process: the one of `Discover`, those before and
after the pidfd is opened, and all polls. -/
def View.Seen (v : View) (s : Sandbox) : Prop :=
  ¬ v.Denies s 0 ∧ (v.Passes s 0 → ¬ v.Denies s 4 ∧ (v.Passes s 4 → ¬ v.Denies s 9 ∧
    (v.Passes s 9 → ∀ j, v.Confirms s (14 + 4 * j))))

def Agrees (w : ℕ → (o : Op) → Reply o) (v : View) (pid : ℤ) (t : ℕ) : Prop :=
  w t .readBootID = v.bootFile t ∧ w t (.readStat pid) = v.stat t ∧
    w t (.readCgroup pid) = v.cgroup t

section
variable {w : ℕ → (o : Op) → Reply o} {v : View} {s : Sandbox} {t : ℕ}

theorem View.startTick_eq {raw : String} (h : v.stat t = .ok raw) :
    startTick raw = some v.tick := (v.stat_read h).startTick_eq

variable (hid : s.pidStart = v.boot ++ ":" ++ v.tick)
include hid

theorem recorded_ne_empty : s.pidStart ≠ "" := by
  intro hempty
  have := congrArg String.toList (hid.symm.trans hempty)
  simp at this

theorem outcome_identity {bootRaw raw : String}
    (hb : Agrees w v s.pid t) (hs : Agrees w v s.pid (t + 1))
    (hboot : v.bootFile t = .ok bootRaw) (hstat : v.stat (t + 1) = .ok raw) :
    outcome w t (pidStartAt s.pid) = (.ok s.pidStart, t + 2) := by
  have hform := v.boot_form
  rw [← v.boot_read hboot] at hform
  rw [outcome_pidStartAt (hb.1.trans hboot) hform.1 hform.2 (hs.2.1.trans hstat)
    (View.startTick_eq hstat), v.boot_read hboot, ← hid]

theorem aliveAt_confirmed
    (hag : ∀ i, t ≤ i → i < t + 3 → Agrees w v s.pid i) (hc : v.Confirms s t) :
    outcome w t (aliveAt s) = (true, t + 3) := by
  obtain ⟨hpid, ⟨bootRaw, hboot⟩, ⟨raw, hstat⟩, group, hgroup, howns⟩ := hc
  have hstart := outcome_identity hid (hag t le_rfl (by omega)) (hag (t + 1) (by omega) (by omega))
    hboot hstat
  have hgroup' : w (t + 2) (.readCgroup s.pid) = .ok group :=
    (hag (t + 2) (by omega) (by omega)).2.2.trans hgroup
  have hguard : ¬ (s.pid ≤ 1 ∨ s.pidStart = "") := by
    rw [not_or]
    exact ⟨by omega, recorded_ne_empty hid⟩
  unfold aliveAt
  rw [if_neg hguard, outcome_bind, hstart]
  simp [identityMatches, outcome_bind, outcome_cgroupOwnedAt, hgroup', howns]

omit hid in
theorem confirms_of_aliveAt {t' : ℕ} (hag : ∀ i, t ≤ i → i < t + 3 → Agrees w v s.pid i)
    (h : outcome w t (aliveAt s) = (true, t')) : v.Confirms s t := by
  obtain ⟨_, hpid, hgroup, current, hstart, _⟩ := aliveAt_eq_true h
  obtain ⟨_, bootRaw, raw, tick, hboot, _, _, hstat, _, _⟩ := pidStartAt_eq_ok hstart
  obtain ⟨_, group, hread, howns⟩ := cgroupOwnedAt_eq_true hgroup
  have h0 := hag t le_rfl (by omega)
  have h1 := hag (t + 1) (by omega) (by omega)
  have h2 := hag (t + 2) (by omega) (by omega)
  exact ⟨hpid, ⟨bootRaw, h0.1.symm.trans hboot⟩, ⟨raw, h1.2.1.symm.trans hstat⟩, group,
    h2.2.2.symm.trans hread, howns⟩

omit hid in
theorem aliveAt_unconfirmed (hag : ∀ i, t ≤ i → i < t + 3 → Agrees w v s.pid i)
    (hc : ¬ v.Confirms s t) : ∃ t', outcome w t (aliveAt s) = (false, t') := by
  rcases h : outcome w t (aliveAt s) with ⟨_ | _, t'⟩
  · exact ⟨t', rfl⟩
  · exact absurd (confirms_of_aliveAt hag h) hc

/-- A check that returns while the process is alive, and would be confirmed, succeeds. -/
theorem aliveAt_of_confirms {t' : ℕ}
    (hag : ∀ i, t ≤ i → i < t' → Agrees w v s.pid i) (hc : v.Confirms s t)
    (h : outcome w t (aliveAt s) = (false, t')) : False := by
  -- replies after the return may be taken from the view as well
  let w' : ℕ → (o : Op) → Reply o := fun i => if i < t' then w i else v.reply s.pid i
  have hsame : outcome w' t (aliveAt s) = outcome w t (aliveAt s) := by
    apply outcome_congr
    intro i _ hi
    rw [h] at hi
    exact (if_pos hi).symm
  have hag' : ∀ i, t ≤ i → i < t + 3 → Agrees w' v s.pid i := by
    intro i hi _
    by_cases hlt : i < t'
    · simpa [Agrees, w', hlt] using hag i hi hlt
    · simp [Agrees, w', hlt, View.reply]
  rw [aliveAt_confirmed hid hag' hc, h] at hsame
  simp at hsame

theorem ownedAlive_passes (hag : ∀ i, t ≤ i → i < t + 4 → Agrees w v s.pid i) (hp : v.Passes s t) :
    outcome w t (ownedAlive s) = (.ok true, t + 4) := by
  obtain ⟨hc, group, hgroup, howns⟩ := hp
  have halive := aliveAt_confirmed hid (fun i hi hi' => hag i hi (by omega)) hc
  have hgroup' : w (t + 3) (.readCgroup s.pid) = .ok group :=
    (hag (t + 3) (by omega) (by omega)).2.2.trans hgroup
  unfold ownedAlive
  rw [outcome_bind, halive]
  simp [outcome_cgroupOwnedAt, hgroup', howns]

theorem ownedAlive_denies (hag : ∀ i, t ≤ i → i < t + 4 → Agrees w v s.pid i) (hd : v.Denies s t) :
    ∃ t', outcome w t (ownedAlive s) = (.ok false, t') := by
  have hag3 : ∀ i, t ≤ i → i < t + 3 → Agrees w v s.pid i := fun i hi hi' => hag i hi (by omega)
  have hlast := (hag (t + 3) (by omega) (by omega)).2.2
  unfold ownedAlive
  rw [outcome_bind]
  by_cases hc : v.Confirms s t
  · rw [aliveAt_confirmed hid hag3 hc]
    refine ⟨t + 4, ?_⟩
    rcases hd.resolve_left (not_not.2 hc) with hnone | ⟨group, hgroup, howns⟩
    · simp [outcome_cgroupOwnedAt, hlast, hnone]
    · simp [outcome_cgroupOwnedAt, hlast, hgroup, howns]
  · obtain ⟨t', ht'⟩ := aliveAt_unconfirmed hag3 hc
    rw [ht']
    exact ⟨t', rfl⟩

/-- Otherwise the second reading of the group fails. -/
theorem ownedAlive_fails (hag : ∀ i, t ≤ i → i < t + 4 → Agrees w v s.pid i) (hd : ¬ v.Denies s t)
    (hp : ¬ v.Passes s t) : ∃ e t', outcome w t (ownedAlive s) = (.error e, t') := by
  simp only [View.Denies, not_or, not_not] at hd
  obtain ⟨hc, hexists, howned⟩ := hd
  have halive := aliveAt_confirmed hid (fun i hi hi' => hag i hi (by omega)) hc
  have hlast := (hag (t + 3) (by omega) (by omega)).2.2
  unfold ownedAlive
  rw [outcome_bind, halive]
  cases hgroup : v.cgroup (t + 3) with
  | error e =>
    refine ⟨e, t + 4, ?_⟩
    rw [hgroup] at hlast hexists
    cases e with
    | notExist => exact absurd rfl hexists
    | noProcess | other => simp [outcome_cgroupOwnedAt, hlast]
  | ok group =>
    cases howns : owns s.id group with
    | true => exact absurd ⟨hc, group, hgroup, howns⟩ hp
    | false => exact absurd ⟨group, hgroup, howns⟩ howned

omit hid

variable {rounds t' : ℕ}

theorem discover_recorded (h : outcome w t (ownedAlive s) = (.ok true, t')) :
    outcome w t (kill rounds s) = outcome w t' (terminate rounds s) := by
  simp [kill, discover, outcome_bind, h]

theorem discover_fails {e : Fault} (h : outcome w t (ownedAlive s) = (.error e, t')) :
    outcome w t (kill rounds s) = (some (.error e), t') := by
  simp [kill, discover, outcome_bind, h]

/-- Without a PID record, a process that is not found is taken for gone. -/
theorem discover_denied (h : outcome w t (ownedAlive s) = (.ok false, t'))
    (hnone : w t' (.readPidfile s.id) = .error .notExist) :
    outcome w t (kill rounds s) = (some (.ok ()), t' + 1) := by
  have hadopt : outcome w t' (adopt s) = (.ok (absent s), t' + 1) := by
    unfold adopt readPidfile
    rw [outcome_perform_bind, hnone]
    rfl
  simp [kill, discover, terminate, outcome_bind, h, hadopt, ownedAlive_absent]

theorem terminate_denied (h : outcome w t (ownedAlive s) = (.ok false, t')) :
    outcome w t (terminate rounds s) = (some (.ok ()), t') := by
  simp [terminate, outcome_bind, h]

theorem terminate_fails {e : Fault} (h : outcome w t (ownedAlive s) = (.error e, t')) :
    outcome w t (terminate rounds s) = (some (.error e), t') := by
  simp [terminate, outcome_bind, h]

theorem terminate_passes {fd : ℕ} (h : outcome w t (ownedAlive s) = (.ok true, t'))
    (hopen : w t' (.pidfdOpen s.pid) = .ok fd) :
    outcome w t (terminate rounds s) = outcome w (t' + 1) (signal rounds s fd) := by
  unfold terminate pidfdOpen
  rw [outcome_bind, h]
  simp only [outcome_perform_bind, hopen]

theorem terminate_open_fails {e : Fault} (h : outcome w t (ownedAlive s) = (.ok true, t'))
    (hopen : w t' (.pidfdOpen s.pid) = .error e) (he : e ≠ .noProcess) :
    outcome w t (terminate rounds s) = (some (.error e), t' + 1) := by
  unfold terminate pidfdOpen
  rw [outcome_bind, h]
  simp only [outcome_perform_bind, hopen]
  cases e with
  | noProcess => exact absurd rfl he
  | notExist | other => rfl

theorem signal_denied {fd : ℕ} (h : outcome w t (ownedAlive s) = (.ok false, t')) :
    outcome w t (signal rounds s fd) = (some (.ok ()), t') := by
  simp [signal, outcome_bind, h]

theorem signal_fails {e : Fault} {fd : ℕ} (h : outcome w t (ownedAlive s) = (.error e, t')) :
    outcome w t (signal rounds s fd) = (some (.error e), t') := by
  simp [signal, outcome_bind, h]

theorem signal_passes {fd : ℕ} (h : outcome w t (ownedAlive s) = (.ok true, t'))
    (hsend : w t' (.pidfdSendSignal fd) = none) :
    outcome w t (signal rounds s fd) = outcome w (t' + 1) (poll s rounds) := by
  unfold signal pidfdSendSignal
  rw [outcome_bind, h]
  simp only [outcome_perform_bind, hsend]

theorem signal_send_fails {e : Fault} {fd : ℕ} (h : outcome w t (ownedAlive s) = (.ok true, t'))
    (hsend : w t' (.pidfdSendSignal fd) = some e) (he : e ≠ .noProcess) :
    outcome w t (signal rounds s fd) = (some (.error e), t' + 1) := by
  unfold signal pidfdSendSignal
  rw [outcome_bind, h]
  simp only [outcome_perform_bind, hsend]
  cases e with
  | noProcess => exact absurd rfl he
  | notExist | other => rfl

theorem poll_gone (h : outcome w t (aliveAt s) = (false, t')) :
    outcome w t (poll s (rounds + 1)) = (some (.ok ()), t') := by
  simp [poll, outcome_bind, h]

theorem poll_alive (h : outcome w t (aliveAt s) = (true, t')) (hwait : w t' .wait = none) :
    outcome w t (poll s (rounds + 1)) = outcome w (t' + 1) (poll s rounds) := by
  rw [poll, wait, outcome_bind, h]
  simp only [Bool.not_true, Bool.false_eq_true, if_false, outcome_perform_bind, hwait]

include hid

/-- The first poll that does not find the process ends the kill. -/
theorem poll_unconfirmed {n : ℕ} (hag : ∀ i, Agrees w v s.pid i) (hwait : ∀ i, w i .wait = none)
    (hbefore : ∀ i < n, v.Confirms s (t + 4 * i)) (hn : ¬ v.Confirms s (t + 4 * n)) :
    ∃ t', outcome w t (poll s (n + 1)) = (some (.ok ()), t') := by
  induction n generalizing t with
  | zero =>
    obtain ⟨t', h⟩ := aliveAt_unconfirmed (fun i _ _ => hag i) hn
    exact ⟨t', poll_gone h⟩
  | succ n ih =>
    have hfirst : v.Confirms s t := hbefore 0 (by omega)
    have halive := aliveAt_confirmed hid (fun i _ _ => hag i) hfirst
    rw [poll_alive halive (hwait _)]
    apply ih
    · intro i hi
      have := hbefore (i + 1) (by omega)
      rwa [show t + 4 * (i + 1) = t + 3 + 1 + 4 * i by omega] at this
    · rwa [show t + 4 * (n + 1) = t + 3 + 1 + 4 * n by omega] at hn

/-- Polls that all find the process do not end the kill while it is alive. -/
theorem poll_confirmed {j T : ℕ}
    (hag : ∀ i, i < T → Agrees w v s.pid i) (hc : ∀ j, v.Confirms s (14 + 4 * j)) :
    outcome w (14 + 4 * j) (poll s rounds) ≠ (some (.ok ()), T) := by
  induction rounds generalizing j with
  | zero =>
    intro h
    cases h
  | succ rounds ih =>
    intro h
    unfold poll wait at h
    rw [outcome_bind] at h
    rcases ha : outcome w (14 + 4 * j) (aliveAt s) with ⟨_ | _, t'⟩
    · simp only [ha, Bool.not_false, if_true, outcome_pure, Prod.mk.injEq, true_and] at h
      subst h
      exact aliveAt_of_confirms hid (fun i _ hi => hag i hi) (hc j) ha
    · obtain ⟨rfl, _⟩ := aliveAt_eq_true ha
      simp only [ha, Bool.not_true, Bool.false_eq_true, if_false, outcome_perform_bind] at h
      cases hw : w (14 + 4 * j + 3) .wait with
      | some e => simp [hw] at h
      | none =>
        simp only [hw] at h
        exact ih (j := j + 1) h

end

/-- The process has the number when `Kill` is called, and procfs shows it as in the view as
long as it lives. -/
structure Shows {P : Type} (w : Timeline P) (v : View) (pid : ℤ) (p : P) : Prop where
  boot : w.boot = v.boot
  tick : w.tick p = v.tick
  present : w.occupant 0 pid = some p
  files : ∀ t, w.occupant t pid = some p → Agrees w.answer v pid t

/-- The process does not exit by itself: it is gone only after `Kill` has sent it a signal. -/
def Persists {P : Type} (w : Timeline P) (rounds : ℕ) (s : Sandbox) (p : P) : Prop :=
  ∀ t, w.occupant t s.pid ≠ some p → ∃ k fd, k < t ∧
    Performs w.answer 0 (kill rounds s) k (.pidfdSendSignal fd) ∧ w.behind fd = p ∧
    w.answer k (.pidfdSendSignal fd) = none

/-- On every host where a process is shown like this, `Kill` does not return nil leaving it
alive. -/
def ConfirmsDeath (v : View) (s : Sandbox) : Prop :=
  ∀ (P : Type) (w : Timeline P) (p : P) (rounds t : ℕ), Shows w v s.pid p →
    Persists w rounds s p → outcome w.answer 0 (kill rounds s) = (some (.ok ()), t) →
    w.occupant t s.pid ≠ some p

section
variable {P : Type} {w : Timeline P} {v : View} {s : Sandbox} {p : P} {rounds : ℕ}

/-- No signal is sent before the thirteenth call. -/
theorem Persists.alive (hpers : Persists w rounds s p) {i : ℕ} (hi : i ≤ 13) :
    w.occupant i s.pid = some p := by
  by_contra hgone
  obtain ⟨k, fd, hk, hperf, _⟩ := hpers i hgone
  obtain ⟨v', t, hdisc, hfirst, _, _, rfl⟩ := performs_kill hperf
  cases discovered_of_discover hdisc with
  | recorded | pidfile => omega
  | absent => cases hfirst

/-- The part after the pidfd was opened returns nil only after the process is gone. -/
theorem signal_confirms {fd T : ℕ} (hid : s.pidStart = v.boot ++ ":" ++ v.tick)
    (hshow : Shows w v s.pid p) (hpers : Persists w rounds s p) (hfd : w.behind fd = p)
    (hd : ¬ v.Denies s 9) (hpoll : v.Passes s 9 → ∀ j, v.Confirms s (14 + 4 * j))
    (hnil : outcome w.answer 9 (signal rounds s fd) = (some (.ok ()), T)) :
    w.occupant T s.pid ≠ some p := by
  intro halive
  have hag : ∀ i, 9 ≤ i → i < 13 → Agrees w.answer v s.pid i := fun i _ hi =>
    hshow.files i (hpers.alive (by omega))
  by_cases hp : v.Passes s 9
  swap
  · obtain ⟨e, t, he⟩ := ownedAlive_fails hid hag hd hp
    rw [signal_fails he] at hnil
    simp at hnil
  have hfound := ownedAlive_passes hid hag hp
  cases hsend : w.answer 13 (.pidfdSendSignal fd) with
  | none =>
    rw [signal_passes hfound hsend] at hnil
    -- the process is alive at the end, so it was alive at every poll
    have hpolls : ∀ i, i < T → Agrees w.answer v s.pid i := fun i hi =>
      hshow.files i (w.contiguous (Nat.zero_le i) hi.le hshow.present halive)
    exact poll_confirmed hid hpolls (hpoll hp) (j := 0) hnil
  | some e =>
    by_cases he : e = .noProcess
    · rw [he] at hsend
      apply w.send_missing hsend
      rw [hfd]
      exact hpers.alive le_rfl
    · rw [signal_send_fails hfound hsend he] at hnil
      simp at hnil

/-- While every check finds the process, nil is returned only after it is gone. -/
theorem confirmsDeath_of_seen (hid : s.pidStart = v.boot ++ ":" ++ v.tick) (hseen : v.Seen s) :
    ConfirmsDeath v s := by
  intro P w p rounds T hshow hpers hnil
  have hag : ∀ i, i < 13 → Agrees w.answer v s.pid i := fun i hi =>
    hshow.files i (hpers.alive hi.le)
  obtain ⟨hd₀, hseen⟩ := hseen
  by_cases hp₀ : v.Passes s 0
  swap
  · obtain ⟨e, t, he⟩ := ownedAlive_fails hid (fun i _ hi => hag i (by omega)) hd₀ hp₀
    rw [discover_fails he] at hnil
    simp at hnil
  rw [discover_recorded (ownedAlive_passes hid (fun i _ hi => hag i (by omega)) hp₀)] at hnil
  obtain ⟨hd₁, hseen⟩ := hseen hp₀
  by_cases hp₁ : v.Passes s 4
  swap
  · obtain ⟨e, t, he⟩ := ownedAlive_fails hid (fun i _ hi => hag i (by omega)) hd₁ hp₁
    rw [terminate_fails he] at hnil
    simp at hnil
  have hfound := ownedAlive_passes hid (fun i _ hi => hag i (by omega)) hp₁
  have hpresent : w.occupant 8 s.pid = some p := hpers.alive (by omega)
  cases hopen : w.answer 8 (.pidfdOpen s.pid) with
  | error e =>
    by_cases he : e = .noProcess
    · rw [he] at hopen
      rw [w.open_missing hopen] at hpresent
      cases hpresent
    · rw [terminate_open_fails hfound hopen he] at hnil
      simp at hnil
  | ok fd =>
    rw [terminate_passes hfound hopen] at hnil
    have hfd : w.behind fd = p := Option.some.inj ((w.opened hopen).symm.trans hpresent)
    obtain ⟨hd₂, hpoll⟩ := hseen hp₁
    exact signal_confirms hid hshow hpers hfd hd₂ hpoll hnil

theorem agrees_reply (v : View) (pid : ℤ) (t : ℕ) : Agrees (v.reply pid) v pid t := by
  simp [Agrees, View.reply]

theorem shows_host (v : View) (pid : ℤ) : Shows (v.host pid) v pid () where
  boot := rfl
  tick := rfl
  present := if_pos rfl
  files t _ := agrees_reply v pid t

theorem persists_host : Persists (v.host s.pid) rounds s () := by
  intro t hgone
  exact absurd (if_pos rfl) hgone

/-- On this host nil is never returned when death is confirmed. -/
theorem ConfirmsDeath.not_nil (h : ConfirmsDeath v s) (rounds t : ℕ) :
    outcome (v.reply s.pid) 0 (kill rounds s) ≠ (some (.ok ()), t) := by
  intro hnil
  exact h Unit (v.host s.pid) () rounds t (shows_host v s.pid) persists_host hnil (if_pos rfl)

theorem seen_of_confirmsDeath (hid : s.pidStart = v.boot ++ ":" ++ v.tick)
    (h : ConfirmsDeath v s) : v.Seen s := by
  have hag : ∀ i, Agrees (v.reply s.pid) v s.pid i := agrees_reply v s.pid
  have hopen : v.reply s.pid 8 (.pidfdOpen s.pid) = .ok 0 := if_pos rfl
  refine ⟨fun hd => ?_, fun hp₀ => ?_⟩
  · obtain ⟨t, ht⟩ := ownedAlive_denies hid (fun i _ _ => hag i) hd
    exact h.not_nil 0 _ (discover_denied ht rfl)
  have hstart : ∀ rounds, outcome (v.reply s.pid) 0 (kill rounds s) =
      outcome (v.reply s.pid) 4 (terminate rounds s) := fun rounds =>
    discover_recorded (ownedAlive_passes hid (fun i _ _ => hag i) hp₀)
  refine ⟨fun hd => ?_, fun hp₁ => ?_⟩
  · obtain ⟨t, ht⟩ := ownedAlive_denies hid (fun i _ _ => hag i) hd
    exact h.not_nil 0 _ ((hstart 0).trans (terminate_denied ht))
  have hopened : ∀ rounds, outcome (v.reply s.pid) 0 (kill rounds s) =
      outcome (v.reply s.pid) 9 (signal rounds s 0) := fun rounds =>
    (hstart rounds).trans
      (terminate_passes (ownedAlive_passes hid (fun i _ _ => hag i) hp₁) hopen)
  refine ⟨fun hd => ?_, fun hp₂ => ?_⟩
  · obtain ⟨t, ht⟩ := ownedAlive_denies hid (fun i _ _ => hag i) hd
    exact h.not_nil 0 _ ((hopened 0).trans (signal_denied ht))
  intro j
  induction j using Nat.strong_induction_on with
  | _ j ih =>
    by_contra hj
    obtain ⟨t, ht⟩ := poll_unconfirmed hid hag (fun _ => rfl) ih hj
    apply h.not_nil (j + 1) t
    rw [hopened, signal_passes (ownedAlive_passes hid (fun i _ _ => hag i) hp₂) rfl]
    exact ht

end

/-- For a process with the recorded identity, a nil result of `Kill` means that it is gone
if and only if every check that is made finds it in the sandbox's control group. -/
theorem kill_confirms_iff_seen (v : View) (s : Sandbox)
    (hid : s.pidStart = v.boot ++ ":" ++ v.tick) : ConfirmsDeath v s ↔ v.Seen s :=
  ⟨seen_of_confirmsDeath hid, confirmsDeath_of_seen hid⟩

open Firecracker.Sample in
theorem kill_confirms_iff_seen_owned :
    (view "/niflhel/c0ffee").Seen sandbox ∧ ConfirmsDeath (view "/niflhel/c0ffee") sandbox := by
  have hconfirms : ∀ t, (view "/niflhel/c0ffee").Confirms sandbox t := fun t =>
    ⟨by decide, ⟨_, rfl⟩, ⟨_, rfl⟩, _, rfl, by decide +kernel⟩
  have hgroup : owns "c0ffee" "0::/niflhel/c0ffee\n" = true := by decide +kernel
  have hkeeps : ∀ t, ¬ (view "/niflhel/c0ffee").Denies sandbox t := by
    rintro t (h | h | ⟨group, h, howns⟩)
    · exact h (hconfirms t)
    · cases h
    · cases h
      exact absurd hgroup (by rw [Bool.not_eq_true]; exact howns)
  have hseen : (view "/niflhel/c0ffee").Seen sandbox :=
    ⟨hkeeps 0, fun _ => ⟨hkeeps 4, fun _ => ⟨hkeeps 9, fun _ j => hconfirms _⟩⟩⟩
  exact ⟨hseen, (kill_confirms_iff_seen _ sandbox (by decide +kernel)).2 hseen⟩

open Firecracker.Sample in
/-- A jailer that has not moved to its control group yet: `Kill` returns nil after four
calls and the process with the recorded identity is alive. -/
theorem launching_process_survives_kill :
    outcome ((view "/system.slice").host 4242).answer 0 (kill 10 sandbox) =
        (some (.ok ()), 4) ∧
      sandbox.pidStart = ((view "/system.slice").host 4242).identity () ∧
      Persists ((view "/system.slice").host 4242) 10 sandbox () ∧
      ((view "/system.slice").host 4242).occupant 0 sandbox.pid = some () ∧
      ((view "/system.slice").host 4242).occupant 4 sandbox.pid = some () := by
  refine ⟨by decide +kernel, by decide +kernel, ?_, rfl, rfl⟩
  intro t hgone
  exact absurd rfl hgone

end Firecracker
end Niflhel
