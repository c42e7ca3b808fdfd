import Niflhel.Procfs

/-!
# The process a signal reaches

The pidfd is opened between two checks of the same identity. The process found by both is
one process, which had the number in between, so that the pidfd refers to it however the
host reuses numbers.
-/

namespace Niflhel
namespace Firecracker
open GoText Concurrent
open Program (outcome outcome_bind Performs performs_bind)

section
variable {w : ℕ → (o : Op) → Reply o} {t t' : ℕ} {s v : Sandbox} {rounds fd : ℕ}

theorem performs_last_cgroup (h : outcome w t (ownedAlive s) = (.ok true, t + 4)) :
    Performs w t (ownedAlive s) (t + 3) (.readCgroup s.pid) := by
  obtain ⟨_, halive, _⟩ := ownedAlive_eq_true h
  unfold ownedAlive
  rw [performs_bind, halive]
  exact Or.inr (Or.inl ⟨rfl, rfl⟩)

theorem terminate_performs_open (h : outcome w t (ownedAlive s) = (.ok true, t + 4)) :
    Performs w t (terminate rounds s) (t + 4) (.pidfdOpen s.pid) := by
  unfold terminate
  rw [performs_bind, h]
  exact Or.inr (Or.inl ⟨rfl, rfl⟩)

theorem terminate_performs_cgroup (h : outcome w t (ownedAlive s) = (.ok true, t + 4))
    (hopen : w (t + 4) (.pidfdOpen s.pid) = .ok fd)
    (hagain : outcome w (t + 5) (ownedAlive s) = (.ok true, t + 9)) :
    Performs w t (terminate rounds s) (t + 8) (.readCgroup s.pid) := by
  have hsignal : Performs w (t + 5) (signal rounds s fd) (t + 8) (.readCgroup s.pid) := by
    unfold signal
    rw [performs_bind]
    exact Or.inl (performs_last_cgroup hagain)
  unfold terminate pidfdOpen
  rw [performs_bind, h]
  refine Or.inr (Or.inr ?_)
  rw [hopen]
  exact hsignal

theorem kill_performs {k : ℕ} {o : Op} (hd : outcome w t (discover s) = (.ok v, t'))
    (h : Performs w t' (terminate rounds v) k o) : Performs w t (kill rounds s) k o := by
  unfold kill
  rw [performs_bind, hd]
  exact Or.inr h

end

variable {P : Type}

/-- The record that identifies the process: the stored one, or that of the process which
the jailer's PID record names. -/
def Target (w : Timeline P) (rounds : ℕ) (s v : Sandbox) : Prop :=
  v = s ∨ ∃ t raw pid p, Performs w.answer 0 (kill rounds s) t (.readPidfile s.id) ∧
    w.answer t (.readPidfile s.id) = .ok raw ∧ atoi (trimSpace raw) = some pid ∧
    w.occupant (t + 2) pid = some p ∧ v = { s with pid := pid, pidStart := w.identity p }

theorem Target.id_eq {w : Timeline P} {rounds : ℕ} {s v : Sandbox} (h : Target w rounds s v) :
    v.id = s.id := by
  rcases h with rfl | ⟨t, raw, pid, p, _, _, _, _, rfl⟩
  · rfl
  · rfl

theorem target_of_discovered {w : Timeline P} {rounds t : ℕ} {s v : Sandbox}
    (h : Discovered w.answer s 0 v t) (hv : v ≠ absent s) : Target w rounds s v := by
  cases h with
  | recorded h => exact Or.inl rfl
  | absent => exact absurd rfl hv
  | pidfile hread hraw hpid hstart =>
    obtain ⟨p, hp, rfl⟩ := Timeline.occupant_of_pidStartAt hstart
    refine Or.inr ⟨_, _, _, p, ?_, hraw, hpid, hp, rfl⟩
    unfold kill
    rw [performs_bind]
    exact Or.inl hread

theorem ownsLine_iff {id line : String} : ownsLine id line = true ↔ ∃ hierarchy controllers,
      splitN line ':' 3 = [hierarchy, controllers, "/niflhel/" ++ id] := by
  unfold ownsLine
  split
  · rename_i h
    simp [h]
  · rename_i hne
    constructor
    · exact nofun
    · rintro ⟨a, b, h⟩
      exact absurd h (hne a b _)

/-- If a signal is sent, the process behind the pidfd has the identity of the record. It is
the only process that ever had this number and identity, and it has the number from before
the pidfd is opened until after. A line of the sandbox's group is read for it afterwards. -/
theorem kill_signals_identified (w : Timeline P) (s : Sandbox) (rounds k fd : ℕ)
    (h : Performs w.answer 0 (kill rounds s) k (.pidfdSendSignal fd)) :
    ∃ v, Target w rounds s v ∧ w.Identified (w.behind fd) v.pidStart ∧
      (∀ t p, w.occupant t v.pid = some p → w.Identified p v.pidStart → p = w.behind fd) ∧
      ∃ t₁ t₂ t₃ t₄, t₁ < t₂ ∧ t₂ < t₃ ∧ t₃ < t₄ ∧ t₄ < k ∧
        (∀ t, t₁ ≤ t → t ≤ t₃ → w.occupant t v.pid = some (w.behind fd)) ∧
        Performs w.answer 0 (kill rounds s) t₂ (.pidfdOpen v.pid) ∧
        w.answer t₂ (.pidfdOpen v.pid) = .ok fd ∧
        Performs w.answer 0 (kill rounds s) t₄ (.readCgroup v.pid) ∧
        ∃ group line hierarchy controllers, w.answer t₄ (.readCgroup v.pid) = .ok group ∧
          line ∈ split group '\n' ∧
          splitN line ':' 3 = [hierarchy, controllers, "/niflhel/" ++ s.id] := by
  obtain ⟨v, t, hdisc, hfirst, hopen, hsecond, rfl⟩ := performs_kill h
  obtain ⟨⟨p, hp, hpid⟩, _⟩ := Timeline.checked hfirst
  obtain ⟨⟨q, hq, hqid⟩, group, hgroup, howns⟩ := Timeline.checked hsecond
  have htarget : Target w rounds s v := by
    apply target_of_discovered (discovered_of_discover hdisc)
    rintro rfl
    cases hfirst
  -- one process is found before and after the pidfd is opened
  obtain rfl : p = q := w.unique hp hq (hpid.tick_eq hqid)
  have hheld : ∀ i, t + 1 ≤ i → i ≤ t + 6 → w.occupant i v.pid = some p := fun i hi hi' =>
    w.contiguous hi hi' hp hq
  have hbehind : p = w.behind fd := by
    have hthen := w.opened hopen
    rw [hheld (t + 4) (by omega) (by omega)] at hthen
    exact Option.some.inj hthen
  subst hbehind
  obtain ⟨line, hline, hpath⟩ := List.any_eq_true.1 howns
  obtain ⟨hierarchy, controllers, hsplit⟩ := ownsLine_iff.1 hpath
  rw [htarget.id_eq] at hsplit
  refine ⟨v, htarget, hpid, fun i r hr hrid => w.unique hr hp (hrid.tick_eq hpid), t + 1, t + 4,
    t + 6, t + 8, by omega, by omega, by omega, by omega, hheld,
    kill_performs hdisc (terminate_performs_open hfirst), hopen,
    kill_performs hdisc (terminate_performs_cgroup hfirst hopen hsecond), group, line, hierarchy,
    controllers, hgroup, hline, hsplit⟩

open Firecracker.Sample in
theorem kill_signals_identified_owned :
    Performs ((view "/niflhel/c0ffee").host 4242).answer 0 (kill 1 sandbox) 13
        (.pidfdSendSignal 0) ∧
      ∃ v, Target ((view "/niflhel/c0ffee").host 4242) 1 sandbox v ∧
        ((view "/niflhel/c0ffee").host 4242).Identified () v.pidStart := by
  have h : Performs ((view "/niflhel/c0ffee").host 4242).answer 0 (kill 1 sandbox) 13
      (.pidfdSendSignal 0) := by decide +kernel
  obtain ⟨v, htarget, hid, _⟩ := kill_signals_identified _ sandbox 1 13 0 h
  exact ⟨h, v, htarget, hid⟩

end Firecracker
end Niflhel
