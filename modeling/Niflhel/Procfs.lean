import Niflhel.Firecracker

/-!
# Processes over time

A `Timeline` says which process has which number at each call, and what the calls answer.
Files may be unreadable and the control groups may change at any time, and numbers are
reused; a number, the boot ID and a start tick identify one process, and a process lives
for one interval. A `View` is what procfs shows of a single process as long as it lives.
-/

namespace Niflhel
namespace Firecracker
open GoText Concurrent

/-- A process status: the command name in parentheses may hold any text, the fields after
it hold no parenthesis, and field 20 of them is the start tick. -/
def StatLine (tick raw : String) : Prop :=
  ∃ front body, raw.toList = front ++ ')' :: ' ' :: body ∧ ')' ∉ body ∧
    (fields (String.ofList body))[19]? = some tick

theorem StatLine.startTick_eq {tick raw : String} (h : StatLine tick raw) :
    startTick raw = some tick := by
  obtain ⟨front, body, hraw, hbody, htick⟩ := h
  unfold startTick
  rw [hraw, afterLast_append (by decide) hbody]
  exact htick

structure Timeline (P : Type) where
  boot : String
  tick : P → String
  occupant : ℕ → ℤ → Option P
  behind : ℕ → P
  answer : (t : ℕ) → (o : Op) → Reply o
  tick_colon : ∀ p, ':' ∉ (tick p).toList
  boot_read : ∀ {t raw}, answer t .readBootID = .ok raw → trimSpace raw = boot
  stat_read : ∀ {t pid raw}, answer t (.readStat pid) = .ok raw →
    ∃ p, occupant t pid = some p ∧ StatLine (tick p) raw
  opened : ∀ {t pid fd}, answer t (.pidfdOpen pid) = .ok fd → occupant t pid = some (behind fd)
  open_missing : ∀ {t pid}, answer t (.pidfdOpen pid) = .error .noProcess → occupant t pid = none
  send_missing : ∀ {t fd pid}, answer t (.pidfdSendSignal fd) = some .noProcess →
    occupant t pid ≠ some (behind fd)
  unique : ∀ {t t' pid p q}, occupant t pid = some p → occupant t' pid = some q →
    tick p = tick q → p = q
  contiguous : ∀ {t i t' pid p}, t ≤ i → i ≤ t' → occupant t pid = some p →
    occupant t' pid = some p → occupant i pid = some p

namespace Timeline
variable {P : Type} (w : Timeline P)

def identity (p : P) : String := w.boot ++ ":" ++ w.tick p

def Identified (p : P) (pidStart : String) : Prop :=
  pidStart = w.identity p ∨ (containsRune pidStart ':' = false ∧ pidStart = w.tick p)

variable {w} {p q : P} {pidStart : String}

theorem identified_of_matches (h : identityMatches (w.identity p) pidStart = true) :
    w.Identified p pidStart := by
  simp only [identityMatches, Bool.or_eq_true, beq_iff_eq, Bool.and_eq_true,
    Bool.not_eq_true'] at h
  rcases h with h | ⟨hcolon, hsuffix⟩
  · exact Or.inl h.symm
  · refine Or.inr ⟨hcolon, String.toList_inj.1 ?_⟩
    simp only [hasSuffix, List.isSuffixOf_iff_suffix, identity, String.toList_append,
      List.append_assoc] at hsuffix
    exact eq_of_cons_suffix (by simpa [containsRune] using hcolon) (w.tick_colon p) hsuffix

/-- Two processes identified by one record have the same start tick. -/
theorem Identified.tick_eq (hp : w.Identified p pidStart) (hq : w.Identified q pidStart) :
    w.tick p = w.tick q := by
  have hmixed : ∀ r, ¬ containsRune (w.identity r) ':' = false := by
    intro r
    simp [containsRune, identity]
  rcases hp with rfl | ⟨hcolon, rfl⟩
  · rcases hq with hq | ⟨hcolon, _⟩
    · have happ := congrArg String.toList hq
      simp only [identity, String.toList_append] at happ
      exact String.toList_inj.1 (List.append_cancel_left happ)
    · exact absurd hcolon (hmixed p)
  · rcases hq with hq | ⟨_, hq⟩
    · rw [hq] at hcolon
      exact absurd hcolon (hmixed q)
    · exact hq

theorem occupant_of_pidStartAt {t t' : ℕ} {pid : ℤ} {start : String}
    (h : Program.outcome w.answer t (pidStartAt pid) = (.ok start, t')) :
    ∃ p, w.occupant (t + 1) pid = some p ∧ start = w.identity p := by
  obtain ⟨_, bootRaw, raw, tick, hboot, _, _, hstat, htick, rfl⟩ := pidStartAt_eq_ok h
  obtain ⟨p, hp, hline⟩ := w.stat_read hstat
  rw [hline.startTick_eq] at htick
  rw [w.boot_read hboot, ← Option.some.inj htick]
  exact ⟨p, hp, rfl⟩

/-- A successful check has read the identity of the process, and its group last. -/
theorem checked {t : ℕ} {s : Sandbox}
    (h : Program.outcome w.answer t (ownedAlive s) = (.ok true, t + 4)) :
    (∃ p, w.occupant (t + 1) s.pid = some p ∧ w.Identified p s.pidStart) ∧
      ∃ group, w.answer (t + 3) (.readCgroup s.pid) = .ok group ∧ owns s.id group = true := by
  obtain ⟨_, halive, hgroup⟩ := ownedAlive_eq_true h
  obtain ⟨_, _, _, current, hstart, hmatch⟩ := aliveAt_eq_true halive
  obtain ⟨p, hp, rfl⟩ := occupant_of_pidStartAt hstart
  exact ⟨⟨p, hp, identified_of_matches hmatch⟩, (cgroupOwnedAt_eq_true hgroup).2⟩

end Timeline

/-- What procfs shows of a process at each time, as long as it lives. -/
structure View where
  boot : String
  tick : String
  bootFile : ℕ → Except Fault String
  stat : ℕ → Except Fault String
  cgroup : ℕ → Except Fault String
  boot_form : boot ≠ "" ∧ containsRune boot ':' = false
  tick_colon : ':' ∉ tick.toList
  boot_read : ∀ {t raw}, bootFile t = .ok raw → trimSpace raw = boot
  stat_read : ∀ {t raw}, stat t = .ok raw → StatLine tick raw

/-- The replies of a host on which the process has this number and never exits, no PID
record exists, and the calls succeed. -/
def View.reply (v : View) (pid : ℤ) (t : ℕ) : (o : Op) → Reply o
  | .readBootID => v.bootFile t
  | .readStat n => if n = pid then v.stat t else .error .notExist
  | .readCgroup n => if n = pid then v.cgroup t else .error .notExist
  | .readPidfile _ => .error .notExist
  | .pidfdOpen n => if n = pid then .ok 0 else .error .noProcess
  | .pidfdSendSignal _ => none
  | .wait => none

def View.host (v : View) (pid : ℤ) : Timeline Unit where
  boot := v.boot
  tick _ := v.tick
  occupant _ n := if n = pid then some () else none
  behind _ := ()
  answer := v.reply pid
  tick_colon _ := v.tick_colon
  boot_read h := v.boot_read h
  stat_read := by
    intro t n raw h
    by_cases hn : n = pid
    · rw [if_pos hn]
      refine ⟨(), rfl, v.stat_read (t := t) ?_⟩
      simpa [View.reply, hn] using h
    · simp [View.reply, hn] at h
  opened := by
    intro t n fd h
    by_cases hn : n = pid
    · rw [if_pos hn]
    · simp [View.reply, hn] at h
  open_missing := by
    intro t n h
    by_cases hn : n = pid
    · simp [View.reply, hn] at h
    · rw [if_neg hn]
  send_missing h := nomatch h
  unique _ _ _ := rfl
  contiguous _ _ h _ := h

def View.steady (boot tick stat group : String)
    (hboot : trimSpace boot ≠ "" ∧ containsRune (trimSpace boot) ':' = false)
    (htick : ':' ∉ tick.toList) (hstat : StatLine tick stat) : View where
  boot := trimSpace boot
  tick := tick
  bootFile _ := .ok boot
  stat _ := .ok stat
  cgroup _ := .ok group
  boot_form := hboot
  tick_colon := htick
  boot_read h := by rw [Except.ok.inj h]
  stat_read h := by rw [← Except.ok.inj h]; exact hstat

namespace Sample

def stat : String := "4242 (firecracker) S 1 2 3 4 5 6 7 8 9 10 11 12 13 14 15 16 17 18 98765 20\n"

theorem statLine : StatLine "98765" stat :=
  ⟨"4242 (firecracker".toList,
    "S 1 2 3 4 5 6 7 8 9 10 11 12 13 14 15 16 17 18 98765 20\n".toList,
    by decide +kernel, by decide +kernel, by decide +kernel⟩

def view (group : String) : View :=
  .steady "boot-a\n" "98765" stat ("0::" ++ group ++ "\n") (by decide +kernel)
    (by decide +kernel) statLine

def sandbox : Sandbox where
  id := "c0ffee"
  name := "web"
  spec := defaultSpec
  process := {}
  imageDigest := ""
  baseDigest := ""
  state := .running
  reason := ""
  warnings := []
  generation := 1
  created := 0
  updated := 0
  exit := none
  pid := 4242
  pidStart := "boot-a:98765"
  guestMemory := 0
  slot := 0
  vmResourcesReleased := false

end Sample

end Firecracker
end Niflhel
