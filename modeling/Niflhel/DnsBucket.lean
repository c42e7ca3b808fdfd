import Mathlib.Algebra.Order.Field.Rat
import Mathlib.Algebra.Order.Interval.Finset.SuccPred
import Mathlib.Data.Finset.Card
import Mathlib.Data.Nat.SuccPred
import Mathlib.Order.Interval.Finset.Nat
import Mathlib.Tactic.Linarith
import Mathlib.Tactic.Ring

/-!
# Token buckets of the DNS proxy

The rate limits of `internal/network/dns.go`. A call of `allow` holds the bucket's mutex, so that
a bucket sees its calls one after the other. Tokens and times are exact; a time is the number of
seconds since the zero `time.Time`.
-/

namespace Niflhel.Dns

structure TokenBucket where
  rate : ℚ
  burst : ℚ
  tokens : ℚ
  last : ℚ
  deriving DecidableEq

def newTokenBucket (rate : ℚ) (burst : ℤ) : TokenBucket :=
  { rate, burst, tokens := burst, last := 0 }

namespace TokenBucket

def capped (burst tokens : ℚ) : ℚ := if tokens > burst then burst else tokens

theorem capped_le_burst (burst tokens : ℚ) : capped burst tokens ≤ burst := by
  unfold capped
  split_ifs with h
  · exact le_rfl
  · exact not_lt.1 h

theorem capped_le (burst tokens : ℚ) : capped burst tokens ≤ tokens := by
  unfold capped
  split_ifs with h
  · exact h.le
  · exact le_rfl

theorem capped_nonneg {burst tokens : ℚ} (hburst : 0 ≤ burst) (htokens : 0 ≤ tokens) :
    0 ≤ capped burst tokens := by
  unfold capped
  split_ifs
  · exact hburst
  · exact htokens

/-- The first half of `allow`: the clock, and the tokens for the time since the last call. The
zero time marks a clock that has not been set. -/
def refill (b : TokenBucket) (now : ℚ) : TokenBucket :=
  if b.last = 0 then { b with last := now }
  else if now > b.last then
    { b with tokens := capped b.burst (b.tokens + (now - b.last) * b.rate), last := now }
  else b

def allow (b : TokenBucket) (now : ℚ) : TokenBucket × Bool :=
  if b.rate ≤ 0 ∨ b.burst < 1 then (b, false)
  else
    let b := b.refill now
    if b.tokens < 1 then (b, false) else ({ b with tokens := b.tokens - 1 }, true)

def after (b : TokenBucket) (times : List ℚ) : TokenBucket :=
  times.foldl (fun b now => (b.allow now).1) b

def clock (b : TokenBucket) (times : List ℚ) (k : ℕ) : ℚ := (b.after (times.take (k + 1))).last

def admits (b : TokenBucket) (times : List ℚ) (k : ℕ) : Bool :=
  match times[k]? with
  | some now => ((b.after (times.take k)).allow now).2
  | none => false

structure Valid (b : TokenBucket) : Prop where
  rate : 0 < b.rate
  burst : 1 ≤ b.burst
  nonneg : 0 ≤ b.tokens
  le_burst : b.tokens ≤ b.burst

theorem valid_new {rate : ℚ} {burst : ℤ} (hrate : 0 < rate) (hburst : 1 ≤ burst) :
    (newTokenBucket rate burst).Valid := by
  have hone : (1 : ℚ) ≤ burst := by exact_mod_cast hburst
  exact ⟨hrate, hone, by change (0 : ℚ) ≤ burst; linarith, le_rfl⟩

section
variable {b : TokenBucket}

@[simp] theorem refill_rate (now : ℚ) : (b.refill now).rate = b.rate := by
  unfold refill
  split_ifs <;> rfl

@[simp] theorem refill_burst (now : ℚ) : (b.refill now).burst = b.burst := by
  unfold refill
  split_ifs <;> rfl

theorem Valid.refill (h : b.Valid) (now : ℚ) : (b.refill now).Valid := by
  have hrate := h.rate
  have hburst := h.burst
  have htokens := h.nonneg
  refine ⟨by simpa using hrate, by simpa using hburst, ?_, ?_⟩
  · unfold TokenBucket.refill
    split_ifs with hzero hlater
    · exact htokens
    · have hpos : 0 ≤ (now - b.last) * b.rate := mul_nonneg (by linarith) hrate.le
      exact capped_nonneg (by linarith) (by linarith)
    · exact htokens
  · rw [refill_burst]
    unfold TokenBucket.refill
    split_ifs
    · exact h.le_burst
    · exact capped_le_burst _ _
    · exact h.le_burst

/-- The clock pays for the tokens that are added, unless it is set back. -/
theorem refill_gain (hrate : 0 ≤ b.rate) {now : ℚ} (hforward : b.last = 0 → 0 ≤ now) :
    (b.refill now).tokens ≤ b.tokens + b.rate * ((b.refill now).last - b.last) := by
  unfold TokenBucket.refill
  split_ifs with hzero
  · have hpaid : 0 ≤ b.rate * (now - b.last) := by
      rw [hzero, sub_zero]
      exact mul_nonneg hrate (hforward hzero)
    exact le_add_of_nonneg_right hpaid
  · rw [mul_comm]
    exact capped_le _ _
  · simp

def taken (admitted : Bool) : ℚ := if admitted then 1 else 0

theorem taken_nonneg (admitted : Bool) : 0 ≤ taken admitted := by
  cases admitted <;> simp [taken]

structure Call (b : TokenBucket) (now : ℚ) : Prop where
  rate : (b.allow now).1.rate = b.rate
  burst : (b.allow now).1.burst = b.burst
  last : (b.allow now).1.last = (b.refill now).last
  tokens : (b.allow now).1.tokens + taken (b.allow now).2 = (b.refill now).tokens
  nonneg : 0 ≤ (b.allow now).1.tokens

theorem Valid.call (h : b.Valid) (now : ℚ) : b.Call now := by
  have hrate := h.rate
  have hburst := h.burst
  have hfull := (h.refill now).nonneg
  have huse : ¬ (b.rate ≤ 0 ∨ b.burst < 1) := by
    rintro (hr | hb) <;> linarith
  by_cases hlow : (b.refill now).tokens < 1
  · have heq : b.allow now = (b.refill now, false) := by
      unfold allow
      rw [if_neg huse, if_pos hlow]
    constructor <;> simp [heq, taken, hfull]
  · have heq : b.allow now = ({ b.refill now with tokens := (b.refill now).tokens - 1 }, true) := by
      unfold allow
      rw [if_neg huse, if_neg hlow]
    have hone : 1 ≤ (b.refill now).tokens := not_lt.1 hlow
    constructor <;> simp [heq, taken, hone]

theorem Valid.allow (h : b.Valid) (now : ℚ) : (b.allow now).1.Valid := by
  have hcall := h.call now
  have hle := (h.refill now).le_burst
  have htokens := hcall.tokens
  have htaken := taken_nonneg (b.allow now).2
  rw [refill_burst] at hle
  refine ⟨hcall.rate ▸ h.rate, hcall.burst ▸ h.burst, hcall.nonneg, ?_⟩
  rw [hcall.burst]
  linarith

theorem after_append (b : TokenBucket) (times later : List ℚ) :
    b.after (times ++ later) = (b.after times).after later := List.foldl_append

theorem Valid.after (h : b.Valid) (times : List ℚ) :
    (b.after times).Valid ∧ (b.after times).rate = b.rate ∧ (b.after times).burst = b.burst := by
  induction times generalizing b with
  | nil => exact ⟨h, rfl, rfl⟩
  | cons now times ih =>
    obtain ⟨hvalid, hrate, hburst⟩ := ih (h.allow now)
    exact ⟨hvalid, hrate.trans (h.call now).rate, hburst.trans (h.call now).burst⟩

theorem after_take_succ (b : TokenBucket) {times : List ℚ} {k : ℕ} (hk : k < times.length) :
    b.after (times.take (k + 1)) = ((b.after (times.take k)).allow times[k]).1 := by
  rw [List.take_add_one, List.getElem?_eq_getElem hk, after_append]
  rfl

theorem admits_eq (b : TokenBucket) {times : List ℚ} {k : ℕ} (hk : k < times.length) :
    b.admits times k = ((b.after (times.take k)).allow times[k]).2 := by
  unfold admits
  rw [List.getElem?_eq_getElem hk]

/-- While the clock stands at the zero time, no call is made at an earlier one. -/
def Forward (b : TokenBucket) (times : List ℚ) : Prop :=
  ∀ k now, times[k + 1]? = some now → b.clock times k = 0 → 0 ≤ now

def admitted (b : TokenBucket) (times : List ℚ) (i j : ℕ) : ℕ :=
  ((Finset.Icc i j).filter fun k => b.admits times k = true).card

theorem admitted_self (times : List ℚ) (i : ℕ) :
    (b.admitted times i i : ℚ) = taken (b.admits times i) := by
  unfold admitted taken
  rw [Finset.Icc_self, Finset.filter_singleton]
  split_ifs <;> simp

theorem admitted_succ (times : List ℚ) {i j : ℕ} (hij : i ≤ j) :
    (b.admitted times i (j + 1) : ℚ) = b.admitted times i j + taken (b.admits times (j + 1)) := by
  have hnew : j + 1 ∉ (Finset.Icc i j).filter fun k => b.admits times k = true := by simp
  unfold admitted taken
  rw [← Finset.insert_Icc_right_eq_Icc_add_one (show i ≤ j + 1 by omega), Finset.filter_insert]
  split_ifs
  · rw [Finset.card_insert_of_notMem hnew]
    push_cast
    ring
  · ring

/-- The potential: the calls admitted from `i` on and the tokens that are left together are paid
for by the burst and by the clock. -/
theorem Valid.potential (h : b.Valid) {times : List ℚ} (htimes : b.Forward times)
    {i j : ℕ} (hij : i ≤ j) (hj : j < times.length) :
    b.admitted times i j + (b.after (times.take (j + 1))).tokens ≤
      b.burst + b.rate * (b.clock times j - b.clock times i) := by
  induction j, hij using Nat.le_induction with
  | base =>
    have hvalid := (h.after (times.take i)).1
    have hburst := (h.after (times.take i)).2.2
    have hcall := (hvalid.call times[i]).tokens
    have hfull := (hvalid.refill times[i]).le_burst
    rw [refill_burst, hburst] at hfull
    rw [admitted_self, admits_eq b hj, after_take_succ b hj]
    linarith
  | succ j hij ih =>
    have hlt : j < times.length := by omega
    have hprev := ih hlt
    obtain ⟨hvalid, hrate, -⟩ := h.after (times.take (j + 1))
    have hcall := hvalid.call times[j + 1]
    have hgain := refill_gain hvalid.rate.le (htimes j times[j + 1] (List.getElem?_eq_getElem hj))
    have hclock : b.clock times (j + 1) =
        ((b.after (times.take (j + 1))).refill times[j + 1]).last := by
      rw [clock, after_take_succ b hj, hcall.last]
    have htokens := hcall.tokens
    rw [← hclock, hrate] at hgain
    rw [admitted_succ times hij, admits_eq b hj, after_take_succ b hj]
    have hsum : b.rate * (b.clock times (j + 1) - (b.after (times.take (j + 1))).last) +
        b.rate * (b.clock times j - b.clock times i) =
          b.rate * (b.clock times (j + 1) - b.clock times i) := by
      unfold clock
      ring
    linarith

theorem Valid.admitted_le (h : b.Valid) {times : List ℚ} (htimes : b.Forward times)
    {i j : ℕ} (hij : i ≤ j) (hj : j < times.length) :
    (b.admitted times i j : ℚ) ≤ b.burst + b.rate * (b.clock times j - b.clock times i) := by
  have hpotential := h.potential htimes hij hj
  have hleft := (h.after (times.take (j + 1))).1.nonneg
  linarith

end
end TokenBucket

end Niflhel.Dns
