import Mathlib.Data.List.Nodup
import Mathlib.Tactic.NormNum
import Niflhel.DnsAdmission

/-!
# The rates of DNS queries

The calls that a run of the admission makes of one of its buckets are a sequence of calls as the
bucket sees them. A query that is granted has made one admitted call of the bucket of its sandbox
and one of the shared bucket, so that the bounds on the admitted calls carry over.
-/

namespace Niflhel.Dns
open TokenBucket (after clock admits admitted)

inductive Meter where
  | sandbox (x : ℕ)
  | shared
  deriving DecidableEq

def Setup.bucket (D : Setup) : Meter → TokenBucket
  | .sandbox _ => newTokenBucket D.localRate D.localBurst
  | .shared => newTokenBucket D.globalRate D.globalBurst

def State.bucket (s : State) : Meter → TokenBucket
  | .sandbox x => s.localTokens x
  | .shared => s.globalTokens

def Query.concerns (q : Query) : Meter → Bool
  | .sandbox x => q.sandbox == x
  | .shared => true

def Query.asks (q : Query) : Meter → Bool
  | .sandbox x => q.phase == .entered && q.sandbox == x
  | .shared => q.phase == .metered

def Phase.asked : Meter → Phase → Bool
  | .sandbox _, p => p != .entered
  | .shared, p => p != .entered && p != .metered

/-- The call of the bucket that a move makes: the query and its time. -/
def callOf (m : Meter) (s : State) : Move → List (ℕ × ℚ)
  | .arrive _ _ => []
  | .advance i =>
    match s.queries[i]? with
    | some q => if q.asks m then [(i, q.now)] else []
    | none => []

def calls (D : Setup) (m : Meter) : State → List Move → List (ℕ × ℚ)
  | _, [] => []
  | s, move :: moves =>
    match step D s move with
    | none => []
    | some s' => callOf m s move ++ calls D m s' moves

def State.served (s : State) (i : ℕ) : Bool :=
  s.queries[i]?.any fun q => q.phase == .granted || q.phase == .returning || q.phase == .done

theorem calls_append {D : Setup} {m : Meter} {s s' : State} {moves : List Move} {move : Move}
    (h : Traces.run (step D) (fun _ _ => true) s moves = some s')
    (hstep : (step D s' move).isSome = true) :
    calls D m s (moves ++ [move]) = calls D m s moves ++ callOf m s' move := by
  induction moves generalizing s with
  | nil =>
    cases h
    obtain ⟨s₁, hs₁⟩ := Option.isSome_iff_exists.1 hstep
    simp [calls, hs₁]
  | cons first moves ih =>
    obtain ⟨s₁, hs₁, hrest⟩ := Option.bind_eq_some_iff.1 (by simpa [Traces.run] using h)
    simp only [List.cons_append, calls, hs₁]
    rw [ih hrest, List.append_assoc]

structure Metering (m : Meter) (s s' : State) (q : Query) (p : Phase) : Prop where
  bucket : s'.bucket m =
    if q.asks m then ((s.bucket m).allow q.now).1 else s.bucket m
  passed : q.asks m = true → p ≠ .refused → ((s.bucket m).allow q.now).2 = true
  before : q.phase ≠ .refused
  keeps : q.phase.asked m = true → p.asked m = true
  fresh : q.asks m = true → q.concerns m = true ∧ q.phase.asked m = false ∧ p.asked m = true
  only : q.concerns m = true → p.asked m = true → p ≠ .refused → q.phase.asked m = false →
    q.asks m = true

section
variable {D : Setup} {s s' : State} {i : ℕ} {q : Query}

theorem metering_still {p : Phase} (m : Meter) (hlocal : s'.localTokens = s.localTokens)
    (hglobal : s'.globalTokens = s.globalTokens) (hentered : q.phase ≠ .entered)
    (hmetered : q.phase ≠ .metered) (hrefused : q.phase ≠ .refused) (hp : p ≠ .entered)
    (hp' : p ≠ .metered) : Metering m s s' q p := by
  have hquiet : q.asks m = false := by
    cases m <;> simp [Query.asks, hentered, hmetered]
  have hasked : q.phase.asked m = true := by
    cases m <;> simp [Phase.asked, hentered, hmetered]
  constructor
  case bucket =>
    rw [hquiet]
    cases m with
    | sandbox x => simp [State.bucket, hlocal]
    | shared => simp [State.bucket, hglobal]
  case passed => simp [hquiet]
  case before => exact hrefused
  case keeps => cases m <;> simp [Phase.asked, hp, hp']
  case fresh => simp [hquiet]
  case only => simp [hasked]

theorem metering_local (m : Meter) (hp : q.phase = .entered) {b : TokenBucket} {ok : Bool}
    (hb : (s.localTokens q.sandbox).allow q.now = (b, ok)) :
    Metering m s ((s.setLocalTokens q.sandbox b).setPhase i q (if ok then .metered else .refused)) q
      (if ok then .metered else .refused) := by
  cases m with
  | sandbox x =>
    by_cases hx : q.sandbox = x
    · subst hx
      constructor <;> cases ok <;>
        simp [State.bucket, State.setLocalTokens, State.setPhase, Query.asks, Query.concerns,
          Phase.asked, hp, hb]
    · have hx' : x ≠ q.sandbox := Ne.symm hx
      constructor <;>
        simp [State.bucket, State.setLocalTokens, State.setPhase, Query.asks, Query.concerns,
          Phase.asked, hp, hx, hx']
  | shared =>
    constructor <;> cases ok <;>
      simp [State.bucket, State.setLocalTokens, State.setPhase, Query.asks, Query.concerns,
        Phase.asked, hp]

theorem metering_shared (m : Meter) (hp : q.phase = .metered) {b : TokenBucket} {ok : Bool}
    (hb : s.globalTokens.allow q.now = (b, ok)) :
    Metering m s ({ s with globalTokens := b }.setPhase i q (if ok then .allowed else .refused)) q
      (if ok then .allowed else .refused) := by
  cases m <;> constructor <;> cases ok <;>
    simp [State.bucket, State.setPhase, Query.asks, Query.concerns, Phase.asked, hp, hb]

theorem metering_of_advance (h : advance D s i q = some s') :
    ∃ p, s'.queries = s.queries.set i { q with phase := p } ∧ ∀ m, Metering m s s' q p := by
  unfold advance at h
  cases hp : q.phase with
  | entered =>
    rw [hp] at h
    cases h
    exact ⟨_, rfl, fun m => metering_local m hp rfl⟩
  | metered =>
    rw [hp] at h
    cases h
    exact ⟨_, rfl, fun m => metering_shared m hp rfl⟩
  | done | refused =>
    rw [hp] at h
    cases h
  | _ =>
    rw [hp] at h
    dsimp only at h
    split at h
    all_goals
      cases h
      try
        refine ⟨_, rfl, fun m => metering_still m rfl rfl ?_ ?_ ?_ ?_ ?_⟩ <;> simp [hp]

end

/-- The bucket has seen the calls, every query made at most one of them, and those that are not
refused were admitted. -/
structure Metered (D : Setup) (m : Meter) (made : List (ℕ × ℚ)) (s : State) : Prop where
  bucket : s.bucket m = (D.bucket m).after (made.map Prod.snd)
  known : ∀ k i now, made[k]? = some (i, now) → ∃ q, s.queries[i]? = some q ∧
    q.concerns m = true ∧ q.phase.asked m = true ∧
      (q.phase ≠ .refused → (D.bucket m).admits (made.map Prod.snd) k = true)
  once : (made.map Prod.fst).Nodup
  all : ∀ i q, s.queries[i]? = some q → q.concerns m = true → q.phase.asked m = true →
    q.phase ≠ .refused → i ∈ made.map Prod.fst

theorem admits_append (b : TokenBucket) {times : List ℚ} {k : ℕ} (hk : k < times.length)
    (later : List ℚ) : b.admits (times ++ later) k = b.admits times k := by
  unfold admits
  rw [List.getElem?_append_left hk, List.take_append_of_le_length hk.le]

theorem admits_last (b : TokenBucket) (times : List ℚ) (now : ℚ) :
    b.admits (times ++ [now]) times.length = ((b.after times).allow now).2 := by
  unfold admits
  simp

section
variable {D : Setup} {m : Meter} {made : List (ℕ × ℚ)} {s s' : State} {i : ℕ} {q : Query} {p : Phase}

theorem Metered.arrive (h : Metered D m made s) (sandbox : ℕ) (now : ℚ) :
    Metered D m made { s with queries := s.queries ++ [⟨sandbox, now, .entered⟩] } := by
  refine ⟨?_, ?_, h.once, ?_⟩
  · cases m <;> exact h.bucket
  · intro k i now' hk
    obtain ⟨q, hq, hrest⟩ := h.known k i now' hk
    have hlt : i < s.queries.length := (List.getElem?_eq_some_iff.1 hq).1
    exact ⟨q, by rwa [List.getElem?_append_left hlt], hrest⟩
  · intro i q hq hconcerns hasked hrefused
    by_cases hlt : i < s.queries.length
    · rw [List.getElem?_append_left hlt] at hq
      exact h.all i q hq hconcerns hasked hrefused
    · rw [List.getElem?_append_right (by omega)] at hq
      obtain rfl : q = ⟨sandbox, now, .entered⟩ := by simpa using List.mem_of_getElem? hq
      cases m <;> simp [Phase.asked] at hasked

theorem Metered.quiet (h : Metered D m made s) (hq : s.queries[i]? = some q)
    (hqueries : s'.queries = s.queries.set i { q with phase := p }) (hm : Metering m s s' q p)
    (hquiet : q.asks m = false) : Metered D m made s' := by
  have hlt : i < s.queries.length := (List.getElem?_eq_some_iff.1 hq).1
  refine ⟨?_, ?_, h.once, ?_⟩
  · rw [hm.bucket, hquiet]
    exact h.bucket
  · intro k j now hk
    obtain ⟨r, hr, hconcerns, hasked, hadmits⟩ := h.known k j now hk
    by_cases hj : j = i
    · subst hj
      cases hq.symm.trans hr
      refine ⟨{ q with phase := p }, by simp [hqueries, hlt], ?_, hm.keeps hasked,
        fun _ => hadmits hm.before⟩
      cases m <;> exact hconcerns
    · exact ⟨r, by rwa [hqueries, List.getElem?_set_ne (Ne.symm hj)], hconcerns, hasked, hadmits⟩
  · intro j r hr hconcerns hasked hrefused
    by_cases hj : j = i
    · subst hj
      obtain rfl : r = { q with phase := p } := by
        rw [hqueries, List.getElem?_set_self hlt] at hr
        exact (Option.some.inj hr).symm
      have hconcerns' : q.concerns m = true := by cases m <;> exact hconcerns
      by_cases hbefore : q.phase.asked m = true
      · exact h.all j q hq hconcerns' hbefore hm.before
      · have hasks := hm.only hconcerns' hasked hrefused (by simpa using hbefore)
        rw [hquiet] at hasks
        cases hasks
    · rw [hqueries, List.getElem?_set_ne (Ne.symm hj)] at hr
      exact h.all j r hr hconcerns hasked hrefused

theorem Metered.call (h : Metered D m made s) (hq : s.queries[i]? = some q)
    (hqueries : s'.queries = s.queries.set i { q with phase := p }) (hm : Metering m s s' q p)
    (hasks : q.asks m = true) : Metered D m (made ++ [(i, q.now)]) s' := by
  have hlt : i < s.queries.length := (List.getElem?_eq_some_iff.1 hq).1
  obtain ⟨hconcerns, hfresh, hasked⟩ := hm.fresh hasks
  have hnew : i ∉ made.map Prod.fst := by
    intro hmem
    obtain ⟨⟨j, now⟩, hc, rfl⟩ := List.mem_map.1 hmem
    obtain ⟨k, hk⟩ := List.mem_iff_getElem?.1 hc
    obtain ⟨r, hr, -, hrasked, -⟩ := h.known k j now hk
    cases hq.symm.trans hr
    rw [hfresh] at hrasked
    cases hrasked
  have hlen : made.length = (made.map Prod.snd).length := by simp
  refine ⟨?_, ?_, ?_, ?_⟩
  · rw [hm.bucket, hasks, if_pos rfl, List.map_append, TokenBucket.after_append, ← h.bucket]
    rfl
  · intro k j now hk
    rw [List.map_append, List.map_singleton]
    by_cases hk' : k < made.length
    · rw [List.getElem?_append_left hk'] at hk
      obtain ⟨r, hr, hc, ha, hadmits⟩ := h.known k j now hk
      have hj : j ≠ i := by
        rintro rfl
        exact hnew (List.mem_map.2 ⟨_, List.mem_of_getElem? hk, rfl⟩)
      refine ⟨r, by rwa [hqueries, List.getElem?_set_ne (Ne.symm hj)], hc, ha, fun hr' => ?_⟩
      rw [admits_append _ (by rwa [← hlen])]
      exact hadmits hr'
    · rw [List.getElem?_append_right (by omega)] at hk
      have hkeq : k = made.length := by
        have hin := (List.getElem?_eq_some_iff.1 hk).1
        simp only [List.length_singleton] at hin
        omega
      subst hkeq
      obtain ⟨rfl, rfl⟩ : i = j ∧ q.now = now := by simpa using hk
      refine ⟨{ q with phase := p }, by simp [hqueries, hlt], by cases m <;> exact hconcerns, hasked,
        fun hp => ?_⟩
      rw [hlen, admits_last, ← h.bucket]
      exact hm.passed hasks hp
  · rw [List.map_append, List.map_singleton, ← List.concat_eq_append]
    exact h.once.concat hnew
  · intro j r hr hc ha hrefused
    rw [List.map_append, List.mem_append]
    by_cases hj : j = i
    · subst hj
      exact .inr (by simp)
    · rw [hqueries, List.getElem?_set_ne (Ne.symm hj)] at hr
      exact .inl (h.all j r hr hc ha hrefused)

theorem Metered.step {move : Move} (h : Metered D m made s) (hstep : step D s move = some s') :
    Metered D m (made ++ callOf m s move) s' := by
  cases move with
  | arrive sandbox now =>
    cases hstep
    rw [callOf, List.append_nil]
    exact h.arrive sandbox now
  | advance i =>
    obtain ⟨q, hq, hadvance⟩ := Option.bind_eq_some_iff.1 hstep
    obtain ⟨p, hqueries, hm⟩ := metering_of_advance hadvance
    cases hasks : q.asks m with
    | false =>
      simp only [callOf, hq, hasks, Bool.false_eq_true, if_false, List.append_nil]
      exact h.quiet hq hqueries (hm m) hasks
    | true =>
      simp only [callOf, hq, hasks, if_true]
      exact h.call hq hqueries (hm m) hasks

end

theorem metered_of_runs {D : Setup} {moves : List Move} {s : State} (h : Runs D moves s)
    (m : Meter) : Metered D m (calls D m (State.start D) moves) s := by
  suffices hboth : Runs D moves s ∧ Metered D m (calls D m (State.start D) moves) s from hboth.2
  refine @Traces.run_induct State Move (step D) (fun _ _ => true)
    (fun past s => Runs D past s ∧ Metered D m (calls D m (State.start D) past) s) ?_ [] moves
    (State.start D) s ⟨rfl, ?_⟩ h
  · rintro past s₁ move s₂ ⟨hruns, hmetered⟩ - hstep
    refine ⟨?_, ?_⟩
    · rw [Runs, Traces.run_append, hruns, Option.bind_some]
      simp [Traces.run, hstep]
    · rw [calls_append hruns (by rw [hstep]; rfl)]
      exact hmetered.step hstep
  · constructor
    case bucket => cases m <;> rfl
    case known => simp [calls]
    case once => exact List.nodup_nil
    case all => simp [State.start]

def State.servedAmong (s : State) (made : List (ℕ × ℚ)) (i j : ℕ) : ℕ :=
  ((Finset.Icc i j).filter fun k => made[k]?.any fun c => s.served c.1).card

theorem Metered.served_le {D : Setup} {m : Meter} {made : List (ℕ × ℚ)} {s : State}
    (h : Metered D m made s) (i j : ℕ) :
    s.servedAmong made i j ≤ (D.bucket m).admitted (made.map Prod.snd) i j := by
  refine Finset.card_le_card ?_
  intro k hk
  obtain ⟨hin, hserved⟩ := Finset.mem_filter.1 hk
  obtain ⟨⟨i, now⟩, hc, hserved⟩ := (Option.any_eq_true _ _).1 hserved
  obtain ⟨q, hq, -, -, hadmits⟩ := h.known k i now hc
  refine Finset.mem_filter.2 ⟨hin, hadmits ?_⟩
  rintro hrefused
  simp [State.served, hq, hrefused] at hserved

/-- A granted query made one call of each bucket that counts it. -/
theorem Metered.served_once {D : Setup} {m : Meter} {made : List (ℕ × ℚ)} {s : State}
    (h : Metered D m made s) {i : ℕ} {q : Query} (hq : s.queries[i]? = some q)
    (hconcerns : q.concerns m = true) (hserved : s.served i = true) :
    (made.map Prod.fst).count i = 1 := by
  refine List.count_eq_one_of_mem h.once (h.all i q hq hconcerns ?_ ?_)
  · cases m <;> cases hp : q.phase <;> simp_all [State.served, Phase.asked]
  · rintro hrefused
    simp [State.served, hq, hrefused] at hserved

structure Setup.Limits (D : Setup) : Prop where
  localRate : 0 < D.localRate
  localBurst : 1 ≤ D.localBurst
  globalRate : 0 < D.globalRate
  globalBurst : 1 ≤ D.globalBurst

theorem Setup.Limits.bucket {D : Setup} (h : D.Limits) : ∀ m, (D.bucket m).Valid
  | .sandbox _ => TokenBucket.valid_new h.localRate h.localBurst
  | .shared => TokenBucket.valid_new h.globalRate h.globalBurst

/-- Within every window of calls of a bucket, at times that may be out of order but do not take the
clock back from the zero time, the burst and the rate bound the calls that are admitted; the tokens
always stay within the burst. In every run of the admission, the queries granted among the calls of
the bucket of a sandbox, or of the shared one, keep to that bucket's bound, and a granted query is
one call of each. -/
theorem query_rate_bounded : (∀ (rate : ℚ) (burst : ℤ) (times : List ℚ), 0 < rate → 1 ≤ burst →
      (∀ k, 0 ≤ ((newTokenBucket rate burst).after (times.take k)).tokens ∧
        ((newTokenBucket rate burst).after (times.take k)).tokens ≤ burst) ∧
      ((newTokenBucket rate burst).Forward times → ∀ i j, i ≤ j → j < times.length →
        ((newTokenBucket rate burst).admitted times i j : ℚ) ≤ burst + rate *
          ((newTokenBucket rate burst).clock times j -
            (newTokenBucket rate burst).clock times i))) ∧
    ∀ (D : Setup) (moves : List Move) (s : State) (m : Meter), D.Limits → Runs D moves s →
      (∀ i q, s.queries[i]? = some q → q.concerns m = true → s.served i = true →
        ((calls D m (State.start D) moves).map Prod.fst).count i = 1) ∧
      ((D.bucket m).Forward ((calls D m (State.start D) moves).map Prod.snd) →
        ∀ i j, i ≤ j → j < (calls D m (State.start D) moves).length →
          (s.servedAmong (calls D m (State.start D) moves) i j : ℚ) ≤
            (D.bucket m).burst + (D.bucket m).rate *
              ((D.bucket m).clock ((calls D m (State.start D) moves).map Prod.snd) j -
                (D.bucket m).clock ((calls D m (State.start D) moves).map Prod.snd) i)) := by
  constructor
  · intro rate burst times hrate hburst
    have hvalid := TokenBucket.valid_new hrate hburst
    refine ⟨fun k => ?_, fun htimes i j hij hj => hvalid.admitted_le htimes hij hj⟩
    obtain ⟨hafter, -, hburst'⟩ := hvalid.after (times.take k)
    exact ⟨hafter.nonneg, hafter.le_burst.trans_eq hburst'⟩
  · intro D moves s m hD hruns
    have hmetered := metered_of_runs hruns m
    refine ⟨fun i q hq hconcerns hserved => hmetered.served_once hq hconcerns hserved, ?_⟩
    intro htimes i j hij hj
    generalize hmade : calls D m (State.start D) moves = made at *
    have hj' : j < (made.map Prod.snd).length := by simpa using hj
    have hserved : (s.servedAmong made i j : ℚ) ≤ (D.bucket m).admitted (made.map Prod.snd) i j := by
      exact_mod_cast hmetered.served_le i j
    exact hserved.trans ((hD.bucket m).admitted_le htimes hij hj')

theorem forward_of_nonneg (b : TokenBucket) {times : List ℚ} (h : ∀ now ∈ times, 0 ≤ now) :
    b.Forward times := fun _ now hk _ => h now (List.mem_of_getElem? hk)

/-- Three calls of a bucket with a burst of two, the first at the zero time; and two queries, the
second of which finds no free slot. -/
theorem query_rate_bounded_three : ((newTokenBucket 1 2).admitted [0, 0, 1] 0 2 : ℚ) ≤ 2 + 1 *
        ((newTokenBucket 1 2).clock [0, 0, 1] 2 - (newTokenBucket 1 2).clock [0, 0, 1] 0) ∧
      ∃ s, Runs pairSetup pairMoves s ∧ s.served 0 = true ∧
        ((calls pairSetup .shared (State.start pairSetup) pairMoves).map Prod.fst).count 0 = 1 ∧
        (s.servedAmong [(0, 1), (1, 1)] 0 1 : ℚ) ≤ (pairSetup.bucket .shared).burst +
          (pairSetup.bucket .shared).rate * ((pairSetup.bucket .shared).clock [1, 1] 1 -
            (pairSetup.bucket .shared).clock [1, 1] 0) := by
  constructor
  · exact (query_rate_bounded.1 1 2 [0, 0, 1] (by decide) (by decide)).2
      (forward_of_nonneg _ (by decide)) 0 2 (by decide) (by decide)
  · have hend : (Traces.run (step pairSetup) (fun _ _ => true) (State.start pairSetup) pairMoves).any
        (fun s => s.served 0) = true := by decide +kernel
    obtain ⟨s, hs, hserved⟩ := (Option.any_eq_true _ _).1 hend
    have hlimits : pairSetup.Limits := ⟨by decide +kernel, by decide, by decide +kernel, by decide⟩
    have hcalls : calls pairSetup .shared (State.start pairSetup) pairMoves = [(0, 1), (1, 1)] := by
      decide +kernel
    obtain ⟨honce, hrate⟩ := query_rate_bounded.2 pairSetup pairMoves s .shared hlimits hs
    obtain ⟨q, hq, -⟩ := (Option.any_eq_true _ _).1 hserved
    rw [hcalls] at hrate
    exact ⟨s, hs, hserved, honce 0 q hq rfl hserved,
      hrate (forward_of_nonneg _ (by decide)) 0 1 (by decide) (by decide)⟩

/-- A call at the zero time leaves the clock unset, so that an earlier time sets it back: both calls
are admitted, but the clock has gone back five seconds. -/
theorem zero_time_resets_clock : (newTokenBucket 1 2).admitted [0, -5] 0 1 = 2 ∧
      ¬ ((newTokenBucket 1 2).admitted [0, -5] 0 1 : ℚ) ≤
        2 + 1 * ((newTokenBucket 1 2).clock [0, -5] 1 - (newTokenBucket 1 2).clock [0, -5] 0) := by
  have hboth : (newTokenBucket 1 2).admitted [0, -5] 0 1 = 2 := by decide +kernel
  have hclock : (newTokenBucket 1 2).clock [0, -5] 1 - (newTokenBucket 1 2).clock [0, -5] 0 = -5 := by
    decide +kernel
  rw [hboth, hclock]
  norm_num

end Niflhel.Dns
