import Mathlib.Algebra.BigOperators.Group.List.Basic
import Mathlib.Algebra.Order.BigOperators.Group.List
import Mathlib.Tactic.Linarith
import Niflhel.GoText
import Niflhel.Traces

/-!
# The budget of metadata responses

`MetadataTransport` of `internal/oci/metadata.go` bounds the response bodies that are created
while `Limit` is active, each by `max` bytes and all together by `total`. A `Read` reserves its
share of `used` before it reads from the network and gives back afterwards what it did not get.
The two critical sections of the Reads of any number of bodies interleave.
-/

namespace Niflhel.Oci

def maxMetadataResponses : ℕ := 32

def limitExceeded : String := "OCI metadata response limit exceeded"

/-- `metadataBody`, with the reservation of the `Read` that holds its lock. -/
structure MetadataBody where
  max : ℤ
  read : ℤ
  pending : Option ℤ
  deriving DecidableEq

structure Answer where
  n : ℤ
  error : Option String
  deriving DecidableEq

/-- The transport, the bodies it has created, and as a history the answers of their Reads. -/
structure MetadataState where
  active : ℕ
  responses : ℕ
  used : ℤ
  bodies : List MetadataBody
  returned : List (ℕ × Answer)
  deriving DecidableEq

namespace MetadataState

def start : MetadataState := ⟨0, 0, 0, [], []⟩

def answer (s : MetadataState) (i : ℕ) (a : Answer) : MetadataState :=
  { s with returned := s.returned ++ [(i, a)] }

def delivered (s : MetadataState) : ℤ := (s.returned.map fun r => r.2.n).sum

def deliveredBy (s : MetadataState) (i : ℕ) : ℤ :=
  (s.returned.map fun r => if r.1 = i then r.2.n else 0).sum

def inFlight (s : MetadataState) : ℤ := (s.bodies.map fun b => b.pending.getD 0).sum

end MetadataState

inductive MetadataMove where
  | limit
  /-- The function that `Limit` returned is called for the first time. -/
  | release
  /-- `RoundTrip`, with the content length of the response or -1. -/
  | roundTrip (contentLength : ℤ)
  /-- `Read` of body `i` with a buffer of `size` bytes, to the end of its first section. -/
  | read (i size : ℕ)
  /-- The network read of body `i` has returned, and `Read` runs its second section. -/
  | settle (i : ℕ) (n : ℤ) (error : Option String)
  deriving DecidableEq

section
variable (max total : ℤ)

def roundTrip (s : MetadataState) (contentLength : ℤ) : MetadataState :=
  if s.active > 0 then
    let s := { s with responses := s.responses + 1 }
    if s.responses > maxMetadataResponses ∨ max < 0 ∨ total < 0 ∨ contentLength > max ∨
        contentLength ≥ 0 ∧ contentLength > wrap64 (total - s.used) then s
    else { s with bodies := s.bodies ++ [⟨max, 0, none⟩] }
  else s

/-- The first section of `Read`: the number of bytes it reserves. -/
def reserve (used : ℤ) (b : MetadataBody) (size : ℕ) : Option ℤ :=
  let perRemaining := wrap64 (b.max - b.read)
  let totalRemaining := wrap64 (total - used)
  if perRemaining < 0 ∨ totalRemaining < 0 then none
  else
    let allowed := wrap64 size
    let allowed := if allowed > wrap64 (perRemaining + 1) then wrap64 (perRemaining + 1) else allowed
    let allowed :=
      if allowed > wrap64 (totalRemaining + 1) then wrap64 (totalRemaining + 1) else allowed
    if allowed ≤ 0 then none else some allowed

def beginRead (s : MetadataState) (i : ℕ) (b : MetadataBody) (size : ℕ) : Option MetadataState :=
  if size = 0 then some (s.answer i ⟨0, none⟩)
  else if b.pending.isSome then none  -- another `Read` holds the lock of the body
  else
    match reserve total s.used b size with
    | none => some (s.answer i ⟨0, some limitExceeded⟩)
    | some allowed =>
      some { s with used := wrap64 (s.used + allowed),
                    bodies := s.bodies.set i { b with pending := some allowed } }

def endRead (s : MetadataState) (i : ℕ) (b : MetadataBody) (allowed n : ℤ)
    (error : Option String) : MetadataState :=
  let used := wrap64 (s.used - wrap64 (allowed - n))
  let read := wrap64 (b.read + n)
  let exceeds := read > b.max ∨ used > total
  { s with used, bodies := s.bodies.set i { b with read, pending := none } }.answer i
    ⟨n, if exceeds then some limitExceeded else error⟩

def metadataStep (s : MetadataState) : MetadataMove → Option MetadataState
  | .limit => some { s with active := s.active + 1 }
  | .release => if s.active = 0 then none else some { s with active := s.active - 1 }
  | .roundTrip contentLength => some (roundTrip max total s contentLength)
  | .read i size => s.bodies[i]?.bind fun b => beginRead total s i b size
  | .settle i n error =>
    s.bodies[i]?.bind fun b => b.pending.bind fun allowed =>
      if 0 ≤ n ∧ n ≤ allowed then some (endRead total s i b allowed n error) else none

def metadataRun (s : MetadataState) (moves : List MetadataMove) : Option MetadataState :=
  Traces.run (metadataStep max total) (fun _ _ => true) s moves

end

def MetadataBody.reserved (b : MetadataBody) : ℤ := b.pending.getD 0

theorem sum_map_set {α : Type} (f : α → ℤ) {l : List α} {i : ℕ} {old : α} (new : α)
    (h : l[i]? = some old) : ((l.set i new).map f).sum = (l.map f).sum - f old + f new := by
  obtain ⟨hi, rfl⟩ := List.getElem?_eq_some_iff.1 h
  rw [List.map_set, List.sum_set', dif_pos (by simpa using hi), List.getElem_map]
  omega

/-- What a body keeps. A body of the largest `max` never delivers: `perRemaining + 1` overflows. -/
structure Fits (max : ℤ) (b : MetadataBody) : Prop where
  max_eq : b.max = max
  read : 0 ≤ b.read
  pending : ∀ a ∈ b.pending, 0 < a
  bounded : b.read + b.reserved ≤ max + 1
  largest : max = 2 ^ 63 - 1 → b.read + b.reserved = 0

theorem Fits.reserved_nonneg {max : ℤ} {b : MetadataBody} (h : Fits max b) : 0 ≤ b.reserved := by
  unfold MetadataBody.reserved
  cases hp : b.pending with
  | none => exact Int.le_refl 0
  | some a => exact Int.le_of_lt (h.pending a hp)

structure Balanced (max total : ℤ) (s : MetadataState) : Prop where
  used_eq : s.used = s.delivered + s.inFlight
  used_le : s.used ≤ total + 1
  largest : total = 2 ^ 63 - 1 → s.used = 0
  fits : ∀ b ∈ s.bodies, Fits max b
  delivered_eq : s.delivered = (s.bodies.map fun b => b.read).sum
  read_eq : ∀ i b, s.bodies[i]? = some b → b.read = s.deliveredBy i
  known : ∀ r ∈ s.returned, r.1 < s.bodies.length

structure Bounds (max total : ℤ) : Prop where
  max_nonneg : 0 ≤ max
  max_lt : max < 2 ^ 63
  total_nonneg : 0 ≤ total
  total_lt : total < 2 ^ 63

section
variable {max total : ℤ} {s s' : MetadataState} {i : ℕ} {b : MetadataBody}

@[simp] theorem delivered_answer (a : Answer) : (s.answer i a).delivered = s.delivered + a.n := by
  simp [MetadataState.answer, MetadataState.delivered]

@[simp] theorem deliveredBy_answer (a : Answer) (j : ℕ) :
    (s.answer i a).deliveredBy j = s.deliveredBy j + if i = j then a.n else 0 := by
  simp [MetadataState.answer, MetadataState.deliveredBy]

variable (hB : Bounds max total) (h : Balanced max total s)
include h

theorem Balanced.fits_at (hb : s.bodies[i]? = some b) : Fits max b :=
  h.fits b (List.mem_of_getElem? hb)

theorem Balanced.inFlight_nonneg : 0 ≤ s.inFlight := by
  refine List.sum_nonneg fun x hx => ?_
  obtain ⟨b, hb, rfl⟩ := List.mem_map.1 hx
  exact (h.fits b hb).reserved_nonneg

theorem Balanced.delivered_nonneg : 0 ≤ s.delivered := by
  rw [h.delivered_eq]
  refine List.sum_nonneg fun x hx => ?_
  obtain ⟨b, hb, rfl⟩ := List.mem_map.1 hx
  exact (h.fits b hb).read

theorem deliveredBy_unknown (hi : s.bodies.length ≤ i) : s.deliveredBy i = 0 := by
  refine List.sum_eq_zero fun x hx => ?_
  obtain ⟨r, hr, rfl⟩ := List.mem_map.1 hx
  have := h.known r hr
  rw [if_neg (by omega)]

include hB

/-- No body delivers more than one byte over its bound. -/
theorem Balanced.deliveredBy_le (i : ℕ) : s.deliveredBy i ≤ max + 1 := by
  cases hb : s.bodies[i]? with
  | none =>
    have hi : s.bodies.length ≤ i := by simpa using hb
    rw [deliveredBy_unknown h hi]
    have := hB.max_nonneg
    omega
  | some b =>
    have hf := h.fits_at hb
    have hbound := hf.bounded
    have hres := hf.reserved_nonneg
    rw [← h.read_eq i b hb]
    omega

omit hB

theorem Balanced.reserved_le (hb : s.bodies[i]? = some b) : s.delivered + b.reserved ≤ s.used := by
  have hmem : b.reserved ∈ s.bodies.map fun b => b.pending.getD 0 :=
    List.mem_map.2 ⟨b, List.mem_of_getElem? hb, rfl⟩
  have hle : b.reserved ≤ s.inFlight := by
    refine List.single_le_sum (fun x hx => ?_) _ hmem
    obtain ⟨b', hb', rfl⟩ := List.mem_map.1 hx
    exact (h.fits b' hb').reserved_nonneg
  have := h.used_eq
  omega

theorem Balanced.used_nonneg : 0 ≤ s.used := by
  have := h.used_eq
  have := h.delivered_nonneg
  have := h.inFlight_nonneg
  omega

include hB

theorem remaining_eq (hf : Fits max b) :
    wrap64 (b.max - b.read) = max - b.read ∧ wrap64 (total - s.used) = total - s.used := by
  obtain ⟨hm0, hm1, ht0, ht1⟩ := hB
  have hused := h.used_nonneg
  have hle := h.used_le
  have hread := hf.read
  have hbound := hf.bounded
  have hres := hf.reserved_nonneg
  rw [hf.max_eq]
  exact ⟨wrap64_of_lt (by omega) (by omega), wrap64_of_lt (by omega) (by omega)⟩

variable {allowed : ℤ}

/-- A reservation stays within one byte of what is left of either bound, without overflow. -/
theorem reserve_some (hf : Fits max b)
    {size : ℕ} (hr : reserve total s.used b size = some allowed) :
    0 < allowed ∧ allowed ≤ max - b.read + 1 ∧ allowed ≤ total - s.used + 1 ∧
      max - b.read + 1 < 2 ^ 63 ∧ total - s.used + 1 < 2 ^ 63 := by
  obtain ⟨hper, htot⟩ := remaining_eq hB h hf
  obtain ⟨hm0, hm1, ht0, ht1⟩ := hB
  have hused := h.used_nonneg
  have hle := h.used_le
  have hread := hf.read
  have hbound := hf.bounded
  have hres := hf.reserved_nonneg
  have hper' := @wrap64_succ (max - b.read) (by omega) (by omega)
  have htot' := @wrap64_succ (total - s.used) (by omega) (by omega)
  unfold reserve at hr
  simp only [hper, htot] at hr
  generalize wrap64 (size : ℤ) = len at hr
  simp only [Option.ite_none_left_eq_some, Option.some.injEq] at hr
  obtain ⟨-, hpos, heq⟩ := hr
  split_ifs at heq <;> omega

/-- Once a bound is exceeded there is nothing to reserve. -/
theorem reserve_none (hf : Fits max b) (size : ℕ) (hover : max < b.read ∨ total < s.used) :
    reserve total s.used b size = none := by
  obtain ⟨hper, htot⟩ := remaining_eq hB h hf
  unfold reserve
  rw [if_pos (by rw [hper, htot]; omega)]

inductive Change (max total : ℤ) (s : MetadataState) : MetadataState → Prop
  | control (active responses : ℕ) : Change max total s { s with active, responses }
  | opened (responses : ℕ) :
    Change max total s { s with responses, bodies := s.bodies ++ [⟨max, 0, none⟩] }
  | answered (i : ℕ) (error : Option String) (hi : i < s.bodies.length) :
    Change max total s (s.answer i ⟨0, error⟩)
  | reserved (i : ℕ) (b : MetadataBody) (allowed : ℤ) (hb : s.bodies[i]? = some b)
    (hpending : b.pending = none) (hpos : 0 < allowed) (hper : allowed ≤ max - b.read + 1)
    (htotal : allowed ≤ total - s.used + 1) (hmax : max - b.read + 1 < 2 ^ 63)
    (hroom : total - s.used + 1 < 2 ^ 63) :
    Change max total s { s with used := s.used + allowed,
                                bodies := s.bodies.set i { b with pending := some allowed } }
  | settled (i : ℕ) (b : MetadataBody) (allowed n : ℤ) (error : Option String)
    (hb : s.bodies[i]? = some b) (hpending : b.pending = some allowed) (hn : 0 ≤ n)
    (hle : n ≤ allowed) :
    Change max total s ({ s with used := s.used - (allowed - n),
                                 bodies := s.bodies.set i
                                   { b with read := b.read + n, pending := none } }.answer i
      ⟨n, error⟩)

omit h hB in
theorem change_roundTrip (contentLength : ℤ) :
    Change max total s (roundTrip max total s contentLength) := by
  unfold roundTrip
  split
  · dsimp only
    split
    · exact .control s.active (s.responses + 1)
    · exact .opened (s.responses + 1)
  · exact .control s.active s.responses

theorem change_beginRead
    (hb : s.bodies[i]? = some b) {size : ℕ} (hstep : beginRead total s i b size = some s') :
    Change max total s s' := by
  have hi : i < s.bodies.length := (List.getElem?_eq_some_iff.1 hb).1
  unfold beginRead at hstep
  split at hstep
  · cases hstep
    exact .answered i none hi
  · split at hstep
    · cases hstep
    · rename_i hfree
      split at hstep
      · cases hstep
        exact .answered i (some limitExceeded) hi
      · rename_i allowed hr
        cases hstep
        obtain ⟨hpos, hper, htotal, hmax, hroom⟩ := reserve_some hB h (h.fits_at hb) hr
        have hused := h.used_nonneg
        have hlarge := h.largest
        have ht := hB.total_lt
        rw [wrap64_of_lt (by omega) (by omega)]
        exact .reserved i b allowed hb (by simpa using hfree) hpos hper htotal hmax hroom

theorem endRead_eq (hb : s.bodies[i]? = some b) {n : ℤ} (hpending : b.pending = some allowed)
    (hn : 0 ≤ n) (hle : n ≤ allowed) (error : Option String) :
    endRead total s i b allowed n error =
      { s with used := s.used - (allowed - n),
               bodies := s.bodies.set i { b with read := b.read + n, pending := none } }.answer i
        ⟨n, if b.read + n > max ∨ s.used - (allowed - n) > total then some limitExceeded
            else error⟩ := by
  have hf := h.fits_at hb
  have hreserved : b.reserved = allowed := by rw [MetadataBody.reserved, hpending]; rfl
  have hbound := hf.bounded
  have hlarge := hf.largest
  have hread := hf.read
  have hlarge' := h.largest
  have hused := h.reserved_le hb
  have hdelivered := h.delivered_nonneg
  have hle' := h.used_le
  obtain ⟨_, hm, _, ht⟩ := hB
  have hused_eq : wrap64 (s.used - wrap64 (allowed - n)) = s.used - (allowed - n) := by
    rw [@wrap64_of_lt (allowed - n) (by omega) (by omega), wrap64_of_lt] <;> omega
  have hread_eq : wrap64 (b.read + n) = b.read + n := wrap64_of_lt (by omega) (by omega)
  simp only [endRead, hused_eq, hread_eq, hf.max_eq]

theorem change_endRead (hb : s.bodies[i]? = some b) {n : ℤ} (hpending : b.pending = some allowed)
    (hn : 0 ≤ n) (hle : n ≤ allowed) (error : Option String) :
    Change max total s (endRead total s i b allowed n error) := by
  rw [endRead_eq hB h hb hpending hn hle error]
  exact .settled i b allowed n _ hb hpending hn hle

theorem change_of_step {m : MetadataMove}
    (hstep : metadataStep max total s m = some s') : Change max total s s' := by
  cases m with
  | limit =>
    cases hstep
    exact .control (s.active + 1) s.responses
  | release =>
    simp only [metadataStep] at hstep
    split at hstep
    · cases hstep
    · cases hstep
      exact .control (s.active - 1) s.responses
  | roundTrip contentLength =>
    cases hstep
    exact change_roundTrip contentLength
  | read i size =>
    obtain ⟨b, hb, hstep⟩ := Option.bind_eq_some_iff.1 hstep
    exact change_beginRead hB h hb hstep
  | settle i n error =>
    obtain ⟨b, hb, hstep⟩ := Option.bind_eq_some_iff.1 hstep
    obtain ⟨allowed, hpending, hstep⟩ := Option.bind_eq_some_iff.1 hstep
    split at hstep
    · rename_i hn
      cases hstep
      exact change_endRead hB h hb hpending hn.1 hn.2 error
    · cases hstep

omit h in
theorem fits_new : Fits max ⟨max, 0, none⟩ where
  max_eq := rfl
  read := Int.le_refl 0
  pending := nofun
  bounded := by
    have := hB.max_nonneg
    simp [MetadataBody.reserved]
    omega
  largest _ := rfl

theorem Balanced.opened (responses : ℕ) :
    Balanced max total { s with responses, bodies := s.bodies ++ [⟨max, 0, none⟩] } where
  used_eq := by simpa [MetadataState.inFlight, MetadataState.delivered] using h.used_eq
  used_le := h.used_le
  largest := h.largest
  fits b hb := by
    rcases List.mem_append.1 hb with hb | hb
    · exact h.fits b hb
    · rw [List.mem_singleton.1 hb]
      exact fits_new hB
  delivered_eq := by simpa [MetadataState.delivered] using h.delivered_eq
  read_eq j b hb := by
    rw [List.getElem?_append] at hb
    split at hb
    · exact h.read_eq j b hb
    · rw [List.getElem?_singleton] at hb
      split at hb
      · cases hb
        have hj : j = s.bodies.length := by omega
        subst hj
        exact (deliveredBy_unknown h (Nat.le_refl _)).symm
      · cases hb
  known r hr := by
    have := h.known r hr
    rw [List.length_append]
    omega

omit hB

theorem Balanced.answered (hi : i < s.bodies.length)
    (error : Option String) : Balanced max total (s.answer i ⟨0, error⟩) where
  used_eq := by
    rw [delivered_answer, Int.add_zero]
    exact h.used_eq
  used_le := h.used_le
  largest := h.largest
  fits := h.fits
  delivered_eq := by
    rw [delivered_answer, Int.add_zero]
    exact h.delivered_eq
  read_eq j b hb := by simpa using h.read_eq j b hb
  known r hr := by
    rcases List.mem_append.1 hr with hr | hr
    · exact h.known r hr
    · rw [List.mem_singleton.1 hr]
      exact hi

theorem mem_set_fits {new : MetadataBody} (hnew : Fits max new) :
    ∀ b ∈ s.bodies.set i new, Fits max b := by
  intro b hb
  rcases List.mem_or_eq_of_mem_set hb with hb | rfl
  · exact h.fits b hb
  · exact hnew

theorem Balanced.reserved (hb : s.bodies[i]? = some b)
    (hpending : b.pending = none) (hpos : 0 < allowed) (hper : allowed ≤ max - b.read + 1)
    (htotal : allowed ≤ total - s.used + 1) (hmax : max - b.read + 1 < 2 ^ 63)
    (hroom : total - s.used + 1 < 2 ^ 63) :
    Balanced max total { s with used := s.used + allowed,
                                bodies := s.bodies.set i { b with pending := some allowed } } where
  used_eq := by
    have hold := h.used_eq
    have hsum := sum_map_set (fun b => b.pending.getD 0) { b with pending := some allowed } hb
    simp only [hpending, Option.getD_none, Option.getD_some] at hsum
    simp only [MetadataState.inFlight, MetadataState.delivered] at hold ⊢
    omega
  used_le := by dsimp only; omega
  largest hl := by
    have := h.largest hl
    omega
  fits := mem_set_fits h
    { max_eq := (h.fits_at hb).max_eq
      read := (h.fits_at hb).read
      pending := fun a ha => by cases ha; exact hpos
      bounded := by
        simp only [MetadataBody.reserved, Option.getD_some]
        omega
      largest := fun hl => by
        have hf := h.fits_at hb
        have hnone := hf.largest hl
        simp only [MetadataBody.reserved, hpending, Option.getD_none] at hnone
        omega }
  delivered_eq := by
    have hsum := sum_map_set (fun b => b.read) { b with pending := some allowed } hb
    have hold := h.delivered_eq
    dsimp only at hsum
    simp only [MetadataState.delivered] at hold ⊢
    omega
  read_eq j b' hb' := by
    rw [List.getElem?_set] at hb'
    split at hb'
    · split at hb'
      · cases hb'
        rename_i hij _
        subst hij
        exact h.read_eq i b hb
      · cases hb'
    · exact h.read_eq j b' hb'
  known r hr := by
    rw [List.length_set]
    exact h.known r hr

theorem Balanced.settled (hb : s.bodies[i]? = some b) {n : ℤ}
    (hpending : b.pending = some allowed) (hn : 0 ≤ n) (hle : n ≤ allowed)
    (error : Option String) :
    Balanced max total ({ s with used := s.used - (allowed - n),
                                 bodies := s.bodies.set i
                                   { b with read := b.read + n, pending := none } }.answer i
      ⟨n, error⟩) where
  used_eq := by
    have hold := h.used_eq
    have hsum := sum_map_set (fun b => b.pending.getD 0)
      { b with read := b.read + n, pending := none } hb
    simp only [hpending, Option.getD_none, Option.getD_some] at hsum
    rw [delivered_answer]
    simp only [MetadataState.inFlight, MetadataState.delivered, MetadataState.answer] at hold ⊢
    omega
  used_le := by
    have := h.used_le
    simp only [MetadataState.answer]
    omega
  largest hl := by
    have := h.largest hl
    have hf := h.reserved_le hb
    have := h.delivered_nonneg
    simp only [MetadataBody.reserved, hpending, Option.getD_some] at hf
    simp only [MetadataState.answer]
    omega
  fits := by
    have hf := h.fits_at hb
    have hread := hf.read
    have hbound := hf.bounded
    have hlarge := hf.largest
    simp only [MetadataBody.reserved, hpending, Option.getD_some] at hbound hlarge
    refine mem_set_fits h ⟨hf.max_eq, ?_, nofun, ?_, fun hl => ?_⟩
    · dsimp only; omega
    · simp only [MetadataBody.reserved, Option.getD_none]
      omega
    · have := hlarge hl
      simp only [MetadataBody.reserved, Option.getD_none]
      omega
  delivered_eq := by
    have hsum := sum_map_set (fun b => b.read) { b with read := b.read + n, pending := none } hb
    have hold := h.delivered_eq
    dsimp only at hsum
    rw [delivered_answer]
    simp only [MetadataState.delivered, MetadataState.answer] at hold ⊢
    omega
  read_eq j b' hb' := by
    rw [deliveredBy_answer]
    simp only [MetadataState.answer, List.getElem?_set] at hb'
    split at hb'
    · rename_i hij
      split at hb'
      · cases hb'
        subst hij
        rw [if_pos rfl]
        exact congrArg (· + n) (h.read_eq i b hb)
      · cases hb'
    · rename_i hij
      rw [if_neg hij, Int.add_zero]
      exact h.read_eq j b' hb'
  known r hr := by
    simp only [MetadataState.answer, List.length_set]
    rcases List.mem_append.1 hr with hr | hr
    · exact h.known r hr
    · rw [List.mem_singleton.1 hr]
      exact (List.getElem?_eq_some_iff.1 hb).1

include hB

theorem Balanced.change (hc : Change max total s s') : Balanced max total s' := by
  cases hc with
  | control active responses =>
    exact ⟨h.used_eq, h.used_le, h.largest, h.fits, h.delivered_eq, h.read_eq, h.known⟩
  | opened responses => exact h.opened hB responses
  | answered i error hi => exact h.answered hi error
  | reserved i b allowed hb hpending hpos hper htotal hmax hroom =>
    exact h.reserved hb hpending hpos hper htotal hmax hroom
  | settled i b allowed n error hb hpending hn hle =>
    exact h.settled hb hpending hn hle error
omit hB h

theorem balanced_start (hB : Bounds max total) : Balanced max total .start where
  used_eq := rfl
  used_le := by
    have := hB.total_nonneg
    simp only [MetadataState.start]
    omega
  largest _ := rfl
  fits := nofun
  delivered_eq := rfl
  read_eq := nofun
  known := nofun

variable {moves : List MetadataMove}

theorem balanced_run (hB : Bounds max total) (h : Balanced max total s)
    (hrun : metadataRun max total s moves = some s') : Balanced max total s' :=
  Traces.run_invariant (fun _ _ _ h _ hstep => h.change hB (change_of_step hB h hstep)) h hrun

def Exceeded (max total : ℤ) (i : ℕ) (s : MetadataState) : Prop :=
  max < s.deliveredBy i ∨ total < s.delivered

theorem Exceeded.change (hc : Change max total s s') (h : Exceeded max total i s) :
    Exceeded max total i s' := by
  cases hc with
  | control | opened | reserved => exact h
  | answered j error hj => simpa [Exceeded] using h
  | settled j b allowed n error hb hpending hn hle =>
    unfold Exceeded at h ⊢
    rw [delivered_answer, deliveredBy_answer]
    change max < s.deliveredBy i + _ ∨ total < s.delivered + n
    dsimp only
    split <;> omega

theorem Exceeded.run (hB : Bounds max total) (hs : Balanced max total s)
    (h : Exceeded max total i s)
    (hrun : metadataRun max total s moves = some s') : Exceeded max total i s' := by
  have hboth : Balanced max total s' ∧ Exceeded max total i s' :=
    @Traces.run_invariant _ _ _ _ (fun s => Balanced max total s ∧ Exceeded max total i s)
      (fun s m s' hs _ hstep =>
        have hc := change_of_step hB hs.1 hstep
        ⟨hs.1.change hB hc, hs.2.change hc⟩)
      moves s s' ⟨hs, h⟩ hrun
  exact hboth.2

/-- A body whose bound is exceeded has no Read in flight. -/
theorem Exceeded.idle (h : Exceeded max total i s) (hs : Balanced max total s)
    (hb : s.bodies[i]? = some b) : b.pending = none := by
  have hf := hs.fits_at hb
  have hbound := hf.bounded
  have hused := hs.reserved_le hb
  have hle := hs.used_le
  cases hp : b.pending with
  | none => rfl
  | some a =>
    have hpos := hf.pending a hp
    simp only [MetadataBody.reserved, hp, Option.getD_some] at hbound hused
    rcases h with h | h
    · rw [← hs.read_eq i b hb] at h
      omega
    · omega

theorem Exceeded.refused (h : Exceeded max total i s) (hB : Bounds max total)
    (hs : Balanced max total s) (hi : i < s.bodies.length) {size : ℕ} (hsize : 0 < size) :
    metadataStep max total s (.read i size) = some (s.answer i ⟨0, some limitExceeded⟩) := by
  obtain ⟨b, hb⟩ : ∃ b, s.bodies[i]? = some b := ⟨_, List.getElem?_eq_getElem hi⟩
  have hidle := h.idle hs hb
  have hover : max < b.read ∨ total < s.used := by
    have hused := hs.reserved_le hb
    have hres := (hs.fits_at hb).reserved_nonneg
    rw [hs.read_eq i b hb]
    rcases h with h | h
    · exact .inl h
    · exact .inr (by omega)
  have hreserve := reserve_none hB hs (hs.fits_at hb) size hover
  simp only [metadataStep, hb, Option.bind_some, beginRead, hidle, hreserve]
  rw [if_neg (by omega), if_neg (by simp)]

theorem settle_refused (hB : Bounds max total) (hs : Balanced max total s) {n : ℤ}
    {error : Option String} (hstep : metadataStep max total s (.settle i n error) = some s')
    (h : Exceeded max total i s') : s'.returned = s.returned ++ [(i, ⟨n, some limitExceeded⟩)] := by
  obtain ⟨b, hb, hstep⟩ := Option.bind_eq_some_iff.1 hstep
  obtain ⟨allowed, hpending, hstep⟩ := Option.bind_eq_some_iff.1 hstep
  split at hstep
  · rename_i hn
    cases hstep
    have hread := hs.read_eq i b hb
    have hused := hs.reserved_le hb
    simp only [MetadataBody.reserved, hpending, Option.getD_some] at hused
    rw [endRead_eq hB hs hb hpending hn.1 hn.2] at h ⊢
    unfold Exceeded at h
    rw [delivered_answer, deliveredBy_answer, if_pos rfl] at h
    change max < s.deliveredBy i + n ∨ total < s.delivered + n at h
    rw [if_pos (by omega)]
    rfl
  · cases hstep

/-- In every interleaving `used` is what has been delivered and what is reserved, at most one byte
over `total`, and a body delivers at most one byte over `max`. The Read that exceeds a bound and
all later Reads into a buffer fail, the later ones without delivering anything. -/
theorem metadata_budget_kept (hB : Bounds max total)
    (hrun : metadataRun max total .start moves = some s) :
    s.used = s.delivered + s.inFlight ∧ s.used ≤ total + 1 ∧ (∀ i, s.deliveredBy i ≤ max + 1) ∧
      (∀ i n error s', metadataStep max total s (.settle i n error) = some s' →
        max < s'.deliveredBy i ∨ total < s'.delivered →
        s'.returned = s.returned ++ [(i, ⟨n, some limitExceeded⟩)]) ∧
      ∀ later s' i size, metadataRun max total s later = some s' → i < s'.bodies.length →
        0 < size → max < s.deliveredBy i ∨ total < s.delivered →
        metadataStep max total s' (.read i size) =
          some (s'.answer i ⟨0, some limitExceeded⟩) := by
  have hs := balanced_run hB (balanced_start hB) hrun
  refine ⟨hs.used_eq, hs.used_le, hs.deliveredBy_le hB, ?_, ?_⟩
  · intro i n error s' hstep hover
    exact settle_refused hB hs hstep hover
  · intro later s' i size hlater hi hsize hover
    exact Exceeded.refused (Exceeded.run hB hs hover hlater) hB (balanced_run hB hs hlater) hi hsize

end

def pairMoves : List MetadataMove :=
  [.limit, .roundTrip (-1), .roundTrip (-1), .read 0 8, .read 1 8, .settle 0 4 none,
   .settle 1 1 none, .read 1 1, .settle 1 1 none]

def pairEnd : MetadataState where
  active := 1
  responses := 2
  used := 6
  bodies := [⟨4, 4, none⟩, ⟨4, 2, none⟩]
  returned := [(0, ⟨4, none⟩), (1, ⟨1, none⟩), (1, ⟨1, some limitExceeded⟩)]

/-- Two bodies of at most 4 bytes share a budget of 5. The first delivers 4 of the 5 bytes it
reserved; the second reads a byte, and with one more the total is exceeded. -/
theorem metadata_budget_kept_pair :
    Bounds 4 5 ∧ metadataRun 4 5 .start pairMoves = some pairEnd ∧ pairEnd.used ≤ 6 ∧
      metadataStep 4 5 pairEnd (.read 0 1) =
        some (pairEnd.answer 0 ⟨0, some limitExceeded⟩) := by
  have hB : Bounds 4 5 := ⟨by decide, by decide, by decide, by decide⟩
  have hrun : metadataRun 4 5 .start pairMoves = some pairEnd := by decide +kernel
  obtain ⟨_, hused, _, _, hlater⟩ := metadata_budget_kept hB hrun
  exact ⟨hB, hrun, hused, hlater [] pairEnd 0 1 rfl (by decide) (by decide) (.inr (by decide))⟩

end Niflhel.Oci
