import Mathlib.Tactic.Linarith
import Niflhel.Allocation

/-!
# The memory that an admission reserves

`Start` adds up the memory limits of all reserving sandboxes in `int64`. The addends and
their number are bounded by what `Create` accepts, so that no sum wraps. Without aliases,
the sandbox that starts is idle in the list that is read, hence counted once.
-/

namespace Niflhel
open Concurrent

def memoryMax (v : Sandbox) : ℤ := wrap64 (v.guestMemory + 64 * mib)

structure MemoryAdmitted (D : Setup) (w : Sandbox) (all : List Sandbox) (available : ℤ) :
    Prop where
  once : ∀ x ∈ all, reservesVMResources x = true → x.id ≠ w.id
  total : reservedMemory w all = memoryMax w +
    ((all.filter fun x => x.id ≠ w.id ∧ reservesVMResources x = true).map memoryMax).sum
  limits : ∀ x ∈ w :: all.filter reservesVMResources, memoryMax x = x.guestMemory + 64 * mib
  sums : ∀ n, reservedMemory w (all.take n) =
    memoryMax w + (((all.take n).filter reservesVMResources).map memoryMax).sum
  within : 256 * mib ≤ available ∧ reservedMemory w all ≤ available - 256 * mib
  whole : mib ∣ w.guestMemory
  covers : ∃ b : Base.Bundle, Base.verify D.crypto D.trust b.signed = .ok () ∧
    w.baseDigest = b.digest ∧
    w.spec.memory + b.signed.config.guestReserveMiB * mib ≤ w.guestMemory

section arithmetic
variable {D : Setup} {memory reserve : ℤ} {v w : Sandbox} {all : List Sandbox}

def maxGuestMemory : ℤ := (2 ^ 20 + 4096) * mib

theorem guestMemory_eq (hmem : 64 * mib ≤ memory ∧ memory ≤ 1024 * gib)
    (hres : 64 ≤ reserve ∧ reserve ≤ 4096) :
    guestMemory memory reserve = ((memory + mib - 1) / mib + reserve) * mib ∧
      memory + reserve * mib ≤ guestMemory memory reserve ∧
      guestMemory memory reserve ≤ maxGuestMemory := by
  unfold mib gib at hmem
  have hdiv : (memory + mib - 1).tdiv mib = (memory + mib - 1) / mib := by
    apply Int.tdiv_eq_ediv_of_nonneg
    unfold mib
    omega
  have hq : memory ≤ (memory + mib - 1) / mib * mib ∧
      (memory + mib - 1) / mib ≤ 2 ^ 20 := by
    unfold mib
    omega
  have hguest : guestMemory memory reserve = ((memory + mib - 1) / mib + reserve) * mib := by
    unfold guestMemory
    rw [wrap64_of_lt (x := memory + mib - 1), hdiv]
    · generalize (memory + mib - 1) / mib = q at hq ⊢
      have hlow : 0 ≤ q + reserve := by
        unfold mib at hq
        omega
      rw [wrap64_of_lt (x := q + reserve), wrap64_of_lt]
      · unfold mib
        omega
      · unfold mib
        omega
      · omega
      · omega
    · unfold mib
      omega
    · unfold mib
      omega
  refine ⟨hguest, ?_, ?_⟩
  · rw [hguest, add_mul]
    omega
  · rw [hguest]
    unfold maxGuestMemory mib at *
    omega

theorem Sized.bounds (h : Sized D v) : 0 ≤ v.guestMemory ∧ v.guestMemory ≤ maxGuestMemory := by
  have hm := h.lower
  rcases h.guest with ⟨_, hzero⟩ | ⟨b, hb, _, hguest⟩
  · rw [hzero]
    unfold maxGuestMemory mib
    omega
  · obtain ⟨_, hlow, hhigh⟩ := guestMemory_eq ⟨h.lower, h.upper⟩ (Base.guestReserve_of_verify hb)
    rw [hguest]
    refine ⟨?_, hhigh⟩
    have hr := (Base.guestReserve_of_verify hb).1
    unfold mib at hm hlow
    omega

theorem Sized.memoryMax_eq (h : Sized D v) : memoryMax v = v.guestMemory + 64 * mib := by
  obtain ⟨hlow, hhigh⟩ := h.bounds
  unfold maxGuestMemory mib at hhigh
  apply wrap64_of_lt
  · unfold mib
    omega
  · unfold mib
    omega

theorem Sized.memoryMax_bounds (h : Sized D v) :
    0 ≤ memoryMax v ∧ memoryMax v ≤ maxGuestMemory + 64 * mib := by
  obtain ⟨hlow, hhigh⟩ := h.bounds
  rw [h.memoryMax_eq]
  unfold mib
  omega

/-- The accumulation in `int64` is exact while the numbers of addends is moderate. -/
theorem foldl_memoryMax (h : ∀ x ∈ all, Sized D x) {sum : ℤ} {n : ℕ} (hsum : 0 ≤ sum)
    (hle : sum ≤ n * (maxGuestMemory + 64 * mib)) (hn : n + all.length ≤ 16001) :
    all.foldl (fun sum x => wrap64 (sum + wrap64 (x.guestMemory + 64 * mib))) sum =
      sum + (all.map memoryMax).sum := by
  induction all generalizing sum n with
  | nil => simp
  | cons x rest ih =>
    obtain ⟨hlow, hhigh⟩ := (h x (List.mem_cons_self ..)).memoryMax_bounds
    rw [List.length_cons] at hn
    have hnext : sum + memoryMax x ≤ ((n + 1 : ℕ) : ℤ) * (maxGuestMemory + 64 * mib) := by
      push_cast
      linarith
    have hexact : wrap64 (sum + memoryMax x) = sum + memoryMax x := by
      apply wrap64_of_lt
      · omega
      · unfold maxGuestMemory mib at hnext
        omega
    rw [List.foldl_cons, List.map_cons, List.sum_cons, ← add_assoc]
    change List.foldl _ (wrap64 (sum + memoryMax x)) rest = _
    rw [hexact]
    exact ih (fun y hy => h y (List.mem_cons_of_mem _ hy)) (by omega) hnext (by omega)

theorem reservedMemory_eq (hw : Sized D w) (h : ∀ x ∈ all, Sized D x) (hn : all.length ≤ 16000) :
    reservedMemory w all =
      memoryMax w + ((all.filter reservesVMResources).map memoryMax).sum := by
  obtain ⟨hlow, hhigh⟩ := hw.memoryMax_bounds
  have hlen := List.length_filter_le reservesVMResources all
  apply foldl_memoryMax (fun x hx => h x (List.mem_of_mem_filter hx)) (n := 1) hlow
  · push_cast
    linarith
  · omega

end arithmetic

/-- No bundle is stored under the empty reference: `load` refuses it, and it is not the
name of an image. -/
def namedBases (_ : Host) : (o : Op) → o.Reply → Bool
  | .basesGet ref, .ok _ => ref != ""
  | _, _ => true

section commit
variable {D : Setup} {t : ℕ} {s : Host} {v w : Sandbox} {all : List Sandbox} {available : ℤ}
  {calls : List (Call Op Op.Reply)}

theorem Allocated.length_list (ha : Allocated D s) (hi : Inv s) : s.store.list.length ≤ 16000 := by
  have hslots : (s.store.list.map Sandbox.slot).Nodup := by
    have hperm : s.store.list.Perm s.store.sandboxes := List.perm_insertionSort _ _
    exact (hperm.map Sandbox.slot).nodup_iff.2 (ha.nodup_slots hi)
  have hsub : s.store.list.map Sandbox.slot ⊆ List.range' 1 16000 := by
    intro n hn
    obtain ⟨x, hx, rfl⟩ := List.mem_map.1 hn
    have hrow := hi.keyed.row_of_mem (Store.mem_list.1 hx)
    have hslot := (ha.placed x.id x hrow).slot
    rw [List.mem_range'_1]
    omega
  have hlen := (List.Nodup.subperm hslots hsub).length_le
  rwa [List.length_map, List.length_range'] at hlen

structure Surveyed (D : Setup) (v : Sandbox) (all : List Sandbox) (s : Host) : Prop where
  sized : ∀ x ∈ all, Sized D x
  length : all.length ≤ 16000
  idle : s.NoAlias → ∀ x ∈ all, reservesVMResources x = true → x.id ≠ v.id

theorem stable_surveyed (v : Sandbox) (all : List Sandbox) :
    (records D).Stable t (Surveyed D v all) := by
  have hrobust : Robust t (Surveyed D v all) := fun s s' u _ _ he hs =>
    ⟨hs.sized, hs.length, fun hn => hs.idle (he.noAlias hn)⟩
  exact (records_overlay D).stable hrobust

theorem not_reserves_of_idle (h : Idle v) : reservesVMResources v = false := by
  rcases h with h | h <;> simp [reservesVMResources, h]

theorem surveyed_of_list (hi : Inv s) (ha : Allocated D s) (hs : Startable D t v s) :
    Surveyed D v s.store.list s := by
  refine ⟨fun x hx => ?_, ha.length_list hi, fun hn x hx hres heq => ?_⟩
  · exact (ha.placed x.id x (hi.keyed.row_of_mem (Store.mem_list.1 hx))).sized
  · have hrow := hi.keyed.row_of_mem (Store.mem_list.1 hx)
    rw [heq] at hrow
    rw [not_reserves_of_idle ((hs.idle hn).2.2 x hrow)] at hres
    cases hres

theorem memoryAdmitted_of_budget (hv : Sized D v) (hd : v.baseDigest ≠ "")
    (hs : Surveyed D v all s) (hn : s.NoAlias)
    (hbudget : memoryBudget (reservedMemory v all) available = none) :
    MemoryAdmitted D (startingRecord v) all available := by
  have hfilter : (all.filter fun x => x.id ≠ v.id ∧ reservesVMResources x = true) =
      all.filter reservesVMResources := by
    apply List.filter_congr
    intro x hx
    have hidle := hs.idle hn x hx
    cases hres : reservesVMResources x with
    | false => simp
    | true => simpa using hidle hres
  have hwithin : ¬(available < 256 * mib ∨ reservedMemory v all > available - 256 * mib) := by
    unfold memoryBudget at hbudget
    split_ifs at hbudget with h
    exact h
  obtain ⟨b, hb, hbase, hguest⟩ := hv.guest.resolve_left fun h => hd h.1
  obtain ⟨heq, hlow, _⟩ := guestMemory_eq ⟨hv.lower, hv.upper⟩ (Base.guestReserve_of_verify hb)
  refine ⟨hs.idle hn, ?_, fun x hx => ?_, fun n => ?_, ?_, ?_, ⟨b, hb, hbase, ?_⟩⟩
  · change reservedMemory v all = memoryMax v + (((all.filter fun x =>
      x.id ≠ v.id ∧ reservesVMResources x = true).map memoryMax).sum)
    rw [hfilter]
    exact reservedMemory_eq hv hs.sized hs.length
  · rcases List.mem_cons.1 hx with rfl | hx
    · exact hv.memoryMax_eq
    · exact (hs.sized x (List.mem_of_mem_filter hx)).memoryMax_eq
  · change reservedMemory v (all.take n) = memoryMax v + _
    exact reservedMemory_eq hv (fun x hx => hs.sized x (List.mem_of_mem_take hx))
      ((List.length_take_le' n all).trans hs.length)
  · change 256 * mib ≤ available ∧ reservedMemory v all ≤ available - 256 * mib
    omega
  · change mib ∣ v.guestMemory
    rw [hguest, heq]
    exact Dvd.intro_left _ rfl
  · change v.spec.memory + _ ≤ v.guestMemory
    rw [hguest]
    exact hlow

/-- Every commit of `Start` is admitted by the list and the memory the operation has read. -/
def CommitsAdmitted (D : Setup) (calls : List (Call Op Op.Reply)) (s : Host) (o : Op)
    (_ : o.Reply) : Prop :=
  ∀ i w, o = .update i (.startCommit w) → s.NoAlias →
    ∃ all available, (∀ all', (⟨.list, .ok all'⟩ : Call Op Op.Reply) ∈ calls ↔ all' = all) ∧
      (∀ n, (⟨.external .availableMemory, .ok n⟩ : Call Op Op.Reply) ∈ calls ↔ n = available) ∧
      MemoryAdmitted D w all available

theorem commitsAdmitted_of_not_pins {o : Op} {r : o.Reply} (ho : o.pins = false) :
    CommitsAdmitted D calls s o r := by
  rintro i w rfl
  cases ho

def Unread (calls : List (Call Op Op.Reply)) : Prop :=
  (∀ r, (⟨.list, r⟩ : Call Op Op.Reply) ∉ calls) ∧
    ∀ r, (⟨.external .availableMemory, r⟩ : Call Op Op.Reply) ∉ calls

theorem Unread.append {o : Op} (h : Unread calls) (r : o.Reply) (hl : o ≠ .list)
    (hm : o ≠ .external .availableMemory) : Unread (calls ++ [⟨o, r⟩]) := by
  refine ⟨fun r' => ?_, fun r' => ?_⟩
  · rw [mem_append_call_of_ne (Ne.symm hl)]
    exact h.1 r'
  · rw [mem_append_call_of_ne (Ne.symm hm)]
    exact h.2 r'

theorem outline_admission (hs : Startable D t v s) (hd : v.baseDigest ≠ "") (hu : Unread calls) :
    (stewardship D).Outline namedBases t (CommitsAdmitted D) (fun _ _ _ => True) calls
      (admission v) s := by
  have hP := stable_startable (D := D) (t := t) v
  refine steward_query hP hs rfl fun s₁ got hc ha hs₁ _ => ⟨commitsAdmitted_of_not_pins rfl, ?_⟩
  cases got with
  | error e => exact trivial
  | ok all => ?_
  obtain ⟨-, rfl⟩ := exec_list hc.exec
  have hsurvey := surveyed_of_list hc.inv ha hs₁
  generalize s₁.store.list = all at hsurvey ⊢
  have hQ := stable_surveyed (D := D) (t := t) v all
  dsimp only
  split
  · exact trivial
  refine steward_query hQ hsurvey rfl fun s₂ available _ _ hs₂ _ => ⟨commitsAdmitted_of_not_pins rfl, ?_⟩
  cases available with
  | error e => exact trivial
  | ok available => ?_
  dsimp only
  split
  · exact trivial
  rename_i hbudget
  refine steward_call hQ hs₂ fun s₃ r s₄ _ _ hs₃ _ => ⟨?_, ?_⟩
  · rintro i w heq hn
    obtain ⟨rfl, hedit⟩ := Op.update.inj heq
    obtain rfl := Edit.startCommit.inj hedit
    refine ⟨all, available, fun all' => ?_, fun n => ?_,
      memoryAdmitted_of_budget hs.placed.sized hd hs₃ hn hbudget⟩
    · rw [mem_append_call_of_ne (by simp), mem_append_call_iff]
      simp [hu.1]
    · rw [mem_append_call_iff, mem_append_call_of_ne (by simp)]
      simp [hu.2]
  · cases r with
    | error | ok => exact trivial

theorem outline_startLocked {id : String} (hu : Unread calls)
    (hs : Holds t id s ∧ ∃ name, (id, name) ∈ s.created) :
    (stewardship D).Outline namedBases t (CommitsAdmitted D) (fun _ _ _ => True) calls
      (startLocked id) s := by
  refine steward_query (stable_locked_created id) hs rfl fun s₁ got hc ha hs₁ _ => ⟨commitsAdmitted_of_not_pins rfl, ?_⟩
  have hu₁ := hu.append (o := .get id) got (by simp) (by simp)
  cases got with
  | error e => exact trivial
  | ok v => ?_
  dsimp only
  split
  · exact trivial
  rename_i hstate
  have hstart := startable_of_get hc ha hs₁ hstate
  have hP := stable_startable (D := D) (t := t) v
  refine steward_query hP hstart rfl fun s₂ check _ _ hs₂ _ => ⟨commitsAdmitted_of_not_pins rfl, ?_⟩
  have hu₂ := hu₁.append (o := .external .check) check (by simp) (by simp)
  cases check with
  | some e => exact trivial
  | none => ?_
  refine steward_call hP hs₂ fun s₃ base s₄ hc₃ _ hs₃ hok => ⟨commitsAdmitted_of_not_pins rfl, ?_⟩
  have hu₃ := hu₂.append (o := .basesGet v.baseDigest) base (by simp) (by simp)
  obtain ⟨volumes, bases, dns, ports, monitors, _, _, rfl⟩ :=
    exec_of_not_core hc₃.exec rfl
  cases base with
  | error e => exact trivial
  | ok b => ?_
  have hd : v.baseDigest ≠ "" := by simpa [namedBases] using hok
  apply Discipline.Outline.bind
  refine Discipline.Outline.weaken (steward_locked hP
    ⟨hs₃.placed, hs₃.read, hs₃.idle⟩ (fun _ _ => commitsAdmitted_of_not_pins rfl) (fun _ _ => commitsAdmitted_of_not_pins rfl)
    (fun s₅ hs₅ => ⟨hs₅.placed, hs₅.read, hs₅.idle.lock allocations⟩)
    fun s₅ hs₅ => outline_admission hs₅ hd ?_) fun calls' a s₅ _ => ?_
  · exact hu₃.append (o := .lock allocations) () (by simp) (by simp)
  · cases a with
    | error e => exact trivial
    | ok w => exact steward_rest (unpinning_boot w b) fun _ _ _ _ ho => commitsAdmitted_of_not_pins ho

theorem outline_start (id : String) :
    (stewardship D).Outline namedBases t (CommitsAdmitted D) (fun _ _ _ => True) []
      (start id) s := by
  have hu : Unread [] := ⟨fun _ => List.not_mem_nil, fun _ => List.not_mem_nil⟩
  refine steward_query (Discipline.stable_const _ t True) trivial rfl fun s₁ got hc _ _ _ =>
    ⟨commitsAdmitted_of_not_pins rfl, ?_⟩
  have hu₁ := hu.append (o := .get id) got (by simp) (by simp)
  cases got with
  | error e => exact trivial
  | ok v =>
    have hknown := (hc.inv.known_of_mem (Store.get_eq_ok (exec_get hc.exec).2).1).1
    refine steward_locked ((records_overlay D).stable (lasting_known v).robust) hknown
      (fun _ _ => commitsAdmitted_of_not_pins rfl) (fun _ _ => commitsAdmitted_of_not_pins rfl) (fun s₂ hs₂ => ?_) fun s₂ hs₂ =>
        outline_startLocked (hu₁.append (o := .lock v.id) () (by simp) (by simp)) hs₂
    exact ⟨by simp [Holds], v.name, hs₂.1⟩

end commit

/-- Without aliases, the memory that a commit of `Start` was admitted with is the exact sum
of the limits of all reserving sandboxes and its own. -/
theorem memory_admission_exact (D : Setup) (t : ℕ) (id i : String) (w : Sandbox) (now : Time)
    (next : Except String Time → Prog (Except String Sandbox)) (calls : List (Call Op Op.Reply))
    (c₀ c c' : Config Host Op Op.Reply)
    (h₀ : (daemon D).Runs (System.Meets namedBases) ((daemon D).booted Host.initial) c₀)
    (h : (daemon D).During namedBases t (start id) c₀ calls
      (.call (.update i (.startCommit w)) next) c)
    (hs : (daemon D).Step c (.run t (.update i (.startCommit w)) (.ok now)) c')
    (hn : c.state.NoAlias) :
    ∃ all available, (∀ all', (⟨.list, .ok all'⟩ : Call Op Op.Reply) ∈ calls ↔ all' = all) ∧
      (∀ n, (⟨.external .availableMemory, .ok n⟩ : Call Op Op.Reply) ∈ calls ↔ n = available) ∧
      MemoryAdmitted D w all available := by
  have hreach : daemonReachable D c₀ := System.Reachable.runs _ ⟨_, rfl, .refl⟩ h₀
  have hown := Discipline.Outline.own (stewardship_sound D) hreach (outline_start id) h rfl hs
  exact hown.1 i w rfl hn

namespace Sample

def pendingCommit {α : Type} : Prog α → Option (String × Sandbox)
  | .call (.update i (.startCommit w)) _ => some (i, w)
  | _ => none

theorem pendingCommit_eq_some {α : Type} {q : Prog α} {i : String} {w : Sandbox}
    (h : pendingCommit q = some (i, w)) :
    ∃ next, q = .call (.update i (.startCommit w)) next := by
  unfold pendingCommit at h
  split at h
  · cases h
    exact ⟨_, rfl⟩
  · cases h

def commitOf {α : Type} (r : ℕ × List (Call Op Op.Reply) × Prog α × Config Host Op Op.Reply) :
    Option (String × Sandbox) :=
  (pendingCommit r.2.2.1).bind fun p =>
    if (exec setup r.1 r.2.2.2.state (.update p.1 (.startCommit p.2)) (.ok 0)).isSome
    then some p else none

theorem step_of_commitOf {α : Type} {ok : Host → (o : Op) → o.Reply → Bool} {p q : Prog α} {t : ℕ}
    {calls : List (Call Op Op.Reply)} {c₀ c : Config Host Op Op.Reply} {i : String} {w : Sandbox}
    (h : (daemon setup).During ok t p c₀ calls q c) (hc : commitOf (t, calls, q, c) = some (i, w)) :
    ∃ next c', q = .call (.update i (.startCommit w)) next ∧
      (daemon setup).Step c (.run t (.update i (.startCommit w)) (.ok 0)) c' := by
  obtain ⟨⟨i', w'⟩, hp, hx⟩ := Option.bind_eq_some_iff.1 hc
  split_ifs at hx with hsome
  cases hx
  obtain ⟨next, rfl⟩ := pendingCommit_eq_some hp
  obtain ⟨s', hs'⟩ := Option.isSome_iff_exists.1 hsome
  obtain ⟨k, hk, _⟩ := h.thread (daemon setup)
  exact ⟨next, _, rfl, .run hk hs'⟩

def listedIn (calls : List (Call Op Op.Reply)) : Option (List Sandbox) :=
  calls.findSome? fun
    | ⟨.list, .ok all⟩ => some all
    | _ => none

theorem mem_of_listedIn {calls : List (Call Op Op.Reply)} {all : List Sandbox}
    (h : listedIn calls = some all) : (⟨.list, .ok all⟩ : Call Op Op.Reply) ∈ calls := by
  obtain ⟨call, hmem, hcall⟩ := List.exists_of_findSome?_eq_some h
  split at hcall
  · cases hcall
    exact hmem
  · cases hcall

end Sample

open Sample in
/-- The sandbox `b` is admitted while `a` starts and reserves memory. -/
theorem memory_admission_exact_started : ∃ t i w next calls c₀ c c',
      (daemon setup).Runs (System.Meets namedBases) ((daemon setup).booted Host.initial) c₀ ∧
      (daemon setup).During namedBases t (start "b") c₀ calls
        (.call (.update i (.startCommit w)) next) c ∧
      (daemon setup).Step c (.run t (.update i (.startCommit w)) (.ok 0)) c' ∧
      ∃ all available, (⟨.list, .ok all⟩ : Call Op Op.Reply) ∈ calls ∧
        (∃ x ∈ all, x.id ≠ w.id ∧ reservesVMResources x = true) ∧
        MemoryAdmitted setup w all available := by
  have hrun : ((followed namedBases (createBoth ++ [.request (.start "a")] ++ steps 5 14) (.start "b")
      (start "b") (steps 6 8)).bind fun r => (commitOf r).bind fun p => (listedIn r.2.1).map fun all =>
        (r.2.2.2.state.created, all.any fun x => x.id != p.2.id && reservesVMResources x)) =
          some ([(ident 1, "b"), (ident 0, "a")], true) := by
    decide +kernel
  obtain ⟨⟨t, calls, q, c⟩, hf, hc⟩ := Option.bind_eq_some_iff.1 hrun
  obtain ⟨⟨i, w⟩, hcommit, hlisted⟩ := Option.bind_eq_some_iff.1 hc
  obtain ⟨listed, hmem, hfacts⟩ := Option.map_eq_some_iff.1 hlisted
  obtain ⟨hcreated, hany⟩ := Prod.mk.inj hfacts
  obtain ⟨x, hx, hreserves⟩ := List.any_eq_true.1 hany
  simp only [Bool.and_eq_true, bne_iff_ne] at hreserves
  obtain ⟨c₀, h₀, h⟩ := during_followed (k := fun _ => pure ()) rfl hf
  obtain ⟨next, c', rfl, hs⟩ := step_of_commitOf h hcommit
  obtain ⟨all, available, hall, _, hadm⟩ := memory_admission_exact setup t "b" i w 0 next calls
    c₀ c c' h₀ h hs (noAlias_both hcreated)
  obtain rfl := (hall listed).1 (mem_of_listedIn hmem)
  exact ⟨t, i, w, next, calls, c₀, c, c', h₀, h, hs, listed, available, (hall listed).2 rfl,
    ⟨x, hx, hreserves⟩, hadm⟩

namespace Sample

/-- The sandboxes `a` and `b`, where `b` is named after the identifier of `a`. -/
def createAliased : List (System.Move Job) :=
  createA ++ [.request (.create (spec (ident 0)))] ++ steps 3 3 ++ [.run 3 1] ++ steps 3 11

end Sample

open Sample in
/-- `Start` of `a` reads and commits `b`, while a `Start` of `b` waits for the allocation
mutex; the latter then counts `b` twice. -/
theorem aliased_start_counted_twice : ∃ t i w next calls c₀ c c',
      (daemon setup).Runs (System.Meets namedBases) ((daemon setup).booted Host.initial) c₀ ∧
      (daemon setup).During namedBases t (start (ident 1)) c₀ calls
        (.call (.update i (.startCommit w)) next) c ∧
      (daemon setup).Step c (.run t (.update i (.startCommit w)) (.ok 0)) c' ∧
      ∃ all, (⟨.list, .ok all⟩ : Call Op Op.Reply) ∈ calls ∧
        reservedMemory w all ≠ memoryMax w + ((all.filter fun x =>
          x.id ≠ w.id ∧ reservesVMResources x = true).map memoryMax).sum := by
  have hrun : ((followed namedBases (createAliased ++ [.request (.start "a")] ++ steps 4 5)
      (.start (ident 1)) (start (ident 1)) (steps 5 5 ++ steps 4 5 ++ steps 5 3)).bind fun r =>
        (commitOf r).bind fun p => (listedIn r.2.1).map fun all =>
          decide (reservedMemory p.2 all ≠ memoryMax p.2 + ((all.filter fun x =>
            x.id ≠ p.2.id ∧ reservesVMResources x = true).map memoryMax).sum)) = some true := by
    decide +kernel
  obtain ⟨⟨t, calls, q, c⟩, hf, hc⟩ := Option.bind_eq_some_iff.1 hrun
  obtain ⟨⟨i, w⟩, hcommit, hlisted⟩ := Option.bind_eq_some_iff.1 hc
  obtain ⟨all, hall, hne⟩ := Option.map_eq_some_iff.1 hlisted
  obtain ⟨c₀, h₀, h⟩ := during_followed (k := fun _ => pure ()) rfl hf
  obtain ⟨next, c', rfl, hs⟩ := step_of_commitOf h hcommit
  exact ⟨t, i, w, next, calls, c₀, c, c', h₀, h, hs, all, mem_of_listedIn hall,
    of_decide_eq_true hne⟩

end Niflhel
