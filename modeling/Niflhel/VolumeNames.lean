import Niflhel.Lifecycle
import Niflhel.Session

/-!
# Volume names through failures and crashes

A volume is a disk file and a row of the `volumes` table. `volume-create` makes the file
first, with `O_EXCL`, and then inserts the row; `volume-rm` needs the row and deletes the
file first. Here the daemon's two requests run with the file operations of `Manager.Disk`
spelled out. A file without a row is an orphan: no request removes it, and none can create
the name again.
-/

namespace Niflhel.VolumeNames
open Concurrent

inductive Op where
  /-- A call of the daemon other than the two that touch disk files. -/
  | host (o : Niflhel.Op)
  | mkdirAll
  | create (name : String)
  | truncate (name : String) (size : ℤ)
  | fallocate (name : String) (size : ℤ)
  | mkfs (name : String)
  | remove (name : String)
  /-- Other requests have changed the sandbox table. -/
  | sandboxes (all : List Sandbox)

abbrev Op.Reply : Op → Type
  | .host o => o.Reply
  | .sandboxes _ => Unit
  | _ => Option String

structure Disks where
  host : Host
  /-- Names with a file under `volumes`. -/
  files : List String

def hasRow (s : Disks) (name : String) : Bool := s.host.store.volumes.any fun v => v.name == name

def mounted (s : Disks) (name : String) : Bool :=
  s.host.store.sandboxes.any fun x => x.spec.mounts.any fun m => m.name == name

abbrev Steps := Program Op Op.Reply

abbrev step (o : Op) : Steps o.Reply := Program.perform o

/-- The function `Manager.Disk` for the file of a volume, without a source directory. -/
def disk (v : Volume) : Steps (Option String) := do
  if v.size < 64 * mib ∨ v.size > 1024 * gib then return some "invalid disk size"
  if let some e ← step .mkdirAll then return some e
  if let some e ← step (.create v.name) then return some e
  match ← step (.truncate v.name v.size) with
  | some e =>
    let _ ← step (.remove v.name)
    return some e
  | none =>
    match ← step (.fallocate v.name v.size) with
    | some e =>
      let _ ← step (.remove v.name)
      return some e
    | none =>
      match ← step (.mkfs v.name) with
      | some e =>
        let _ ← step (.remove v.name)
        return some e
      | none => return none

def steps : (o : Niflhel.Op) → Steps o.Reply
  | .external (.volumeDisk v) => disk v
  | .external (.removeVolume name) => step (.remove name)
  | o => step (.host o)

inductive Request where
  | create (v : Volume)
  | rm (name : String)

inductive Job where
  | volume (r : Request)
  | sandboxes (all : List Sandbox)

def Request.code : Request → Steps (Option String)
  | .create v => (volumeCreateLocked v).expand steps
  | .rm name => (volumeRmLocked name).expand steps

def Job.code : Job → Steps Unit
  | .volume r => do
    let _ ← r.code
  | .sandboxes all => step (.sandboxes all)

section
variable (D : Setup)

/-- What an operation that answers `r` does. Deleting a file that is not there counts as
done, as both callers take it. -/
def exec (s : Disks) : (o : Op) → o.Reply → Option Disks
  | .host o, r => (Niflhel.exec D 0 s.host o r).map fun h => { s with host := h }
  | .create name, none => if name ∈ s.files then none else some { s with files := name :: s.files }
  | .remove name, none => some { s with files := s.files.filter fun n => n != name }
  | .sandboxes all, _ =>
      some { s with host := { s.host with store := { s.host.store with sandboxes := all } } }
  | .create _, some _ | .remove _, some _ | .mkdirAll, _ | .truncate _ _, _ | .fallocate _ _, _
  | .mkfs _, _ => some s

/-- Requests take the lock `allocations`, so one runs at a time. -/
def machine : Machine Disks Op Op.Reply Job Unit where
  exec := exec D
  code := Job.code
  crash _ s := { s with host := s.host.restarted }

def succeed (s : Disks) : (o : Op) → Option o.Reply
  | .host (.external .now) => some 0
  | .host (.volume name) => some (s.host.store.volume name)
  | .host .list => some (.ok s.host.store.list)
  | .host (.putVolume v) => some (match s.host.store.putVolume v with
    | .ok _ => none
    | .error e => some e)
  | .host (.deleteVolume _) => some none
  | .host _ => none
  | .sandboxes _ => some ()
  | .create name => some (if name ∈ s.files then some "file exists" else none)
  | .mkdirAll | .truncate _ _ | .fallocate _ _ | .mkfs _ | .remove _ => some none

def Escapable (s : Disks) (name : String) : Prop :=
  ∃ requests : List Request, ∃ s', (machine D).serve succeed s (requests.map .volume) = some s' ∧
    name ∈ s'.files ∧ hasRow s' name = true

end

def Orphanless (s : Disks) : Prop := ∀ name ∈ s.files, hasRow s name = true

def orphanless (s : Disks) : Bool := s.files.all (hasRow s)

/-- No crash while a file is without its row, and no failing deletion of such a file. -/
def orderly (s : Disks) : Event Op Op.Reply Job Unit → Bool
  | .crash _ => orphanless s
  | .run (.remove name) (some _) => hasRow s name || !s.files.contains name
  | _ => true

theorem orphanless_iff {s : Disks} : orphanless s = true ↔ Orphanless s := List.all_eq_true

section
variable {D : Setup} {ok : Disks → Event Op Op.Reply Job Unit → Bool} {s s' : Disks} {α β : Type}
  {post : α → Disks → Prop} {name : String} {v : Volume}

def Op.idle : Op → Bool
  | .mkdirAll | .truncate _ _ | .fallocate _ _ | .mkfs _ => true
  | .host (.external _) | .host (.volume _) | .host .list => true
  | _ => false

theorem exec_idle {o : Op} {r : o.Reply} (ho : o.idle = true) (hx : exec D s o r = some s') :
    s' = s := by
  cases o with
  | mkdirAll | truncate | fallocate | mkfs => exact (Option.some.inj hx).symm
  | create | remove | sandboxes => cases ho
  | host o => ?_
  obtain ⟨h, hexec, rfl⟩ := Option.map_eq_some_iff.1 hx
  have hh : h = s.host := by
    cases o with
    | external c => exact (Option.some.inj hexec).symm
    | volume name =>
      cases r with
      | error e => exact (Option.some.inj hexec).symm
      | ok v =>
        simp only [Niflhel.exec] at hexec
        split_ifs at hexec
        exact (Option.some.inj hexec).symm
    | list =>
      cases r with
      | error e => exact (Option.some.inj hexec).symm
      | ok all =>
        simp only [Niflhel.exec] at hexec
        split_ifs at hexec
        exact (Option.some.inj hexec).symm
    | _ => cases ho
  rw [hh]

theorem safe_idle {o : Op} {f : o.Reply → Steps α} (ho : o.idle = true)
    (h : ∀ r, (machine D).Safe ok (fun _ => True) post (f r) s) :
    (machine D).Safe ok (fun _ => True) post (Program.perform o >>= f) s := by
  intro r s' _ hx
  rw [exec_idle ho hx]
  exact ⟨trivial, h r⟩

theorem safe_expand {o : Niflhel.Op} {f : o.Reply → Prog α} {mid : o.Reply → Disks → Prop}
    (h : (machine D).Safe ok (fun _ => True) mid (steps o) s)
    (hf : ∀ r s', mid r s' → (machine D).Safe ok (fun _ => True) post ((f r).expand steps) s') :
    (machine D).Safe ok (fun _ => True) post ((Program.perform o >>= f).expand steps) s :=
  Machine.Safe.bind _ h hf

theorem volume_eq_ok {st : Store} (h : st.volume name = .ok v) :
    v ∈ st.volumes ∧ v.name = name := by
  unfold Store.volume at h
  cases hf : st.volumes.find? fun w => w.name == name with
  | none => simp [hf] at h
  | some w =>
    simp only [hf] at h
    cases h
    exact ⟨List.mem_of_find?_eq_some hf, by simpa using List.find?_some hf⟩

theorem exists_volume (h : hasRow s name = true) : ∃ v, s.host.store.volume name = .ok v := by
  obtain ⟨w, hw, hname⟩ := List.any_eq_true.1 h
  cases hf : s.host.store.volumes.find? fun w => w.name == name with
  | none => exact absurd hname (by simpa using List.find?_eq_none.1 hf w hw)
  | some x => exact ⟨x, by simp only [Store.volume, hf]⟩

theorem exec_volume {x : Volume} (hx : exec D s (.host (.volume name)) (.ok x) = some s') :
    s' = s ∧ hasRow s name = true ∧ x.name = name := by
  refine ⟨exec_idle rfl hx, ?_⟩
  obtain ⟨h, hexec, rfl⟩ := Option.map_eq_some_iff.1 hx
  simp only [Niflhel.exec] at hexec
  split_ifs at hexec with hvol
  obtain ⟨hmem, hname⟩ := volume_eq_ok hvol
  exact ⟨List.any_eq_true.2 ⟨x, hmem, by simpa using hname⟩, hname⟩

theorem safe_volume {f : Except String Volume → Prog α}
    (herror : ∀ e, (machine D).Safe ok (fun _ => True) post ((f (.error e)).expand steps) s)
    (hfound : ∀ v, hasRow s name = true → v.name = name →
      (machine D).Safe ok (fun _ => True) post ((f (.ok v)).expand steps) s) :
    (machine D).Safe ok (fun _ => True) post ((storeVolume name >>= f).expand steps) s := by
  intro found s₁ _ hx
  refine ⟨trivial, ?_⟩
  have hsame : s₁ = s := exec_idle (D := D) (o := .host (.volume name)) (r := found) rfl hx
  subst hsame
  cases found with
  | error e => exact herror e
  | ok v =>
    obtain ⟨_, hrow, hname⟩ := exec_volume hx
    exact hfound v hrow hname

theorem safe_list {f : Except String (List Sandbox) → Prog α}
    (h : ∀ listed, (machine D).Safe ok (fun _ => True) post ((f listed).expand steps) s) :
    (machine D).Safe ok (fun _ => True) post ((storeList >>= f).expand steps) s :=
  safe_idle (o := .host .list) rfl h

theorem exec_putVolume {r : Option String} (hx : exec D s (.host (.putVolume v)) r = some s') :
    s'.files = s.files ∧
      (r ≠ none → s' = s) ∧ (r = none → ∀ n, hasRow s' n = (v.name == n || hasRow s n)) := by
  obtain ⟨h, hexec, rfl⟩ := Option.map_eq_some_iff.1 hx
  cases r with
  | some e =>
    cases hexec
    exact ⟨rfl, fun _ => rfl, fun hr => nomatch hr⟩
  | none =>
    obtain ⟨st, hput, rfl⟩ := Option.map_eq_some_iff.1 hexec
    refine ⟨rfl, fun hr => absurd rfl hr, fun _ n => ?_⟩
    unfold Store.putVolume at hput
    split_ifs at hput
    · cases hput
    · cases hput
      rfl

theorem exec_deleteVolume {r : Option String}
    (hx : exec D s (.host (.deleteVolume name)) r = some s') :
    s'.files = s.files ∧ (∀ n, n ≠ name → hasRow s' n = hasRow s n) ∧
      ∀ n, hasRow s' n = true → hasRow s n = true := by
  obtain ⟨h, hexec, rfl⟩ := Option.map_eq_some_iff.1 hx
  cases r with
  | some e =>
    cases hexec
    exact ⟨rfl, fun _ _ => rfl, fun _ h => h⟩
  | none =>
    cases hexec
    refine ⟨rfl, fun n hn => ?_, fun n => ?_⟩
    · simp only [hasRow, Store.deleteVolume, List.any_filter]
      congr 1
      funext w
      by_cases hw : w.name = n
      · simp [hw, hn]
      · simp [hw]
    · simp only [hasRow, Store.deleteVolume, List.any_filter, List.any_eq_true]
      rintro ⟨w, hw, hboth⟩
      exact ⟨w, hw, ((Bool.and_eq_true _ _).mp hboth).2⟩

/-- Only the name in the making may be without a row. -/
def Making (name : String) (s : Disks) : Prop := ∀ n ∈ s.files, n = name ∨ hasRow s n = true

theorem safe_cleanup (hs : Making name s) (e : String) :
    (machine D).Safe orderly (fun _ => True) (fun _ s' => Orphanless s')
      (Program.perform (.remove name) >>= fun _ => pure (some e)) s := by
  intro r s' hok hx
  refine ⟨trivial, ?_⟩
  cases r with
  | none =>
    cases hx
    intro n hn
    obtain ⟨hmem, hne⟩ := List.mem_filter.1 hn
    exact (hs n hmem).resolve_left (by simpa using hne)
  | some e' =>
    cases hx
    intro n hn
    rcases hs n hn with rfl | hrow
    · simpa [orderly, hn] using hok
    · exact hrow

theorem safe_disk (hs : Orphanless s) (v : Volume) : (machine D).Safe orderly (fun _ => True)
      (fun r s' => if r = none then Making v.name s' else Orphanless s') (disk v) s := by
  have hclean : ∀ s', Making v.name s' → ∀ e : String, (machine D).Safe orderly (fun _ => True)
      (fun r s' => if r = none then Making v.name s' else Orphanless s')
      (Program.perform (.remove v.name) >>= fun _ => pure (some e)) s' := by
    intro s' hs' e r s₂ hok hx
    exact safe_cleanup hs' e r s₂ hok hx
  unfold disk
  split
  · exact hs
  refine safe_idle rfl fun
    | some e => hs
    | none => ?_
  intro created s' _ hx
  refine ⟨trivial, ?_⟩
  cases created with
  | some e =>
    cases hx
    exact hs
  | none =>
    simp only [machine, exec] at hx
    split_ifs at hx with hnew
    cases hx
    have hmaking : Making v.name { s with files := v.name :: s.files } := by
      intro n hn
      rcases List.mem_cons.1 hn with rfl | hn
      · exact Or.inl rfl
      · exact Or.inr (hs n hn)
    refine safe_idle rfl fun
      | some e => hclean _ hmaking e
      | none => ?_
    refine safe_idle rfl fun
      | some e => hclean _ hmaking e
      | none => ?_
    exact safe_idle rfl fun
      | some e => hclean _ hmaking e
      | none => hmaking

theorem safe_create (hs : Orphanless s) (v : Volume) :
    (machine D).Safe orderly (fun _ => True) (fun _ s' => Orphanless s')
      ((volumeCreateLocked v).expand steps) s := by
  unfold volumeCreateLocked
  split
  · exact hs
  refine safe_idle rfl fun now => ?_
  refine safe_expand (safe_disk hs { v with created := now }) fun
    | some e, _, hs₁ => hs₁
    | none, s₁, hs₁ => ?_
  intro r s₂ _ hx
  refine ⟨trivial, ?_⟩
  obtain ⟨hfiles, hsame, hrows⟩ := exec_putVolume hx
  cases r with
  | some e =>
    rw [hsame (by simp)]
    exact safe_cleanup hs₁ e
  | none =>
    intro n hn
    rw [hrows rfl n]
    rcases hs₁ n (hfiles ▸ hn) with rfl | hrow
    · simp
    · simp [hrow]

theorem safe_rm (hs : Orphanless s) (name : String) :
    (machine D).Safe orderly (fun _ => True) (fun _ s' => Orphanless s')
      ((volumeRmLocked name).expand steps) s := by
  refine safe_volume (fun _ => hs) fun v _ _ => safe_list fun
    | .error e => hs
    | .ok all => ?_
  dsimp only
  split
  · exact hs
  intro removed s₂ _ hx
  refine ⟨trivial, ?_⟩
  cases removed with
  | some e =>
    cases hx
    exact hs
  | none =>
    cases hx
    intro deleted s₃ _ hx
    refine ⟨trivial, ?_⟩
    obtain ⟨hfiles, hother, _⟩ := exec_deleteVolume hx
    intro n hn
    rw [hfiles] at hn
    obtain ⟨hmem, hne⟩ := List.mem_filter.1 hn
    rw [hother n (by simpa using hne)]
    exact hs n hmem

theorem safe_job (hs : Orphanless s) (j : Job) :
    (machine D).Safe orderly (fun _ => True) (fun _ s' => Orphanless s') j.code s := by
  cases j with
  | volume r =>
    have hcode : (machine D).Safe orderly (fun _ => True) (fun _ s' => Orphanless s') r.code s := by
      cases r with
      | create v => exact safe_create hs v
      | rm name => exact safe_rm hs name
    exact hcode.bind _ fun _ _ h => h
  | sandboxes all =>
    intro r s' _ hx
    cases hx
    exact ⟨trivial, hs⟩

def Orphan (name : String) (s : Disks) : Prop := name ∈ s.files ∧ hasRow s name = false

theorem Orphan.remove {other : String} (h : Orphan name s) (hne : other ≠ name) {r : Option String}
    (hx : exec D s (.remove other) r = some s') : Orphan name s' := by
  cases r with
  | some e =>
    cases hx
    exact h
  | none =>
    cases hx
    exact ⟨List.mem_filter.2 ⟨h.1, by simpa using hne.symm⟩, h.2⟩

theorem orphan_cleanup {other : String} (h : Orphan name s) (hne : other ≠ name) (e : String) :
    (machine D).Safe (fun _ _ => true) (fun _ => True) (fun _ s' => Orphan name s')
      (Program.perform (.remove other) >>= fun _ => pure (some e)) s :=
  fun _ _ _ hx => ⟨trivial, h.remove (D := D) hne hx⟩

/-- `O_EXCL` keeps a request from making the file again. -/
theorem orphan_disk (h : Orphan name s) (v : Volume) :
    (machine D).Safe (fun _ _ => true) (fun _ => True)
      (fun r s' => Orphan name s' ∧ (r = none → v.name ≠ name)) (disk v) s := by
  have hclean : ∀ s', Orphan name s' → v.name ≠ name → ∀ e : String,
      (machine D).Safe (fun _ _ => true) (fun _ => True)
        (fun r s' => Orphan name s' ∧ (r = none → v.name ≠ name))
        (Program.perform (.remove v.name) >>= fun _ => pure (some e)) s' :=
    fun s' hs' hne e => (orphan_cleanup hs' hne e).weaken _ fun _ _ hs₂ => ⟨hs₂, fun _ => hne⟩
  unfold disk
  split
  · exact ⟨h, fun hr => nomatch hr⟩
  refine safe_idle rfl fun
    | some e => ⟨h, fun hr => nomatch hr⟩
    | none => ?_
  intro created s' _ hx
  refine ⟨trivial, ?_⟩
  cases created with
  | some e =>
    cases hx
    exact ⟨h, fun hr => nomatch hr⟩
  | none =>
    simp only [machine, exec] at hx
    split_ifs at hx with hnew
    cases hx
    have hne : v.name ≠ name := fun he => hnew (he ▸ h.1)
    have hkept : Orphan name { s with files := v.name :: s.files } :=
      ⟨List.mem_cons_of_mem _ h.1, h.2⟩
    refine safe_idle rfl fun
      | some e => hclean _ hkept hne e
      | none => ?_
    refine safe_idle rfl fun
      | some e => hclean _ hkept hne e
      | none => ?_
    exact safe_idle rfl fun
      | some e => hclean _ hkept hne e
      | none => ⟨hkept, fun _ => hne⟩

theorem orphan_create (h : Orphan name s) (v : Volume) :
    (machine D).Safe (fun _ _ => true) (fun _ => True) (fun _ s' => Orphan name s')
      ((volumeCreateLocked v).expand steps) s := by
  unfold volumeCreateLocked
  split
  · exact h
  refine safe_idle rfl fun now => ?_
  refine safe_expand (orphan_disk h { v with created := now }) fun made s₁ hs₁ => ?_
  obtain ⟨hkept, hne⟩ := hs₁
  cases made with
  | some e => exact hkept
  | none => ?_
  intro r s₂ _ hx
  refine ⟨trivial, ?_⟩
  obtain ⟨hfiles, hsame, hrows⟩ := exec_putVolume hx
  cases r with
  | some e =>
    rw [hsame (by simp)]
    exact orphan_cleanup hkept (hne rfl) e
  | none =>
    refine ⟨hfiles ▸ hkept.1, ?_⟩
    rw [hrows rfl name, hkept.2, Bool.or_false]
    simpa using hne rfl

/-- Without the row, `volume-rm` does not find the volume. -/
theorem orphan_rm (h : Orphan name s) (other : String) :
    (machine D).Safe (fun _ _ => true) (fun _ => True) (fun _ s' => Orphan name s')
      ((volumeRmLocked other).expand steps) s := by
  refine safe_volume (fun _ => h) fun v hrow hname => ?_
  have hne : v.name ≠ name := by
    rintro rfl
    rw [← hname, h.2] at hrow
    cases hrow
  refine safe_list fun
    | .error e => h
    | .ok all => ?_
  dsimp only
  split
  · exact h
  intro removed s₂ _ hx
  refine ⟨trivial, ?_⟩
  have hkept : Orphan name s₂ := h.remove (D := D) hne hx
  cases removed with
  | some e => exact hkept
  | none =>
    intro deleted s₃ _ hx
    refine ⟨trivial, ?_⟩
    obtain ⟨hfiles, hother, _⟩ := exec_deleteVolume hx
    exact ⟨hfiles ▸ hkept.1, (hother name hne.symm).trans hkept.2⟩

theorem orphan_request (h : Orphan name s) (r : Request) :
    (machine D).Safe (fun _ _ => true) (fun _ => True) (fun _ s' => Orphan name s')
      (Job.volume r).code s := by
  have hcode : (machine D).Safe (fun _ _ => true) (fun _ => True) (fun _ s' => Orphan name s')
      r.code s := by
    cases r with
    | create v => exact orphan_create h v
    | rm other => exact orphan_rm h other
  exact hcode.bind _ fun _ _ h => h

theorem orphan_serve {requests : List Request} (h : Orphan name s)
    (hserve : (machine D).serve succeed s (requests.map .volume) = some s') : Orphan name s' := by
  induction requests generalizing s with
  | nil =>
    cases hserve
    exact h
  | cons r rest ih =>
    obtain ⟨⟨_, s₁⟩, hfirst, hrest⟩ := Option.bind_eq_some_iff.1 hserve
    have hkept := (orphan_request h r).complete _ (fun _ _ _ _ => rfl) hfirst
    exact ih hkept hrest

theorem complete_disk (hmin : 64 * mib ≤ v.size) (hmax : v.size ≤ 1024 * gib)
    (hnew : v.name ∉ s.files) : (machine D).complete succeed s (disk v) =
      some (none, { s with files := v.name :: s.files }) := by
  have hsize : ¬ (v.size < 64 * mib ∨ v.size > 1024 * gib) := by omega
  unfold disk
  rw [if_neg hsize]
  simp [Machine.complete, Program.perform, bind, Program.bind, machine, exec, succeed, hnew]

theorem complete_expand {o : Niflhel.Op} {f : o.Reply → Prog α} {r : o.Reply}
    (h : (machine D).complete succeed s (steps o) = some (r, s')) :
    (machine D).complete succeed s ((Program.perform o >>= f).expand steps) =
      (machine D).complete succeed s' ((f r).expand steps) := by
  refine ((machine D).complete_bind (steps o) _).trans ?_
  rw [h, Option.bind_some]
  rfl

theorem complete_step {o : Op} {r : o.Reply} (hr : succeed s o = some r)
    (hx : exec D s o r = some s') : (machine D).complete succeed s (step o) = some (r, s') :=
  (machine D).complete_perform hr hx pure

theorem complete_putVolume (h : hasRow s v.name = false) :
    (machine D).complete succeed s (steps (.putVolume v)) = some (none, { s with
      host := { s.host with store := { s.host.store with volumes := v :: s.host.store.volumes } } }) := by
  have hput : s.host.store.putVolume v =
      .ok { s.host.store with volumes := v :: s.host.store.volumes } := by
    have hnone : ¬ s.host.store.volumes.any (fun w => w.name == v.name) = true := by
      rw [show s.host.store.volumes.any (fun w => w.name == v.name) = false from h]
      exact Bool.false_ne_true
    exact if_neg hnone
  apply complete_step
  · simp [succeed, hput]
  · simp [exec, Niflhel.exec, unlessError, hput, Except.toOption]

theorem complete_volume (h : s.host.store.volume name = .ok v) :
    (machine D).complete succeed s (steps (.volume name)) = some (.ok v, s) := by
  apply complete_step
  · rw [← h]
    rfl
  · simp [exec, Niflhel.exec, h]

theorem complete_list :
    (machine D).complete succeed s (steps .list) = some (.ok s.host.store.list, s) := by
  apply complete_step rfl
  simp [exec, Niflhel.exec]

theorem complete_create (hname : validName v.name = true) (hmin : 64 * mib ≤ v.size)
    (hmax : v.size ≤ 1024 * gib) (hnew : v.name ∉ s.files) (hrow : hasRow s v.name = false) :
    ∃ r s', (machine D).complete succeed s (Request.create v).code = some (r, s') ∧
      v.name ∈ s'.files ∧ hasRow s' v.name = true := by
  let made : Volume := { v with created := 0 }
  refine ⟨none, { s with
    host := { s.host with store := { s.host.store with volumes := made :: s.host.store.volumes } },
    files := v.name :: s.files }, ?_, List.mem_cons_self .., by simp [hasRow, made]⟩
  change (machine D).complete succeed s ((volumeCreateLocked v).expand steps) = _
  unfold volumeCreateLocked
  rw [if_neg (by simp [hname])]
  refine (complete_expand (complete_step (o := .host (.external .now)) rfl rfl)).trans ?_
  refine (complete_expand (complete_disk (v := made) hmin hmax hnew)).trans ?_
  exact complete_expand (complete_putVolume (s := { s with files := v.name :: s.files }) (v := made) hrow)

theorem complete_rm (hrow : hasRow s name = true) (hmount : mounted s name = false) :
    ∃ r s', (machine D).complete succeed s (Request.rm name).code = some (r, s') ∧
      name ∉ s'.files ∧ hasRow s' name = false := by
  obtain ⟨v, hv⟩ := exists_volume hrow
  obtain ⟨_, hname⟩ := volume_eq_ok hv
  have hnone : (s.host.store.list.find? fun x => x.spec.mounts.any fun m => m.name == v.name) =
      none := by
    rw [List.find?_eq_none]
    intro x hx
    have hx' : x ∈ s.host.store.sandboxes := (List.mem_insertionSort _).1 hx
    rw [hname]
    exact List.any_eq_false.1 hmount x hx'
  refine ⟨none, ⟨{ s.host with store := s.host.store.deleteVolume v.name },
    s.files.filter fun n => n != v.name⟩, ?_, by simp [hname], ?_⟩
  · change (machine D).complete succeed s ((volumeRmLocked name).expand steps) = _
    refine (complete_expand (complete_volume hv)).trans ?_
    refine (complete_expand complete_list).trans ?_
    dsimp only
    rw [hnone]
    refine (complete_expand (complete_step (o := .remove v.name) rfl rfl)).trans ?_
    exact complete_step (o := .host (.deleteVolume v.name)) rfl rfl
  · simp [hasRow, Store.deleteVolume, hname]

theorem serve_cons {r : Request} {rest : List Request} {out : Option String}
    (h : (machine D).complete succeed s r.code = some (out, s')) :
    (machine D).serve succeed s ((r :: rest).map .volume) =
      (machine D).serve succeed s' (rest.map .volume) := by
  have hjob : (machine D).complete succeed s (Job.volume r).code = some ((), s') := by
    refine ((machine D).complete_bind r.code _).trans ?_
    rw [h]
    rfl
  change ((machine D).complete succeed s (Job.volume r).code).bind _ = _
  rw [hjob]
  rfl

/-- Exactly the orphans are beyond the requests. -/
theorem escapable_iff (hname : validName name = true) (hmount : mounted s name = false) :
    Escapable D s name ↔ (name ∈ s.files → hasRow s name = true) := by
  constructor
  · rintro ⟨requests, s', hserve, _, hrow⟩ hfile
    cases hrow₀ : hasRow s name with
    | true => rfl
    | false =>
      have hkept := orphan_serve ⟨hfile, hrow₀⟩ hserve
      rw [hkept.2] at hrow
      cases hrow
  · intro h
    have hmax : 64 * mib ≤ 1024 * gib := by decide
    have hcreate : ∀ s₁ : Disks, name ∉ s₁.files → hasRow s₁ name = false →
        ∃ r s', (machine D).complete succeed s₁ (Request.create ⟨name, 64 * mib, 0⟩).code =
          some (r, s') ∧ name ∈ s'.files ∧ hasRow s' name = true := fun s₁ hfile hrow =>
      complete_create (v := ⟨name, 64 * mib, 0⟩) hname le_rfl hmax hfile hrow
    by_cases hfile : name ∈ s.files
    · exact ⟨[], s, rfl, hfile, h hfile⟩
    cases hrow : hasRow s name with
    | false =>
      obtain ⟨r, s', hrun, hboth⟩ := hcreate s hfile hrow
      exact ⟨[.create ⟨name, 64 * mib, 0⟩], s', serve_cons hrun, hboth⟩
    | true =>
      obtain ⟨r, s₁, hrm, hfile₁, hrow₁⟩ := complete_rm (D := D) hrow hmount
      obtain ⟨r', s', hrun, hboth⟩ := hcreate s₁ hfile₁ hrow₁
      exact ⟨[.rm name, .create ⟨name, 64 * mib, 0⟩], s',
        (serve_cons hrm).trans (serve_cons hrun), hboth⟩

/-- If the daemon never crashes while a disk file is without its row, and never fails to
delete such a file, every name that no sandbox mounts stays usable. -/
theorem names_usable_while_orderly (D : Setup) (s : Disks) (hs : Orphanless s)
    (c : Session Disks Op Op.Reply) (hr : (machine D).Runs orderly ⟨s, .pure ()⟩ c)
    (hidle : c.program = .pure ()) (name : String) (hname : validName name = true)
    (hmount : mounted c.state name = false) : Escapable D c.state name := by
  have hsettled : (machine D).Settled orderly (fun _ => True) Orphanless c := by
    have hstart : (machine D).Settled orderly (fun _ => True) Orphanless ⟨s, .pure ()⟩ :=
      ⟨trivial, hs⟩
    exact (machine D).settled_of_runs (fun j s₁ _ _ hs₁ => safe_job hs₁ j)
      (fun l s₁ hok _ => ⟨trivial, orphanless_iff.1 hok⟩) hstart hr
  have hrest : Orphanless c.state := by
    have hsafe := hsettled.2
    rw [hidle] at hsafe
    exact hsafe
  exact (escapable_iff hname hmount).2 (hrest name)

end

namespace Sample

def start : Session Disks Op Op.Reply := ⟨⟨Host.initial, []⟩, .pure ()⟩

def data : Volume := ⟨"data", 64 * mib, 0⟩

def reply (s : Disks) : (o : Op) → ℕ → o.Reply
  | .host o, tag => Niflhel.Sample.reply s.host o tag
  | .sandboxes _, _ => ()
  | .mkdirAll, tag | .create _, tag | .truncate _ _, tag | .fallocate _ _, tag | .mkfs _, tag
  | .remove _, tag => Niflhel.Sample.failed tag

def after (ok : Disks → Event Op Op.Reply Job Unit → Bool) (moves : List (Machine.Move Job Unit)) :
    Option (Session Disks Op Op.Reply) :=
  (machine Niflhel.Sample.setup).replay ok reply start moves

end Sample

open Niflhel.Sample (setup)

/-- The volume is created, and the daemon crashes in the middle of a `volume-rm` of it. -/
theorem names_usable_while_orderly_created :
    ∃ c, (machine setup).Runs orderly Sample.start c ∧ hasRow c.state "data" = true ∧
      Escapable setup c.state "data" := by
  have hrun : ∃ c, Sample.after orderly (.request (.volume (.create Sample.data)) ::
      List.replicate 7 (.run 0) ++ [.request (.volume (.rm "data")), .run 0, .crash ()]) = some c ∧
        c.program = .pure () ∧ hasRow c.state "data" = true ∧ mounted c.state "data" = false :=
    ⟨_, rfl, rfl, rfl, rfl⟩
  obtain ⟨c, hc, hidle, hrow, hmount⟩ := hrun
  have hr := Machine.replay_runs _ hc
  have hempty : Orphanless Sample.start.state := fun _ hn => absurd hn List.not_mem_nil
  exact ⟨c, hr, hrow, names_usable_while_orderly setup _ hempty c hr hidle "data" (by decide) hmount⟩

/-- The daemon crashes after it made the disk file: the name is lost. -/
theorem crashed_create_loses_name :
    ∃ c, (machine setup).Runs (fun _ _ => true) Sample.start c ∧ c.program = .pure () ∧
      validName "data" = true ∧ mounted c.state "data" = false ∧
        ¬ Escapable setup c.state "data" := by
  have hrun : ∃ c, Sample.after (fun _ _ => true) (.request (.volume (.create Sample.data)) ::
      List.replicate 3 (.run 0) ++ [.crash ()]) = some c ∧ c.program = .pure () ∧
        "data" ∈ c.state.files ∧ hasRow c.state "data" = false ∧
          mounted c.state "data" = false := ⟨_, rfl, rfl, by decide, rfl, rfl⟩
  obtain ⟨c, hc, hidle, hfile, hrow, hmount⟩ := hrun
  refine ⟨c, Machine.replay_runs _ hc, hidle, by decide, hmount, fun hescape => ?_⟩
  have hrow' := (escapable_iff (by decide) hmount).1 hescape hfile
  rw [hrow] at hrow'
  cases hrow'

end Niflhel.VolumeNames
