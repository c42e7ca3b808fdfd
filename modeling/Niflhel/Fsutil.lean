import Niflhel.Base
import Niflhel.FileOps

/-!
# Publishing files

`fsutil.Atomic` and `oci.WriteVerified` write a temporary file in the target's directory
and rename it over the target. `safe_atomic` and `safe_writeVerified` say what a call can
leave behind, under a failure of any operation, and which disks a crash can find.
-/

namespace Niflhel.Fsutil
open Concurrent FileOps Directory

variable {Dir : Type} [DecidableEq Dir]

def fill (d : Dir) (tmp : String) (data : Bytes) : Files Dir (Option String) := do
  match ← file (.chmod d tmp) with
  | some e =>
    let _ ← file (.close d tmp)
    return some e
  | none =>
    match (← file (.write d tmp data)).2 with
    | some e =>
      let _ ← file (.close d tmp)
      return some e
    | none =>
      match ← file (.sync d tmp) with
      | some e =>
        let _ ← file (.close d tmp)
        return some e
      | none => file (.close d tmp)

/-- The function `Atomic`. It also tells whether the rename happened, which its callers do
not see. -/
def atomic (d : Dir) (name : String) (data : Bytes) : Files Dir (Bool × Option String) := do
  match ← file (.mkdirAll d) with
  | some e => return (false, some e)
  | none =>
    match ← file (.createTemp d ".pending-") with
    | .error e => return (false, some e)
    | .ok tmp =>
      match ← fill d tmp data with
      | some e =>
        let _ ← file (.remove d tmp)
        return (false, some e)
      | none =>
        match ← file (.rename d tmp name) with
        | some e =>
          let _ ← file (.remove d tmp)
          return (false, some e)
        | none =>
          let e ← file (.syncDir d)
          let _ ← file (.remove d tmp)
          return (true, e)

structure Reader where
  bytes : Bytes
  failure : Option String := none
  deriving DecidableEq, Repr

/-- What `io.LimitReader` passes on: the bytes, and the error if it gets that far. -/
def Reader.limit (r : Reader) (n : ℕ) : Reader :=
  ⟨r.bytes.take n, if r.bytes.length < n then r.failure else none⟩

def copy (d : Dir) (tmp : String) (r : Reader) : Files Dir (Option String) := do
  match (← file (.write d tmp r.bytes)).2.or r.failure with
  | some e =>
    let _ ← file (.close d tmp)
    return some e
  | none =>
    match ← file (.sync d tmp) with
    | some e =>
      let _ ← file (.close d tmp)
      return some e
    | none => file (.close d tmp)

def writeVerified (K : Base.Crypto) (d : Dir) (path : String) (r : Reader) (desc : Descriptor) :
    Files Dir (Option String) := do
  match Base.hexDigest desc.digest with
  | .error e => return some e
  | .ok _ =>
    if desc.size < 0 ∨ desc.size > Base.maxBlob then return some "blob too large"
    else
      match ← file (.mkdirAll d) with
      | some e => return some e
      | none =>
        match ← file (.createTemp d ".download-") with
        | .error e => return some e
        | .ok tmp =>
          let data := r.limit (desc.size.toNat + 1)
          match ← copy d tmp data with
          | some e =>
            let _ ← file (.remove d tmp)
            return some e
          | none =>
            match ← file (.readFile d tmp) with
            | .error e =>
              let _ ← file (.remove d tmp)
              return some e
            | .ok c =>
              if (data.bytes.length : ℤ) ≠ desc.size ∨ Base.digest K c ≠ desc.digest then
                let _ ← file (.remove d tmp)
                return some "blob digest/size mismatch"
              else
                let e ← file (.rename d tmp path)
                let _ ← file (.remove d tmp)
                return e

section
variable {Job Loss : Type} {code : Job → Files Dir Unit} {crash : Loss → Disk Dir → Disk Dir}
  {ok : Disk Dir → Event (FileOps.Op Dir) FileOps.Op.Reply Job Loss → Bool} {inv : Disk Dir → Prop}
  {s : Disk Dir} {d : Dir} {data : Bytes} {tmp name : String}

def staged (s : Disk Dir) (d : Dir) (tmp : String) (data : Bytes) (n : ℕ) : Disk Dir :=
  s.put d tmp (data.take n)

def Fresh (s : Disk Dir) (d : Dir) (pattern tmp : String) : Prop :=
  pattern.toList <+: tmp.toList ∧ (s d).lookup tmp = none

theorem lookup_staged (n : ℕ) : ((staged s d tmp data n) d).lookup tmp = some (data.take n) := by
  simp [staged]

variable {s' : Disk Dir}

/-- A write fills the empty temporary file up to some point. -/
theorem exec_write_staged {n : ℕ} {e : Option String}
    (hx : FileOps.exec (staged s d tmp data 0) (.write d tmp data) (n, e) = some s') :
    (e = none → n = data.length) ∧ s' = staged s d tmp data n := by
  obtain ⟨hn, rfl⟩ := exec_write (lookup_staged 0) hx
  exact ⟨hn, put_put _⟩

theorem exec_rename_staged (hfresh : (s d).lookup tmp = none) {n : ℕ}
    (hx : FileOps.exec (staged s d tmp data n) (.rename d tmp name) none = some s') :
    s' = s.put d name (data.take n) := by
  rw [exec_rename (lookup_staged n) hx, staged, erase_put hfresh]

def Filled (s : Disk Dir) (d : Dir) (tmp : String) (data : Bytes) (e : Option String)
    (s' : Disk Dir) : Prop :=
  ∃ n, s' = staged s d tmp data n ∧ (e = none → n = data.length)

theorem safe_close {e : Option String} (hs : inv s') (h : Filled s d tmp data e s') :
    Machine.Safe ⟨FileOps.exec, code, crash⟩ ok inv (Filled s d tmp data)
      (file (.close d tmp) >>= fun _ => pure e) s' :=
  safe_quiet rfl hs fun _ => h

theorem safe_closed (hs : inv s') (h : Filled s d tmp data none s') :
    Machine.Safe ⟨FileOps.exec, code, crash⟩ ok inv (Filled s d tmp data) (file (.close d tmp)) s' := by
  obtain ⟨n, rfl, hn⟩ := h
  exact safe_quiet rfl hs fun _ => ⟨n, rfl, fun _ => hn rfl⟩

theorem safe_sync (hs : inv s') (h : Filled s d tmp data none s') :
    Machine.Safe ⟨FileOps.exec, code, crash⟩ ok inv (Filled s d tmp data)
      (file (.sync d tmp) >>= fun r => match r with
        | some e => file (.close d tmp) >>= fun _ => pure (some e)
        | none => file (.close d tmp)) s' := by
  refine safe_quiet rfl hs fun r => ?_
  obtain ⟨n, rfl, hn⟩ := h
  cases r with
  | some e => exact safe_close hs ⟨n, rfl, fun he => nomatch he⟩
  | none => exact safe_closed hs ⟨n, rfl, hn⟩

theorem safe_fill (hinv : ∀ n, inv (staged s d tmp data n)) :
    Machine.Safe ⟨FileOps.exec, code, crash⟩ ok inv (Filled s d tmp data) (fill d tmp data)
      (staged s d tmp data 0) := by
  refine safe_quiet rfl (hinv 0) fun
    | some e => safe_close (hinv 0) ⟨0, rfl, fun he => nomatch he⟩
    | none => ?_
  refine safe_file fun r s' _ hx => ?_
  obtain ⟨n, e⟩ := r
  obtain ⟨hn, rfl⟩ := exec_write_staged hx
  refine ⟨hinv n, ?_⟩
  cases e with
  | some e => exact safe_close (hinv n) ⟨n, rfl, fun he => nomatch he⟩
  | none => exact safe_sync (hinv n) ⟨n, rfl, fun _ => hn rfl⟩

theorem safe_copy {r : Reader} (hinv : ∀ n, inv (staged s d tmp r.bytes n)) :
    Machine.Safe ⟨FileOps.exec, code, crash⟩ ok inv (Filled s d tmp r.bytes) (copy d tmp r)
      (staged s d tmp r.bytes 0) := by
  refine safe_file fun w s' _ hx => ?_
  obtain ⟨n, e⟩ := w
  obtain ⟨hn, rfl⟩ := exec_write_staged hx
  refine ⟨hinv n, ?_⟩
  cases e with
  | some e => exact safe_close (hinv n) ⟨n, rfl, fun he => nomatch he⟩
  | none =>
    cases r.failure with
    | some e => exact safe_close (hinv n) ⟨n, rfl, fun he => nomatch he⟩
    | none => exact safe_sync (hinv n) ⟨n, rfl, fun _ => hn rfl⟩

/-- What a call leaves: nothing new, a temporary file that could not be deleted, or the
target with its full contents. -/
inductive Published (ok : Disk Dir → Event (FileOps.Op Dir) FileOps.Op.Reply Job Loss → Bool) (s : Disk Dir) (d : Dir)
    (pattern name : String) (data : Bytes) : Bool → Option String → Disk Dir → Prop where
  | nothing (e : String) : Published ok s d pattern name data false (some e) s
  | leftover (tmp : String) (n : ℕ) (e e' : String) (hfresh : Fresh s d pattern tmp)
      (hok : ok (staged s d tmp data n) (.run (.remove d tmp) (.failed e')) = true) :
      Published ok s d pattern name data false (some e) (staged s d tmp data n)
  | written (e : Option String) : Published ok s d pattern name data true e (s.put d name data)

theorem safe_discard {pattern : String} {α : Type} {post : α → Disk Dir → Prop} {a : α} {n : ℕ}
    (hs : inv s) (hstaged : inv (staged s d tmp data n)) (hfresh : Fresh s d pattern tmp)
    (hdone : post a s)
    (hleft : ∀ e', ok (staged s d tmp data n) (.run (.remove d tmp) (.failed e')) = true →
      post a (staged s d tmp data n)) :
    Machine.Safe ⟨FileOps.exec, code, crash⟩ ok inv post
      (file (.remove d tmp) >>= fun _ => pure a) (staged s d tmp data n) := by
  refine safe_file fun r s' hok hx => ?_
  cases r with
  | done =>
    obtain ⟨_, rfl⟩ | ⟨h, _⟩ := exec_remove hx
    · rw [staged, erase_put hfresh.2]
      exact ⟨hs, hdone⟩
    · exact absurd rfl h
  | missing =>
    simp [FileOps.exec, lookup_staged] at hx
  | failed e' =>
    cases hx
    exact ⟨hstaged, hleft e' hok⟩

theorem safe_renamed {pattern : String} {α : Type} {post : α → Disk Dir → Prop} {a : α} {c : Bytes}
    (hs : inv (s.put d name c)) (hfresh : Fresh s d pattern tmp)
    (hname : ¬ pattern.toList <+: name.toList) (h : post a (s.put d name c)) :
    Machine.Safe ⟨FileOps.exec, code, crash⟩ ok inv post
      (file (.remove d tmp) >>= fun _ => pure a) (s.put d name c) := by
  have hne : tmp ≠ name := fun he => hname (he ▸ hfresh.1)
  refine safe_file fun r s' _ hx => ?_
  obtain ⟨rfl, _⟩ | ⟨_, rfl⟩ := exec_remove hx
  · simp [FileOps.exec, lookup_put_ne _ _ hne, hfresh.2] at hx
  · exact ⟨hs, h⟩

theorem safe_atomic (hname : ¬ ".pending-".toList <+: name.toList) (hs : inv s)
    (hstaged : ∀ tmp n, Fresh s d ".pending-" tmp → inv (staged s d tmp data n))
    (hwritten : inv (s.put d name data)) :
    Machine.Safe ⟨FileOps.exec, code, crash⟩ ok inv
      (fun r => Published ok s d ".pending-" name data r.1 r.2) (atomic d name data) s := by
  refine safe_quiet rfl hs fun
    | some e => .nothing e
    | none => ?_
  refine safe_file fun created s' _ hx => ?_
  cases created with
  | error e =>
    cases hx
    exact ⟨hs, .nothing e⟩
  | ok tmp =>
    obtain ⟨hpattern, hnew, rfl⟩ := exec_createTemp hx
    have hfresh : Fresh s d ".pending-" tmp := ⟨hpattern, hnew⟩
    have hinv : ∀ n, inv (staged s d tmp data n) := fun n => hstaged tmp n hfresh
    refine ⟨hinv 0, Machine.Safe.bind _ (safe_fill hinv) fun filled s' hfilled => ?_⟩
    obtain ⟨n, rfl, hn⟩ := hfilled
    cases filled with
    | some e =>
      exact safe_discard hs (hinv n) hfresh (.nothing e)
        fun e' hok => .leftover tmp n e e' hfresh hok
    | none =>
      refine safe_file fun renamed s' _ hx => ?_
      cases renamed with
      | some e =>
        cases hx
        exact ⟨hinv n, safe_discard hs (hinv n) hfresh (.nothing e)
          fun e' hok => .leftover tmp n e e' hfresh hok⟩
      | none =>
        have hfull := exec_rename_staged hnew hx
        rw [hn rfl, List.take_length] at hfull
        subst hfull
        refine ⟨hwritten, safe_quiet rfl hwritten fun e => ?_⟩
        exact safe_renamed hwritten hfresh hname (.written e)

/-- What a verified write leaves; the target appears only with the declared contents. -/
def Verified (K : Base.Crypto) (s : Disk Dir) (d : Dir) (path : String) (r : Reader) (desc : Descriptor) (e : Option String)
    (s' : Disk Dir) : Prop :=
  (e = none ∧ (r.bytes.length : ℤ) = desc.size ∧ Base.digest K r.bytes = desc.digest ∧
    s' = s.put d path r.bytes) ∨
  (e ≠ none ∧ (s' = s ∨ ∃ tmp n, Fresh s d ".download-" tmp ∧
    s' = staged s d tmp (r.bytes.take (desc.size.toNat + 1)) n))

/-- A source whose limited contents have the declared size was copied completely. -/
theorem take_limit {bytes : Bytes} {size : ℤ} (hsize : 0 ≤ size)
    (h : ((bytes.take (size.toNat + 1)).length : ℤ) = size) :
    bytes.take (size.toNat + 1) = bytes := by
  apply List.take_of_length_le
  rw [List.length_take] at h
  omega

theorem safe_writeVerified {K : Base.Crypto} {path : String} {r : Reader} {desc : Descriptor}
    (hpath : ¬ ".download-".toList <+: path.toList) (hs : inv s)
    (hstaged : ∀ tmp n, Fresh s d ".download-" tmp →
      inv (staged s d tmp (r.bytes.take (desc.size.toNat + 1)) n))
    (hwritten : (r.bytes.length : ℤ) = desc.size → Base.digest K r.bytes = desc.digest →
      inv (s.put d path r.bytes)) :
    Machine.Safe ⟨FileOps.exec, code, crash⟩ ok inv (Verified K s d path r desc)
      (writeVerified K d path r desc) s := by
  have hnothing : ∀ e : String, Verified K s d path r desc (some e) s :=
    fun e => Or.inr ⟨by simp, Or.inl rfl⟩
  unfold writeVerified
  cases hexDigest : Base.hexDigest desc.digest with
  | error e => exact hnothing e
  | ok hex =>
    dsimp only
    split
    · exact hnothing _
    refine safe_quiet rfl hs fun
      | some e => hnothing e
      | none => ?_
    refine safe_file fun created s' _ hx => ?_
    cases created with
    | error e =>
      cases hx
      exact ⟨hs, hnothing e⟩
    | ok tmp =>
      obtain ⟨hpattern, hnew, rfl⟩ := exec_createTemp hx
      have hfresh : Fresh s d ".download-" tmp := ⟨hpattern, hnew⟩
      have hinv : ∀ n, inv (staged s d tmp (r.bytes.take (desc.size.toNat + 1)) n) :=
        fun n => hstaged tmp n hfresh
      have hdiscard : ∀ n (e : String), Machine.Safe ⟨FileOps.exec, code, crash⟩ ok inv
          (Verified K s d path r desc) (file (.remove d tmp) >>= fun _ => pure (some e))
          (staged s d tmp (r.bytes.take (desc.size.toNat + 1)) n) := fun n e =>
        safe_discard hs (hinv n) hfresh (hnothing e)
          fun _ _ => Or.inr ⟨by simp, Or.inr ⟨tmp, n, hfresh, rfl⟩⟩
      refine ⟨hinv 0, Machine.Safe.bind _
        (safe_copy (r := r.limit (desc.size.toNat + 1)) hinv) fun copied s' hfilled => ?_⟩
      obtain ⟨n, rfl, hn⟩ := hfilled
      cases copied with
      | some e => exact hdiscard n e
      | none => ?_
      obtain rfl := hn rfl
      refine safe_file fun content s' _ hx => ?_
      obtain rfl := exec_quiet rfl hx
      refine ⟨hinv _, ?_⟩
      cases content with
      | error e => exact hdiscard _ e
      | ok c => ?_
      have hc := exec_readFile hx
      rw [show ((staged s d tmp (r.limit (desc.size.toNat + 1)).bytes
        (r.limit (desc.size.toNat + 1)).bytes.length) d).lookup tmp =
          some (r.limit (desc.size.toNat + 1)).bytes by
        rw [lookup_staged, List.take_length]] at hc
      cases hc
      dsimp only
      split
      · exact hdiscard _ _
      rename_i hmatch
      have hlimit : (r.limit (desc.size.toNat + 1)).bytes = r.bytes :=
        take_limit (by omega) (by simpa [Reader.limit] using (not_or.1 hmatch).1)
      rw [hlimit, not_or, not_not, not_not] at hmatch
      refine safe_file fun renamed s' _ hx => ?_
      cases renamed with
      | some e =>
        cases hx
        exact ⟨hinv _, hdiscard _ e⟩
      | none =>
        have hfull := exec_rename_staged hnew hx
        rw [List.take_length, hlimit] at hfull
        subst hfull
        have hdone := hwritten hmatch.1 hmatch.2
        exact ⟨hdone, safe_renamed hdone hfresh hpath
          (Or.inl ⟨rfl, hmatch.1, hmatch.2, rfl⟩)⟩

end
end Niflhel.Fsutil
