import Niflhel.Mounts
import Niflhel.Oracle
import Niflhel.UnpackMarker

/-!
# From a volume's disk to its mount

The host links the disk of the i-th mount to `volume-i.ext4` and makes it the drive after four
fixed ones. The guest mounts the i-th device after `/dev/vdd` on the i-th directory, and the
runtime binds that directory to the target. A container path is backed by the disk to which its
mount leads this way.
-/

namespace Niflhel

namespace Firecracker
open GoText

/-- A file of the jail: a link to a file of the host, or the disk with the boot data. -/
inductive Disk where
  | host (path : String)
  | seed
  deriving DecidableEq, Repr

abbrev Jail := List (String × Disk)

def volumePath (root name : String) : Except String String :=
  if !validName name then .error "invalid volume name"
  else .ok (pathClean (joinSlash ([root, "volumes", name ++ ".ext4"].filter fun x => x != "")))

structure Drive where
  id : String
  path : String
  root : Bool
  readOnly : Bool
  deriving DecidableEq, Repr

def volumeDrive (i : ℕ) (m : Mount) : Drive :=
  ⟨"volume-" ++ toString i, "/volume-" ++ toString i ++ ".ext4", false, m.readOnly⟩

def buildDrives (mounts : List Mount) : List Drive :=
  [⟨"base-root", "/base.ext4", true, true⟩, ⟨"bootstrap", "/bootstrap.ext4", false, true⟩,
    ⟨"app-image", "/app.ext4", false, true⟩, ⟨"state", "/state.ext4", false, false⟩] ++
    mounts.mapIdx volumeDrive

structure Sources where
  kernel : String
  base : String
  app : String
  state : String

section
variable (fault : String → Option String)

/-- A link of `Start`, which fails for the targets that `fault` names. -/
def link (jail : Jail) (source target : String) : Except String Jail :=
  match fault target with
  | some e => .error e
  | none => .ok (Directory.put jail target (.host source))

def linkVolumes (root : String) : ℕ → List Mount → Jail → Except String Jail
  | _, [], jail => .ok jail
  | i, m :: rest, jail => do
    let path ← volumePath root m.name
    let jail ← link fault jail path ("/volume-" ++ toString i ++ ".ext4")
    linkVolumes root (i + 1) rest jail

def startFiles (root : String) (src : Sources) (mounts : List Mount) (jail : Jail) :
    Except String Jail := do
  let jail ← link fault jail src.kernel "/kernel"
  let jail ← link fault jail src.base "/base.ext4"
  let jail ← link fault jail src.app "/app.ext4"
  let jail ← link fault jail src.state "/state.ext4"
  let jail ← linkVolumes fault root 0 mounts jail
  match fault "/bootstrap.ext4" with
  | some e => .error e
  | none => .ok (Directory.put jail "/bootstrap.ext4" .seed)

end

/-- The order in which drives become devices: the root first. -/
def attached (drives : List Drive) : List Drive :=
  drives.filter Drive.root ++ drives.filter fun d => !d.root

def driveAt (drives : List Drive) (device : String) : Option Drive :=
  (attached drives).zipIdx.findSome? fun (d, k) =>
    if device = "/dev/vd" ++ String.singleton (Char.ofNat (97 + k)) then some d else none

end Firecracker

variable {source target : String}

namespace Guest
open Concurrent GoText

def mountNote : (o : Op) → o.Reply → List (List String)
  | .outside ("mount" :: args), none => [args]
  | _, _ => []

/-- A drive other than the root is busy only if the run has mounted it. -/
def busyLaw (log : List (List String)) : (o : Op) → o.Reply → Prop
  | .outside ("mount" :: source :: _), some e =>
    e = "EBUSY" → hasPrefix source "/dev/vd" = true → source ≠ "/dev/vda" →
      ∃ args ∈ log, args.head? = some source
  | _, _ => True

def volumeDevice (i : ℕ) : String := "/dev/vd" ++ String.singleton (Char.ofNat (101 + i))

def volumeDir (i : ℕ) : String := "/run/niflhel/volumes/" ++ toString i

def volumeArgs (i : ℕ) (m : Mount) : List String :=
  [volumeDevice i, volumeDir i, "ext4", if m.readOnly then "ro" else ""]

def setUp (K : Base.Crypto) (F : Formats) (b : Bootstrap) : Calls (Option String) :=
  sequence [initializeGuest b, prepare K F b]

def mountAt (log : List (List String)) (path : String) : Option (List String) :=
  log.reverse.find? fun args => decide (Runtime.Covers (args.getD 1 "") path)

section
open Program (outcome noted Lawful noted_bind lawful_bind outcome_bind outcome_perform
  noted_perform lawful_perform)
variable {w : ℕ → (o : Op) → o.Reply} {t t' : ℕ} {log : List (List String)}
  {p : Calls (Option String)} {ps qs : List (Calls (Option String))}

theorem sequence_cons (h : outcome w t (sequence (p :: ps)) = (none, t'))
    (hlaw : Lawful mountNote busyLaw w t log (sequence (p :: ps))) :
    ∃ t₁, outcome w t p = (none, t₁) ∧ Lawful mountNote busyLaw w t log p ∧
      outcome w t₁ (sequence ps) = (none, t') ∧
      Lawful mountNote busyLaw w t₁ (log ++ noted mountNote w t p) (sequence ps) ∧
      noted mountNote w t (sequence (p :: ps)) =
        noted mountNote w t p ++ noted mountNote w t₁ (sequence ps) := by
  rw [sequence] at h hlaw ⊢
  rw [outcome_bind] at h
  rw [lawful_bind] at hlaw
  rw [noted_bind]
  cases hp : outcome w t p with
  | mk result t₁ =>
    rw [hp] at h hlaw
    cases result with
    | none => exact ⟨t₁, rfl, hlaw.1, h, hlaw.2, rfl⟩
    | some e => cases h

theorem sequence_append (h : outcome w t (sequence (ps ++ qs)) = (none, t'))
    (hlaw : Lawful mountNote busyLaw w t log (sequence (ps ++ qs))) :
    ∃ t₁, outcome w t (sequence ps) = (none, t₁) ∧
      Lawful mountNote busyLaw w t log (sequence ps) ∧
      outcome w t₁ (sequence qs) = (none, t') ∧
      Lawful mountNote busyLaw w t₁ (log ++ noted mountNote w t (sequence ps)) (sequence qs) ∧
      noted mountNote w t (sequence (ps ++ qs)) =
        noted mountNote w t (sequence ps) ++ noted mountNote w t₁ (sequence qs) := by
  induction ps generalizing t log with
  | nil =>
    have hnil : noted mountNote w t (sequence []) = [] := rfl
    refine ⟨t, rfl, trivial, h, ?_, rfl⟩
    rw [hnil, List.append_nil]
    exact hlaw
  | cons p ps ih =>
    rw [List.cons_append] at h hlaw ⊢
    obtain ⟨t₁, hp, hplaw, hrest, hrestlaw, hnoted⟩ := sequence_cons h hlaw
    obtain ⟨t₂, hps, hpslaw, hqs, hqslaw, hsplit⟩ := ih hrest hrestlaw
    have hcons : outcome w t (sequence (p :: ps)) = (none, t₂) := by
      rw [sequence, outcome_bind, hp]
      exact hps
    have hconslaw : Lawful mountNote busyLaw w t log (sequence (p :: ps)) := by
      rw [sequence, lawful_bind, hp]
      exact ⟨hplaw, hpslaw⟩
    have hconsnoted : noted mountNote w t (sequence (p :: ps)) =
        noted mountNote w t p ++ noted mountNote w t₁ (sequence ps) := by
      rw [sequence, noted_bind, hp]
    refine ⟨t₂, hcons, hconslaw, hqs, ?_, ?_⟩
    · rw [hconsnoted, ← List.append_assoc]
      exact hqslaw
    · rw [hnoted, hsplit, hconsnoted, List.append_assoc]

/-- A mount of a drive that is not mounted yet. -/
theorem mountOutside_noted {kind flags : String}
    (h : outcome w t (mountOutside source target kind flags) = (none, t'))
    (hlaw : Lawful mountNote busyLaw w t log (mountOutside source target kind flags))
    (hdrive : hasPrefix source "/dev/vd" = true) (hroot : source ≠ "/dev/vda")
    (hnew : ∀ args ∈ log, args.head? ≠ some source) :
    noted mountNote w t (mountOutside source target kind flags) = [[source, target, kind, flags]] := by
  unfold mountOutside mount run at h hlaw ⊢
  rw [outcome_bind, outcome_perform] at h
  rw [lawful_bind, outcome_perform, noted_perform] at hlaw
  rw [noted_bind, outcome_perform, noted_perform]
  obtain ⟨-, hlaw⟩ := hlaw
  cases hmade : w t (.outside ["mkdir", target]) with
  | some e =>
    rw [hmade] at h
    cases h
  | none =>
    rw [hmade] at h hlaw
    rw [noted_bind, outcome_perform, noted_perform]
    rw [outcome_bind, outcome_perform] at h
    rw [lawful_bind, lawful_perform] at hlaw
    cases hreply : w (t + 1) (.outside ["mount", source, target, kind, flags]) with
    | none => rfl
    | some e =>
      rw [hreply] at h hlaw
      dsimp only at h
      by_cases hbusy : e = "EBUSY"
      · obtain ⟨args, hargs, hsource⟩ := hlaw.1 hbusy hdrive hroot
        exact absurd hsource (hnew args (by simpa [mountNote] using hargs))
      · rw [if_neg hbusy] at h
        cases h

theorem volumeDevice_drive {i : ℕ} (hi : i < 8) : hasPrefix (volumeDevice i) "/dev/vd" = true ∧
    volumeDevice i ≠ "/dev/vda" := by
  have hall : ∀ i < 8, hasPrefix (volumeDevice i) "/dev/vd" = true ∧ volumeDevice i ≠ "/dev/vda" := by
    decide +kernel
  exact hall i hi

theorem volumeDevice_inj {i j : ℕ} (hi : i < 8) (hj : j < 8) (h : volumeDevice i = volumeDevice j) :
    i = j := by
  have hall : ∀ i < 8, ∀ j < 8, volumeDevice i = volumeDevice j → i = j := by decide +kernel
  exact hall i hi j hj h

theorem volumes_noted {k : ℕ} {ms : List Mount} (hk : k + ms.length ≤ 8)
    (h : outcome w t (sequence (ms.mapIdx fun i m => mountVolume (k + i) m)) = (none, t'))
    (hlaw : Lawful mountNote busyLaw w t log (sequence (ms.mapIdx fun i m => mountVolume (k + i) m)))
    (hnew : ∀ j, k ≤ j → j < 8 → ∀ args ∈ log, args.head? ≠ some (volumeDevice j)) :
    noted mountNote w t (sequence (ms.mapIdx fun i m => mountVolume (k + i) m)) =
      ms.mapIdx fun i m => volumeArgs (k + i) m := by
  induction ms generalizing k t log with
  | nil => rfl
  | cons m ms ih =>
    rw [List.length_cons] at hk
    have hshift : ∀ {β : Type} (f : ℕ → Mount → β), (m :: ms).mapIdx (fun i m => f (k + i) m) =
        f k m :: ms.mapIdx fun i m => f (k + 1 + i) m := by
      intro β f
      rw [List.mapIdx_cons]
      congr 1
      congr 1
      funext i
      rw [Nat.add_assoc, Nat.add_comm 1 i]
    rw [hshift] at h hlaw ⊢
    obtain ⟨t₁, hfirst, hfirstlaw, hrest, hrestlaw, hnoted⟩ := sequence_cons h hlaw
    obtain ⟨hdrive, hroot⟩ := @volumeDevice_drive k (by omega)
    have hone : noted mountNote w t (mountVolume k m) = [volumeArgs k m] :=
      mountOutside_noted hfirst hfirstlaw hdrive hroot (hnew k le_rfl (by omega))
    rw [hone] at hnoted hrestlaw
    rw [hnoted, hshift, ih (by omega) hrest hrestlaw ?_]
    · rfl
    · intro j hj hj' args hargs
      rcases List.mem_append.1 hargs with hargs | hargs
      · exact hnew j (by omega) hj' args hargs
      · rw [List.mem_singleton.1 hargs]
        intro hsame
        have hkj := volumeDevice_inj (by omega) hj' (Option.some.inj hsame)
        omega

def resolverFile : String := "/run/niflhel/resolv.conf"

/-- Not a mount of a volume's device, and none that hides the file with the name servers, but
for that of `/run` itself. -/
structure Apart (source target : String) : Prop where
  device : ∀ j < 8, source ≠ volumeDevice j
  file : Runtime.Covers target resolverFile → source = "tmpfs"

def Spare (args : List String) : Prop := Apart (args.getD 0 "") (args.getD 1 "")

def spared (o : Op) : Prop := ∀ r, ∀ args ∈ mountNote o r, Spare args

def inside : Op → Prop
  | .outside _ => False
  | _ => True

theorem spared_of_inside {o : Op} (h : inside o) : spared o := by
  intro r args hargs
  cases o with
  | outside args => exact h.elim
  | _ => cases hargs

variable {command : String} {args : List String}

theorem mountNote_of_ne (h : command ≠ "mount")
    (r : Op.Reply (.outside (command :: args))) : mountNote (.outside (command :: args)) r = [] := by
  unfold mountNote
  split
  · rename_i heq
    exact absurd (List.cons.inj (Op.outside.inj heq)).1 h
  · rfl

theorem spared_outside (h : command ≠ "mount") : spared (.outside (command :: args)) := by
  intro r noted hnoted
  rw [mountNote_of_ne h] at hnoted
  cases hnoted

theorem spared_mount {rest : List String} (h : Apart source target) :
    spared (.outside ("mount" :: source :: target :: rest)) := by
  intro r args hargs
  cases r with
  | none =>
    rw [List.mem_singleton.1 hargs]
    exact h
  | some e => cases hargs

theorem uses_run_spared (h : command ≠ "mount") : (run (command :: args)).Uses spared :=
  ⟨spared_outside h, fun _ => trivial⟩

theorem uses_mountOutside_spared {kind flags : String} (h : Apart source target) :
    (mountOutside source target kind flags).Uses spared :=
  uses_mount (uses_run_spared (by decide)) (spared_mount h)

theorem uses_perform_inside {o : Op} (h : inside o) : (perform o).Uses inside := ⟨h, fun _ => trivial⟩

theorem uses_initializeGuest_spared {b : Bootstrap} : (initializeGuest b).Uses spared := by
  have hall : ∀ x ∈ [("devtmpfs", "/dev"), ("devpts", "/dev/pts"), ("proc", "/proc"), ("sysfs", "/sys"),
      ("tmpfs", "/run"), ("tmpfs", "/tmp"), ("cgroup2", "/sys/fs/cgroup"), ("/dev/vdb", "/bootstrap"),
      ("/dev/vdc", "/app-image"), ("/dev/vdd", "/state")], (∀ j < 8, x.1 ≠ volumeDevice j) ∧
      (Runtime.Covers x.2 resolverFile → x.1 = "tmpfs") := by decide +kernel
  have hapart : ∀ x ∈ [("devtmpfs", "/dev"), ("devpts", "/dev/pts"), ("proc", "/proc"), ("sysfs", "/sys"),
      ("tmpfs", "/run"), ("tmpfs", "/tmp"), ("cgroup2", "/sys/fs/cgroup"), ("/dev/vdb", "/bootstrap"),
      ("/dev/vdc", "/app-image"), ("/dev/vdd", "/state")], Apart x.1 x.2 :=
    fun x hx => ⟨(hall x hx).1, (hall x hx).2⟩
  simp only [List.forall_mem_cons, List.not_mem_nil, false_imp_iff, implies_true, and_true] at hapart
  obtain ⟨h1, h2, h3, h4, h5, h6, h7, h8, h9, h10⟩ := hapart
  have hcheck : (if b.protocol ≠ 1 ∨ b.id ≠ b.sandbox.id then
      (return some "bootstrap identity mismatch") else return none : Calls (Option String)).Uses spared := by
    split_ifs <;> trivial
  have hmkdir : ∀ name, (perform (.mkdirAll name)).Uses spared :=
    fun name => ⟨spared_of_inside trivial, fun _ => trivial⟩
  refine uses_sequence ?_
  simp only [List.forall_mem_cons, List.not_mem_nil, false_imp_iff, implies_true, and_true]
  exact ⟨uses_mountOutside_spared h1, uses_mountOutside_spared h2, uses_mountOutside_spared h3,
    uses_mountOutside_spared h4, uses_mountOutside_spared h5, uses_mountOutside_spared h6,
    uses_mountOutside_spared h7, uses_mountOutside_spared h8, uses_run_spared (by decide), hcheck,
    uses_mountOutside_spared h9, uses_mountOutside_spared h10, uses_run_spared (by decide),
    hmkdir _, hmkdir _, hmkdir _, hmkdir _, uses_ignore (uses_run_spared (by decide)),
    uses_run_spared (by decide), uses_ignore (uses_run_spared (by decide))⟩

theorem uses_discard_inside {β : Type} {tmp : String} {a : β} : (discard tmp a).Uses inside :=
  ⟨trivial, fun _ => trivial⟩

theorem uses_applyEdits_inside {dest : String} {err : Option String} {edits : List Edit} :
    (applyEdits dest err edits).Uses inside := by
  induction edits with
  | nil => trivial
  | cons e rest ih =>
    exact Program.uses_perform trivial fun
      | none => ih
      | some m => trivial

section unpacking
variable {K : Base.Crypto} {F : Formats} {b : Bootstrap} {dest tmp diffID : String}

theorem uses_applyLayer_inside {entries : ℕ} : (applyLayer K F dest tmp diffID entries).Uses inside := by
  refine Program.uses_perform trivial fun
    | .error e => uses_discard_inside
    | .ok data => ?_
  dsimp only
  split_ifs
  · exact uses_discard_inside
  · refine Program.uses_perform trivial fun
      | .error e => trivial
      | .ok data => ?_
    dsimp only
    split
    · exact uses_discard_inside
    · exact Program.uses_bind uses_applyEdits_inside fun
        | some e => uses_discard_inside
        | none => uses_discard_inside

theorem uses_unpackLayer_inside {maxBytes total : ℤ} {entries : ℕ} {d : Descriptor} :
    (unpackLayer K F dest maxBytes total entries d diffID).Uses inside := by
  unfold unpackLayer
  split
  · trivial
  · refine Program.uses_perform trivial fun
      | .error e => trivial
      | .ok c => ?_
    dsimp only
    split_ifs
    · trivial
    · refine Program.uses_bind ?_ fun r => ?_
      · refine Program.uses_perform trivial fun r => ?_
        cases r <;> trivial
      · cases r with
        | error e => trivial
        | ok r =>
          refine Program.uses_perform trivial fun
            | .error e => trivial
            | .ok tmp => ?_
          refine Program.uses_perform trivial fun x => ?_
          obtain ⟨n, e⟩ := x
          refine Program.uses_perform trivial fun _ => ?_
          split_ifs
          · exact uses_discard_inside
          · refine Program.uses_bind uses_applyLayer_inside fun r => ?_
            cases r <;> trivial

theorem uses_unpackLayers_inside {maxBytes total : ℤ} {entries : ℕ}
    {layers : List (Descriptor × String)} :
    (unpackLayers K F dest maxBytes layers total entries).Uses inside := by
  induction layers generalizing total entries with
  | nil => trivial
  | cons l rest ih =>
    exact Program.uses_bind uses_unpackLayer_inside fun
      | .error e => trivial
      | .ok x => ih

theorem uses_unpackImage_inside : (unpackImage K F b).Uses inside := by
  refine Program.uses_perform trivial fun _ => ?_
  refine Program.uses_perform trivial fun _ => ?_
  refine Program.uses_perform trivial fun
    | some e => trivial
    | none => ?_
  have hunpack : (unpack K F "unpack" (b.sandbox.spec.diskSize.tdiv 2)).Uses inside := by
    refine Program.uses_perform trivial fun
      | .error e => trivial
      | .ok img => ?_
    dsimp only
    split_ifs
    · trivial
    · exact uses_unpackLayers_inside
  refine Program.uses_bind hunpack fun
    | some e => trivial
    | none => ?_
  refine Program.uses_perform trivial fun
    | some e => trivial
    | none => ?_
  refine Program.uses_bind ?_ fun _ => trivial
  exact Program.uses_expand _ (Program.uses_true _) fun o _ => uses_perform_inside trivial

end unpacking

section starting
variable {K : Base.Crypto} {F : Formats} {b : Bootstrap}

theorem head_ne_of_spare (h : Spare args) (j : ℕ) (hj : j < 8) :
    args.head? ≠ some (volumeDevice j) := by
  cases args with
  | nil => exact nofun
  | cons source rest => exact fun hsource => h.device j hj (Option.some.inj hsource)

theorem spare_noted {p : Calls (Option String)} (hp : p.Uses spared) :
    ∀ args ∈ noted mountNote w t p, Spare args := fun _ hargs => hp.of_noted hargs

def silent (o : Op) : Prop := ∀ r, ∀ args ∈ mountNote o r, False

theorem noted_of_silent {p : Calls (Option String)} (hp : p.Uses silent) : noted mountNote w t p = [] :=
  List.eq_nil_iff_forall_not_mem.2 fun _ hargs => hp.of_noted hargs

theorem uses_run_silent (h : command ≠ "mount") : (run (command :: args)).Uses silent := by
  refine ⟨fun r noted hnoted => ?_, fun _ => trivial⟩
  rw [mountNote_of_ne h] at hnoted
  cases hnoted

theorem uses_prepareNetwork_silent : (prepareNetwork b).Uses silent := by
  refine uses_sequence fun p hp => ?_
  obtain ⟨args, hargs, rfl⟩ := List.mem_map.1 hp
  rcases List.mem_append.1 hargs with hargs | hargs
  · have hall : ∀ args ∈ networkCommands, args.head? ≠ some "mount" ∧ args ≠ [] := by decide +kernel
    obtain ⟨hhead, hne⟩ := hall args hargs
    cases args with
    | nil => exact absurd rfl hne
    | cons command rest => exact uses_run_silent fun heq => hhead (by rw [heq]; rfl)
  · obtain ⟨port, -, rfl⟩ := List.mem_map.1 hargs
    exact uses_run_silent (by decide)

/-- The mounts of `Prepare` end with the volumes. -/
theorem assemble_noted (hlen : b.sandbox.spec.mounts.length ≤ 8)
    (h : outcome w t (assemble b) = (none, t')) (hlaw : Lawful mountNote busyLaw w t log (assemble b))
    (hlog : ∀ args ∈ log, Spare args) :
    ∃ front, noted mountNote w t (assemble b) = front ++ b.sandbox.spec.mounts.mapIdx volumeArgs ∧
      ∀ args ∈ front, Spare args := by
  obtain ⟨t₃, h₃, hlaw₃, -, -, hnoted₃⟩ := sequence_append h hlaw
  obtain ⟨t₂, h₂, hlaw₂, -, -, hnoted₂⟩ := sequence_append h₃ hlaw₃
  obtain ⟨t₁, h₁, -, hvolumes, hvolumeslaw, hnoted₁⟩ := sequence_append h₂ hlaw₂
  have hoverlay : ∀ args ∈ noted mountNote w t (sequence [mount
      (perform (.edit "bundle" (.put "rootfs" .directory))) ["overlay", "/state/bundle/rootfs",
        "overlay", "lowerdir=/state/lower,upperdir=/state/upper,workdir=/state/work"]]), Spare args := by
    refine spare_noted (uses_sequence fun p hp => ?_)
    rw [List.mem_singleton.1 hp]
    refine uses_mount ⟨spared_of_inside trivial, fun _ => trivial⟩ (spared_mount ⟨?_, ?_⟩)
    · decide +kernel
    · decide +kernel
  have hindex : b.sandbox.spec.mounts.mapIdx mountVolume =
      b.sandbox.spec.mounts.mapIdx fun i m => mountVolume (0 + i) m := by simp only [Nat.zero_add]
  have hrest : noted mountNote w t₂ (sequence (if b.sandbox.spec.network = "bridge" then
      [prepareNetwork b] else [])) = [] := by
    refine noted_of_silent (uses_sequence fun p hp => ?_)
    split_ifs at hp
    · rw [List.mem_singleton.1 hp]
      exact uses_prepareNetwork_silent
    · cases hp
  have hwrite : ∀ text, noted mountNote w t₃ (sequence [run ["write", "/run/niflhel/resolv.conf", text]]) =
      [] := by
    intro text
    refine noted_of_silent (uses_sequence fun p hp => ?_)
    rw [List.mem_singleton.1 hp]
    exact uses_run_silent (by decide)
  rw [hindex] at hvolumes hvolumeslaw
  have hmounted := volumes_noted (by omega) hvolumes hvolumeslaw fun j _ hj args hargs =>
    head_ne_of_spare ((List.mem_append.1 hargs).elim (hlog args) (hoverlay args)) j hj
  refine ⟨_, ?_, hoverlay⟩
  unfold assemble
  rw [hnoted₃, hnoted₂, hnoted₁, hrest, hwrite, hindex, hmounted]
  simp only [Nat.zero_add, List.append_nil]

theorem prepare_noted (hlen : b.sandbox.spec.mounts.length ≤ 8)
    (h : outcome w t (prepare K F b) = (none, t'))
    (hlaw : Lawful mountNote busyLaw w t log (prepare K F b)) (hlog : ∀ args ∈ log, Spare args) :
    ∃ front, noted mountNote w t (prepare K F b) = front ++ b.sandbox.spec.mounts.mapIdx volumeArgs ∧
      ∀ args ∈ front, Spare args := by
  have hread : ∀ r, mountNote .readMarker r = [] := fun _ => rfl
  unfold prepare at h hlaw ⊢
  rw [outcome_bind, outcome_perform] at h
  rw [lawful_bind, outcome_perform, noted_perform, hread, List.append_nil] at hlaw
  rw [noted_bind, outcome_perform, noted_perform, hread, List.nil_append]
  obtain ⟨-, hlaw⟩ := hlaw
  split_ifs at h hlaw ⊢
  · rw [outcome_bind] at h
    rw [lawful_bind] at hlaw
    rw [noted_bind]
    obtain ⟨-, hlaw⟩ := hlaw
    have hunpack : ∀ args ∈ noted mountNote w (t + 1) (unpackImage K F b), Spare args :=
      spare_noted (uses_unpackImage_inside.mono fun o ho => spared_of_inside ho)
    cases hend : outcome w (t + 1) (unpackImage K F b) with
    | mk result t₁ =>
      rw [hend] at h hlaw
      cases result with
      | some e => cases h
      | none =>
        obtain ⟨front, hfront, hspare⟩ := assemble_noted hlen h hlaw fun args hargs =>
          (List.mem_append.1 hargs).elim (hlog args) (hunpack args)
        refine ⟨noted mountNote w (t + 1) (unpackImage K F b) ++ front, ?_, ?_⟩
        · rw [List.append_assoc, ← hfront]
        · exact fun args hargs => (List.mem_append.1 hargs).elim (hunpack args) (hspare args)
  · exact assemble_noted hlen h hlaw hlog

theorem setUp_noted (hlen : b.sandbox.spec.mounts.length ≤ 8)
    (h : outcome w t (setUp K F b) = (none, t')) (hlaw : Lawful mountNote busyLaw w t [] (setUp K F b)) :
    ∃ front, noted mountNote w t (setUp K F b) = front ++ b.sandbox.spec.mounts.mapIdx volumeArgs ∧
      ∀ args ∈ front, Spare args := by
  obtain ⟨t₁, -, -, h₁, hlaw₁, hnoted⟩ := sequence_cons h hlaw
  obtain ⟨t₂, h₂, hlaw₂, -, -, hnoted₂⟩ := sequence_cons h₁ hlaw₁
  have hinit : ∀ args ∈ noted mountNote w t (initializeGuest b), Spare args :=
    spare_noted uses_initializeGuest_spared
  obtain ⟨front, hfront, hspare⟩ := prepare_noted hlen h₂ hlaw₂ hinit
  refine ⟨noted mountNote w t (initializeGuest b) ++ front, ?_, ?_⟩
  · unfold setUp
    rw [hnoted, hnoted₂, hfront]
    have hend : noted mountNote w t₂ (sequence []) = [] := rfl
    rw [hend, List.append_nil, List.append_assoc]
  · intro args hargs
    exact (List.mem_append.1 hargs).elim (hinit args) (hspare args)

end starting

end
end Guest

namespace Firecracker
open GoText

section
variable {fault : String → Option String} {root : String} {jail jail' : Jail} {ms : List Mount} {k i : ℕ}

def volumeFile (i : ℕ) : String := "/volume-" ++ toString i ++ ".ext4"

theorem volumeFile_inj {i j : ℕ} (hi : i < 8) (hj : j < 8) (h : volumeFile i = volumeFile j) : i = j := by
  have hall : ∀ i < 8, ∀ j < 8, volumeFile i = volumeFile j → i = j := by decide +kernel
  exact hall i hi j hj h

theorem link_eq_ok (h : link fault jail source target = .ok jail') :
    jail' = Directory.put jail target (.host source) := by
  unfold link at h
  split at h
  · cases h
  · exact (Except.ok.inj h).symm

theorem linkVolumes_lookup (hk : k + ms.length ≤ 8)
    (h : linkVolumes fault root k ms jail = .ok jail') :
    (∀ x, (∀ j < 8, k ≤ j → x ≠ volumeFile j) → jail'.lookup x = jail.lookup x) ∧
      ∀ i m, ms[i]? = some m → ∃ path, volumePath root m.name = .ok path ∧
        jail'.lookup (volumeFile (k + i)) = some (.host path) := by
  induction ms generalizing k jail with
  | nil =>
    cases h
    exact ⟨fun _ _ => rfl, by simp⟩
  | cons m ms ih =>
    rw [List.length_cons] at hk
    rw [linkVolumes] at h
    cases hpath : volumePath root m.name with
    | error e =>
      rw [hpath] at h
      cases h
    | ok path =>
      rw [hpath] at h
      cases hlink : link fault jail path ("/volume-" ++ toString k ++ ".ext4") with
      | error e =>
        simp only [bind, Except.bind] at h
        rw [hlink] at h
        cases h
      | ok next =>
        simp only [bind, Except.bind] at h
        rw [hlink] at h
        have hnext : next = Directory.put jail (volumeFile k) (.host path) := link_eq_ok hlink
        obtain ⟨hother, hvolumes⟩ := ih (by omega) h
        refine ⟨fun x hx => ?_, fun i m' hm' => ?_⟩
        · rw [hother x fun j hj hkj => hx j hj (by omega), hnext,
            Directory.lookup_put_ne _ _ (hx k (by omega) le_rfl)]
        · cases i with
          | zero =>
            cases hm'
            refine ⟨path, hpath, ?_⟩
            rw [Nat.add_zero, hother, hnext, Directory.lookup_put_self]
            intro j hj hkj heq
            have hsame := volumeFile_inj (by omega) hj heq
            omega
          | succ i =>
            obtain ⟨path', hpath', hlookup⟩ := hvolumes i m' hm'
            refine ⟨path', hpath', ?_⟩
            rwa [Nat.add_assoc, Nat.add_comm 1 i] at hlookup

theorem startFiles_lookup {src : Sources} (hlen : ms.length ≤ 8)
    (h : startFiles fault root src ms jail = .ok jail') {m : Mount} (hm : ms[i]? = some m) :
    ∃ path, volumePath root m.name = .ok path ∧ jail'.lookup (volumeFile i) = some (.host path) := by
  unfold startFiles at h
  simp only [bind, Except.bind] at h
  split at h
  · cases h
  split at h
  · cases h
  split at h
  · cases h
  split at h
  · cases h
  split at h
  · cases h
  rename_i linked hlinked
  split at h
  · cases h
  obtain ⟨path, hpath, hlookup⟩ := (linkVolumes_lookup (by omega) hlinked).2 i m hm
  refine ⟨path, hpath, ?_⟩
  have hi : i < 8 := by
    have hlt := (List.getElem?_eq_some_iff.1 hm).1
    omega
  have hne : volumeFile i ≠ "/bootstrap.ext4" := by
    have hall : ∀ i < 8, volumeFile i ≠ "/bootstrap.ext4" := by decide +kernel
    exact hall i hi
  rw [← Except.ok.inj h, Directory.lookup_put_ne _ _ hne]
  rwa [Nat.zero_add] at hlookup

def letter (k : ℕ) : String := "/dev/vd" ++ String.singleton (Char.ofNat (97 + k))

theorem letter_inj {i j : ℕ} (hi : i < 12) (hj : j < 12) (h : letter i = letter j) : i = j := by
  have hall : ∀ i < 12, ∀ j < 12, letter i = letter j → i = j := by decide +kernel
  exact hall i hi j hj h

theorem findSome_zipIdx {drives : List Drive} (hk : k + drives.length ≤ 12) (hi : i < drives.length) :
    ((drives.zipIdx k).findSome? fun (d, n) => if letter (k + i) = letter n then some d else none) =
      drives[i]? := by
  induction drives generalizing k i with
  | nil => simp at hi
  | cons d drives ih =>
    rw [List.length_cons] at hk hi
    rw [List.zipIdx_cons]
    cases i with
    | zero => simp
    | succ i => ?_
    have hne : letter (k + (i + 1)) ≠ letter k := by
      intro heq
      have hsame := letter_inj (by omega) (by omega) heq
      omega
    have hrest := @ih (k + 1) i (by omega) (by omega)
    rw [Nat.add_assoc, Nat.add_comm 1 i] at hrest
    rw [List.findSome?_cons]
    simp only [if_neg hne, List.getElem?_cons_succ]
    exact hrest

theorem attached_buildDrives : attached (buildDrives ms) = buildDrives ms := by
  have hvolumes : ∀ d ∈ ms.mapIdx volumeDrive, d.root = false := by
    intro d hd
    obtain ⟨i, hi, rfl⟩ := List.mem_mapIdx.1 hd
    rfl
  have hroot : (ms.mapIdx volumeDrive).filter Drive.root = [] :=
    List.filter_eq_nil_iff.2 fun d hd => by simp [hvolumes d hd]
  have hothers : (ms.mapIdx volumeDrive).filter (fun d => !d.root) = ms.mapIdx volumeDrive :=
    List.filter_eq_self.2 fun d hd => by simp [hvolumes d hd]
  unfold attached buildDrives
  rw [List.filter_append, List.filter_append, hroot, hothers]
  rfl

theorem length_buildDrives : (buildDrives ms).length = 4 + ms.length := by
  rw [buildDrives, List.length_append, List.length_mapIdx]
  rfl

theorem driveAt_volume (hlen : ms.length ≤ 8) {m : Mount} (hm : ms[i]? = some m) :
    driveAt (buildDrives ms) (Guest.volumeDevice i) = some (volumeDrive i m) := by
  have hi := (List.getElem?_eq_some_iff.1 hm).1
  have hdevice : Guest.volumeDevice i = letter (0 + (4 + i)) := by
    unfold Guest.volumeDevice letter
    rw [Nat.zero_add, ← Nat.add_assoc]
  have hlength := @length_buildDrives ms
  have hfind := @findSome_zipIdx 0 (4 + i) (buildDrives ms) (by omega) (by omega)
  unfold driveAt
  rw [attached_buildDrives, hdevice]
  refine hfind.trans ?_
  unfold buildDrives
  rw [List.getElem?_append_right (by simp)]
  simp [hm]

theorem driveAt_eq_none (hlen : ms.length ≤ 8) {device : String} (h : ∀ k < 12, device ≠ letter k) :
    driveAt (buildDrives ms) device = none := by
  have hlength := @length_buildDrives ms
  unfold driveAt
  rw [attached_buildDrives, List.findSome?_eq_none_iff]
  rintro ⟨d, k⟩ hd
  have hk : k < (buildDrives ms).length := by
    have hbound := List.snd_lt_of_mem_zipIdx hd
    omega
  exact if_neg (h k (by omega))

theorem isName_volume {name : String} (h : validName name = true) : IsName (name ++ ".ext4") := by
  have hlong : ∀ x : String, x.length < 5 → name ++ ".ext4" ≠ x := by
    rintro x hx rfl
    rw [String.length_append] at hx
    change _ + 5 < 5 at hx
    omega
  refine ⟨hlong _ (by decide), hlong _ (by decide), hlong _ (by decide), fun hslash => ?_⟩
  rw [String.toList_append, List.mem_append] at hslash
  rcases hslash with hslash | hslash
  · unfold validName at h
    split at h
    · rename_i hnil
      rw [hnil] at hslash
      cases hslash
    · rename_i c cs hcons
      rw [hcons] at hslash
      simp only [Bool.and_eq_true, List.all_eq_true] at h
      rcases List.mem_cons.1 hslash with rfl | hslash
      · exact absurd h.1.1 (by decide)
      · exact absurd (h.2 '/' hslash) (by decide)
  · exact absurd hslash (by decide)

theorem isAbs_append {s t : String} (hs : s ≠ "") : isAbs (s ++ t) = isAbs s := by
  cases htext : s.toList with
  | nil => exact absurd (String.toList_injective htext) hs
  | cons c cs =>
    have happend : (s ++ t).toList = c :: (cs ++ t.toList) := by
      rw [String.toList_append, htext, List.cons_append]
    rw [isAbs_of_toList htext, isAbs_of_toList happend]

/-- The path of a volume: its file in a directory that does not depend on it. -/
theorem volumePath_render (root : String) : ∃ rooted ps, ∀ name, validName name = true →
    volumePath root name = .ok (parentText rooted ps ++ (name ++ ".ext4")) := by
  have hfile : ∀ name, validName name = true → (name ++ ".ext4" != "") = true := by
    intro name hname
    exact bne_iff_ne.2 (isName_volume hname).nonempty
  have hdirs : ([root, "volumes"].filter fun x => x != "") ≠ [] := by
    by_cases hroot : root = ""
    · rw [hroot]
      decide
    · simp [hroot]
  refine ⟨isAbs (joinSlash ([root, "volumes"].filter fun x => x != "")),
    ((split (joinSlash ([root, "volumes"].filter fun x => x != "")) '/').foldl
      (cleanStep (isAbs (joinSlash ([root, "volumes"].filter fun x => x != "")))) []).reverse, ?_⟩
  intro name hname
  generalize hfirst : [root, "volumes"].filter (fun x => x != "") = dirs at hdirs ⊢
  have hlist : [root, "volumes", name ++ ".ext4"].filter (fun x => x != "") = dirs ++ [name ++ ".ext4"] := by
    have happend : [root, "volumes", name ++ ".ext4"] = [root, "volumes"] ++ [name ++ ".ext4"] := rfl
    rw [happend, List.filter_append, hfirst]
    exact congrArg _ (List.filter_cons_of_pos (hfile name hname))
  have habs : isAbs (joinSlash dirs ++ "/" ++ (name ++ ".ext4")) = isAbs (joinSlash dirs) := by
    rw [String.append_assoc, isAbs_append]
    rw [← hfirst]
    by_cases hroot : root = ""
    · rw [hroot]
      decide
    · have hboth : [root, "volumes"].filter (fun x => x != "") = [root, "volumes"] := by simp [hroot]
      rw [hboth]
      intro hnil
      have htext := congrArg String.toList hnil
      simp [joinSlash] at htext
  unfold volumePath
  rw [hname, hlist, joinSlash_concat _ hdirs, pathClean_eq, habs, split_append,
    split_of_not_mem (isName_volume hname).noSlash, List.foldl_append]
  have hstep : ∀ rooted stack, [name ++ ".ext4"].foldl (cleanStep rooted) stack = (name ++ ".ext4") :: stack := by
    intro rooted stack
    have hx := isName_volume hname
    simp [cleanStep, hx.nonempty, hx.notDot, hx.notDotDot]
  rw [hstep, List.reverse_cons, render_concat]
  rfl

theorem volumePath_inj {root a b path : String} (ha : validName a = true) (hb : validName b = true)
    (hpa : volumePath root a = .ok path) (hpb : volumePath root b = .ok path) : a = b := by
  obtain ⟨rooted, ps, hrender⟩ := volumePath_render root
  rw [hrender a ha] at hpa
  rw [hrender b hb, ← hpa] at hpb
  have htexts := congrArg String.toList (Except.ok.inj hpb)
  simp only [String.toList_append, List.append_cancel_left_eq, List.append_cancel_right_eq] at htexts
  exact (String.toList_injective htexts).symm

end
end Firecracker

namespace Plumbing
open Niflhel.Firecracker Niflhel.Guest Niflhel.Runtime GoText
open Concurrent.Program (outcome noted Lawful lawful_of_forall)

structure Route where
  guest : List String
  drive : Drive
  disk : Disk
  deriving DecidableEq, Repr

def route (jail : Jail) (drives : List Drive) (log : List (List String)) (o : OciMount) : Option Route :=
  if o.type = "bind" then
    (mountAt log o.source).bind fun args =>
      args.head?.bind fun device =>
        (driveAt drives device).bind fun drive =>
          (jail.lookup drive.path).map fun disk => ⟨args, drive, disk⟩
  else none

def backing (jail : Jail) (log : List (List String)) (ms : List Mount) (path : String) : Option Disk :=
  (serving (buildMounts ms) path).bind fun o => (route jail (buildDrives ms) log o).map Route.disk

/-- Host, guest and runtime agree on every volume, and nothing else leads to a disk. -/
structure Plumbed (root : String) (jail : Jail) (log : List (List String)) (ms : List Mount) : Prop where
  each : ∀ i m, ms[i]? = some m → ∃ r path, volumePath root m.name = .ok path ∧
    route jail (buildDrives ms) log (volumeMount i m) = some r ∧ r.disk = .host path ∧
    r.drive.readOnly = m.readOnly ∧ (r.guest.getD 3 "" = "ro" ↔ m.readOnly = true) ∧
    ("ro" ∈ (volumeMount i m).options ↔ m.readOnly = true)
  only : ∀ o ∈ buildMounts ms, ∀ r, route jail (buildDrives ms) log o = some r →
    ∃ i m, ms[i]? = some m ∧ o = volumeMount i m

section
variable {root : String} {jail : Jail} {log front : List (List String)} {ms : List Mount} {i : ℕ}
  {m : Mount}

theorem mapIdx_split {β : Type} (f : ℕ → Mount → β) (hm : ms[i]? = some m) :
    ms.mapIdx f = (ms.take i).mapIdx f ++ f i m :: (ms.drop (i + 1)).mapIdx fun j => f (j + 1 + i) := by
  obtain ⟨hi, hget⟩ := List.getElem?_eq_some_iff.1 hm
  have hsplit : ms = ms.take i ++ m :: ms.drop (i + 1) := by
    rw [← hget, List.getElem_cons_drop, List.take_append_drop]
  have hlength : (ms.take i).length = i := List.length_take_of_le hi.le
  conv_lhs => rw [hsplit, List.mapIdx_append, List.mapIdx_cons]
  rw [hlength, Nat.zero_add]

theorem mountAt_volume (hlen : ms.length ≤ 8) (hm : ms[i]? = some m) :
    mountAt (front ++ ms.mapIdx volumeArgs) (volumeDir i) = some (volumeArgs i m) := by
  have hi := (List.getElem?_eq_some_iff.1 hm).1
  rw [mapIdx_split volumeArgs hm, ← List.append_assoc]
  refine find_last (decide_eq_true List.prefix_rfl) fun args hargs => decide_eq_false ?_
  obtain ⟨j, hj, rfl⟩ := List.mem_mapIdx.1 hargs
  have hall : ∀ i < 8, ∀ j < 8, j ≠ i → ¬ Covers (volumeDir j) (volumeDir i) := by decide +kernel
  rw [List.length_drop] at hj
  exact hall i (by omega) (j + 1 + i) (by omega) (by omega)

theorem route_volume (hlen : ms.length ≤ 8) (hm : ms[i]? = some m) {path : String}
    (hlink : jail.lookup (volumeFile i) = some (.host path)) :
    route jail (buildDrives ms) (front ++ ms.mapIdx volumeArgs) (volumeMount i m) =
      some ⟨volumeArgs i m, volumeDrive i m, .host path⟩ := by
  have htype : (volumeMount i m).type = "bind" := rfl
  have hsource : (volumeMount i m).source = volumeDir i := rfl
  have hdevice : (volumeArgs i m).head? = some (volumeDevice i) := rfl
  have hpath : (volumeDrive i m).path = volumeFile i := rfl
  unfold route
  rw [if_pos htype, hsource, mountAt_volume hlen hm, Option.bind_some, hdevice, Option.bind_some,
    driveAt_volume hlen hm, Option.bind_some, hpath, hlink]
  rfl

theorem route_fixed (hlen : ms.length ≤ 8) (hfront : ∀ args ∈ front, Spare args) {o : OciMount}
    (ho : o ∈ fixedMounts) : route jail (buildDrives ms) (front ++ ms.mapIdx volumeArgs) o = none := by
  have hkinds : ∀ o ∈ fixedMounts, o.type = "bind" → o.source = resolverFile := by decide +kernel
  unfold route
  by_cases hbind : o.type = "bind"
  · rw [if_pos hbind, hkinds o ho hbind]
    cases hat : mountAt (front ++ ms.mapIdx volumeArgs) resolverFile with
    | none => rfl
    | some args =>
      have hmem : args ∈ front ++ ms.mapIdx volumeArgs :=
        List.mem_reverse.1 (List.mem_of_find?_eq_some hat)
      have hcovers : Covers (args.getD 1 "") resolverFile := by
        simpa using List.find?_some hat
      rcases List.mem_append.1 hmem with hmem | hmem
      · have hsource := (hfront args hmem).file hcovers
        cases args with
        | nil => rfl
        | cons source rest =>
          have htmpfs : source = "tmpfs" := hsource
          have hnone : driveAt (buildDrives ms) "tmpfs" = none :=
            driveAt_eq_none hlen (by decide +kernel)
          rw [htmpfs]
          change (driveAt (buildDrives ms) "tmpfs").bind _ = none
          rw [hnone]
          rfl
      · obtain ⟨j, hj, rfl⟩ := List.mem_mapIdx.1 hmem
        have hall : ∀ j < 8, ¬ Covers (volumeDir j) resolverFile := by decide +kernel
        exact absurd hcovers (hall j (by omega))
  · exact if_neg hbind

theorem plumbed (hlen : ms.length ≤ 8) (hfront : ∀ args ∈ front, Spare args)
    (hlinks : ∀ i m, ms[i]? = some m → ∃ path, volumePath root m.name = .ok path ∧
      jail.lookup (volumeFile i) = some (.host path)) :
    Plumbed root jail (front ++ ms.mapIdx volumeArgs) ms := by
  refine ⟨fun i m hm => ?_, fun o ho r hr => ?_⟩
  · obtain ⟨path, hpath, hlink⟩ := hlinks i m hm
    refine ⟨_, path, hpath, route_volume hlen hm hlink, rfl, rfl, ?_, ?_⟩
    · cases hro : m.readOnly with
      | true | false => simp [volumeArgs, hro]
    · cases hro : m.readOnly with
      | true | false => simp [volumeMount, hro]
  · rcases List.mem_append.1 ho with ho | ho
    · rw [route_fixed hlen hfront ho] at hr
      cases hr
    · obtain ⟨i, hi, rfl⟩ := List.mem_mapIdx.1 ho
      exact ⟨i, ms[i], List.getElem?_eq_getElem hi, rfl⟩

/-- A target that no later one covers leads to its own mount. -/
theorem serving_volume (hm : ms[i]? = some m)
    (hlater : ∀ j m', ms[j]? = some m' → i < j → ¬ Covers m'.target m.target) :
    serving (buildMounts ms) m.target = some (volumeMount i m) := by
  unfold serving buildMounts
  rw [mapIdx_split volumeMount hm, ← List.append_assoc]
  refine find_last (decide_eq_true List.prefix_rfl) fun o ho => decide_eq_false ?_
  obtain ⟨j, hj, rfl⟩ := List.mem_mapIdx.1 ho
  refine hlater (j + 1 + i) _ ?_ (by omega)
  rw [List.length_drop] at hj
  rw [List.getElem_drop, List.getElem?_eq_getElem (by omega)]
  congr 2
  omega

/-- One that a later one covers leads to a later mount. -/
theorem serving_later (hm : ms[i]? = some m) {j : ℕ} {m' : Mount} (hm' : ms[j]? = some m')
    (hij : i < j) (hcovers : Covers m'.target m.target) : ∃ k x, ms[k]? = some x ∧ i < k ∧
      serving (buildMounts ms) m.target = some (volumeMount k x) := by
  have hj := (List.getElem?_eq_some_iff.1 hm').1
  have hrest : volumeMount j m' ∈ (ms.drop (i + 1)).mapIdx fun n => volumeMount (n + 1 + i) := by
    refine List.mem_mapIdx.2 ⟨j - (i + 1), ?_, ?_⟩
    · rw [List.length_drop]
      omega
    · rw [List.getElem_drop]
      have hindex : j - (i + 1) + 1 + i = j := by omega
      have hget : ms[i + 1 + (j - (i + 1))]? = some m' := by
        rw [Nat.add_sub_cancel' (by omega)]
        exact hm'
      rw [hindex, (List.getElem?_eq_some_iff.1 hget).2]
  unfold serving buildMounts
  rw [mapIdx_split volumeMount hm, List.append_cons, ← List.append_assoc]
  obtain ⟨o, ho, hfind⟩ := @find_last_mem OciMount (fun o => decide (Covers o.destination m.target))
    (fixedMounts ++ ((ms.take i).mapIdx volumeMount ++ [volumeMount i m])) _ _ hrest
    (decide_eq_true hcovers)
  obtain ⟨n, hn, rfl⟩ := List.mem_mapIdx.1 ho
  have hlength : n < ms.length - (i + 1) := by rwa [List.length_drop] at hn
  refine ⟨n + 1 + i, (ms.drop (i + 1))[n], ?_, by omega, hfind⟩
  rw [List.getElem_drop, List.getElem?_eq_getElem (by omega)]
  congr 2
  omega

/-- Each target is on its own disk if and only if no later target is an ancestor of it. -/
theorem targets_backed_iff (h : Plumbed root jail log ms) (hms : ∀ m ∈ ms, m.Accepted)
    (hapart : ms.Pairwise fun a b => a.target ≠ b.target ∧ a.name ≠ b.name) :
    (∀ m ∈ ms, ∃ path, volumePath root m.name = .ok path ∧
        backing jail log ms m.target = some (.host path)) ↔
      ms.Pairwise fun earlier later => hasPrefix earlier.target (later.target ++ "/") = false := by
  have hdisk : ∀ i m, ms[i]? = some m → ∃ path, volumePath root m.name = .ok path ∧
      (route jail (buildDrives ms) log (volumeMount i m)).map Route.disk = some (.host path) := by
    intro i m hm
    obtain ⟨r, path, hpath, hroute, hr, -⟩ := h.each i m hm
    refine ⟨path, hpath, ?_⟩
    rw [hroute, Option.map_some, hr]
  rw [List.pairwise_iff_getElem] at hapart ⊢
  constructor
  · intro hbacked i j hi hj hij
    have hmi : ms[i]? = some ms[i] := List.getElem?_eq_getElem hi
    have hmj : ms[j]? = some ms[j] := List.getElem?_eq_getElem hj
    by_contra hbelow
    have hcovers : Covers ms[j].target ms[i].target :=
      (covers_iff (hms _ (List.getElem_mem hi)) (hms _ (List.getElem_mem hj))).2
        (Or.inr (by simpa using hbelow))
    obtain ⟨k, x, hx, hik, hserving⟩ := serving_later hmi hmj hij hcovers
    obtain ⟨path, hpath, hback⟩ := hbacked ms[i] (List.getElem_mem hi)
    obtain ⟨path', hpath', hdisk'⟩ := hdisk k x hx
    unfold backing at hback
    rw [hserving, Option.bind_some, hdisk'] at hback
    obtain rfl := Disk.host.inj (Option.some.inj hback)
    obtain ⟨hk, rfl⟩ := List.getElem?_eq_some_iff.1 hx
    have hsame := volumePath_inj (hms _ (List.getElem_mem hi)).name (hms _ (List.getElem_mem hk)).name
      hpath hpath'
    exact (hapart i k hi hk hik).2 hsame
  · intro hproper m hm
    obtain ⟨i, hi, rfl⟩ := List.mem_iff_getElem.1 hm
    obtain ⟨path, hpath, hdisk'⟩ := hdisk i ms[i] (List.getElem?_eq_getElem hi)
    refine ⟨path, hpath, ?_⟩
    unfold backing
    rw [serving_volume (List.getElem?_eq_getElem hi), Option.bind_some, hdisk']
    intro j m' hm' hij hcovers
    obtain ⟨hj, rfl⟩ := List.getElem?_eq_some_iff.1 hm'
    rcases (covers_iff (hms _ hm) (hms _ (List.getElem_mem hj))).1 hcovers with hsame | hbelow
    · exact (hapart i j hi hj hij).1 hsame
    · rw [hproper i j hi hj hij] at hbelow
      cases hbelow

end

/-- For an accepted specification, when the jail's files and the guest's mounts have been made:
links, drives, devices, mounts and bind mounts agree, with the same read-only setting, and the
targets are on the disks of their volumes if and only if no later target is an ancestor of an
earlier one. -/
theorem volumes_plumbed (s : Spec) (haccepted : s.validate = .ok ()) (fault : String → Option String)
    (root : String) (src : Sources) (old jail : Jail)
    (hfiles : startFiles fault root src s.mounts old = .ok jail) (K : Base.Crypto) (F : Formats)
    (b : Bootstrap) (hspec : b.sandbox.spec = s) (w : ℕ → (o : Guest.Op) → o.Reply)
    (hkernel : Lawful mountNote busyLaw w 0 [] (setUp K F b))
    (hstart : (outcome w 0 (setUp K F b)).1 = none) :
    Plumbed root jail (noted mountNote w 0 (setUp K F b)) s.mounts ∧
      ((∀ m ∈ s.mounts, ∃ path, volumePath root m.name = .ok path ∧
          backing jail (noted mountNote w 0 (setUp K F b)) s.mounts m.target = some (.host path)) ↔
        s.mounts.Pairwise fun earlier later =>
          hasPrefix earlier.target (later.target ++ "/") = false) := by
  subst hspec
  obtain ⟨hlen, hms, hapart⟩ := Spec.validate_mounts haccepted
  obtain ⟨front, hlog, hfront⟩ := setUp_noted hlen (Prod.ext hstart rfl) hkernel
  have hplumbed : Plumbed root jail (noted mountNote w 0 (setUp K F b)) b.sandbox.spec.mounts := by
    rw [hlog]
    exact plumbed hlen hfront fun i m hm => startFiles_lookup hlen hfiles hm
  exact ⟨hplumbed, targets_backed_iff hplumbed hms hapart⟩

def replies : (o : Guest.Op) → o.Reply
  | .readMarker => Base.bytesOf "sha256:i"
  | o => Guest.UnpackSample.succeed ⟨[], []⟩ o 0

theorem busyLaw_replies (log : List (List String)) (o : Guest.Op) : busyLaw log o (replies o) := by
  cases o with
  | outside args =>
    have hreply : replies (.outside args) = none := rfl
    unfold busyLaw
    split
    · rename_i hsome
      cases hsome
    · trivial
  | _ => trivial

def guestWith (ms : List Mount) : Bootstrap :=
  ⟨1, Guest.UnpackSample.sandbox.id, { Guest.UnpackSample.sandbox with spec := withMounts ms }⟩

def sources : Sources := ⟨"/kernel", "/rootfs.ext4", "/web/app.ext4", "/web/state.ext4"⟩

def logOf (ms : List Mount) : List (List String) :=
  noted mountNote (fun _ => replies) 0 (setUp Base.Sample.crypto Guest.UnpackSample.formats (guestWith ms))

def jailOf (ms : List Mount) : Jail :=
  match startFiles (fun _ => none) "/lib" sources ms [] with
  | .ok jail => jail
  | .error _ => []

/-- A volume below another one, in this order. -/
theorem volumes_plumbed_nested :
    Plumbed "/lib" (jailOf [⟨"all", "/data", false⟩, ⟨"part", "/data/part", true⟩])
        (logOf [⟨"all", "/data", false⟩, ⟨"part", "/data/part", true⟩])
        [⟨"all", "/data", false⟩, ⟨"part", "/data/part", true⟩] ∧
      ∀ m ∈ ([⟨"all", "/data", false⟩, ⟨"part", "/data/part", true⟩] : List Mount),
        ∃ path, volumePath "/lib" m.name = .ok path ∧
          backing (jailOf [⟨"all", "/data", false⟩, ⟨"part", "/data/part", true⟩])
            (logOf [⟨"all", "/data", false⟩, ⟨"part", "/data/part", true⟩])
            [⟨"all", "/data", false⟩, ⟨"part", "/data/part", true⟩] m.target = some (.host path) := by
  have h := volumes_plumbed (withMounts [⟨"all", "/data", false⟩, ⟨"part", "/data/part", true⟩])
    (by decide +kernel) (fun _ => none) "/lib" sources []
    (jailOf [⟨"all", "/data", false⟩, ⟨"part", "/data/part", true⟩]) (by decide +kernel)
    Base.Sample.crypto Guest.UnpackSample.formats
    (guestWith [⟨"all", "/data", false⟩, ⟨"part", "/data/part", true⟩]) rfl (fun _ => replies)
    (lawful_of_forall (fun _ log o => busyLaw_replies log o) _) (by decide +kernel)
  exact ⟨h.1, h.2.2 (by decide +kernel)⟩

/-- In the other order the path of the first volume is on the disk of the second. -/
theorem nested_target_on_other_disk :
    (withMounts [⟨"part", "/data/part", true⟩, ⟨"all", "/data", false⟩]).validate = .ok () ∧
      (outcome (fun _ => replies) 0 (setUp Base.Sample.crypto Guest.UnpackSample.formats
        (guestWith [⟨"part", "/data/part", true⟩, ⟨"all", "/data", false⟩]))).1 = none ∧
      volumePath "/lib" "part" = .ok "/lib/volumes/part.ext4" ∧
      backing (jailOf [⟨"part", "/data/part", true⟩, ⟨"all", "/data", false⟩])
        (logOf [⟨"part", "/data/part", true⟩, ⟨"all", "/data", false⟩])
        [⟨"part", "/data/part", true⟩, ⟨"all", "/data", false⟩] "/data/part" =
          some (.host "/lib/volumes/all.ext4") := by
  decide +kernel

end Plumbing
end Niflhel
