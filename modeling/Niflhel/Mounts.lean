import Mathlib.Data.List.Infix
import Niflhel.Lifecycle
import Niflhel.SlashPath

/-!
# Mounts of a container

The runtime specification lists mounts that the runtime provides, then one bind mount for each
named volume. They are mounted in order, and a mount hides what was mounted before at or below
its destination.
-/

namespace Niflhel
open GoText

structure Mount.Accepted (m : Mount) : Prop where
  name : validName m.name = true
  path : ∃ ps, ps ≠ [] ∧ (∀ x ∈ ps, IsName x) ∧ m.target = render true ps
  free : (reservedTargets.any fun r => m.target == r || hasPrefix m.target (r ++ "/")) = false

theorem accepted_of_checks {m : Mount} (hname : validName m.name = true) (habs : isAbs m.target = true)
    (hclean : pathClean m.target = m.target) (hroot : m.target ≠ "/")
    (hfree : (reservedTargets.any fun r => m.target == r || hasPrefix m.target (r ++ "/")) = false) :
    m.Accepted := by
  have hslash : ∃ cs, m.target.toList = '/' :: cs := by
    obtain ⟨rest, hrest⟩ := hasPrefix_iff.1 habs
    exact ⟨rest.toList, by rw [hrest, String.toList_append]; rfl⟩
  obtain ⟨cs, hcs⟩ := hslash
  obtain ⟨ps, hps, htext⟩ := @pathClean_names m.target
    (by
      rw [hclean]
      intro hup
      rw [hup] at hcs
      exact absurd hcs (by simp))
    (by
      rw [hclean, hasPrefix, hcs]
      rfl)
  rw [hclean, habs] at htext
  refine ⟨hname, ⟨ps, ?_, hps, htext⟩, hfree⟩
  rintro rfl
  exact hroot htext

theorem validateMounts_eq_ok {seen : List String} {mounts : List Mount}
    (h : validateMounts seen mounts = .ok ()) : (∀ m ∈ mounts, m.Accepted) ∧
      (∀ m ∈ mounts, m.target ∉ seen ∧ ("name:" ++ m.name) ∉ seen) ∧
      mounts.Pairwise fun a b => a.target ≠ b.target ∧ a.name ≠ b.name := by
  induction mounts generalizing seen with
  | nil => simp
  | cons m rest ih =>
    rw [validateMounts, check_eq_ok, check_eq_ok, check_eq_ok] at h
    obtain ⟨hform, hfree, hseen, hrest⟩ := h
    obtain ⟨haccepted, hnew, hapart⟩ := ih hrest
    simp only [Bool.or_eq_true, Bool.not_eq_true', bne_iff_ne, beq_iff_eq, not_or, ne_eq,
      Bool.not_eq_false, not_not] at hform
    obtain ⟨⟨⟨hname, habs⟩, hclean⟩, hroot⟩ := hform
    have hm : m.Accepted := accepted_of_checks hname habs hclean hroot (by simpa using hfree)
    refine ⟨List.forall_mem_cons.2 ⟨hm, haccepted⟩, ?_, List.pairwise_cons.2 ⟨fun b hb => ?_, hapart⟩⟩
    · refine List.forall_mem_cons.2 ⟨not_or.1 hseen, fun b hb => ?_⟩
      obtain ⟨htarget, hkey⟩ := hnew b hb
      exact ⟨fun hmem => htarget (by simp [hmem]), fun hmem => hkey (by simp [hmem])⟩
    · obtain ⟨htarget, hkey⟩ := hnew b hb
      refine ⟨fun heq => htarget (by simp [heq]), fun heq => hkey (by simp [heq])⟩

theorem Spec.validate_mounts {s : Spec} (h : s.validate = .ok ()) :
    s.mounts.length ≤ 8 ∧ (∀ m ∈ s.mounts, m.Accepted) ∧
      s.mounts.Pairwise fun a b => a.target ≠ b.target ∧ a.name ≠ b.name := by
  obtain ⟨-, -, -, hlength, hmounts⟩ := Spec.validate_eq_ok h
  obtain ⟨haccepted, -, hapart⟩ := validateMounts_eq_ok hmounts
  exact ⟨hlength, haccepted, hapart⟩

namespace Runtime

structure OciMount where
  destination : String
  type : String
  source : String
  options : List String
  deriving DecidableEq, Repr

def fixedMounts : List OciMount :=
  [⟨"/proc", "proc", "proc", ["nosuid", "noexec", "nodev"]⟩,
    ⟨"/dev", "tmpfs", "tmpfs", ["nosuid", "strictatime", "mode=755", "size=65536k"]⟩,
    ⟨"/dev/pts", "devpts", "devpts",
      ["nosuid", "noexec", "newinstance", "ptmxmode=0666", "mode=0620", "gid=5"]⟩,
    ⟨"/dev/shm", "tmpfs", "shm", ["nosuid", "noexec", "nodev", "mode=1777", "size=65536k"]⟩,
    ⟨"/sys", "sysfs", "sysfs", ["nosuid", "noexec", "nodev", "ro"]⟩,
    ⟨"/etc/resolv.conf", "bind", "/run/niflhel/resolv.conf",
      ["bind", "ro", "nosuid", "nodev", "noexec"]⟩]

def volumeMount (i : ℕ) (m : Mount) : OciMount where
  destination := m.target
  source := "/run/niflhel/volumes/" ++ toString i
  type := "bind"
  options := ["bind", "nosuid", "nodev"] ++ if m.readOnly then ["ro"] else []

def buildMounts (mounts : List Mount) : List OciMount := fixedMounts ++ mounts.mapIdx volumeMount

def components (path : String) : List String := (split path '/').filter kept

def Covers (destination path : String) : Prop := components destination <+: components path

instance (d p : String) : Decidable (Covers d p) :=
  inferInstanceAs (Decidable (components d <+: components p))

/-- The mount that a path leads to: the last one that covers it. -/
def serving (ms : List OciMount) (path : String) : Option OciMount :=
  ms.reverse.find? fun m => Covers m.destination path

/-- No destination is equal to or an ancestor of an earlier one. -/
def Unhidden (ms : List OciMount) : Prop :=
  ms.Pairwise fun earlier later => ¬ Covers later.destination earlier.destination

def Visible (ms : List OciMount) : Prop := ∀ m ∈ ms, serving ms m.destination = some m

instance (ms : List OciMount) : Decidable (Unhidden ms) :=
  inferInstanceAs (Decidable (ms.Pairwise _))

instance (ms : List OciMount) : Decidable (Visible ms) :=
  inferInstanceAs (Decidable (∀ m ∈ ms, serving ms m.destination = some m))

theorem find_last {β : Type} {p : β → Bool} {front rest : List β} {o : β} (ho : p o = true)
    (hrest : ∀ x ∈ rest, p x = false) : (front ++ o :: rest).reverse.find? p = some o := by
  have hnone : rest.reverse.find? p = none := by
    rw [List.find?_eq_none]
    intro x hx
    rw [hrest x (List.mem_reverse.1 hx)]
    decide
  rw [List.reverse_append, List.reverse_cons, List.append_assoc, List.find?_append, hnone,
    List.find?_append]
  simp [ho]

theorem find_last_mem {β : Type} {p : β → Bool} {front rest : List β} {x : β} (hx : x ∈ rest)
    (hp : p x = true) : ∃ y ∈ rest, (front ++ rest).reverse.find? p = some y := by
  have hsome : (rest.reverse.find? p).isSome = true := by
    rw [List.find?_isSome]
    exact ⟨x, List.mem_reverse.2 hx, hp⟩
  obtain ⟨y, hy⟩ := Option.isSome_iff_exists.1 hsome
  refine ⟨y, List.mem_reverse.1 (List.mem_of_find?_eq_some hy), ?_⟩
  rw [List.reverse_append, List.find?_append, hy]
  rfl

theorem Unhidden.visible {ms : List OciMount} (h : Unhidden ms) : Visible ms := by
  intro m hm
  obtain ⟨front, rest, rfl⟩ := List.append_of_mem hm
  obtain ⟨-, hlater, -⟩ := List.pairwise_append.1 h
  refine find_last (decide_eq_true List.prefix_rfl) fun x hx => ?_
  exact decide_eq_false ((List.pairwise_cons.1 hlater).1 x hx)

theorem covers_iff {a b : Mount} (ha : a.Accepted) (hb : b.Accepted) :
    Covers b.target a.target ↔ a.target = b.target ∨ hasPrefix a.target (b.target ++ "/") = true := by
  obtain ⟨ps, -, hps, hta⟩ := ha.path
  obtain ⟨qs, hqne, hqs, htb⟩ := hb.path
  rw [hta, htb, hasPrefix_render hps hqs hqne, Covers, components, components,
    components_render hps, components_render hqs]
  constructor
  · intro h
    by_cases heq : qs = ps
    · exact Or.inl (by rw [heq])
    · exact Or.inr ⟨h, heq⟩
  · rintro (heq | h)
    · have hsame := components_render hqs
      rw [← heq, components_render hps] at hsame
      exact hsame ▸ List.prefix_rfl
    · exact h.1

/-- An accepted target that covers a path is the text of a beginning of it. -/
theorem mem_of_covers {m : Mount} (hm : m.Accepted) {path : String} (h : Covers m.target path) :
    m.target ∈ (components path).inits.tail.map (render true) := by
  obtain ⟨ps, hne, hps, htarget⟩ := hm.path
  rw [htarget] at h ⊢
  unfold Covers at h
  rw [components, components_render hps] at h
  refine List.mem_map_of_mem ?_
  have hmem : ps ∈ (components path).inits := (List.mem_inits _ _).2 h
  cases hpath : components path with
  | nil =>
    rw [hpath] at h
    exact absurd (List.prefix_nil.1 h) hne
  | cons x rest =>
    rw [hpath, List.inits_cons, List.mem_cons] at hmem
    exact hmem.resolve_left hne

/-- An accepted target hides none of the runtime's mounts but that of `resolv.conf`. -/
theorem covers_fixed_iff {m : Mount} (hm : m.Accepted) :
    (∃ f ∈ fixedMounts, Covers m.target f.destination) ↔
      m.target = "/etc" ∨ m.target = "/etc/resolv.conf" := by
  constructor
  · rintro ⟨f, hf, hcovers⟩
    have hall : ∀ f ∈ fixedMounts, ∀ t ∈ (components f.destination).inits.tail.map (render true),
        (reservedTargets.any fun r => t == r || hasPrefix t (r ++ "/")) = true ∨ t = "/etc" ∨
          t = "/etc/resolv.conf" := by
      decide +kernel
    refine (hall f hf m.target (mem_of_covers hm hcovers)).resolve_left fun hreserved => ?_
    rw [hm.free] at hreserved
    cases hreserved
  · have hboth : ∀ t ∈ ["/etc", "/etc/resolv.conf"], ∃ f ∈ fixedMounts, Covers t f.destination := by
      decide +kernel
    intro h
    exact hboth m.target (by simpa using h)

theorem destinations_mapIdx (ms : List Mount) :
    (ms.mapIdx volumeMount).map OciMount.destination = ms.map Mount.target := by
  apply List.ext_getElem
  · simp
  · intro i hi hi'
    simp [volumeMount]

theorem unhidden_iff {ms : List Mount} (hms : ∀ m ∈ ms, m.Accepted)
    (hapart : ms.Pairwise fun a b => a.target ≠ b.target ∧ a.name ≠ b.name) :
    Unhidden (buildMounts ms) ↔
      (∀ m ∈ ms, m.target ≠ "/etc" ∧ m.target ≠ "/etc/resolv.conf") ∧
        ms.Pairwise fun earlier later => hasPrefix earlier.target (later.target ++ "/") = false := by
  have hfixed : (fixedMounts.map OciMount.destination).Pairwise fun a b => ¬ Covers b a := by
    decide +kernel
  have hlist : Unhidden (buildMounts ms) ↔ (ms.map Mount.target).Pairwise (fun a b => ¬ Covers b a) ∧
      ∀ d ∈ fixedMounts.map OciMount.destination, ∀ t ∈ ms.map Mount.target, ¬ Covers t d := by
    unfold Unhidden
    rw [← List.pairwise_map (f := OciMount.destination) (R := fun a b => ¬ Covers b a), buildMounts,
      List.map_append, destinations_mapIdx, List.pairwise_append]
    exact ⟨fun h => h.2, fun h => ⟨hfixed, h⟩⟩
  rw [hlist, List.pairwise_map, and_comm]
  refine and_congr ⟨fun h m hm => ?_, fun h d hd t ht => ?_⟩ ?_
  · refine not_or.1 fun hetc => ?_
    obtain ⟨f, hf, hcovers⟩ := (covers_fixed_iff (hms m hm)).2 hetc
    exact h _ (List.mem_map_of_mem hf) _ (List.mem_map_of_mem hm) hcovers
  · obtain ⟨f, hf, rfl⟩ := List.mem_map.1 hd
    obtain ⟨m, hm, rfl⟩ := List.mem_map.1 ht
    intro hcovers
    exact not_or.2 (h m hm) ((covers_fixed_iff (hms m hm)).1 ⟨f, hf, hcovers⟩)
  · -- Equal targets are refused, so that only proper ancestors remain.
    have hproper : ms.Pairwise (fun a b => ¬ Covers b.target a.target) ↔ ms.Pairwise fun a b =>
        a.target ≠ b.target ∧ hasPrefix a.target (b.target ++ "/") = false := by
      refine List.Pairwise.iff_of_mem fun {a b} ha hb => ?_
      rw [covers_iff (hms a ha) (hms b hb), not_or, Bool.not_eq_true]
    rw [hproper, List.pairwise_and_iff]
    exact ⟨fun h => h.2, fun h => ⟨hapart.imp fun h => h.1, h⟩⟩

/-- In an accepted specification no mount hides another if and only if no volume is mounted on
`/etc` or `/etc/resolv.conf` or, later in the list, on an ancestor of another volume's target. -/
theorem mounts_visible_iff (s : Spec) (h : s.validate = .ok ()) :
    (Unhidden (buildMounts s.mounts) ∧ Visible (buildMounts s.mounts)) ↔
      (∀ m ∈ s.mounts, m.target ≠ "/etc" ∧ m.target ≠ "/etc/resolv.conf") ∧
        s.mounts.Pairwise fun earlier later =>
          hasPrefix earlier.target (later.target ++ "/") = false := by
  obtain ⟨-, haccepted, hapart⟩ := Spec.validate_mounts h
  rw [← unhidden_iff haccepted hapart]
  exact ⟨fun h => h.1, fun h => ⟨h, h.visible⟩⟩

def withMounts (mounts : List Mount) : Spec := { Sample.spec "web" with mounts := mounts }

/-- A volume below another one, in this order. -/
theorem mounts_visible_nested :
    (withMounts [⟨"all", "/data", false⟩, ⟨"part", "/data/part", true⟩]).validate = .ok () ∧
      Visible (buildMounts [⟨"all", "/data", false⟩, ⟨"part", "/data/part", true⟩]) := by
  have haccepted : (withMounts [⟨"all", "/data", false⟩, ⟨"part", "/data/part", true⟩]).validate = .ok () := by
    decide +kernel
  exact ⟨haccepted, ((mounts_visible_iff _ haccepted).2 (by decide +kernel)).2⟩

/-- In the other order the first volume is hidden, and a volume on `/etc` hides the name servers. -/
theorem etc_hides_resolver :
    (withMounts [⟨"part", "/data/part", true⟩, ⟨"all", "/data", false⟩, ⟨"etc", "/etc", false⟩]).validate =
        .ok () ∧
      (serving (buildMounts [⟨"part", "/data/part", true⟩, ⟨"all", "/data", false⟩, ⟨"etc", "/etc", false⟩])
        "/data/part").map OciMount.source = some "/run/niflhel/volumes/1" ∧
      (serving (buildMounts [⟨"part", "/data/part", true⟩, ⟨"all", "/data", false⟩, ⟨"etc", "/etc", false⟩])
        "/etc/resolv.conf").map OciMount.source = some "/run/niflhel/volumes/2" := by
  decide +kernel

end Runtime
end Niflhel
