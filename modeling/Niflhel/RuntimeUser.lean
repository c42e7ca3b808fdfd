import Niflhel.Api

/-!
# The user of a container

`runtime.User` turns the user of a process into IDs with the help of `etc/passwd` and `etc/group`
of the container. A line of `etc/passwd` counts if its name is the user's text or its ID the
user's number, and the first such line gives both IDs. A character stands for a byte of the files.
-/

namespace Niflhel.RuntimeUser
open GoText

structure User where
  uid : ℕ
  gid : ℕ
  deriving DecidableEq, Repr

def parseUint (s : String) : Option ℕ := (digits s.toList).filter fun n => n < 2 ^ 32

def maxScanTokenSize : ℕ := 64 * 2 ^ 10

/-- The lines of a file up to the first one that is too long. A last line needs no newline. -/
def scanLines (content : String) : List String :=
  let parts := content.toList.splitOn '\n'
  let lines := parts.dropLast ++ (parts.getLast?.filter fun l => l ≠ []).toList
  (lines.takeWhile fun l => l.length < maxScanTokenSize).map fun l =>
    String.ofList (if l.getLast? = some '\r' then l.dropLast else l)

def lookupUser (u : String) (number : Option ℕ) : List String → Option User
  | [] => none
  | line :: rest =>
    match split line ':' with
    | name :: _ :: uid :: gid :: _ =>
      match parseUint uid, parseUint gid with
      | some uid, some gid =>
        if name = u ∨ number = some uid then some ⟨uid, gid⟩ else lookupUser u number rest
      | _, _ => lookupUser u number rest
    | _ => lookupUser u number rest

def lookupGroup (g : String) : List String → Option ℕ
  | [] => none
  | line :: rest =>
    match split line ':' with
    | name :: _ :: gid :: _ =>
      if name = g then (parseUint gid).or (lookupGroup g rest) else lookupGroup g rest
    | _ => lookupGroup g rest

def withGroup (group : Except String String) (out : User) (g : String) (hasGroup : Bool) :
    Except String User :=
  if !hasGroup then .ok out
  else
    match parseUint g with
    | some n => .ok { out with gid := n }
    | none =>
      match group with
      | .error e => .error e
      | .ok content =>
        match lookupGroup g (scanLines content) with
        | some n => .ok { out with gid := n }
        | none => .error ("group " ++ quoted g ++ " not found")

/-- The function `User` on the contents of the two files; `etc/passwd` may be missing. -/
def user (passwd : Option String) (group : Except String String) (text : String) :
    Except String User :=
  if text = "" then .ok ⟨0, 0⟩
  else
    let (u, g, hasGroup) := cut text ':'
    match passwd.bind fun content => lookupUser u (parseUint u) (scanLines content), parseUint u with
    | some out, _ => withGroup group out g hasGroup
    | none, some n => withGroup group ⟨n, 0⟩ g hasGroup
    | none, none => .error ("user " ++ quoted u ++ " not found in container")

structure Entry where
  name : String
  user : User

def entry (line : String) : Option Entry :=
  match split line ':' with
  | name :: _ :: uid :: gid :: _ =>
    match parseUint uid, parseUint gid with
    | some uid, some gid => some ⟨name, uid, gid⟩
    | _, _ => none
  | _ => none

def entries (passwd : Option String) : List Entry :=
  (passwd.elim [] scanLines).filterMap entry

def firstEntry (passwd : Option String) (u : String) (number : Option ℕ) : Option Entry :=
  (entries passwd).find? fun x => x.name = u ∨ number = some x.user.uid

theorem lookupUser_cons (u : String) (number : Option ℕ) (line : String) (rest : List String) :
    lookupUser u number (line :: rest) =
      match entry line with
      | some x =>
        if x.name = u ∨ number = some x.user.uid then some x.user else lookupUser u number rest
      | none => lookupUser u number rest := by
  rw [lookupUser, entry]
  rcases split line ':' with _ | ⟨name, _ | ⟨password, _ | ⟨uid, _ | ⟨gid, more⟩⟩⟩⟩
  · rfl
  · rfl
  · rfl
  · rfl
  · dsimp only
    cases parseUint uid with
    | none => rfl
    | some n => cases parseUint gid <;> rfl

theorem lookupUser_eq (u : String) (number : Option ℕ) (lines : List String) :
    lookupUser u number lines = ((lines.filterMap entry).find? fun x =>
      decide (x.name = u ∨ number = some x.user.uid)).map Entry.user := by
  induction lines with
  | nil => rfl
  | cons line rest ih =>
    rw [lookupUser_cons]
    cases hentry : entry line with
    | none => rw [List.filterMap_cons_none hentry, ← ih]
    | some x =>
      rw [List.filterMap_cons_some hentry, List.find?_cons]
      by_cases hmatch : x.name = u ∨ number = some x.user.uid
      · simp [hmatch]
      · simp [hmatch, ih]

theorem lookup_passwd (passwd : Option String) (u : String) (number : Option ℕ) :
    (passwd.bind fun content => lookupUser u number (scanLines content)) =
      (firstEntry passwd u number).map Entry.user := by
  cases passwd with
  | none => rfl
  | some content => exact lookupUser_eq u number (scanLines content)

/-- The line has the user's text as its name, but another number. -/
def Impostor (u : String) (n : ℕ) (line : String) : Prop :=
  ∃ x, entry line = some x ∧ x.name = u ∧ x.user.uid ≠ n

def HasNumber (n : ℕ) (line : String) : Prop := ∃ x, entry line = some x ∧ x.user.uid = n

/-- Every impostor comes behind a line with the number. -/
def Unmasked (u : String) (n : ℕ) (lines : List String) : Prop :=
  ∀ before line after, lines = before ++ line :: after → Impostor u n line →
    ∃ earlier ∈ before, HasNumber n earlier

theorem unmasked_cons {u : String} {n : ℕ} {line : String} {rest : List String} :
    Unmasked u n (line :: rest) ↔
      ¬ Impostor u n line ∧ (HasNumber n line ∨ Unmasked u n rest) := by
  constructor
  · intro h
    refine ⟨fun himpostor => ?_, or_iff_not_imp_left.2 fun hline before later after hsplit hlater => ?_⟩
    · obtain ⟨earlier, hmem, -⟩ := h [] line rest rfl himpostor
      cases hmem
    · obtain ⟨earlier, hmem, hnumber⟩ := h (line :: before) later after (by rw [hsplit]; rfl) hlater
      rcases List.mem_cons.1 hmem with rfl | hmem
      · exact absurd hnumber hline
      · exact ⟨earlier, hmem, hnumber⟩
  · rintro ⟨hline, hrest⟩ before later after hsplit hlater
    cases before with
    | nil =>
      cases hsplit
      exact absurd hlater hline
    | cons first before =>
      obtain ⟨rfl, htail⟩ := List.cons_eq_cons.1 hsplit
      rcases hrest with hnumber | hrest
      · exact ⟨line, List.mem_cons_self, hnumber⟩
      · obtain ⟨earlier, hmem, hnumber⟩ := hrest before later after htail hlater
        exact ⟨earlier, List.mem_cons_of_mem _ hmem, hnumber⟩

/-- The first line that counts has the number exactly if no impostor comes before it. -/
theorem first_has_number_iff (u : String) (n : ℕ) (lines : List String) :
    (∀ x ∈ (lines.filterMap entry).find? fun x => decide (x.name = u ∨ some n = some x.user.uid),
      x.user.uid = n) ↔ Unmasked u n lines := by
  induction lines with
  | nil => exact iff_of_true (by simp) fun before line after h => by simp at h
  | cons line rest ih =>
    rw [unmasked_cons]
    cases hentry : entry line with
    | none =>
      rw [List.filterMap_cons_none hentry, ih]
      simp [Impostor, HasNumber, hentry]
    | some x =>
      rw [List.filterMap_cons_some hentry, List.find?_cons]
      by_cases hnumber : x.user.uid = n
      · simp [Impostor, HasNumber, hentry, hnumber]
      · by_cases hname : x.name = u
        · simp [Impostor, hentry, hnumber, hname]
        · have hskip : decide (x.name = u ∨ some n = some x.user.uid) = false := by
            simp [hname, Ne.symm hnumber]
          rw [hskip, ih]
          simp [Impostor, HasNumber, hentry, hnumber, hname]

theorem withGroup_uid {group : Except String String} {out out' : User} {g : String}
    {hasGroup : Bool} (h : withGroup group out g hasGroup = .ok out') : out'.uid = out.uid := by
  unfold withGroup at h
  split_ifs at h
  · exact Except.ok.inj h ▸ rfl
  · split at h
    · exact Except.ok.inj h ▸ rfl
    · split at h
      · cases h
      · split at h
        · exact Except.ok.inj h ▸ rfl
        · cases h

/-- A numeric user is honoured exactly if in `etc/passwd` no line whose name is the user's text gives
another number, unless a line with the number comes before it; a numeric group always is. -/
theorem numeric_user_iff (passwd : Option String) (group : Except String String) (text : String)
    (n : ℕ) (hnumber : parseUint (cut text ':').1 = some n) (out : User)
    (hok : user passwd group text = .ok out) :
    (out.uid = n ↔ ∀ content ∈ passwd, Unmasked (cut text ':').1 n (scanLines content)) ∧
      ((cut text ':').2.2 = true → ∀ m, parseUint (cut text ':').2.1 = some m → out.gid = m) := by
  have hne : text ≠ "" := by
    rintro rfl
    cases hnumber
  have hgroup : ∃ out₀, out₀.uid = ((firstEntry passwd (cut text ':').1 (some n)).elim n
      fun x => x.user.uid) ∧ withGroup group out₀ (cut text ':').2.1 (cut text ':').2.2 = .ok out := by
    rw [user, if_neg hne] at hok
    dsimp only at hok
    rw [lookup_passwd, hnumber] at hok
    cases hfirst : firstEntry passwd (cut text ':').1 (some n) with
    | none =>
      rw [hfirst] at hok
      exact ⟨⟨n, 0⟩, rfl, hok⟩
    | some x =>
      rw [hfirst] at hok
      exact ⟨x.user, rfl, hok⟩
  obtain ⟨out₀, huid, hout⟩ := hgroup
  constructor
  · have hfirst : out.uid = n ↔
        ∀ x ∈ firstEntry passwd (cut text ':').1 (some n), x.user.uid = n := by
      rw [withGroup_uid hout, huid]
      cases firstEntry passwd (cut text ':').1 (some n) <;> simp
    rw [hfirst]
    cases passwd with
    | none => exact iff_of_true (by simp [firstEntry, entries]) (by simp)
    | some content =>
      have hlines := first_has_number_iff (cut text ':').1 n (scanLines content)
      exact hlines.trans ⟨fun h _ hcontent => Option.some.inj hcontent ▸ h, fun h => h content rfl⟩
  · intro hasGroup m hm
    unfold withGroup at hout
    rw [hasGroup, hm] at hout
    exact Except.ok.inj hout ▸ rfl

/-- The second line has the digits as its name, and comes behind the one with the number. -/
theorem numeric_user_iff_behind :
    user (some "app:x:1000:7\n1000:x:0:0\n") (.error "") "1000:5" = .ok ⟨1000, 5⟩ ∧
      Unmasked "1000" 1000 (scanLines "app:x:1000:7\n1000:x:0:0\n") := by
  have hok : user (some "app:x:1000:7\n1000:x:0:0\n") (.error "") "1000:5" = .ok ⟨1000, 5⟩ := by decide
  have hiff := numeric_user_iff (some "app:x:1000:7\n1000:x:0:0\n") (.error "") "1000:5" 1000
    (by decide) ⟨1000, 5⟩ hok
  exact ⟨hok, hiff.1.1 rfl _ rfl⟩

/-- A line that has the digits as its name gives the ID of `root` to another user. -/
theorem digits_as_name : parseUint "1000" = some 1000 ∧
      user (some "1000:x:0:0::/:/bin/sh\n") (.error "no such file") "1000" = .ok ⟨0, 0⟩ := by
  decide

end Niflhel.RuntimeUser
