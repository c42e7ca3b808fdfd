import Niflhel.GoText
import Mathlib.Data.List.Basic

/-!
# Cleaned paths by their components

A cleaned path without `..` is given by its components and by whether it starts with a slash.
`path.Join`, `path.Dir` and `path.Clean` act on the components.
-/

namespace GoText

def render (rooted : Bool) (ps : List String) : String :=
  if rooted then "/" ++ joinSlash ps else if ps = [] then "." else joinSlash ps

structure IsName (x : String) : Prop where
  nonempty : x ≠ ""
  notDot : x ≠ "."
  notDotDot : x ≠ ".."
  noSlash : '/' ∉ x.toList

variable {rooted : Bool} {ps qs : List String} {x a b : String}

theorem pathClean_eq (p : String) :
    pathClean p = render (isAbs p) (((split p '/').foldl (cleanStep (isAbs p)) []).reverse) := rfl

theorem split_append (a b : String) : split (a ++ "/" ++ b) '/' = split a '/' ++ split b '/' := by
  have htext : (a ++ "/" ++ b).toList = a.toList ++ '/' :: b.toList := by simp
  rw [split, htext, List.splitOn, List.splitOnP_append_cons _ _ (by simp), List.map_append]
  rfl

theorem split_of_not_mem (h : '/' ∉ x.toList) : split x '/' = [x] := by
  have hsingle : x.toList.splitOn '/' = [x.toList] := by
    apply List.splitOnP_eq_singleton
    intro c hc
    simp only [beq_eq_false_iff_ne, ne_eq]
    rintro rfl
    exact h hc
  simp [split, hsingle]

theorem not_mem_of_mem_splitOn {cs l : List Char} (h : cs ∈ l.splitOn '/') : '/' ∉ cs := by
  induction l generalizing cs with
  | nil =>
    rw [List.splitOn_nil, List.mem_singleton] at h
    simp [h]
  | cons c l ih =>
    rw [List.splitOn, List.splitOnP_cons_eq_if_modifyHead] at h
    split_ifs at h with hc
    · rcases List.mem_cons.1 h with rfl | h
      · exact List.not_mem_nil
      · exact ih h
    · -- the first piece is longer by one character, which is not a slash
      have hne : '/' ≠ c := by
        rintro rfl
        exact hc (beq_self_eq_true _)
      cases hsplit : l.splitOnP fun x => x == '/' with
      | nil => exact absurd hsplit (List.splitOnP_ne_nil _ _)
      | cons first rest =>
        have hmem : ∀ piece ∈ first :: rest, piece ∈ l.splitOn '/' := by
          rw [List.splitOn, hsplit]
          exact fun _ hp => hp
        rw [hsplit, List.modifyHead_cons] at h
        rcases List.mem_cons.1 h with rfl | h
        · exact List.not_mem_cons_of_ne_of_not_mem hne (ih (hmem first List.mem_cons_self))
        · exact ih (hmem cs (List.mem_cons_of_mem _ h))

theorem not_mem_of_mem_split {p : String} (h : x ∈ split p '/') : '/' ∉ x.toList := by
  obtain ⟨cs, hcs, rfl⟩ := List.mem_map.1 h
  rw [String.toList_ofList]
  exact not_mem_of_mem_splitOn hcs

theorem joinSlash_cons (h : ps ≠ []) : joinSlash (x :: ps) = x ++ "/" ++ joinSlash ps := by
  cases ps with
  | nil => exact absurd rfl h
  | cons y rest => rfl

theorem split_joinSlash (h : ∀ x ∈ ps, '/' ∉ x.toList) (hne : ps ≠ []) :
    split (joinSlash ps) '/' = ps := by
  induction ps with
  | nil => exact absurd rfl hne
  | cons x rest ih =>
    obtain ⟨hx, hrest⟩ := List.forall_mem_cons.1 h
    by_cases hnil : rest = []
    · subst hnil
      exact split_of_not_mem hx
    · rw [joinSlash_cons hnil, split_append, split_of_not_mem hx, ih hrest hnil]
      rfl

def kept (x : String) : Bool := x != "" && x != "."

theorem IsName.kept (h : IsName x) : kept x = true := by
  simp [GoText.kept, h.nonempty, h.notDot]

/-- The components so far: `..` only at the start of a relative path. -/
structure Stacked (rooted : Bool) (stack : List String) : Prop where
  kept : ∀ x ∈ stack, kept x = true ∧ '/' ∉ x.toList
  parents : ".." ∉ stack ∨ (rooted = false ∧ stack.getLast? = some "..")

theorem Stacked.step {stack : List String} (h : Stacked rooted stack) (hx : '/' ∉ x.toList) :
    Stacked rooted (cleanStep rooted stack x) := by
  unfold cleanStep
  by_cases hdot : x = "" ∨ x = "."
  · rw [if_pos hdot]
    exact h
  rw [if_neg hdot]
  by_cases hparent : x = ".."
  · rw [if_pos hparent]
    cases stack with
    | nil =>
      cases rooted with
      | true => exact ⟨by simp, .inl (by simp)⟩
      | false => exact ⟨by simp [GoText.kept], .inr ⟨rfl, rfl⟩⟩
    | cons top rest =>
      obtain ⟨htop, hrest⟩ := List.forall_mem_cons.1 h.kept
      by_cases hup : top = ".."
      · subst hup
        simp only [if_true]
        refine ⟨List.forall_mem_cons.2 ⟨htop, h.kept⟩, .inr ?_⟩
        rcases h.parents with hno | ⟨hr, hlast⟩
        · exact absurd List.mem_cons_self hno
        · exact ⟨hr, by rw [List.getLast?_cons_cons, hlast]⟩
      · simp only [if_neg hup]
        refine ⟨hrest, ?_⟩
        rcases h.parents with hno | ⟨hr, hlast⟩
        · exact .inl fun hm => hno (List.mem_cons_of_mem _ hm)
        · cases rest with
          | nil => exact absurd (Option.some.inj hlast) hup
          | cons y ys => exact .inr ⟨hr, by rwa [List.getLast?_cons_cons] at hlast⟩
  · rw [if_neg hparent]
    have hkept : GoText.kept x = true := by simpa [GoText.kept] using not_or.1 hdot
    refine ⟨List.forall_mem_cons.2 ⟨⟨hkept, hx⟩, h.kept⟩, ?_⟩
    rcases h.parents with hno | ⟨hr, hlast⟩
    · exact .inl (by simp [hno, Ne.symm hparent])
    · cases stack with
      | nil => cases hlast
      | cons y ys => exact .inr ⟨hr, by rwa [List.getLast?_cons_cons]⟩

theorem stacked_foldl {l stack : List String} (hl : ∀ x ∈ l, '/' ∉ x.toList)
    (h : Stacked rooted stack) : Stacked rooted (l.foldl (cleanStep rooted) stack) := by
  induction l generalizing stack with
  | nil => exact h
  | cons x rest ih =>
    obtain ⟨hx, hrest⟩ := List.forall_mem_cons.1 hl
    exact ih hrest (h.step hx)

/-- A cleaned path that does not lead upwards consists of names. -/
theorem pathClean_names {p : String} (hup : pathClean p ≠ "..")
    (hpattern : hasPrefix (pathClean p) "../" = false) :
    ∃ ps, (∀ x ∈ ps, IsName x) ∧ pathClean p = render (isAbs p) ps := by
  have hstack : Stacked (isAbs p) ((split p '/').foldl (cleanStep (isAbs p)) []) :=
    stacked_foldl (fun x hx => not_mem_of_mem_split hx) ⟨by simp, .inl (by simp)⟩
  rw [pathClean_eq] at hup hpattern
  refine ⟨_, fun x hx => ?_, pathClean_eq p⟩
  have hmem := List.mem_reverse.1 hx
  obtain ⟨hkept, hslash⟩ := hstack.kept x hmem
  obtain ⟨hne, hdot⟩ : x ≠ "" ∧ x ≠ "." := by simpa [GoText.kept] using hkept
  refine ⟨hne, hdot, ?_, hslash⟩
  rintro rfl
  -- otherwise the path starts with ..
  rcases hstack.parents with hno | ⟨hr, hlast⟩
  · exact hno hmem
  · rw [hr] at hup hpattern hlast
    cases hps : ((split p '/').foldl (cleanStep false) []).reverse with
    | nil =>
      rw [List.reverse_eq_nil_iff.1 hps] at hlast
      cases hlast
    | cons first rest =>
      have hfirst : first = ".." := by
        rw [← List.head?_reverse, hps] at hlast
        exact Option.some.inj hlast
      rw [hps, hfirst] at hup hpattern
      cases rest with
      | nil => exact hup rfl
      | cons y ys =>
        have htext : (render false (".." :: y :: ys)).toList =
            "../".toList ++ (joinSlash (y :: ys)).toList := by
          simp [render, joinSlash]
        simp [hasPrefix, htext] at hpattern

theorem isAbs_of_toList {s : String} {c : Char} {cs : List Char} (h : s.toList = c :: cs) :
    isAbs s = ('/' == c) := by
  simp [isAbs, hasPrefix, h, List.isPrefixOf]

theorem split_render (rooted : Bool) (h : ∀ x ∈ ps, IsName x) :
    ".." ∉ split (render rooted ps) '/' ∧ (split (render rooted ps) '/').filter kept = ps := by
  have hnames : ps.filter kept = ps := List.filter_eq_self.2 fun x hx => (h x hx).kept
  have hno : ".." ∉ ps := fun hm => (h _ hm).notDotDot rfl
  have hslash : ∀ x ∈ ps, '/' ∉ x.toList := fun x hx => (h x hx).noSlash
  cases rooted with
  | true =>
    have hsplit : split (render true ps) '/' = split "" '/' ++ split (joinSlash ps) '/' :=
      split_append "" (joinSlash ps)
    rw [hsplit]
    by_cases hne : ps = []
    · subst hne
      decide
    · rw [split_joinSlash hslash hne]
      exact ⟨by simpa [split] using hno, by simpa [split, kept] using hnames⟩
  | false =>
    by_cases hne : ps = []
    · subst hne
      decide
    · have hrender : render false ps = joinSlash ps := by simp [render, hne]
      rw [hrender, split_joinSlash hslash hne]
      exact ⟨hno, hnames⟩

theorem joinSlash_concat (x : String) (hne : ps ≠ []) :
    joinSlash (ps ++ [x]) = joinSlash ps ++ "/" ++ x := by
  induction ps with
  | nil => exact absurd rfl hne
  | cons y rest ih =>
    by_cases hnil : rest = []
    · subst hnil
      rfl
    · rw [List.cons_append, joinSlash_cons (by simp), joinSlash_cons hnil, ih hnil]
      simp only [String.append_assoc]

def parentText (rooted : Bool) (ps : List String) : String :=
  (if rooted then "/" else "") ++ if ps = [] then "" else joinSlash ps ++ "/"

theorem render_concat (x : String) : render rooted (ps ++ [x]) = parentText rooted ps ++ x := by
  by_cases hne : ps = []
  · subst hne
    cases rooted <;> simp [render, parentText, joinSlash]
  · cases rooted with
    | true => simp [render, parentText, hne, joinSlash_concat x hne, String.append_assoc]
    | false => simp [render, parentText, hne, joinSlash_concat x hne]

theorem components_render (h : ∀ x ∈ ps, IsName x) : (split (render true ps) '/').filter kept = ps :=
  (split_render true h).2

theorem joinSlash_append (hps : ps ≠ []) (hqs : qs ≠ []) :
    joinSlash (ps ++ qs) = joinSlash ps ++ "/" ++ joinSlash qs := by
  induction ps with
  | nil => exact absurd rfl hps
  | cons x rest ih =>
    by_cases hnil : rest = []
    · subst hnil
      rw [List.singleton_append, joinSlash_cons hqs]
      rfl
    · rw [List.cons_append, joinSlash_cons (by simp [hnil]), joinSlash_cons hnil, ih hnil]
      simp only [String.append_assoc]

theorem hasPrefix_iff {s p : String} : hasPrefix s p = true ↔ ∃ rest, s = p ++ rest := by
  unfold hasPrefix
  rw [List.isPrefixOf_iff_prefix]
  constructor
  · rintro ⟨t, ht⟩
    refine ⟨String.ofList t, String.toList_injective ?_⟩
    rw [String.toList_append, String.toList_ofList, ht]
  · rintro ⟨rest, rfl⟩
    exact ⟨rest.toList, by rw [String.toList_append]⟩

/-- A cleaned path is below another one if its text continues that of the other after a slash. -/
theorem hasPrefix_render (hp : ∀ x ∈ ps, IsName x) (hq : ∀ x ∈ qs, IsName x) (hne : qs ≠ []) :
    hasPrefix (render true ps) (render true qs ++ "/") = true ↔ qs <+: ps ∧ qs ≠ ps := by
  have htext : ∀ l, render true l = "/" ++ joinSlash l := fun l => rfl
  constructor
  · intro h
    obtain ⟨rest, hrest⟩ := hasPrefix_iff.1 h
    have hpieces := congrArg (fun s => split s '/') hrest
    have hslash : ∀ x ∈ ps, '/' ∉ x.toList := fun x hx => (hp x hx).noSlash
    have hpsne : ps ≠ [] := by
      rintro rfl
      have htexts := congrArg String.toList hrest
      simp [htext, joinSlash] at htexts
    have hroot : ∀ l, (∀ x ∈ l, '/' ∉ x.toList) → l ≠ [] → split (render true l) '/' = "" :: l := by
      intro l hl hlne
      have hsplit : split (render true l) '/' = split "" '/' ++ split (joinSlash l) '/' :=
        split_append "" (joinSlash l)
      rw [hsplit, split_joinSlash hl hlne]
      rfl
    rw [split_append, hroot ps hslash hpsne, hroot qs (fun x hx => (hq x hx).noSlash) hne,
      List.cons_append] at hpieces
    have heq := (List.cons.inj hpieces).2
    refine ⟨⟨_, heq.symm⟩, fun hsame => ?_⟩
    have hlen := congrArg List.length heq
    rw [hsame, List.length_append] at hlen
    have hpos : (split rest '/').length ≠ 0 := by
      rw [split, List.length_map]
      exact fun hzero => List.splitOnP_ne_nil _ _ (List.length_eq_zero_iff.1 hzero)
    omega
  · rintro ⟨⟨r, rfl⟩, hdistinct⟩
    have hr : r ≠ [] := by
      rintro rfl
      rw [List.append_nil] at hdistinct
      exact hdistinct rfl
    refine hasPrefix_iff.2 ⟨joinSlash r, ?_⟩
    rw [htext, htext, joinSlash_append hne hr]
    simp only [String.append_assoc]

end GoText
