import Niflhel.Json

/-!
# Admission of JSON by its complexity

`ValidateJSONComplexity` of `internal/fsutil` counts the tokens of an input, the nesting and
the bytes of its strings in one pass over the stream of a `json.Decoder`.
-/

namespace Niflhel.Fsutil
open Json

structure Limits where
  maxTokens : ℤ
  maxDepth : ℤ
  maxStringBytes : ℤ

structure Counts where
  tokens : ℤ := 0
  depth : ℤ := 0
  stringBytes : ℤ := 0
  started : Bool := false
  complete : Bool := false

def Counts.scalar (s : Counts) : Counts := if s.depth = 0 then { s with complete := true } else s

def countToken (L : Limits) (s : Counts) (token : Token) : Except String Counts := do
  if s.complete then throw "multiple JSON values"
  let s := { s with started := true, tokens := s.tokens + 1 }
  if s.tokens > L.maxTokens then throw "JSON token limit exceeded"
  match token with
  | .string text =>
    if (text.utf8ByteSize : ℤ) > L.maxStringBytes - s.stringBytes then
      throw "JSON string limit exceeded"
    return { s with stringBytes := s.stringBytes + text.utf8ByteSize }.scalar
  | .opening _ =>
    let s := { s with depth := s.depth + 1 }
    if s.depth > L.maxDepth then throw "JSON depth limit exceeded"
    return s
  | .closing _ =>
    let s := { s with depth := s.depth - 1 }
    if s.depth < 0 then throw "invalid JSON nesting"
    return if s.depth = 0 then { s with complete := true } else s
  | _ => return s.scalar

def countTokens (L : Limits) : Counts → List Token → Except String Counts
  | s, [] => .ok s
  | s, token :: rest => do
    let s ← countToken L s token
    countTokens L s rest

/-- What the loop returns at the end of the stream. -/
def finishCount (s : Counts) : Ending → Except String Unit
  | .eof =>
    if s.started = false ∨ s.complete = false ∨ s.depth ≠ 0 then throw "invalid JSON value"
    else return
  | .failed error => throw error

def validateJSONComplexity (L : Limits) (tokens : List Token) (ending : Ending) :
    Except String Unit := do
  if L.maxTokens ≤ 0 ∨ L.maxDepth ≤ 0 ∨ L.maxStringBytes < 0 then
    throw "invalid JSON complexity limit"
  let s ← countTokens L {} tokens
  finishCount s ending

def Counts.Allows (s : Counts) (L : Limits) : Token → Prop
  | .string text => s.stringBytes + text.utf8ByteSize ≤ L.maxStringBytes
  | .opening _ => s.depth + 1 ≤ L.maxDepth
  | .closing _ => 1 ≤ s.depth
  | _ => True

def Counts.next (s : Counts) (t : Token) : Counts :=
  let depth := match t with
    | .opening _ => s.depth + 1
    | .closing _ => s.depth - 1
    | _ => s.depth
  { tokens := s.tokens + 1, depth, stringBytes := s.stringBytes + t.stringBytes, started := true,
    complete := match t with
      | .opening _ => s.complete
      | _ => s.complete || decide (depth = 0) }

theorem countToken_iff {L : Limits} {s s' : Counts} {t : Token} : countToken L s t = .ok s' ↔
      s.complete = false ∧ s.tokens + 1 ≤ L.maxTokens ∧ s.Allows L t ∧ s' = s.next t := by
  cases hc : s.complete with
  | true =>
    unfold countToken
    rw [if_pos hc]
    simp only [Bool.true_eq_false, false_and, iff_false]
    nofun
  | false =>
    by_cases htokens : s.tokens + 1 ≤ L.maxTokens
    · have hnot : ¬ s.tokens + 1 > L.maxTokens := by omega
      unfold countToken
      rw [if_neg (by simp [hc]), if_neg hnot]
      cases t with
      | string text =>
        by_cases hfit : s.stringBytes + text.utf8ByteSize ≤ L.maxStringBytes
        · have hroom : ¬ (text.utf8ByteSize : ℤ) > L.maxStringBytes - s.stringBytes := by omega
          by_cases hd : s.depth = 0 <;>
            simp [Counts.Allows, Counts.scalar, Counts.next, Token.stringBytes, hroom, hfit, hd,
              hc, htokens, pure, Except.pure, eq_comm]
        · have hroom : (text.utf8ByteSize : ℤ) > L.maxStringBytes - s.stringBytes := by omega
          simp [Counts.Allows, hroom, hfit, throw, throwThe, MonadExceptOf.throw]
      | opening b =>
        by_cases hfit : s.depth + 1 ≤ L.maxDepth
        · have hroom : ¬ s.depth + 1 > L.maxDepth := by omega
          simp [Counts.Allows, Counts.next, Token.stringBytes, hroom, hfit, hc, htokens, pure,
            Except.pure, eq_comm]
        · have hroom : s.depth + 1 > L.maxDepth := by omega
          simp [Counts.Allows, hroom, hfit, throw, throwThe, MonadExceptOf.throw]
      | closing b =>
        by_cases hfit : 1 ≤ s.depth
        · have hroom : ¬ s.depth - 1 < 0 := by omega
          by_cases hd : s.depth - 1 = 0 <;>
            simp [Counts.Allows, Counts.next, Token.stringBytes, hroom, hfit, hd, hc, htokens,
              pure, Except.pure, eq_comm]
        · have hroom : s.depth - 1 < 0 := by omega
          simp [Counts.Allows, hroom, hfit, throw, throwThe, MonadExceptOf.throw]
      | _ =>
        by_cases hd : s.depth = 0 <;>
          simp [Counts.Allows, Counts.scalar, Counts.next, Token.stringBytes, hd, hc, htokens,
            pure, Except.pure, eq_comm]
    · unfold countToken
      rw [if_neg (by simp [hc]), if_pos (Int.not_le.1 htokens)]
      simp only [htokens, false_and, and_false, iff_false]
      nofun

variable {tokens : List Token}

theorem countTokens_cons_iff {L : Limits} {s s' : Counts} {t : Token} :
    countTokens L s (t :: tokens) = .ok s' ↔ s.complete = false ∧ s.tokens + 1 ≤ L.maxTokens ∧
      s.Allows L t ∧ countTokens L (s.next t) tokens = .ok s' := by
  rw [countTokens]
  cases h : countToken L s t with
  | ok s₁ =>
    obtain ⟨hc, htokens, hallow, rfl⟩ := countToken_iff.1 h
    simp [hc, htokens, hallow, bind, Except.bind]
  | error e =>
    have hnone : ¬ (s.complete = false ∧ s.tokens + 1 ≤ L.maxTokens ∧ s.Allows L t) := by
      intro hall
      have hok := countToken_iff.2 ⟨hall.1, hall.2.1, hall.2.2, rfl⟩
      rw [h] at hok
      cases hok
    simp only [bind, Except.bind, reduceCtorEq, false_iff]
    tauto

variable {rest : List Token}

theorem countTokens_append_iff {L : Limits} {s s' : Counts} :
    countTokens L s (tokens ++ rest) = .ok s' ↔
      ∃ s₁, countTokens L s tokens = .ok s₁ ∧ countTokens L s₁ rest = .ok s' := by
  induction tokens generalizing s with
  | nil => simp [countTokens]
  | cons t tokens ih =>
    rw [List.cons_append, countTokens_cons_iff, ih]
    simp only [countTokens_cons_iff]
    tauto

structure Counts.Within (s : Counts) (L : Limits) : Prop where
  tokens : s.tokens ≤ L.maxTokens
  depth : s.depth ≤ L.maxDepth
  bytes : s.stringBytes ≤ L.maxStringBytes

structure Counts.Room (s : Counts) (L : Limits) (ts : List Token) (levels : ℕ) : Prop where
  tokens : s.tokens + ts.length ≤ L.maxTokens
  depth : s.depth + levels ≤ L.maxDepth
  bytes : s.stringBytes + textBytes ts ≤ L.maxStringBytes

def Counts.over (s : Counts) (tokens : List Token) (complete : Bool) : Counts :=
  { tokens := s.tokens + tokens.length, depth := s.depth,
    stringBytes := s.stringBytes + textBytes tokens, started := true, complete }

theorem counts_scalar {L : Limits} {s s' : Counts} {t : Token} (hc : s.complete = false)
    (hs : s.Within L) (ht : ∀ b, t ≠ .opening b ∧ t ≠ .closing b) :
    countTokens L s [t] = .ok s' ↔ s.Room L [t] 0 ∧ s' = s.over [t] (decide (s.depth = 0)) := by
  have hnext : s.next t = s.over [t] (decide (s.depth = 0)) := by
    cases t <;> simp_all [Counts.next, Counts.over]
  have hroom : s.Room L [t] 0 ↔ s.tokens + 1 ≤ L.maxTokens ∧ s.Allows L t := by
    have hd := hs.depth
    have hb := hs.bytes
    constructor
    · intro h
      have htokens := h.tokens
      have hbytes := h.bytes
      refine ⟨by simpa using htokens, ?_⟩
      cases t <;> simp_all [Counts.Allows, Token.stringBytes]
    · rintro ⟨htokens, hallow⟩
      refine ⟨by simpa using htokens, by simpa using hd, ?_⟩
      cases t <;> simp_all [Counts.Allows, Token.stringBytes]
  rw [countTokens_cons_iff, hnext, hroom]
  simp [countTokens, hc, eq_comm, and_assoc]

/-- Brackets around tokens that are counted as `hbody` says. -/
theorem counts_bracketed {L : Limits} {s s' : Counts} {b : Bracket} {body : List Token} {depth : ℕ}
    (hc : s.complete = false) (hd : 0 ≤ s.depth) (hs : s.Within L)
    (hbody : (s.next (.opening b)).Within L → ∀ s₁,
      countTokens L (s.next (.opening b)) body = .ok s₁ ↔
        (s.next (.opening b)).Room L body depth ∧ s₁ = (s.next (.opening b)).over body false) :
    countTokens L s (.opening b :: (body ++ [.closing b])) = .ok s' ↔
      s.Room L (.opening b :: (body ++ [.closing b])) (depth + 1) ∧
        s' = s.over (.opening b :: (body ++ [.closing b])) (decide (s.depth = 0)) := by
  have hclosed : ((s.next (.opening b)).over body false).next (.closing b) =
      s.over (.opening b :: (body ++ [.closing b])) (decide (s.depth = 0)) := by
    simp only [Counts.next, Counts.over, List.length_cons, List.length_append, List.length_nil,
      textBytes_cons, textBytes_append, textBytes_nil, Token.stringBytes, Counts.mk.injEq,
      Bool.false_or, true_and]
    push_cast
    refine ⟨by omega, by omega, by omega, ?_⟩
    congr 1
    apply propext
    omega
  have hroom : s.Room L (.opening b :: (body ++ [.closing b])) (depth + 1) ↔
      s.tokens + 1 ≤ L.maxTokens ∧ s.depth + 1 ≤ L.maxDepth ∧
        (s.next (.opening b)).Room L body depth ∧ s.tokens + 1 + body.length + 1 ≤ L.maxTokens := by
    constructor
    · intro h
      have htokens := h.tokens
      have hdepth := h.depth
      have hbytes := h.bytes
      simp only [List.length_cons, List.length_append, List.length_nil, textBytes_cons,
        textBytes_append, textBytes_nil, Token.stringBytes] at htokens hbytes
      push_cast at htokens hdepth hbytes
      refine ⟨by omega, by omega, ⟨?_, ?_, ?_⟩, by omega⟩
      · change s.tokens + 1 + body.length ≤ L.maxTokens
        omega
      · change s.depth + 1 + depth ≤ L.maxDepth
        omega
      · change s.stringBytes + 0 + textBytes body ≤ L.maxStringBytes
        omega
    · rintro ⟨-, -, h, htokens⟩
      have hdepth : s.depth + 1 + depth ≤ L.maxDepth := h.depth
      have hbytes : s.stringBytes + 0 + textBytes body ≤ L.maxStringBytes := h.bytes
      refine ⟨?_, ?_, ?_⟩
      · simp only [List.length_cons, List.length_append, List.length_nil]
        push_cast
        omega
      · push_cast
        omega
      · simp only [textBytes_cons, textBytes_append, textBytes_nil, Token.stringBytes]
        push_cast
        omega
  rw [countTokens_cons_iff, hroom]
  constructor
  · rintro ⟨-, htokens, hallow, hrest⟩
    have hin : (s.next (.opening b)).Within L :=
      ⟨htokens, hallow, by simpa [Counts.next, Token.stringBytes] using hs.bytes⟩
    obtain ⟨s₁, hs₁, hclose⟩ := countTokens_append_iff.1 hrest
    obtain ⟨hfit, rfl⟩ := (hbody hin s₁).1 hs₁
    obtain ⟨-, hlast, -, hend⟩ := countTokens_cons_iff.1 hclose
    rw [hclosed] at hend
    exact ⟨⟨htokens, hallow, hfit, hlast⟩, (Except.ok.inj hend).symm⟩
  · rintro ⟨⟨htokens, hallow, hfit, hlast⟩, rfl⟩
    have hin : (s.next (.opening b)).Within L :=
      ⟨htokens, hallow, by simpa [Counts.next, Token.stringBytes] using hs.bytes⟩
    have hinner := (hbody hin _).2 ⟨hfit, rfl⟩
    have hclose : countTokens L ((s.next (.opening b)).over body false) [.closing b] =
        .ok (s.over (.opening b :: (body ++ [.closing b])) (decide (s.depth = 0))) := by
      refine countTokens_cons_iff.2 ⟨rfl, hlast, ?_, by rw [hclosed]; rfl⟩
      change 1 ≤ s.depth + 1
      omega
    exact ⟨hc, htokens, hallow, countTokens_append_iff.2 ⟨_, hinner, hclose⟩⟩

section
variable {L : Limits} {s s' : Counts} {ts : List Token}

theorem Counts.room_append_iff {d e : ℕ} {c : Bool} :
    s.Room L (ts ++ rest) (max d e) ↔ s.Room L ts d ∧ (s.over ts c).Room L rest e := by
  have hover : (s.over ts c).Room L rest e ↔ s.tokens + ts.length + rest.length ≤ L.maxTokens ∧
      s.depth + e ≤ L.maxDepth ∧ s.stringBytes + textBytes ts + textBytes rest ≤ L.maxStringBytes :=
    ⟨fun h => ⟨h.tokens, h.depth, h.bytes⟩, fun h => ⟨h.1, h.2.1, h.2.2⟩⟩
  rw [hover]
  constructor
  · rintro ⟨htokens, hdepth, hbytes⟩
    rw [List.length_append] at htokens
    rw [textBytes_append] at hbytes
    push_cast at htokens hdepth hbytes
    exact ⟨⟨by omega, by omega, by omega⟩, by omega, by omega, by omega⟩
  · rintro ⟨⟨_, hd, _⟩, htokens, he, hbytes⟩
    refine ⟨?_, ?_, ?_⟩
    · rw [List.length_append]
      push_cast
      omega
    · omega
    · rw [textBytes_append]
      push_cast
      omega

theorem Counts.over_over {c c' : Bool} : (s.over ts c).over rest c' = s.over (ts ++ rest) c' := by
  simp only [Counts.over, List.length_append, textBytes_append, Counts.mk.injEq, and_true,
    true_and]
  push_cast
  exact ⟨by omega, by omega⟩

theorem Counts.Room.within {d : ℕ} {c : Bool} (h : s.Room L ts d) : (s.over ts c).Within L := by
  have hdepth := h.depth
  refine ⟨h.tokens, ?_, h.bytes⟩
  change s.depth ≤ L.maxDepth
  omega

theorem counts_sequence {d e : ℕ}
    (hfirst : ∀ s₁, countTokens L s ts = .ok s₁ ↔ s.Room L ts d ∧ s₁ = s.over ts false)
    (hrest : (s.over ts false).Within L → ∀ s₁, countTokens L (s.over ts false) rest = .ok s₁ ↔
      (s.over ts false).Room L rest e ∧ s₁ = (s.over ts false).over rest false) :
    countTokens L s (ts ++ rest) = .ok s' ↔
      s.Room L (ts ++ rest) (max d e) ∧ s' = s.over (ts ++ rest) false := by
  rw [countTokens_append_iff, @Counts.room_append_iff rest L s ts d e false,
    ← @Counts.over_over rest s ts false false]
  constructor
  · rintro ⟨s₁, hts, hs'⟩
    obtain ⟨hroom, rfl⟩ := (hfirst s₁).1 hts
    obtain ⟨hroom', rfl⟩ := (hrest hroom.within s').1 hs'
    exact ⟨⟨hroom, hroom'⟩, rfl⟩
  · rintro ⟨⟨hroom, hroom'⟩, rfl⟩
    exact ⟨_, (hfirst _).2 ⟨hroom, rfl⟩, (hrest hroom.within _).2 ⟨hroom', rfl⟩⟩

theorem counts_nil (hc : s.complete = false) (hstarted : s.started = true) (hs : s.Within L) :
    countTokens L s [] = .ok s' ↔ s.Room L [] 0 ∧ s' = s.over [] false := by
  have hsame : s.over [] false = s := by
    cases s
    simp_all [Counts.over]
  have hroom : s.Room L [] 0 :=
    ⟨by simpa using hs.tokens, by simpa using hs.depth, by simpa using hs.bytes⟩
  rw [hsame]
  simp [countTokens, hroom, eq_comm]

end

mutual

/-- A value is counted if there is room for it; at the top level it is complete. -/
theorem counts_value {L : Limits} {s : Counts} (hc : s.complete = false) (hd : 0 ≤ s.depth)
    (hs : s.Within L) : (v : Value) → ∀ s', countTokens L s v.tokens = .ok s' ↔
      s.Room L v.tokens v.depth ∧ s' = s.over v.tokens (decide (s.depth = 0))
  | .null, _ => counts_scalar hc hs (by simp)
  | .bool _, _ => counts_scalar hc hs (by simp)
  | .number _, _ => counts_scalar hc hs (by simp)
  | .string _, _ => counts_scalar hc hs (by simp)
  | .array items, s' => by
      have hin : 1 ≤ (s.next (.opening .square)).depth := by
        change 1 ≤ s.depth + 1
        omega
      rw [Value.tokens, Value.depth]
      exact counts_bracketed hc hd hs fun hs =>
        @counts_items L (s.next (.opening .square)) hc hin rfl hs items
  | .object fields, s' => by
      have hin : 1 ≤ (s.next (.opening .curly)).depth := by
        change 1 ≤ s.depth + 1
        omega
      rw [Value.tokens, Value.depth]
      exact counts_bracketed hc hd hs fun hs =>
        @counts_fields L (s.next (.opening .curly)) hc hin rfl hs fields

theorem counts_items {L : Limits} {s : Counts} (hc : s.complete = false) (hd : 1 ≤ s.depth)
    (hstarted : s.started = true) (hs : s.Within L) : (items : List Value) →
      ∀ s', countTokens L s (itemTokens items) = .ok s' ↔
        s.Room L (itemTokens items) (itemDepth items) ∧ s' = s.over (itemTokens items) false
  | [], _ => counts_nil hc hstarted hs
  | v :: rest, s' => by
      have hinner : decide (s.depth = 0) = false := by simp; omega
      have hv := counts_value hc (by omega) hs v
      rw [hinner] at hv
      rw [itemTokens, itemDepth]
      exact counts_sequence hv fun hs =>
        @counts_items L (s.over v.tokens false) rfl hd rfl hs rest

theorem counts_fields {L : Limits} {s : Counts} (hc : s.complete = false) (hd : 1 ≤ s.depth)
    (hstarted : s.started = true) (hs : s.Within L) : (fields : List (String × Value)) →
      ∀ s', countTokens L s (fieldTokens fields) = .ok s' ↔
        s.Room L (fieldTokens fields) (fieldDepth fields) ∧ s' = s.over (fieldTokens fields) false
  | [], _ => counts_nil hc hstarted hs
  | (key, v) :: rest, s' => by
      have hinner : decide (s.depth = 0) = false := by simp; omega
      have hkey : ∀ s₁, countTokens L s [.string key] = .ok s₁ ↔
          s.Room L [.string key] 0 ∧ s₁ = s.over [.string key] false := by
        intro s₁
        rw [← hinner]
        exact counts_scalar hc hs (by simp)
      rw [fieldTokens, fieldDepth, ← List.singleton_append, ← Nat.zero_max (max _ _)]
      refine counts_sequence hkey fun hs => fun s₁ => counts_sequence ?_ ?_
      · have hv := @counts_value L (s.over [.string key] false) rfl (by change 0 ≤ s.depth; omega) hs v
        rw [show decide ((s.over [.string key] false).depth = 0) = false from hinner] at hv
        exact hv
      · exact fun hs =>
          @counts_fields L ((s.over [.string key] false).over v.tokens false) rfl hd rfl hs rest

end

theorem countTokens_state {L : Limits} {s s' : Counts}
    (h : countTokens L s tokens = .ok s') : s' = tokens.foldl Counts.next s := by
  induction tokens generalizing s with
  | nil => exact (Except.ok.inj h).symm
  | cons t tokens ih =>
    obtain ⟨-, -, -, hrest⟩ := countTokens_cons_iff.1 h
    exact ih hrest

structure Limits.Valid (L : Limits) : Prop where
  tokens : 0 < L.maxTokens
  depth : 0 < L.maxDepth
  bytes : 0 ≤ L.maxStringBytes

theorem Limits.Valid.within {L : Limits} (h : L.Valid) : ({} : Counts).Within L :=
  ⟨Int.le_of_lt h.tokens, Int.le_of_lt h.depth, h.bytes⟩

def roomFor (v : Value) : Limits := ⟨v.tokens.length + 1, v.depth + 1, textBytes v.tokens⟩

theorem counts_roomFor (v : Value) :
    countTokens (roomFor v) {} v.tokens = .ok (({} : Counts).over v.tokens true) := by
  have hvalid : (roomFor v).Valid := by
    constructor <;> simp only [roomFor] <;> omega
  refine (counts_value rfl (Int.le_refl 0) hvalid.within v _).2 ⟨⟨?_, ?_, ?_⟩, rfl⟩
  · simp only [roomFor]
    omega
  · simp only [roomFor]
    omega
  · simp only [roomFor]
    omega

variable {v : Value}

theorem not_complete_of_truncated (hpart : tokens <+: v.tokens)
    (hne : tokens ≠ v.tokens) : (tokens.foldl Counts.next {}).complete = false := by
  obtain ⟨rest, hrest⟩ := hpart
  cases rest with
  | nil => exact absurd (by simpa using hrest) hne
  | cons t rest =>
    have hall := counts_roomFor v
    rw [← hrest] at hall
    obtain ⟨s₁, hs₁, hnext⟩ := countTokens_append_iff.1 hall
    rw [← countTokens_state hs₁]
    exact (countTokens_cons_iff.1 hnext).1

theorem tokens_ne_nil (v : Value) : v.tokens ≠ [] := by
  cases v <;> simp [Value.tokens]

/-- A stream has no tokens, or ends within its first value, or has all tokens of that value. -/
theorem stream_cases (stream : Stream) : stream.tokens = [] ∨
    (∃ v : Value, stream.tokens <+: v.tokens ∧ stream.tokens ≠ v.tokens) ∨
    ∃ v : Value, ∃ rest, stream.tokens = v.tokens ++ rest := by
  obtain ⟨values, hvalues⟩ := stream.sound
  cases values with
  | nil => exact .inl (List.prefix_nil.1 hvalues)
  | cons v values =>
    rw [List.flatMap_cons] at hvalues
    rcases List.prefix_or_prefix_of_prefix hvalues (List.prefix_append v.tokens _) with
      hpart | ⟨rest, hrest⟩
    · by_cases hall : stream.tokens = v.tokens
      · exact .inr (.inr ⟨v, [], by simpa using hall⟩)
      · exact .inr (.inl ⟨v, hpart, hall⟩)
    · exact .inr (.inr ⟨v, rest, hrest.symm⟩)

theorem accepted_iff {L : Limits} (hL : L.Valid) {ending : Ending} :
    validateJSONComplexity L tokens ending = .ok () ↔ ending = .eof ∧
      ∃ s, countTokens L {} tokens = .ok s ∧ s.started = true ∧ s.complete = true ∧
        s.depth = 0 := by
  have htokens := hL.tokens
  have hdepth := hL.depth
  have hbytes := hL.bytes
  unfold validateJSONComplexity
  rw [if_neg (by omega)]
  cases h : countTokens L {} tokens with
  | error e => simp [bind, Except.bind]
  | ok s =>
    cases ending with
    | failed e => simp [bind, Except.bind, finishCount, throw, throwThe, MonadExceptOf.throw]
    | eof => ?_
    by_cases hend : s.started = false ∨ s.complete = false ∨ s.depth ≠ 0
    · simp only [bind, Except.bind, pure, Except.pure, finishCount, if_pos hend, true_and,
        Except.ok.injEq, exists_eq_left']
      refine iff_of_false nofun fun hall => ?_
      simp [hall] at hend
    · simp only [bind, Except.bind, pure, Except.pure, finishCount, if_neg hend, true_and,
        Except.ok.injEq, exists_eq_left']
      simpa using hend

structure Limits.Admits (L : Limits) (v : Value) : Prop where
  tokens : (v.tokens.length : ℤ) ≤ L.maxTokens
  depth : (v.depth : ℤ) ≤ L.maxDepth
  bytes : (textBytes v.tokens : ℤ) ≤ L.maxStringBytes

theorem room_iff_admits {L : Limits} : ({} : Counts).Room L v.tokens v.depth ↔ L.Admits v := by
  constructor
  · rintro ⟨htokens, hdepth, hbytes⟩
    simp only [Int.zero_add] at htokens hdepth hbytes
    exact ⟨htokens, hdepth, hbytes⟩
  · rintro ⟨htokens, hdepth, hbytes⟩
    constructor <;> simpa only [Int.zero_add]

/-- Exactly the whole value alone is accepted, and only if it fits the limits. -/
theorem accepted_value {L : Limits} (hL : L.Valid)
    {ending : Ending} : validateJSONComplexity L (v.tokens ++ rest) ending = .ok () ↔
      rest = [] ∧ ending = .eof ∧ L.Admits v := by
  rw [accepted_iff hL]
  constructor
  · rintro ⟨hend, s, hs, -⟩
    obtain ⟨s₁, hs₁, hrest⟩ := countTokens_append_iff.1 hs
    obtain ⟨hroom, rfl⟩ := (counts_value rfl (Int.le_refl 0) hL.within v _).1 hs₁
    cases rest with
    | nil => exact ⟨rfl, hend, room_iff_admits.1 hroom⟩
    | cons t rest => cases (countTokens_cons_iff.1 hrest).1
  · rintro ⟨rfl, hend, hfit⟩
    refine ⟨hend, ({} : Counts).over v.tokens true, ?_, rfl, rfl, rfl⟩
    rw [List.append_nil]
    exact (counts_value rfl (Int.le_refl 0) hL.within v _).2 ⟨room_iff_admits.2 hfit, rfl⟩

theorem truncated_refused {L : Limits} (hL : L.Valid)
    (hpart : tokens <+: v.tokens) (hne : tokens ≠ v.tokens) (ending : Ending) :
    validateJSONComplexity L tokens ending ≠ .ok () := by
  rw [ne_eq, accepted_iff hL]
  rintro ⟨-, s, hs, -, hcomplete, -⟩
  rw [countTokens_state hs, not_complete_of_truncated hpart hne] at hcomplete
  cases hcomplete

/-- For all valid limits and whatever the decoder returns for an input, the input is accepted
exactly if it is one complete value within the limits. In particular an empty input, a truncated
value and two or more values in a row are refused. -/
theorem complexity_admission_exact {L : Limits} (hL : L.Valid) (stream : Stream) :
    (validateJSONComplexity L stream.tokens stream.ending = .ok () ↔
      ∃ v : Value, stream.tokens = v.tokens ∧ stream.ending = .eof ∧ L.Admits v) ∧
    (validateJSONComplexity L stream.tokens stream.ending = .ok () →
      stream.tokens ≠ [] ∧
      (∀ v : Value, stream.tokens <+: v.tokens → stream.tokens = v.tokens) ∧
      ∀ values : List Value, stream.tokens = values.flatMap Value.tokens →
        values.length = 1) := by
  have hone : validateJSONComplexity L stream.tokens stream.ending = .ok () →
      ∃ v : Value, stream.tokens = v.tokens ∧ stream.ending = .eof ∧ L.Admits v := by
    intro hok
    rcases stream_cases stream with hnil | ⟨v, hpart, hne⟩ | ⟨v, rest, hall⟩
    · obtain ⟨-, s, hs, hstarted, -⟩ := (accepted_iff hL).1 hok
      rw [hnil] at hs
      cases hs
      cases hstarted
    · exact absurd hok (truncated_refused hL hpart hne _)
    · rw [hall] at hok
      obtain ⟨rfl, hend, hfit⟩ := (accepted_value hL).1 hok
      exact ⟨v, by simpa using hall, hend, hfit⟩
  refine ⟨⟨hone, ?_⟩, fun hok => ?_⟩
  · rintro ⟨v, htokens, hend, hfit⟩
    rw [htokens, ← List.append_nil v.tokens]
    exact (accepted_value hL).2 ⟨rfl, hend, hfit⟩
  · obtain ⟨v, htokens, -⟩ := hone hok
    refine ⟨htokens ▸ tokens_ne_nil v, ?_, ?_⟩
    · intro w hpart
      by_contra hne
      exact truncated_refused hL hpart hne _ hok
    · intro values hvalues
      match values with
      | [] => exact absurd (htokens.symm.trans hvalues) (tokens_ne_nil v)
      | [w] => rfl
      | w :: x :: rest =>
        rw [hvalues, List.flatMap_cons] at hok
        obtain ⟨hnil, -⟩ := (accepted_value hL).1 hok
        rw [List.flatMap_cons] at hnil
        exact absurd (List.append_eq_nil_iff.1 hnil).1 (tokens_ne_nil x)

def sampleValue : Value :=
  .object [("values", .array [.string "one", .string "two"])]

def sampleStream : Stream := ⟨sampleValue.tokens, .eof, [sampleValue], by simp⟩

theorem complexity_admission_exact_sample :
    validateJSONComplexity ⟨16, 4, 16⟩ sampleStream.tokens sampleStream.ending = .ok () :=
  (complexity_admission_exact ⟨by decide, by decide, by decide⟩ sampleStream).1.2
    ⟨sampleValue, rfl, rfl, by decide, by decide, by decide⟩

end Niflhel.Fsutil
