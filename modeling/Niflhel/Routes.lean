import Mathlib.Data.List.TakeWhile
import Niflhel.Isolation

/-!
# Routes of the host

`Prepare` refuses a sandbox whose address a route of the host covers. A route is given as text:
`default`, a prefix, or the address of a single host. `ParseCIDR` accepts only a prefix, and the
check asks only about one of the four addresses of the sandbox.
-/

namespace Niflhel.Routes
open Internet Network GoText

/-- A field of an address: decimal, without leading zeros. -/
def octet (s : String) : Option ℕ :=
  (digits s.toList).filter fun n => n ≤ 255 && s == n.repr

def parseAddr (s : String) : Option IPv4 :=
  match (split s '.').map octet with
  | [some a, some b, some c, some d] => some (octets a b c d)
  | _ => none

def parseCIDR (s : String) : Option Block :=
  match cut s '/' with
  | (_, _, false) => none
  | (addr, mask, true) =>
    match parseAddr addr, digits mask.toList with
    | some ip, some n => if n ≤ 32 then some ⟨ip, n⟩ else none
    | _, _ => none

def covers (dst : String) (ip : IPv4) : Bool := (parseCIDR dst).any fun b => b.contains ip

theorem digit_ne {n : ℕ} {c d : Char} (hc : c ∈ n.repr.toList) (hd : d.isDigit = false) :
    d ≠ c := by
  rintro rfl
  rw [Nat.toList_repr] at hc
  rw [Nat.isDigit_of_mem_toDigits (by decide) (by decide) hc] at hd
  cases hd

theorem text_toList (ip : IPv4) : (text ip).toList = ['.'].intercalate
    ([ip.toNat / 2 ^ 24, ip.toNat / 2 ^ 16 % 256, ip.toNat / 2 ^ 8 % 256, ip.toNat % 256].map
      fun n => n.repr.toList) := by
  simp [text, List.intercalate, Nat.toString_eq_repr]

theorem parseAddr_text (ip : IPv4) : parseAddr (text ip) = some ip := by
  have hoctet : ∀ n ≤ 255, octet n.repr = some n := by
    intro n hn
    rw [octet, digits_repr]
    simp [hn]
  have hsplit : split (text ip) '.' = [(ip.toNat / 2 ^ 24).repr, (ip.toNat / 2 ^ 16 % 256).repr,
      (ip.toNat / 2 ^ 8 % 256).repr, (ip.toNat % 256).repr] := by
    rw [split, text_toList, List.splitOn_intercalate]
    · simp only [List.map_cons, List.map_nil, String.ofList_toList]
    · intro l hl hdot
      obtain ⟨n, -, rfl⟩ := List.mem_map.1 hl
      exact digit_ne hdot rfl rfl
    · simp
  rw [parseAddr, hsplit]
  simp only [List.map_cons, List.map_nil]
  rw [hoctet _ (by omega), hoctet _ (by omega), hoctet _ (by omega), hoctet _ (by omega)]
  refine congrArg some (BitVec.eq_of_toNat_eq ?_)
  rw [toNat_octets (by omega) (by omega) (by omega) (by omega)]
  omega

theorem slash_notMem_text (ip : IPv4) : '/' ∉ (text ip).toList := by
  rw [text_toList]
  intro hmem
  simp only [List.intercalate, List.map_cons, List.map_nil, List.intersperse_cons_cons,
    List.intersperse_singleton, List.flatten_cons, List.flatten_nil, List.append_nil, List.mem_append,
    List.mem_singleton] at hmem
  rcases hmem with h | h | h | h | h | h | h
  · exact digit_ne h rfl rfl
  · exact absurd h (by decide)
  · exact digit_ne h rfl rfl
  · exact absurd h (by decide)
  · exact digit_ne h rfl rfl
  · exact absurd h (by decide)
  · exact digit_ne h rfl rfl

theorem covers_text (a ip : IPv4) : covers (text a) ip = false := by
  have hcut : cut (text a) '/' = (text a, "", false) := by
    rw [cut, List.dropWhile_eq_nil_iff.2]
    intro c hc
    simpa using ne_of_mem_of_not_mem hc (slash_notMem_text a)
  rw [covers, parseCIDR, hcut]
  rfl

theorem covers_block {b : Block} (hb : b.length ≤ 32) (ip : IPv4) :
    covers b.text ip = b.contains ip := by
  have hne : ∀ c ∈ (text b.base).toList, (c != '/') = true := by
    intro c hc
    simpa using ne_of_mem_of_not_mem hc (slash_notMem_text b.base)
  have hcut : cut b.text '/' = (text b.base, b.length.repr, true) := by
    have hlist : b.text.toList = (text b.base).toList ++ '/' :: b.length.repr.toList := by
      simp [Block.text, Nat.toString_eq_repr]
    rw [cut, hlist, List.dropWhile_append_of_pos hne, List.takeWhile_append_of_pos hne]
    simp [-Nat.toList_repr]
  rw [covers, parseCIDR, hcut]
  dsimp only
  rw [parseAddr_text, digits_repr]
  simp [hb]

inductive Destination where
  | default
  | block (b : Block) (hb : b.length ≤ 32)
  | host (ip : IPv4)

def Destination.text : Destination → String
  | .default => "default"
  | .block b _ => b.text
  | .host ip => Internet.text ip

def Destination.contains : Destination → IPv4 → Bool
  | .default, _ => false
  | .block b _, ip => b.contains ip
  | .host a, ip => a == ip

/-- What `Prepare` finds on a host with these routes that forwards packets. -/
def preflightOf (routes : List Destination) : Preflight where
  forwarding := some "1\n"
  routes := .ok (routes.map Destination.text)
  covers := covers

/-- A destination the check can miss: a host of the subnet, or a prefix within the subnet. -/
def Destination.hidden (c : Config) : Destination → Bool
  | .default => false
  | .block b _ => 30 < b.length && c.subnet.contains b.base
  | .host a => c.subnet.contains a

section
variable {id : String} {slot : ℕ} {c : Config} {routes : List Destination}

theorem preflight_none : preflight (preflightOf routes) c = none ↔
    ∀ d ∈ routes, ∀ b hb, d = .block b hb → b.contains c.hostIP = false := by
  have hskip : ∀ dst : String, covers dst c.hostIP = true → dst ≠ "default" ∧ dst ≠ "" := by
    intro dst h
    constructor <;> rintro rfl <;> cases h
  have hcheck : preflight (preflightOf routes) c = none ↔
      ∀ d ∈ routes, covers d.text c.hostIP = false := by
    have hflag : (some "1\n").map trimSpace = some "1" := by decide
    simp only [preflight, preflightOf, hflag, ne_eq, not_true, if_false, Option.map_eq_none_iff,
      List.find?_eq_none, List.mem_map, forall_exists_index, and_imp, forall_apply_eq_imp_iff₂]
    refine forall₂_congr fun d _ => ?_
    cases hcover : covers d.text c.hostIP with
    | false => simp
    | true => simp [hskip _ hcover]
  rw [hcheck]
  refine forall₂_congr fun
    | .default, _ => ⟨fun _ _ _ h => (nomatch h), fun _ => rfl⟩
    | .host a, _ => ⟨fun _ _ _ h => (nomatch h), fun _ => covers_text a _⟩
    | .block b hb, _ => ?_
  rw [Destination.text, covers_block hb]
  refine ⟨?_, fun h => h b hb rfl⟩
  rintro h b' _ hsame
  obtain rfl := (Destination.block.inj hsame)
  exact h

/-- A prefix of at most 30 bits that meets the subnet contains the address of the host. -/
theorem contains_hostIP (hc : Derived id slot c) {b : Block} (hb : b.length ≤ 30) {ip : IPv4}
    (hip : c.subnet.contains ip = true) (h : b.contains ip = true) :
    b.contains c.hostIP = true := by
  rw [hc.subnet_contains] at hip
  rw [Block.contains_iff] at h ⊢
  have hsame : c.hostIP.toNat / 4 = ip.toNat / 4 := by
    rw [hip, hc.hostIP]
    omega
  -- Blocks of at most 30 bits do not separate addresses with the same first 30 bits.
  have hpow : 2 ^ (32 - b.length) = 4 * 2 ^ (30 - b.length) := by
    rw [show 32 - b.length = 2 + (30 - b.length) by omega, Nat.pow_add]
  rw [← h, hpow, ← Nat.div_div_eq_div_mul, ← Nat.div_div_eq_div_mul, hsame]

/-- A longer prefix lies within one subnet. -/
theorem base_of_contains (hc : Derived id slot c) {b : Block} (hb : 30 < b.length) {ip : IPv4}
    (hip : c.subnet.contains ip = true) (h : b.contains ip = true) :
    c.subnet.contains b.base = true := by
  rw [hc.subnet_contains] at hip ⊢
  rw [Block.contains_iff] at h
  have hdvd : 2 ^ (32 - b.length) ∣ 4 := pow_dvd_pow 2 (show 32 - b.length ≤ 2 by omega)
  obtain ⟨k, hk⟩ := hdvd
  rw [← hip, hk, ← Nat.div_div_eq_div_mul, ← Nat.div_div_eq_div_mul, h]

end

/-- No listed destination meets the subnet of a sandbox whose routes pass the check, exactly if
there is no destination that the check misses, or another one makes it fail. -/
theorem routes_apart_iff {id : String} {slot : ℕ} {c : Config} (hc : forSandbox id slot = .ok c)
    (routes : List Destination) :
    (preflight (preflightOf routes) c = none →
        ∀ d ∈ routes, ∀ ip, ¬ (c.subnet.contains ip = true ∧ d.contains ip = true)) ↔
      (∀ d ∈ routes, d.hidden c = false) ∨
        ∃ b hb, .block b hb ∈ routes ∧ b.contains c.hostIP = true := by
  have hd := derived_of_ok hc
  constructor
  · intro h
    by_cases hseen : ∃ b hb, .block b hb ∈ routes ∧ b.contains c.hostIP = true
    · exact .inr hseen
    · refine .inl fun d hmem => ?_
      have hpass : preflight (preflightOf routes) c = none := by
        rw [preflight_none]
        rintro d hmem b hb rfl
        exact Bool.eq_false_iff.2 fun hcontains => hseen ⟨b, hb, hmem, hcontains⟩
      have hapart := h hpass d hmem
      cases d with
      | default => rfl
      | host a =>
        refine Bool.eq_false_iff.2 fun hin => hapart a ⟨hin, ?_⟩
        exact beq_self_eq_true a
      | block b hb =>
        refine Bool.eq_false_iff.2 fun hin => hapart b.base ⟨?_, ?_⟩
        · exact (Bool.and_eq_true_iff.1 hin).2
        · exact Block.contains_iff.2 rfl
  · rintro h hpass d hmem ip ⟨hip, hcontains⟩
    rw [preflight_none] at hpass
    rcases h with hhidden | ⟨b, hb, hb', hcovers⟩
    · have hd' := hhidden d hmem
      cases d with
      | default => cases hcontains
      | host a =>
        obtain rfl := beq_iff_eq.1 hcontains
        exact absurd hip (Bool.eq_false_iff.1 hd')
      | block b hb =>
        by_cases hlen : b.length ≤ 30
        · have hhost := contains_hostIP hd hlen hip hcontains
          rw [hpass _ hmem b hb rfl] at hhost
          cases hhost
        · have hbase := base_of_contains hd (not_le.1 hlen) hip hcontains
          simp [Destination.hidden, hbase, hlen] at hd'
    · rw [hpass _ hb' b hb rfl] at hcovers
      cases hcovers

theorem routes_apart_iff_host :
    (preflight (preflightOf [.default, .host (octets 10 240 0 6)]) configA = none →
        ∀ d ∈ [Destination.default, .host (octets 10 240 0 6)], ∀ ip,
          ¬ (configA.subnet.contains ip = true ∧ d.contains ip = true)) ↔
      (∀ d ∈ [Destination.default, .host (octets 10 240 0 6)], d.hidden configA = false) ∨
        ∃ b hb, .block b hb ∈ [Destination.default, .host (octets 10 240 0 6)] ∧
          b.contains configA.hostIP = true :=
  @routes_apart_iff idA 1 configA rfl _

/-- A route to the address of the sandbox itself passes the check. -/
theorem host_route_missed : forSandbox idA 1 = .ok configA ∧
      preflight (preflightOf [.host (octets 10 240 0 6)]) configA = none ∧
      configA.subnet.contains (octets 10 240 0 6) = true ∧
      (Destination.host (octets 10 240 0 6)).contains (octets 10 240 0 6) = true := by
  decide +kernel

end Niflhel.Routes
