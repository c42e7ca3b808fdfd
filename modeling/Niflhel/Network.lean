import Niflhel.Api
import Niflhel.Nftables

/-!
# Network resources of a sandbox

Addresses come from the slot of a sandbox, and the names of its namespace, interfaces and
table from its identifier. `prepare` creates the resources with a sequence of commands that
stops at the first failure, and `remove` deletes them by name.
-/

namespace Niflhel
namespace Network
open Internet Nftables GoText

structure Config where
  nameSpace : String
  hostVeth : String
  peerVeth : String
  hostIP : IPv4
  peerIP : IPv4
  table : String
  guestIP : IPv4
  gateway : IPv4
  deriving DecidableEq, Repr

def short (id : String) (n : ℕ) : String := String.ofList (id.toList.take n)

def forSandbox (id : String) (slot : ℕ) : Except String Config :=
  if id.utf8ByteSize ≠ 32 ∨ slot < 1 ∨ slot > 16000 then .error "invalid network allocation"
  else if !id.toList.all isHexDigit then .error "invalid sandbox ID"
  else
    let a := slot * 4
    .ok {
      nameSpace := "nf-" ++ short id 12
      hostVeth := "nh" ++ short id 10
      peerVeth := "np" ++ short id 10
      hostIP := octets 10 240 (a / 256) (a % 256 + 1)
      peerIP := octets 10 240 (a / 256) (a % 256 + 2)
      table := "nf_" ++ short id 12
      guestIP := octets 172 30 0 2
      gateway := octets 172 30 0 1 }

/-- Destinations that no sandbox may contact. -/
def reserved : List Block :=
  [⟨octets 0 0 0 0, 8⟩, ⟨octets 10 0 0 0, 8⟩, ⟨octets 100 64 0 0, 10⟩, ⟨octets 127 0 0 0, 8⟩,
    ⟨octets 169 254 0 0, 16⟩, ⟨octets 172 16 0 0, 12⟩, ⟨octets 192 0 0 0, 24⟩,
    ⟨octets 192 168 0 0, 16⟩, ⟨octets 198 18 0 0, 15⟩, ⟨octets 224 0 0 0, 4⟩, ⟨octets 240 0 0 0, 4⟩]

def inputChain (c : Config) : Chain where
  kind := .filter
  hook := .input
  priority := "-20"
  policy := true
  rules := [
    ⟨[.iifname c.hostVeth, .saddrNot c.peerIP], .drop⟩,
    ⟨[.iifname c.hostVeth, .daddr c.hostIP, .udpDport 53], .accept⟩,
    ⟨[.iifname c.hostVeth, .daddr c.hostIP, .tcpDport 53], .accept⟩,
    ⟨[.iifname c.hostVeth, .ctEstablished], .accept⟩,
    ⟨[.iifname c.hostVeth], .drop⟩]

def forwardChain (c : Config) : Chain where
  kind := .filter
  hook := .forward
  priority := "-20"
  policy := true
  rules := [
    ⟨[.iifname c.hostVeth, .nfprotoIPv6], .drop⟩,
    ⟨[.iifname c.hostVeth, .saddrNot c.peerIP], .drop⟩,
    ⟨[.iifname c.hostVeth, .ctEstablished], .accept⟩,
    ⟨[.iifname c.hostVeth, .daddrIn reserved], .drop⟩,
    ⟨[.iifname c.hostVeth], .accept⟩,
    ⟨[.oifname c.hostVeth, .ctEstablished], .accept⟩,
    ⟨[.oifname c.hostVeth, .ctDnat], .accept⟩,
    ⟨[.oifname c.hostVeth], .drop⟩]

def postroutingChain (c : Config) : Chain where
  kind := .nat
  hook := .postrouting
  priority := "srcnat"
  policy := true
  rules := [⟨[.saddr c.peerIP], .masquerade⟩, ⟨[.oifname c.hostVeth, .ctDnat], .masquerade⟩]

def preroutingChain (c : Config) (ports : List Port) : Chain where
  kind := .nat
  hook := .prerouting
  priority := "dstnat"
  policy := true
  rules := (ports.filter fun p => p.hostIP = "0.0.0.0").map fun p =>
    ⟨[.fibLocal, .tcpDport p.hostPort], .dnat c.peerIP p.containerPort⟩

def outputTarget (p : Port) : Match :=
  if p.hostIP = "0.0.0.0" then .fibLocal else .daddr (octets 127 0 0 1)

def outputChain (c : Config) (ports : List Port) : Chain where
  kind := .nat
  hook := .output
  priority := "dstnat"
  policy := true
  rules := ports.map fun p =>
    ⟨[outputTarget p, .tcpDport p.hostPort], .dnat c.peerIP p.containerPort⟩

def hostTable (c : Config) (ports : List Port) : Table where
  family := .inet
  name := c.table
  chains := [inputChain c, forwardChain c, postroutingChain c, preroutingChain c ports,
    outputChain c ports]

def hostRules (c : Config) (ports : List Port) : String :=
  (hostTable c ports).opening ++ (inputChain c).text .inet "  " ++ (forwardChain c).text .inet "  " ++
    (postroutingChain c).text .inet "  " ++ (preroutingChain c ports).text .inet " " ++
    (outputChain c ports).text .inet " " ++ "\x7d\n"

def guestAddress : IPv4 := octets 172 30 0 2

def namespacePostrouting (c : Config) : Chain where
  kind := .nat
  hook := .postrouting
  priority := "srcnat"
  policy := true
  rules := [⟨[.oifname c.peerVeth, .saddr guestAddress], .masquerade⟩]

def namespacePrerouting (c : Config) (ports : List Port) : Chain where
  kind := .nat
  hook := .prerouting
  priority := "dstnat"
  policy := true
  rules := ports.map fun p =>
    ⟨[.iifname c.peerVeth, .tcpDport p.containerPort], .dnat guestAddress p.containerPort⟩

def namespaceForward : Chain where
  kind := .filter
  hook := .forward
  priority := "filter"
  policy := false
  rules := [
    ⟨[.iifname "tap0", .saddrNot guestAddress], .drop⟩,
    ⟨[.ctEstablished], .accept⟩,
    ⟨[.iifname "tap0"], .accept⟩,
    ⟨[.ctDnat], .accept⟩]

def namespaceTable (c : Config) (ports : List Port) : Table where
  family := .ip
  name := "niflhel"
  chains := [namespacePostrouting c, namespacePrerouting c ports, namespaceForward]

/-- The function `NamespaceRules`, which writes the first chain on one line. -/
def namespaceRules (c : Config) (ports : List Port) : String :=
  (namespaceTable c ports).opening ++ (namespacePostrouting c).opening ++
    String.join ((namespacePostrouting c).rules.map fun r => " " ++ r.text .ip ++ ";") ++ " \x7d\n" ++
    (namespacePrerouting c ports).text .ip " " ++ namespaceForward.text .ip " " ++ "\x7d\n"

/-- A command with its arguments, or a table loaded into the host or into a namespace as a
script. -/
inductive Command where
  | run (words : List String)
  | nft (nameSpace : String) (table : Table) (script : String)
  deriving DecidableEq, Repr

def prepareCommands (c : Config) (ports : List Port) : List Command :=
  let hostIP := text c.hostIP
  [.run ["ip", "netns", "add", c.nameSpace],
    .run ["ip", "link", "add", c.hostVeth, "type", "veth", "peer", "name", c.peerVeth],
    .run ["ip", "link", "set", c.peerVeth, "netns", c.nameSpace],
    .run ["ip", "addr", "add", hostIP ++ "/30", "dev", c.hostVeth],
    .run ["ip", "link", "set", c.hostVeth, "up"],
    .run ["ip", "-n", c.nameSpace, "addr", "add", text c.peerIP ++ "/30", "dev", c.peerVeth],
    .run ["ip", "-n", c.nameSpace, "link", "set", c.peerVeth, "up"],
    .run ["ip", "-n", c.nameSpace, "link", "set", "lo", "up"],
    .run ["ip", "-n", c.nameSpace, "route", "add", "default", "via", hostIP],
    .run ["ip", "netns", "exec", c.nameSpace, "ip", "tuntap", "add", "dev", "tap0", "mode", "tap"],
    .run ["ip", "-n", c.nameSpace, "addr", "add", text c.gateway ++ "/30", "dev", "tap0"],
    .run ["ip", "-n", c.nameSpace, "link", "set", "tap0", "up"],
    .run ["ip", "netns", "exec", c.nameSpace, "sysctl", "-qw", "net.ipv4.ip_forward=1"],
    .run ["ip", "netns", "exec", c.nameSpace, "sysctl", "-qw", "net.ipv6.conf.all.disable_ipv6=1"],
    .nft "" (hostTable c ports) (hostRules c ports),
    .nft c.nameSpace (namespaceTable c ports) (namespaceRules c ports)]

def runAll (runner : Command → Option String) : List Command → List Command × Option String
  | [] => ([], none)
  | cmd :: rest =>
    match runner cmd with
    | some e => ([cmd], some e)
    | none => (cmd :: (runAll runner rest).1, (runAll runner rest).2)

/-- What `Prepare` asks of the host before it changes anything: the forwarding flag, the
routes, and whether a route covers an address. -/
structure Preflight where
  forwarding : Option String
  routes : Except String (List String)
  covers : String → IPv4 → Bool

def preflight (h : Preflight) (c : Config) : Option String :=
  if h.forwarding.map trimSpace ≠ some "1" then
    some "enable host net.ipv4.ip_forward before bridge networking"
  else
    match h.routes with
    | .error e => some e
    | .ok routes =>
      (routes.find? fun dst => dst ≠ "default" && dst ≠ "" && h.covers dst c.hostIP).map fun dst =>
        "sandbox address " ++ text c.hostIP ++ " conflicts with host route " ++ dst

def prepare (h : Preflight) (runner : Command → Option String) (s : Sandbox) :
    List Command × Option String :=
  if s.spec.network = "none" then ([], none)
  else
    match forSandbox s.id s.slot with
    | .error e => ([], some e)
    | .ok c =>
      match preflight h c with
      | some e => ([], some e)
      | none => runAll runner (prepareCommands c s.spec.ports)

def removeCommands (c : Config) : List Command :=
  [.run ["nft", "delete", "table", "inet", c.table], .run ["ip", "link", "delete", c.hostVeth],
    .run ["ip", "netns", "delete", c.nameSpace]]

def missing (e : String) : Bool :=
  contains e "No such" || contains e "Cannot find" || contains e "does not exist"

def remove (runner : Command → Option String) (s : Sandbox) : List Command × Option String :=
  if s.spec.network = "none" then ([], none)
  else
    match forSandbox s.id s.slot with
    | .error e => ([], some e)
    | .ok c => runAll (fun cmd => (runner cmd).filter fun e => !missing e) (removeCommands c)

inductive Resource where
  | nameSpace (name : String)
  | link (name : String)
  | table (name : String)
  deriving DecidableEq, Repr

def Command.creates : Command → List Resource
  | .run ["ip", "netns", "add", n] => [.nameSpace n]
  | .run ["ip", "link", "add", h, "type", "veth", "peer", "name", p] => [.link h, .link p]
  | .nft "" t _ => [.table t.name]
  | _ => []

def Command.deletes : Command → List Resource
  | .run ["nft", "delete", "table", "inet", t] => [.table t]
  | .run ["ip", "link", "delete", h] => [.link h]
  | .run ["ip", "netns", "delete", n] => [.nameSpace n]
  | _ => []

def Config.subnet (c : Config) : Block := ⟨c.hostIP, 30⟩

structure Apart (c₁ c₂ : Config) : Prop where
  subnets : ∀ ip, ¬ (c₁.subnet.contains ip = true ∧ c₂.subnet.contains ip = true)
  nameSpaces : c₁.nameSpace ≠ c₂.nameSpace
  hostVeths : c₁.hostVeth ≠ c₂.hostVeth
  peerVeths : c₁.peerVeth ≠ c₂.peerVeth
  tables : c₁.table ≠ c₂.table

section
variable {id id₁ id₂ : String} {slot slot₁ slot₂ : ℕ} {c c₁ c₂ : Config} {ports : List Port}
  {runner : Command → Option String} {cmd : Command} {cmds : List Command} {r : Resource}
  {h : Preflight} {s : Sandbox}

theorem utf8Size_of_hex {d : Char} (h : isHexDigit d = true) : d.utf8Size = 1 := by
  rw [Char.utf8Size_eq_one_iff]
  simp only [isHexDigit, Bool.or_eq_true, Bool.and_eq_true, decide_eq_true_eq] at h
  rcases h with ⟨_, h⟩ | ⟨_, h⟩
  · exact UInt32.le_trans h (show ('9' : Char).val ≤ 127 by decide)
  · exact UInt32.le_trans h (show ('f' : Char).val ≤ 127 by decide)

theorem utf8ByteSize_of_hex (h : id.toList.all isHexDigit = true) :
    id.utf8ByteSize = id.toList.length := by
  rw [← String.ofList_toList (s := id)]
  generalize id.toList = cs at h ⊢
  rw [String.utf8ByteSize_ofList, String.toList_ofList]
  induction cs with
  | nil => rfl
  | cons d cs ih =>
    obtain ⟨hd, hcs⟩ := Bool.and_eq_true_iff.1 h
    rw [String.utf8Len_cons, utf8Size_of_hex hd, ih hcs, List.length_cons]

theorem forSandbox_of_isID (hid : isID id = true) (hslot : 1 ≤ slot ∧ slot ≤ 16000) :
    ∃ c, forSandbox id slot = .ok c := by
  obtain ⟨hlen, hhex⟩ := Bool.and_eq_true_iff.1 hid
  have hsize : id.utf8ByteSize = 32 := (utf8ByteSize_of_hex hhex).trans (of_decide_eq_true hlen)
  unfold forSandbox
  rw [if_neg (by omega), if_neg (by simpa using hhex)]
  exact ⟨_, rfl⟩

structure Derived (id : String) (slot : ℕ) (c : Config) : Prop where
  range : 1 ≤ slot ∧ slot ≤ 16000
  nameSpace : c.nameSpace = "nf-" ++ short id 12
  hostVeth : c.hostVeth = "nh" ++ short id 10
  peerVeth : c.peerVeth = "np" ++ short id 10
  table : c.table = "nf_" ++ short id 12
  hostIP : c.hostIP.toNat = 10 * 2 ^ 24 + 240 * 2 ^ 16 + slot * 4 + 1
  peerIP : c.peerIP.toNat = 10 * 2 ^ 24 + 240 * 2 ^ 16 + slot * 4 + 2

theorem derived_of_ok (h : forSandbox id slot = .ok c) : Derived id slot c := by
  unfold forSandbox at h
  split_ifs at h with hsize hhex
  have hslot : 1 ≤ slot ∧ slot ≤ 16000 := by omega
  cases h
  refine ⟨hslot, rfl, rfl, rfl, rfl, ?_, ?_⟩
  · change (octets 10 240 (slot * 4 / 256) (slot * 4 % 256 + 1)).toNat = _
    rw [toNat_octets (by omega) (by omega) (by omega) (by omega)]
    omega
  · change (octets 10 240 (slot * 4 / 256) (slot * 4 % 256 + 2)).toNat = _
    rw [toNat_octets (by omega) (by omega) (by omega) (by omega)]
    omega

theorem text_append_inj {a b x : String} : x ++ a = x ++ b ↔ a = b := by
  constructor
  · intro h
    have hl := congrArg String.toList h
    rw [String.toList_append, String.toList_append] at hl
    exact String.toList_injective (List.append_cancel_left hl)
  · rintro rfl
    rfl

theorem short_of_short (h : short id₁ 12 = short id₂ 12) : short id₁ 10 = short id₂ 10 := by
  have hl := congrArg String.toList h
  simp only [short, String.toList_ofList] at hl ⊢
  have htake := congrArg (List.take 10) hl
  rw [List.take_take, List.take_take] at htake
  exact congrArg String.ofList htake

/-- The addresses of a subnet are the four of its slot. -/
theorem Derived.subnet_contains (hc : Derived id slot c) {ip : IPv4} :
    c.subnet.contains ip = true ↔ ip.toNat / 4 = 2621440 * 16 + 240 * 2 ^ 14 + slot := by
  rw [Block.contains_iff]
  change ip.toNat / 2 ^ 2 = c.hostIP.toNat / 2 ^ 2 ↔ _
  rw [hc.hostIP]
  omega

theorem Derived.subnet_inside (hc : Derived id slot c) {ip : IPv4} (h : c.subnet.contains ip = true) :
    (⟨octets 10 240 0 0, 16⟩ : Block).contains ip = true := by
  have hip := hc.subnet_contains.1 h
  have hrange := hc.range
  rw [Block.contains_iff]
  change ip.toNat / 2 ^ 16 = (octets 10 240 0 0).toNat / 2 ^ 16
  rw [toNat_octets (by omega) (by omega) (by omega) (by omega)]
  omega

theorem Derived.subnets_disjoint (h₁ : Derived id₁ slot₁ c₁) (h₂ : Derived id₂ slot₂ c₂)
    (hslot : slot₁ ≠ slot₂) (ip : IPv4) :
    ¬ (c₁.subnet.contains ip = true ∧ c₂.subnet.contains ip = true) := by
  rintro ⟨hip₁, hip₂⟩
  have e₁ := h₁.subnet_contains.1 hip₁
  have e₂ := h₂.subnet_contains.1 hip₂
  omega

/-- Addresses and names are apart exactly when the identifiers differ in their first ten
digits. -/
theorem Derived.apart_iff (h₁ : Derived id₁ slot₁ c₁) (h₂ : Derived id₂ slot₂ c₂)
    (hslot : slot₁ ≠ slot₂) : Apart c₁ c₂ ↔ short id₁ 10 ≠ short id₂ 10 := by
  constructor
  · intro hapart heq
    apply hapart.hostVeths
    rw [h₁.hostVeth, h₂.hostVeth, heq]
  · intro hne
    have hlong : short id₁ 12 ≠ short id₂ 12 := fun h => hne (short_of_short h)
    refine ⟨h₁.subnets_disjoint h₂ hslot, ?_, ?_, ?_, ?_⟩
    · rw [h₁.nameSpace, h₂.nameSpace, ne_eq, text_append_inj]
      exact hlong
    · rw [h₁.hostVeth, h₂.hostVeth, ne_eq, text_append_inj]
      exact hne
    · rw [h₁.peerVeth, h₂.peerVeth, ne_eq, text_append_inj]
      exact hne
    · rw [h₁.table, h₂.table, ne_eq, text_append_inj]
      exact hlong

theorem mem_of_mem_runAll (h : cmd ∈ (runAll runner cmds).1) : cmd ∈ cmds := by
  induction cmds with
  | nil => cases h
  | cons first rest ih =>
    unfold runAll at h
    split at h
    · rw [List.mem_singleton.1 h]
      exact List.mem_cons_self
    · rcases List.mem_cons.1 h with rfl | h
      · exact List.mem_cons_self
      · exact List.mem_cons_of_mem _ (ih h)

theorem deletes_of_remove (hc : forSandbox s.id s.slot = .ok c) (hcmd : cmd ∈ (remove runner s).1)
    (hr : r ∈ cmd.deletes) : r = .table c.table ∨ r = .link c.hostVeth ∨ r = .nameSpace c.nameSpace := by
  unfold remove at hcmd
  split_ifs at hcmd
  · cases hcmd
  rw [hc] at hcmd
  have hmem : r ∈ (removeCommands c).flatMap Command.deletes :=
    List.mem_flatMap.2 ⟨cmd, mem_of_mem_runAll hcmd, hr⟩
  change r ∈ [Resource.table c.table, .link c.hostVeth, .nameSpace c.nameSpace] at hmem
  simpa using hmem

theorem creates_nft {n : String} {t : Table} {script : String} (hn : n ≠ "") :
    (Command.nft n t script).creates = [] := by
  unfold Command.creates
  split
  · cases ‹Command.nft n t script = _›
  · cases ‹Command.nft n t script = _›
  · cases ‹Command.nft n t script = _›
    exact absurd rfl hn
  · rfl

theorem creates_of_prepare (hc : forSandbox s.id s.slot = .ok c) (hcmd : cmd ∈ (prepare h runner s).1)
    (hr : r ∈ cmd.creates) : r = .nameSpace c.nameSpace ∨ r = .link c.hostVeth ∨
      r = .link c.peerVeth ∨ r = .table c.table := by
  unfold prepare at hcmd
  split_ifs at hcmd
  · cases hcmd
  rw [hc] at hcmd
  dsimp only at hcmd
  split at hcmd
  · cases hcmd
  have hmem : r ∈ (prepareCommands c s.spec.ports).flatMap Command.creates :=
    List.mem_flatMap.2 ⟨cmd, mem_of_mem_runAll hcmd, hr⟩
  have hname : c.nameSpace ≠ "" := by
    rw [(derived_of_ok hc).nameSpace]
    intro hempty
    have hl := congrArg String.toList hempty
    rw [String.toList_append] at hl
    cases hl
  have hcreates : (prepareCommands c s.spec.ports).flatMap Command.creates =
      [.nameSpace c.nameSpace, .link c.hostVeth, .link c.peerVeth, .table c.table] ++
        ((Command.nft c.nameSpace (namespaceTable c s.spec.ports)
          (namespaceRules c s.spec.ports)).creates ++ []) := rfl
  rw [hcreates, creates_nft hname] at hmem
  simpa using hmem

end

/-- For sandboxes of different identifiers and slots, the subnets lie in the range and are
disjoint; no name is shared, and no removal names a resource that the other's preparation
creates, exactly when the identifiers differ in their first ten digits. -/
theorem network_disjoint_iff (s₁ s₂ : Sandbox) (hid₁ : isID s₁.id = true) (hid₂ : isID s₂.id = true)
    (hslot₁ : 1 ≤ s₁.slot ∧ s₁.slot ≤ 16000) (hslot₂ : 1 ≤ s₂.slot ∧ s₂.slot ≤ 16000)
    (_ : s₁.id ≠ s₂.id) (hslot : s₁.slot ≠ s₂.slot) :
    ∃ c₁ c₂, forSandbox s₁.id s₁.slot = .ok c₁ ∧ forSandbox s₂.id s₂.slot = .ok c₂ ∧
      ((∀ ip, c₁.subnet.contains ip = true ∨ c₂.subnet.contains ip = true →
          (⟨octets 10 240 0 0, 16⟩ : Block).contains ip = true) ∧
        Apart c₁ c₂ ∧
        (∀ runner₁ runner₂ h, ∀ cmd ∈ (remove runner₁ s₁).1, ∀ made ∈ (prepare h runner₂ s₂).1,
          ∀ r ∈ cmd.deletes, r ∉ made.creates) ↔
        short s₁.id 10 ≠ short s₂.id 10) := by
  obtain ⟨c₁, hc₁⟩ := forSandbox_of_isID hid₁ hslot₁
  obtain ⟨c₂, hc₂⟩ := forSandbox_of_isID hid₂ hslot₂
  have hd₁ := derived_of_ok hc₁
  have hd₂ := derived_of_ok hc₂
  have hiff := hd₁.apart_iff hd₂ hslot
  refine ⟨c₁, c₂, hc₁, hc₂, fun h => hiff.1 h.2.1, fun hne => ⟨?_, hiff.2 hne, ?_⟩⟩
  · rintro ip (hip | hip)
    · exact hd₁.subnet_inside hip
    · exact hd₂.subnet_inside hip
  · intro runner₁ runner₂ h cmd hcmd made hmade r hdel hcreate
    have hapart := hiff.2 hne
    have hlinks : c₁.hostVeth ≠ c₂.peerVeth := by
      rw [hd₁.hostVeth, hd₂.peerVeth]
      intro heq
      have hl := congrArg String.toList heq
      simp at hl
    have hmade' := creates_of_prepare hc₂ hmade hcreate
    rcases deletes_of_remove hc₁ hcmd hdel with rfl | rfl | rfl
    · simp [hapart.tables] at hmade'
    · simp [hapart.hostVeths, hlinks] at hmade'
    · simp [hapart.nameSpaces] at hmade'

def occupant (id : String) (slot : ℕ) : Sandbox where
  id := id
  name := "nf-" ++ short id 12
  spec := defaultSpec
  process := {}
  imageDigest := ""
  baseDigest := ""
  state := .running
  reason := ""
  warnings := []
  generation := 1
  created := 0
  updated := 0
  exit := none
  pid := 0
  pidStart := ""
  guestMemory := 0
  slot := slot
  vmResourcesReleased := false

def idA : String := String.ofList (List.replicate 32 'a')
def idB : String := String.ofList (List.replicate 31 'a' ++ ['b'])
def idC : String := String.ofList ('c' :: List.replicate 31 'a')

def forwardingHost : Preflight where
  forwarding := some "1"
  routes := .ok []
  covers _ _ := false

theorem network_disjoint_iff_different : short idA 10 ≠ short idC 10 ∧
    ∃ c₁ c₂, forSandbox idA 1 = .ok c₁ ∧ forSandbox idC 2 = .ok c₂ ∧ Apart c₁ c₂ := by
  have hne : short idA 10 ≠ short idC 10 := by decide
  obtain ⟨c₁, c₂, h₁, h₂, hiff⟩ := network_disjoint_iff (occupant idA 1) (occupant idC 2)
    (by decide) (by decide) (by decide) (by decide) (by decide) (by decide)
  exact ⟨hne, c₁, c₂, h₁, h₂, (hiff.2 hne).2.1⟩

/-- Removing one sandbox deletes an interface that was created for the other. -/
theorem removal_names_other : idA ≠ idB ∧ ∃ cmd ∈ (remove (fun _ => none) (occupant idA 1)).1,
      ∃ made ∈ (prepare forwardingHost (fun _ => none) (occupant idB 2)).1,
        Resource.link "nhaaaaaaaaaa" ∈ cmd.deletes ∧ Resource.link "nhaaaaaaaaaa" ∈ made.creates := by
  refine ⟨by decide, .run ["ip", "link", "delete", "nhaaaaaaaaaa"], by decide,
    .run ["ip", "link", "add", "nhaaaaaaaaaa", "type", "veth", "peer", "name", "npaaaaaaaaaa"], ?_,
    by decide, by decide⟩
  decide +kernel

end Network
end Niflhel
