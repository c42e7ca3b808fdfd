import Niflhel.Network

/-!
# Isolation of sandboxes on the host

The tables of any sandboxes are loaded together. Only the table of a sandbox itself decides
about the packets that arrive on its interface; the other tables can at most redirect such
a packet to one of their sandboxes, which the first table then drops.
-/

namespace Niflhel
namespace Network
open Internet Nftables

structure Deployment where
  id : String
  slot : ℕ
  ports : List Port
  config : Config
  allocated : forSandbox id slot = .ok config
  validated : validatePorts [] ports = .ok ()

def tables (all : List Deployment) : List Table := all.map fun d => hostTable d.config d.ports

/-- The packet leaves by `oif` if no table drops it on the way. -/
def forwarded (isLocal : IPv4 → Bool) (all : List Deployment) (p : Packet) (oif : String) : Bool :=
  passes isLocal .forward (tables all)
    { redirect isLocal .prerouting (tables all) p with oif := oif }

/-- The packet reaches a service of the host. -/
def delivered (isLocal : IPv4 → Bool) (all : List Deployment) (p : Packet) : Bool :=
  let q := redirect isLocal .prerouting (tables all) p
  Match.holds isLocal q .fibLocal && passes isLocal .input (tables all) q

section
variable {isLocal : IPv4 → Bool} {all : List Deployment} {d : Deployment} {p : Packet} {c : Config}
  {ip : IPv4} {port : ℤ}

theorem Deployment.derived (d : Deployment) : Derived d.id d.slot d.config := derived_of_ok d.allocated

variable {hook : Hook} {chain : Deployment → Chain}

theorem chainsAt_tables {kind : Kind} (h : ∀ d, chainsAt kind hook (tables [d]) = [chain d]) :
    chainsAt kind hook (tables all) = all.map chain := by
  induction all with
  | nil => rfl
  | cons d rest ih =>
    have hd := h d
    unfold tables chainsAt at ih hd ⊢
    rw [List.map_singleton, List.flatMap_singleton] at hd
    rw [List.map_cons, List.flatMap_cons, List.filter_append, ih, hd]
    rfl

theorem chainsAt_prerouting : chainsAt .nat .prerouting (tables all) =
    all.map fun d => preroutingChain d.config d.ports := chainsAt_tables fun _ => rfl

def portRules (target : Port → Match) (c : Config) (ports : List Port) : List Rule :=
  ports.map fun x => ⟨[target x, .tcpDport x.hostPort], .dnat c.peerIP x.containerPort⟩

theorem portRule_applies {target : Match} {x : Port} :
    (⟨[target, .tcpDport x.hostPort], .dnat ip port⟩ : Rule).applies isLocal p = true ↔
      target.holds isLocal p = true ∧ p.protocol = .tcp ∧ p.dport = x.hostPort ∧
        p.daddr.isSome = true := by
  simp [Rule.applies, Match.holds, Action.concerns, and_assoc]

theorem translation_sound {target : Port → Match}
    {select : Deployment → List Port} (hchains : chainsAt .nat hook (tables all) = all.map chain)
    (hrules : ∀ d, (chain d).rules = portRules target d.config (select d))
    (h : translation isLocal hook (tables all) p = some (ip, port)) :
    ∃ d ∈ all, ∃ x ∈ select d, (target x).holds isLocal p = true ∧ p.protocol = .tcp ∧
      p.dport = x.hostPort ∧ p.daddr.isSome = true ∧ ip = d.config.peerIP ∧ port = x.containerPort := by
  unfold translation at h
  rw [hchains] at h
  obtain ⟨ch, hch, hbind⟩ := List.exists_of_findSome?_eq_some h
  obtain ⟨d, hd, rfl⟩ := List.mem_map.1 hch
  obtain ⟨action, hdecides, htarget⟩ := Option.bind_eq_some_iff.1 hbind
  obtain ⟨rule, hfind, rfl⟩ := Option.map_eq_some_iff.1 hdecides
  have hrule := List.mem_of_find?_eq_some hfind
  rw [hrules, portRules] at hrule
  obtain ⟨x, hx, rfl⟩ := List.mem_map.1 hrule
  obtain ⟨hholds, hproto, hport, hv4⟩ := portRule_applies.1 (List.find?_some hfind)
  cases htarget
  exact ⟨d, hd, x, hx, hholds, hproto, hport, hv4, rfl, rfl⟩

theorem translation_complete {target : Port → Match}
    {select : Deployment → List Port} (hchains : chainsAt .nat hook (tables all) = all.map chain)
    (hrules : ∀ d, (chain d).rules = portRules target d.config (select d)) (hd : d ∈ all) {x : Port}
    (hx : x ∈ select d) (hholds : (target x).holds isLocal p = true) (hproto : p.protocol = .tcp)
    (hport : p.dport = x.hostPort) (hv4 : p.daddr.isSome = true) :
    ∃ goal, translation isLocal hook (tables all) p = some goal := by
  apply Option.isSome_iff_exists.1
  unfold translation
  rw [hchains, List.findSome?_isSome_iff]
  refine ⟨chain d, List.mem_map_of_mem hd, ?_⟩
  have hsome : ((chain d).rules.find? (·.applies isLocal p)).isSome = true := by
    rw [List.find?_isSome, hrules]
    exact ⟨_, List.mem_map_of_mem hx, portRule_applies.2 ⟨hholds, hproto, hport, hv4⟩⟩
  obtain ⟨rule, hfind⟩ := Option.isSome_iff_exists.1 hsome
  have hrule := List.mem_of_find?_eq_some hfind
  rw [hrules, portRules] at hrule
  obtain ⟨y, _, rfl⟩ := List.mem_map.1 hrule
  simp [Chain.decides, hfind, Action.target]

theorem prerouting_rules (d : Deployment) : (preroutingChain d.config d.ports).rules =
    portRules (fun _ => .fibLocal) d.config (d.ports.filter fun p => p.hostIP = "0.0.0.0") := rfl

/-- A redirected packet goes to the sandbox that publishes the port on all addresses. -/
theorem translation_prerouting (h : translation isLocal .prerouting (tables all) p = some (ip, port)) :
    ∃ d ∈ all, ∃ x ∈ d.ports, x.hostIP = "0.0.0.0" ∧ p.dport = x.hostPort ∧
      p.daddr.isSome = true ∧ ip = d.config.peerIP ∧ port = x.containerPort := by
  obtain ⟨d, hd, x, hx, _, _, hport, hv4, hip, hto⟩ :=
    translation_sound chainsAt_prerouting prerouting_rules h
  obtain ⟨hmem, hpublic⟩ := List.mem_filter.1 hx
  exact ⟨d, hd, x, hmem, of_decide_eq_true hpublic, hport, hv4, hip, hto⟩

theorem redirect_same {tabs : List Table} : (redirect isLocal hook tabs p).iif = p.iif ∧
      (redirect isLocal hook tabs p).connection = p.connection ∧
      (redirect isLocal hook tabs p).protocol = p.protocol ∧
      (redirect isLocal hook tabs p).saddr = p.saddr := by
  unfold redirect
  split
  · exact ⟨rfl, rfl, rfl, rfl⟩
  · unfold Packet.translate Packet.saddr
    split <;> simp_all

theorem accepts_forward (hiif : p.iif = c.hostVeth) (hnew : p.connection = .new)
    (h : (forwardChain c).accepts isLocal p = true) :
    p.saddr = some c.peerIP ∧ ∃ ip, p.daddr = some ip ∧ reserved.any (·.contains ip) = false := by
  unfold Chain.accepts at h
  rw [Chain.decides_cons rfl, Chain.decides_cons rfl, Chain.decides_cons rfl,
    Chain.decides_cons rfl, Chain.decides_cons rfl] at h
  simp only [Rule.applies, List.all_cons, List.all_nil, Action.concerns, Bool.and_true, Match.holds,
    hiif, hnew, beq_self_eq_true, Bool.true_and] at h
  split_ifs at h with hv6 hsource hold hreserved
  · cases h
  · cases h
  · cases hold
  · cases h
  all_goals
    cases haddr : p.addresses with
    | v6 toHost => simp [Packet.saddr, haddr] at hv6
    | v4 source destination =>
      simp only [Packet.saddr, Packet.daddr, haddr, Option.any_some, bne_iff_ne, ne_eq, not_not,
        Bool.not_eq_true] at hsource hreserved ⊢
      exact ⟨congrArg some hsource, destination, rfl, hreserved⟩

theorem accepts_input (hiif : p.iif = c.hostVeth) (hnew : p.connection = .new)
    (h : (inputChain c).accepts isLocal p = true) :
    p.daddr = some c.hostIP ∧ p.dport = 53 ∧ (p.protocol = .udp ∨ p.protocol = .tcp) := by
  unfold Chain.accepts at h
  rw [Chain.decides_cons rfl, Chain.decides_cons rfl, Chain.decides_cons rfl,
    Chain.decides_cons rfl, Chain.decides_cons rfl] at h
  simp only [Rule.applies, List.all_cons, List.all_nil, Action.concerns, Bool.and_true, Match.holds,
    hiif, hnew, beq_self_eq_true, Bool.true_and, beq_iff_eq, Bool.and_eq_true] at h
  split_ifs at h with hsource hudp htcp hold
  · cases h
  · exact ⟨hudp.1, hudp.2.2, Or.inl hudp.2.1⟩
  · exact ⟨htcp.1, htcp.2.2, Or.inr htcp.2.1⟩
  · cases hold
  · cases h

theorem daddr_translate (h : p.daddr.isSome = true) : (p.translate ip port).daddr = some ip := by
  unfold Packet.daddr at h
  split at h
  · rename_i source destination haddr
    simp [Packet.translate, Packet.daddr, haddr]
  · cases h

/-- All sandboxes lie in a reserved range. -/
theorem Deployment.peer_reserved (d : Deployment) :
    reserved.any (·.contains d.config.peerIP) = true := by
  have hpeer := d.derived.peerIP
  have hrange := d.derived.range
  apply List.any_eq_true.2
  refine ⟨⟨octets 10 0 0 0, 8⟩, by simp [reserved], ?_⟩
  rw [Block.contains_iff]
  change d.config.peerIP.toNat / 2 ^ 24 = (octets 10 0 0 0).toNat / 2 ^ 24
  rw [toNat_octets (by omega) (by omega) (by omega) (by omega), hpeer]
  omega

theorem peerIP_ne_hostIP (d e : Deployment) : d.config.peerIP ≠ e.config.hostIP := by
  intro heq
  have hnat := congrArg BitVec.toNat heq
  rw [d.derived.peerIP, e.derived.hostIP] at hnat
  omega

/-- A packet that a chain sends to the host's own service was not redirected. -/
theorem redirect_eq_self (h : (redirect isLocal .prerouting (tables all) p).daddr = some d.config.hostIP) :
    redirect isLocal .prerouting (tables all) p = p := by
  cases htrans : translation isLocal .prerouting (tables all) p with
  | none => simp [redirect, htrans]
  | some target =>
    obtain ⟨ip, port⟩ := target
    obtain ⟨e, _, _, _, _, _, hv4, rfl, _⟩ := translation_prerouting htrans
    simp only [redirect, htrans] at h
    rw [daddr_translate hv4] at h
    exact absurd (Option.some.inj h) (peerIP_ne_hostIP e d)

end

/-- New packets of a sandbox that are forwarded come from its own address and go to none of
the reserved ranges, so to no sandbox; those delivered to the host are questions to its name
server. -/
theorem new_packets_confined (isLocal : IPv4 → Bool) (all : List Deployment) (a : Deployment)
    (ha : a ∈ all) (p : Packet) (hnew : p.connection = .new) (hiif : p.iif = a.config.hostVeth) :
    (∀ oif, forwarded isLocal all p oif = true → p.saddr = some a.config.peerIP ∧
      ∃ ip, (redirect isLocal .prerouting (tables all) p).daddr = some ip ∧
        (∀ b ∈ reserved, b.contains ip = false) ∧ ∀ d ∈ all, ip ≠ d.config.peerIP) ∧
    (delivered isLocal all p = true → p.daddr = some a.config.hostIP ∧ p.dport = 53 ∧
      (p.protocol = .udp ∨ p.protocol = .tcp)) := by
  obtain ⟨hsame, hconnection, _, hsaddr⟩ :=
    @redirect_same isLocal p .prerouting (tables all)
  have htable : hostTable a.config a.ports ∈ tables all := List.mem_map.2 ⟨a, ha, rfl⟩
  constructor
  · intro oif hpass
    have haccepts := accepts_of_passes hpass htable
      (c := forwardChain a.config) (by simp [hostTable]) rfl rfl
    have hown : Packet.iif { redirect isLocal .prerouting (tables all) p with oif := oif } =
        a.config.hostVeth := hsame.trans hiif
    obtain ⟨hsource, ip, hip, hfree⟩ := accepts_forward hown (hconnection.trans hnew) haccepts
    have hout : ∀ b ∈ reserved, b.contains ip = false := by
      simpa only [List.any_eq_false, Bool.not_eq_true] using hfree
    refine ⟨hsaddr.symm.trans hsource, ip, hip, hout, fun d _ heq => ?_⟩
    rw [heq, d.peer_reserved] at hfree
    exact Bool.noConfusion hfree
  · intro hdelivered
    have haccepts := accepts_of_passes (Bool.and_eq_true_iff.1 hdelivered).2 htable
      (c := inputChain a.config) (by simp [hostTable]) rfl rfl
    have hdns := accepts_input (hsame.trans hiif) (hconnection.trans hnew) haccepts
    rwa [redirect_eq_self hdns.1] at hdns

def configA : Config where
  nameSpace := "nf-aaaaaaaaaaaa"
  hostVeth := "nhaaaaaaaaaa"
  peerVeth := "npaaaaaaaaaa"
  hostIP := octets 10 240 0 5
  peerIP := octets 10 240 0 6
  table := "nf_aaaaaaaaaaaa"
  guestIP := octets 172 30 0 2
  gateway := octets 172 30 0 1

def deploymentA : Deployment where
  id := idA
  slot := 1
  ports := []
  config := configA
  allocated := by decide
  validated := rfl

/-- Publishes port 8080 on all addresses and 9090 on the loopback address. -/
def deploymentC : Deployment where
  id := idC
  slot := 2
  ports := [⟨"0.0.0.0", 8080, 80⟩, ⟨"127.0.0.1", 9090, 90⟩]
  config := { configA with
    nameSpace := "nf-caaaaaaaaaaa", hostVeth := "nhcaaaaaaaaa", peerVeth := "npcaaaaaaaaa"
    hostIP := octets 10 240 0 9, peerIP := octets 10 240 0 10, table := "nf_caaaaaaaaaaa" }
  allocated := by decide
  validated := by decide

def opening (destination : IPv4) (port : ℤ) : Packet where
  iif := "nhaaaaaaaaaa"
  oif := ""
  addresses := .v4 (octets 10 240 0 6) destination
  protocol := .tcp
  dport := port
  connection := .new
  translated := false

/-- Another network is reached, and so is the name server. -/
theorem new_packets_confined_opening : let isLocal := fun ip => ip == octets 10 240 0 5
    let all := [deploymentA, deploymentC]
    forwarded isLocal all (opening (octets 93 184 216 34) 443) "eth0" = true ∧
      (opening (octets 93 184 216 34) 443).saddr = some deploymentA.config.peerIP ∧
      delivered isLocal all (opening (octets 10 240 0 5) 53) = true ∧
      (opening (octets 10 240 0 5) 53).daddr = some deploymentA.config.hostIP := by
  have hforward : forwarded (fun ip => ip == octets 10 240 0 5) [deploymentA, deploymentC]
      (opening (octets 93 184 216 34) 443) "eth0" = true := by decide +kernel
  have hdeliver : delivered (fun ip => ip == octets 10 240 0 5) [deploymentA, deploymentC]
      (opening (octets 10 240 0 5) 53) = true := by decide +kernel
  refine ⟨hforward, ?_, hdeliver, ?_⟩
  · exact ((new_packets_confined _ _ deploymentA (by simp) _ rfl rfl).1 _ hforward).1
  · exact ((new_packets_confined _ _ deploymentA (by simp) _ rfl rfl).2 hdeliver).1

end Network
end Niflhel
