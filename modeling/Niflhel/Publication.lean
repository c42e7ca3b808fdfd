import Niflhel.Isolation
import Mathlib.Data.List.Pairwise

/-!
# Published ports

A connection to a published port is translated three times: by the host to the sandbox, in
the sandbox's namespace to the virtual machine, and in the virtual machine to the
application. The rules of the three places are composed here. That the host sends what it has
translated to the interface of the subnet is assumed of its routing; for connections to
127.0.0.1 this needs `route_localnet` on that interface.
-/

namespace Niflhel
namespace Network
open Internet Nftables

def appAddress : IPv4 := octets 10 0 0 2

/-- The rules that `prepareNetwork` adds with `iptables` in the virtual machine. -/
def guestTable (ports : List Port) : Table where
  family := .ip
  name := "nat"
  chains := [
    { kind := .nat, hook := .postrouting, priority := "srcnat", policy := true
      rules := [⟨[.oifname "eth0", .saddr appAddress], .masquerade⟩] },
    { kind := .nat, hook := .prerouting, priority := "dstnat", policy := true
      rules := ports.map fun p =>
        ⟨[.iifname "eth0", .tcpDport p.containerPort], .dnat appAddress p.containerPort⟩ }]

def entering (p : Packet) (iif : String) : Packet :=
  { p with iif := iif, oif := "", connection := .new, translated := false }

def ownAddress (d : Deployment) (ip : IPv4) : Bool := ip == d.config.peerIP || ip == d.config.gateway

def throughNamespace (d : Deployment) (p : Packet) : Option Packet :=
  let rules := [namespaceTable d.config d.ports]
  let q : Packet := { redirect (ownAddress d) .prerouting rules p with oif := "tap0" }
  if q.daddr == some guestAddress && passes (ownAddress d) .forward rules q then some q else none

def throughGuest (ports : List Port) (p : Packet) : Option ℤ :=
  let q := redirect (· == guestAddress) .prerouting [guestTable ports] p
  if q.daddr = some appAddress then some q.dport else none

def inside (d : Deployment) (p : Packet) : Option ℤ :=
  (throughNamespace d (entering p d.config.peerVeth)).bind fun q =>
    throughGuest d.ports (entering q "eth0")

def route (all : List Deployment) (ip : IPv4) : Option Deployment :=
  all.find? fun d => d.config.subnet.contains ip

def Packet.from (p : Packet) (ip : IPv4) : Packet :=
  match p.addresses with
  | .v4 _ destination => { p with addresses := .v4 ip destination }
  | .v6 _ => p

def leaving (isLocal : IPv4 → Bool) (all : List Deployment) (d : Deployment) (p : Packet) : Packet :=
  if masquerades isLocal (tables all) p then Packet.from p d.config.hostIP else p

/-- The sandbox and the application port that a packet from another machine reaches. -/
def fromOutside (isLocal : IPv4 → Bool) (all : List Deployment) (p : Packet) :
    Option (Deployment × ℤ) :=
  let q := redirect isLocal .prerouting (tables all) p
  if q.daddr.any isLocal then none
  else
    (q.daddr.bind (route all)).bind fun d =>
      let out := { q with oif := d.config.hostVeth }
      if passes isLocal .forward (tables all) out then
        (inside d (leaving isLocal all d out)).map fun port => (d, port)
      else none

def fromHost (isLocal : IPv4 → Bool) (all : List Deployment) (p : Packet) : Option (Deployment × ℤ) :=
  let q := redirect isLocal .output (tables all) p
  if q.daddr.any isLocal then none
  else
    (q.daddr.bind (route all)).bind fun d =>
      (inside d (leaving isLocal all d { q with oif := d.config.hostVeth })).map fun port => (d, port)

section
variable {isLocal : IPv4 → Bool} {all : List Deployment} {d e : Deployment} {p q : Packet}
  {ip : IPv4} {port : ℤ} {x y : Port}

/-- Rules that pass a port on without changing it. -/
theorem decides_containerPorts {ch : Chain} {ports : List Port} {iif : String} (hrules : ch.rules =
      ports.map fun p => ⟨[.iifname iif, .tcpDport p.containerPort], .dnat ip p.containerPort⟩)
    (hiif : p.iif = iif) (hproto : p.protocol = .tcp) (hv4 : p.daddr.isSome = true) (hx : x ∈ ports)
    (hport : p.dport = x.containerPort) : ch.decides isLocal p = some (.dnat ip p.dport) := by
  have hsome : (ch.rules.find? (·.applies isLocal p)).isSome = true := by
    rw [List.find?_isSome, hrules]
    refine ⟨_, List.mem_map_of_mem hx, ?_⟩
    simp [Rule.applies, Match.holds, Action.concerns, hiif, hproto, hport, hv4]
  obtain ⟨rule, hfind⟩ := Option.isSome_iff_exists.1 hsome
  have hmem := List.mem_of_find?_eq_some hfind
  have happlies := List.find?_some hfind
  rw [hrules] at hmem
  obtain ⟨y, _, rfl⟩ := List.mem_map.1 hmem
  have hy : p.dport = y.containerPort := by
    simp only [Rule.applies, List.all_cons, List.all_nil, Match.holds, Bool.and_eq_true,
      beq_iff_eq] at happlies
    exact happlies.1.2.1.2
  simp [Chain.decides, hfind, hy]

theorem redirect_of_decides {hook : Hook} {t : Table} {ch : Chain}
    (hchains : chainsAt .nat hook [t] = [ch]) (h : ch.decides isLocal p = some (.dnat ip port)) :
    redirect isLocal hook [t] p = p.translate ip port := by
  have htrans : translation isLocal hook [t] p = some (ip, port) := by
    simp [translation, hchains, h, Action.target]
  simp [redirect, htrans]

theorem translate_v4 (h : p.daddr.isSome = true) : ∃ source, p.translate ip port =
    { p with addresses := .v4 source ip, dport := port, translated := true } := by
  unfold Packet.daddr at h
  split at h
  · rename_i source destination haddr
    exact ⟨source, by simp [Packet.translate, haddr]⟩
  · cases h

theorem namespaceForward_accepts (hiif : p.iif ≠ "tap0") (hnew : p.connection = .new)
    (htranslated : p.translated = true) : namespaceForward.accepts isLocal p = true := by
  simp [Chain.accepts, Chain.decides, namespaceForward, Rule.applies, Match.holds, Action.concerns,
    hiif, hnew, htranslated]

theorem Deployment.peerVeth_ne (d : Deployment) : d.config.peerVeth ≠ "tap0" := by
  rw [d.derived.peerVeth]
  intro heq
  have hl := congrArg String.toList heq
  rw [String.toList_append] at hl
  cases hl

theorem throughNamespace_of_mem (hiif : p.iif = d.config.peerVeth) (hnew : p.connection = .new)
    (hproto : p.protocol = .tcp) (hv4 : p.daddr.isSome = true) (hx : x ∈ d.ports)
    (hport : p.dport = x.containerPort) : ∃ q, throughNamespace d p = some q ∧ q.protocol = .tcp ∧
      q.daddr.isSome = true ∧ q.dport = p.dport := by
  have hdecides : (namespacePrerouting d.config d.ports).decides (ownAddress d) p =
      some (.dnat guestAddress p.dport) := decides_containerPorts rfl hiif hproto hv4 hx hport
  have hfirst : redirect (ownAddress d) .prerouting [namespaceTable d.config d.ports] p =
      p.translate guestAddress p.dport := redirect_of_decides rfl hdecides
  obtain ⟨source, hto⟩ := @translate_v4 p guestAddress p.dport hv4
  have haccepts : namespaceForward.accepts (ownAddress d)
      { p with oif := "tap0", addresses := .v4 source guestAddress, translated := true } = true :=
    namespaceForward_accepts (fun htap => d.peerVeth_ne (hiif.symm.trans htap)) hnew rfl
  have hpass : passes (ownAddress d) .forward [namespaceTable d.config d.ports]
      { p with oif := "tap0", addresses := .v4 source guestAddress, translated := true } = true := by
    change (namespaceForward.accepts _ _ && true) = true
    rw [haccepts]
    rfl
  refine ⟨{ p with oif := "tap0", addresses := .v4 source guestAddress, translated := true }, ?_,
    hproto, rfl, rfl⟩
  unfold throughNamespace
  dsimp only
  rw [hfirst, hto, if_pos]
  simpa [Packet.daddr] using hpass

theorem throughGuest_of_mem {ports : List Port} (hiif : p.iif = "eth0") (hproto : p.protocol = .tcp)
    (hv4 : p.daddr.isSome = true) (hx : x ∈ ports) (hport : p.dport = x.containerPort) :
    throughGuest ports p = some p.dport := by
  obtain ⟨ch, hchain, hrules⟩ : ∃ ch, chainsAt .nat .prerouting [guestTable ports] = [ch] ∧
      ch.rules = ports.map fun p =>
        ⟨[.iifname "eth0", .tcpDport p.containerPort], .dnat appAddress p.containerPort⟩ :=
    ⟨_, rfl, rfl⟩
  have hfirst : redirect (· == guestAddress) .prerouting [guestTable ports] p =
      p.translate appAddress p.dport :=
    redirect_of_decides hchain (decides_containerPorts hrules hiif hproto hv4 hx hport)
  obtain ⟨source, hto⟩ := @translate_v4 p appAddress p.dport hv4
  unfold throughGuest
  rw [hfirst, hto]
  rfl

theorem inside_of_mem (hproto : p.protocol = .tcp) (hv4 : p.daddr.isSome = true) (hx : x ∈ d.ports)
    (hport : p.dport = x.containerPort) : inside d p = some p.dport := by
  obtain ⟨q, hq, hqproto, hqv4, hqport⟩ :=
    @throughNamespace_of_mem d (entering p d.config.peerVeth) x rfl rfl hproto hv4 hx hport
  have hguest : throughGuest d.ports (entering q "eth0") = some q.dport :=
    throughGuest_of_mem rfl hqproto hqv4 hx (hqport.trans hport)
  rw [inside, hq, Option.bind_some, hguest, hqport]
  rfl

theorem chainsAt_output : chainsAt .nat .output (tables all) =
    all.map fun d => outputChain d.config d.ports := chainsAt_tables fun _ => rfl

theorem output_rules (d : Deployment) : (outputChain d.config d.ports).rules =
    portRules outputTarget d.config d.ports := rfl

theorem chainsAt_forward : chainsAt .filter .forward (tables all) =
    all.map fun d => forwardChain d.config := chainsAt_tables fun _ => rfl

theorem passes_forward (houtside : ∀ e ∈ all, p.iif ≠ e.config.hostVeth)
    (htranslated : p.translated = true) : passes isLocal .forward (tables all) p = true := by
  unfold passes
  rw [chainsAt_forward, List.all_eq_true]
  intro ch hch
  obtain ⟨e, he, rfl⟩ := List.mem_map.1 hch
  have hiif := houtside e he
  by_cases hoif : p.oif = e.config.hostVeth
  · by_cases hold : p.connection = .established ∨ p.connection = .related
    · simp [Chain.accepts, Chain.decides, forwardChain, Rule.applies, Match.holds, Action.concerns,
        hiif, hoif, htranslated, hold]
    · simp [Chain.accepts, Chain.decides, forwardChain, Rule.applies, Match.holds, Action.concerns,
        hiif, hoif, htranslated, hold]
  · simp [Chain.accepts, Chain.decides, forwardChain, Rule.applies, Match.holds, Action.concerns,
      hiif, hoif]

theorem port_unique (hports : (all.flatMap fun d => d.ports.map Port.hostPort).Nodup) (hd : d ∈ all)
    (he : e ∈ all) (hx : x ∈ d.ports) (hy : y ∈ e.ports) (h : x.hostPort = y.hostPort) :
    d = e ∧ x = y := by
  obtain ⟨heach, hpair⟩ := List.nodup_flatMap.1 hports
  have hde : d = e := by
    by_contra hne
    have hsymm : Std.Symm (Function.onFun List.Disjoint fun d : Deployment =>
        d.ports.map Port.hostPort) := ⟨fun _ _ h => List.Disjoint.symm h⟩
    apply hpair.forall hd he hne (List.mem_map_of_mem hx)
    rw [h]
    exact List.mem_map_of_mem hy
  subst hde
  exact ⟨rfl, List.inj_on_of_nodup_map (heach d hd) hx hy h⟩

theorem route_peerIP (hslots : (all.map Deployment.slot).Nodup) (hd : d ∈ all) :
    route all d.config.peerIP = some d := by
  have hcontains : ∀ e : Deployment, e.config.subnet.contains d.config.peerIP = true ↔ e.slot = d.slot := by
    intro e
    rw [e.derived.subnet_contains, d.derived.peerIP]
    omega
  have hsome : (route all d.config.peerIP).isSome = true := by
    unfold route
    rw [List.find?_isSome]
    exact ⟨d, hd, (hcontains d).2 rfl⟩
  obtain ⟨e, he⟩ := Option.isSome_iff_exists.1 hsome
  have hfind : all.find? (fun e => e.config.subnet.contains d.config.peerIP) = some e := he
  have hchosen := List.find?_some hfind
  have hslot : e.slot = d.slot := (hcontains e).1 hchosen
  rw [he, List.inj_on_of_nodup_map hslots (List.mem_of_find?_eq_some hfind) hd hslot]

theorem leaving_same : (leaving isLocal all d p).protocol = p.protocol ∧
    (leaving isLocal all d p).dport = p.dport ∧ (leaving isLocal all d p).daddr = p.daddr := by
  unfold leaving Packet.from
  split_ifs
  · unfold Packet.daddr
    split <;> simp_all
  · exact ⟨rfl, rfl, rfl⟩

def sentTo (d : Deployment) (x : Port) (source : IPv4) (p : Packet) : Packet :=
  { p with
    oif := d.config.hostVeth, addresses := .v4 source d.config.peerIP
    dport := x.containerPort, translated := true }

/-- It leaves the host and arrives. -/
theorem inside_leaving (hproto : p.protocol = .tcp) (hx : x ∈ d.ports) (source : IPv4) :
    inside d (leaving isLocal all d (sentTo d x source p)) = some x.containerPort := by
  obtain ⟨hsame, hdport, hdaddr⟩ := @leaving_same isLocal all d (sentTo d x source p)
  have hv4 : (leaving isLocal all d (sentTo d x source p)).daddr.isSome = true := by
    rw [hdaddr]
    rfl
  rw [inside_of_mem (hsame.trans hproto) hv4 hx hdport, hdport]
  rfl

theorem redirect_v4 {hook : Hook} {tabs : List Table} (hv4 : p.daddr.isSome = true)
    (h : translation isLocal hook tabs p = some (ip, port)) : ∃ source, redirect isLocal hook tabs p =
      { p with addresses := .v4 source ip, dport := port, translated := true } := by
  rw [redirect, h]
  exact translate_v4 hv4

section arrival
variable (hslots : (all.map Deployment.slot).Nodup)
  (hpeers : ∀ d ∈ all, isLocal d.config.peerIP = false) (hproto : p.protocol = .tcp)
include hslots hpeers hproto

theorem fromOutside_of_translation (houtside : ∀ e ∈ all, p.iif ≠ e.config.hostVeth) (hd : d ∈ all)
    (hx : x ∈ d.ports) (hv4 : p.daddr.isSome = true)
    (h : translation isLocal .prerouting (tables all) p = some (d.config.peerIP, x.containerPort)) :
    fromOutside isLocal all p = some (d, x.containerPort) := by
  obtain ⟨source, hfirst⟩ := redirect_v4 hv4 h
  unfold fromOutside
  rw [hfirst]
  simp only [Packet.daddr, Option.any_some, hpeers d hd, Bool.false_eq_true, if_false,
    Option.bind_some, route_peerIP hslots hd]
  have hpass : passes isLocal .forward (tables all) (sentTo d x source p) = true :=
    passes_forward houtside rfl
  have harrive := @inside_leaving isLocal all d p x hproto hx source
  unfold sentTo at hpass harrive
  rw [if_pos hpass, harrive, Option.map_some]

theorem fromHost_of_translation (hd : d ∈ all) (hx : x ∈ d.ports) (hv4 : p.daddr.isSome = true)
    (h : translation isLocal .output (tables all) p = some (d.config.peerIP, x.containerPort)) :
    fromHost isLocal all p = some (d, x.containerPort) := by
  obtain ⟨source, hfirst⟩ := redirect_v4 hv4 h
  unfold fromHost
  rw [hfirst]
  simp only [Packet.daddr, Option.any_some, hpeers d hd, Bool.false_eq_true, if_false,
    Option.bind_some, route_peerIP hslots hd]
  have harrive := @inside_leaving isLocal all d p x hproto hx source
  unfold sentTo at harrive
  rw [harrive, Option.map_some]

end arrival

theorem fromOutside_of_none (h : translation isLocal .prerouting (tables all) p = none)
    (hlocal : p.daddr.any isLocal = true) : fromOutside isLocal all p = none := by
  simp [fromOutside, redirect, h, hlocal]

theorem fromHost_of_none (h : translation isLocal .output (tables all) p = none)
    (hlocal : p.daddr.any isLocal = true) : fromHost isLocal all p = none := by
  simp [fromHost, redirect, h, hlocal]

theorem translation_exact {hook : Hook} {target : Port → Match} {chain : Deployment → Chain}
    {select : Deployment → List Port} (hchains : chainsAt .nat hook (tables all) = all.map chain)
    (hrules : ∀ d, (chain d).rules = portRules target d.config (select d))
    (hselect : ∀ d, select d ⊆ d.ports)
    (hports : (all.flatMap fun d => d.ports.map Port.hostPort).Nodup) (hd : d ∈ all)
    (hx : x ∈ select d) (hholds : (target x).holds isLocal p = true) (hproto : p.protocol = .tcp)
    (hport : p.dport = x.hostPort) (hv4 : p.daddr.isSome = true) :
    translation isLocal hook (tables all) p = some (d.config.peerIP, x.containerPort) := by
  obtain ⟨⟨ip, port⟩, h⟩ := translation_complete hchains hrules hd hx hholds hproto hport hv4
  obtain ⟨e, he, y, hy, _, _, hport', _, rfl, rfl⟩ := translation_sound hchains hrules h
  obtain ⟨rfl, rfl⟩ := port_unique hports hd he (hselect d hx) (hselect e hy) (hport.symm.trans hport')
  exact h

theorem holds_fibLocal (h : p.daddr.any isLocal = true) :
    Match.fibLocal.holds isLocal p = true ∧ p.daddr.isSome = true := by
  unfold Packet.daddr at h ⊢
  unfold Match.holds
  cases haddr : p.addresses with
  | v4 source destination => simpa [haddr] using h
  | v6 toHost => simp [haddr] at h

/-- Connections to 127.0.0.1 match the rule of every published port. -/
theorem holds_outputTarget (h : p.daddr = some (octets 127 0 0 1))
    (hlocal : isLocal (octets 127 0 0 1) = true) : (outputTarget x).holds isLocal p = true := by
  unfold outputTarget
  split_ifs
  · apply (holds_fibLocal _).1
    rw [h, Option.any_some, hlocal]
  · simp [Match.holds, h]

theorem fromOutside_eq_some_iff (hslots : (all.map Deployment.slot).Nodup)
    (hports : (all.flatMap fun d => d.ports.map Port.hostPort).Nodup)
    (hpeers : ∀ d ∈ all, isLocal d.config.peerIP = false) (hproto : p.protocol = .tcp)
    (houtside : ∀ e ∈ all, p.iif ≠ e.config.hostVeth) (hlocal : p.daddr.any isLocal = true) :
    fromOutside isLocal all p = some (d, port) ↔ d ∈ all ∧ ⟨"0.0.0.0", p.dport, port⟩ ∈ d.ports := by
  obtain ⟨hfib, hv4⟩ := holds_fibLocal hlocal
  constructor
  · intro h
    cases htrans : translation isLocal .prerouting (tables all) p with
    | none =>
      rw [fromOutside_of_none htrans hlocal] at h
      cases h
    | some goal =>
      obtain ⟨ip, q⟩ := goal
      obtain ⟨e, he, y, hy, hpublic, hport, _, rfl, rfl⟩ := translation_prerouting htrans
      rw [fromOutside_of_translation hslots hpeers hproto houtside he hy hv4 htrans] at h
      cases h
      refine ⟨he, ?_⟩
      rw [hport, ← hpublic]
      exact hy
  · rintro ⟨hd, hx⟩
    have hselected : (⟨"0.0.0.0", p.dport, port⟩ : Port) ∈
        d.ports.filter fun x => x.hostIP == "0.0.0.0" := List.mem_filter.2 ⟨hx, beq_self_eq_true _⟩
    exact fromOutside_of_translation hslots hpeers hproto houtside hd hx hv4
      (translation_exact chainsAt_prerouting prerouting_rules (fun _ => List.filter_subset_self _) hports
        hd hselected hfib hproto rfl hv4)

theorem fromHost_eq_some_iff (hslots : (all.map Deployment.slot).Nodup)
    (hports : (all.flatMap fun d => d.ports.map Port.hostPort).Nodup)
    (hpeers : ∀ d ∈ all, isLocal d.config.peerIP = false) (hproto : p.protocol = .tcp)
    (hloopback : isLocal (octets 127 0 0 1) = true) (hdaddr : p.daddr = some (octets 127 0 0 1)) :
    fromHost isLocal all p = some (d, port) ↔
      d ∈ all ∧ ∃ x ∈ d.ports, x.hostPort = p.dport ∧ x.containerPort = port := by
  have hlocal : p.daddr.any isLocal = true := by rw [hdaddr, Option.any_some, hloopback]
  have hv4 : p.daddr.isSome = true := by rw [hdaddr, Option.isSome_some]
  constructor
  · intro h
    cases htrans : translation isLocal .output (tables all) p with
    | none =>
      rw [fromHost_of_none htrans hlocal] at h
      cases h
    | some goal =>
      obtain ⟨ip, q⟩ := goal
      obtain ⟨e, he, y, hy, _, _, hport, _, rfl, rfl⟩ :=
        translation_sound chainsAt_output output_rules htrans
      rw [fromHost_of_translation hslots hpeers hproto he hy hv4 htrans] at h
      cases h
      exact ⟨he, y, hy, hport.symm, rfl⟩
  · rintro ⟨hd, x, hx, hport, rfl⟩
    exact fromHost_of_translation hslots hpeers hproto hd hx hv4
      (translation_exact chainsAt_output output_rules (fun _ => List.Subset.refl _) hports hd hx
        (holds_outputTarget hdaddr hloopback) hproto hport.symm hv4)

theorem hostIP_of_validated {ports : List Port} {seen : List ℤ} (h : validatePorts seen ports = .ok ())
    (hx : x ∈ ports) : x.hostIP = "127.0.0.1" ∨ x.hostIP = "0.0.0.0" := by
  induction ports generalizing seen with
  | nil => cases hx
  | cons y rest ih =>
    unfold validatePorts at h
    split_ifs at h with hip
    rcases List.mem_cons.1 hx with rfl | hx
    · exact or_iff_not_and_not.2 hip
    · exact ih h hx

end

section
variable (isLocal : IPv4 → Bool) (all : List Deployment)

/-- A connection from another machine reaches a sandbox at a port exactly when the sandbox
publishes it on all addresses, and one from the host to 127.0.0.1 exactly when it is published
at all. A port of the loopback address only is not reachable from other machines. -/
theorem published_ports_exact (hslots : (all.map Deployment.slot).Nodup)
    (hports : (all.flatMap fun d => d.ports.map Port.hostPort).Nodup)
    (hpeers : ∀ d ∈ all, isLocal d.config.peerIP = false)
    (hloopback : isLocal (octets 127 0 0 1) = true) (p : Packet) (hproto : p.protocol = .tcp) :
    ((∀ e ∈ all, p.iif ≠ e.config.hostVeth) → p.daddr.any isLocal = true →
      (∀ d port, fromOutside isLocal all p = some (d, port) ↔
        d ∈ all ∧ ⟨"0.0.0.0", p.dport, port⟩ ∈ d.ports) ∧
      ∀ d ∈ all, ∀ port, ⟨"127.0.0.1", p.dport, port⟩ ∈ d.ports → fromOutside isLocal all p = none) ∧
    (p.daddr = some (octets 127 0 0 1) →
      ∀ d port, fromHost isLocal all p = some (d, port) ↔
        d ∈ all ∧ (⟨"127.0.0.1", p.dport, port⟩ ∈ d.ports ∨ ⟨"0.0.0.0", p.dport, port⟩ ∈ d.ports)) := by
  refine ⟨fun houtside hlocal => ?_, fun hdaddr d port => ?_⟩
  · have hiff : ∀ d port, fromOutside isLocal all p = some (d, port) ↔
        d ∈ all ∧ ⟨"0.0.0.0", p.dport, port⟩ ∈ d.ports := fun d port =>
      fromOutside_eq_some_iff hslots hports hpeers hproto houtside hlocal
    refine ⟨hiff, fun d hd port hx => ?_⟩
    cases hreach : fromOutside isLocal all p with
    | none => rfl
    | some goal =>
      obtain ⟨he, hy⟩ := (hiff goal.1 goal.2).1 hreach
      have hsame := (port_unique hports hd he hx hy rfl).2
      have hip : "127.0.0.1" = "0.0.0.0" := congrArg Port.hostIP hsame
      exact absurd hip (by decide)
  · rw [fromHost_eq_some_iff hslots hports hpeers hproto hloopback hdaddr]
    constructor
    · rintro ⟨hd, x, hx, hport, rfl⟩
      refine ⟨hd, ?_⟩
      rw [← hport]
      rcases hostIP_of_validated d.validated hx with hip | hip
      · left
        rw [← hip]
        exact hx
      · right
        rw [← hip]
        exact hx
    · rintro ⟨hd, hx | hx⟩
      · exact ⟨hd, _, hx, rfl, rfl⟩
      · exact ⟨hd, _, hx, rfl, rfl⟩

end

def incoming : Packet where
  iif := "eth0"
  oif := ""
  addresses := .v4 (octets 192 0 2 7) (octets 192 0 2 1)
  protocol := .tcp
  dport := 8080
  connection := .new
  translated := false

theorem published_ports_exact_incoming :
    let isLocal := fun ip => ip == octets 192 0 2 1 || ip == octets 127 0 0 1
    fromOutside isLocal [deploymentA, deploymentC] incoming = some (deploymentC, 80) ∧
      fromHost isLocal [deploymentA, deploymentC]
        { incoming with addresses := .v4 (octets 127 0 0 1) (octets 127 0 0 1), dport := 9090 } =
          some (deploymentC, 90) := by
  have hfirst := published_ports_exact
    (fun ip => ip == octets 192 0 2 1 || ip == octets 127 0 0 1) [deploymentA, deploymentC]
    (by decide) (by decide) (by decide) (by decide) incoming rfl
  have hsecond := published_ports_exact
    (fun ip => ip == octets 192 0 2 1 || ip == octets 127 0 0 1) [deploymentA, deploymentC]
    (by decide) (by decide) (by decide) (by decide)
    { incoming with addresses := .v4 (octets 127 0 0 1) (octets 127 0 0 1), dport := 9090 } rfl
  constructor
  · exact ((hfirst.1 (by decide) (by decide)).1 deploymentC 80).2 ⟨by simp, by decide⟩
  · exact (hsecond.2 rfl deploymentC 90).2 ⟨by simp, by decide⟩

end Network
end Niflhel
