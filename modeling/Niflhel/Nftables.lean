import Mathlib.Data.BitVec
import Mathlib.Tactic.Common

/-!
# Internet addresses and packet filter rules

Addresses of version 4 are words of 32 bits; a block is the addresses with a common prefix.

Tables of base chains as the kernel's packet filter evaluates them. The rules of a chain are
tried in order and the first one that applies decides. A packet passes a hook when no chain
of any table drops it there, and its destination is translated by the first rule of any
table that does so.
-/

namespace Internet

abbrev IPv4 := BitVec 32

def octets (a b c d : ℕ) : IPv4 := BitVec.ofNat 32 (a * 2 ^ 24 + b * 2 ^ 16 + c * 2 ^ 8 + d)

def text (ip : IPv4) : String :=
  let n := ip.toNat
  toString (n / 2 ^ 24) ++ "." ++ toString (n / 2 ^ 16 % 256) ++ "." ++
    toString (n / 2 ^ 8 % 256) ++ "." ++ toString (n % 256)

example : text (octets 10 240 0 5) = "10.240.0.5" := by decide

/-- The addresses that agree with `base` in the first `length` bits. -/
structure Block where
  base : IPv4
  length : ℕ
  deriving DecidableEq, Repr

def Block.contains (b : Block) (ip : IPv4) : Bool :=
  ip.toNat / 2 ^ (32 - b.length) == b.base.toNat / 2 ^ (32 - b.length)

def Block.text (b : Block) : String := Internet.text b.base ++ "/" ++ toString b.length

theorem toNat_octets {a b c d : ℕ} (ha : a < 256) (hb : b < 256) (hc : c < 256) (hd : d < 256) :
    (octets a b c d).toNat = a * 2 ^ 24 + b * 2 ^ 16 + c * 2 ^ 8 + d := by
  rw [octets, BitVec.toNat_ofNat]
  omega

theorem Block.contains_iff {b : Block} {ip : IPv4} : b.contains ip = true ↔
    ip.toNat / 2 ^ (32 - b.length) = b.base.toNat / 2 ^ (32 - b.length) := beq_iff_eq

end Internet

namespace Nftables
open Internet

inductive Protocol where
  | tcp
  | udp
  | other
  deriving DecidableEq, Repr

inductive Connection where
  | new
  | established
  | related
  deriving DecidableEq, Repr

/-- Addresses of version 6 play no role in the rules, except whether the destination is
local. -/
inductive Addresses where
  | v4 (source destination : IPv4)
  | v6 (toHost : Bool)
  deriving DecidableEq, Repr

structure Packet where
  iif : String
  oif : String
  addresses : Addresses
  protocol : Protocol
  dport : ℤ
  connection : Connection
  translated : Bool
  deriving DecidableEq, Repr

def Packet.saddr (p : Packet) : Option IPv4 :=
  match p.addresses with
  | .v4 source _ => some source
  | .v6 _ => none

def Packet.daddr (p : Packet) : Option IPv4 :=
  match p.addresses with
  | .v4 _ destination => some destination
  | .v6 _ => none

inductive Match where
  | iifname (name : String)
  | oifname (name : String)
  | nfprotoIPv6
  | saddr (ip : IPv4)
  | saddrNot (ip : IPv4)
  | daddr (ip : IPv4)
  | daddrIn (blocks : List Block)
  | udpDport (port : ℤ)
  | tcpDport (port : ℤ)
  | ctEstablished
  | ctDnat
  | fibLocal
  deriving DecidableEq, Repr

inductive Action where
  | accept
  | drop
  | dnat (ip : IPv4) (port : ℤ)
  | masquerade
  deriving DecidableEq, Repr

structure Rule where
  matches_ : List Match
  action : Action
  deriving DecidableEq, Repr

inductive Hook where
  | prerouting
  | input
  | forward
  | output
  | postrouting
  deriving DecidableEq, Repr

inductive Kind where
  | filter
  | nat
  deriving DecidableEq, Repr

structure Chain where
  kind : Kind
  hook : Hook
  priority : String
  policy : Bool
  rules : List Rule
  deriving DecidableEq, Repr

inductive Family where
  | inet
  | ip
  deriving DecidableEq, Repr

structure Table where
  family : Family
  name : String
  chains : List Chain
  deriving DecidableEq, Repr

section
variable (isLocal : IPv4 → Bool)

/-- An expression on `ip` fields holds of packets of version 4 only. -/
def Match.holds (p : Packet) : Match → Bool
  | .iifname name => p.iif == name
  | .oifname name => p.oif == name
  | .nfprotoIPv6 => p.saddr.isNone
  | .saddr ip => p.saddr == some ip
  | .saddrNot ip => p.saddr.any (· != ip)
  | .daddr ip => p.daddr == some ip
  | .daddrIn blocks => p.daddr.any fun ip => blocks.any (·.contains ip)
  | .udpDport port => p.protocol == .udp && p.dport == port
  | .tcpDport port => p.protocol == .tcp && p.dport == port
  | .ctEstablished => p.connection == .established || p.connection == .related
  | .ctDnat => p.translated
  | .fibLocal =>
    match p.addresses with
    | .v4 _ destination => isLocal destination
    | .v6 toHost => toHost

/-- A translation to an address of version 4 only concerns packets of that version. -/
def Action.concerns (p : Packet) : Action → Bool
  | .dnat _ _ => p.daddr.isSome
  | _ => true

def Rule.applies (p : Packet) (r : Rule) : Bool :=
  r.matches_.all (·.holds isLocal p) && r.action.concerns p

def Chain.decides (p : Packet) (c : Chain) : Option Action :=
  (c.rules.find? (·.applies isLocal p)).map Rule.action

def Chain.accepts (p : Packet) (c : Chain) : Bool :=
  match c.decides isLocal p with
  | none => c.policy
  | some a => a != .drop

def chainsAt (kind : Kind) (hook : Hook) (tables : List Table) : List Chain :=
  (tables.flatMap Table.chains).filter fun c => c.kind == kind && c.hook == hook

def passes (hook : Hook) (tables : List Table) (p : Packet) : Bool :=
  (chainsAt .filter hook tables).all (·.accepts isLocal p)

def Packet.translate (p : Packet) (ip : IPv4) (port : ℤ) : Packet :=
  match p.addresses with
  | .v4 source _ => { p with addresses := .v4 source ip, dport := port, translated := true }
  | .v6 _ => p

def Action.target : Action → Option (IPv4 × ℤ)
  | .dnat ip port => some (ip, port)
  | _ => none

/-- Where the tables send a new packet at the hook, if they translate it. -/
def translation (hook : Hook) (tables : List Table) (p : Packet) : Option (IPv4 × ℤ) :=
  (chainsAt .nat hook tables).findSome? fun c => (c.decides isLocal p).bind Action.target

def redirect (hook : Hook) (tables : List Table) (p : Packet) : Packet :=
  match translation isLocal hook tables p with
  | none => p
  | some (ip, port) => p.translate ip port

def masquerades (tables : List Table) (p : Packet) : Bool :=
  (chainsAt .nat .postrouting tables).any fun c => c.decides isLocal p == some .masquerade

end

def Match.text : Match → String
  | .iifname name => "iifname \"" ++ name ++ "\""
  | .oifname name => "oifname \"" ++ name ++ "\""
  | .nfprotoIPv6 => "meta nfproto ipv6"
  | .saddr ip => "ip saddr " ++ Internet.text ip
  | .saddrNot ip => "ip saddr != " ++ Internet.text ip
  | .daddr ip => "ip daddr " ++ Internet.text ip
  | .daddrIn blocks => "ip daddr \x7b " ++ ", ".intercalate (blocks.map Block.text) ++ " \x7d"
  | .udpDport port => "udp dport " ++ toString port
  | .tcpDport port => "tcp dport " ++ toString port
  | .ctEstablished => "ct state established,related"
  | .ctDnat => "ct status dnat"
  | .fibLocal => "fib daddr type local"

def Action.text (family : Family) : Action → String
  | .accept => "accept"
  | .drop => "drop"
  | .dnat ip port =>
    (if family = .inet then "dnat ip to " else "dnat to ") ++ Internet.text ip ++ ":" ++ toString port
  | .masquerade => "masquerade"

def Rule.text (family : Family) (r : Rule) : String :=
  " ".intercalate (r.matches_.map Match.text ++ [r.action.text family])

def Hook.text : Hook → String
  | .prerouting => "prerouting"
  | .input => "input"
  | .forward => "forward"
  | .output => "output"
  | .postrouting => "postrouting"

def Chain.opening (c : Chain) : String :=
  " chain " ++ c.hook.text ++ " \x7b type " ++ (if c.kind = .filter then "filter" else "nat") ++
    " hook " ++ c.hook.text ++ " priority " ++ c.priority ++ "; policy " ++
    (if c.policy then "accept" else "drop") ++ ";"

def Chain.text (family : Family) (indent : String) (c : Chain) : String :=
  c.opening ++ "\n" ++ String.join (c.rules.map fun r => indent ++ r.text family ++ "\n") ++ " \x7d\n"

def Table.opening (t : Table) : String :=
  "table " ++ (if t.family = .inet then "inet " else "ip ") ++ t.name ++ " \x7b\n"

variable {isLocal : IPv4 → Bool} {p : Packet} {c : Chain} {tables : List Table} {hook : Hook}

theorem Chain.decides_cons {r : Rule} {rest : List Rule} (h : c.rules = r :: rest) :
    c.decides isLocal p =
      if r.applies isLocal p then some r.action else { c with rules := rest }.decides isLocal p := by
  unfold Chain.decides
  rw [h, List.find?_cons]
  cases r.applies isLocal p <;> simp

theorem accepts_of_passes (h : passes isLocal hook tables p = true) {t : Table} (ht : t ∈ tables)
    (hc : c ∈ t.chains) (hkind : c.kind = .filter) (hhook : c.hook = hook) :
    c.accepts isLocal p = true := by
  apply List.all_eq_true.1 h
  apply List.mem_filter.2
  exact ⟨List.mem_flatMap.2 ⟨t, ht, hc⟩, by simp [hkind, hhook]⟩

end Nftables
