import ShuttleGate.Net.Text
import Mathlib.Data.List.Sort

/-! # A fragment of the nftables rule language

Rules are lists of expressions and statements evaluated left to right; the first expression that
does not match ends its rule, the first verdict ends the chain. `evalRules_flatMap` evaluates a
chain generated from a list of entries: the first entry whose condition holds decides, and
`find?_precedence` says which entry that is when the list is sorted. -/

namespace Nft

open Net

inductive Protocol
  | tcp
  | udp
  | other (number : Nat)
  deriving DecidableEq, Repr

def Protocol.text : Protocol → String
  | tcp => "tcp"
  | udp => "udp"
  | other n => toString n

/-- What the rules read and write of a packet. -/
structure Packet where
  iifname : String
  daddr : IPAddress
  protocol : Protocol
  dport : Nat
  /-- The destination is an address of this namespace. -/
  isLocal : Bool
  /-- A transparent socket for the packet's flow exists. -/
  hasSocket : Bool
  mark : Nat
  /-- The port of the listening socket the packet was given to. -/
  proxy : Option Nat
  deriving DecidableEq

inductive Verdict
  | accept
  | drop
  | «return»
  deriving DecidableEq, Repr

def Verdict.text : Verdict → String
  | accept => "accept"
  | drop => "drop"
  | «return» => "return"

inductive Item
  | iifname (eq : Bool) (name : String)
  | fibLocal
  | socketTransparent
  | daddr (network : IPNetwork)
  | l4proto (protocol : Protocol)
  | dport (protocol : Protocol) (first last : Nat)
  | markNe (mark : String)
  | markSet (mark : String)
  | tproxyTo (port : Nat)
  | counter
  | comment (text : String)
  | verdict (v : Verdict)
  deriving DecidableEq

abbrev Rule := List Item

/-- The token of an address family. -/
def familyToken : Version → String
  | .v4 => "ip"
  | .v6 => "ip6"

/-- The number a mark such as `0x1` denotes. -/
def markValue (mark : String) : Nat := ofHexChars (mark.toList.drop 2)

namespace Item

def text : Item → String
  | iifname true name => s!"iifname \"{name}\""
  | iifname false name => s!"iifname != \"{name}\""
  | fibLocal => "fib daddr type local"
  | socketTransparent => "socket transparent 1"
  | daddr network => s!"{familyToken network.version} daddr {network.text}"
  | l4proto protocol => s!"meta l4proto {protocol.text}"
  | dport protocol first last =>
    if first = last then s!"{protocol.text} dport {first}"
    else s!"{protocol.text} dport {first}-{last}"
  | markNe mark => s!"meta mark != {mark}"
  | markSet mark => s!"meta mark set {mark}"
  | tproxyTo port => s!"tproxy to :{port}"
  | counter => "counter"
  | comment text => s!"comment \"{text}\""
  | verdict v => v.text

/-- Whether the rule goes on after the item. -/
def holds (listening : Nat → Bool) (p : Packet) : Item → Bool
  | iifname eq name => eq == (p.iifname == name)
  | fibLocal => p.isLocal
  | socketTransparent => p.hasSocket
  | daddr network => network.contains p.daddr
  | l4proto protocol => p.protocol == protocol
  | dport protocol first last =>
    p.protocol == protocol && decide (first ≤ p.dport) && decide (p.dport ≤ last)
  | markNe mark => p.mark != markValue mark
  -- without a listening socket the statement breaks off the rule
  | tproxyTo port => listening port
  | _ => true

/-- What the item does to the packet. -/
def effect (p : Packet) : Item → Packet
  | markSet mark => { p with mark := markValue mark }
  | tproxyTo port => { p with proxy := some port }
  | _ => p

end Item

section
variable (listening : Nat → Bool)

/-- One rule: the packet afterwards and the verdict, if the rule came to one. -/
def evalRule : Rule → Packet → Packet × Option Verdict
  | [], p => (p, none)
  | .verdict v :: _, p => (p, some v)
  | item :: rest, p =>
    if item.holds listening p then evalRule rest (item.effect p) else (p, none)

/-- The rules of a chain up to the first verdict. -/
def evalRules : List Rule → Packet → Packet × Option Verdict
  | [], p => (p, none)
  | rule :: rest, p =>
    match evalRule listening rule p with
    | (p, none) => evalRules rest p
    | (p, some v) => (p, some v)

end

/-- A base chain. -/
structure Chain where
  name : String
  hook : String
  policy : Verdict
  rules : List Rule
  deriving DecidableEq

inductive Family
  | ip
  | ip6
  | inet
  deriving DecidableEq, Repr

namespace Family

def text : Family → String
  | ip => "ip"
  | ip6 => "ip6"
  | inet => "inet"

/-- The packets a table of the family sees. -/
def sees : Family → Version → Bool
  | ip, v => v = .v4
  | ip6, v => v = .v6
  | inet, _ => true

def ofVersion : Version → Family
  | .v4 => ip
  | .v6 => ip6

theorem sees_ofVersion : (ofVersion v).sees w = decide (w = v) := by cases v <;> rfl

end Family

structure Table where
  family : Family
  name : String
  chains : List Chain
  deriving DecidableEq

def Rule.text (rule : Rule) : String := "    " ++ " ".intercalate (rule.map Item.text)

def Chain.lines (c : Chain) : List String :=
  s!"  chain {c.name} \x7b" ::
    s!"    type filter hook {c.hook}; policy {c.policy.text};" ::
    c.rules.map Rule.text ++ ["  \x7d"]

def Table.text (t : Table) : String :=
  "\n".intercalate
    (s!"table {t.family.text} {t.name} \x7b" :: t.chains.flatMap Chain.lines ++ ["\x7d"]) ++ "\n"

section
variable (listening : Nat → Bool)

/-- A chain on a packet: the packet afterwards and whether it is accepted. -/
def Chain.eval (c : Chain) (p : Packet) : Packet × Bool :=
  match evalRules listening c.rules p with
  | (p, some .accept) => (p, true)
  | (p, some .drop) => (p, false)
  | (p, _) => (p, c.policy = .accept)

/-- A table's chain on a packet. A packet of another family, or without such a chain, passes. -/
def Table.eval (t : Table) (chain : String) (p : Packet) : Packet × Bool :=
  match t.chains.find? (·.name = chain) with
  | some c => if t.family.sees p.daddr.version then c.eval listening p else (p, true)
  | none => (p, true)

end

/-! ## Evaluation -/

section
variable {listening : Nat → Bool} {p : Packet}

@[simp] theorem evalRule_nil : evalRule listening [] p = (p, none) := rfl

@[simp] theorem evalRule_verdict : evalRule listening (.verdict v :: rest) p = (p, some v) := rfl

/-- A failed match ends the rule. -/
theorem evalRule_break (h : item.holds listening p = false) (hv : ∀ v, item ≠ .verdict v) :
    evalRule listening (item :: rest) p = (p, none) := by
  cases item <;> simp_all [evalRule]

theorem evalRule_next (h : item.holds listening p = true) (hv : ∀ v, item ≠ .verdict v) :
    evalRule listening (item :: rest) p = evalRule listening rest (item.effect p) := by
  cases item <;> simp_all [evalRule]

@[simp] theorem evalRules_nil : evalRules listening [] p = (p, none) := rfl

theorem evalRules_cons_miss (h : evalRule listening rule p = (p, none)) :
    evalRules listening (rule :: rest) p = evalRules listening rest p := by
  simp only [evalRules, h]

theorem evalRules_cons_hit (h : evalRule listening rule p = (q, some v)) :
    evalRules listening (rule :: rest) p = (q, some v) := by
  simp only [evalRules, h]

theorem evalRules_append_miss (h : evalRules listening rules p = (p, none)) :
    evalRules listening (rules ++ rest) p = evalRules listening rest p := by
  have go : ∀ (rules : List Rule) (p q : Packet), evalRules listening rules p = (q, none) →
      evalRules listening (rules ++ rest) p = evalRules listening rest q := by
    intro rules
    induction rules with
    | nil => intro p q h; cases h; rfl
    | cons rule rules ih =>
      intro p q h
      rw [List.cons_append, evalRules]
      rw [evalRules] at h
      split at h
      · exact ih _ _ h
      · cases h
  exact go rules p p h

theorem evalRules_append_hit (h : evalRules listening rules p = (q, some v)) :
    evalRules listening (rules ++ rest) p = (q, some v) := by
  induction rules generalizing p with
  | nil => cases h
  | cons rule rules ih =>
    rw [List.cons_append, evalRules]
    rw [evalRules] at h
    split at h
    · exact ih h
    · exact h

/-- Rules generated from entries: the first entry whose condition holds decides. -/
theorem evalRules_flatMap {xs : List α} {f : α → List Rule} (c : α → Bool)
    (out : α → Packet × Verdict)
    (hit : ∀ x ∈ xs, c x = true → evalRules listening (f x) p = ((out x).1, some (out x).2))
    (miss : ∀ x ∈ xs, c x = false → evalRules listening (f x) p = (p, none)) :
    evalRules listening (xs.flatMap f) p =
      match xs.find? c with
      | some x => ((out x).1, some (out x).2)
      | none => (p, none) := by
  induction xs with
  | nil => rfl
  | cons x xs ih =>
    have ih := ih (fun y hy => hit y (.tail _ hy)) (fun y hy => miss y (.tail _ hy))
    rw [List.flatMap_cons]
    cases hx : c x with
    | true =>
      rw [List.find?_cons_of_pos hx]
      exact evalRules_append_hit (hit x (.head _) hx)
    | false =>
      rw [List.find?_cons_of_neg (by simp [hx]), ← ih]
      exact evalRules_append_miss (miss x (.head _) hx)

/-- In a list sorted by descending precedence the first match has the highest precedence. -/
theorem find?_precedence [LinearOrder β] {w : α → β} {l : List α}
    (hl : l.Pairwise fun a b => w b ≤ w a) (ha : l.find? c = some a) (hb : b ∈ l)
    (cb : c b = true) : w b ≤ w a := by
  obtain ⟨-, front, back, rfl, hfront⟩ := List.find?_eq_some_iff_append.mp ha
  rcases List.mem_append.mp hb with hb | hb
  · simpa [cb] using hfront b hb
  · rcases List.mem_cons.mp hb with rfl | hb
    · exact le_rfl
    · exact (List.pairwise_cons.mp (List.pairwise_append.mp hl).2.1).1 b hb

end

end Nft
