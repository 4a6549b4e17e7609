import ShuttleGate.Net.Packed
import ShuttleGate.NftTproxy

/-! # Original destinations of redirected datagrams

`recvmsg` hands `_receive_udp` a datagram with ancillary messages, and the first message that
carries an original destination decides. The kernel writes the family of that socket address in
host order and the port in network order; `decodeSockaddr_sockaddr` is the round trip. -/

namespace ShuttleGate

open Net

namespace NftTproxy

/-! ## `_receive_udp` -/

def solIp : Int := 0
def ipOrigdstaddr : Int := 20
def solIpv6 : Int := 41
def ipv6Origdstaddr : Int := 74

/-- The C library's text of a packed address: it denotes the address, in a form of the
platform's choice. -/
class InetNtop where
  text : IPAddress → String
  ofText_text : ∀ a : IPAddress, IPAddress.ofText (text a.withoutScope) = some a.withoutScope

/-- The canonical texts. -/
@[reducible] def canonicalNtop : InetNtop where
  text := IPAddress.text
  ofText_text a := a.withoutScope.ofText_text

/-- One ancillary message. -/
structure Message where
  level : Int
  kind : Int
  payload : List UInt8

/-- What `recvmsg` returns. -/
structure Received (Source : Type) where
  data : List UInt8
  ancillary : List Message
  flags : Int
  source : Source

inductive ReceiveError
  | fatal (message : String)
  | structError (message : String)
  | valueError (message : String)
  deriving DecidableEq

/-- `payload[start:stop]` -/
def slice (start stop : Nat) (payload : List UInt8) : List UInt8 :=
  (payload.drop start).take (stop - start)

/-- `struct.unpack("=HH", payload)` -/
def unpackHH (order : ByteOrder) (payload : List UInt8) : Except ReceiveError (Nat × Nat) :=
  if payload.length = 4 then
    .ok (order.unpack (slice 0 2 payload), order.unpack (slice 2 4 payload))
  else .error (.structError "unpack requires a buffer of 4 bytes")

/-- `socket.htons`: a swap unless the host order is the network's. -/
def htons : ByteOrder → Nat → Nat
  | .little, n => ByteOrder.swap16 n
  | .big, n => n

/-- `socket.inet_ntop` -/
def inetNtop [InetNtop] (v : Version) (packed : List UInt8) : Except ReceiveError String :=
  if packed.length = v.width / 8 then
    .ok (InetNtop.text (.ofValue v (ByteOrder.big.unpack packed)))
  else .error (.valueError "invalid length of packed IP address string")

/-- Where the address of a family's socket address starts. -/
def addressOffset : Version → Nat
  | .v4 => 4
  | .v6 => 8

/-- The branch of one family: `payload[4:8]` for IPv4 and `payload[8:24]` for IPv6. -/
def decodeSockaddr [InetNtop] (order : ByteOrder) (v : Version) (payload : List UInt8) :
    Except ReceiveError (String × Nat) := do
  let (family, networkPort) ← unpackHH order (slice 0 4 payload)
  if (family : Int) ≠ familyOf v then
    throw (.fatal s!"unsupported original IPv{v.number} socket family: {family}")
  let address ← inetNtop v (slice (addressOffset v) (addressOffset v + v.width / 8) payload)
  return (address, htons order networkPort)

/-- The family a message carries an original destination of. -/
def Message.version (m : Message) : Option Version :=
  if m.level = solIp ∧ m.kind = ipOrigdstaddr then some .v4
  else if m.level = solIpv6 ∧ m.kind = ipv6Origdstaddr then some .v6
  else none

/-- The loop over the ancillary messages, up to its `break`. -/
def originalDestination [InetNtop] (order : ByteOrder) :
    List Message → Except ReceiveError (Option (String × Nat))
  | [] => .ok none
  | m :: rest =>
    match m.version with
    | some v => some <$> decodeSockaddr order v m.payload
    | none => originalDestination order rest

def receiveUdp [InetNtop] (order : ByteOrder) (r : Received Source) :
    Except ReceiveError (Source × Option (String × Nat) × List UInt8) := do
  let destination ← originalDestination order r.ancillary
  return (r.source, destination, r.data)

/-- `Method.recv_udp` -/
def recvUdp [InetNtop] (order : ByteOrder) (r : Received Source) :
    Except ReceiveError (Option (Source × (String × Nat) × List UInt8)) := do
  let (source, destination, data) ← receiveUdp order r
  match destination with
  | none => return none
  | some destination => return some (source, destination, data)

/-! ## The kernel's encoding -/

/-- `struct sockaddr_in` or `sockaddr_in6`: native-order family, network-order port, for IPv6 a
flow label, the address, and whatever the buffer holds after it. The scope of an IPv6 address
is part of `tail`. -/
def sockaddr (order : ByteOrder) (a : IPAddress) (port : BitVec 16) (flow : BitVec 32)
    (tail : List UInt8) : List UInt8 :=
  order.pack 2 (familyOf a.version).toNat ++ ByteOrder.big.pack 2 port.toNat ++
    (match a.version with | .v4 => [] | .v6 => ByteOrder.big.pack 4 flow.toNat) ++
    ByteOrder.big.pack (a.version.width / 8) a.value ++ tail

/-- The message that carries an address of a family. -/
def origdstMessage (v : Version) (payload : List UInt8) : Message :=
  match v with
  | .v4 => ⟨solIp, ipOrigdstaddr, payload⟩
  | .v6 => ⟨solIpv6, ipv6Origdstaddr, payload⟩

@[simp] theorem version_origdstMessage : (origdstMessage v payload).version = some v := by
  cases v <;> rfl

@[simp] theorem payload_origdstMessage : (origdstMessage v payload).payload = payload := by
  cases v <;> rfl

/-! ## Decoding -/

/-- A slice of a concatenation whose first part ends where the slice starts. -/
theorem slice_append {front middle rest : List UInt8} (hstart : front.length = start)
    (hstop : start + middle.length = stop) : slice start stop (front ++ middle ++ rest) = middle := by
  subst hstart hstop
  rw [slice, List.append_assoc, List.drop_left, Nat.add_sub_cancel_left, List.take_left]

/-- The start of a text. -/
theorem slice_front {front rest : List UInt8} (h : front.length = stop) :
    slice 0 stop (front ++ rest) = front := by
  rw [← List.nil_append front]
  exact slice_append rfl ((Nat.zero_add _).trans h)

theorem unpackHH_append {family port : List UInt8} (hfamily : family.length = 2)
    (hport : port.length = 2) :
    unpackHH order (family ++ port) = .ok (order.unpack family, order.unpack port) := by
  have hlen : (family ++ port).length = 4 := by rw [List.length_append, hfamily, hport]
  have hfirst : slice 0 2 (family ++ port) = family := slice_front hfamily
  have hsecond : slice 2 4 (family ++ port) = port := by
    rw [← List.append_nil (family ++ port)]
    exact slice_append hfamily (by rw [hport])
  rw [unpackHH, if_pos hlen, hfirst, hsecond]

/-- The swap undoes the mismatch of the two orders. -/
theorem htons_unpack {bytes : List UInt8} (h : bytes.length = 2) :
    htons order (order.unpack bytes) = ByteOrder.big.unpack bytes := by
  match bytes, h with
  | [a, b], _ =>
    cases order
    · exact ByteOrder.swap16_unpack_little a b
    · rfl

theorem ofValue_value (a : IPAddress) : IPAddress.ofValue a.version a.value = a.withoutScope := by
  cases a <;> simp [IPAddress.ofValue, IPAddress.value, IPAddress.version, IPAddress.withoutScope]

theorem inetNtop_pack [InetNtop] (a : IPAddress) :
    inetNtop a.version (ByteOrder.big.pack (a.version.width / 8) a.value) =
      .ok (InetNtop.text a.withoutScope) := by
  have hvalue : a.value < 256 ^ (a.version.width / 8) := by
    have h := a.value_lt
    cases hv : a.version <;> rw [hv] at h <;> exact h
  rw [inetNtop, if_pos (ByteOrder.length_pack ..), ByteOrder.unpack_pack _ hvalue, ofValue_value]

theorem decodeSockaddr_sockaddr [InetNtop] (order : ByteOrder) (a : IPAddress) (port : BitVec 16)
    (flow : BitVec 32) (tail : List UInt8) :
    decodeSockaddr order a.version (sockaddr order a port flow tail) =
      .ok (InetNtop.text a.withoutScope, port.toNat) := by
  have hhead : slice 0 4 (sockaddr order a port flow tail) =
      order.pack 2 (familyOf a.version).toNat ++ ByteOrder.big.pack 2 port.toNat := by
    rw [sockaddr, List.append_assoc, List.append_assoc]
    exact slice_front (by simp)
  have haddress : slice (addressOffset a.version) (addressOffset a.version + a.version.width / 8)
      (sockaddr order a port flow tail) = ByteOrder.big.pack (a.version.width / 8) a.value := by
    refine slice_append ?_ (by simp)
    cases a.version <;> simp [addressOffset]
  have hfamily : ((order.unpack (order.pack 2 (familyOf a.version).toNat) : Nat) : Int) =
      familyOf a.version := by
    rw [ByteOrder.unpack_pack _ (by cases a.version <;> decide)]
    cases a.version <;> rfl
  have hport : htons order (order.unpack (ByteOrder.big.pack 2 port.toNat)) = port.toNat := by
    rw [htons_unpack (ByteOrder.length_pack ..), ByteOrder.unpack_pack _ port.isLt]
  rw [decodeSockaddr, hhead, unpackHH_append (by simp) (by simp), haddress]
  simp only [bind, Except.bind, hfamily, ne_eq, not_true_eq_false, if_false, inetNtop_pack, hport]
  rfl

/-! ## The loop -/

theorem originalDestination_some [InetNtop] {m : Message} (h : m.version = some v) :
    originalDestination order (m :: rest) = some <$> decodeSockaddr order v m.payload := by
  rw [originalDestination, h]

theorem originalDestination_none [InetNtop] {m : Message} (h : m.version = none) :
    originalDestination order (m :: rest) = originalDestination order rest := by
  rw [originalDestination, h]

theorem originalDestination_append [InetNtop] {before : List Message}
    (h : ∀ m ∈ before, m.version = none) :
    originalDestination order (before ++ rest) = originalDestination order rest := by
  induction before with
  | nil => rfl
  | cons m before ih =>
    rw [List.cons_append, originalDestination_none (h m List.mem_cons_self)]
    exact ih fun m' hm' => h m' (List.mem_cons_of_mem m hm')

/-- No destination is reported exactly when no message carries one. -/
theorem originalDestination_eq_none [InetNtop] {messages : List Message} :
    originalDestination order messages = .ok none ↔ ∀ m ∈ messages, m.version = none := by
  induction messages with
  | nil => exact ⟨fun _ _ hm => (List.not_mem_nil hm).elim, fun _ => rfl⟩
  | cons m rest ih =>
    rw [List.forall_mem_cons]
    cases hv : m.version with
    | none => rw [originalDestination_none hv, ih, eq_self, true_and]
    | some v =>
      rw [originalDestination_some hv]
      cases decodeSockaddr order v m.payload <;> simp

/-- An original destination after unrelated messages is reported as the kernel wrote it, on
either byte order, and the datagram is dropped exactly when it carries none. -/
theorem receiveUdp_origdst [InetNtop] (order : ByteOrder) (a : IPAddress) (port : BitVec 16)
    (flow : BitVec 32) (tail : List UInt8) (before after : List Message) (data : List UInt8)
    (flags : Int) (source : Source) (h : ∀ m ∈ before, m.version = none) :
    receiveUdp order
        ⟨data, before ++ origdstMessage a.version (sockaddr order a port flow tail) :: after,
          flags, source⟩ = .ok (source, some (InetNtop.text a.withoutScope, port.toNat), data) ∧
      IPAddress.ofText (InetNtop.text a.withoutScope) = some a.withoutScope ∧
      ∀ r : Received Source, recvUdp order r = .ok none ↔ ∀ m ∈ r.ancillary, m.version = none := by
  refine ⟨?_, InetNtop.ofText_text a, fun r => ?_⟩
  · rw [receiveUdp, originalDestination_append h, originalDestination_some version_origdstMessage,
      payload_origdstMessage, decodeSockaddr_sockaddr]
    rfl
  · rw [← @originalDestination_eq_none order, recvUdp, receiveUdp]
    cases hd : originalDestination order r.ancillary with
    | error e => simp [bind, Except.bind]
    | ok d => cases d <;> simp [bind, Except.bind, pure, Except.pure]

/-- A query whose destination follows a timestamp, on a little-endian host. -/
theorem receiveUdp_origdst_query :
    @receiveUdp String canonicalNtop .little
        ⟨[0x71], [⟨1, 29, [0, 0]⟩, ⟨solIp, ipOrigdstaddr, [2, 0, 0, 53, 10, 20, 30, 53, 0, 0]⟩], 0,
          "10.77.0.2"⟩ = .ok ("10.77.0.2", some ("10.20.30.53", 53), [0x71]) :=
  (@receiveUdp_origdst String canonicalNtop .little (.v4 0x0a141e35) 53 0 [0, 0] [⟨1, 29, [0, 0]⟩]
    [] [0x71] 0 "10.77.0.2" (by decide)).1

end NftTproxy

end ShuttleGate
