import Tuntom.Wire

/-! The header parser of `ip_flow.hpp`: the address pair of an IPv4 or IPv6 packet, the ports
behind it, and whether the packet is a fragment. -/
namespace Tuntom

structure IpPairKey where
  version : UInt8 := 0
  source : Bytes := []
  destination : Bytes := []
  deriving DecidableEq, Repr

structure FlowKey extends IpPairKey where
  protocol : UInt8 := 0
  sourcePort : UInt16 := 0
  destinationPort : UInt16 := 0
  deriving DecidableEq, Repr

structure ParsedIpFlow where
  l3 : IpPairKey := {}
  l4 : FlowKey := {}
  protocol : UInt8 := 0
  hasProtocol : Bool := false
  hasL4 : Bool := false
  fragmented : Bool := false
  deriving DecidableEq, Repr

def IpPairKey.reverseKey (key : IpPairKey) : IpPairKey :=
  { key with source := key.destination, destination := key.source }

def FlowKey.reverseKey (key : FlowKey) : FlowKey :=
  { key with source := key.destination, destination := key.source,
             sourcePort := key.destinationPort, destinationPort := key.sourcePort }

variable (packet : Bytes)

def octet (offset : ℕ) : UInt8 := packet.getD offset 0

def ip6Extension (protocol : UInt8) : Bool :=
  protocol == 0 || protocol == 43 || protocol == 44 || protocol == 51 || protocol == 60

/-- The size an extension header declares; an authentication header counts words of four bytes. -/
def extensionSize (protocol length : UInt8) : ℕ :=
  if protocol = 51 then (length.toNat + 2) * 4 else (length.toNat + 1) * 8

inductive Headers where
  | malformed
  | later (protocol : UInt8)
  | upper (protocol : UInt8) (offset : ℕ) (fragmented : Bool)
  deriving DecidableEq, Repr

/-- The loop over the extension headers, with the number of headers it may still read. -/
def extensions (packet : Bytes) (totalSize : ℕ) : ℕ → UInt8 → ℕ → Bool → Headers
  | 0, protocol, offset, fragmented =>
    if ip6Extension protocol then .malformed else .upper protocol offset fragmented
  | count + 1, protocol, offset, fragmented =>
    if protocol = 44 then
      if totalSize < offset + 8 then .malformed
      else if loadBe16 packet (offset + 2) &&& 0xfff8 ≠ 0 then .later (octet packet offset)
      else extensions packet totalSize count (octet packet offset) (offset + 8) true
    else if ip6Extension protocol then
      if totalSize < offset + 2 then .malformed
      else if totalSize < offset + extensionSize protocol (octet packet (offset + 1)) then .malformed
      else
        extensions packet totalSize count (octet packet offset)
          (offset + extensionSize protocol (octet packet (offset + 1))) fragmented
    else .upper protocol offset fragmented

/-- The last part of `parse_ip_flow`: the ports of a transport header that lies in the packet. -/
def transport (size : ℕ) (l3 : IpPairKey) (protocol : UInt8) (offset : ℕ)
    (fragmented : Bool) : ParsedIpFlow :=
  let l4 : FlowKey := { l3 with protocol := protocol }
  let parsed : ParsedIpFlow :=
    { l3 := l3, l4 := l4, protocol := protocol, hasProtocol := true, fragmented := fragmented }
  if (protocol = 6 ∨ protocol = 17) ∧ offset + 4 ≤ size then
    { parsed with
      l4 := { l4 with sourcePort := loadBe16 packet offset,
                      destinationPort := loadBe16 packet (offset + 2) }
      hasL4 := true }
  else parsed

def parseIp4 : Option ParsedIpFlow :=
  if packet.length < 20 then none
  else
    let headerSize := (octet packet 0 &&& 0x0f).toNat * 4
    let totalSize := (loadBe16 packet 2).toNat
    if headerSize < 20 ∨ packet.length < headerSize ∨ totalSize < headerSize ∨
        packet.length < totalSize then none
    else
      let l3 : IpPairKey :=
        { version := 4, source := field packet 12 4, destination := field packet 16 4 }
      let fragment := loadBe16 packet 6
      let fragmented := fragment &&& 0x3fff != 0
      -- behind the first fragment there is no transport header to read
      if fragment &&& 0x1fff ≠ 0 then
        some { l3 := l3, protocol := octet packet 9, hasProtocol := true, fragmented := fragmented }
      else some (transport packet totalSize l3 (octet packet 9) headerSize fragmented)

def parseIp6 : Option ParsedIpFlow :=
  if packet.length < 40 then none
  else
    let totalSize := 40 + (loadBe16 packet 4).toNat
    if packet.length < totalSize then none
    else
      let l3 : IpPairKey :=
        { version := 6, source := field packet 8 16, destination := field packet 24 16 }
      match extensions packet totalSize 8 (octet packet 6) 40 false with
      | .malformed => none
      | .later protocol =>
        some { l3 := l3, protocol := protocol, hasProtocol := !ip6Extension protocol,
               fragmented := true }
      | .upper protocol offset fragmented =>
        some (transport packet totalSize l3 protocol offset fragmented)

def parseIpFlow : Option ParsedIpFlow :=
  if packet.length = 0 then none
  else if octet packet 0 >>> 4 = 4 then parseIp4 packet
  else if octet packet 0 >>> 4 = 6 then parseIp6 packet
  else none

@[simp] theorem transport_l3 (size : ℕ) (l3 : IpPairKey) (protocol : UInt8)
    (offset : ℕ) (fragmented : Bool) :
    (transport packet size l3 protocol offset fragmented).l3 = l3 := by
  rw [transport]
  split <;> rfl

@[simp] theorem transport_fragmented (size : ℕ) (l3 : IpPairKey) (protocol : UInt8)
    (offset : ℕ) (fragmented : Bool) :
    (transport packet size l3 protocol offset fragmented).fragmented = fragmented := by
  rw [transport]
  split <;> rfl

/-- Only TCP and UDP packets have a transport key, and it repeats their addresses. -/
def ParsedIpFlow.Keyed (flow : ParsedIpFlow) : Prop :=
  flow.hasL4 = true → flow.l4.toIpPairKey = flow.l3 ∧ (flow.protocol = 6 ∨ flow.protocol = 17)

theorem transport_keyed (size : ℕ) (l3 : IpPairKey) (protocol : UInt8)
    (offset : ℕ) (fragmented : Bool) :
    (transport packet size l3 protocol offset fragmented).Keyed := by
  rw [transport]
  split
  next hports => exact fun _ => ⟨rfl, hports.1⟩
  · rintro ⟨⟩

theorem keyed_of_parse {packet : Bytes} {flow : ParsedIpFlow} (h : parseIpFlow packet = some flow) :
    flow.Keyed := by
  rw [parseIpFlow] at h
  split_ifs at h
  · rw [parseIp4] at h
    split at h
    · cases h
    dsimp only at h
    split_ifs at h
    · cases h
      rintro ⟨⟩
    · cases h
      exact transport_keyed packet _ _ _ _ _
  · rw [parseIp6] at h
    split at h
    · cases h
    dsimp only at h
    split at h
    · cases h
    split at h
    · cases h
    · cases h
      rintro ⟨⟩
    · cases h
      exact transport_keyed packet _ _ _ _ _

theorem extensions_fragmented {packet : Bytes} {totalSize count offset end_ : ℕ}
    {protocol last : UInt8} {fragmented : Bool}
    (h : extensions packet totalSize count protocol offset true = .upper last end_ fragmented) :
    fragmented = true := by
  induction count generalizing protocol offset with
  | zero =>
    rw [extensions] at h
    split at h
    · cases h
    · cases h; rfl
  | succ count ih =>
    rw [extensions] at h
    split at h
    · split at h
      · cases h
      · split at h
        · cases h
        · exact ih h
    split at h
    · split at h
      · cases h
      · split at h
        · cases h
        · exact ih h
    · cases h; rfl

/-! A datagram and the fragments it is sent in. -/

section Mark

theorem mark6_eq_zero {offset more : ℕ} (haligned : 8 ∣ offset) (hmore : more < 2)
    (hsize : offset + more < 2 ^ 16) :
    UInt16.ofNat (offset + more) &&& 0xfff8 = 0 ↔ offset = 0 := by
  obtain ⟨k, rfl⟩ := haligned
  have hdiv : ((8 * k + more) &&& 0xfff8) / 2 ^ 3 = k := by
    rw [Nat.and_div_two_pow, show 0xfff8 / 2 ^ 3 = 2 ^ 13 - 1 from rfl,
      Nat.and_two_pow_sub_one_eq_mod]
    omega
  rw [← UInt16.toNat_inj, UInt16.toNat_and, UInt16.toNat_ofNat_of_lt' hsize]
  constructor
  · intro h
    rw [show (8 * k + more) &&& 0xfff8 = 0 from h] at hdiv
    omega
  · intro h
    obtain rfl : k = 0 := by omega
    interval_cases more <;> rfl

theorem mark4_ne_zero {mark : ℕ} (hsize : mark < 2 ^ 16) :
    UInt16.ofNat mark &&& 0x3fff ≠ 0 ↔ mark % 2 ^ 14 ≠ 0 := by
  rw [Ne, ← UInt16.toNat_inj, UInt16.toNat_and, UInt16.toNat_ofNat_of_lt' hsize,
    show (0x3fff : UInt16).toNat = 2 ^ 14 - 1 from rfl, Nat.and_two_pow_sub_one_eq_mod]
  rfl

end Mark

end Tuntom
