import Tuntom.IpFlow

/-! The two readings of a packet's transport header: `parse_ip_flow` of `ip_flow.hpp` and
`packet_info` of `divert/flows.hpp`. Here every access to the buffer is checked: the outer
`none` of a result is an access outside the buffer, an inner `none` is the answer `false`. -/
namespace Tuntom

/-- What is read from `size` bytes at `offset`. -/
def reading {α : Type} (packet : Bytes) (offset size : ℕ) (value : α) : Option α :=
  if offset + size ≤ packet.length then some value else none

theorem reading_eq {α : Type} {packet : Bytes} {offset size : ℕ} (value : α)
    (h : offset + size ≤ packet.length) : reading packet offset size value = some value := if_pos h

variable (packet : Bytes)

def readOctet (offset : ℕ) : Option UInt8 :=
  reading packet offset 1 (octet packet offset)

def readWord (offset : ℕ) : Option UInt16 :=
  reading packet offset 2 (loadBe16 packet offset)

def readField (offset size : ℕ) : Option Bytes :=
  reading packet offset size (field packet offset size)

/-! ### `parse_ip_flow` -/

def extensionsRead (packet : Bytes) (totalSize : ℕ) : ℕ → UInt8 → ℕ → Bool → Option Headers
  | 0, protocol, offset, fragmented =>
    some (if ip6Extension protocol then .malformed else .upper protocol offset fragmented)
  | count + 1, protocol, offset, fragmented =>
    if protocol = 44 then
      if totalSize < offset + 8 then some .malformed
      else do
        let fragment ← readWord packet (offset + 2)
        let next ← readOctet packet offset
        if fragment &&& 0xfff8 ≠ 0 then some (.later next)
        else extensionsRead packet totalSize count next (offset + 8) true
    else if ip6Extension protocol then
      if totalSize < offset + 2 then some .malformed
      else do
        let length ← readOctet packet (offset + 1)
        if totalSize < offset + extensionSize protocol length then some .malformed
        else do
          let next ← readOctet packet offset
          extensionsRead packet totalSize count next (offset + extensionSize protocol length)
            fragmented
    else some (.upper protocol offset fragmented)

def transportRead (size : ℕ) (l3 : IpPairKey) (protocol : UInt8) (offset : ℕ)
    (fragmented : Bool) : Option ParsedIpFlow :=
  let l4 : FlowKey := { l3 with protocol := protocol }
  let parsed : ParsedIpFlow :=
    { l3 := l3, l4 := l4, protocol := protocol, hasProtocol := true, fragmented := fragmented }
  if (protocol = 6 ∨ protocol = 17) ∧ offset + 4 ≤ size then do
    let sourcePort ← readWord packet offset
    let destinationPort ← readWord packet (offset + 2)
    some { parsed with
      l4 := { l4 with sourcePort := sourcePort, destinationPort := destinationPort }
      hasL4 := true }
  else some parsed

def parseIp4Read : Option (Option ParsedIpFlow) :=
  if packet.length < 20 then some none
  else do
    let first ← readOctet packet 0
    let total ← readWord packet 2
    let headerSize := (first &&& 0x0f).toNat * 4
    let totalSize := total.toNat
    if headerSize < 20 ∨ packet.length < headerSize ∨ totalSize < headerSize ∨
        packet.length < totalSize then some none
    else do
      let source ← readField packet 12 4
      let destination ← readField packet 16 4
      let protocol ← readOctet packet 9
      let fragment ← readWord packet 6
      let l3 : IpPairKey := { version := 4, source := source, destination := destination }
      let fragmented := fragment &&& 0x3fff != 0
      if fragment &&& 0x1fff ≠ 0 then
        some (some { l3 := l3, protocol := protocol, hasProtocol := true, fragmented := fragmented })
      else (transportRead packet totalSize l3 protocol headerSize fragmented).map some

def parseIp6Read : Option (Option ParsedIpFlow) :=
  if packet.length < 40 then some none
  else do
    let payload ← readWord packet 4
    let totalSize := 40 + payload.toNat
    if packet.length < totalSize then some none
    else do
      let source ← readField packet 8 16
      let destination ← readField packet 24 16
      let protocol ← readOctet packet 6
      let l3 : IpPairKey := { version := 6, source := source, destination := destination }
      match ← extensionsRead packet totalSize 8 protocol 40 false with
      | .malformed => some none
      | .later protocol =>
        some (some { l3 := l3, protocol := protocol, hasProtocol := !ip6Extension protocol,
                     fragmented := true })
      | .upper protocol offset fragmented =>
        (transportRead packet totalSize l3 protocol offset fragmented).map some

def parseIpFlowRead : Option (Option ParsedIpFlow) :=
  if packet.length = 0 then some none
  else do
    let first ← readOctet packet 0
    if first >>> 4 = 4 then parseIp4Read packet
    else if first >>> 4 = 6 then parseIp6Read packet
    else some none

theorem extensionsRead_eq {packet : Bytes} {totalSize : ℕ} (h : totalSize ≤ packet.length)
    (count : ℕ) (protocol : UInt8) (offset : ℕ) (fragmented : Bool) :
    extensionsRead packet totalSize count protocol offset fragmented =
      some (extensions packet totalSize count protocol offset fragmented) := by
  induction count generalizing protocol offset fragmented with
  | zero => rfl
  | succ count ih =>
    rw [extensionsRead, extensions]
    split
    · split
      · rfl
      next hsize =>
        rw [readWord, readOctet, reading_eq _ (by omega), reading_eq _ (by omega)]
        simp only [Option.bind_eq_bind, Option.bind_some]
        split
        · rfl
        · exact ih _ _ _
    split
    · split
      · rfl
      next hsize =>
        rw [readOctet, readOctet, reading_eq _ (by omega), reading_eq _ (by omega)]
        simp only [Option.bind_eq_bind, Option.bind_some]
        split
        · rfl
        · exact ih _ _ _
    · rfl

theorem transportRead_eq {packet : Bytes} {size : ℕ} (h : size ≤ packet.length) (l3 : IpPairKey)
    (protocol : UInt8) (offset : ℕ) (fragmented : Bool) :
    transportRead packet size l3 protocol offset fragmented =
      some (transport packet size l3 protocol offset fragmented) := by
  rw [transportRead, transport]
  split
  next hports =>
    rw [readWord, readWord, reading_eq _ (by omega), reading_eq _ (by omega)]
    rfl
  · rfl

theorem parseIp4Read_eq : parseIp4Read packet = some (parseIp4 packet) := by
  rw [parseIp4Read, parseIp4]
  split
  · rfl
  next hsize =>
  rw [readOctet, readWord, reading_eq _ (by omega), reading_eq _ (by omega)]
  simp only [Option.bind_eq_bind, Option.bind_some]
  split
  · rfl
  next hvalid =>
  rw [readField, readField, readOctet, readWord, reading_eq _ (by omega),
    reading_eq _ (by omega), reading_eq _ (by omega), reading_eq _ (by omega)]
  simp only [Option.bind_some]
  split
  · rfl
  · rw [transportRead_eq (by omega)]
    rfl

theorem parseIp6Read_eq : parseIp6Read packet = some (parseIp6 packet) := by
  rw [parseIp6Read, parseIp6]
  split
  · rfl
  next hsize =>
  rw [readWord, reading_eq _ (by omega)]
  simp only [Option.bind_eq_bind, Option.bind_some]
  split
  · rfl
  next hvalid =>
  rw [readField, readField, readOctet, reading_eq _ (by omega), reading_eq _ (by omega),
    reading_eq _ (by omega)]
  simp only [Option.bind_some]
  rw [extensionsRead_eq (by omega), Option.bind_some]
  cases extensions packet (40 + (loadBe16 packet 4).toNat) 8 (octet packet 6) 40 false with
  | malformed | later protocol => rfl
  | upper protocol offset fragmented =>
    dsimp only
    rw [transportRead_eq (by omega)]
    rfl

theorem parseIpFlowRead_eq :
    parseIpFlowRead packet = some (parseIpFlow packet) := by
  rw [parseIpFlowRead, parseIpFlow]
  split
  · rfl
  next hsize =>
  rw [readOctet, reading_eq _ (by omega)]
  simp only [Option.bind_eq_bind, Option.bind_some]
  split
  · exact parseIp4Read_eq packet
  split
  · exact parseIp6Read_eq packet
  · rfl

/-! ### `packet_info` -/

namespace Divert

structure PacketInfo where
  flow : FlowKey := {}
  flags : UInt8 := 0
  deriving DecidableEq, Repr

/-- The loop over the extension headers, with the number of headers it may still pass. -/
def walk (packet : Bytes) (end_ : ℕ) : ℕ → UInt8 → ℕ → Option (Option (UInt8 × ℕ))
  | 0, protocol, offset => some (some (protocol, offset))
  | count + 1, protocol, offset =>
    if ip6Extension protocol then
      if end_ < offset + 2 ∨ protocol = 44 then some none
      else do
        let next ← readOctet packet offset
        let length ← readOctet packet (offset + 1)
        if end_ - offset < extensionSize protocol length then some none
        else walk packet end_ count next (offset + extensionSize protocol length)
    else some (some (protocol, offset))

/-- Where the transport header of a parsed packet starts and where the packet ends. -/
def locate (packet : Bytes) (parsed : ParsedIpFlow) : Option (Option (ℕ × ℕ)) :=
  if parsed.l3.version = 4 then do
    let first ← readOctet packet 0
    let total ← readWord packet 2
    some (some ((first &&& 0x0f).toNat * 4, total.toNat))
  else do
    let payload ← readWord packet 4
    let first ← readOctet packet 6
    match ← walk packet (40 + payload.toNat) 8 first 40 with
    | none => some none
    | some (protocol, offset) =>
      if protocol ≠ parsed.protocol then some none else some (some (offset, 40 + payload.toNat))

/-- The checks of the transport header at `offset`. -/
def transportInfo (packet : Bytes) (parsed : ParsedIpFlow) (offset end_ : ℕ) :
    Option (Option PacketInfo) :=
  if parsed.protocol = 6 then
    if end_ < offset + 20 then some none
    else do
      let words ← readOctet packet (offset + 12)
      let header := (words >>> 4).toNat * 4
      if header < 20 ∨ end_ - offset < header then some none
      else do
        let flags ← readOctet packet (offset + 13)
        some (some { flow := parsed.l4, flags := flags })
  else if parsed.protocol = 17 then
    if end_ < offset + 8 then some none
    else do
      let length ← readWord packet (offset + 4)
      if length.toNat < 8 ∨ end_ - offset < length.toNat then some none
      else some (some { flow := parsed.l4 })
  else some none

def packetInfo (packet : Bytes) : Option (Option PacketInfo) := do
  match ← parseIpFlowRead packet with
  | none => some none
  | some parsed =>
    if parsed.hasL4 = false ∨ parsed.fragmented = true then some none
    else
      match ← locate packet parsed with
      | none => some none
      | some (offset, end_) => transportInfo packet parsed offset end_

def canonical (key : FlowKey) : FlowKey :=
  if key.reverseKey.source < key.source ∨
      (key.reverseKey.source = key.source ∧ key.reverseKey.sourcePort < key.sourcePort) then
    key.reverseKey
  else key

/-! ### The chain of headers -/

/-- The headers that lead from one at `offset` to the first that is no extension header;
`kinds` are those passed, each of them whole before `end_`. -/
inductive Chain (packet : Bytes) (end_ : ℕ) : List UInt8 → UInt8 → ℕ → UInt8 → ℕ → Prop
  | upper {protocol : UInt8} {offset : ℕ} (h : ip6Extension protocol = false) :
    Chain packet end_ [] protocol offset protocol offset
  | pass {kinds : List UInt8} {protocol last : UInt8} {offset at_ : ℕ}
    (h : ip6Extension protocol = true) (hkind : protocol ≠ 44)
    (hsize : offset + extensionSize protocol (octet packet (offset + 1)) ≤ end_)
    (hrest : Chain packet end_ kinds (octet packet offset)
      (offset + extensionSize protocol (octet packet (offset + 1))) last at_) :
    Chain packet end_ (protocol :: kinds) protocol offset last at_

theorem extensionSize_ge (protocol length : UInt8) : 8 ≤ extensionSize protocol length := by
  rw [extensionSize]
  split <;> omega

variable {offset : ℕ} {packet : Bytes} {parsed : ParsedIpFlow}

/-- Without a fragment header the loop of `parse_ip_flow` follows the chain to its end. -/
theorem chain_of_extensions {totalSize count at_ : ℕ} {protocol last : UInt8}
    (h : extensions packet totalSize count protocol offset false = .upper last at_ false) :
    ∃ kinds, Chain packet totalSize kinds protocol offset last at_ ∧ kinds.length ≤ count ∧
      44 ∉ kinds := by
  induction count generalizing protocol offset with
  | zero =>
    rw [extensions] at h
    split at h
    · cases h
    next hupper =>
    cases h
    exact ⟨[], .upper (Bool.eq_false_iff.mpr hupper), Nat.zero_le _, List.not_mem_nil⟩
  | succ count ih =>
    rw [extensions] at h
    split at h
    next hkind =>
      split at h
      · cases h
      split at h
      · cases h
      · cases extensions_fragmented h
    next hkind =>
    split at h
    next hext =>
      split at h
      · cases h
      split at h
      · cases h
      next hsize =>
      obtain ⟨kinds, hchain, hcount, hnot⟩ := ih h
      refine ⟨protocol :: kinds, .pass hext hkind (by omega) hchain, by simpa, ?_⟩
      simpa [hnot] using Ne.symm hkind
    next hupper =>
      cases h
      exact ⟨[], .upper (Bool.eq_false_iff.mpr hupper), Nat.zero_le _, List.not_mem_nil⟩

theorem walk_of_chain {end_ count at_ : ℕ} {protocol last : UInt8} {kinds : List UInt8}
    (hend : end_ ≤ packet.length) (h : Chain packet end_ kinds protocol offset last at_)
    (hcount : kinds.length ≤ count) :
    walk packet end_ count protocol offset = some (some (last, at_)) := by
  induction h generalizing count with
  | upper hupper =>
    cases count with
    | zero => rfl
    | succ count => rw [walk, if_neg (by simp [hupper])]
  | @pass kinds protocol last offset at_ hext hkind hsize hrest ih =>
    obtain ⟨count, rfl⟩ : ∃ n, count = n + 1 := Nat.exists_eq_add_one_of_ne_zero (by
      rw [List.length_cons] at hcount
      omega)
    have hge := extensionSize_ge protocol (octet packet (offset + 1))
    rw [walk, if_pos hext, if_neg (not_or.mpr ⟨by omega, hkind⟩), readOctet, readOctet,
      reading_eq _ (by omega), reading_eq _ (by omega)]
    simp only [Option.bind_eq_bind, Option.bind_some]
    rw [if_neg (by omega)]
    exact ih (by simpa using hcount)

/-- The transport header of a packet that is no fragment, as the headers before it say: the
version, the protocol, where the header starts and where the packet ends. -/
inductive Located (packet : Bytes) : UInt8 → UInt8 → ℕ → ℕ → Prop
  | ip4 (hversion : octet packet 0 >>> 4 = 4) (hwhole : loadBe16 packet 6 &&& 0x3fff = 0) :
    Located packet 4 (octet packet 9) ((octet packet 0 &&& 0x0f).toNat * 4)
      (loadBe16 packet 2).toNat
  | ip6 {kinds : List UInt8} {protocol : UInt8} {offset : ℕ} (hversion : octet packet 0 >>> 4 = 6)
    (hwalk : extensions packet (40 + (loadBe16 packet 4).toNat) 8 (octet packet 6) 40 false =
      .upper protocol offset false)
    (hchain : Chain packet (40 + (loadBe16 packet 4).toNat) kinds (octet packet 6) 40 protocol offset)
    (hcount : kinds.length ≤ 8) (hwhole : 44 ∉ kinds) :
    Located packet 6 protocol offset (40 + (loadBe16 packet 4).toNat)

theorem transport_ports {size : ℕ} {l3 : IpPairKey} {protocol : UInt8} {fragmented : Bool}
    (h : (transport packet size l3 protocol offset fragmented).hasL4 = true) :
    offset + 4 ≤ size ∧
      (transport packet size l3 protocol offset fragmented).protocol = protocol ∧
      (transport packet size l3 protocol offset fragmented).l4.sourcePort = loadBe16 packet offset ∧
      (transport packet size l3 protocol offset fragmented).l4.destinationPort =
        loadBe16 packet (offset + 2) := by
  rw [transport] at h ⊢
  split at h
  next hports =>
    rw [if_pos hports]
    exact ⟨hports.2, rfl, rfl, rfl⟩
  · cases h

/-- What `parse_ip_flow` reports is read at the transport header it arrived at. -/
theorem located_of_parse (h : parseIpFlow packet = some parsed) (hl4 : parsed.hasL4 = true)
    (hwhole : parsed.fragmented = false) :
    ∃ offset end_, Located packet parsed.l3.version parsed.protocol offset end_ ∧
      offset + 4 ≤ end_ ∧ end_ ≤ packet.length ∧ 20 ≤ packet.length ∧
      parsed.l4.sourcePort = loadBe16 packet offset ∧
      parsed.l4.destinationPort = loadBe16 packet (offset + 2) := by
  rw [parseIpFlow] at h
  split_ifs at h with hempty hfour hsix
  · rw [parseIp4] at h
    dsimp only at h
    split_ifs at h with hsmall hvalid hlater
    · cases h
      cases hl4
    cases h
    obtain ⟨hports, hprotocol, hsource, hdestination⟩ := transport_ports hl4
    rw [transport_fragmented, bne_eq_false_iff_eq] at hwhole
    rw [hprotocol, hsource, hdestination, transport_l3]
    exact ⟨_, _, .ip4 hfour hwhole, hports, by omega, by omega, rfl, rfl⟩
  rw [parseIp6] at h
  dsimp only at h
  split_ifs at h with hsmall hvalid
  split at h
  · cases h
  · cases h
    cases hl4
  next protocol offset fragmented hwalk =>
  cases h
  obtain ⟨hports, hprotocol, hsource, hdestination⟩ := transport_ports hl4
  rw [transport_fragmented] at hwhole
  subst hwhole
  obtain ⟨kinds, hchain, hcount, hnot⟩ := chain_of_extensions hwalk
  rw [hprotocol, hsource, hdestination, transport_l3]
  exact ⟨_, _, .ip6 hsix hwalk hchain hcount hnot, hports, by omega, by omega, rfl,
    rfl⟩

/-- `packet_info` arrives at the header that `parse_ip_flow` read the ports from. -/
theorem locate_of_located {end_ : ℕ}
    (h : Located packet parsed.l3.version parsed.protocol offset end_)
    (hend : end_ ≤ packet.length) (hmin : 20 ≤ packet.length) :
    locate packet parsed = some (some (offset, end_)) := by
  generalize hversion : parsed.l3.version = version at h
  generalize hprotocol : parsed.protocol = protocol at h
  cases h with
  | ip4 =>
    rw [locate, if_pos hversion, readOctet, readWord, reading_eq _ (by omega),
      reading_eq _ (by omega)]
    rfl
  | ip6 _ _ hchain hcount _ =>
    rw [locate, if_neg (by rw [hversion]; decide), readWord, readOctet, reading_eq _ (by omega),
      reading_eq _ (by omega)]
    simp only [Option.bind_eq_bind, Option.bind_some]
    rw [walk_of_chain hend hchain hcount, Option.bind_some]
    dsimp only
    rw [if_neg (by rw [hprotocol]; exact not_not.mpr rfl)]

/-- The complete transport header of a packet, inside it, and the flags it has. -/
def Complete (packet : Bytes) (protocol : UInt8) (offset end_ : ℕ) (flags : UInt8) : Prop :=
  (protocol = 6 ∧ 20 ≤ (octet packet (offset + 12) >>> 4).toNat * 4 ∧
    offset + (octet packet (offset + 12) >>> 4).toNat * 4 ≤ end_ ∧
    flags = octet packet (offset + 13)) ∨
  (protocol = 17 ∧ 8 ≤ (loadBe16 packet (offset + 4)).toNat ∧
    offset + (loadBe16 packet (offset + 4)).toNat ≤ end_ ∧ flags = 0)

theorem transportInfo_cases {end_ : ℕ} (hend : end_ ≤ packet.length) :
    transportInfo packet parsed offset end_ = some none ∨
      ∃ flags, transportInfo packet parsed offset end_ =
          some (some { flow := parsed.l4, flags := flags }) ∧
        Complete packet parsed.protocol offset end_ flags := by
  rw [transportInfo]
  split
  next htcp =>
    split
    · exact .inl rfl
    next hsize =>
    rw [readOctet, readOctet, reading_eq _ (by omega), reading_eq _ (by omega)]
    simp only [Option.bind_eq_bind, Option.bind_some]
    split
    · exact .inl rfl
    · exact .inr ⟨_, rfl, .inl ⟨htcp, by omega, by omega, rfl⟩⟩
  split
  next hudp =>
    split
    · exact .inl rfl
    next hsize =>
    rw [readWord, reading_eq _ (by omega)]
    simp only [Option.bind_eq_bind, Option.bind_some]
    split
    · exact .inl rfl
    · exact .inr ⟨0, rfl, .inr ⟨hudp, by omega, by omega, rfl⟩⟩
  · exact .inl rfl

/-- The answer of `packet_info`, by the answer of `parse_ip_flow`. -/
theorem packetInfo_cases (packet : Bytes) :
    packetInfo packet = some none ∨ ∃ parsed offset end_ flags,
      parseIpFlow packet = some parsed ∧ parsed.fragmented = false ∧
      Located packet parsed.l3.version parsed.protocol offset end_ ∧
      locate packet parsed = some (some (offset, end_)) ∧ end_ ≤ packet.length ∧
      parsed.l4.sourcePort = loadBe16 packet offset ∧
      parsed.l4.destinationPort = loadBe16 packet (offset + 2) ∧
      packetInfo packet = some (some { flow := parsed.l4, flags := flags }) ∧
      Complete packet parsed.protocol offset end_ flags := by
  rw [packetInfo, parseIpFlowRead_eq, Option.bind_eq_bind, Option.bind_some]
  cases hparse : parseIpFlow packet with
  | none => exact .inl rfl
  | some parsed =>
    dsimp only
    split
    · exact .inl rfl
    next hkind =>
    rw [not_or, Bool.not_eq_false, Bool.not_eq_true] at hkind
    obtain ⟨offset, end_, hlocated, -, hend, hmin, hsource, hdestination⟩ :=
      located_of_parse hparse hkind.1 hkind.2
    have hlocate := locate_of_located hlocated hend hmin
    rw [hlocate, Option.bind_eq_bind, Option.bind_some]
    dsimp only
    rcases transportInfo_cases hend with hnone | ⟨flags, hinfo, hcomplete⟩
    · exact .inl hnone
    · exact .inr ⟨parsed, offset, end_, flags, rfl, hkind.2, hlocated, hlocate, hend, hsource,
        hdestination, hinfo, hcomplete⟩

/-! ### Canonical keys -/

def Precedes (a b : Bytes × UInt16) : Prop := a.1 < b.1 ∨ (a.1 = b.1 ∧ a.2 < b.2)

theorem Precedes.asymm {a b : Bytes × UInt16} (h : Precedes a b) : ¬Precedes b a := by
  rintro (hba | ⟨heq, hba⟩)
  · rcases h with hab | ⟨heq, -⟩
    · exact List.lt_asymm hab hba
    · exact List.lt_irrefl _ (heq ▸ hba)
  · rcases h with hab | ⟨-, hab⟩
    · exact List.lt_irrefl _ (heq ▸ hab)
    · exact UInt16.lt_asymm hab hba

theorem eq_of_not_precedes {a b : Bytes × UInt16} (hab : ¬Precedes a b) (hba : ¬Precedes b a) :
    a = b := by
  rw [Precedes, not_or, not_and] at hab hba
  have hfirst : a.1 = b.1 := List.le_antisymm hba.1 hab.1
  refine Prod.ext hfirst ?_
  have hle := UInt16.not_lt.mp (hba.2 hfirst.symm)
  exact UInt16.le_antisymm hle (UInt16.not_lt.mp (hab.2 hfirst))

theorem canonical_eq_reverse {key : FlowKey}
    (h : Precedes (key.destination, key.destinationPort) (key.source, key.sourcePort)) :
    canonical key = key.reverseKey := if_pos h

theorem canonical_eq_self {key : FlowKey}
    (h : ¬Precedes (key.destination, key.destinationPort) (key.source, key.sourcePort)) :
    canonical key = key := if_neg h

theorem canonical_cases (key : FlowKey) : canonical key = key ∨ canonical key = key.reverseKey := by
  by_cases h : Precedes (key.destination, key.destinationPort) (key.source, key.sourcePort)
  · exact .inr (canonical_eq_reverse h)
  · exact .inl (canonical_eq_self h)

theorem canonical_reverseKey (key : FlowKey) : canonical key.reverseKey = canonical key := by
  by_cases h : Precedes (key.destination, key.destinationPort) (key.source, key.sourcePort)
  · rw [canonical_eq_reverse h]
    exact canonical_eq_self h.asymm
  rw [canonical_eq_self h]
  by_cases h' : Precedes (key.source, key.sourcePort) (key.destination, key.destinationPort)
  · exact canonical_eq_reverse h'
  -- Both ends are the same, so the key is its own reverse.
  have hsame := eq_of_not_precedes h h'
  have haddress : key.destination = key.source := congrArg Prod.fst hsame
  have hport : key.destinationPort = key.sourcePort := congrArg Prod.snd hsame
  have hreverse : key.reverseKey = key := by
    obtain ⟨⟨version, source, destination⟩, protocol, sourcePort, destinationPort⟩ := key
    dsimp only at haddress hport
    rw [FlowKey.reverseKey, haddress, hport]
  rw [hreverse]
  exact canonical_eq_self h

theorem canonical_canonical (key : FlowKey) : canonical (canonical key) = canonical key := by
  rcases canonical_cases key with h | h
  · rw [h, h]
  · rw [h, canonical_reverseKey, h]

/-- Neither parser reads outside the buffer; where `packet_info` answers, it stands at the
header `parse_ip_flow` read the ports from, which is complete and of no fragment; and the
canonical key is that of both directions. -/
theorem transport_header_consistent :
    (∀ packet, parseIpFlowRead packet = some (parseIpFlow packet)) ∧
    (∀ packet, (packetInfo packet).isSome) ∧
    (∀ packet info, packetInfo packet = some (some info) → ∃ parsed offset end_,
      parseIpFlow packet = some parsed ∧ parsed.fragmented = false ∧ info.flow = parsed.l4 ∧
      Located packet parsed.l3.version parsed.protocol offset end_ ∧
      locate packet parsed = some (some (offset, end_)) ∧ end_ ≤ packet.length ∧
      info.flow.sourcePort = loadBe16 packet offset ∧
      info.flow.destinationPort = loadBe16 packet (offset + 2) ∧
      Complete packet parsed.protocol offset end_ info.flags) ∧
    (∀ packet parsed, parseIpFlow packet = some parsed → parsed.fragmented = true →
      packetInfo packet = some none) ∧
    ∀ key, canonical key = canonical key.reverseKey ∧ canonical (canonical key) = canonical key ∧
      (canonical key = key ∨ canonical key = key.reverseKey) := by
  refine ⟨parseIpFlowRead_eq, fun packet => ?_, fun packet info h => ?_,
    fun packet parsed hparse hfragment => ?_,
    fun key => ⟨(canonical_reverseKey key).symm, canonical_canonical key, canonical_cases key⟩⟩
  · rcases packetInfo_cases packet with hnone | ⟨_, _, _, _, -, -, -, -, -, -, -, hinfo, -⟩
    · rw [hnone]
      rfl
    · rw [hinfo]
      rfl
  · rcases packetInfo_cases packet with hnone | ⟨parsed, offset, end_, flags, hparse, hwhole,
      hlocated, hlocate, hend, hsource, hdestination, hinfo, hcomplete⟩
    · rw [hnone] at h
      cases h
    · obtain rfl := Option.some.inj (Option.some.inj (hinfo.symm.trans h))
      exact ⟨parsed, offset, end_, hparse, hwhole, rfl, hlocated, hlocate, hend, hsource,
        hdestination, hcomplete⟩
  · rcases packetInfo_cases packet with hnone | ⟨parsed', _, _, _, hparse', hwhole, -⟩
    · exact hnone
    · obtain rfl := Option.some.inj (hparse'.symm.trans hparse)
      rw [hwhole] at hfragment
      cases hfragment

end Divert

end Tuntom
