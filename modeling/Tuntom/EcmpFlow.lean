import Tuntom.SwitchEcmp
import Tuntom.IpFragments

/-! The flow hash of `switch_ecmp.hpp`, over any keyed hash in the place of SipHash. -/
namespace Tuntom

structure SiphashKey where
  key0 : UInt64
  key1 : UInt64
  deriving DecidableEq, Repr

def ecmpEndpointKey : SiphashKey := ⟨0x74756e746f6d2d31, 0x65636d702d666c6f⟩
def ecmpOpaqueKey : SiphashKey := ⟨0x74756e746f6d2d31, 0x65636d702d6f7061⟩
def ecmpMemberKey : SiphashKey := ⟨0x74756e746f6d2d31, 0x65636d702d706f72⟩
def ecmpScoreKey : SiphashKey := ⟨0x74756e746f6d2d31, 0x65636d702d687277⟩

/-- `siphash` and `siphash_2u64`. -/
structure SipHash where
  siphash : Bytes → SiphashKey → UInt64
  siphash2u64 : UInt64 → UInt64 → SiphashKey → UInt64

def ParsedIpFlow.ported (flow : ParsedIpFlow) : Bool := flow.hasL4 && !flow.fragmented

namespace SipHash

variable (S : SipHash)

def ecmpPortIdentity (name : Bytes) : UInt64 := S.siphash name ecmpMemberKey

/-- One end of a flow as it is hashed: the version, the protocol of a transport flow, the address
and, for a transport flow, the port. -/
def endpoint (flow : ParsedIpFlow) (address : Bytes) (port : UInt16) : Bytes :=
  let addressSize := if flow.l3.version = 4 then 4 else 16
  [flow.l3.version, if flow.ported then flow.l4.protocol else 0] ++ address.take addressSize ++
    if flow.ported then storeBe16 port else []

def ecmpFlowHash (frame : SwitchFrame) : UInt64 :=
  match parseIpFlow frame.payload with
  | none => S.siphash (frame.labels.flatMap storeBe64) ecmpOpaqueKey
  | some flow =>
    S.siphash (endpoint flow flow.l3.source flow.l4.sourcePort) ecmpEndpointKey ^^^
      S.siphash (endpoint flow flow.l3.destination flow.l4.destinationPort) ecmpEndpointKey

def ecmpHash : EcmpHash where
  flow := S.ecmpFlowHash
  identity := S.ecmpPortIdentity
  score := fun flow identity => S.siphash2u64 flow identity ecmpScoreKey

end SipHash

/-- `back` is of the flow opposite to that of `flow`: the addresses are exchanged and, where the
ports are part of the flow, the ports as well. -/
def ParsedIpFlow.Opposite (flow back : ParsedIpFlow) : Prop :=
  back.l3 = flow.l3.reverseKey ∧ back.ported = flow.ported ∧
    (flow.ported = true → back.l4 = flow.l4.reverseKey)

variable {S : SipHash}

theorem endpoint_opposite {flow back : ParsedIpFlow} (h : flow.Opposite back) (address : Bytes)
    {port port' : UInt16} (hport : flow.ported = true → port = port') :
    SipHash.endpoint back address port = SipHash.endpoint flow address port' := by
  obtain ⟨hl3, hported, hl4⟩ := h
  simp only [SipHash.endpoint, hl3, hported, IpPairKey.reverseKey]
  cases hp : flow.ported with
  | false => rfl
  | true => simp [hl4 hp, hport hp, FlowKey.reverseKey]

theorem ecmpFlowHash_opposite {frame other : SwitchFrame} {flow back : ParsedIpFlow}
    (hframe : parseIpFlow frame.payload = some flow) (hother : parseIpFlow other.payload = some back)
    (h : flow.Opposite back) : S.ecmpFlowHash other = S.ecmpFlowHash frame := by
  have hsource := @endpoint_opposite flow back h flow.l3.destination back.l4.sourcePort
    flow.l4.destinationPort fun hp => by rw [h.2.2 hp]; rfl
  have hdestination := @endpoint_opposite flow back h flow.l3.source back.l4.destinationPort
    flow.l4.sourcePort fun hp => by rw [h.2.2 hp]; rfl
  have hback : back.l3.source = flow.l3.destination ∧ back.l3.destination = flow.l3.source := by
    rw [h.1]
    exact ⟨rfl, rfl⟩
  rw [SipHash.ecmpFlowHash, SipHash.ecmpFlowHash, hframe, hother]
  simp only [hback, hsource, hdestination]
  exact UInt64.xor_comm _ _

theorem ecmpFlowHash_unparsed {frame : SwitchFrame} (h : parseIpFlow frame.payload = none) :
    S.ecmpFlowHash frame = S.siphash (frame.labels.flatMap storeBe64) ecmpOpaqueKey := by
  rw [SipHash.ecmpFlowHash, h]

theorem ecmpFlowHash_fragmented {frame other : SwitchFrame} {flow flow' : ParsedIpFlow}
    (h : parseIpFlow frame.payload = some flow) (h' : parseIpFlow other.payload = some flow')
    (hl3 : flow'.l3 = flow.l3) (hfragmented : flow.fragmented = true)
    (hfragmented' : flow'.fragmented = true) : S.ecmpFlowHash frame = S.ecmpFlowHash other := by
  simp [SipHash.ecmpFlowHash, h, h', SipHash.endpoint, ParsedIpFlow.ported, hl3, hfragmented,
    hfragmented']

def tellingHash : SipHash where
  siphash := fun _ key => if key = ecmpOpaqueKey then 1 else 0
  siphash2u64 := fun _ _ _ => 0

theorem ecmpFlowHash_tells {frame other : SwitchFrame} {flow : ParsedIpFlow}
    (h : parseIpFlow frame.payload = some flow) (h' : parseIpFlow other.payload = none) :
    tellingHash.ecmpFlowHash frame ≠ tellingHash.ecmpFlowHash other := by
  rw [SipHash.ecmpFlowHash, SipHash.ecmpFlowHash, h, h']
  simp [tellingHash, ecmpOpaqueKey, ecmpEndpointKey]

theorem ecmpFlowHash_ip4 {d : Ip4Datagram} (f g : Ip4Fragment d) (labels labels' : Labels) :
    S.ecmpFlowHash ⟨labels, f.bytes⟩ = S.ecmpFlowHash ⟨labels', g.bytes⟩ := by
  obtain ⟨flow, hflow, hl3, hfragmented⟩ := f.parseIpFlow_bytes
  obtain ⟨flow', hflow', hl3', hfragmented'⟩ := g.parseIpFlow_bytes
  exact ecmpFlowHash_fragmented hflow hflow' (hl3'.trans hl3.symm) hfragmented hfragmented'

/-- Two packets of an IPv6 datagram have one hash for every SipHash exactly if the parser accepts
both or neither. -/
theorem ecmpFlowHash_ip6_parsed {d : Ip6Datagram} (f g : Ip6Fragment d) (labels : Labels) :
    (∀ S : SipHash, S.ecmpFlowHash ⟨labels, f.bytes⟩ = S.ecmpFlowHash ⟨labels, g.bytes⟩) ↔
      ((parseIpFlow f.bytes).isSome ↔ (parseIpFlow g.bytes).isSome) := by
  cases hf : parseIpFlow f.bytes with
  | none =>
    cases hg : parseIpFlow g.bytes with
    | none =>
      refine ⟨fun _ => Iff.rfl, fun _ S => ?_⟩
      rw [ecmpFlowHash_unparsed hf, ecmpFlowHash_unparsed hg]
    | some flow =>
      refine ⟨fun h => ?_, fun h => ?_⟩
      · exact absurd (h tellingHash).symm (ecmpFlowHash_tells hg hf)
      · exact absurd (h.mpr rfl) Bool.false_ne_true
  | some flow =>
    cases hg : parseIpFlow g.bytes with
    | none =>
      refine ⟨fun h => ?_, fun h => ?_⟩
      · exact absurd (h tellingHash) (ecmpFlowHash_tells hf hg)
      · exact absurd (h.mp rfl) Bool.false_ne_true
    | some flow' =>
      obtain ⟨hl3, hfragmented⟩ := f.parseIpFlow_bytes hf
      obtain ⟨hl3', hfragmented'⟩ := g.parseIpFlow_bytes hg
      refine ⟨fun _ => Iff.rfl, fun _ S => ?_⟩
      exact ecmpFlowHash_fragmented hf hg (hl3'.trans hl3.symm) hfragmented hfragmented'

theorem ecmpFlowHash_ip6 {d : Ip6Datagram} (f g : Ip6Fragment d) (labels : Labels) :
    (∀ S : SipHash, S.ecmpFlowHash ⟨labels, f.bytes⟩ = S.ecmpFlowHash ⟨labels, g.bytes⟩) ↔
      (f.Readable ↔ g.Readable) := by
  rw [ecmpFlowHash_ip6_parsed, f.parseIpFlow_isSome, g.parseIpFlow_isSome]
  by_cases hcount : d.headers.length < 8
  · simp only [hcount, true_and]
  · simp only [Ip6Fragment.Readable, hcount, false_and, false_implies]

/-- A UDP packet from port 12345 of host 10.0.0.1 to port 443 of host 11.0.0.2. -/
def udpThere : Bytes :=
  [0x45, 0, 0, 28, 0, 0, 0, 0, 64, 17, 0, 0, 10, 0, 0, 1, 11, 0, 0, 2, 48, 57, 1, 187, 0, 8, 0, 0]

def udpBack : Bytes :=
  [0x45, 0, 0, 28, 0, 0, 0, 0, 60, 17, 0, 0, 11, 0, 0, 2, 10, 0, 0, 1, 1, 187, 48, 57, 0, 8, 0, 0]

/-- Eight empty option headers, a UDP header and its payload, sent from host 1 to host 2. -/
def optionsDatagram : Ip6Datagram where
  source := Vector.replicate 16 1
  destination := Vector.replicate 16 2
  headers := []
  next := 60
  identification := 7
  body := (List.replicate 7 [60, 0, 0, 0, 0, 0, 0, 0]).flatten ++
    [17, 0, 0, 0, 0, 0, 0, 0, 48, 57, 1, 187, 0, 16, 0, 0, 1, 2, 3, 4, 5, 6, 7, 8]

def optionsFirst : Ip6Fragment optionsDatagram where
  lead := 0x60
  label := Vector.replicate 3 0
  hopLimit := 64
  reserved := 0
  offset := 0
  size := 72
  padding := []
  version := by decide
  aligned := by decide
  within := by decide
  fits := by decide

def optionsLater : Ip6Fragment optionsDatagram :=
  { optionsFirst with offset := 72, size := 8, aligned := by decide, within := by decide,
                      fits := by decide }

end Tuntom
