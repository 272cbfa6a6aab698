import Tuntom.PathMtu
import Tuntom.Fragmentation

/-! The sizes of the datagrams that `Tunnel::send_data` produces, while the peer address and
the active transport MTU change. -/
namespace Tuntom

def protocolFragmentV5Size : ℕ := 37

structure MtuOptions where
  tunMtu : ℕ
  transportMtu : ℕ
  relayMode : Bool
  pmtudAuto : Bool
  tun_ge : 576 ≤ tunMtu
  tun_le : tunMtu ≤ maxIpPacketSize
  transport_ge : minTransportMtu ≤ transportMtu
  transport_le : transportMtu ≤ maxIpPacketSize

namespace MtuOptions

variable (o : MtuOptions)

def logicalLimit : ℕ := if o.relayMode then maxIpcPacketSize else o.tunMtu

def packetType : PacketType := if o.relayMode then .ipc else .data

def fragmentLimit : ℕ :=
  if o.relayMode then maxIpcFragmentsPerPacket else maxFragmentsPerPacket

def extension : ℕ := if o.packetType = .ipc then 16 else 12

def startMtu : ℕ := if o.pmtudAuto then minTransportMtu else o.transportMtu

def overhead (outer : OuterIp) : ℕ :=
  outer.size + udpHeaderSize + protocolFragmentV5Size + if o.relayMode then 4 else 0

def maximumFragmentPayload (outer : OuterIp) (activeTransportMtu : ℕ) : Except String ℕ :=
  if activeTransportMtu ≤ o.overhead outer then .error "Transport MTU is too small for tuntom V5"
  else .ok (activeTransportMtu - o.overhead outer)

def validateFragmentCapacity (outer : OuterIp) (activeTransportMtu : ℕ) : Except String Unit := do
  let maximumPayload ← o.maximumFragmentPayload outer activeTransportMtu
  if o.fragmentLimit < (o.logicalLimit + maximumPayload - 1) / maximumPayload then
    .error ("Configured MTU/transport-MTU combination may require " ++
      "more than the allowed number of fragments")

end MtuOptions

inductive SocketFamily where
  | inet
  | inet6
  deriving DecidableEq, Repr

inductive PeerAddress where
  | ipv4
  | ipv4Mapped
  | ipv6
  deriving DecidableEq, Repr

def PeerAddress.family : PeerAddress → SocketFamily
  | .ipv4 => .inet
  | .ipv4Mapped => .inet6
  | .ipv6 => .inet6

/-- The header size that `UdpEndpoint::set_peer` stores. -/
def PeerAddress.outer : PeerAddress → OuterIp
  | .ipv4 => .ipv4
  | .ipv4Mapped => .ipv4
  | .ipv6 => .ipv6

/-- The part of a `Tunnel` that decides the sizes of its datagrams. -/
structure Sender where
  options : MtuOptions
  family : SocketFamily
  outer : OuterIp
  pmtud : Pmtud

namespace Sender

/-- The constructor of `Tunnel`. A dual-stack server has an IPv6 socket, a client one of the
family of its peer; both count the larger header until they know more. -/
def create (options : MtuOptions) (family : SocketFamily) : Except String Sender := do
  let outer : OuterIp := if family = .inet then .ipv4 else .ipv6
  options.validateFragmentCapacity outer options.startMtu
  .ok { options := options, family := family, outer := outer
        pmtud := { activeTransportMtu := options.startMtu } }

/-- What changes the sizes: a new peer, and with path MTU discovery a search that starts anew or
goes on, whatever the path does. -/
inductive Step (s : Sender) : Sender → Prop
  | peer (address : PeerAddress) (hfamily : address.family = s.family) :
      Step s { s with outer := address.outer }
  | restart (link : Pmtud.Link) (depth : ℕ) (t : Pmtud) (hauto : s.options.pmtudAuto = true)
      (h : Pmtud.restartPmtud s.options.transportMtu { link with outer := s.outer } depth s.pmtud =
        some t) :
      Step s { s with pmtud := t }
  | turn (link : Pmtud.Link) (event : Pmtud.Event) (depth : ℕ) (t : Pmtud)
      (hauto : s.options.pmtudAuto = true)
      (h : Pmtud.handle s.options.transportMtu depth ⟨{ link with outer := s.outer }, event⟩ s.pmtud =
        some t) :
      Step s { s with pmtud := t }

/-- The payload limit by which `send_data` plans a packet of the given size. -/
def sizeLimit (s : Sender) (maximum size : ℕ) : ℕ :=
  if size ≤ maximum + s.options.extension then maximum + s.options.extension else maximum

/-- The plan of `send_data` for a packet of the given size. -/
def plan (s : Sender) (size : ℕ) : Except String FragmentPlan := do
  let maximum ← s.options.maximumFragmentPayload s.outer s.pmtud.activeTransportMtu
  makeFragmentPlan size (s.sizeLimit maximum size) s.options.fragmentLimit

end Sender

/-! ### Path MTU discovery on any path -/

namespace Pmtud

structure Ranged (transportMtu : ℕ) (s : Pmtud) : Prop where
  good_ge : minTransportMtu ≤ s.knownGood
  good_le : s.knownGood ≤ upperBound transportMtu
  active_eq : s.activeTransportMtu = s.knownGood
  bad_le : s.knownBad ≤ upperBound transportMtu
  probe_le : s.probePending = true → s.probeSize ≤ upperBound transportMtu

variable {transportMtu : ℕ} {link : Link} {s t : Pmtud}

theorem Ranged.candidate_le (h : Ranged transportMtu s) (hleft : s.complete transportMtu = false) :
    s.candidate transportMtu ≤ upperBound transportMtu := by
  have hbetween := (candidate_between hleft).2
  have hbad := h.bad_le
  rw [limit] at hbetween
  split at hbetween <;> omega

theorem ranged_calls (transportMtu : ℕ) (link : Link) (depth : ℕ) :
    (∀ targetMtu s t, Ranged transportMtu s → targetMtu ≤ upperBound transportMtu →
      sendMtuProbe transportMtu link depth targetMtu s = some t → Ranged transportMtu t) ∧
    ∀ s t, Ranged transportMtu s → advancePmtudSearch transportMtu link depth s = some t →
      Ranged transportMtu t := by
  induction depth with
  | zero =>
    refine ⟨fun targetMtu s t _ _ h => ?_, fun s t _ h => ?_⟩
    · rw [sendMtuProbe] at h
      cases h
    · rw [advancePmtudSearch] at h
      cases h
  | succ depth ih =>
    refine ⟨fun targetMtu s t hs htarget h => ?_, fun s t hs h => ?_⟩
    · rw [sendMtuProbe] at h
      dsimp only at h
      split_ifs at h with hready hpending hsmall hsent
      · cases h
        exact hs
      · cases h
        exact hs
      · cases h
        exact ⟨hs.good_ge, hs.good_le, hs.active_eq, hs.bad_le, fun _ => htarget⟩
      · refine ih.2 _ t ?_ h
        exact ⟨hs.good_ge, hs.good_le, hs.active_eq, htarget, hs.probe_le⟩
      · cases h
        exact hs
    · rw [advancePmtudSearch] at h
      split_ifs at h with hpending hdone
      · cases h
        exact hs
      · cases h
        exact hs
      · exact ih.1 _ s t hs (hs.candidate_le (Bool.eq_false_iff.mpr hdone)) h

theorem restartPmtud_ranged {depth : ℕ} (h : restartPmtud transportMtu link depth s = some t) :
    Ranged transportMtu t := by
  have hupper := minTransportMtu_lt transportMtu
  rw [restartPmtud, startPmtud, if_neg Bool.false_ne_true] at h
  refine (ranged_calls transportMtu link depth).1 _ _ t ?_ ?_ h
  · exact ⟨Nat.le_refl _, hupper.le, rfl, Nat.zero_le _, by simp⟩
  · omega

theorem handle_ranged {depth : ℕ} {event : Event} (hs : Ranged transportMtu s)
    (h : handle transportMtu depth ⟨link, event⟩ s = some t) : Ranged transportMtu t := by
  cases event with
  | reply messageId originalLength =>
    change handleMtuReply transportMtu link depth messageId originalLength s = some t at h
    rw [handleMtuReply] at h
    split at h
    · cases h
      exact hs
    next hanswers =>
    have hpending : s.probePending = true := by
      simp only [answers, Bool.and_eq_true, not_not] at hanswers
      exact hanswers.1.1
    refine (ranged_calls transportMtu link depth).2 _ t ?_ h
    exact ⟨hs.good_ge.trans (le_max_left _ _), max_le hs.good_le (hs.probe_le hpending), rfl,
      hs.bad_le, by simp⟩
  | timer =>
    change handlePmtudTimeout transportMtu link depth s = some t at h
    rw [handlePmtudTimeout] at h
    split at h
    · cases h
      exact hs
    next hexpired =>
    have hpending : s.probePending = true := by
      simp only [expired, Bool.and_eq_true, not_not] at hexpired
      exact hexpired.1
    refine (ranged_calls transportMtu link depth).2 _ t ?_ h
    exact ⟨hs.good_ge, hs.good_le, hs.active_eq, hs.probe_le hpending, by simp⟩

end Pmtud

/-! ### The senders that a start leads to -/

namespace Sender

variable {s t : Sender}

def Feasible (family : SocketFamily) (outer : OuterIp) : Prop := family = .inet → outer = .ipv4

structure Covered (s : Sender) : Prop where
  feasible : Feasible s.family s.outer
  active_ge : s.options.startMtu ≤ s.pmtud.activeTransportMtu
  active_le : s.pmtud.activeTransportMtu ≤ maxIpPacketSize
  ranged : s.options.pmtudAuto = true → s.pmtud.Ranged s.options.transportMtu
  capacity : ∀ outer, Feasible s.family outer →
    s.options.logicalLimit ≤
      s.options.fragmentLimit * (s.options.startMtu - s.options.overhead outer)

end Sender

namespace MtuOptions

variable {o : MtuOptions}

theorem overhead_le (o : MtuOptions) (outer : OuterIp) : o.overhead outer ≤ 89 := by
  have houter := outer.size_le
  simp only [overhead, udpHeaderSize, protocolFragmentV5Size]
  split <;> omega

theorem startMtu_ge (o : MtuOptions) : minTransportMtu ≤ o.startMtu := by
  have hge := o.transport_ge
  rw [startMtu]
  split
  · exact Nat.le_refl _
  · exact hge

theorem startMtu_le (o : MtuOptions) : o.startMtu ≤ maxIpPacketSize := by
  rw [startMtu]
  split
  · decide
  · exact o.transport_le

theorem maximumFragmentPayload_eq {active : ℕ} (outer : OuterIp) (h : minTransportMtu ≤ active) :
    o.maximumFragmentPayload outer active = .ok (active - o.overhead outer) := by
  have hle := o.overhead_le outer
  have hmin : minTransportMtu = 500 := rfl
  rw [maximumFragmentPayload, if_neg (by omega)]

theorem count_le_iff {size maximum limit : ℕ} (hmaximum : 0 < maximum) :
    (size + maximum - 1) / maximum ≤ limit ↔ size ≤ limit * maximum := by
  rw [← Nat.lt_succ_iff, Nat.div_lt_iff_lt_mul hmaximum, Nat.succ_mul]
  omega

theorem validateFragmentCapacity_eq {active : ℕ} {outer : OuterIp} (hactive : minTransportMtu ≤ active)
    (h : o.validateFragmentCapacity outer active = .ok ()) :
    o.logicalLimit ≤ o.fragmentLimit * (active - o.overhead outer) := by
  have hle := o.overhead_le outer
  have hmin : minTransportMtu = 500 := rfl
  rw [validateFragmentCapacity, maximumFragmentPayload_eq outer hactive] at h
  refine (count_le_iff (by omega)).mp (Nat.le_of_not_lt fun hlt => ?_)
  simp [bind, Except.bind, hlt] at h

theorem carries (o : MtuOptions) : o.packetType.carriesFragments = true := by
  rw [packetType]
  split <;> rfl

theorem limit_lt (o : MtuOptions) : o.packetType.limit < 2 ^ 32 := by
  rw [PacketType.limit]
  split <;> decide

theorem extension_eq (o : MtuOptions) : o.extension = 12 + if o.relayMode then 4 else 0 := by
  rw [extension, packetType]
  cases o.relayMode <;> rfl

theorem metadataSize_le (o : MtuOptions) (fragment : Bool) :
    o.packetType.metadataSize fragment ≤ 21 + if o.relayMode then 4 else 0 := by
  rw [packetType]
  cases o.relayMode <;> cases fragment <;> decide

theorem overhead_mono (o : MtuOptions) (outer : OuterIp) : o.overhead outer ≤ o.overhead .ipv6 := by
  have houter := outer.size_le
  have hsix : OuterIp.size .ipv6 = 40 := rfl
  rw [overhead, overhead]
  omega

end MtuOptions

namespace Sender

variable {s t : Sender}

theorem create_covered {options : MtuOptions} {family : SocketFamily}
    (h : create options family = .ok s) : s.options = options ∧ s.Covered := by
  rw [create] at h
  cases hvalid : options.validateFragmentCapacity (if family = .inet then .ipv4 else .ipv6)
      options.startMtu with
  | error message =>
    simp only [hvalid, bind, Except.bind] at h
    cases h
  | ok _ =>
    simp only [hvalid, bind, Except.bind] at h
    cases h
    refine ⟨rfl, ?_, Nat.le_refl _, options.startMtu_le, fun hauto => ?_, fun outer hfeasible => ?_⟩
    · exact fun hinet => if_pos hinet
    · have hstart : options.startMtu = minTransportMtu := if_pos hauto
      exact ⟨Nat.le_refl _, (Pmtud.minTransportMtu_lt _).le, hstart, Nat.zero_le _, by simp⟩
    · have hcapacity := MtuOptions.validateFragmentCapacity_eq options.startMtu_ge hvalid
      refine hcapacity.trans (Nat.mul_le_mul_left _ (Nat.sub_le_sub_left ?_ _))
      by_cases hinet : family = .inet
      · rw [if_pos hinet, hfeasible hinet]
      · rw [if_neg hinet]
        exact options.overhead_mono outer

theorem Covered.pmtud (h : s.Covered) (hauto : s.options.pmtudAuto = true) {t : Pmtud}
    (ht : t.Ranged s.options.transportMtu) : Covered { s with pmtud := t } := by
  refine ⟨h.feasible, ?_, ?_, fun _ => ht, h.capacity⟩
  · show s.options.startMtu ≤ t.activeTransportMtu
    rw [ht.active_eq, MtuOptions.startMtu, if_pos hauto]
    exact ht.good_ge
  · show t.activeTransportMtu ≤ maxIpPacketSize
    rw [ht.active_eq]
    exact ht.good_le.trans (max_le (by decide) s.options.transport_le)

theorem Step.covered (h : s.Covered) (hstep : s.Step t) : t.options = s.options ∧ t.Covered := by
  cases hstep with
  | peer address hfamily =>
    refine ⟨rfl, fun hinet => ?_, h.active_ge, h.active_le, h.ranged, h.capacity⟩
    have hinet : address.family = .inet := hfamily.trans hinet
    cases address <;> first | rfl | cases hinet
  | restart link depth t hauto hrestart =>
    exact ⟨rfl, h.pmtud hauto (Pmtud.restartPmtud_ranged hrestart)⟩
  | turn link event depth t hauto hhandle =>
    exact ⟨rfl, h.pmtud hauto (Pmtud.handle_ranged (h.ranged hauto) hhandle)⟩

theorem run_covered (h : s.Covered) (hrun : Relation.ReflTransGen Step s t) :
    t.options = s.options ∧ t.Covered := by
  induction hrun with
  | refl => exact ⟨rfl, h⟩
  | tail _ hstep ih =>
    obtain ⟨hoptions, hcovered⟩ := hstep.covered ih.2
    exact ⟨hoptions.trans ih.1, hcovered⟩

/-! ### The datagrams of a packet -/

theorem Covered.mtu_ge (h : s.Covered) : minTransportMtu ≤ s.pmtud.activeTransportMtu :=
  s.options.startMtu_ge.trans h.active_ge

theorem logicalLimit_le (o : MtuOptions) : o.logicalLimit ≤ o.packetType.limit := by
  have hle := o.tun_le
  rw [MtuOptions.logicalLimit, MtuOptions.packetType]
  split
  · exact Nat.le_refl _
  · exact hle

/-- What `send_data` plans for a packet: fragments of at most the maximum payload, or one datagram
that may also fill the place of the fragment extension. -/
structure Planned (s : Sender) (size : ℕ) (plan : FragmentPlan) : Prop where
  ok : s.plan size = .ok plan
  splits : plan.Splits size s.options.fragmentLimit
  fits : plan.count = 1 ∧
      size + s.options.overhead s.outer ≤ s.pmtud.activeTransportMtu + s.options.extension ∨
    ∀ index, plan.fragmentSize index + s.options.overhead s.outer ≤ s.pmtud.activeTransportMtu

/-- The start has checked the limit for the largest packet and the smallest fragments. -/
theorem Covered.planned (h : s.Covered) {size : ℕ} (hpos : 0 < size)
    (hsize : size ≤ s.options.logicalLimit) : ∃ plan, s.Planned size plan := by
  have hactive : 500 ≤ s.pmtud.activeTransportMtu := h.mtu_ge
  have hactiveLe : s.pmtud.activeTransportMtu ≤ 65535 := h.active_le
  have hoverhead := s.options.overhead_le s.outer
  have hextension : s.options.extension ≤ 16 := by
    rw [MtuOptions.extension]
    split <;> decide
  have hsizeLe : size ≤ 65639 := by
    refine hsize.trans ((logicalLimit_le _).trans ?_)
    rw [PacketType.limit]
    split <;> decide
  have hlimit : 1 ≤ s.options.fragmentLimit := by
    rw [MtuOptions.fragmentLimit]
    split <;> decide
  generalize hmaximum : s.pmtud.activeTransportMtu - s.options.overhead s.outer = maximum
  have hplan : s.plan size =
      makeFragmentPlan size (s.sizeLimit maximum size) s.options.fragmentLimit := by
    rw [plan, MtuOptions.maximumFragmentPayload_eq s.outer h.mtu_ge, hmaximum]
    rfl
  by_cases hwhole : size ≤ maximum + s.options.extension
  · have hsizeLimit : s.sizeLimit maximum size = maximum + s.options.extension := if_pos hwhole
    rw [hsizeLimit] at hplan
    obtain ⟨plan, hok, hcount, -⟩ := makeFragmentPlan_ok hpos
      (show 0 < maximum + s.options.extension by omega) (by omega)
      (hwhole.trans (Nat.le_mul_of_pos_left _ hlimit))
    have hone : plan.count = 1 := by
      rw [hcount]
      exact Nat.div_eq_of_lt_le (by omega) (by omega)
    exact ⟨plan, hplan.trans hok, makeFragmentPlan_splits hok, .inl ⟨hone, by omega⟩⟩
  have hsizeLimit : s.sizeLimit maximum size = maximum := if_neg hwhole
  rw [hsizeLimit] at hplan
  have hcapacity : size ≤ s.options.fragmentLimit * maximum := by
    refine (hsize.trans (h.capacity s.outer h.feasible)).trans (Nat.mul_le_mul_left _ ?_)
    rw [← hmaximum]
    exact Nat.sub_le_sub_right h.active_ge _
  obtain ⟨plan, hok, -, hbase, hlarger, hcovers⟩ := makeFragmentPlan_ok hpos
    (show 0 < maximum by omega) (by omega) hcapacity
  have hsplits := makeFragmentPlan_splits hok
  refine ⟨plan, hplan.trans hok, hsplits, .inr fun index => ?_⟩
  have hle := FragmentPlan.fragmentSize_le hbase hlarger hcovers index
  omega

theorem Planned.mem_fragments {plan : FragmentPlan} {payload : Bytes} {type : PacketType}
    {tunnelId : UInt16} {messageId : UInt64} {fragment : Packet}
    (h : fragment ∈ fragmentLoop plan type tunnelId messageId payload plan.count 0 0) :
    ∃ index < plan.count,
      fragment = fragmentAt plan type tunnelId messageId payload index (plan.offset index) := by
  obtain ⟨index, hindex⟩ := List.mem_iff_getElem?.mp h
  have hlt : index < plan.count := by
    obtain ⟨hlt, -⟩ := List.getElem?_eq_some_iff.mp hindex
    rwa [length_fragmentLoop] at hlt
  have hget := fragmentLoop_getElem? plan type tunnelId messageId payload plan.count 0 index hlt
  rw [plan.offset_zero, Nat.zero_add] at hget
  exact ⟨index, hlt, Option.some.inj (hindex.symm.trans hget)⟩

/-- Every fragment of a planned packet fits the active transport MTU with all its headers. -/
theorem Planned.datagram_le {plan : FragmentPlan} {payload : Bytes}
    (h : s.Planned payload.length plan) (hsize : payload.length < 2 ^ 32) {index : ℕ}
    (hindex : index < plan.count) (tunnelId : UInt16) (messageId sequence : UInt64)
    (P : Primitives) (c : Codec) :
    s.outer.size + udpHeaderSize + (c.layout P { fragmentAt plan s.options.packetType tunnelId messageId
      payload index (plan.offset index) with sequence := sequence }).length ≤
      s.pmtud.activeTransportMtu := by
  have hoverhead : s.options.overhead s.outer =
    s.outer.size + udpHeaderSize + 37 + if s.options.relayMode then 4 else 0 := rfl
  rw [Codec.length_layout]
  rcases h.fits with ⟨hone, hfits⟩ | hfits
  · -- a single fragment is the whole packet and has no extension
    obtain rfl : index = 0 := by omega
    have hall : plan.fragmentSize 0 = payload.length := by
      have hcount := h.splits.offset_count
      rwa [hone, FragmentPlan.offset_succ, plan.offset_zero, Nat.zero_add] at hcount
    have hpayload : (payload.drop (plan.offset 0)).take (plan.fragmentSize 0) = payload := by
      rw [plan.offset_zero, hall, List.drop_zero, List.take_length]
    have hmetadata : Packet.metadataSize { fragmentAt plan s.options.packetType tunnelId messageId
        payload 0 (plan.offset 0) with sequence := sequence } = 9 := by
      have hwhole : Packet.fragmented { fragmentAt plan s.options.packetType tunnelId messageId
          payload 0 (plan.offset 0) with sequence := sequence } = false := by
        have hlength := UInt32.toNat_ofNat_of_lt' hsize
        simp only [Packet.fragmented, fragmentAt, plan.offset_zero, hlength, hall]
        simp
      rw [Packet.metadataSize, hwhole]
      exact Codec.metadataSize_whole s.options.carries
    rw [hmetadata]
    simp only [fragmentAt, hpayload]
    have hextension := s.options.extension_eq
    omega
  have hmetadata : Packet.metadataSize { fragmentAt plan s.options.packetType tunnelId messageId
      payload index (plan.offset index) with sequence := sequence } ≤
      21 + if s.options.relayMode then 4 else 0 := s.options.metadataSize_le _
  have hpart : ((payload.drop (plan.offset index)).take (plan.fragmentSize index)).length ≤
      plan.fragmentSize index := List.length_take_le _ _
  have hfit := hfits index
  simp only [fragmentAt] at hmetadata ⊢
  omega

/-- From a start that passes its validation on, whatever peers and path MTUs follow, every packet
within the logical limit has a plan of allowed size, and each datagram of it is encoded and fits
the active transport MTU. -/
theorem send_data_fits {options : MtuOptions} {family : SocketFamily} {start s : Sender}
    (hcreate : create options family = .ok start) (hrun : Relation.ReflTransGen Step start s)
    {payload : Bytes} (hpayload : payload ≠ []) (hsize : payload.length ≤ options.logicalLimit)
    (P : Primitives) (c : Codec) (tunnelId : UInt16) (messageId : UInt64) :
    (∃ maximum, options.maximumFragmentPayload s.outer s.pmtud.activeTransportMtu = .ok maximum) ∧
    ∃ plan, s.plan payload.length = .ok plan ∧ plan.count ≤ options.fragmentLimit ∧
      plan.count ≤ maxIpcFragmentsPerPacket ∧
      ∀ fragment ∈ fragmentLoop plan options.packetType tunnelId messageId payload plan.count 0 0,
        ∀ sequence, ∃ wire, c.encode P { fragment with sequence := sequence } = .ok wire ∧
          s.outer.size + udpHeaderSize + wire.length ≤ s.pmtud.activeTransportMtu := by
  obtain ⟨rfl, hstart⟩ := create_covered hcreate
  obtain ⟨hoptions, hcovered⟩ := run_covered hstart hrun
  rw [← hoptions] at hsize ⊢
  obtain ⟨plan, hplanned⟩ := hcovered.planned (List.length_pos_of_ne_nil hpayload) hsize
  have hlimit := hsize.trans (logicalLimit_le _)
  have hsmall : payload.length < 2 ^ 32 := hlimit.trans_lt s.options.limit_lt
  refine ⟨⟨_, MtuOptions.maximumFragmentPayload_eq s.outer hcovered.mtu_ge⟩, plan, hplanned.ok,
    hplanned.splits.count_le, hplanned.splits.count_le.trans ?_, fun fragment hfragment sequence => ?_⟩
  · rw [MtuOptions.fragmentLimit]
    split <;> decide
  · obtain ⟨index, hindex, rfl⟩ := Planned.mem_fragments hfragment
    refine ⟨_, ?_, hplanned.datagram_le hsmall hindex tunnelId messageId sequence P c⟩
    have hoffset : plan.offset index ≤ payload.length :=
      (plan.offset_mono hindex.le).trans_eq hplanned.splits.offset_count
    have hpart : ((payload.drop (plan.offset index)).take (plan.fragmentSize index)).length ≤
        payload.length := (List.length_take_le' _ _).trans (by simp)
    rw [Codec.encode, if_neg, if_neg]
    · exact fun hhandshake => Codec.not_handshake_of_carriesFragments s.options.carries hhandshake.1
    · simp only [fragmentAt, not_or, not_lt, gt_iff_lt,
        UInt32.toNat_ofNat_of_lt' (hoffset.trans_lt hsmall), UInt32.toNat_ofNat_of_lt' hsmall]
      exact ⟨hoffset.trans hlimit, hlimit, hpart.trans hlimit⟩

/-- A dual-stack server with the default sizes that discovers its path MTU. -/
def defaultOptions : MtuOptions where
  tunMtu := 1500
  transportMtu := 1400
  relayMode := false
  pmtudAuto := true
  tun_ge := by decide
  tun_le := by decide
  transport_ge := by decide
  transport_le := by decide

theorem send_data_fits_default :
    (create defaultOptions .inet6).isOk = true ∧
      ∀ (start : Sender), create defaultOptions .inet6 = .ok start → ∀ (P : Primitives) (c : Codec),
        ∃ plan, start.plan 3 = .ok plan ∧ plan.count ≤ 64 ∧
          ∀ fragment ∈ fragmentLoop plan .data 0 1 [1, 2, 3] plan.count 0 0,
            ∃ wire, c.encode P { fragment with sequence := 5 } = .ok wire ∧
              start.outer.size + udpHeaderSize + wire.length ≤ start.pmtud.activeTransportMtu := by
  refine ⟨by decide, fun start hcreate P c => ?_⟩
  obtain ⟨-, plan, hplan, hcount, -, hfragments⟩ := send_data_fits hcreate .refl
    (List.cons_ne_nil (1 : UInt8) [2, 3]) (by decide) P c 0 1
  exact ⟨plan, hplan, hcount, fun fragment hfragment => hfragments fragment hfragment 5⟩

end Sender

end Tuntom
