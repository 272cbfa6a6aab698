import Tuntom.Ascon
import Tuntom.ReassemblyCover

/-! Fragmentation followed by reassembly. When the fragments of honest packets arrive
in any order, each packet comes back, unchanged, when its last fragment arrives. -/
namespace Tuntom

open Pieces List

/-! ### Calls that lose nothing -/

namespace Reassembler

variable (cfg : ReassemblyConfig) (r : Reassembler)

def losses : ℕ :=
  r.metrics.capacityEvictions + r.metrics.capacityDrops + r.metrics.expiredEntries

@[simp] theorem losses_erase (id : UInt64) : (r.erase id).losses = r.losses := by
  unfold erase
  split <;> rfl

theorem losses_forgetOldestDiscarded :
    r.forgetOldestDiscarded.losses = r.losses := by
  unfold forgetOldestDiscarded
  split <;> rfl

theorem losses_rememberDiscarded (id : UInt64)
    (now : Time) : (r.rememberDiscarded cfg id now).losses = r.losses := by
  unfold rememberDiscarded trimDiscarded
  split
  · rfl
  split
  · exact losses_forgetOldestDiscarded r
  · rfl

@[simp] theorem losses_drop (id : UInt64) (now : Time) :
    (r.drop cfg id now).losses = r.losses :=
  (losses_erase _ id).trans (losses_rememberDiscarded cfg r id now)

theorem losses_forgetExpired (now : Time) (records : List Discarded) (r : Reassembler) :
    (forgetExpired now records r).losses = r.losses := by
  induction records generalizing r with
  | nil => rfl
  | cons oldest rest ih =>
    rw [forgetExpired]
    split
    · rw [ih, losses_forgetOldestDiscarded]
    · rfl

theorem losses_tally_expired :
    (r.tally fun m => { m with expiredEntries := m.expiredEntries + 1 }).losses = r.losses + 1 :=
  rfl

theorem losses_tally_evicted :
    (r.tally fun m => { m with capacityEvictions := m.capacityEvictions + 1 }).losses =
      r.losses + 1 := by
  simp only [losses, tally]
  omega

theorem expireEntries_losses (now : Time) (ids : List UInt64)
    (r : Reassembler) : expireEntries cfg now ids r = r ∨
      r.losses < (expireEntries cfg now ids r).losses := by
  induction ids generalizing r with
  | nil => exact .inl rfl
  | cons id rest ih =>
    rw [expireEntries]
    split
    · exact .inl rfl
    split
    · exact .inl rfl
    right
    have hstep := losses_tally_expired (r.drop cfg id now)
    rw [losses_drop] at hstep
    rcases ih ((r.drop cfg id now).tally fun m =>
      { m with expiredEntries := m.expiredEntries + 1 }) with h | h
    · rw [h]
      omega
    · omega

theorem evict_losses (needed : ℕ) (now : Time) (ids : List UInt64)
    (r : Reassembler) : evict cfg needed now ids r = r ∨
      r.losses < (evict cfg needed now ids r).losses := by
  induction ids generalizing r with
  | nil => exact .inl rfl
  | cons id rest ih =>
    rw [evict]
    split
    · right
      have hstep := losses_tally_evicted (r.drop cfg id now)
      rw [losses_drop] at hstep
      rcases ih ((r.drop cfg id now).tally fun m =>
        { m with capacityEvictions := m.capacityEvictions + 1 }) with h | h
      · rw [h]
        omega
      · omega
    · exact .inl rfl

def Undiscarded : Prop := r.discardedOrder = [] ∧ r.discarded = ∅

theorem undiscarded_erase (id : UInt64) :
    (r.erase id).Undiscarded ↔ r.Undiscarded := by
  unfold erase
  split <;> rfl

theorem cleanupExpired_losses {r : Reassembler} (h : r.Undiscarded)
    (now : Time) : r.cleanupExpired cfg now = r ∨ r.losses < (r.cleanupExpired cfg now).losses := by
  unfold cleanupExpired
  rw [h.1]
  exact expireEntries_losses cfg now _ r

theorem losses_cleanupExpired (now : Time) :
    r.losses ≤ (r.cleanupExpired cfg now).losses := by
  unfold cleanupExpired
  rw [← losses_forgetExpired now r.discardedOrder r]
  dsimp only
  rcases expireEntries_losses cfg now (forgetExpired now r.discardedOrder r).activityOrder
    (forgetExpired now r.discardedOrder r) with h | h
  · rw [h]
  · exact h.le

theorem losses_store (entry : ReassemblyEntry) (fragment : Packet) (now : Time) (opened : Bool) :
    (r.store cfg entry fragment now opened).1.losses = r.losses := by
  unfold store
  split
  · exact losses_drop cfg _ _ now
  split
  · rfl
  dsimp only
  split
  · rfl
  · exact losses_erase (r.update fragment.messageId (entry.add fragment now)) _

theorem losses_acceptPart (fragment : Packet)
    (now : Time) : r.losses ≤ (r.acceptPart cfg fragment now).1.losses := by
  unfold acceptPart
  split
  · exact le_rfl
  split
  · rw [losses_store]
  split
  · rw [losses_rememberDiscarded]
    simp only [losses, tally]
    omega
  rw [losses_store]
  rcases evict_losses cfg fragment.originalLength.toNat now r.arrivalOrder r with h | h
  · rw [h]
    exact le_rfl
  · exact h.le

theorem losses_accept (fragment : Packet)
    (now : Time) : r.losses ≤ (r.accept cfg fragment now).1.losses := by
  unfold accept
  split
  · exact le_rfl
  split
  · exact le_rfl
  · exact (losses_cleanupExpired cfg r now).trans (losses_acceptPart cfg _ fragment now)

/-- A fragment of a message in progress, or the first of a new one, when nothing is lost. -/
theorem accept_of_lossless {cfg : ReassemblyConfig} {r : Reassembler} (hdiscarded : r.Undiscarded)
    {fragment : Packet} {now : Time} (hvalid : fragment.invalidFor cfg.maximumPacketSize = false)
    (hpart : fragment.range ≠ ⟨0, fragment.originalLength.toNat⟩)
    (hlossless : (r.accept cfg fragment now).1.losses ≤ r.losses) :
    r.accept cfg fragment now =
      match r.live fragment.messageId with
      | some entry => r.store cfg entry fragment now false
      | none => (r.openEntry fragment.messageId (.fresh fragment now)).store cfg
          (.fresh fragment now) fragment now true := by
  have hlate : fragment.messageId ∉ r.discarded := by
    rw [hdiscarded.2]
    exact Finset.notMem_empty _
  unfold accept at hlossless ⊢
  rw [if_neg (Bool.not_eq_true _ ▸ hvalid), if_neg hpart] at hlossless ⊢
  rcases cleanupExpired_losses cfg hdiscarded now with hclean | hlost
  · rw [hclean] at hlossless ⊢
    unfold acceptPart at hlossless ⊢
    rw [if_neg hlate] at hlossless ⊢
    split
    next entry hentry => simp only [live, hentry]
    next hnone =>
    simp only [live, hnone] at hlossless ⊢
    split
    next hbig =>
      rw [if_pos hbig, losses_rememberDiscarded] at hlossless
      simp only [losses, tally] at hlossless
      omega
    next hroom =>
    rw [if_neg hroom, losses_store] at hlossless
    rcases evict_losses cfg fragment.originalLength.toNat now r.arrivalOrder r with h | h
    · rw [h]
    · exact absurd (show _ < _ from h) (not_lt.mpr hlossless)
  · exact absurd (hlost.trans_le (losses_acceptPart cfg _ fragment now)) (not_lt.mpr hlossless)

end Reassembler

/-! ### Honest deliveries -/

/-- `p` is `f` as the peer decodes it: with its own sequence number, which also becomes
the id of a packet sent whole. -/
structure Delivers (f p : Packet) : Prop where
  type : p.type = f.type
  offset : p.fragmentOffset = f.fragmentOffset
  length : p.originalLength = f.originalLength
  payload : p.payload = f.payload
  id_ne_zero : p.messageId ≠ 0
  id : f.fragmented → p.messageId = f.messageId

/-- The fragment as the peer gets it when it is sent under the sequence number `s`. -/
def Message.received (m : Message) (index : ℕ) (s : UInt64) : Packet :=
  { m.fragment index with
    sequence := s
    messageId := if (m.fragment index).fragmented then m.messageId else s }

theorem Message.delivers_received (m : Message) (index : ℕ) {s : UInt64} (hs : s ≠ 0) :
    Delivers (m.fragment index) (m.received index s) where
  type := rfl
  offset := rfl
  length := rfl
  payload := rfl
  id_ne_zero := by
    rw [received]
    split
    · exact m.id_ne_zero
    · exact hs
  id := fun h => if_pos h

theorem Message.received_wellFormed (m : Message) {index : ℕ} (h : index < m.plan.count)
    {s : UInt64} (hs : s ≠ 0) {c : Codec} (hc : m.tunnelId = c.tunnelId) :
    c.WellFormed (m.received index s) := by
  have hend := m.offset_le (show index + 1 ≤ m.plan.count from h)
  have hpayload : (m.received index s).payload.length = m.plan.fragmentSize index :=
    m.length_fragment h
  have hoffset : (m.received index s).fragmentOffset.toNat = m.plan.offset index :=
    m.toNat_fragmentOffset h.le
  have hlength : (m.received index s).originalLength.toNat = m.payload.length :=
    m.toNat_originalLength index
  have hpos := m.fragmentSize_pos index
  have hle : m.payload.length ≤ (m.received index s).type.limit := m.length_le
  rw [FragmentPlan.offset_succ] at hend
  refine ⟨hc, rfl, by omega, by omega, by omega, ?_, ?_, fun _ hwhole => if_neg hwhole, ?_⟩
  · exact fun hhandshake => absurd hhandshake (Codec.not_handshake_of_carriesFragments m.carries)
  · have hrules : (m.received index s).messageId ≠ 0 ∧ (m.received index s).originalLength ≠ 0 ∧
        (m.received index s).payload ≠ [] ∧ (m.received index s).fragmentOffset.toNat +
          (m.received index s).payload.length ≤ (m.received index s).originalLength.toNat := by
      refine ⟨(m.delivers_received index hs).id_ne_zero, fun hzero => ?_, ?_, by omega⟩
      · rw [hzero, UInt32.toNat_zero] at hlength
        omega
      · rw [← length_pos_iff]
        omega
    have hcarries : m.type = .data ∨ m.type = .ipc := by
      simpa [PacketType.carriesFragments] using m.carries
    rw [Packet.acceptable, show (m.received index s).type = m.type from rfl]
    rcases hcarries with htype | htype <;> simpa [htype, and_assoc] using hrules
  · exact fun hplain => absurd m.carries hplain

/-- The id of a packet sent whole is not on the wire. -/
theorem Message.encode_received (m : Message) (index : ℕ) (s : UInt64) (P : Primitives) (c : Codec) :
    c.encode P { m.fragment index with sequence := s } = c.encode P (m.received index s) := by
  have hextension : Codec.extension { m.fragment index with sequence := s } =
      Codec.extension (m.received index s) := by
    by_cases hfragmented : (m.fragment index).fragmented
    · rw [received, if_pos hfragmented]
      rfl
    have hsize : (m.fragment index).metadataSize = 9 := by
      rw [Packet.metadataSize, (Bool.not_eq_true _).mp hfragmented]
      exact Codec.metadataSize_whole m.carries
    have hwhole : ∀ p : Packet, p.type = m.type → p.metadataSize = 9 → Codec.extension p = [] :=
      fun p htype => Codec.extension_nine
        (htype ▸ Codec.not_handshake_of_carriesFragments m.carries)
    rw [hwhole { m.fragment index with sequence := s } rfl hsize,
      hwhole (m.received index s) rfl hsize]
  unfold Codec.encode Codec.layout Codec.metadata
  rw [hextension]
  rfl

structure Delivery where
  message : Message
  index : ℕ
  index_lt : index < message.plan.count
  packet : Packet
  now : Time
  delivers : Delivers (message.fragment index) packet

abbrev Delivery.id (d : Delivery) : UInt64 := d.message.messageId

inductive HonestOp
  | deliver (d : Delivery)
  | cleanup (now : Time)

def HonestOp.op : HonestOp → ReassemblyOp
  | .deliver d => .accept d.packet d.now
  | .cleanup now => .cleanup now

def honestStep (cfg : ReassemblyConfig) (r : Reassembler) (o : HonestOp) :
    Reassembler × Option AcceptOutcome := reassemblyStep cfg r o.op

abbrev HonestHistory := List (HonestOp × Option AcceptOutcome)

abbrev HonestTrace (cfg : ReassemblyConfig) := Transition.Trace (honestStep cfg) ({} : Reassembler)

def deliveries (past : HonestHistory) : List Delivery :=
  past.filterMap fun call => match call.1 with
    | .deliver d => some d
    | .cleanup _ => none

def returns (past : HonestHistory) : List UInt64 :=
  past.filterMap fun call => match call with
    | (.deliver d, some outcome) => outcome.returned.map fun _ => d.id
    | _ => none

structure Honest (cfg : ReassemblyConfig) (ds : List Delivery) : Prop where
  distinct : ∀ d ∈ ds, ∀ d' ∈ ds, d.id = d'.id → d.message = d'.message
  once : (ds.map fun d => (d.id, d.index)).Nodup
  fits : ∀ d ∈ ds, d.message.payload.length ≤ cfg.maximumPacketSize

/-- Every fragment of `m` is among the deliveries. -/
def AllArrived (m : Message) (ds : List Delivery) : Prop :=
  ∀ i < m.plan.count, ∃ d ∈ ds, d.id = m.messageId ∧ d.index = i

def arrivals (id : UInt64) (ds : List Delivery) : List Delivery := ds.filter fun d => d.id = id

theorem mem_arrivals {id : UInt64} {ds : List Delivery} {d : Delivery} :
    d ∈ arrivals id ds ↔ d ∈ ds ∧ d.id = id := by
  simp [arrivals]

theorem arrivals_cons_self (d : Delivery) (ds : List Delivery) :
    arrivals d.id (d :: ds) = d :: arrivals d.id ds := by
  simp [arrivals]

theorem arrivals_cons_ne {d : Delivery} {id : UInt64} (h : d.id ≠ id) (ds : List Delivery) :
    arrivals id (d :: ds) = arrivals id ds := by
  simp [arrivals, h]

theorem Honest.tail {cfg : ReassemblyConfig} {d : Delivery} {ds : List Delivery}
    (h : Honest cfg (d :: ds)) : Honest cfg ds where
  distinct := fun a ha b hb => h.distinct a (mem_cons_of_mem d ha) b (mem_cons_of_mem d hb)
  once := (nodup_cons.mp h.once).2
  fits := fun a ha => h.fits a (mem_cons_of_mem d ha)

section Arrivals
variable {cfg : ReassemblyConfig} {ds : List Delivery}

theorem Honest.arrivals_message (h : Honest cfg ds) {d a : Delivery} (hd : d ∈ ds)
    (ha : a ∈ arrivals d.id ds) : a.message = d.message := by
  obtain ⟨hmem, hid⟩ := mem_arrivals.mp ha
  exact h.distinct a hmem d hd hid

theorem Honest.nodup_indices (h : Honest cfg ds) (id : UInt64) :
    ((arrivals id ds).map Delivery.index).Nodup := by
  have hkeys : ((arrivals id ds).map fun d => (d.id, d.index)).Nodup :=
    h.once.sublist (filter_sublist.map _)
  rw [nodup_map_iff_inj_on (List.Nodup.of_map _ hkeys)]
  intro a ha b hb hab
  refine inj_on_of_nodup_map hkeys ha hb ?_
  rw [(mem_arrivals.mp ha).2, (mem_arrivals.mp hb).2, hab]

theorem Honest.indices_subset (h : Honest cfg ds) {d : Delivery} (hd : d ∈ ds) :
    ((arrivals d.id ds).map Delivery.index).toFinset ⊆ Finset.range d.message.plan.count := by
  intro i hi
  obtain ⟨a, ha, rfl⟩ := mem_map.mp (mem_toFinset.mp hi)
  rw [Finset.mem_range, ← h.arrivals_message hd ha]
  exact a.index_lt

theorem Honest.card_indices (h : Honest cfg ds) (id : UInt64) :
    ((arrivals id ds).map Delivery.index).toFinset.card = (arrivals id ds).length := by
  rw [toFinset_card_of_nodup (h.nodup_indices id), length_map]

theorem Honest.arrivals_le (h : Honest cfg ds) {d : Delivery} (hd : d ∈ ds) :
    (arrivals d.id ds).length ≤ d.message.plan.count := by
  rw [← h.card_indices]
  exact (Finset.card_le_card (h.indices_subset hd)).trans_eq (Finset.card_range _)

theorem Honest.allArrived_iff (h : Honest cfg ds) {d : Delivery} (hd : d ∈ ds) :
    AllArrived d.message ds ↔ (arrivals d.id ds).length = d.message.plan.count := by
  rw [← h.card_indices, ← Finset.card_range d.message.plan.count]
  constructor
  · intro hall
    refine congrArg Finset.card ((h.indices_subset hd).antisymm fun i hi => ?_)
    obtain ⟨a, ha, hid, rfl⟩ := hall i (Finset.mem_range.mp hi)
    exact mem_toFinset.mpr (mem_map.mpr ⟨a, mem_arrivals.mpr ⟨ha, hid⟩, rfl⟩)
  · intro hcard i hi
    have heq := Finset.eq_of_subset_of_card_le (h.indices_subset hd) hcard.ge
    have hmem : i ∈ ((arrivals d.id ds).map Delivery.index).toFinset := by
      rw [heq]
      exact Finset.mem_range.mpr hi
    obtain ⟨a, ha, rfl⟩ := mem_map.mp (mem_toFinset.mp hmem)
    exact ⟨a, (mem_arrivals.mp ha).1, (mem_arrivals.mp ha).2, rfl⟩

theorem Honest.total_eq_iff (h : Honest cfg ds) {d : Delivery} (hd : d ∈ ds) :
    total ((arrivals d.id ds).map fun a => a.packet.piece) = d.message.payload.length ↔
      (arrivals d.id ds).length = d.message.plan.count := by
  have hsum : total ((arrivals d.id ds).map fun a => a.packet.piece) =
      ∑ i ∈ ((arrivals d.id ds).map Delivery.index).toFinset, d.message.plan.fragmentSize i := by
    rw [sum_toFinset _ (h.nodup_indices d.id), total, map_map, map_map]
    refine congrArg List.sum (map_congr_left fun a ha => ?_)
    have hmessage := h.arrivals_message hd ha
    have hlength := a.message.length_fragment a.index_lt
    rw [← a.delivers.payload, hmessage] at hlength
    exact hlength
  rw [hsum, ← d.message.total_fragments, ← h.card_indices]
  have hsubset := h.indices_subset hd
  constructor
  · intro htotal
    by_contra hne
    obtain ⟨i, hi, hmissing⟩ : ∃ i ∈ Finset.range d.message.plan.count,
        i ∉ ((arrivals d.id ds).map Delivery.index).toFinset := by
      by_contra hall
      push Not at hall
      rw [hsubset.antisymm hall, Finset.card_range] at hne
      exact hne rfl
    exact absurd htotal (Finset.sum_lt_sum_of_subset hsubset hi hmissing
      (d.message.fragmentSize_pos i) fun _ _ _ => Nat.zero_le _).ne
  · intro hcard
    rw [Finset.eq_of_subset_of_card_le hsubset (by rw [hcard, Finset.card_range])]

end Arrivals

/-! ### One delivery -/

namespace Delivery
variable (d : Delivery)

theorem toNat_originalLength : d.packet.originalLength.toNat = d.message.payload.length := by
  rw [d.delivers.length, d.message.toNat_originalLength]

theorem piece_eq : d.packet.piece = (d.message.fragment d.index).piece := by
  rw [Packet.piece, d.delivers.offset, d.delivers.payload]
  rfl

theorem range_eq : d.packet.range =
    ⟨d.message.plan.offset d.index, d.message.plan.offset (d.index + 1)⟩ := by
  rw [Packet.range, d.delivers.offset, d.delivers.payload,
    d.message.toNat_fragmentOffset d.index_lt.le, d.message.length_fragment d.index_lt,
    FragmentPlan.offset_succ]

theorem length_pos : 0 < d.message.payload.length := by
  rw [← d.message.splits.offset_count, ← d.message.plan.offset_zero]
  exact d.message.offset_strictMono d.message.splits.count_pos

theorem valid {n : ℕ} (h : d.message.payload.length ≤ n) : d.packet.invalidFor n = false := by
  have hlength := d.toNat_originalLength
  have hne : d.packet.originalLength ≠ 0 := by
    intro hzero
    rw [hzero] at hlength
    exact absurd hlength d.length_pos.ne
  have hpayload : d.packet.payload ≠ [] := by
    rw [d.delivers.payload, ← length_pos_iff, d.message.length_fragment d.index_lt]
    exact d.message.fragmentSize_pos d.index
  have hinside : d.packet.range.finish ≤ d.packet.originalLength.toNat := by
    rw [d.range_eq, hlength]
    exact d.message.offset_le d.index_lt
  simp only [Packet.invalidFor, Bool.or_eq_false_iff, beq_eq_false_iff_ne, decide_eq_false_iff_not,
    not_lt]
  exact ⟨⟨⟨⟨d.delivers.id_ne_zero, hne⟩, hlength.trans_le h⟩, hpayload⟩, hinside⟩

theorem range_whole_iff :
    d.packet.range = ⟨0, d.packet.originalLength.toNat⟩ ↔ d.message.plan.count = 1 := by
  have hmono := d.message.offset_strictMono
  rw [d.range_eq, d.toNat_originalLength, FragmentRange.mk.injEq, ← d.message.splits.offset_count,
    hmono.injective.eq_iff]
  have hlt := d.index_lt
  constructor
  · rintro ⟨hzero, hcount⟩
    rw [← d.message.plan.offset_zero, hmono.injective.eq_iff] at hzero
    omega
  · intro hcount
    have hindex : d.index = 0 := by omega
    rw [hindex, d.message.plan.offset_zero]
    exact ⟨rfl, by omega⟩

theorem payload_of_whole (h : d.message.plan.count = 1) : d.packet.payload = d.message.payload := by
  have hlt := d.index_lt
  have hindex : d.index = 0 := by omega
  have hsize : d.message.plan.fragmentSize 0 = d.message.payload.length := by
    rw [← d.message.splits.offset_count, h, FragmentPlan.offset_succ, FragmentPlan.offset_zero,
      Nat.zero_add]
  rw [d.delivers.payload, hindex, Message.fragment, fragmentAt, FragmentPlan.offset_zero,
    drop_zero, hsize, take_length]

theorem id_of_part (h : d.message.plan.count ≠ 1) : d.packet.messageId = d.id := by
  refine d.delivers.id ?_
  have hpart := mt d.range_whole_iff.mp h
  rw [Packet.range, d.delivers.offset, d.delivers.payload, d.delivers.length,
    FragmentRange.mk.injEq, not_and] at hpart
  have hcarries : (d.message.fragment d.index).type.carriesFragments = true := d.message.carries
  rw [Packet.fragmented, hcarries, Bool.true_and, Bool.or_eq_true, bne_iff_ne, bne_iff_ne]
  by_cases hoffset : (d.message.fragment d.index).fragmentOffset = 0
  · right
    intro hlength
    refine hpart (by rw [hoffset]; rfl) ?_
    rw [hoffset, hlength]
    exact Nat.zero_add _
  · exact .inl hoffset

theorem agrees : Piece.Agrees d.message.payload d.packet.piece := by
  rw [d.piece_eq]
  exact d.message.fragment_agrees d.index_lt

theorem not_overlaps {a : Delivery} (hmessage : a.message = d.message) (hindex : d.index ≠ a.index) :
    d.packet.range.overlaps a.packet.range = false := by
  have hlt := a.index_lt
  rw [d.range_eq, a.range_eq, hmessage]
  simp only [FragmentRange.overlaps, Bool.and_eq_false_iff, decide_eq_false_iff_not, not_lt]
  rcases lt_or_gt_of_ne hindex with h | h
  · exact .inr (d.message.plan.offset_mono h)
  · exact .inl (d.message.plan.offset_mono h)

end Delivery

/-- What a delivery does to a pool that has seen the deliveries `ds`. -/
structure DeliverySpec (ds : List Delivery) (d : Delivery) (r r' : Reassembler)
    (outcome : AcceptOutcome) : Prop where
  live : if (arrivals d.id (d :: ds)).length = d.message.plan.count then r'.live d.id = none
    else ∃ entry, r'.live d.id = some entry ∧
      Assembles d.id entry ((arrivals d.id (d :: ds)).map Delivery.packet)
  others : ∀ id, id ≠ d.id → r'.live id = r.live id
  discarded : r'.Undiscarded
  returned : outcome.returned =
    if (arrivals d.id (d :: ds)).length = d.message.plan.count then some d.message.payload else none

structure PoolInv (ds : List Delivery) (r : Reassembler) : Prop where
  discarded : r.Undiscarded
  live : ∀ id entry, r.live id = some entry →
    Assembles id entry ((arrivals id ds).map Delivery.packet) ∧ arrivals id ds ≠ [] ∧
      ∀ a ∈ arrivals id ds, (arrivals id ds).length < a.message.plan.count
  absent : ∀ a ∈ ds, r.live a.id = none → (arrivals a.id ds).length = a.message.plan.count

section Deliver
variable {cfg : ReassemblyConfig} {ds : List Delivery} {d : Delivery} {r : Reassembler}

theorem Honest.missing (h : Honest cfg (d :: ds)) :
    (arrivals d.id ds).length < d.message.plan.count := by
  have hle := h.arrivals_le mem_cons_self
  rwa [arrivals_cons_self, length_cons] at hle

theorem Honest.index_ne (h : Honest cfg (d :: ds)) {a : Delivery} (ha : a ∈ arrivals d.id ds) :
    d.index ≠ a.index := by
  have hnodup := h.nodup_indices d.id
  rw [arrivals_cons_self, map_cons, nodup_cons] at hnodup
  exact fun heq => hnodup.1 (mem_map.mpr ⟨a, ha, heq.symm⟩)

theorem store_spec (h : Honest cfg (d :: ds)) (hpart : d.message.plan.count ≠ 1)
    {r₀ : Reassembler} {entry : ReassemblyEntry}
    (hentry : Assembles d.id entry ((arrivals d.id ds).map Delivery.packet))
    (hlength : entry.originalLength = d.message.payload.length) (hdiscarded : r₀.Undiscarded)
    (hothers : ∀ id, id ≠ d.id → r₀.live id = r.live id) (opened : Bool) :
    DeliverySpec ds d r (r₀.store cfg entry d.packet d.now opened).1
      (r₀.store cfg entry d.packet d.now opened).2 := by
  have hid := d.id_of_part hpart
  have hmessage : ∀ a ∈ arrivals d.id ds, a.message = d.message := fun a ha =>
    h.arrivals_message mem_cons_self (mem_arrivals.mpr
      ⟨mem_cons_of_mem d (mem_arrivals.mp ha).1, (mem_arrivals.mp ha).2⟩)
  have hlength' : entry.originalLength = d.packet.originalLength.toNat :=
    hlength.trans d.toNat_originalLength.symm
  have hlimit : entry.ranges.length < d.packet.type.fragmentLimit := by
    rw [hentry.ranges, length_reverse, length_map, length_map, d.delivers.type]
    exact h.missing.trans_le d.message.splits.count_le
  have hapart : ∀ range ∈ entry.ranges, d.packet.range.overlaps range = false := by
    intro range hrange
    rw [hentry.ranges, mem_reverse, map_map] at hrange
    obtain ⟨a, ha, rfl⟩ := mem_map.mp hrange
    exact d.not_overlaps (hmessage a ha) (h.index_ne ha)
  have hadd : Assembles d.id (entry.add d.packet d.now)
      ((arrivals d.id (d :: ds)).map Delivery.packet) := by
    rw [arrivals_cons_self]
    refine hentry.add hid hlength' ?_ hapart d.now
    exact (invalidFor_eq_false (d.valid le_rfl)).2.2.2.2
  -- the bytes are all there when the fragments are
  have hlength₁ : (entry.add d.packet d.now).originalLength = d.message.payload.length := hlength
  have hreceived : (entry.add d.packet d.now).receivedBytes =
      (entry.add d.packet d.now).originalLength ↔
        (arrivals d.id (d :: ds)).length = d.message.plan.count := by
    rw [hadd.received, hlength₁, map_map, ← h.total_eq_iff mem_cons_self]
    rfl
  unfold Reassembler.store
  rw [if_neg (not_or.mpr ⟨not_not.mpr hlength', not_le.mpr hlimit⟩),
    if_neg (by simpa using hapart)]
  dsimp only
  by_cases hcomplete : (arrivals d.id (d :: ds)).length = d.message.plan.count
  · have htotal := hreceived.mpr hcomplete
    rw [if_neg (not_not.mpr htotal)]
    have hbuffer : (entry.add d.packet d.now).buffer = d.message.payload := by
      refine hadd.assembled.eq_of_total (hadd.received.symm.trans htotal) hlength₁.symm ?_
      intro p hp
      rw [map_map] at hp
      obtain ⟨a, ha, rfl⟩ := mem_map.mp hp
      rw [← h.arrivals_message mem_cons_self ha]
      exact a.agrees
    rw [hid]
    refine ⟨?_, fun id hne => ?_, ?_, ?_⟩
    · rw [if_pos hcomplete]
      exact Reassembler.live_erase_self _ _
    · exact ((Reassembler.live_erase_ne _ hne).trans (Reassembler.live_update_ne _ _ hne)).trans
        (hothers id hne)
    · exact (Reassembler.undiscarded_erase _ _).mpr hdiscarded
    · rw [if_pos hcomplete, hbuffer]
      rfl
  rw [if_pos (mt hreceived.mp hcomplete), hid]
  refine ⟨?_, fun id hne => ?_, hdiscarded, ?_⟩
  · rw [if_neg hcomplete]
    exact ⟨_, Reassembler.live_update_self _ _ _, hadd⟩
  · exact (Reassembler.live_update_ne _ _ hne).trans (hothers id hne)
  · rw [if_neg hcomplete]
    rfl

theorem deliver_spec (hinv : PoolInv ds r) (h : Honest cfg (d :: ds))
    (hlossless : (r.accept cfg d.packet d.now).1.losses ≤ r.losses) :
    DeliverySpec ds d r (r.accept cfg d.packet d.now).1 (r.accept cfg d.packet d.now).2 := by
  have hvalid := d.valid (h.fits d mem_cons_self)
  have hmissing := h.missing
  have hlive : ∀ entry, r.live d.id = some entry → arrivals d.id ds ≠ [] := fun entry hentry =>
    (hinv.live d.id entry hentry).2.1
  by_cases hcount : d.message.plan.count = 1
  · -- a packet sent whole never enters the pool
    have harrivals : arrivals d.id ds = [] := length_eq_zero_iff.mp (by omega)
    have hnone : r.live d.id = none :=
      Option.eq_none_iff_forall_ne_some.mpr fun entry hentry => hlive entry hentry harrivals
    have hone : (arrivals d.id (d :: ds)).length = d.message.plan.count := by
      rw [arrivals_cons_self, harrivals, hcount]
      rfl
    have haccept : r.accept cfg d.packet d.now = (r, .whole d.message.payload) := by
      unfold Reassembler.accept
      rw [if_neg (Bool.not_eq_true _ ▸ hvalid), if_pos (d.range_whole_iff.mpr hcount),
        d.payload_of_whole hcount]
    rw [haccept]
    refine ⟨?_, fun _ _ => rfl, hinv.discarded, ?_⟩
    · rw [if_pos hone]
      exact hnone
    · rw [if_pos hone]
      rfl
  rw [Reassembler.accept_of_lossless hinv.discarded hvalid (mt d.range_whole_iff.mp hcount)
    hlossless]
  split
  next entry hentry =>
    rw [d.id_of_part hcount] at hentry
    obtain ⟨hassembles, hne, -⟩ := hinv.live d.id entry hentry
    obtain ⟨a, ha⟩ := exists_mem_of_ne_nil _ hne
    refine store_spec h hcount hassembles ?_ hinv.discarded (fun _ _ => rfl) false
    rw [← (hassembles.same a.packet (mem_map_of_mem ha)).2, a.toNat_originalLength,
      h.distinct a (mem_cons_of_mem d (mem_arrivals.mp ha).1) d mem_cons_self
        (mem_arrivals.mp ha).2]
  next hnone =>
  rw [d.id_of_part hcount] at hnone ⊢
  have harrivals : arrivals d.id ds = [] := by
    by_contra hne
    obtain ⟨a, ha⟩ := exists_mem_of_ne_nil _ hne
    obtain ⟨hmem, hid⟩ := mem_arrivals.mp ha
    have hall := hinv.absent a hmem (hid ▸ hnone)
    rw [hid, h.distinct a (mem_cons_of_mem d hmem) d mem_cons_self hid] at hall
    omega
  have hlength : (ReassemblyEntry.fresh d.packet d.now).originalLength =
      d.message.payload.length := d.toNat_originalLength
  have hopened : (r.openEntry d.id (.fresh d.packet d.now)).Undiscarded := hinv.discarded
  refine store_spec h hcount ?_ hlength hopened (fun id hne => ?_) true
  · rw [harrivals]
    exact assembles_fresh _ _ _
  · exact Reassembler.live_openEntry_ne _ _ hne

theorem PoolInv.deliver {r' : Reassembler} {outcome : AcceptOutcome} (hinv : PoolInv ds r)
    (h : Honest cfg (d :: ds)) (hspec : DeliverySpec ds d r r' outcome) : PoolInv (d :: ds) r' where
  discarded := hspec.discarded
  live := by
    intro id entry hlive
    by_cases hid : id = d.id
    · subst hid
      have hcase := hspec.live
      split at hcase
      · rw [hcase] at hlive
        cases hlive
      next hpart =>
      obtain ⟨entry', hlive', hassembles⟩ := hcase
      rw [hlive, Option.some_inj] at hlive'
      refine ⟨hlive' ▸ hassembles, ?_, fun a ha => ?_⟩
      · rw [arrivals_cons_self]
        exact cons_ne_nil _ _
      · rw [h.arrivals_message mem_cons_self ha]
        exact lt_of_le_of_ne (h.arrivals_le mem_cons_self) hpart
    · rw [hspec.others id hid] at hlive
      rw [arrivals_cons_ne (Ne.symm hid)]
      exact hinv.live id entry hlive
  absent := by
    intro a ha hnone
    by_cases hid : a.id = d.id
    · have hmessage := h.distinct a ha d mem_cons_self hid
      rw [hid] at hnone ⊢
      rw [hmessage]
      have hcase := hspec.live
      split at hcase
      · assumption
      obtain ⟨entry, hlive, -⟩ := hcase
      rw [hnone] at hlive
      cases hlive
    rw [hspec.others _ hid] at hnone
    rw [arrivals_cons_ne (Ne.symm hid)]
    refine hinv.absent a (mem_of_ne_of_mem ?_ ha) hnone
    rintro rfl
    exact hid rfl

end Deliver

/-! ### Whole runs -/

section Runs
variable {cfg : ReassemblyConfig} {past : HonestHistory} {r : Reassembler}

structure HonestInv (past : HonestHistory) (r : Reassembler) : Prop where
  pool : PoolInv (deliveries past) r
  returned : ∀ id ∈ returns past, ∃ a ∈ deliveries past, a.id = id ∧
    (arrivals id (deliveries past)).length = a.message.plan.count
  nodup : (returns past).Nodup

theorem honestInv_start : HonestInv [] {} where
  pool :=
    { discarded := ⟨rfl, rfl⟩
      live := fun _ _ hlive => absurd (show none = some _ from hlive) (by simp)
      absent := fun _ ha => (not_mem_nil ha).elim }
  returned := fun _ hid => (not_mem_nil hid).elim
  nodup := .nil

theorem HonestInv.cleanup (hinv : HonestInv past r) {now : Time}
    (hlossless : (r.cleanupExpired cfg now).losses ≤ r.losses) :
    HonestInv ((.cleanup now, none) :: past) (r.cleanupExpired cfg now) := by
  rcases Reassembler.cleanupExpired_losses cfg hinv.pool.discarded now with hclean | hlost
  · rw [hclean]
    exact ⟨hinv.pool, hinv.returned, hinv.nodup⟩
  · exact absurd hlost (not_lt.mpr hlossless)

theorem HonestInv.deliver (hinv : HonestInv past r) {d : Delivery}
    (h : Honest cfg (d :: deliveries past)) {r' : Reassembler} {outcome : AcceptOutcome}
    (hspec : DeliverySpec (deliveries past) d r r' outcome) :
    HonestInv ((.deliver d, some outcome) :: past) r' := by
  have hreturns : returns ((.deliver d, some outcome) :: past) =
      (outcome.returned.map fun _ => d.id).toList ++ returns past := by
    rw [returns, filterMap_cons]
    dsimp only
    cases outcome.returned <;> rfl
  have hfresh : d.id ∉ returns past := by
    intro hmem
    obtain ⟨a, ha, hid, hall⟩ := hinv.returned d.id hmem
    rw [h.distinct a (mem_cons_of_mem d ha) d mem_cons_self hid] at hall
    exact absurd hall h.missing.ne
  refine ⟨hinv.pool.deliver h hspec, ?_, ?_⟩
  · intro id hid
    rw [hreturns, mem_append] at hid
    rcases hid with hid | hid
    · rw [hspec.returned] at hid
      split at hid
      next hall =>
        cases mem_singleton.mp hid
        exact ⟨d, mem_cons_self, rfl, hall⟩
      · cases hid
    obtain ⟨a, ha, haid, hall⟩ := hinv.returned id hid
    have hne : d.id ≠ id := fun heq => hfresh (heq ▸ hid)
    refine ⟨a, mem_cons_of_mem d ha, haid, ?_⟩
    exact (congrArg List.length (arrivals_cons_ne hne _)).trans hall
  · rw [hreturns]
    cases outcome.returned with
    | none => exact hinv.nodup
    | some packet => exact nodup_cons.mpr ⟨hfresh, hinv.nodup⟩

theorem losses_honestStep (cfg : ReassemblyConfig) (r : Reassembler) (o : HonestOp) :
    r.losses ≤ (honestStep cfg r o).1.losses := by
  cases o with
  | deliver d => exact Reassembler.losses_accept cfg r d.packet d.now
  | cleanup now => exact Reassembler.losses_cleanupExpired cfg r now

theorem honestInv_step (hinv : HonestInv past r) (o : HonestOp)
    (hhonest : Honest cfg (deliveries ((o, (honestStep cfg r o).2) :: past)))
    (hlossless : (honestStep cfg r o).1.losses ≤ r.losses) :
    HonestInv ((o, (honestStep cfg r o).2) :: past) (honestStep cfg r o).1 := by
  cases o with
  | cleanup now => exact hinv.cleanup hlossless
  | deliver d => exact hinv.deliver hhonest (deliver_spec hinv.pool hhonest hlossless)

theorem honestInv_trace (h : HonestTrace cfg past r) (hhonest : Honest cfg (deliveries past))
    (hlossless : r.losses = 0) : HonestInv past r := by
  refine Transition.Trace.invariant
    (fun past (r : Reassembler) => Honest cfg (deliveries past) → r.losses = 0 → HonestInv past r)
    (fun _ _ => honestInv_start) ?_ h hhonest hlossless
  intro past r o _ ih hhonest hlossless
  have hzero : r.losses = 0 := Nat.le_zero.mp ((losses_honestStep cfg r o).trans_eq hlossless)
  have htail : Honest cfg (deliveries past) := by
    cases o with
    | deliver d => exact hhonest.tail
    | cleanup now => exact hhonest
  exact honestInv_step (ih htail hzero) o hhonest (hlossless.trans hzero.symm).le

/-- Fragments of honest packets in any order: a packet comes back exactly with its last
missing fragment, unchanged and once. Any fragments whatsoever: a packet put together
is covered exactly once by accepted fragments of its message. -/
theorem fragmentation_lossless (cfg : ReassemblyConfig) :
    (∀ past r, HonestTrace cfg past r → ∀ d : Delivery, Honest cfg (d :: deliveries past) →
      (r.accept cfg d.packet d.now).1.losses = 0 →
        (∀ packet, (r.accept cfg d.packet d.now).2.returned = some packet ↔
          AllArrived d.message (d :: deliveries past) ∧ packet = d.message.payload) ∧
        (returns ((.deliver d, some (r.accept cfg d.packet d.now).2) :: past)).Nodup) ∧
    ∀ past r, ReassemblyTrace cfg past r → ∀ fragment now opened packet,
      (r.accept cfg fragment now).2 = .complete opened packet →
        let fs := assembly fragment.messageId
          ((.accept fragment now, some (.complete opened packet)) :: past)
        fs.Sublist (accepted ((.accept fragment now, some (.complete opened packet)) :: past)) ∧
          ExactCover fragment.messageId packet fs := by
  constructor
  · intro past r htrace d hhonest hlossless
    have hzero : r.losses = 0 :=
      Nat.le_zero.mp ((Reassembler.losses_accept cfg r d.packet d.now).trans_eq hlossless)
    have hinv := honestInv_trace htrace hhonest.tail hzero
    have hspec := deliver_spec hinv.pool hhonest (hlossless.trans hzero.symm).le
    refine ⟨fun packet => ?_, (hinv.deliver hhonest hspec).nodup⟩
    rw [hspec.returned, hhonest.allArrived_iff List.mem_cons_self, Option.ite_none_right_eq_some,
      Option.some_inj, eq_comm (a := packet)]
  · intro past r htrace fragment now opened packet hcomplete
    exact ⟨assembly_sublist _ _, complete_exactCover htrace hcomplete⟩

end Runs

def sampleMessage : Message where
  type := .data
  tunnelId := 7
  messageId := 9
  payload := [1, 2, 3, 4, 5]
  sizeLimit := 2
  plan := ⟨3, 1, 2⟩
  carries := rfl
  id_ne_zero := by decide
  length_le := by decide
  planned := rfl

def sampleDelivery (index : ℕ) (h : index < 3) : Delivery where
  message := sampleMessage
  index := index
  index_lt := h
  packet := sampleMessage.received index 20
  now := index
  delivers := sampleMessage.delivers_received index (by decide)

def sampleArrivals : HonestHistory × Reassembler :=
  Transition.run (honestStep { maximumPacketSize := 1500 }) {}
    [.deliver (sampleDelivery 2 (by decide)), .deliver (sampleDelivery 0 (by decide))]

theorem fragmentation_lossless_sample :
    (sampleArrivals.2.accept { maximumPacketSize := 1500 } (sampleMessage.received 1 20)
      1).2.returned = some [1, 2, 3, 4, 5] := by
  have hdeliveries : sampleDelivery 1 (by decide) :: deliveries sampleArrivals.1 =
      [sampleDelivery 1 (by decide), sampleDelivery 0 (by decide),
        sampleDelivery 2 (by decide)] := rfl
  have hmessage : ∀ d ∈ sampleDelivery 1 (by decide) :: deliveries sampleArrivals.1,
      d.message = sampleMessage := by
    rw [hdeliveries]
    simp [sampleDelivery]
  have hhonest : Honest { maximumPacketSize := 1500 }
      (sampleDelivery 1 (by decide) :: deliveries sampleArrivals.1) :=
    { distinct := fun d hd d' hd' _ => (hmessage d hd).trans (hmessage d' hd').symm
      once := by
        rw [hdeliveries]
        decide
      fits := by
        intro d hd
        rw [hmessage d hd]
        decide }
  have hall : AllArrived sampleMessage
      (sampleDelivery 1 (by decide) :: deliveries sampleArrivals.1) := by
    intro i hi
    rw [hdeliveries]
    have hi' : i < 3 := hi
    interval_cases i
    · exact ⟨sampleDelivery 0 (by decide), by simp, rfl, rfl⟩
    · exact ⟨sampleDelivery 1 (by decide), by simp, rfl, rfl⟩
    · exact ⟨sampleDelivery 2 (by decide), by simp, rfl, rfl⟩
  exact (((fragmentation_lossless { maximumPacketSize := 1500 }).1 _ _ (Transition.trace_run _)
    (sampleDelivery 1 (by decide)) hhonest (by decide +kernel)).1 _).mpr ⟨hall, rfl⟩

/-- Every fragment of a message crosses the wire: under any sequence number but zero its encoding
succeeds, with and without encryption, and the peer decodes what its reassembly expects. -/
theorem fragment_crosses_wire (P : Primitives) {c : Codec} (m : Message) {index : ℕ} {s : UInt64}
    (h : index < m.plan.count) (hs : s ≠ 0) (hc : m.tunnelId = c.tunnelId) :
    ∃ wire, c.encode P { m.fragment index with sequence := s } = .ok wire ∧
      c.peer.decode P wire = some (m.received index s) ∧
      Delivers (m.fragment index) (m.received index s) := by
  have hw := m.received_wellFormed h hs hc
  exact ⟨_, (m.encode_received index s P c).trans (Codec.encode_of_wellFormed P hw),
    Codec.decode_layout P hw.peer, m.delivers_received index hs⟩

def sampleCodec : Codec :=
  { tunnelId := 7, txKey := .replicate 16 0, rxKey := .replicate 16 0, encrypt := true }

theorem fragment_crosses_wire_sample : ∃ wire,
    sampleCodec.encode samplePrimitives { sampleMessage.fragment 1 with sequence := 20 } = .ok wire ∧
      sampleCodec.peer.decode samplePrimitives wire = some (sampleMessage.received 1 20) ∧
      Delivers (sampleMessage.fragment 1) (sampleMessage.received 1 20) :=
  fragment_crosses_wire samplePrimitives sampleMessage (by decide) (by decide) rfl

end Tuntom
