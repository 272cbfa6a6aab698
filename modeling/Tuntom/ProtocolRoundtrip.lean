import Tuntom.ProtocolCodec

/-! The V5 codec is a bijection: `decode` accepts exactly the layouts of
well-formed packets, each of them under one byte string. -/
namespace Tuntom.Codec
open List

/-! ### The first byte -/

theorem flags_type (t : PacketType) (e f : Bool) : flags t e f &&& 0x1f = t.toByte := by
  cases t <;> cases e <;> cases f <;> rfl

theorem flags_encrypt (t : PacketType) (e f : Bool) : (flags t e f &&& 0x80 != 0) = e := by
  cases t <;> cases e <;> cases f <;> rfl

theorem flags_reserved (t : PacketType) (e f : Bool) : flags t e f &&& 0x20 = 0 := by
  cases t <;> cases e <;> cases f <;> rfl

theorem flags_fragment (t : PacketType) (e f : Bool) : (flags t e f &&& 0x40 != 0) = f := by
  cases t <;> cases e <;> cases f <;> rfl

variable {t : PacketType} {p : Packet} {data : Bytes} {c : Codec} {P : Primitives}

theorem flags_of_byte {b : UInt8} (ht : PacketType.ofByte (b &&& 0x1f) = some t)
    (hr : b &&& 0x20 = 0) : flags t (b &&& 0x80 != 0) (b &&& 0x40 != 0) = b := by
  have hbits : ∀ b : UInt8, b &&& 0x20 = 0 →
      (b &&& 0x1f) ||| (if b &&& 0x80 != 0 then 0x80 else 0) |||
        (if b &&& 0x40 != 0 then 0x40 else 0) = b := by decide +kernel
  rw [flags, PacketType.toByte_of_ofByte ht]
  exact hbits b hr

/-! ### Metadata sizes -/

theorem handshake_iff : t.handshake = true ↔ t = .init ∨ t = .response := by
  simp [PacketType.handshake]

theorem carriesFragments_iff : t.carriesFragments = true ↔ t = .data ∨ t = .ipc := by
  simp [PacketType.carriesFragments]

theorem metadataSize_handshake (h : t.handshake) (f : Bool) : t.metadataSize f = 18 := by
  rcases handshake_iff.mp h with rfl | rfl
  · rfl
  · rfl

theorem metadataSize_fragment (h : t.carriesFragments) :
    t.metadataSize true = if t = .ipc then 25 else 21 := by
  rcases carriesFragments_iff.mp h with rfl | rfl
  · rfl
  · rfl

theorem metadataSize_whole (h : t.carriesFragments) : t.metadataSize false = 9 := by
  rcases carriesFragments_iff.mp h with rfl | rfl
  · rfl
  · rfl

theorem metadataSize_other (hh : ¬ t.handshake) (hc : ¬ t.carriesFragments) (f : Bool) :
    t.metadataSize f = 9 ∨ t.metadataSize f = 17 ∨ t.metadataSize f = 19 := by
  cases t with
  | init | response => exact absurd rfl hh
  | data | ipc => exact absurd rfl hc
  | ping | pong | confirm | confirmAck => exact .inr (.inl rfl)
  | mtuProbe | mtuReply => exact .inr (.inr rfl)
  | _ => exact .inl rfl

theorem not_handshake_of_carriesFragments (h : t.carriesFragments) : ¬ t.handshake := by
  rcases carriesFragments_iff.mp h with rfl | rfl
  · exact Bool.false_ne_true
  · exact Bool.false_ne_true

theorem nine_le_metadataSize (t : PacketType) (f : Bool) : 9 ≤ t.metadataSize f := by
  by_cases hh : t.handshake
  · rw [metadataSize_handshake hh]
    omega
  by_cases hc : t.carriesFragments
  · cases f with
    | true =>
      rw [metadataSize_fragment hc]
      split
      · omega
      · omega
    | false => rw [metadataSize_whole hc]
  · have hsize := metadataSize_other hh hc f
    omega

theorem fragmented_eq_false (h : ¬ p.type.carriesFragments) : p.fragmented = false := by
  simp [Packet.fragmented, h]

theorem carriesFragments_of_fragmented (h : p.fragmented) : p.type.carriesFragments := by
  simp only [Packet.fragmented, Bool.and_eq_true] at h
  exact h.1

theorem metadataSize_of_fragmented (h : p.fragmented) :
    p.metadataSize = if p.type = .ipc then 25 else 21 := by
  rw [Packet.metadataSize, h, metadataSize_fragment (carriesFragments_of_fragmented h)]

/-! ### The metadata extension, by layout -/

section Extension
variable {p : Packet}

theorem extension_handshake (hh : p.type.handshake) :
    extension p = protocolVersionV5 :: storeBe64 p.messageId := by
  rw [extension, if_pos hh]

theorem extension_fragment (hf : p.fragmented) :
    extension p = storeBe64 p.messageId ++
      (if p.type = .ipc then storeBe32 p.fragmentOffset ++ storeBe32 p.originalLength
        else storeBe16 p.fragmentOffset.toUInt16 ++ storeBe16 p.originalLength.toUInt16) := by
  have hh := not_handshake_of_carriesFragments (carriesFragments_of_fragmented hf)
  have hs : p.metadataSize > 9 := by
    rw [metadataSize_of_fragmented hf]
    split <;> decide
  rw [extension, if_neg hh, if_pos hs, if_pos hf]

theorem extension_nine (hh : ¬ p.type.handshake) (hs : p.metadataSize = 9) : extension p = [] := by
  rw [extension, if_neg hh, if_neg (by omega)]

theorem extension_seventeen (hh : ¬ p.type.handshake) (hf : ¬ p.fragmented)
    (hs : p.metadataSize = 17) : extension p = storeBe64 p.messageId := by
  rw [extension, if_neg hh, if_pos (by omega), if_neg hf, if_neg (by omega), append_nil]

theorem extension_nineteen (hh : ¬ p.type.handshake) (hf : ¬ p.fragmented)
    (hs : p.metadataSize = 19) :
    extension p = storeBe64 p.messageId ++ storeBe16 p.originalLength.toUInt16 := by
  rw [extension, if_neg hh, if_pos (by omega), if_neg hf, if_pos hs]

theorem layout_cases (p : Packet) :
    p.type.handshake ∨ p.fragmented ∨
      ¬ p.type.handshake ∧ ¬ p.fragmented ∧
        (p.metadataSize = 9 ∨ p.metadataSize = 17 ∨ p.metadataSize = 19) := by
  by_cases hh : p.type.handshake
  · exact .inl hh
  by_cases hf : p.fragmented
  · exact .inr (.inl hf)
  refine .inr (.inr ⟨hh, hf, ?_⟩)
  rw [Bool.not_eq_true] at hf
  by_cases hc : p.type.carriesFragments
  · exact .inl (by rw [Packet.metadataSize, hf, metadataSize_whole hc])
  · exact metadataSize_other hh hc _

end Extension

theorem length_metadata (c : Codec) (p : Packet) : (c.metadata p).length = p.metadataSize := by
  simp only [metadata, length_cons, length_append, length_storeBe64]
  rcases layout_cases p with hh | hf | ⟨hh, hf, hs | hs | hs⟩
  · rw [extension_handshake hh, Packet.metadataSize, metadataSize_handshake hh]
    simp
  · rw [extension_fragment hf, metadataSize_of_fragmented hf]
    split <;> simp
  · simp [extension_nine hh hs, hs]
  · simp [extension_seventeen hh hf hs, hs]
  · simp [extension_nineteen hh hf hs, hs]

/-! ### Well-formed packets -/

/-- What a packet has to satisfy to survive the wire: the limits, the per-type
rules, and default values where the layout of the type carries no field. -/
structure WellFormed (c : Codec) (p : Packet) : Prop where
  tunnelId : p.tunnelId = c.tunnelId
  version : p.protocolVersion = protocolVersionV5
  offset_le : p.fragmentOffset.toNat ≤ p.type.limit
  length_le : p.originalLength.toNat ≤ p.type.limit
  payload_le : p.payload.length ≤ p.type.limit
  clear : p.type.handshake → c.encrypt = false
  acceptable : p.acceptable
  whole : p.type.carriesFragments → ¬ p.fragmented → p.messageId = p.sequence
  plain : ¬ p.type.carriesFragments → p.metadataSize = 9 →
    p.messageId = 0 ∧ p.fragmentOffset = 0 ∧ p.originalLength = 0

/-! ### Authentication -/

theorem openPayload_eq_some_iff (P : Primitives) (c : Codec) {size : ℕ}
    (h : size + 16 ≤ data.length) (payload : Bytes) :
    c.openPayload P data size = some payload ↔
      data.drop size =
        (c.peer.sealPayload P (data.take size) (field data 1 8) payload).2.toList ++
          (c.peer.sealPayload P (data.take size) (field data 1 8) payload).1 := by
  have hlen : (field data size 16).length = 16 := length_field h
  have hsplit : data.drop size = field data size 16 ++ data.drop (size + 16) := by
    rw [field, ← drop_drop, take_append_drop]
  -- the tag occupies the first 16 bytes after the metadata, the body the rest
  have hparts : ∀ (tag : Tag) (body : Bytes),
      data.drop size = tag.toList ++ body ↔
        block 16 (field data size 16) = tag ∧ data.drop (size + 16) = body := by
    intro tag body
    rw [hsplit]
    constructor
    · intro he
      obtain ⟨ht, hb⟩ := append_inj he (by simp [hlen])
      exact ⟨by rw [ht, block_toList], hb⟩
    · rintro ⟨rfl, rfl⟩
      rw [toList_block hlen]
  rw [hparts]
  by_cases he : c.encrypt
  · simp only [openPayload, sealPayload, peer, he, if_true, P.decrypt_iff]
    exact ⟨fun h => by simp [h], fun h => Prod.ext h.2.symm h.1.symm⟩
  simp only [openPayload, sealPayload, peer, he, Bool.false_eq_true, if_false,
    Option.ite_none_right_eq_some, Option.some.injEq]
  constructor
  · rintro ⟨ht, hb⟩
    exact ⟨hb ▸ ht, hb⟩
  · rintro ⟨ht, hb⟩
    exact ⟨hb ▸ ht, hb⟩

/-! ### Reading the metadata back -/

theorem acceptable_data_lengths (hc : p.type.carriesFragments) (h : p.acceptable) :
    p.fragmentOffset.toNat + p.payload.length ≤ p.originalLength.toNat := by
  cases ht : p.type <;> simp_all [PacketType.carriesFragments, Packet.acceptable]

theorem acceptable_offset_zero (hc : ¬ p.type.carriesFragments) (hs : p.metadataSize ≠ 9)
    (h : p.acceptable) : p.fragmentOffset = 0 := by
  cases ht : p.type <;>
    simp_all [PacketType.carriesFragments, Packet.acceptable, Packet.handshakeRules,
      Packet.metadataSize, PacketType.metadataSize]

theorem acceptable_length_zero (hc : ¬ p.type.carriesFragments)
    (hs : p.metadataSize = 17 ∨ p.metadataSize = 18) (h : p.acceptable) : p.originalLength = 0 := by
  cases ht : p.type <;>
    simp_all [PacketType.carriesFragments, Packet.acceptable, Packet.handshakeRules,
      Packet.metadataSize, PacketType.metadataSize]

theorem toUInt32_toUInt16 {v : UInt32} (h : v.toNat ≤ maxIpPacketSize) :
    v.toUInt16.toUInt32 = v := by
  apply UInt32.toNat_inj.mp
  rw [UInt16.toNat_toUInt32, UInt32.toNat_toUInt16]
  exact Nat.mod_eq_of_lt (by rw [maxIpPacketSize] at h; omega)

theorem limit_of_ne_ipc (h : t ≠ .ipc) : t.limit = maxIpPacketSize := by
  rw [PacketType.limit, if_neg h]

theorem not_carriesFragments_of_handshake (h : t.handshake) :
    ¬ t.carriesFragments := fun hc => not_handshake_of_carriesFragments hc h

theorem readFields_metadata (hw : c.WellFormed p) (tail : Bytes) :
    c.readFields p.type p.fragmented (c.metadata p ++ tail) p.payload = some p := by
  have happ : c.metadata p ++ tail =
      (flags p.type c.encrypt p.fragmented :: storeBe64 p.sequence) ++ (extension p ++ tail) := by
    simp [metadata]
  have hfront : (flags p.type c.encrypt p.fragmented :: storeBe64 p.sequence).length = 9 := by simp
  have hseq : loadBe64 (c.metadata p ++ tail) 1 = p.sequence :=
    @loadBe64_store [flags p.type c.encrypt p.fragmented] (extension p ++ tail) 1 p.sequence rfl ▸
      congrArg (fun d => loadBe64 d 1) happ
  generalize c.metadata p ++ tail = data at happ hseq
  generalize hfd : flags p.type c.encrypt p.fragmented :: storeBe64 p.sequence = front at happ hfront
  have hacc := hw.acceptable
  simp only [readFields, hseq]
  rcases layout_cases p with hh | hf | ⟨hh, hf, hs | hs | hs⟩
  · have hc := not_carriesFragments_of_handshake hh
    have hs : p.metadataSize = 18 := metadataSize_handshake hh _
    have hmid : loadBe64 data 10 = p.messageId := by
      rw [happ, extension_handshake hh]
      have := @loadBe64_store (front ++ [protocolVersionV5]) tail 10 p.messageId (by simp [hfront])
      simpa using this
    rw [if_pos hh, hmid]
    exact congrArg some (Packet.ext rfl hw.tunnelId.symm hw.version.symm rfl rfl
      (acceptable_offset_zero hc (by omega) hacc).symm
      (acceptable_length_zero hc (.inr hs) hacc).symm rfl)
  · have hc := carriesFragments_of_fragmented hf
    have hh := not_handshake_of_carriesFragments hc
    have hs : p.type.metadataSize p.fragmented > 9 := by
      have := metadataSize_of_fragmented hf
      simp only [Packet.metadataSize] at this
      rw [this]
      split <;> decide
    have hne : ¬ (p.fragmentOffset = 0 ∧ p.originalLength.toNat = p.payload.length) := by
      simp only [Packet.fragmented, hc, Bool.true_and, Bool.or_eq_true, bne_iff_ne] at hf
      tauto
    have hlim : ¬ p.originalLength.toNat > p.type.limit := by
      have := hw.length_le
      omega
    have hmid : loadBe64 data 9 = p.messageId := by
      rw [happ, extension_fragment hf, append_assoc]
      exact loadBe64_store _ hfront
    have hoff : (if p.type = .ipc then loadBe32 data 17 else (loadBe16 data 17).toUInt32) =
        p.fragmentOffset := by
      rw [happ, extension_fragment hf]
      split
      · have := @loadBe32_store (front ++ storeBe64 p.messageId) (storeBe32 p.originalLength ++ tail)
          17 p.fragmentOffset (by simp [hfront])
        simpa using this
      next hi =>
      have := @loadBe16_store (front ++ storeBe64 p.messageId)
        (storeBe16 p.originalLength.toUInt16 ++ tail) 17 p.fragmentOffset.toUInt16 (by simp [hfront])
      rw [append_assoc] at this
      rw [append_assoc, append_assoc, this]
      exact toUInt32_toUInt16 (limit_of_ne_ipc hi ▸ hw.offset_le)
    have hlen : (if p.type = .ipc then loadBe32 data 21 else (loadBe16 data 19).toUInt32) =
        p.originalLength := by
      rw [happ, extension_fragment hf]
      split
      · have := @loadBe32_store (front ++ (storeBe64 p.messageId ++ storeBe32 p.fragmentOffset)) tail
          21 p.originalLength (by simp [hfront])
        simpa using this
      next hi =>
      have := @loadBe16_store (front ++ (storeBe64 p.messageId ++ storeBe16 p.fragmentOffset.toUInt16))
        tail 19 p.originalLength.toUInt16 (by simp [hfront])
      simp only [append_assoc] at this ⊢
      rw [this]
      exact toUInt32_toUInt16 (limit_of_ne_ipc hi ▸ hw.length_le)
    rw [if_neg hh, if_pos hs, if_pos hf, hoff, hlen, hmid, if_neg hlim, if_neg hne]
    exact congrArg some (Packet.ext rfl hw.tunnelId.symm hw.version.symm rfl rfl rfl rfl rfl)
  · have hs' : ¬ p.type.metadataSize p.fragmented > 9 := by
      simp only [Packet.metadataSize] at hs
      omega
    rw [if_neg hh, if_neg hs']
    by_cases hc : p.type.carriesFragments
    · have hz : p.fragmentOffset = 0 ∧ p.originalLength.toNat = p.payload.length := by
        simpa [Packet.fragmented, hc] using hf
      have hlen : UInt32.ofNat p.payload.length = p.originalLength := by
        rw [← hz.2, UInt32.ofNat_toNat]
      rw [if_pos hc, hlen]
      exact congrArg some (Packet.ext rfl hw.tunnelId.symm hw.version.symm rfl (hw.whole hc hf).symm
        hz.1.symm rfl rfl)
    obtain ⟨hm, ho, hl⟩ := hw.plain hc hs
    rw [if_neg hc]
    exact congrArg some (Packet.ext rfl hw.tunnelId.symm hw.version.symm rfl hm.symm ho.symm
      hl.symm rfl)
  · have hc : ¬ p.type.carriesFragments := by
      intro hc
      rw [Packet.metadataSize, (Bool.not_eq_true _).mp hf, metadataSize_whole hc] at hs
      omega
    have hmid : loadBe64 data 9 = p.messageId := by
      rw [happ, extension_seventeen hh hf hs]
      exact loadBe64_store _ hfront
    have hs' : p.type.metadataSize p.fragmented = 17 := hs
    rw [if_neg hh, if_pos (by omega), if_neg hf, if_neg (by omega), hmid]
    exact congrArg some (Packet.ext rfl hw.tunnelId.symm hw.version.symm rfl rfl
      (acceptable_offset_zero hc (by omega) hacc).symm
      (acceptable_length_zero hc (.inl hs) hacc).symm rfl)
  have hc : ¬ p.type.carriesFragments := by
    intro hc
    rw [Packet.metadataSize, (Bool.not_eq_true _).mp hf, metadataSize_whole hc] at hs
    omega
  have hi : p.type ≠ .ipc := fun hi => hc (by rw [hi]; rfl)
  have hmid : loadBe64 data 9 = p.messageId := by
    rw [happ, extension_nineteen hh hf hs, append_assoc]
    exact loadBe64_store _ hfront
  have hlen : (loadBe16 data 17).toUInt32 = p.originalLength := by
    have := @loadBe16_store (front ++ storeBe64 p.messageId) tail 17 p.originalLength.toUInt16
      (by simp [hfront])
    rw [append_assoc] at this
    rw [happ, extension_nineteen hh hf hs, append_assoc, this]
    exact toUInt32_toUInt16 (limit_of_ne_ipc hi ▸ hw.length_le)
  have hs' : p.type.metadataSize p.fragmented = 19 := hs
  rw [if_neg hh, if_pos (by omega), if_neg hf, if_pos hs', hmid, hlen]
  exact congrArg some (Packet.ext rfl hw.tunnelId.symm hw.version.symm rfl rfl
    (acceptable_offset_zero hc (by omega) hacc).symm rfl rfl)


/-! ### Writing the metadata again -/

theorem field_one {offset : ℕ} (h : offset < data.length) :
    field data offset 1 = [data.getD offset 0] := by
  have : data.drop offset = data[offset] :: data.drop (offset + 1) := drop_eq_getElem_cons h
  rw [field, this, getD_eq_getElem _ _ h]
  rfl

theorem take_nine (h : 9 ≤ data.length) :
    data.take 9 = data.headD 0 :: storeBe64 (loadBe64 data 1) := by
  obtain ⟨b, rest, rfl⟩ : ∃ b rest, data = b :: rest := by
    cases data with
    | nil => simp at h
    | cons b rest => exact ⟨b, rest, rfl⟩
  rw [storeBe64_load (by omega)]
  rfl

structure Reads (c : Codec) (type : PacketType) (fragment : Bool) (data payload : Bytes)
    (p : Packet) : Prop where
  type_eq : p.type = type
  payload_eq : p.payload = payload
  fragmented_eq : p.fragmented = fragment
  tunnelId_eq : p.tunnelId = c.tunnelId
  version_eq : p.protocolVersion = protocolVersionV5
  sequence_eq : p.sequence = loadBe64 data 1
  length_le : p.originalLength.toNat ≤ type.limit
  extension_eq : extension p = field data 9 (type.metadataSize fragment - 9)
  whole : type.carriesFragments → ¬ p.fragmented → p.messageId = p.sequence
  plain : ¬ type.carriesFragments → type.metadataSize fragment = 9 →
    p.messageId = 0 ∧ p.fragmentOffset = 0 ∧ p.originalLength = 0

section Reads
variable {c : Codec} {type : PacketType} {fragment : Bool} {data payload : Bytes} {p : Packet}

theorem reads_handshake (h : c.readFields type fragment data payload = some p)
    (hlen : type.metadataSize fragment ≤ data.length) (hfrag : fragment → type.carriesFragments)
    (hh : type.handshake) (hver : data.getD 9 0 = protocolVersionV5) :
    c.Reads type fragment data payload p := by
  have hc := not_carriesFragments_of_handshake hh
  have hs : type.metadataSize fragment = 18 := metadataSize_handshake hh _
  have hf : fragment = false := by simpa [hc] using hfrag
  have hext : field data 9 (type.metadataSize fragment - 9) =
      protocolVersionV5 :: storeBe64 (loadBe64 data 10) := by
    rw [hs, show 18 - 9 = 1 + 8 from rfl, field_split, field_one (by omega), hver,
      storeBe64_load (by omega)]
    rfl
  simp only [readFields] at h
  rw [if_pos hh, Option.some.injEq] at h
  subst h
  exact { type_eq := rfl, payload_eq := rfl, tunnelId_eq := rfl, version_eq := rfl,
          sequence_eq := rfl, length_le := Nat.zero_le _,
          fragmented_eq := by rw [hf, fragmented_eq_false hc],
          extension_eq := by rw [extension_handshake hh, hext],
          whole := fun hc' => absurd hc' hc,
          plain := fun _ h9 => by omega }

theorem loadBe16_le (data : Bytes) (offset : ℕ) :
    (loadBe16 data offset).toUInt32.toNat ≤ maxIpPacketSize := by
  have := (loadBe16 data offset).toNat_lt
  rw [UInt16.toNat_toUInt32, maxIpPacketSize]
  omega

theorem reads_fragment (h : c.readFields type true data payload = some p)
    (hlen : type.metadataSize true ≤ data.length) (hc : type.carriesFragments) :
    c.Reads type true data payload p := by
  have hh := not_handshake_of_carriesFragments hc
  have hs := metadataSize_fragment hc
  simp only [readFields] at h
  rw [if_neg hh, if_pos (by rw [hs]; split <;> decide), if_pos trivial] at h
  generalize ho : (if type = .ipc then loadBe32 data 17 else (loadBe16 data 17).toUInt32) = off at h
  generalize hl : (if type = .ipc then loadBe32 data 21 else (loadBe16 data 19).toUInt32) = len at h
  split_ifs at h with hlim hzero
  rw [Option.some.injEq] at h
  have hf : p.fragmented = true := by
    subst h
    simp only [Packet.fragmented, hc, Bool.true_and, Bool.or_eq_true, bne_iff_ne]
    tauto
  have hext : extension p = field data 9 (type.metadataSize true - 9) := by
    rw [extension_fragment hf, hs]
    subst h ho hl
    rw [hs] at hlen
    by_cases hi : type = .ipc
    · simp only [hi, if_true] at hlen ⊢
      rw [storeBe64_load (by omega), storeBe32_load (by omega), storeBe32_load (by omega),
        show 25 - 9 = 8 + (4 + 4) from rfl, field_split, field_split]
    simp only [hi, if_false] at hlen ⊢
    rw [UInt16.toUInt16_toUInt32, UInt16.toUInt16_toUInt32, storeBe64_load (by omega),
      storeBe16_load (by omega), storeBe16_load (by omega), show 21 - 9 = 8 + (2 + 2) from rfl,
      field_split, field_split]
  subst h
  exact { type_eq := rfl, payload_eq := rfl, tunnelId_eq := rfl, version_eq := rfl,
          sequence_eq := rfl, length_le := Nat.le_of_not_lt hlim, fragmented_eq := hf,
          extension_eq := hext,
          whole := fun _ hf' => absurd hf hf',
          plain := fun hc' => absurd hc hc' }

theorem reads_other (h : c.readFields type fragment data payload = some p)
    (hlen : type.metadataSize fragment ≤ data.length) (hh : ¬ type.handshake)
    (hc : ¬ type.carriesFragments) (hf : fragment = false) :
    c.Reads type fragment data payload p := by
  have hi : type ≠ .ipc := fun hi => hc (by rw [hi]; rfl)
  subst hf
  simp only [readFields] at h
  rw [if_neg hh, if_neg hc] at h
  rcases metadataSize_other hh hc false with hs | hs | hs
  · rw [if_neg (by omega), Option.some.injEq] at h
    subst h
    exact { type_eq := rfl, payload_eq := rfl, tunnelId_eq := rfl, version_eq := rfl,
            sequence_eq := rfl, length_le := Nat.zero_le _, fragmented_eq := fragmented_eq_false hc,
            extension_eq := by
              rw [extension_nine hh (by rw [Packet.metadataSize, fragmented_eq_false hc, hs]), hs]
              simp [field],
            whole := fun hc' => absurd hc' hc,
            plain := fun _ _ => ⟨rfl, rfl, rfl⟩ }
  · rw [if_pos (by omega), if_neg (by decide), if_neg (by omega), Option.some.injEq] at h
    subst h
    exact { type_eq := rfl, payload_eq := rfl, tunnelId_eq := rfl, version_eq := rfl,
            sequence_eq := rfl, length_le := Nat.zero_le _, fragmented_eq := fragmented_eq_false hc,
            extension_eq := by
              rw [extension_seventeen hh (by rw [fragmented_eq_false hc]; decide)
                (by rw [Packet.metadataSize, fragmented_eq_false hc, hs]), hs,
                storeBe64_load (by omega)],
            whole := fun hc' => absurd hc' hc,
            plain := fun _ h9 => by omega }
  rw [if_pos (by omega), if_neg (by decide), if_pos hs, Option.some.injEq] at h
  subst h
  exact { type_eq := rfl, payload_eq := rfl, tunnelId_eq := rfl, version_eq := rfl,
          sequence_eq := rfl, length_le := limit_of_ne_ipc hi ▸ loadBe16_le data 17,
          fragmented_eq := fragmented_eq_false hc,
          extension_eq := by
            rw [extension_nineteen hh (by rw [fragmented_eq_false hc]; decide)
              (by rw [Packet.metadataSize, fragmented_eq_false hc, hs]), hs,
              UInt16.toUInt16_toUInt32, storeBe64_load (by omega), storeBe16_load (by omega),
              show 19 - 9 = 8 + 2 from rfl, field_split],
          whole := fun hc' => absurd hc' hc,
          plain := fun _ h9 => by omega }

theorem reads_whole (h : c.readFields type false data payload = some p)
    (hc : type.carriesFragments) (hpay : payload.length ≤ type.limit) :
    c.Reads type false data payload p := by
  have hh := not_handshake_of_carriesFragments hc
  have hs := metadataSize_whole hc
  have hlt : payload.length < 2 ^ 32 := by
    simp only [PacketType.limit, maxIpcPacketSize, maxIpPacketSize] at hpay
    split at hpay <;> omega
  have hlen : (UInt32.ofNat payload.length).toNat = payload.length := UInt32.toNat_ofNat_of_lt' hlt
  simp only [readFields] at h
  rw [if_neg hh, if_neg (by omega), if_pos hc, Option.some.injEq] at h
  have hf : p.fragmented = false := by
    subst h
    simp [Packet.fragmented, hlen]
  have hsize : p.metadataSize = 9 := by
    rw [Packet.metadataSize, hf]
    subst h
    exact hs
  subst h
  exact { type_eq := rfl, payload_eq := rfl, tunnelId_eq := rfl, version_eq := rfl,
          sequence_eq := rfl, length_le := by simp only [hlen]; exact hpay, fragmented_eq := hf,
          extension_eq := by
            rw [extension_nine hh hsize, hs]
            simp [field],
          whole := fun _ _ => rfl,
          plain := fun hc' => absurd hc hc' }

theorem reads_of_readFields (h : c.readFields type fragment data payload = some p)
    (hlen : type.metadataSize fragment ≤ data.length) (hfrag : fragment → type.carriesFragments)
    (hver : type.handshake → data.getD 9 0 = protocolVersionV5)
    (hpay : payload.length ≤ type.limit) : c.Reads type fragment data payload p := by
  by_cases hh : type.handshake
  · exact reads_handshake h hlen hfrag hh (hver hh)
  by_cases hc : type.carriesFragments
  · cases fragment with
    | true => exact reads_fragment h hlen hc
    | false => exact reads_whole h hc hpay
  · exact reads_other h hlen hh hc (by simpa [hc] using hfrag)

theorem Reads.metadata_eq (h : c.Reads type fragment data payload p)
    (hlen : type.metadataSize fragment ≤ data.length)
    (hfirst : data.headD 0 = flags type c.encrypt fragment) :
    c.metadata p = data.take (type.metadataSize fragment) := by
  have h9 := nine_le_metadataSize type fragment
  have hsplit : data.take (type.metadataSize fragment) =
      data.take 9 ++ field data 9 (type.metadataSize fragment - 9) := by
    rw [← take_field]
    congr 1
    omega
  rw [hsplit, take_nine (by omega), metadata, h.type_eq, h.fragmented_eq, h.sequence_eq,
    h.extension_eq, hfirst]
  rfl

theorem Reads.wellFormed (h : c.Reads type fragment data payload p)
    (hclear : type.handshake → c.encrypt = false) (hpay : payload.length ≤ type.limit)
    (hacc : p.acceptable) : c.WellFormed p := by
  have hsize : p.metadataSize = type.metadataSize fragment := by
    rw [Packet.metadataSize, h.type_eq, h.fragmented_eq]
  have hoff : p.fragmentOffset.toNat ≤ p.type.limit := by
    have hl := h.length_le
    rw [h.type_eq]
    by_cases hc : type.carriesFragments
    · have := acceptable_data_lengths (h.type_eq ▸ hc) hacc
      omega
    have hzero : p.fragmentOffset = 0 := by
      by_cases h9 : p.metadataSize = 9
      · exact (h.plain hc (hsize ▸ h9)).2.1
      · exact acceptable_offset_zero (h.type_eq ▸ hc) h9 hacc
    simp [hzero]
  exact { tunnelId := h.tunnelId_eq, version := h.version_eq, offset_le := hoff,
          length_le := h.type_eq ▸ h.length_le, payload_le := by rw [h.type_eq, h.payload_eq]; exact hpay,
          clear := h.type_eq ▸ hclear, acceptable := hacc, whole := h.type_eq ▸ h.whole,
          plain := fun hc h9 => h.plain (h.type_eq ▸ hc) (hsize ▸ h9) }

end Reads

/-! ### The bijection -/

theorem decode_cases (h : c.decode P data = some p) :
    ∃ type fragment payload, data.headD 0 = flags type c.encrypt fragment ∧
      (fragment → type.carriesFragments) ∧
      type.metadataSize fragment + 16 ≤ data.length ∧
      data.length - (type.metadataSize fragment + 16) ≤ type.limit ∧
      (type.handshake → c.encrypt = false ∧ data.getD 9 0 = protocolVersionV5) ∧
      c.openPayload P data (type.metadataSize fragment) = some payload ∧
      c.readFields type fragment data payload = some p ∧ p.acceptable := by
  simp only [decode] at h
  split_ifs at h with hmin hbits
  split at h
  · cases h
  next type htype =>
  split_ifs at h with hfrag hsize hclear
  simp only [Option.bind_eq_bind, Option.bind_eq_some_iff, Option.ite_none_right_eq_some,
    Option.some.injEq] at h
  obtain ⟨payload, hopen, _, hread, hacc, rfl⟩ := h
  simp only [not_or, not_and, Bool.not_eq_true, bne_eq_false_iff_eq, not_not] at hbits hclear
  refine ⟨type, _, payload, ?_, ?_, ?_, ?_, hclear, hopen, hread, hacc⟩
  · rw [← hbits.1, flags_of_byte htype hbits.2]
  · intro hf
    by_contra hc
    exact hfrag ⟨hf, hc⟩
  · omega
  · omega

theorem length_sealPayload (P : Primitives) (c : Codec) (header sequence payload : Bytes) :
    (c.sealPayload P header sequence payload).1.length = payload.length := by
  rw [sealPayload]
  split
  · exact P.encrypt_length _ _ _ _
  · rfl

theorem layout_of_decode (h : c.decode P data = some p) :
    c.WellFormed p ∧ c.peer.layout P p = data := by
  obtain ⟨type, fragment, payload, hfirst, hfrag, hmin, hmax, hclear, hopen, hread, hacc⟩ :=
    decode_cases h
  have hdrop := (openPayload_eq_some_iff P c hmin payload).mp hopen
  have hpay : payload.length ≤ type.limit := by
    have := congrArg List.length hdrop
    rw [length_drop, length_append, length_sealPayload, Vector.length_toList] at this
    omega
  have hreads := reads_of_readFields hread (by omega) hfrag (fun hh => (hclear hh).2) hpay
  have h9 := nine_le_metadataSize type fragment
  have hmeta : c.peer.metadata p = data.take (type.metadataSize fragment) :=
    hreads.metadata_eq (by omega) hfirst
  have hseq : storeBe64 p.sequence = field data 1 8 := by
    rw [hreads.sequence_eq, storeBe64_load (by omega)]
  refine ⟨hreads.wellFormed (fun hh => (hclear hh).1) hpay hacc, ?_⟩
  simp only [layout, hmeta, hseq, hreads.payload_eq]
  rw [← hdrop, take_append_drop]

theorem length_layout (P : Primitives) (c : Codec) (p : Packet) :
    (c.layout P p).length = p.metadataSize + 16 + p.payload.length := by
  simp only [layout, length_append, length_metadata, Vector.length_toList, length_sealPayload]
  omega

theorem headD_layout (P : Primitives) (c : Codec) (p : Packet) :
    (c.layout P p).headD 0 = flags p.type c.encrypt p.fragmented := rfl

theorem loadBe64_layout (P : Primitives) (c : Codec) (p : Packet) :
    loadBe64 (c.layout P p) 1 = p.sequence := by
  simp only [layout, metadata, cons_append, append_assoc]
  exact @loadBe64_store [flags p.type c.encrypt p.fragmented] _ 1 p.sequence rfl

theorem protocolHeaderV5Size_le (p : Packet) : protocolHeaderV5Size ≤ p.metadataSize + 16 := by
  have := nine_le_metadataSize p.type p.fragmented
  simp only [protocolHeaderV5Size, Packet.metadataSize]
  omega

theorem decode_layout (P : Primitives) (hw : c.WellFormed p) :
    c.decode P (c.peer.layout P p) = some p := by
  have hlen := length_layout P c.peer p
  have hmin := protocolHeaderV5Size_le p
  have hpay := hw.payload_le
  have hmetalen : (c.metadata p).length = p.metadataSize := length_metadata c p
  set sealed := c.peer.sealPayload P (c.metadata p) (storeBe64 p.sequence) p.payload with hsealed
  have hlay : c.peer.layout P p = c.metadata p ++ (sealed.2.toList ++ sealed.1) := rfl
  have hhead : (c.peer.layout P p).headD 0 = flags p.type c.encrypt p.fragmented :=
    headD_layout P c.peer p
  have hfield : field (c.peer.layout P p) 1 8 = storeBe64 p.sequence := by
    have := @field_append [flags p.type c.encrypt p.fragmented] (storeBe64 p.sequence)
      (extension p ++ (sealed.2.toList ++ sealed.1)) 1 8 rfl (length_storeBe64 _)
    rw [hlay]
    simpa [metadata] using this
  have hopen : c.openPayload P (c.peer.layout P p) p.metadataSize = some p.payload := by
    rw [openPayload_eq_some_iff P c (by omega), hfield, hlay, ← hmetalen, take_left,
      drop_left]
  have hread : c.readFields p.type p.fragmented (c.peer.layout P p) p.payload = some p :=
    readFields_metadata hw _
  have hver : p.type.handshake → (c.peer.layout P p).getD 9 0 = protocolVersionV5 := by
    intro hh
    have := @field_append (flags p.type c.encrypt p.fragmented :: storeBe64 p.sequence)
      [protocolVersionV5] (storeBe64 p.messageId ++ (sealed.2.toList ++ sealed.1)) 9 1 (by simp) rfl
    rw [show _ ++ _ = c.peer.layout P p by simp [hlay, metadata, extension_handshake hh],
      field_one (by omega)] at this
    exact head_eq_of_cons_eq this
  have hfrag : ¬ (p.fragmented ∧ ¬ p.type.carriesFragments) := fun h =>
    h.2 (carriesFragments_of_fragmented h.1)
  have hclear : ¬ (p.type.handshake ∧
      (c.encrypt ∨ (c.peer.layout P p).getD 9 0 ≠ protocolVersionV5)) := by
    rintro ⟨hh, he | hv⟩
    · rw [hw.clear hh] at he
      cases he
    · exact hv (hver hh)
  simp only [decode, hhead, flags_type, flags_encrypt, flags_reserved, flags_fragment,
    PacketType.ofByte_toByte]
  rw [if_neg (by omega), if_neg (by simp), if_neg hfrag, if_neg (by
    rw [hlen, Packet.metadataSize]; omega), if_neg hclear]
  change (c.openPayload P _ p.metadataSize).bind _ = _
  rw [hopen, Option.bind_some, hread]
  simp [hw.acceptable]

theorem type_of_decode (h : c.decode P data = some p) :
    PacketType.ofByte (data.headD 0 &&& 0x1f) = some p.type := by
  rw [← (layout_of_decode h).2, headD_layout, flags_type, PacketType.ofByte_toByte]

theorem sequence_of_decode (h : c.decode P data = some p) : loadBe64 data 1 = p.sequence := by
  rw [← (layout_of_decode h).2, loadBe64_layout]

theorem header_of_layout_decode {c' : Codec} {p' : Packet} (hlayout : c'.layout P p' = data)
    (h : c.decode P data = some p) : p'.type = p.type ∧ p'.sequence = p.sequence := by
  have htype := type_of_decode h
  have hsequence := sequence_of_decode h
  rw [← hlayout, headD_layout, flags_type, PacketType.ofByte_toByte] at htype
  rw [← hlayout, loadBe64_layout] at hsequence
  exact ⟨Option.some.inj htype, hsequence⟩

theorem WellFormed.peer (h : c.WellFormed p) : c.peer.WellFormed p :=
  ⟨h.tunnelId, h.version, h.offset_le, h.length_le, h.payload_le, h.clear, h.acceptable, h.whole,
    h.plain⟩

theorem encode_of_wellFormed (P : Primitives) (hw : c.WellFormed p) :
    c.encode P p = .ok (c.layout P p) := by
  have ho := hw.offset_le
  have hl := hw.length_le
  have hp := hw.payload_le
  have hclear : ¬ (p.type.handshake ∧ c.encrypt) := by
    rintro ⟨hh, he⟩
    rw [hw.clear hh] at he
    cases he
  rw [encode, if_neg (by omega), if_neg hclear]

/-- The codec is a bijection between well-formed packets and the datagrams the
peer accepts, and every bit of an accepted header is determined by the packet. -/
theorem encode_decode_bijection (P : Primitives) (c : Codec) :
    (∀ p, c.WellFormed p → ∃ data, c.encode P p = .ok data ∧ c.peer.decode P data = some p) ∧
      (∀ data p, c.peer.decode P data = some p → c.WellFormed p ∧ c.encode P p = .ok data ∧
        data.headD 0 = flags p.type c.encrypt p.fragmented ∧
        data.length = p.headerSize + p.payload.length) ∧
      ∀ data data' p, c.peer.decode P data = some p → c.peer.decode P data' = some p →
        data = data' := by
  refine ⟨?_, ?_, ?_⟩
  · intro p hw
    exact ⟨c.layout P p, encode_of_wellFormed P hw, decode_layout P hw.peer⟩
  · intro data p h
    obtain ⟨hw, rfl⟩ := layout_of_decode h
    have hw' : c.WellFormed p := hw.peer
    exact ⟨hw', encode_of_wellFormed P hw', rfl, length_layout P c p⟩
  · intro data data' p h h'
    rw [← (layout_of_decode h).2, ← (layout_of_decode h').2]

end Tuntom.Codec
