import Tuntom.LabelFrame
import Tuntom.OrderedMap

/-! Relay records of `relay/protocol.hpp`: label frames of a channel, and snapshots of the channel
directory. -/
namespace Tuntom.Relay
open Overwrite List OrderedMap
open Ipc (encodeSwitchRegistration switchMaxPortIdSize)

def headerSize : ℕ := 32
def frameLimit : ℕ := 65535 + 72
def maxRecord : ℕ := frameLimit + headerSize
def maxChannels : ℕ := 128

inductive RecordType
  | reset | snapshot | acknowledged | data
  deriving DecidableEq, Repr

def RecordType.toByte : RecordType → UInt8
  | .reset => 1
  | .snapshot => 2
  | .acknowledged => 3
  | .data => 4

def RecordType.ofByte (b : UInt8) : Option RecordType :=
  [reset, snapshot, acknowledged, data].find? fun t => t.toByte == b

@[simp] theorem RecordType.ofByte_toByte (t : RecordType) : ofByte t.toByte = some t := by
  cases t <;> rfl

/-- `View`, with the payload it points to. -/
structure View where
  type : RecordType
  channel : UInt32 := 0
  epoch : UInt64 := 0
  owner : UInt64 := 0
  payload : Bytes := []
  deriving DecidableEq, Repr

def marked (b : Bytes) : Bool := 4 ≤ b.length ∧ b.take 4 = ascii "TTR" ++ [1]

/-- What `decode` asks of a record of each type. -/
def View.valid (v : View) : Bool :=
  if v.type = .reset then v.channel == 0 && v.epoch == 0 && v.owner == 0 && v.payload.isEmpty
  else if v.epoch = 0 then false
  else if v.type = .data then
    v.channel != 0 && v.owner == 0 &&
      (decodeSwitchFrame v.payload).any fun frame => frame.payloadSize ≤ 65535
  else
    v.channel != 0 && v.owner == 0 &&
      (if v.type = .snapshot then 2 ≤ v.payload.length else v.payload.isEmpty)

def decode (b : Bytes) : Option View :=
  if marked b = false ∨ b.length < headerSize ∨ maxRecord < b.length ∨ b.getD 5 0 ≠ 0 ∨
      b.getD 6 0 ≠ 0 ∨ b.getD 7 0 ≠ 0 ∨ (loadBe32 b 12).toNat ≠ b.length then none
  else
    match RecordType.ofByte (b.getD 4 0) with
    | none => none
    | some type =>
      let v : View :=
        { type := type
          channel := loadBe32 b 8
          epoch := loadBe64 b 16
          owner := loadBe64 b 24
          payload := b.drop headerSize }
      if v.valid then some v else none

/-- The header of a record with `size` bytes behind it. -/
def header (type : RecordType) (channel : UInt32) (epoch : UInt64) (size : ℕ) : Bytes :=
  ascii "TTR" ++ ([1, type.toByte, 0, 0, 0] ++ (storeBe32 channel ++
    (storeBe32 (UInt32.ofNat (headerSize + size)) ++ (storeBe64 epoch ++ storeBe64 0))))

/-- `encode`; none where it throws. -/
def encode (type : RecordType) (channel : UInt32) (epoch : UInt64) (payload : Bytes) :
    Option Bytes :=
  if frameLimit < payload.length then none
  else some (header type channel epoch payload.length ++ payload)

/-- `wrap` around the first `n` bytes of a buffer. -/
def wrap (buffer : Bytes) (n capacity : ℕ) (channel : UInt32) (epoch : UInt64) :
    Option (Bytes × ℕ) :=
  if frameLimit < n ∨ capacity < n + headerSize then none
  else
    some (write (move buffer headerSize 0 n) 0 (header .data channel epoch n), n + headerSize)

/-! ### Snapshots -/

structure Channel where
  id : UInt32 := 0
  owner : UInt64 := 0
  name : Bytes := []
  deriving DecidableEq, Repr

abbrev ChannelMap := OrderedMap UInt32 Channel

/-- The loop of the parser, with `count` channels left from position `position` on. -/
def parseChannels (payload : Bytes) :
    ℕ → ℕ → List Bytes → ChannelMap → Option ChannelMap
  | 0, position, _, result => if position = payload.length then some result else none
  | count + 1, position, names, result =>
    if payload.length < position + 13 then none
    else
      let c : Channel :=
        { id := loadBe32 payload position
          owner := loadBe64 payload (position + 4)
          name := field payload (position + 13) (payload.getD (position + 12) 0).toNat }
      let n := (payload.getD (position + 12) 0).toNat
      if c.id = 0 ∨ c.owner = 0 ∨ n = 0 ∨ switchMaxPortIdSize < n ∨
          payload.length - (position + 13) < n then none
      else if (encodeSwitchRegistration c.name).isNone then none
      else if c.name ∈ names ∨ result.contains c.id then none
      else parseChannels payload count (position + 13 + n) (c.name :: names) (result.insert c.id c)

/-- `snapshot` of a record: the channels it lists. -/
def parseSnapshot (view : View) : Option ChannelMap :=
  if view.type ≠ .snapshot ∨ view.payload.length < 2 then none
  else
    let count := (loadBe16 view.payload 0).toNat
    if maxChannels < count then none else parseChannels view.payload count 2 [] {}

def Channel.wire (c : Channel) : Bytes :=
  storeBe32 c.id ++ (storeBe64 c.owner ++ (UInt8.ofNat c.name.length :: c.name))

/-- `snapshot` of a directory: the record that lists it. -/
def snapshot (epoch : UInt64) (revision : UInt32) (channels : ChannelMap) : Option Bytes :=
  encode .snapshot revision epoch (storeBe16 (UInt16.ofNat channels.size) ++
    channels.entries.flatMap fun item => item.2.wire)

/-! ### Records -/

theorem length_header (type : RecordType) (channel : UInt32) (epoch : UInt64) (size : ℕ) :
    (header type channel epoch size).length = headerSize := by
  simp [header, ascii, headerSize]

theorem decode_encode {type : RecordType} {channel : UInt32} {epoch : UInt64} {payload b : Bytes}
    (h : encode type channel epoch payload = some b)
    (hvalid : View.valid ⟨type, channel, epoch, 0, payload⟩ = true) :
    decode b = some ⟨type, channel, epoch, 0, payload⟩ := by
  rw [encode] at h
  split at h
  · cases h
  next hsize =>
  have hb := (Option.some.inj h).symm
  have hlength : b.length = headerSize + payload.length := by
    rw [hb, length_append, length_header]
  have hdrop : b.drop headerSize = payload := by
    rw [hb]
    exact drop_left' (length_header ..)
  rw [frameLimit] at hsize
  simp only [header, append_assoc] at hb
  have hmarked : marked b = true := by
    rw [hb]
    simp [marked, ascii]
  have htype : b.getD 4 0 = type.toByte := by rw [hb]; rfl
  have h5 : b.getD 5 0 = 0 := by rw [hb]; rfl
  have h6 : b.getD 6 0 = 0 := by rw [hb]; rfl
  have h7 : b.getD 7 0 = 0 := by rw [hb]; rfl
  rw [← append_assoc (ascii "TTR")] at hb
  have hchannel : loadBe32 b 8 = channel := by
    rw [hb]
    exact loadBe32_store channel rfl
  have htotal : (loadBe32 b 12).toNat = b.length := by
    have hload : loadBe32 b 12 = UInt32.ofNat (headerSize + payload.length) := by
      rw [hb, ← append_assoc _ (storeBe32 channel)]
      exact loadBe32_store _ rfl
    rw [hload, hlength]
    refine UInt32.toNat_ofNat_of_lt' ?_
    rw [headerSize]
    change _ < 4294967296
    omega
  have hepoch : loadBe64 b 16 = epoch := by
    rw [hb, ← append_assoc _ (storeBe32 channel), ← append_assoc _ (storeBe32 _)]
    exact loadBe64_store _ rfl
  have howner : loadBe64 b 24 = 0 := by
    rw [hb, ← append_assoc _ (storeBe32 channel), ← append_assoc _ (storeBe32 _),
      ← append_assoc _ (storeBe64 epoch)]
    exact loadBe64_store _ rfl
  rw [decode, if_neg, htype, RecordType.ofByte_toByte]
  · simp only [hchannel, hepoch, howner, hdrop]
    exact if_pos hvalid
  · simp only [hmarked, h5, h6, h7, htotal, hlength, maxRecord, frameLimit, ne_eq,
      not_true_eq_false, or_false, Bool.true_eq_false, false_or, not_or, not_lt]
    omega

theorem wrap_eq_some {buffer out : Bytes} {n m capacity : ℕ} {channel : UInt32} {epoch : UInt64}
    (hcapacity : capacity ≤ buffer.length) (h : wrap buffer n capacity channel epoch = some (out, m)) :
    m = n + headerSize ∧ encode .data channel epoch (buffer.take n) = some (out.take m) := by
  rw [wrap] at h
  split at h
  · cases h
  next hguard =>
  simp only [not_or, not_lt] at hguard
  obtain ⟨hout, hm⟩ := Prod.mk.inj (Option.some.inj h)
  have hlength : (buffer.take n).length = n := length_take_of_le (by omega)
  have hmove : move buffer headerSize 0 n =
      buffer.take headerSize ++ (buffer.take n ++ buffer.drop (headerSize + n)) := by
    rw [move, write, drop_zero, hlength]
  have hwrite : write (buffer.take headerSize ++ (buffer.take n ++ buffer.drop (headerSize + n))) 0
      (header .data channel epoch n) =
      header .data channel epoch n ++ (buffer.take n ++ buffer.drop (headerSize + n)) := by
    refine @write_append _ [] _ _ _ 0 rfl ?_
    rw [length_header, length_take_of_le (by omega)]
  refine ⟨hm.symm, ?_⟩
  rw [← hout, ← hm, hmove, hwrite, encode, hlength, if_neg (by omega), ← append_assoc,
    take_left']
  rw [length_append, length_header, hlength, Nat.add_comm]

/-! ### Directories on the wire -/

def Channel.Sound (c : Channel) : Prop :=
  c.id ≠ 0 ∧ c.owner ≠ 0 ∧ (encodeSwitchRegistration c.name).isSome

/-- A directory as the registry keeps it: ascending ids, which are the keys, and distinct names. -/
structure Listed (m : ChannelMap) : Prop where
  few : m.size ≤ maxChannels
  ordered : m.entries.Pairwise fun a b => a.1 < b.1
  keyed : ∀ e ∈ m.entries, e.2.id = e.1 ∧ e.2.Sound
  distinct : (m.entries.map fun e => e.2.name).Nodup

theorem Channel.Sound.name {c : Channel} (h : c.Sound) :
    c.name.length ≠ 0 ∧ c.name.length ≤ switchMaxPortIdSize := by
  obtain ⟨data, hdata⟩ := Option.isSome_iff_exists.mp h.2.2
  rw [encodeSwitchRegistration] at hdata
  split at hdata
  · cases hdata
  next hsize =>
  simp only [not_or, not_lt] at hsize
  exact ⟨fun hzero => hsize.1 (length_eq_zero_iff.mp hzero), hsize.2⟩

theorem Channel.length_wire (c : Channel) : c.wire.length = 13 + c.name.length := by
  simp only [wire, length_append, length_cons, length_storeBe32, length_storeBe64]
  omega

/-- The channels written behind `front` are read from there on. -/
theorem parseChannels_wire {front : Bytes} {names : List Bytes} {done m : ChannelMap}
    {items : List (UInt32 × Channel)} (hm : m.entries = done.entries ++ items)
    (hordered : m.entries.Pairwise fun a b => a.1 < b.1)
    (hkeyed : ∀ e ∈ items, e.2.id = e.1 ∧ e.2.Sound)
    (hnew : ∀ e ∈ items, e.2.name ∉ names) (hdistinct : (items.map fun e => e.2.name).Nodup) :
    parseChannels (front ++ items.flatMap fun item => item.2.wire) items.length front.length names
      done = some m := by
  induction items generalizing front names done with
  | nil =>
    rw [append_nil] at hm
    simp [parseChannels, ext_entries hm]
  | cons item items ih =>
    obtain ⟨key, c⟩ := item
    obtain ⟨hid, hsound⟩ := hkeyed (key, c) mem_cons_self
    obtain ⟨hfirst, hrest⟩ := nodup_cons.mp hdistinct
    obtain ⟨hnonempty, hshort⟩ := hsound.name
    have hbefore : ∀ e ∈ done.entries, e.1 < key := by
      intro e he
      rw [hm] at hordered
      exact (pairwise_append.mp hordered).2.2 e he (key, c) mem_cons_self
    have hfresh : done.contains c.id = false := by
      rw [OrderedMap.contains, Option.isSome_eq_false_iff, Option.isNone_iff_eq_none,
        OrderedMap.find?_eq_none_iff]
      intro hmem
      obtain ⟨e, he, heq⟩ := mem_map.mp hmem
      have hlt := hbefore e he
      rw [heq, hid] at hlt
      exact UInt32.lt_irrefl _ hlt
    have hentries : (done.insert c.id c).entries = done.entries ++ [(key, c)] := by
      rw [entries_insert_new hfresh, hid]
      exact place_last fun e he => UInt32.lt_asymm (hbefore e he)
    have hrec := @ih (front ++ c.wire) (c.name :: names) (done.insert c.id c)
      (by rw [hentries, hm]; simp) (fun e he => hkeyed e (mem_cons_of_mem _ he))
      (by
        intro e he hmem
        rcases mem_cons.mp hmem with heq | hmem
        · exact hfirst (mem_map.mpr ⟨e, he, heq⟩)
        · exact hnew e (mem_cons_of_mem _ he) hmem) hrest
    rw [length_append, c.length_wire, ← Nat.add_assoc] at hrec
    rw [length_cons, flatMap_cons, parseChannels, ← append_assoc]
    dsimp only
    generalize hp : front ++ c.wire ++ (items.flatMap fun item => item.2.wire) = p at hrec ⊢
    have hroom : front.length + 13 + c.name.length ≤ p.length := by
      rw [← hp, length_append, length_append, c.length_wire]
      omega
    simp only [Channel.wire, append_assoc] at hp
    have hidBytes : loadBe32 p front.length = c.id := by
      rw [← hp]
      exact loadBe32_store _ rfl
    have howner : loadBe64 p (front.length + 4) = c.owner := by
      rw [← hp, ← append_assoc]
      exact loadBe64_store _ (by simp)
    have hcount : (p.getD (front.length + 12) 0).toNat = c.name.length := by
      have hbyte : p.getD (front.length + 12) 0 = UInt8.ofNat c.name.length := by
        rw [← hp, getD_eq_getElem?_getD, List.getElem?_append_right (by omega),
          List.getElem?_append_right (by simp), List.getElem?_append_right (by simp)]
        simp
      rw [hbyte]
      exact UInt8.toNat_ofNat_of_lt' (hshort.trans_lt (by decide))
    have hname : field p (front.length + 13) c.name.length = c.name := by
      rw [← hp, ← append_assoc, ← append_assoc, cons_append,
        append_cons]
      exact field_append (by simp) rfl
    rw [hcount, hidBytes, howner, hname, if_neg (by omega), if_neg, if_neg, if_neg]
    · exact hrec
    · rw [not_or, hfresh]
      exact ⟨hnew (key, c) mem_cons_self, Bool.false_ne_true⟩
    · rw [Option.isNone_iff_eq_none]
      exact Option.isSome_iff_ne_none.mp hsound.2.2
    · simp only [not_or, not_lt]
      exact ⟨hsound.1, hsound.2.1, hnonempty, hshort, by omega⟩

structure Listing (done : ChannelMap) (names : List Bytes) : Prop where
  ordered : done.entries.Pairwise fun a b => a.1 < b.1
  keyed : ∀ e ∈ done.entries, e.2.id = e.1 ∧ e.2.Sound
  listed : (done.entries.map fun e => e.2.name).Perm names
  nodup : names.Nodup

theorem Listing.insert {done : ChannelMap} {names : List Bytes} (h : Listing done names) {c : Channel}
    (hsound : c.Sound) (hname : c.name ∉ names) (hfresh : done.contains c.id = false) :
    Listing (done.insert c.id c) (c.name :: names) ∧
      (done.insert c.id c).size = done.size + 1 := by
  have hentries := entries_insert_new hfresh c
  have hperm : (done.insert c.id c).entries.Perm ((c.id, c) :: done.entries) := by
    rw [hentries]
    exact place_perm ..
  refine ⟨⟨?_, ?_, (hperm.map _).trans (h.listed.cons _), nodup_cons.mpr ⟨hname, h.nodup⟩⟩, ?_⟩
  · rw [hentries]
    refine place_pairwise (fun _ _ _ => UInt32.lt_trans) ?_ h.ordered
    intro e he hnot
    refine UInt32.lt_of_le_of_ne (UInt32.not_lt.mp hnot) fun heq => ?_
    rw [OrderedMap.contains, Option.isSome_eq_false_iff, Option.isNone_iff_eq_none,
      OrderedMap.find?_eq_none_iff] at hfresh
    exact hfresh (mem_map.mpr ⟨e, he, heq⟩)
  · intro e he
    rcases mem_cons.mp (hperm.mem_iff.mp he) with rfl | he
    · exact ⟨rfl, hsound⟩
    · exact h.keyed e he
  · rw [OrderedMap.size, hperm.length_eq, length_cons, OrderedMap.size]

theorem parseChannels_sound {payload : Bytes} {count position : ℕ} {names : List Bytes}
    {done m : ChannelMap} (h : parseChannels payload count position names done = some m)
    (hdone : Listing done names) : m.size = done.size + count ∧ ∃ names, Listing m names := by
  induction count generalizing position names done with
  | zero =>
    rw [parseChannels] at h
    split at h
    · cases h
      exact ⟨rfl, names, hdone⟩
    · cases h
  | succ count ih =>
    rw [parseChannels] at h
    split at h
    · cases h
    dsimp only at h
    split at h
    · cases h
    next hfields =>
    split at h
    · cases h
    next hregistered =>
    split at h
    · cases h
    next hfresh =>
    rw [not_or] at hfresh
    rw [not_or, not_or] at hfields
    obtain ⟨hnext, hsize⟩ := @Listing.insert done names hdone
      ⟨loadBe32 payload position, loadBe64 payload (position + 4),
        field payload (position + 13) (payload.getD (position + 12) 0).toNat⟩
      ⟨hfields.1, hfields.2.1, Option.isSome_iff_ne_none.mpr
        fun hnone => hregistered (Option.isNone_iff_eq_none.mpr hnone)⟩
      hfresh.1 (Bool.eq_false_iff.mpr hfresh.2)
    obtain ⟨htotal, hlisting⟩ := ih h hnext
    exact ⟨by rw [htotal, hsize]; omega, hlisting⟩

theorem listed_of_parse {view : View} {m : ChannelMap} (h : parseSnapshot view = some m) :
    Listed m := by
  rw [parseSnapshot] at h
  split at h
  · cases h
  dsimp only at h
  split at h
  · cases h
  next hcount =>
  obtain ⟨hsize, names, hlisting⟩ := parseChannels_sound h
    ⟨List.Pairwise.nil, by simp, .refl _, nodup_nil⟩
  refine ⟨?_, hlisting.ordered, hlisting.keyed, hlisting.listed.nodup_iff.mpr hlisting.nodup⟩
  rw [hsize]
  change 0 + _ ≤ _
  omega

theorem length_channels {items : List (UInt32 × Channel)}
    (h : ∀ e ∈ items, e.2.name.length ≤ switchMaxPortIdSize) :
    (items.flatMap fun item => item.2.wire).length ≤ items.length * 76 := by
  induction items with
  | nil => simp
  | cons item items ih =>
    have hname := h item mem_cons_self
    rw [switchMaxPortIdSize] at hname
    have hrest := ih fun e he => h e (mem_cons_of_mem _ he)
    rw [flatMap_cons, length_append, item.2.length_wire, length_cons]
    omega

theorem parse_snapshot {m : ChannelMap} (hm : Listed m) {epoch : UInt64} {revision : UInt32}
    (hepoch : epoch ≠ 0) (hrevision : revision ≠ 0) :
    ∃ record view, snapshot epoch revision m = some record ∧ decode record = some view ∧
      view.epoch = epoch ∧ view.channel = revision ∧ parseSnapshot view = some m := by
  have hfew := hm.few
  have hsize := length_channels fun e he => (hm.keyed e he).2.name.2
  rw [maxChannels] at hfew
  change m.entries.length ≤ 128 at hfew
  obtain ⟨record, hrecord⟩ : ∃ record, snapshot epoch revision m = some record := by
    rw [snapshot, encode, if_neg]
    · exact ⟨_, rfl⟩
    · rw [length_append, length_storeBe16, frameLimit]
      omega
  have hparse := @parseChannels_wire (storeBe16 (UInt16.ofNat m.size)) [] {} m m.entries rfl
    hm.ordered hm.keyed (by simp) hm.distinct
  have hcount : (UInt16.ofNat m.size).toNat = m.entries.length :=
    UInt16.toNat_ofNat_of_lt' (hfew.trans_lt (by decide))
  refine ⟨record, _, hrecord, decode_encode hrecord ?_, rfl, rfl, ?_⟩
  · simp [View.valid, hepoch, hrevision]
  · rw [parseSnapshot, if_neg (by simp; omega)]
    dsimp only
    rw [loadBe16_front, hcount, if_neg (by rw [maxChannels]; omega)]
    exact hparse

/-- A frame is rewritten in its buffer and then wrapped for a channel: the record carries the frame
with the new labels and the old payload. -/
theorem decode_wrap_rewrite {data : Bytes} {size : ℕ} {frame : SwitchFrameView} {labels : Labels}
    (exit : Bool) (hsize : size ≤ data.length)
    (hframe : decodeSwitchFrame (data.take size) = some frame)
    (hpayload : frame.payloadSize ≤ 65535) (hlabels : labels.length ≠ 0)
    (hmost : labels.length ≤ switchMaxLabels)
    (hroom : 8 + labels.length * 8 + frame.payloadSize ≤ data.length) :
    ∃ out n frame', rewriteRulesFrame data frame labels exit = (out, n) ∧
      decodeSwitchFrame (out.take n) = some frame' ∧
      frame'.opcode = (if exit then .exitPacket else .switchPacket) ∧
      frame'.labelStack (out.take n) = labels ∧
      frame'.payloadBytes (out.take n) = frame.payloadBytes (data.take size) ∧
      ∀ channel epoch capacity, channel ≠ 0 → epoch ≠ 0 → n + headerSize ≤ capacity →
        capacity ≤ data.length →
        ∃ wrapped total, wrap out n capacity channel epoch = some (wrapped, total) ∧
          decode (wrapped.take total) = some ⟨.data, channel, epoch, 0, out.take n⟩ := by
  obtain ⟨hn, hlength, hencode⟩ :=
    rewriteRulesFrame_spec exit hsize hframe hpayload hlabels hmost hroom
  obtain ⟨frame', hdecode, hopcode, hstack, hbytes, hps⟩ := decodeSwitchFrame_encode hencode
  have hsame : frame'.payloadSize = frame.payloadSize := by
    obtain ⟨-, -, -, -, hend⟩ := decodeSwitchFrame_eq_some hframe
    rw [hps]
    exact length_field hend.le
  generalize rewriteRulesFrame data frame labels exit = result at *
  obtain ⟨out, n⟩ := result
  refine ⟨out, n, frame', rfl, hdecode, hopcode, hstack, hbytes, ?_⟩
  intro channel epoch capacity hchannel hepoch hcapacity hbuffer
  rw [switchMaxLabels] at hmost
  obtain ⟨wrapped, total, hwrap⟩ :
      ∃ wrapped total, wrap out n capacity channel epoch = some (wrapped, total) := by
    rw [wrap, if_neg]
    · exact ⟨_, _, rfl⟩
    · rw [frameLimit]
      dsimp only at hn
      omega
  obtain ⟨-, hrecord⟩ := wrap_eq_some (by rw [hlength]; exact hbuffer) hwrap
  refine ⟨wrapped, total, hwrap, decode_encode hrecord ?_⟩
  simp [View.valid, hepoch, hchannel, hdecode, hsame, hpayload]

/-- Directories survive their records, frames that are rewritten in place and wrapped arrive with
the new labels and the old payload, and a directory that was accepted is accepted again. -/
theorem relay_encodings_compose :
    (∀ m, Listed m → ∀ epoch revision, epoch ≠ 0 → revision ≠ 0 →
      ∃ record view, snapshot epoch revision m = some record ∧ decode record = some view ∧
        view.epoch = epoch ∧ view.channel = revision ∧ parseSnapshot view = some m) ∧
    (∀ data size frame labels exit, size ≤ data.length →
      decodeSwitchFrame (data.take size) = some frame → frame.payloadSize ≤ 65535 →
      labels.length ≠ 0 → labels.length ≤ switchMaxLabels →
      8 + labels.length * 8 + frame.payloadSize ≤ data.length →
      ∃ out n frame', rewriteRulesFrame data frame labels exit = (out, n) ∧
        decodeSwitchFrame (out.take n) = some frame' ∧
        frame'.opcode = (if exit then .exitPacket else .switchPacket) ∧
        frame'.labelStack (out.take n) = labels ∧
        frame'.payloadBytes (out.take n) = frame.payloadBytes (data.take size) ∧
        ∀ channel epoch capacity, channel ≠ 0 → epoch ≠ 0 → n + headerSize ≤ capacity →
          capacity ≤ data.length →
          ∃ wrapped total, wrap out n capacity channel epoch = some (wrapped, total) ∧
            decode (wrapped.take total) = some ⟨.data, channel, epoch, 0, out.take n⟩) ∧
    ∀ view m, parseSnapshot view = some m → ∀ epoch revision, epoch ≠ 0 → revision ≠ 0 →
      ∃ record again, snapshot epoch revision m = some record ∧ decode record = some again ∧
        parseSnapshot again = some m := by
  refine ⟨fun m hm epoch revision => parse_snapshot hm, ?_, ?_⟩
  · intro data size frame labels exit hsize hframe hpayload hlabels hmost hroom
    exact decode_wrap_rewrite exit hsize hframe hpayload hlabels hmost hroom
  · intro view m h epoch revision hepoch hrevision
    obtain ⟨record, again, hrecord, hdecode, -, -, hparse⟩ :=
      parse_snapshot (listed_of_parse h) hepoch hrevision
    exact ⟨record, again, hrecord, hdecode, hparse⟩

end Tuntom.Relay
