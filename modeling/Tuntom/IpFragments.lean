import Tuntom.IpFlow
import Tuntom.Primitives

/-! The fragments in which IPv4 and IPv6 carry one datagram, and what the header parser
reads from each of them. -/
namespace Tuntom
open List

theorem octet_append {front back : Bytes} {offset : ℕ} (h : front.length ≤ offset) :
    octet (front ++ back) offset = octet back (offset - front.length) := by
  rw [octet, octet, getD_append_right _ _ _ _ h]

@[simp] theorem octet_cons_zero (b : UInt8) (back : Bytes) : octet (b :: back) 0 = b := rfl

@[simp] theorem octet_cons_succ (b : UInt8) (back : Bytes) (offset : ℕ) :
    octet (b :: back) (offset + 1) = octet back offset := rfl

/-! ### IPv4 -/

structure Ip4Datagram where
  source : Block 4
  destination : Block 4
  protocol : UInt8
  identification : UInt16
  body : Bytes

def Ip4Datagram.key (d : Ip4Datagram) : IpPairKey :=
  { version := 4, source := d.source.toList, destination := d.destination.toList }

/-- The part of a datagram from `offset` on that one packet carries. Options and the fields that
routers rewrite may differ from packet to packet. -/
structure Ip4Fragment (d : Ip4Datagram) where
  service : UInt8
  timeToLive : UInt8
  checksum : UInt16
  options : Bytes
  offset : ℕ
  size : ℕ
  padding : Bytes
  options_words : 4 ∣ options.length
  options_le : options.length ≤ 40
  aligned : 8 ∣ offset
  within : offset + size ≤ d.body.length
  proper : offset ≠ 0 ∨ offset + size < d.body.length
  fits : 20 + options.length + (offset + size) < 2 ^ 16

namespace Ip4Fragment

variable {d : Ip4Datagram} (f : Ip4Fragment d)

def totalSize : ℕ := 20 + f.options.length + f.size

/-- The flags and the offset field: a packet before the last one has more fragments behind it. -/
def mark : ℕ := f.offset / 8 + if f.offset + f.size < d.body.length then 0x2000 else 0

def bytes : Bytes :=
  [UInt8.ofNat (0x45 + f.options.length / 4), f.service] ++
    (storeBe16 (UInt16.ofNat f.totalSize) ++ (storeBe16 d.identification ++
      (storeBe16 (UInt16.ofNat f.mark) ++ ([f.timeToLive, d.protocol] ++ (storeBe16 f.checksum ++
        (d.source.toList ++ (d.destination.toList ++ (f.options ++
          (field d.body f.offset f.size ++ f.padding)))))))))

theorem mark_lt : f.mark < 2 ^ 16 := by
  have hfits := f.fits
  rw [mark]
  split <;> omega

theorem mark_ne_zero : UInt16.ofNat f.mark &&& 0x3fff ≠ 0 := by
  rw [mark4_ne_zero f.mark_lt, mark]
  have hfits := f.fits
  obtain ⟨k, hk⟩ := f.aligned
  rcases f.proper with hoffset | hmore
  · split <;> omega
  · rw [if_pos hmore]
    omega

theorem length_bytes : f.bytes.length = f.totalSize + f.padding.length := by
  have hpart := length_field f.within
  simp only [bytes, length_append, length_cons, length_nil, length_storeBe16,
    Vector.length_toList, hpart, totalSize]
  omega

theorem header_octet : octet f.bytes 0 >>> 4 = 4 ∧
    (octet f.bytes 0 &&& 0x0f).toNat * 4 = 20 + f.options.length := by
  have hle := f.options_le
  obtain ⟨k, hk⟩ := f.options_words
  have hoctet : octet f.bytes 0 = UInt8.ofNat (0x45 + k) := by
    rw [show k = f.options.length / 4 by omega]
    rfl
  rw [hoctet, hk]
  have hlast : k ≤ 10 := by omega
  interval_cases k <;> decide

theorem total_field : (loadBe16 f.bytes 2).toNat = f.totalSize := by
  have hload : loadBe16 f.bytes 2 = UInt16.ofNat f.totalSize :=
    (loadBe16_append (Nat.le_refl 2)).trans (loadBe16_front _ _)
  have hfits : f.totalSize < 2 ^ 16 := by
    have := f.fits
    rw [totalSize]
    omega
  rw [hload]
  exact UInt16.toNat_ofNat_of_lt' hfits

theorem mark_field : loadBe16 f.bytes 6 = UInt16.ofNat f.mark := by
  rw [bytes, loadBe16_append (by simp), loadBe16_append (by simp), loadBe16_append (by simp)]
  simp

theorem source_field : field f.bytes 12 4 = d.source.toList := by
  simp [bytes, field, drop_append, drop_eq_nil_of_le]

theorem destination_field : field f.bytes 16 4 = d.destination.toList := by
  simp [bytes, field, drop_append, drop_eq_nil_of_le]

theorem parseIpFlow_bytes :
    ∃ g, parseIpFlow f.bytes = some g ∧ g.l3 = d.key ∧ g.fragmented = true := by
  have hlen := f.length_bytes
  have htotal : f.totalSize = 20 + f.options.length + f.size := rfl
  have hfragmented : (UInt16.ofNat f.mark &&& 0x3fff != 0) = true := bne_iff_ne.mpr f.mark_ne_zero
  have hbounds : ¬(20 + f.options.length < 20 ∨ f.bytes.length < 20 + f.options.length ∨
      f.totalSize < 20 + f.options.length ∨ f.bytes.length < f.totalSize) := by omega
  rw [parseIpFlow, if_neg (by omega), if_pos f.header_octet.1, parseIp4, if_neg (by omega)]
  simp only [f.header_octet.2, f.total_field, f.mark_field, f.source_field, f.destination_field,
    hfragmented, if_neg hbounds]
  split
  · exact ⟨_, rfl, rfl, rfl⟩
  · exact ⟨_, rfl, transport_l3 .., transport_fragmented ..⟩

end Ip4Fragment

/-! ### IPv6 -/

structure ExtensionHeader where
  kind : UInt8
  length : UInt8
  content : Bytes
  extension : ip6Extension kind = true
  whole : kind ≠ 44
  declared : content.length + 2 = extensionSize kind length

/-- The kind of the first header of a chain that leads to a fragment header. -/
def firstKind : List ExtensionHeader → UInt8
  | [] => 44
  | header :: _ => header.kind

def chainBytes : List ExtensionHeader → Bytes
  | [] => []
  | header :: rest => firstKind rest :: header.length :: (header.content ++ chainBytes rest)

theorem length_chainBytes_cons (header : ExtensionHeader) (rest : List ExtensionHeader) :
    (chainBytes (header :: rest)).length =
      extensionSize header.kind header.length + (chainBytes rest).length := by
  rw [← header.declared, chainBytes]
  simp only [length_append, length_cons]
  omega

theorem extensions_header {packet : Bytes} {totalSize count offset : ℕ} {fragmented : Bool}
    (header : ExtensionHeader) (hlength : octet packet (offset + 1) = header.length)
    (hsize : offset + extensionSize header.kind header.length ≤ totalSize) :
    extensions packet totalSize (count + 1) header.kind offset fragmented =
      extensions packet totalSize count (octet packet offset)
        (offset + extensionSize header.kind header.length) fragmented := by
  have hdeclared := header.declared
  rw [extensions, if_neg header.whole, if_pos header.extension, hlength, if_neg (by omega),
    if_neg (by omega)]

/-- The loop reaches the fragment header behind a chain, if it may read that many headers. -/
theorem extensions_chain {totalSize count : ℕ} {fragmented : Bool}
    {headers : List ExtensionHeader} {front back : Bytes}
    (hsize : front.length + (chainBytes headers).length ≤ totalSize) :
    extensions (front ++ (chainBytes headers ++ back)) totalSize count (firstKind headers)
        front.length fragmented =
      if headers.length < count then
        extensions (front ++ (chainBytes headers ++ back)) totalSize (count - headers.length) 44
          (front.length + (chainBytes headers).length) fragmented
      else .malformed := by
  induction headers generalizing front count with
  | nil =>
    cases count with
    | zero => rfl
    | succ count =>
      rw [length_nil, if_pos (Nat.succ_pos count)]
      rfl
  | cons header rest ih =>
    have hlen := length_chainBytes_cons header rest
    have hdeclared := header.declared
    cases count with
    | zero => rw [extensions, firstKind, if_pos header.extension, if_neg (Nat.not_lt_zero _)]
    | succ count =>
      -- the chain behind the header starts where the header ends
      have hfront : (front ++ (firstKind rest :: header.length :: header.content)).length =
          front.length + extensionSize header.kind header.length := by
        rw [← hdeclared]
        simp only [length_append, length_cons]
      have hsplit : front ++ (chainBytes (header :: rest) ++ back) =
          (front ++ (firstKind rest :: header.length :: header.content)) ++
            (chainBytes rest ++ back) := by
        simp [chainBytes]
      have hnext : octet (front ++ (chainBytes (header :: rest) ++ back)) front.length =
          firstKind rest := by
        rw [octet_append (Nat.le_refl _), Nat.sub_self]
        rfl
      have hlength : octet (front ++ (chainBytes (header :: rest) ++ back)) (front.length + 1) =
          header.length := by
        rw [octet_append (Nat.le_add_right _ _), Nat.add_sub_cancel_left]
        rfl
      rw [firstKind, extensions_header header hlength (by omega), hnext, hsplit, ← hfront,
        ih (by omega), hlen, length_cons, Nat.add_sub_add_right, hfront, Nat.add_assoc]
      simp only [Nat.add_lt_add_iff_right]

structure Ip6Datagram where
  source : Block 16
  destination : Block 16
  headers : List ExtensionHeader
  next : UInt8
  identification : UInt32
  body : Bytes

def Ip6Datagram.key (d : Ip6Datagram) : IpPairKey :=
  { version := 6, source := d.source.toList, destination := d.destination.toList }

/-- The part of the fragmentable bytes that one packet carries behind the headers which every
packet of the datagram repeats. -/
structure Ip6Fragment (d : Ip6Datagram) where
  lead : UInt8
  label : Block 3
  hopLimit : UInt8
  reserved : UInt8
  offset : ℕ
  size : ℕ
  padding : Bytes
  version : lead >>> 4 = 6
  aligned : 8 ∣ offset
  within : offset + size ≤ d.body.length
  fits : (chainBytes d.headers).length + 8 + (offset + size) < 2 ^ 16

namespace Ip6Fragment

variable {d : Ip6Datagram} (f : Ip6Fragment d)

def payloadSize : ℕ := (chainBytes d.headers).length + 8 + f.size

def mark : ℕ := f.offset + if f.offset + f.size < d.body.length then 1 else 0

def front : Bytes :=
  f.lead :: (f.label.toList ++ (storeBe16 (UInt16.ofNat f.payloadSize) ++
    (firstKind d.headers :: f.hopLimit :: (d.source.toList ++ d.destination.toList))))

def back : Bytes :=
  d.next :: f.reserved :: (storeBe16 (UInt16.ofNat f.mark) ++ (storeBe32 d.identification ++
    (field d.body f.offset f.size ++ f.padding)))

def bytes : Bytes := f.front ++ (chainBytes d.headers ++ f.back)

theorem length_front : f.front.length = 40 := by
  simp [front]

theorem length_bytes : f.bytes.length = 40 + f.payloadSize + f.padding.length := by
  have hpart := length_field f.within
  simp only [bytes, back, length_append, length_cons, length_storeBe16, length_storeBe32,
    hpart, f.length_front, payloadSize]
  omega

theorem size_field : (loadBe16 f.bytes 4).toNat = f.payloadSize := by
  have hload : loadBe16 f.bytes 4 = UInt16.ofNat f.payloadSize := by
    have hlead : f.bytes = (f.lead :: f.label.toList) ++ (storeBe16 (UInt16.ofNat f.payloadSize) ++
        (firstKind d.headers :: f.hopLimit :: (d.source.toList ++ (d.destination.toList ++
          (chainBytes d.headers ++ f.back))))) := by
      simp [bytes, front]
    rw [hlead]
    exact loadBe16_store _ (by simp)
  have hfits : f.payloadSize < 2 ^ 16 := by
    have := f.fits
    rw [payloadSize]
    omega
  rw [hload]
  exact UInt16.toNat_ofNat_of_lt' hfits

theorem kind_octet : octet f.bytes 6 = firstKind d.headers := by
  simp [bytes, front, octet, List.getElem?_append]

theorem source_field : field f.bytes 8 16 = d.source.toList := by
  simp [bytes, front, field, drop_append, drop_eq_nil_of_le]

theorem destination_field : field f.bytes 24 16 = d.destination.toList := by
  simp [bytes, front, field, drop_append, drop_eq_nil_of_le]

theorem next_octet : octet f.bytes (40 + (chainBytes d.headers).length) = d.next := by
  rw [bytes, octet_append (by rw [f.length_front]; omega), octet_append (by rw [f.length_front]; omega),
    f.length_front, Nat.add_sub_cancel_left, Nat.sub_self]
  rfl

theorem mark_field :
    loadBe16 f.bytes (40 + (chainBytes d.headers).length + 2) = UInt16.ofNat f.mark := by
  have hback : f.bytes = ((f.front ++ chainBytes d.headers) ++ [d.next, f.reserved]) ++
      (storeBe16 (UInt16.ofNat f.mark) ++ (storeBe32 d.identification ++
        (field d.body f.offset f.size ++ f.padding))) := by
    simp [bytes, back]
  rw [hback]
  exact loadBe16_store _ (by simp [f.length_front, Nat.add_assoc])

theorem mark_eq_zero : UInt16.ofNat f.mark &&& 0xfff8 = 0 ↔ f.offset = 0 := by
  have hfits := f.fits
  refine mark6_eq_zero f.aligned ?_ ?_
  · split <;> omega
  · split <;> omega

/-- What the loop finds in a fragment: the fragment header behind the repeated headers, and in the
first fragment whatever follows it. -/
theorem extensions_bytes :
    extensions f.bytes (40 + f.payloadSize) 8 (octet f.bytes 6) 40 false =
      if d.headers.length < 8 then
        if f.offset ≠ 0 then .later d.next
        else extensions f.bytes (40 + f.payloadSize) (7 - d.headers.length) d.next
          (40 + (chainBytes d.headers).length + 8) true
      else .malformed := by
  have hpayload : f.payloadSize = (chainBytes d.headers).length + 8 + f.size := rfl
  have hchain := @extensions_chain (40 + f.payloadSize) 8 false d.headers f.front f.back (by
    rw [f.length_front]
    omega)
  rw [f.length_front] at hchain
  rw [f.kind_octet, bytes, hchain, ← bytes]
  split
  next hcount =>
    rw [show 8 - d.headers.length = 7 - d.headers.length + 1 by omega, extensions, if_pos rfl,
      if_neg (by omega), f.mark_field, f.next_octet]
    simp only [ne_eq, f.mark_eq_zero]
  next => rfl

theorem parseIpFlow_eq : parseIpFlow f.bytes =
    match extensions f.bytes (40 + f.payloadSize) 8 (octet f.bytes 6) 40 false with
    | .malformed => none
    | .later protocol =>
      some { l3 := d.key, protocol := protocol, hasProtocol := !ip6Extension protocol,
             fragmented := true }
    | .upper protocol offset fragmented =>
      some (transport f.bytes (40 + f.payloadSize) d.key protocol offset fragmented) := by
  have hlen := f.length_bytes
  have hversion : octet f.bytes 0 >>> 4 = 6 := f.version
  have hsix : ¬octet f.bytes 0 >>> 4 = 4 := by
    rw [hversion]
    decide
  rw [parseIpFlow, if_neg (by omega), if_neg hsix, if_pos hversion, parseIp6, if_neg (by omega)]
  simp only [f.size_field, f.source_field, f.destination_field]
  rw [if_neg (by omega)]
  rfl

/-- Whatever fragment the parser accepts, it reads as a fragment between the datagram's hosts. -/
theorem parseIpFlow_bytes {g : ParsedIpFlow} (h : parseIpFlow f.bytes = some g) :
    g.l3 = d.key ∧ g.fragmented = true := by
  rw [f.parseIpFlow_eq] at h
  split at h
  · cases h
  · cases h
    exact ⟨rfl, rfl⟩
  next protocol offset fragmented hupper =>
  have hfragmented : fragmented = true := by
    rw [f.extensions_bytes] at hupper
    split at hupper
    · split at hupper
      · cases hupper
      · exact extensions_fragmented hupper
    · cases hupper
  cases h
  exact ⟨transport_l3 .., (transport_fragmented ..).trans hfragmented⟩

/-- The loop gets through what follows the fragment header of a first fragment: the headers there
lie in the packet and are no more than it may still read. -/
def Readable : Prop :=
  d.headers.length < 8 → f.offset = 0 →
    extensions f.bytes (40 + f.payloadSize) (7 - d.headers.length) d.next
      (40 + (chainBytes d.headers).length + 8) true ≠ .malformed

theorem parseIpFlow_isSome : (parseIpFlow f.bytes).isSome ↔ d.headers.length < 8 ∧ f.Readable := by
  have hread : (parseIpFlow f.bytes).isSome ↔
      extensions f.bytes (40 + f.payloadSize) 8 (octet f.bytes 6) 40 false ≠ .malformed := by
    rw [f.parseIpFlow_eq]
    split
    next h => simp [h]
    next h => simp [h]
    next h => simp [h]
  rw [hread, f.extensions_bytes, Readable]
  by_cases hcount : d.headers.length < 8
  · by_cases hoffset : f.offset = 0
    · simp [hcount, hoffset]
    · simp [hcount, hoffset]
  · simp [hcount]

end Ip6Fragment

end Tuntom
