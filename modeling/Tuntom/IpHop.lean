import Tuntom.IpFlow
import Tuntom.Overwrite
import Tuntom.OnesComplement

/-! The compensation of the hop that a tunnel takes from a packet, as `ip.hpp` has it: the
TTL of an IPv4 header with its checksum, and the hop limit of an IPv6 header. -/
namespace Tuntom
open List

theorem carry_toNat (sum : UInt32) : (sum >>> 16).toNat = sum.toNat / 65536 := by
  rw [UInt32.toNat_shiftRight, show (16 : UInt32).toNat % 32 = 16 from rfl, Nat.shiftRight_eq_div_pow]

theorem low_toNat (sum : UInt32) : (sum &&& (0xffff : UInt32)).toNat = sum.toNat % 65536 := by
  rw [UInt32.toNat_and, show (0xffff : UInt32).toNat = 2 ^ 16 - 1 from rfl,
    Nat.and_two_pow_sub_one_eq_mod]

theorem folded_toNat (sum : UInt32) :
    ((sum &&& (0xffff : UInt32)) + (sum >>> 16)).toNat = sum.toNat % 65536 + sum.toNat / 65536 := by
  have hsum : sum.toNat < 2 ^ 32 := sum.toNat_lt
  rw [UInt32.toNat_add, low_toNat, carry_toNat, Nat.mod_eq_of_lt (by omega)]

/-- `while ((sum >> 16U) != 0) sum = (sum & 0xffffU) + (sum >> 16U)`. -/
def foldCarry (sum : UInt32) : UInt32 :=
  if sum >>> 16 ≠ 0 then foldCarry ((sum &&& (0xffff : UInt32)) + (sum >>> 16)) else sum
termination_by sum.toNat
decreasing_by
  rename_i h
  have hcarry : sum.toNat / 65536 ≠ 0 := by
    rw [← carry_toNat]
    exact fun hzero => h (UInt32.toNat_inj.mp hzero)
  rw [folded_toNat]
  omega

def headerWord (a b : UInt8) : UInt16 := a.toUInt16 <<< 8 ||| b.toUInt16

def checksumFrom : UInt32 → Bytes → UInt32
  | sum, a :: b :: rest => checksumFrom (foldCarry (sum + (headerWord a b).toUInt32)) rest
  | sum, _ => sum

def ipv4HeaderChecksum (data : Bytes) : UInt16 :=
  let sum := checksumFrom 0 data
  let sum :=
    if data.length % 2 = 1 then sum + (headerWord (octet data (data.length - 1)) 0).toUInt32
    else sum
  (~~~foldCarry sum).toUInt16

def ipv4HeaderMinSize : ℕ := 20

def ipv6HeaderSize : ℕ := 40

def ipv4HeaderLength (packet : Bytes) : ℕ := (octet packet 0 &&& 0x0f).toNat * 4

def compensateIpv4Ttl (packet : Bytes) (size : ℕ) : Bool × Bytes :=
  if size < ipv4HeaderMinSize then (false, packet)
  else if ipv4HeaderLength packet < ipv4HeaderMinSize ∨ size < ipv4HeaderLength packet then
    (false, packet)
  else if octet packet 8 = 255 then (true, packet)
  else
    let cleared := ((packet.set 8 (octet packet 8 + 1)).set 10 0).set 11 0
    let checksum := ipv4HeaderChecksum (cleared.take (ipv4HeaderLength packet))
    (true, Overwrite.write cleared 10 (storeBe16 checksum))

def compensateIpv6HopLimit (packet : Bytes) (size : ℕ) : Bool × Bytes :=
  if size < ipv6HeaderSize then (false, packet)
  else if octet packet 7 < 255 then (true, packet.set 7 (octet packet 7 + 1))
  else (true, packet)

def compensateIpHop (packet : Bytes) : Bytes :=
  if packet = [] then packet
  else if octet packet 0 >>> 4 = 4 then (compensateIpv4Ttl packet packet.length).2
  else if octet packet 0 >>> 4 = 6 then (compensateIpv6HopLimit packet packet.length).2
  else packet

/-! ### The checksum -/

def headerWords : Bytes → List ℕ
  | a :: b :: rest => (a.toNat * 256 + b.toNat) :: headerWords rest
  | [a] => [a.toNat * 256]
  | [] => []

theorem headerWord_toNat (a b : UInt8) : (headerWord a b).toNat = a.toNat * 256 + b.toNat := by
  have ha : a.toNat < 2 ^ 8 := a.toNat_lt
  have hb : b.toNat < 2 ^ 8 := b.toNat_lt
  have hshift : a.toNat <<< 8 < 2 ^ 16 := by
    rw [Nat.shiftLeft_eq]
    omega
  rw [headerWord, UInt16.toNat_or, UInt16.toNat_shiftLeft, UInt8.toNat_toUInt16,
    UInt8.toNat_toUInt16, show (8 : UInt16).toNat % 16 = 8 from rfl, Nat.mod_eq_of_lt hshift,
    ← Nat.shiftLeft_add_eq_or_of_lt hb, Nat.shiftLeft_eq]

theorem foldCarry_toNat {sum : UInt32} {a b : ℕ} (hsum : sum.toNat = a + b) (ha : a ≤ 65535)
    (hb : b ≤ 65535) : (foldCarry sum).toNat = OnesComplement.add 65535 a b := by
  have hdone : ∀ s : UInt32, s.toNat ≤ 65535 → foldCarry s = s := by
    intro s hs
    rw [foldCarry, if_neg]
    rw [not_ne_iff, ← UInt32.toNat_inj, carry_toNat]
    exact Nat.div_eq_of_lt (by omega)
  rw [OnesComplement.add, ← hsum]
  by_cases hle : sum.toNat ≤ 65535
  · rw [if_pos hle, hdone sum hle]
  have hcarry : sum >>> 16 ≠ 0 := by
    intro h
    have h' := congrArg UInt32.toNat h
    rw [carry_toNat, show (0 : UInt32).toNat = 0 from rfl] at h'
    omega
  have hfolded := folded_toNat sum
  rw [if_neg hle, foldCarry, if_pos hcarry, hdone _ (by omega)]
  omega

theorem headerWords_le (data : Bytes) : ∀ w ∈ headerWords data, w ≤ 65535 := by
  induction data using headerWords.induct with
  | case1 a b rest ih =>
    rw [headerWords, forall_mem_cons]
    have ha := a.toNat_lt
    have hb := b.toNat_lt
    exact ⟨by omega, ih⟩
  | case2 a =>
    have ha := a.toNat_lt
    simp only [headerWords, mem_singleton, forall_eq]
    omega
  | case3 => simp [headerWords]

variable {front packet back : Bytes} {size : ℕ}

theorem headerWords_append (back : Bytes) (h : front.length % 2 = 0) :
    headerWords (front ++ back) = headerWords front ++ headerWords back := by
  induction front using headerWords.induct with
  | case1 a b rest ih =>
    rw [cons_append, cons_append, headerWords, headerWords, cons_append,
      ih (by simp only [length_cons] at h; omega)]
  | case2 a => simp at h
  | case3 => simp [headerWords]

theorem add_word_toNat {sum : UInt32} {a : ℕ} (hsum : sum.toNat = a) (ha : a ≤ 65535)
    (x y : UInt8) : (sum + (headerWord x y).toUInt32).toNat = a + (x.toNat * 256 + y.toNat) := by
  have hx := x.toNat_lt
  have hy := y.toNat_lt
  rw [UInt32.toNat_add, UInt16.toNat_toUInt32, headerWord_toNat, hsum, Nat.mod_eq_of_lt (by omega)]

theorem checksum_sum {sum : UInt32} {a : ℕ} (data : Bytes) (hsum : sum.toNat = a) (ha : a ≤ 65535) :
    (foldCarry (if data.length % 2 = 1 then
        checksumFrom sum data + (headerWord (octet data (data.length - 1)) 0).toUInt32
      else checksumFrom sum data)).toNat =
      (headerWords data).foldl (OnesComplement.add 65535) a := by
  induction data using headerWords.induct generalizing sum a with
  | case1 x y rest ih =>
    have hx := x.toNat_lt
    have hy := y.toNat_lt
    have hnext : (foldCarry (sum + (headerWord x y).toUInt32)).toNat =
        OnesComplement.add 65535 a (x.toNat * 256 + y.toNat) :=
      foldCarry_toNat (add_word_toNat hsum ha x y) ha (by omega)
    have hparity : (x :: y :: rest).length % 2 = rest.length % 2 := by
      simp only [length_cons]
      omega
    rw [headerWords, foldl_cons, ← ih hnext (OnesComplement.add_le ha (by omega)), hparity,
      checksumFrom]
    by_cases hodd : rest.length % 2 = 1
    · have hlast : octet (x :: y :: rest) ((x :: y :: rest).length - 1) =
          octet rest (rest.length - 1) := by
        obtain ⟨n, hn⟩ : ∃ n, rest.length = n + 1 := Nat.exists_eq_succ_of_ne_zero (by omega)
        simp [octet, hn]
      rw [if_pos hodd, if_pos hodd, hlast]
    · rw [if_neg hodd, if_neg hodd]
  | case2 x =>
    have hx := x.toNat_lt
    have hword := add_word_toNat hsum ha x 0
    rw [show (0 : UInt8).toNat = 0 from rfl, Nat.add_zero] at hword
    rw [if_pos (by simp), headerWords, foldl_cons, foldl_nil]
    exact foldCarry_toNat hword ha (by omega)
  | case3 =>
    rw [if_neg (by simp), headerWords, foldl_nil, checksumFrom]
    · rw [foldCarry_toNat (b := 0) hsum ha (Nat.zero_le _), OnesComplement.add, Nat.add_zero,
        if_pos ha]
    · simp

theorem ipv4HeaderChecksum_toNat (data : Bytes) :
    (ipv4HeaderChecksum data).toNat = 65535 - OnesComplement.sum 65535 (headerWords data) := by
  have hsum := checksum_sum data (show (0 : UInt32).toNat = 0 from rfl) (Nat.zero_le _)
  have hle := OnesComplement.sum_le (headerWords_le data)
  rw [ipv4HeaderChecksum]
  rw [OnesComplement.sum] at hle ⊢
  rw [← hsum] at hle ⊢
  rw [UInt32.toNat_toUInt16, UInt32.toNat_not, show UInt32.size = 2 ^ 32 from rfl]
  omega

/-! ### The header -/

theorem compensateIpv4Ttl_false (h : (compensateIpv4Ttl packet size).1 = false) :
    (compensateIpv4Ttl packet size).2 = packet := by
  rw [compensateIpv4Ttl] at h ⊢
  split_ifs at h ⊢ <;> rfl

theorem compensateIpv4Ttl_true (h : (compensateIpv4Ttl packet size).1 = true) :
    20 ≤ ipv4HeaderLength packet ∧ ipv4HeaderLength packet ≤ size := by
  rw [compensateIpv4Ttl] at h
  split_ifs at h with hsmall hlength <;> rw [ipv4HeaderMinSize] at hlength <;> omega

theorem compensateIpv4Ttl_top (httl : octet packet 8 = 255) :
    (compensateIpv4Ttl packet size).2 = packet := by
  rw [compensateIpv4Ttl]
  split_ifs <;> rfl

theorem set_set_append {x y : UInt8} (hfront : front.length = 10) (t : UInt8) :
    (((front ++ ([x, y] ++ back)).set 8 t).set 10 0).set 11 0 =
      front.set 8 t ++ ([0, 0] ++ back) := by
  rw [set_append_left _ _ (by omega), set_append_right _ _ (by simp [hfront]),
    set_append_right _ _ (by simp [hfront])]
  simp [hfront]

theorem take_parts {field : Bytes} {n : ℕ} (hfront : front.length = 10)
    (hfield : field.length = 2) (hn : 12 ≤ n) :
    (front ++ (field ++ back)).take n = front ++ (field ++ back.take (n - 12)) := by
  have hsplit : n = front.length + (field.length + (n - 12)) := by omega
  conv_lhs => rw [hsplit, take_length_add_append, take_length_add_append]

theorem headerWords_store (v : UInt16) (back : Bytes) :
    headerWords (storeBe16 v ++ back) = v.toNat :: headerWords back := by
  obtain ⟨x, y, hxy⟩ := length_eq_two.mp (length_storeBe16 v)
  have hvalue : BigEndian.value [x, y] = v.toNat := by
    rw [← hxy, storeBe16]
    exact BigEndian.value_digits_of_lt v.toNat_lt
  rw [hxy, cons_append, singleton_append, headerWords, ← hvalue]
  simp [BigEndian.value]

/-- The result in its parts: the bytes before the checksum field, the field, the others. -/
theorem compensateIpv4Ttl_parts {x y : UInt8} (hfront : front.length = 10)
    (h : (compensateIpv4Ttl (front ++ ([x, y] ++ back)) size).1 = true)
    (httl : octet (front ++ ([x, y] ++ back)) 8 ≠ 255) :
    (compensateIpv4Ttl (front ++ ([x, y] ++ back)) size).2 =
      front.set 8 (octet (front ++ ([x, y] ++ back)) 8 + 1) ++
        (storeBe16 (ipv4HeaderChecksum
          (front.set 8 (octet (front ++ ([x, y] ++ back)) 8 + 1) ++
            ([0, 0] ++ back.take (ipv4HeaderLength (front ++ ([x, y] ++ back)) - 12)))) ++ back) := by
  obtain ⟨hlow, hhigh⟩ := compensateIpv4Ttl_true h
  generalize hpacket : front ++ ([x, y] ++ back) = packet at *
  have hset : ((packet.set 8 (octet packet 8 + 1)).set 10 0).set 11 0 =
      front.set 8 (octet packet 8 + 1) ++ ([0, 0] ++ back) := by
    rw [← set_set_append hfront, hpacket]
  have hnew : (front.set 8 (octet packet 8 + 1)).length = 10 := by rw [length_set, hfront]
  rw [compensateIpv4Ttl, if_neg (by rw [ipv4HeaderMinSize]; omega),
    if_neg (by rw [ipv4HeaderMinSize]; omega), if_neg httl]
  dsimp only
  rw [hset, take_parts hnew rfl (by omega), 
    Overwrite.write_append hnew (by rw [length_storeBe16]; rfl)]

theorem sum_with_checksum (back : Bytes) (h : front.length = 10) :
    OnesComplement.sum 65535 (headerWords
      (front ++ (storeBe16 (ipv4HeaderChecksum (front ++ ([0, 0] ++ back))) ++ back))) = 65535 := by
  have heven : front.length % 2 = 0 := by rw [h]
  rw [headerWords_append _ heven, headerWords_store, ipv4HeaderChecksum_toNat,
    headerWords_append _ heven]
  exact OnesComplement.sum_complement (headerWords_le front) (headerWords_le back)

theorem compensateIpv4Ttl_result (hsize : size ≤ packet.length)
    (h : (compensateIpv4Ttl packet size).1 = true) (httl : octet packet 8 ≠ 255) :
    ∃ front field back, packet = front ++ (field ++ back) ∧ front.length = 10 ∧ field.length = 2 ∧
      (compensateIpv4Ttl packet size).2 = front.set 8 (octet packet 8 + 1) ++
        (storeBe16 (ipv4HeaderChecksum (front.set 8 (octet packet 8 + 1) ++
          ([0, 0] ++ back.take (ipv4HeaderLength packet - 12)))) ++ back) := by
  obtain ⟨hlow, hhigh⟩ := compensateIpv4Ttl_true h
  have hlength : ((packet.drop 10).take 2).length = 2 := by
    rw [length_take, length_drop]
    omega
  obtain ⟨x, y, hxy⟩ := length_eq_two.mp hlength
  have hfront : (packet.take 10).length = 10 := by
    rw [length_take]
    omega
  have hpacket : packet = packet.take 10 ++ ([x, y] ++ packet.drop 12) := by
    rw [← hxy, show 12 = 10 + 2 from rfl, ← drop_drop, take_append_drop,
      take_append_drop]
  have hresult := @compensateIpv4Ttl_parts (packet.take 10) (packet.drop 12) size x y hfront
  rw [← hpacket] at hresult
  exact ⟨packet.take 10, [x, y], packet.drop 12, hpacket, hfront, rfl, hresult h httl⟩

theorem getElem?_parts {field stored : Bytes} {t : UInt8} (hfront : front.length = 10)
    (hfield : field.length = 2) (hstored : stored.length = 2) {i : ℕ} (h8 : i ≠ 8) (h10 : i ≠ 10)
    (h11 : i ≠ 11) : (front.set 8 t ++ (stored ++ back))[i]? = (front ++ (field ++ back))[i]? := by
  have hnew : (front.set 8 t).length = 10 := by rw [length_set, hfront]
  by_cases hi : i < 10
  · rw [List.getElem?_append_left (by omega), List.getElem?_append_left (by omega),
      List.getElem?_set_ne (Ne.symm h8)]
  rw [List.getElem?_append_right (by omega), List.getElem?_append_right (by omega),
    List.getElem?_append_right (by omega), List.getElem?_append_right (by omega), hnew, hfront,
    hfield, hstored]

theorem compensateIpv4Ttl_frame (hsize : size ≤ packet.length)
    (h : (compensateIpv4Ttl packet size).1 = true) (httl : octet packet 8 ≠ 255) :
    (compensateIpv4Ttl packet size).2.length = packet.length ∧
      ∀ i, i ≠ 8 → i ≠ 10 → i ≠ 11 →
        (compensateIpv4Ttl packet size).2[i]? = packet[i]? := by
  obtain ⟨front, field, back, hpacket, hfront, hfield, hresult⟩ :=
    compensateIpv4Ttl_result hsize h httl
  rw [hresult]
  refine ⟨?_, fun i h8 h10 h11 => ?_⟩
  · conv_rhs => rw [hpacket]
    simp only [length_append, length_set, hfield, length_storeBe16]
  · conv_rhs => rw [hpacket]
    exact getElem?_parts hfront hfield (length_storeBe16 _) h8 h10 h11

/-- The TTL is one larger, the header verifies, and nothing else changes. -/
theorem ttl_compensation_valid (packet : Bytes) (size : ℕ) (hsize : size ≤ packet.length) :
    ((compensateIpv4Ttl packet size).1 = false → (compensateIpv4Ttl packet size).2 = packet) ∧
    ((compensateIpv4Ttl packet size).1 = true → octet packet 8 = 255 →
      (compensateIpv4Ttl packet size).2 = packet) ∧
    ((compensateIpv4Ttl packet size).1 = true → octet packet 8 ≠ 255 →
      (octet (compensateIpv4Ttl packet size).2 8).toNat = (octet packet 8).toNat + 1 ∧
      (compensateIpv4Ttl packet size).2.length = packet.length ∧
      (∀ i, i ≠ 8 → i ≠ 10 → i ≠ 11 → (compensateIpv4Ttl packet size).2[i]? = packet[i]?) ∧
      20 ≤ ipv4HeaderLength packet ∧ ipv4HeaderLength packet ≤ 60 ∧
      OnesComplement.sum 65535 (headerWords
        ((compensateIpv4Ttl packet size).2.take (ipv4HeaderLength packet))) = 65535) := by
  refine ⟨compensateIpv4Ttl_false, fun _ => compensateIpv4Ttl_top, fun h httl => ?_⟩
  obtain ⟨hlow, hhigh⟩ := compensateIpv4Ttl_true h
  have hnibble : (octet packet 0 &&& 0x0f).toNat ≤ 15 := by
    rw [UInt8.toNat_and]
    exact Nat.and_le_right
  obtain ⟨front, field, back, hpacket, hfront, hfield, hresult⟩ :=
    compensateIpv4Ttl_result hsize h httl
  obtain ⟨hlength, hframe⟩ := compensateIpv4Ttl_frame hsize h httl
  have hnew : (front.set 8 (octet packet 8 + 1)).length = 10 := by rw [List.length_set, hfront]
  refine ⟨?_, hlength, hframe, hlow, by rw [ipv4HeaderLength]; omega, ?_⟩
  · have hlt := (octet packet 8).toNat_lt
    have hne : (octet packet 8).toNat ≠ 255 := fun h255 => httl (UInt8.toNat_inj.mp h255)
    rw [hresult, octet, List.getD_append _ _ _ _ (by omega), List.getD_eq_getElem _ _ (by omega),
      List.getElem_set_self, UInt8.toNat_add, show (1 : UInt8).toNat = 1 from rfl]
    omega
  · rw [hresult, take_parts hnew (length_storeBe16 _) (by omega)]
    exact sum_with_checksum _ hnew

def sampleHeader : Bytes :=
  [0x45, 0, 0, 20, 0, 0, 0, 0, 64, 17, 0, 0, 10, 0, 0, 1, 10, 0, 0, 2]

theorem ttl_compensation_valid_sample :
    (compensateIpv4Ttl sampleHeader 20).1 = true ∧
      (octet (compensateIpv4Ttl sampleHeader 20).2 8).toNat = 65 ∧
      OnesComplement.sum 65535 (headerWords
        ((compensateIpv4Ttl sampleHeader 20).2.take (ipv4HeaderLength sampleHeader))) = 65535 := by
  have h : (compensateIpv4Ttl sampleHeader 20).1 = true := rfl
  have hvalid := (ttl_compensation_valid sampleHeader 20 (by decide)).2.2 h (by decide)
  exact ⟨h, hvalid.1, hvalid.2.2.2.2.2⟩

/-- A packet of either version keeps its length and every byte but those of its hop count
and of the IPv4 checksum. -/
theorem compensateIpHop_frame (packet : Bytes) {i : ℕ} (hi : i ∉ [7, 8, 10, 11]) :
    (compensateIpHop packet).length = packet.length ∧
      (compensateIpHop packet)[i]? = packet[i]? := by
  simp only [mem_cons, not_mem_nil, or_false, not_or] at hi
  rw [compensateIpHop]
  split_ifs with hnil hfour hsix
  · exact ⟨rfl, rfl⟩
  · cases hanswer : (compensateIpv4Ttl packet packet.length).1 with
    | false =>
      rw [compensateIpv4Ttl_false hanswer]
      exact ⟨rfl, rfl⟩
    | true =>
      by_cases httl : octet packet 8 = 255
      · rw [compensateIpv4Ttl_top httl]
        exact ⟨rfl, rfl⟩
      · obtain ⟨hlength, hframe⟩ := compensateIpv4Ttl_frame le_rfl hanswer httl
        exact ⟨hlength, hframe i hi.2.1 hi.2.2.1 hi.2.2.2⟩
  · rw [compensateIpv6HopLimit]
    split_ifs
    · exact ⟨rfl, rfl⟩
    · exact ⟨length_set, List.getElem?_set_ne (Ne.symm hi.1)⟩
    · exact ⟨rfl, rfl⟩
  · exact ⟨rfl, rfl⟩

end Tuntom
