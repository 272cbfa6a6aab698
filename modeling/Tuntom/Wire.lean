import Tuntom.BigEndian

/-! Byte strings and the big-endian loads and stores of `wire.hpp`. -/
namespace Tuntom
open BigEndian List

abbrev Bytes := List UInt8

def ascii (text : String) : Bytes := text.toList.map fun c => UInt8.ofNat c.toNat

def storeBe16 (v : UInt16) : Bytes := digits 2 v.toNat
def storeBe32 (v : UInt32) : Bytes := digits 4 v.toNat
def storeBe64 (v : UInt64) : Bytes := digits 8 v.toNat

/-- `size` bytes of `data` from `offset` on, as the pointer arithmetic of the loads reads them. -/
def field (data : Bytes) (offset size : ℕ) : Bytes := (data.drop offset).take size

def loadBe16 (data : Bytes) (offset : ℕ) : UInt16 := UInt16.ofNat (value (field data offset 2))
def loadBe32 (data : Bytes) (offset : ℕ) : UInt32 := UInt32.ofNat (value (field data offset 4))
def loadBe64 (data : Bytes) (offset : ℕ) : UInt64 := UInt64.ofNat (value (field data offset 8))

@[simp] theorem length_storeBe16 (v : UInt16) : (storeBe16 v).length = 2 := length_digits _ _
@[simp] theorem length_storeBe32 (v : UInt32) : (storeBe32 v).length = 4 := length_digits _ _
@[simp] theorem length_storeBe64 (v : UInt64) : (storeBe64 v).length = 8 := length_digits _ _

theorem length_field {data : Bytes} {offset size : ℕ} (h : offset + size ≤ data.length) :
    (field data offset size).length = size := by
  simp only [field, length_take, length_drop]
  omega

theorem field_append {front mid back : Bytes} {offset size : ℕ} (ho : front.length = offset)
    (hs : mid.length = size) : field (front ++ (mid ++ back)) offset size = mid := by
  subst ho hs
  simp [field]

theorem loadBe16_store {front back : Bytes} {offset : ℕ} (v : UInt16) (h : front.length = offset) :
    loadBe16 (front ++ (storeBe16 v ++ back)) offset = v := by
  have hv : v.toNat < 256 ^ 2 := v.toNat_lt
  rw [loadBe16, field_append h (length_storeBe16 v), storeBe16, value_digits_of_lt hv]
  exact UInt16.ofNat_toNat

theorem loadBe32_store {front back : Bytes} {offset : ℕ} (v : UInt32) (h : front.length = offset) :
    loadBe32 (front ++ (storeBe32 v ++ back)) offset = v := by
  have hv : v.toNat < 256 ^ 4 := v.toNat_lt
  rw [loadBe32, field_append h (length_storeBe32 v), storeBe32, value_digits_of_lt hv]
  exact UInt32.ofNat_toNat

theorem loadBe64_store {front back : Bytes} {offset : ℕ} (v : UInt64) (h : front.length = offset) :
    loadBe64 (front ++ (storeBe64 v ++ back)) offset = v := by
  have hv : v.toNat < 256 ^ 8 := v.toNat_lt
  rw [loadBe64, field_append h (length_storeBe64 v), storeBe64, value_digits_of_lt hv]
  exact UInt64.ofNat_toNat

theorem field_append_right {front back : Bytes} {offset size : ℕ} (h : front.length ≤ offset) :
    field (front ++ back) offset size = field back (offset - front.length) size := by
  rw [field, field, drop_append, drop_eq_nil_of_le h, nil_append]

theorem loadBe16_append {front back : Bytes} {offset : ℕ} (h : front.length ≤ offset) :
    loadBe16 (front ++ back) offset = loadBe16 back (offset - front.length) := by
  rw [loadBe16, loadBe16, field_append_right h]

theorem loadBe32_append {front back : Bytes} {offset : ℕ} (h : front.length ≤ offset) :
    loadBe32 (front ++ back) offset = loadBe32 back (offset - front.length) := by
  rw [loadBe32, loadBe32, field_append_right h]

theorem loadBe64_append {front back : Bytes} {offset : ℕ} (h : front.length ≤ offset) :
    loadBe64 (front ++ back) offset = loadBe64 back (offset - front.length) := by
  rw [loadBe64, loadBe64, field_append_right h]

@[simp] theorem loadBe16_front (v : UInt16) (back : Bytes) : loadBe16 (storeBe16 v ++ back) 0 = v :=
  @loadBe16_store [] back 0 v rfl

@[simp] theorem loadBe32_front (v : UInt32) (back : Bytes) : loadBe32 (storeBe32 v ++ back) 0 = v :=
  @loadBe32_store [] back 0 v rfl

@[simp] theorem loadBe64_front (v : UInt64) (back : Bytes) : loadBe64 (storeBe64 v ++ back) 0 = v :=
  @loadBe64_store [] back 0 v rfl

@[simp] theorem loadBe32_last (v : UInt32) : loadBe32 (storeBe32 v) 0 = v := by
  rw [← append_nil (storeBe32 v), loadBe32_front]

theorem storeBe16_load {data : Bytes} {offset : ℕ} (h : offset + 2 ≤ data.length) :
    storeBe16 (loadBe16 data offset) = field data offset 2 := by
  have hl := length_field h
  have hv := value_lt (field data offset 2)
  rw [hl] at hv
  rw [storeBe16, loadBe16, UInt16.toNat_ofNat_of_lt' hv, digits_value_of_length hl]

theorem storeBe32_load {data : Bytes} {offset : ℕ} (h : offset + 4 ≤ data.length) :
    storeBe32 (loadBe32 data offset) = field data offset 4 := by
  have hl := length_field h
  have hv := value_lt (field data offset 4)
  rw [hl] at hv
  rw [storeBe32, loadBe32, UInt32.toNat_ofNat_of_lt' hv, digits_value_of_length hl]

theorem storeBe64_load {data : Bytes} {offset : ℕ} (h : offset + 8 ≤ data.length) :
    storeBe64 (loadBe64 data offset) = field data offset 8 := by
  have hl := length_field h
  have hv := value_lt (field data offset 8)
  rw [hl] at hv
  rw [storeBe64, loadBe64, UInt64.toNat_ofNat_of_lt' hv, digits_value_of_length hl]

theorem field_split (data : Bytes) (offset m n : ℕ) :
    field data offset (m + n) = field data offset m ++ field data (offset + m) n := by
  simp only [field, take_add, drop_drop]

theorem take_field (data : Bytes) (m n : ℕ) : data.take (m + n) = data.take m ++ field data m n := by
  simp only [field, take_add]

theorem field_append_drop (data : Bytes) (offset size : ℕ) :
    field data offset size ++ data.drop (offset + size) = data.drop offset := by
  rw [field, ← drop_drop, take_append_drop]

theorem getD_cons_drop {data : Bytes} {offset : ℕ} (h : offset < data.length) :
    data.getD offset 0 :: data.drop (offset + 1) = data.drop offset := by
  rw [getD_eq_getElem _ _ h, drop_eq_getElem_cons h]

theorem head_two {data : Bytes} {x y : UInt8} (h : 2 ≤ data.length) (hx : data.getD 0 0 = x)
    (hy : data.getD 1 0 = y) : x :: y :: data.drop 2 = data := by
  rw [← hx, ← hy, getD_cons_drop (by omega), getD_cons_drop (by omega), drop_zero]

theorem field_last {front mid : Bytes} {offset size : ℕ} (ho : front.length = offset)
    (hs : mid.length = size) : field (front ++ mid) offset size = mid := by
  have h := @field_append front mid [] offset size ho hs
  rwa [append_nil] at h

theorem field_eq_drop {data : Bytes} {offset size : ℕ} (h : data.length = offset + size) :
    field data offset size = data.drop offset := by
  rw [field, take_of_length_le (by rw [length_drop]; omega)]

end Tuntom
