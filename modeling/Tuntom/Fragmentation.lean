import Tuntom.Packet
import Tuntom.Pieces
import Tuntom.ProtocolRoundtrip

/-! `make_fragment_plan` and the loop of `Tunnel::send_data` that cuts a logical
packet into fragments of nearly equal size. -/
namespace Tuntom

open Pieces

def maxFragmentsPerPacket : ℕ := 64
def maxIpcFragmentsPerPacket : ℕ := 256

/-- The fragments a packet may have, on both sides: a relay sends IPC only, every other
tunnel DATA only. -/
def PacketType.fragmentLimit (t : PacketType) : ℕ :=
  if t = .ipc then maxIpcFragmentsPerPacket else maxFragmentsPerPacket

structure FragmentPlan where
  count : ℕ
  baseSize : ℕ
  largerFragments : ℕ
  deriving DecidableEq, Repr

def makeFragmentPlan (packetSize maximumFragmentPayload limit : ℕ) : Except String FragmentPlan :=
  if packetSize = 0 ∨ maximumFragmentPayload = 0 then .error "Invalid fragmentation parameters"
  else
    -- the sum is a `std::size_t`
    let count := (packetSize + maximumFragmentPayload - 1) % 2 ^ 64 / maximumFragmentPayload
    if limit < count then .error "Packet requires too many transport fragments"
    -- only after the sum wrapped; the source divides by it
    else if count = 0 then .error "division by zero"
    else .ok
      { count := count, baseSize := packetSize / count, largerFragments := packetSize % count }

namespace FragmentPlan

def fragmentSize (plan : FragmentPlan) (index : ℕ) : ℕ :=
  plan.baseSize + if index < plan.largerFragments then 1 else 0

def offset (plan : FragmentPlan) (index : ℕ) : ℕ :=
  index * plan.baseSize + min index plan.largerFragments

theorem offset_zero (plan : FragmentPlan) : plan.offset 0 = 0 := by
  simp [offset]

theorem offset_succ (plan : FragmentPlan) (index : ℕ) :
    plan.offset (index + 1) = plan.offset index + plan.fragmentSize index := by
  unfold offset fragmentSize
  rw [Nat.add_mul, Nat.one_mul]
  split <;> omega

theorem offset_mono (plan : FragmentPlan) : Monotone plan.offset :=
  monotone_nat_of_le_succ fun index => by
    rw [offset_succ]
    exact Nat.le_add_right _ _

end FragmentPlan

/-- What a plan for `size` bytes guarantees. -/
structure FragmentPlan.Splits (plan : FragmentPlan) (size limit : ℕ) : Prop where
  count_pos : 0 < plan.count
  count_le : plan.count ≤ limit
  base_pos : 0 < plan.baseSize
  offset_count : plan.offset plan.count = size

theorem makeFragmentPlan_splits {size maximum limit : ℕ} {plan : FragmentPlan}
    (h : makeFragmentPlan size maximum limit = .ok plan) : plan.Splits size limit := by
  unfold makeFragmentPlan at h
  split at h
  · cases h
  next hvalid =>
  push Not at hvalid
  dsimp only at h
  generalize hcount : (size + maximum - 1) % 2 ^ 64 / maximum = count at h
  split at h
  · cases h
  next hlimit =>
  split at h
  · cases h
  next hpos =>
  cases h
  have hcountPos : 0 < count := Nat.pos_of_ne_zero hpos
  have hle : count ≤ size := by
    rw [← hcount]
    have hmod := Nat.mod_le (size + maximum - 1) (2 ^ 64)
    refine (Nat.div_le_div_right hmod).trans ?_
    refine Nat.div_le_of_le_mul ?_
    obtain ⟨k, rfl⟩ := Nat.exists_eq_succ_of_ne_zero hvalid.1
    obtain ⟨m, rfl⟩ := Nat.exists_eq_succ_of_ne_zero hvalid.2
    rw [show k.succ + m.succ - 1 = k + m + 1 by omega]
    nlinarith [Nat.zero_le (m * k)]
  refine ⟨hcountPos, not_lt.mp hlimit, Nat.div_pos hle hcountPos, ?_⟩
  have hmod := Nat.mod_lt size hcountPos
  rw [FragmentPlan.offset, min_eq_right hmod.le]
  exact Nat.div_add_mod size count

theorem makeFragmentPlan_ok {size maximum limit : ℕ} (hpos : 0 < size) (hmaximum : 0 < maximum)
    (hwrap : size + maximum < 2 ^ 64) (hlimit : size ≤ limit * maximum) :
    ∃ plan, makeFragmentPlan size maximum limit = .ok plan ∧
      plan.count = (size + maximum - 1) / maximum ∧ plan.baseSize = size / plan.count ∧
      plan.largerFragments = size % plan.count ∧ size ≤ plan.count * maximum := by
  have hmod : (size + maximum - 1) % 2 ^ 64 = size + maximum - 1 := Nat.mod_eq_of_lt (by omega)
  have hcount : (size + maximum - 1) / maximum ≤ limit := by
    rw [← Nat.lt_succ_iff, Nat.div_lt_iff_lt_mul hmaximum, Nat.succ_mul]
    omega
  have hpositive : 0 < (size + maximum - 1) / maximum := Nat.div_pos (by omega) hmaximum
  have hcovers : size ≤ (size + maximum - 1) / maximum * maximum := by
    have := Nat.div_add_mod (size + maximum - 1) maximum
    have := Nat.mod_lt (size + maximum - 1) hmaximum
    rw [Nat.mul_comm]
    omega
  refine ⟨⟨_, size / ((size + maximum - 1) / maximum), size % ((size + maximum - 1) / maximum)⟩,
    ?_, rfl, rfl, rfl, hcovers⟩
  rw [makeFragmentPlan, if_neg (by omega)]
  dsimp only
  rw [hmod, if_neg (Nat.not_lt.mpr hcount), if_neg hpositive.ne']

theorem FragmentPlan.fragmentSize_le {plan : FragmentPlan} {size maximum : ℕ}
    (hbase : plan.baseSize = size / plan.count) (hlarger : plan.largerFragments = size % plan.count)
    (hcovers : size ≤ plan.count * maximum) (index : ℕ) : plan.fragmentSize index ≤ maximum := by
  have hdiv := Nat.div_add_mod size plan.count
  rw [fragmentSize, hbase]
  split
  next hindex =>
    -- a remainder is left, so that the quotient is below the maximum
    rw [hlarger] at hindex
    have hlt : plan.count * (size / plan.count) < plan.count * maximum := by omega
    exact Nat.lt_of_mul_lt_mul_left hlt
  next => exact Nat.div_le_of_le_mul hcovers

/-! ### The fragment loop -/

section Loop
variable (plan : FragmentPlan) (type : PacketType) (tunnelId : UInt16) (messageId : UInt64)
  (payload : Bytes)

/-- The fragment the loop builds at `offset`; its sequence is set when it is encoded. -/
def fragmentAt (index offset : ℕ) : Packet :=
  { type := type
    tunnelId := tunnelId
    messageId := messageId
    fragmentOffset := UInt32.ofNat offset
    originalLength := UInt32.ofNat payload.length
    payload := (payload.drop offset).take (plan.fragmentSize index) }

/-- The loop of `Tunnel::send_data`, with the iterations that are left. -/
def fragmentLoop : ℕ → ℕ → ℕ → List Packet
  | 0, _, _ => []
  | left + 1, index, offset =>
    fragmentAt plan type tunnelId messageId payload index offset ::
      fragmentLoop left (index + 1) (offset + plan.fragmentSize index)

theorem length_fragmentLoop (left index offset : ℕ) :
    (fragmentLoop plan type tunnelId messageId payload left index offset).length = left := by
  induction left generalizing index offset with
  | zero => rfl
  | succ left ih => exact congrArg Nat.succ (ih _ _)

theorem fragmentLoop_getElem? (left index k : ℕ) (hk : k < left) :
    (fragmentLoop plan type tunnelId messageId payload left index (plan.offset index))[k]? =
      some (fragmentAt plan type tunnelId messageId payload (index + k)
        (plan.offset (index + k))) := by
  induction left generalizing index k with
  | zero => exact absurd hk (Nat.not_lt_zero k)
  | succ left ih =>
    cases k with
    | zero => rfl
    | succ k =>
      rw [fragmentLoop, List.getElem?_cons_succ, ← plan.offset_succ,
        ih (index + 1) k (Nat.lt_of_succ_lt_succ hk), Nat.add_right_comm, Nat.add_assoc]

end Loop

structure Message where
  type : PacketType
  tunnelId : UInt16
  messageId : UInt64
  payload : Bytes
  /-- The payload limit of a fragment. -/
  sizeLimit : ℕ
  plan : FragmentPlan
  carries : type.carriesFragments
  id_ne_zero : messageId ≠ 0
  length_le : payload.length ≤ type.limit
  planned : makeFragmentPlan payload.length sizeLimit type.fragmentLimit = .ok plan

namespace Message
variable (m : Message)

/-- The fragment with the given number. -/
def fragment (index : ℕ) : Packet :=
  fragmentAt m.plan m.type m.tunnelId m.messageId m.payload index (m.plan.offset index)

theorem splits : m.plan.Splits m.payload.length m.type.fragmentLimit :=
  makeFragmentPlan_splits m.planned

theorem limit_lt : m.type.limit < 2 ^ 32 := by
  unfold PacketType.limit
  split <;> decide

theorem length_lt : m.payload.length < 2 ^ 32 := m.length_le.trans_lt m.limit_lt

theorem offset_le {index : ℕ} (h : index ≤ m.plan.count) : m.plan.offset index ≤ m.payload.length :=
  (m.plan.offset_mono h).trans_eq m.splits.offset_count

theorem toNat_originalLength (index : ℕ) :
    (m.fragment index).originalLength.toNat = m.payload.length :=
  UInt32.toNat_ofNat_of_lt' m.length_lt

theorem toNat_fragmentOffset {index : ℕ} (h : index ≤ m.plan.count) :
    (m.fragment index).fragmentOffset.toNat = m.plan.offset index :=
  UInt32.toNat_ofNat_of_lt' ((m.offset_le h).trans_lt m.length_lt)

theorem length_fragment {index : ℕ} (h : index < m.plan.count) :
    (m.fragment index).payload.length = m.plan.fragmentSize index := by
  have hend := m.offset_le (show index + 1 ≤ m.plan.count from h)
  rw [FragmentPlan.offset_succ] at hend
  rw [fragment, fragmentAt, List.length_take, List.length_drop]
  omega

theorem fragmentSize_pos (index : ℕ) : 0 < m.plan.fragmentSize index :=
  Nat.add_pos_left m.splits.base_pos _

theorem offset_strictMono : StrictMono m.plan.offset :=
  strictMono_nat_of_lt_succ fun index => by
    rw [FragmentPlan.offset_succ]
    exact Nat.lt_add_of_pos_right (m.fragmentSize_pos index)

theorem total_fragments : ∑ i ∈ Finset.range m.plan.count, m.plan.fragmentSize i =
    m.payload.length := by
  have hsum : ∀ n, ∑ i ∈ Finset.range n, m.plan.fragmentSize i = m.plan.offset n := by
    intro n
    induction n with
    | zero => exact m.plan.offset_zero.symm
    | succ n ih => rw [Finset.sum_range_succ, ih, FragmentPlan.offset_succ]
  rw [hsum, m.splits.offset_count]

end Message

def Packet.piece (p : Packet) : Piece UInt8 := ⟨p.fragmentOffset.toNat, p.payload⟩

namespace Message
variable (m : Message)

theorem finish_fragment {index : ℕ} (h : index < m.plan.count) :
    (m.fragment index).piece.finish = m.plan.offset (index + 1) := by
  rw [FragmentPlan.offset_succ, Piece.finish, Packet.piece, m.length_fragment h,
    m.toNat_fragmentOffset h.le]

theorem fragment_agrees {index : ℕ} (h : index < m.plan.count) :
    Piece.Agrees m.payload (m.fragment index).piece := by
  intro pos hlow hhigh
  rw [m.finish_fragment h, FragmentPlan.offset_succ] at hhigh
  have hoffset : (m.fragment index).piece.offset = m.plan.offset index :=
    m.toNat_fragmentOffset h.le
  rw [hoffset] at hlow ⊢
  change _ = ((m.payload.drop _).take _)[pos - m.plan.offset index]?
  rw [List.getElem?_take_of_lt (by omega), List.getElem?_drop, Nat.add_sub_cancel' hlow]

end Message

end Tuntom
