import Tuntom.Overwrite
import Tuntom.SwitchRuleset

/-! Label frames of `ipc/switch_protocol.hpp`, and the rewriting of a frame in its own buffer. -/
namespace Tuntom
open Overwrite List

namespace Ipc

def switchProtocolVersion : UInt8 := 1
def switchMaxPortIdSize : ℕ := 63

/-- `byte < 0x21 or byte > 0x7e` is refused in a port ID. -/
def validIdByte (byte : UInt8) : Bool := 0x21 ≤ byte ∧ byte ≤ 0x7e

/-- `encode_switch_registration`; none where it throws. -/
def encodeSwitchRegistration (portId : Bytes) : Option Bytes :=
  if portId = [] ∨ switchMaxPortIdSize < portId.length then none
  else if ¬portId.all validIdByte then none
  else some (ascii "TTP" ++ [switchProtocolVersion, UInt8.ofNat portId.length, 0, 0, 0] ++ portId)

end Ipc

def switchBaseHeaderSize : ℕ := 8
def switchLabelSize : ℕ := 8

inductive SwitchOpcode
  | switchPacket | exitPacket
  deriving DecidableEq, Repr

def SwitchOpcode.toByte : SwitchOpcode → UInt8
  | .switchPacket => 1
  | .exitPacket => 2

def SwitchOpcode.ofByte (b : UInt8) : Option SwitchOpcode :=
  [switchPacket, exitPacket].find? fun o => o.toByte == b

@[simp] theorem SwitchOpcode.ofByte_toByte (o : SwitchOpcode) : ofByte o.toByte = some o := by
  cases o <;> rfl

/-- `SwitchFrameView`, which points into the buffer of the frame. -/
structure SwitchFrameView where
  opcode : SwitchOpcode := .switchPacket
  labels : ℕ := 0
  labelCount : ℕ := 0
  payload : ℕ := 0
  payloadSize : ℕ := 0
  deriving DecidableEq, Repr

namespace SwitchFrameView

def label (frame : SwitchFrameView) (data : Bytes) (index : ℕ) : UInt64 :=
  loadBe64 data (frame.labels + index * switchLabelSize)

def labelStack (frame : SwitchFrameView) (data : Bytes) : Labels :=
  (List.range frame.labelCount).map (frame.label data)

def payloadBytes (frame : SwitchFrameView) (data : Bytes) : Bytes :=
  field data frame.payload frame.payloadSize

end SwitchFrameView

def decodeSwitchFrame (data : Bytes) : Option SwitchFrameView :=
  if data.length < switchBaseHeaderSize ∨ data.getD 0 0 ≠ Ipc.switchProtocolVersion ∨
      data.getD 2 0 ≠ 0 then none
  else
    match SwitchOpcode.ofByte (data.getD 1 0) with
    | none => none
    | some opcode =>
      let labelCount := (data.getD 3 0).toNat
      if labelCount = 0 ∨ switchMaxLabels < labelCount then none
      else
        let totalLength := (loadBe32 data 4).toNat
        let headerSize := switchBaseHeaderSize + labelCount * switchLabelSize
        if totalLength ≠ data.length ∨ data.length < headerSize then none
        else if data.length - headerSize = 0 then none
        else some
          { opcode := opcode
            labels := switchBaseHeaderSize
            labelCount := labelCount
            payload := headerSize
            payloadSize := data.length - headerSize }

/-- The header that `encode_switch_header` writes. -/
def switchHeader (opcode : SwitchOpcode) (labels : Labels) (size : ℕ) : Bytes :=
  [Ipc.switchProtocolVersion, opcode.toByte, 0, UInt8.ofNat labels.length] ++
    (storeBe32 (UInt32.ofNat size) ++ labels.flatMap storeBe64)

/-- `encode_switch_frame`; none where it throws. -/
def encodeSwitchFrame (opcode : SwitchOpcode) (labels : Labels) (payload : Bytes) : Option Bytes :=
  let headerSize := switchBaseHeaderSize + labels.length * switchLabelSize
  if labels.length = 0 ∨ switchMaxLabels < labels.length ∨ payload.length = 0 then none
  else if 4294967295 - headerSize < payload.length then none
  else some (switchHeader opcode labels (headerSize + payload.length) ++ payload)

/-- `rewrite_rules_frame` on the buffer `data`, with the new size of the frame. -/
def rewriteRulesFrame (data : Bytes) (frame : SwitchFrameView) (labels : Labels) (exit : Bool) :
    Bytes × ℕ :=
  let header := switchBaseHeaderSize + labels.length * switchLabelSize
  let data := move data header frame.payload frame.payloadSize
  let data := labels.zipIdx.foldl (fun data (label, i) =>
    write data (switchBaseHeaderSize + i * switchLabelSize) (storeBe64 label)) data
  let opcode : SwitchOpcode := if exit then .exitPacket else .switchPacket
  let data := write data 1 [opcode.toByte]
  let data := write data 3 [UInt8.ofNat labels.length]
  let size := header + frame.payloadSize
  (write data 4 (storeBe32 (UInt32.ofNat size)), size)

/-! ### Frames -/

theorem length_flatMap_storeBe64 (labels : Labels) :
    (labels.flatMap storeBe64).length = labels.length * 8 := by
  induction labels with
  | nil => rfl
  | cons label labels ih =>
    rw [flatMap_cons, length_append, ih, length_storeBe64, length_cons]
    omega

theorem length_switchHeader (opcode : SwitchOpcode) (labels : Labels) (size : ℕ) :
    (switchHeader opcode labels size).length = 8 + labels.length * 8 := by
  rw [switchHeader, length_append, length_append, length_flatMap_storeBe64]
  simp only [length_cons, length_nil, length_storeBe32]
  omega

theorem loadBe64_labels {front back : Bytes} (labels : Labels) :
    (List.range labels.length).map (fun i =>
      loadBe64 (front ++ (labels.flatMap storeBe64 ++ back)) (front.length + i * 8)) = labels := by
  induction labels generalizing front with
  | nil => rfl
  | cons label labels ih =>
    have hrest := @ih (front ++ storeBe64 label)
    rw [length_append, length_storeBe64, append_assoc] at hrest
    rw [length_cons, range_succ_eq_map, map_cons, map_map, flatMap_cons,
      append_assoc]
    congr 1
    · rw [Nat.zero_mul, Nat.add_zero]
      exact loadBe64_store label rfl
    · refine Eq.trans (map_congr_left fun i _ => ?_) hrest
      rw [Function.comp_apply, Nat.succ_mul, Nat.add_comm (i * 8), Nat.add_assoc]

theorem decodeSwitchFrame_encode {opcode : SwitchOpcode} {labels : Labels} {payload b : Bytes}
    (h : encodeSwitchFrame opcode labels payload = some b) :
    ∃ frame, decodeSwitchFrame b = some frame ∧ frame.opcode = opcode ∧
      frame.labelStack b = labels ∧ frame.payloadBytes b = payload ∧
      frame.payloadSize = payload.length := by
  rw [encodeSwitchFrame] at h
  split at h
  · cases h
  next hcount =>
  split at h
  · cases h
  next hroom =>
  simp only [not_or, not_lt, switchBaseHeaderSize, switchLabelSize, switchMaxLabels]
    at hcount hroom
  obtain ⟨hsome, hmost, hpayload⟩ := hcount
  have hb := (Option.some.inj h).symm
  have hlength : b.length = 8 + labels.length * 8 + payload.length := by
    rw [hb, length_append, length_switchHeader]
  have hbytes : field b (8 + labels.length * 8) payload.length = payload := by
    rw [hb]
    exact field_last (length_switchHeader ..) rfl
  simp only [switchHeader, append_assoc] at hb
  have hversion : b.getD 0 0 = Ipc.switchProtocolVersion := by rw [hb]; rfl
  have hopcode : b.getD 1 0 = opcode.toByte := by rw [hb]; rfl
  have hzero : b.getD 2 0 = 0 := by rw [hb]; rfl
  have hlabels : (b.getD 3 0).toNat = labels.length := by
    rw [hb]
    exact UInt8.toNat_ofNat_of_lt' (hmost.trans_lt (by decide))
  have htotal : (loadBe32 b 4).toNat = b.length := by
    have hload : loadBe32 b 4 = UInt32.ofNat (8 + labels.length * 8 + payload.length) := by
      rw [hb]
      exact loadBe32_store _ rfl
    rw [hload, hlength]
    refine UInt32.toNat_ofNat_of_lt' ?_
    change _ < 4294967296
    omega
  have hstack : (List.range labels.length).map (fun i => loadBe64 b (8 + i * 8)) = labels := by
    rw [hb, ← append_assoc _ (storeBe32 _)]
    exact loadBe64_labels labels
  refine ⟨⟨opcode, 8, labels.length, 8 + labels.length * 8, payload.length⟩, ?_, rfl, hstack,
    hbytes, rfl⟩
  rw [decodeSwitchFrame, if_neg, hopcode, SwitchOpcode.ofByte_toByte]
  · simp only [hlabels, htotal, switchBaseHeaderSize, switchLabelSize, switchMaxLabels]
    rw [if_neg (by omega), if_neg (by omega), if_neg (by omega), hlength, Nat.add_sub_cancel_left]
  · simp only [hversion, hzero, switchBaseHeaderSize]
    simp only [ne_eq, not_true_eq_false, or_false]
    omega

theorem decodeSwitchFrame_eq_some {data : Bytes} {frame : SwitchFrameView}
    (h : decodeSwitchFrame data = some frame) :
    data.getD 0 0 = Ipc.switchProtocolVersion ∧ data.getD 2 0 = 0 ∧ 8 ≤ frame.payload ∧
      0 < frame.payloadSize ∧ frame.payload + frame.payloadSize = data.length := by
  rw [decodeSwitchFrame] at h
  split at h
  · cases h
  next hhead =>
  split at h
  · cases h
  dsimp only at h
  split at h
  · cases h
  split at h
  · cases h
  next hlength =>
  split at h
  · cases h
  next hsome =>
  simp only [not_or, not_lt, not_not] at hhead hlength
  cases h
  refine ⟨hhead.2.1, hhead.2.2, Nat.le_add_right _ _, ?_, ?_⟩
  · exact Nat.pos_of_ne_zero hsome
  · dsimp only
    omega

/-! ### Rewriting in place -/

theorem foldl_write_labels {data done : Bytes} {labels : Labels} {n : ℕ}
    (hdone : done.length = n * 8) (h : 8 + (n + labels.length) * 8 ≤ data.length) :
    (labels.zipIdx n).foldl (fun data (label, i) =>
        write data (switchBaseHeaderSize + i * switchLabelSize) (storeBe64 label))
      (write data 8 done) = write data 8 (done ++ labels.flatMap storeBe64) := by
  induction labels generalizing done n with
  | nil => simp
  | cons label labels ih =>
    rw [length_cons] at h
    have hnext : write (write data 8 done) (switchBaseHeaderSize + n * switchLabelSize)
        (storeBe64 label) = write data 8 (done ++ storeBe64 label) := by
      rw [switchBaseHeaderSize, switchLabelSize, ← hdone, write_write (by omega)]
    rw [zipIdx_cons, foldl_cons]
    dsimp only
    rw [hnext]
    have hrest := @ih (done ++ storeBe64 label) (n + 1)
      (by rw [length_append, hdone, length_storeBe64]; omega) (by omega)
    rw [flatMap_cons, ← append_assoc]
    exact hrest

theorem write_head {head rest : Bytes} (hhead : head.length = 8) (opcode count : UInt8)
    (size : UInt32) :
    write (write (write (head ++ rest) 1 [opcode]) 3 [count]) 4 (storeBe32 size) =
      [head.getD 0 0, opcode, head.getD 2 0, count] ++ (storeBe32 size ++ rest) := by
  match head, hhead with
  | [_, _, _, _, _, _, _, _], _ => simp [write]

theorem move_payload {data : Bytes} {source size count : ℕ} (hsource : source + size ≤ data.length) :
    move data (8 + count * 8) source size =
      data.take 8 ++ (field data 8 (count * 8) ++
        (field data source size ++ data.drop (8 + count * 8 + size))) := by
  have hlength : (field data source size).length = size := length_field hsource
  rw [move, write, take_field, append_assoc]
  change _ ++ (_ ++ (field data source size ++
    List.drop (8 + count * 8 + (field data source size).length) data)) = _
  rw [hlength]

theorem rewriteRulesFrame_eq {data : Bytes} {frame : SwitchFrameView} {labels : Labels} (exit : Bool)
    (hsource : frame.payload + frame.payloadSize ≤ data.length)
    (hroom : 8 + labels.length * 8 + frame.payloadSize ≤ data.length) :
    rewriteRulesFrame data frame labels exit =
      ([(data.take 8).getD 0 0, (if exit then SwitchOpcode.exitPacket else .switchPacket).toByte,
          (data.take 8).getD 2 0, UInt8.ofNat labels.length] ++
        (storeBe32 (UInt32.ofNat (8 + labels.length * 8 + frame.payloadSize)) ++
          (labels.flatMap storeBe64 ++ (field data frame.payload frame.payloadSize ++
            data.drop (8 + labels.length * 8 + frame.payloadSize)))),
        8 + labels.length * 8 + frame.payloadSize) := by
  have height : (data.take 8).length = 8 := length_take_of_le (by omega)
  have hmove := @move_payload data frame.payload frame.payloadSize labels.length hsource
  have hfield := length_field (by omega : 8 + labels.length * 8 ≤ data.length)
  have hlength : (move data (8 + labels.length * 8) frame.payload frame.payloadSize).length =
      data.length := by
    refine length_write ?_
    rw [length_take, length_drop]
    omega
  have hlabelled := @foldl_write_labels (move data (8 + labels.length * 8) frame.payload
    frame.payloadSize) [] labels 0 rfl (by rw [hlength]; omega)
  rw [write_nil, nil_append] at hlabelled
  rw [rewriteRulesFrame]
  dsimp only
  change (write (write (write (List.foldl _ (move data (8 + labels.length * 8) _ _) _) _ _) _ _) _ _,
    _) = _
  rw [hlabelled, hmove, write_append height (by rw [hfield, length_flatMap_storeBe64]),
    write_head height]
  rfl

/-- Rewriting a frame in its buffer gives the bytes of the frame with the new labels. -/
theorem rewriteRulesFrame_spec {data : Bytes} {size : ℕ} {frame : SwitchFrameView} {labels : Labels}
    (exit : Bool) (hsize : size ≤ data.length)
    (hframe : decodeSwitchFrame (data.take size) = some frame)
    (hpayload : frame.payloadSize ≤ 65535) (hlabels : labels.length ≠ 0)
    (hmost : labels.length ≤ switchMaxLabels)
    (hroom : 8 + labels.length * 8 + frame.payloadSize ≤ data.length) :
    (rewriteRulesFrame data frame labels exit).2 = 8 + labels.length * 8 + frame.payloadSize ∧
      (rewriteRulesFrame data frame labels exit).1.length = data.length ∧
      encodeSwitchFrame (if exit then .exitPacket else .switchPacket) labels
          (frame.payloadBytes (data.take size)) =
        some ((rewriteRulesFrame data frame labels exit).1.take
          (rewriteRulesFrame data frame labels exit).2) := by
  obtain ⟨hversion, hzero, hfront, hpos, hend⟩ := decodeSwitchFrame_eq_some hframe
  rw [length_take_of_le hsize] at hend
  have hbytes : frame.payloadBytes (data.take size) = field data frame.payload frame.payloadSize := by
    rw [SwitchFrameView.payloadBytes, field, drop_take, take_take, field,
      min_eq_left (by omega)]
  have hlength : (field data frame.payload frame.payloadSize).length = frame.payloadSize :=
    length_field (by omega)
  have hhead : ∀ i < 8, (data.take 8).getD i 0 = (data.take size).getD i 0 := by
    intro i hi
    simp only [getD_eq_getElem?_getD, List.getElem?_take]
    rw [if_pos hi, if_pos (by omega)]
  rw [hbytes, rewriteRulesFrame_eq exit (by omega) hroom, hhead 0 (by omega), hhead 2 (by omega),
    hversion, hzero]
  refine ⟨rfl, ?_, ?_⟩
  · simp only [length_append, length_cons, length_nil, length_storeBe32, hlength,
      length_flatMap_storeBe64, length_drop]
    omega
  · rw [encodeSwitchFrame, if_neg, if_neg]
    · rw [hlength, ← append_assoc, ← append_assoc, ← append_assoc]
      rw [take_left']
      · rw [switchHeader]
        simp only [append_assoc]
        rfl
      · simp only [length_append, length_cons, length_nil, length_storeBe32, hlength,
          length_flatMap_storeBe64]
    · rw [hlength, switchBaseHeaderSize, switchLabelSize]
      rw [switchMaxLabels] at hmost
      omega
    · rw [hlength]
      omega

end Tuntom
