import Tuntom.ControlRouter

/-! The codec of routed control frames in both directions, what the discovery proof covers, and the
text of a path. -/
namespace Tuntom.ControlRoute
open List
open Control (Id zeroBlock proofSize challengeSize controlMaxBody)

namespace Frame

/-- `decode` with its output argument, which is written at the end only. -/
def decodeInto (b : Bytes) (output : Frame) : Bool × Frame :=
  match decode b with
  | some f => (true, f)
  | none => (false, output)

theorem bytes_of_decode {b : Bytes} {f : Frame} (h : decode b = some f) : f.bytes = b := by
  obtain ⟨hread, -⟩ := Option.filter_eq_some_iff.mp h
  rw [read] at hread
  split at hread
  next => cases hread
  next hpass =>
  split at hread
  next => cases hread
  next kind hkind =>
  dsimp only at hread
  split at hread
  next => cases hread
  next hfits =>
  rw [readBody] at hread
  split at hread
  next dest back hdest hback =>
    simp only [not_or, not_lt, not_not, headerSize] at hpass hfits
    obtain ⟨hlong, -, hversion⟩ := hpass
    obtain ⟨-, -, hroom⟩ := hfits
    obtain ⟨-, hdest⟩ := decodePath_sound hdest
    obtain ⟨-, hback⟩ := decodePath_sound hback
    rw [headerSize] at hdest hback
    have hcommand := length_field (by omega : 52 + (loadBe16 b 50).toNat +
      (loadBe16 b 46).toNat + (loadBe16 b 48).toNat + (loadBe16 b 44).toNat ≤ b.length)
    have hauth := length_field (by omega : 52 + (loadBe16 b 50).toNat ≤ b.length)
    cases hread
    simp only [bytes, header, lengths, body, headerSize, hdest, hback, hcommand, hauth,
      Kind.toByte_of_ofByte hkind, toList_block (length_field (by omega : 4 + 16 ≤ b.length)),
      toList_block (length_field (by omega : 20 + 16 ≤ b.length)), UInt16.ofNat_toNat,
      length_field (by omega : 52 + (loadBe16 b 50).toNat + (loadBe16 b 46).toNat ≤ b.length),
      length_field (by omega : 52 + (loadBe16 b 50).toNat + (loadBe16 b 46).toNat +
        (loadBe16 b 48).toNat ≤ b.length)]
    rw [storeBe32_load (by omega), storeBe32_load (by omega), storeBe16_load (by omega),
      storeBe16_load (by omega), storeBe16_load (by omega), storeBe16_load (by omega)]
    simp only [append_assoc, cons_append, nil_append]
    rw [field_append_drop, field_append_drop, field_append_drop, field_append_drop,
      field_append_drop, field_append_drop, field_append_drop, field_append_drop,
      field_append_drop, field_append_drop, field_append_drop, field_append_drop,
      getD_cons_drop (by omega), getD_cons_drop (by omega)]
    exact head_two (by omega) hversion rfl
  next => cases hread

theorem encode_of_decode {b : Bytes} {f : Frame} (h : decode b = some f) : f.encode = some b := by
  rw [encode_of (decode_sound h).1, bytes_of_decode h]

def SameDiscovery (f g : Frame) : Prop :=
  f.kind = g.kind ∧ f.state = g.state ∧ f.request = g.request ∧ f.origin = g.origin ∧
    f.offset = g.offset ∧ f.total = g.total ∧ f.command = g.command ∧ f.data = g.data

/-- The frame that `discovery_canonical` encodes. -/
def settled (f : Frame) : Frame :=
  { f with auth := [], destination := [], replyPath := [], remaining := 16 }

theorem settled_eq_iff {f g : Frame} : f.settled = g.settled ↔ SameDiscovery f g := by
  simp only [settled, SameDiscovery, mk.injEq]
  tauto

theorem discoveryCanonical_eq_iff {f g : Frame} {b c : Bytes} (hf : f.discoveryCanonical = some b)
    (hg : g.discoveryCanonical = some c) : b = c ↔ SameDiscovery f g := by
  obtain ⟨bf, hbf, rfl⟩ := Option.map_eq_some_iff.mp hf
  obtain ⟨bg, hbg, rfl⟩ := Option.map_eq_some_iff.mp hg
  have hf := decode_encode hbf
  have hg := decode_encode hbg
  rw [append_cancel_left_eq, ← settled_eq_iff]
  constructor
  · intro heq
    rw [heq, hg] at hf
    exact (Option.some.inj hf).symm
  · intro heq
    have hbytes : encode f.settled = encode g.settled := by rw [heq]
    exact Option.some.inj (hbf.symm.trans (hbytes.trans hbg))

end Frame

/-! ### The text of a path -/

/-- `path_text`; none where `encode_path` throws. -/
def pathText (path : Path) : Option Bytes :=
  if Stackable path then
    some (if pathBytes path = [] then ascii "-"
      else (pathBytes path).flatMap (hexDigits "0123456789abcdef"))
  else none

def readHex : Bytes → Option Bytes
  | [] => some []
  | [_] => none
  | high :: low :: rest =>
    match (ascii "0123456789abcdef").idxOf? high, (ascii "0123456789abcdef").idxOf? low with
    | some h, some l => (readHex rest).map (UInt8.ofNat (h * 16 + l) :: ·)
    | _, _ => none

/-- `parse_path`; none where it throws. -/
def parsePath (text : Bytes) : Option Path :=
  if text = ascii "-" then some []
  else if text = [] ∨ text.length % 2 ≠ 0 ∨ 2 * maxStackBytes < text.length then none
  else (readHex text).bind decodePath

theorem idxOf_digit (n : Fin 16) :
    (ascii "0123456789abcdef").idxOf? ((ascii "0123456789abcdef").getD n 0) = some n.val := by
  revert n
  decide

theorem readHex_text (b : Bytes) : readHex (b.flatMap (hexDigits "0123456789abcdef")) = some b := by
  induction b with
  | nil => rfl
  | cons byte b ih =>
    have hlt := byte.toNat_lt
    have hhigh := idxOf_digit ⟨byte.toNat / 16, by omega⟩
    have hlow := idxOf_digit ⟨byte.toNat % 16, by omega⟩
    have hbyte : UInt8.ofNat (byte.toNat / 16 * 16 + byte.toNat % 16) = byte := by
      rw [Nat.div_add_mod', UInt8.ofNat_toNat]
    simp only [flatMap_cons, hexDigits, cons_append, nil_append, readHex]
    dsimp only at hhigh hlow
    rw [hhigh, hlow]
    dsimp only
    rw [ih, hbyte]
    rfl

theorem length_hexText (b : Bytes) :
    (b.flatMap (hexDigits "0123456789abcdef")).length = 2 * b.length := by
  induction b with
  | nil => rfl
  | cons byte b ih =>
    rw [flatMap_cons, length_append, ih]
    simp only [hexDigits, length_cons, length_nil]
    omega

theorem parsePath_text {path : Path} {text : Bytes} (h : pathText path = some text) :
    parsePath text = some path := by
  rw [pathText] at h
  split at h
  next hpath =>
    have hdecode := decodePath_bytes hpath
    have htext := Option.some.inj h
    split at htext
    next hempty =>
      rw [hempty] at hdecode
      rw [← htext, parsePath, if_pos rfl]
      exact hdecode
    next hne =>
    have hlength : text.length = 2 * (pathBytes path).length := by
      rw [← htext, length_hexText]
    have hpos := length_pos_iff.mpr hne
    have hdash : text ≠ ascii "-" := by
      rintro rfl
      change 1 = _ at hlength
      omega
    have hsize := hpath.2.2
    rw [parsePath, if_neg hdash, if_neg, ← htext, readHex_text]
    · exact hdecode
    · rw [← length_eq_zero_iff]
      omega
  · cases h

/-- The codec of routed control frames is a bijection between the frames it encodes and the byte
strings it accepts, the discovery proof covers exactly the fields that are no transport state, and
the text of a path is read back. -/
theorem control_route_codec :
    (∀ f b, Frame.encode f = some b → Frame.decode b = some f) ∧
    (∀ b f, Frame.decode b = some f → Frame.encode f = some b) ∧
    (∀ b output f, Frame.decodeInto b output = (false, f) → f = output) ∧
    (∀ f g b c, Frame.discoveryCanonical f = some b → Frame.discoveryCanonical g = some c →
      (b = c ↔ Frame.SameDiscovery f g)) ∧
    ∀ path, Stackable path → ∃ text, pathText path = some text ∧ parsePath text = some path := by
  refine ⟨fun f b => Frame.decode_encode, fun b f => Frame.encode_of_decode, ?_,
    fun f g b c => Frame.discoveryCanonical_eq_iff, ?_⟩
  · intro b output f h
    rw [Frame.decodeInto] at h
    split at h
    · cases h
    · cases h
      rfl
  · intro path hpath
    have htext : pathText path = some _ := if_pos hpath
    exact ⟨_, htext, parsePath_text htext⟩

end Tuntom.ControlRoute
