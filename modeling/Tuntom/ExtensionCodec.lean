import Tuntom.TunnelGate

/-! The codec of the V5 session extension messages: a message that is accepted is the one its value
encodes to, and which of the encoded values are read back. -/
namespace Tuntom
open List

/-! ### Fields of a byte string -/

@[simp] theorem loadBe16_cons (byte : UInt8) (data : Bytes) (offset : ℕ) :
    loadBe16 (byte :: data) (offset + 1) = loadBe16 data offset := rfl

@[simp] theorem loadBe32_cons (byte : UInt8) (data : Bytes) (offset : ℕ) :
    loadBe32 (byte :: data) (offset + 1) = loadBe32 data offset := rfl

@[simp] theorem loadBe64_cons (byte : UInt8) (data : Bytes) (offset : ℕ) :
    loadBe64 (byte :: data) (offset + 1) = loadBe64 data offset := rfl

@[simp] theorem loadBe64_last (v : UInt64) : loadBe64 (storeBe64 v) 0 = v := by
  rw [← append_nil (storeBe64 v), loadBe64_front]

/-! ### Messages that are accepted -/

theorem AuthMethod.toByte_of_ofByte {b : UInt8} {m : AuthMethod} (h : ofByte b = some m) :
    m.toByte = b := by
  rw [ofByte] at h
  split at h
  next hb =>
    cases h
    exact hb.symm
  · cases h

variable {b : Bytes} {id : UInt64}

theorem AuthChallenge.encode_of_decode {v : AuthChallenge} (h : AuthChallenge.decode b = some v) :
    v.encode = b := by
  rw [decode] at h
  split at h
  · cases h
  next hhead =>
  split at h
  · cases h
  next method hmethod =>
  dsimp only at h
  split at h
  · cases h
  next hsizes =>
  simp only [not_or, not_lt, not_not] at hhead hsizes
  obtain ⟨hlong, hformat, hzero⟩ := hhead
  obtain ⟨hid, hlifetime, hn, hlength⟩ := hsizes
  cases h
  have hdrop : (b.drop 20).length = (loadBe32 b 16).toNat := by
    rw [length_drop]
    omega
  rw [encode, if_neg]
  · simp only [AuthMethod.toByte_of_ofByte hmethod, ← hzero, hdrop, UInt32.ofNat_toNat]
    rw [storeBe16_load (by omega), storeBe64_load (by omega), storeBe32_load (by omega),
      storeBe32_load (by omega)]
    simp only [append_assoc, cons_append, nil_append]
    rw [field_append_drop, field_append_drop, field_append_drop, field_append_drop]
    exact head_two (by omega) hformat rfl
  · simp only [hdrop, not_or, not_lt]
    exact ⟨hid, hlifetime, hn⟩

theorem AuthResponse.encode_of_decode {v : AuthResponse} (h : AuthResponse.decode b = some v) :
    v.encode = b := by
  rw [decode] at h
  split at h
  · cases h
  next hhead =>
  split at h
  · cases h
  next method hmethod =>
  dsimp only at h
  split at h
  · cases h
  next hsizes =>
  split at h
  · cases h
  simp only [not_or, not_lt, not_not] at hhead hsizes
  obtain ⟨hlong, hformat, hzero⟩ := hhead
  obtain ⟨hid, hun, hrn, hlength⟩ := hsizes
  cases h
  have hname : (field b 16 (b.getD 2 0).toNat).length = (b.getD 2 0).toNat :=
    length_field (by omega)
  have hdrop : (b.drop (16 + (b.getD 2 0).toNat)).length = (loadBe32 b 12).toNat := by
    rw [length_drop]
    omega
  have hbyte := (b.getD 2 0).toNat_lt
  rw [encode, if_neg]
  · simp only [AuthMethod.toByte_of_ofByte hmethod, hname, hdrop, UInt32.ofNat_toNat,
      UInt8.ofNat_toNat]
    rw [storeBe64_load (by omega), storeBe32_load (by omega)]
    simp only [append_assoc, cons_append, nil_append]
    rw [field_append_drop, field_append_drop, field_append_drop]
    have htail : b.getD 2 0 :: 0 :: b.drop 4 = b.drop 2 := by
      nth_rewrite 2 [← hzero]
      rw [getD_cons_drop (by omega), getD_cons_drop (by omega)]
    rw [htail]
    exact head_two (by omega) hformat rfl
  · simp only [hname, hdrop, not_or, not_lt]
    refine ⟨hid, fun hnil => hun ?_, by omega, hrn⟩
    rw [← hname, hnil, length_nil]

theorem plainHead (hlong : 4 ≤ b.length) (hformat : b.getD 0 0 = extensionFormat)
    (hflags : b.getD 1 0 = 0) (hzero : loadBe16 b 2 = 0) :
    [extensionFormat, 0, 0, 0] ++ b.drop 4 = b := by
  have hword : field b 2 2 = [0, 0] := by
    rw [← storeBe16_load (by omega), hzero]
    rfl
  calc [extensionFormat, 0, 0, 0] ++ b.drop 4
      = extensionFormat :: 0 :: (field b 2 2 ++ b.drop 4) := by
        rw [hword]
        rfl
    _ = b := by
        rw [field_append_drop]
        exact head_two (by omega) hformat hflags

theorem encodeAuthOk_of_decode (h : decodeAuthOk b = some id) : encodeAuthOk id = b := by
  rw [decodeAuthOk] at h
  split at h
  · cases h
  next hhead =>
  split at h
  · cases h
  next hid =>
  simp only [not_or, not_not] at hhead
  obtain ⟨hlength, hformat, hflags, hzero⟩ := hhead
  cases h
  rw [encodeAuthOk, if_neg hid, storeBe64_load (by omega), field_eq_drop hlength]
  exact plainHead (by omega) hformat hflags hzero

theorem AuthFailure.toUInt16_of_ofUInt16 {v : UInt16} {reason : AuthFailure}
    (h : ofUInt16 v = some reason) : reason.toUInt16 = v := by
  simpa using List.find?_some h

theorem AuthFailed.encode_of_decode {v : AuthFailed} (h : AuthFailed.decode b = some v) :
    v.encode = b := by
  rw [decode] at h
  split at h
  · cases h
  next hhead =>
  simp only [not_or, not_not] at hhead
  obtain ⟨hlength, hformat, hflags, hid⟩ := hhead
  obtain ⟨reason, hreason, rfl⟩ := Option.map_eq_some_iff.mp h
  rw [encode, if_neg hid, AuthFailure.toUInt16_of_ofUInt16 hreason, storeBe16_load (by omega),
    storeBe64_load (by omega), storeBe32_load (by omega), @field_eq_drop b 12 4 hlength]
  simp only [append_assoc, cons_append, nil_append]
  rw [field_append_drop, field_append_drop]
  exact head_two (by omega) hformat hflags

theorem take_block {n : ℕ} {bytes : Bytes} (h : bytes.length ≤ n) :
    (block n bytes).toList.take bytes.length = bytes := by
  apply ext_getElem
  · simpa using h
  · intro i h₁ h₂
    simp [block, h₂]

theorem Relocate.addressSize_le {family : UInt8} {an : ℕ} (h : addressSize family = some an) :
    an ≤ 16 := by
  rw [addressSize] at h
  split_ifs at h <;> cases h <;> omega

theorem Relocate.encode_of_decode {v : Relocate} (h : Relocate.decode b = some v) :
    v.encode = b := by
  rw [decode] at h
  split at h
  · cases h
  next hhead =>
  split at h
  · cases h
  next an han =>
  split at h
  · cases h
  next hsizes =>
  split at h
  · cases h
  next hfields =>
  simp only [not_or, not_lt, not_not] at hhead hsizes
  obtain ⟨hlong, hformat⟩ := hhead
  obtain ⟨hlength, htoken, hbinder⟩ := hsizes
  obtain rfl := Option.some.inj h
  have haddress : (block 16 (field b 76 an)).toList.take an = b.drop 76 := by
    have hsize := length_field (by omega : 76 + an ≤ b.length)
    have htake := take_block (n := 16) (by rw [hsize]; exact addressSize_le han)
    rw [hsize] at htake
    rw [htake, field_eq_drop hlength]
  rw [encode, han]
  dsimp only
  rw [if_neg hfields, haddress, toList_block (length_field (by omega)),
    toList_block (length_field (by omega))]
  nth_rewrite 1 [← htoken]
  rw [← hbinder, storeBe16_load (by omega), storeBe16_load (by omega),
    storeBe16_load (by omega), storeBe32_load (by omega)]
  simp only [append_assoc, cons_append, nil_append]
  rw [field_append_drop, field_append_drop, field_append_drop, field_append_drop,
    field_append_drop, field_append_drop]
  exact head_two (by omega) hformat rfl

theorem RelocateBind.encode_of_decode {v : RelocateBind} (h : RelocateBind.decode b = some v) :
    v.encode = b := by
  rw [decode] at h
  split at h
  · cases h
  next hhead =>
  simp only [not_or, not_not] at hhead
  obtain ⟨hlength, hformat, hflags, hzero⟩ := hhead
  obtain rfl := Option.some.inj h
  rw [encode, toList_block (length_field (by omega)), toList_block (length_field (by omega)),
    @field_eq_drop b 36 32 hlength, append_assoc, field_append_drop]
  exact plainHead (by omega) hformat hflags hzero

theorem encodeRelocateOk_of_decode {token : Block 32} (h : decodeRelocateOk b = some token) :
    encodeRelocateOk token = b := by
  rw [decodeRelocateOk] at h
  split at h
  · cases h
  next hhead =>
  simp only [not_or, not_not] at hhead
  obtain ⟨hlength, hformat, hflags, hzero⟩ := hhead
  obtain rfl := Option.some.inj h
  rw [encodeRelocateOk, toList_block (length_field (by omega)), @field_eq_drop b 4 32 hlength]
  exact plainHead (by omega) hformat hflags hzero

/-! ### CONFIG -/

def ConfigItem.wire (i : ConfigItem) : Bytes :=
  storeBe16 i.type ++ (storeBe16 (if i.required then 1 else 0) ++
    (storeBe16 (UInt16.ofNat i.value.length) ++ (storeBe16 0 ++ i.value)))

namespace AccessConfig

variable {items : List ConfigItem}

theorem encodeItems_of_le {b : Bytes} (hvalues : ∀ i ∈ items, i.value.length ≤ 65535)
    (hsize : (b ++ items.flatMap ConfigItem.wire).length ≤ maxConfigSize) :
    encodeItems b items = b ++ items.flatMap ConfigItem.wire := by
  induction items generalizing b with
  | nil => simp [encodeItems]
  | cons i items ih =>
    have hvalue := hvalues i mem_cons_self
    rw [flatMap_cons, ← append_assoc] at hsize ⊢
    rw [encodeItems, if_neg (by omega)]
    dsimp only
    have hwire : b ++ storeBe16 i.type ++ storeBe16 (if i.required then 1 else 0) ++
        storeBe16 (UInt16.ofNat i.value.length) ++ storeBe16 0 ++ i.value = b ++ i.wire := by
      simp only [ConfigItem.wire, append_assoc]
    rw [hwire, if_neg, ih (fun j hj => hvalues j (mem_cons_of_mem _ hj)) hsize]
    rw [length_append] at hsize
    omega

theorem encodeItems_ne_nil {b : Bytes} (h : encodeItems b items ≠ [])
    (hb : b.length ≤ maxConfigSize) :
    encodeItems b items = b ++ items.flatMap ConfigItem.wire ∧
      (∀ i ∈ items, i.value.length ≤ 65535) ∧
      (b ++ items.flatMap ConfigItem.wire).length ≤ maxConfigSize := by
  induction items generalizing b with
  | nil => simpa [encodeItems] using hb
  | cons i items ih =>
    have hwire : b ++ storeBe16 i.type ++ storeBe16 (if i.required then 1 else 0) ++
        storeBe16 (UInt16.ofNat i.value.length) ++ storeBe16 0 ++ i.value = b ++ i.wire := by
      simp only [ConfigItem.wire, append_assoc]
    rw [encodeItems] at h ⊢
    rw [hwire] at h ⊢
    split at h
    · exact absurd rfl h
    next hvalue =>
    dsimp only at h ⊢
    split at h
    · exact absurd rfl h
    next hroom =>
    obtain ⟨hbytes, hvalues, hsize⟩ := ih h (by omega)
    rw [if_neg hvalue, if_neg hroom, flatMap_cons, ← append_assoc]
    refine ⟨hbytes, ?_, hsize⟩
    intro j hj
    rcases mem_cons.mp hj with rfl | hj
    · omega
    · exact hvalues j hj

theorem flag_iff {flags : UInt16} (h : ¬1 < flags) :
    (if decide (flags = 1) then (1 : UInt16) else 0) = flags := by
  by_cases hone : flags = 1
  · rw [hone]
    rfl
  have hsmall : ¬1 < flags.toNat := h
  have hne : flags.toNat ≠ 1 := fun heq => hone (UInt16.toNat_inj.mp heq)
  have hzero : flags = 0 := UInt16.toNat_inj.mp (by change flags.toNat = 0; omega)
  rw [hzero]
  rfl

theorem decodeItems_eq_some {b : Bytes} {count position : ℕ}
    (h : decodeItems b count position = some items) :
    items.length = count ∧ b.drop position = items.flatMap ConfigItem.wire ∧
      ∀ i ∈ items, i.value.length ≤ 65535 := by
  induction count generalizing position items with
  | zero =>
    rw [decodeItems] at h
    split at h
    next hend =>
      cases h
      simp [hend]
    · cases h
  | succ count ih =>
    rw [decodeItems] at h
    split at h
    · cases h
    next hhead =>
    split at h
    · cases h
    next hfields =>
    rw [not_or, not_or, not_lt, not_not] at hfields
    obtain ⟨hflags, hzero, hsize⟩ := hfields
    obtain ⟨rest, hrest, rfl⟩ := Option.map_eq_some_iff.mp h
    obtain ⟨hlength, hdrop, hvalues⟩ := ih hrest
    have hvalue : (field b (position + 8) (loadBe16 b (position + 4)).toNat).length =
        (loadBe16 b (position + 4)).toNat := length_field hsize
    refine ⟨by rw [length_cons, hlength], ?_, ?_⟩
    · rw [flatMap_cons, ← hdrop, ConfigItem.wire, flag_iff hflags, hvalue,
        UInt16.ofNat_toNat, ← hzero]
      rw [storeBe16_load (by omega), storeBe16_load (by omega), storeBe16_load (by omega),
        storeBe16_load (by omega)]
      simp only [append_assoc]
      rw [field_append_drop, field_append_drop, field_append_drop, field_append_drop,
        field_append_drop]
    · intro i hi
      rcases mem_cons.mp hi with rfl | hi
      · have hword := (loadBe16 b (position + 4)).toNat_lt
        change (field b (position + 8) _).length ≤ _
        omega
      · exact hvalues i hi

theorem encode_of_decode {b : Bytes} {v : AccessConfig} (h : AccessConfig.decode b = some v) :
    v.encode = b := by
  rw [decode] at h
  split at h
  · cases h
  next hhead =>
  dsimp only at h
  split at h
  · cases h
  next hid =>
  simp only [not_or, not_lt, not_not] at hhead
  obtain ⟨hlong, hshort, hformat, hflags, hzero, hlast⟩ := hhead
  obtain ⟨items, hitems, rfl⟩ := Option.map_eq_some_iff.mp h
  obtain ⟨hcount, hdrop, hvalues⟩ := decodeItems_eq_some hitems
  have hbytes : [extensionFormat, 0, 0, 0] ++ storeBe64 (loadBe64 b 4) ++
      storeBe16 (UInt16.ofNat items.length) ++ storeBe16 0 ++
        items.flatMap ConfigItem.wire = b := by
    rw [← hdrop, hcount, UInt16.ofNat_toNat, ← hlast, storeBe64_load (by omega),
      storeBe16_load (by omega), storeBe16_load (by omega)]
    simp only [append_assoc]
    rw [field_append_drop, field_append_drop, field_append_drop]
    exact plainHead (by omega) hformat hflags hzero
  rw [encode, if_neg hid, encodeItems_of_le hvalues (by rw [hbytes]; exact hshort), hbytes]

end AccessConfig

/-! ### Values of the message types -/

/-- A value of one of the message types. An enumeration is carried by its number, since an object of
it holds whatever was cast to it. -/
inductive ExtensionMessage
  | authChallenge (method : UInt8) (id : UInt64) (lifetimeSeconds : UInt32) (challenge : Bytes)
  | authResponse (method : UInt8) (id : UInt64) (username response : Bytes)
  | authOk (id : UInt64)
  | authFailed (id : UInt64) (reason : UInt16) (retryAfterSeconds : UInt32)
  | relocate (v : Relocate)
  | relocateBind (v : RelocateBind)
  | relocateOk (token : Block 32)
  | config (v : AccessConfig)
  deriving DecidableEq, Repr

namespace ExtensionMessage

def type : ExtensionMessage → PacketType
  | authChallenge .. => .authChallenge
  | authResponse .. => .authResponse
  | authOk _ => .authOk
  | authFailed .. => .authFailed
  | relocate _ => .relocate
  | relocateBind _ => .relocateBind
  | relocateOk _ => .relocateOk
  | config _ => .config

def encode : ExtensionMessage → Bytes
  | authChallenge method id lifetimeSeconds challenge =>
    if id = 0 ∨ lifetimeSeconds = 0 ∨ maxAuthField < challenge.length then []
    else
      [extensionFormat, method] ++ storeBe16 0 ++ storeBe64 id ++ storeBe32 lifetimeSeconds ++
        storeBe32 (UInt32.ofNat challenge.length) ++ challenge
  | authResponse method id username response =>
    if id = 0 ∨ username = [] ∨ 255 < username.length ∨ maxAuthField < response.length then []
    else
      [extensionFormat, method, UInt8.ofNat username.length, 0] ++ storeBe64 id ++
        storeBe32 (UInt32.ofNat response.length) ++ username ++ response
  | authOk id => encodeAuthOk id
  | authFailed id reason retryAfterSeconds =>
    if id = 0 then []
    else [extensionFormat, 0] ++ storeBe16 reason ++ storeBe64 id ++ storeBe32 retryAfterSeconds
  | relocate v => v.encode
  | relocateBind v => v.encode
  | relocateOk token => encodeRelocateOk token
  | config v => v.encode

def ofAuthChallenge (v : AuthChallenge) : ExtensionMessage :=
  authChallenge v.method.toByte v.id v.lifetimeSeconds v.challenge

def ofAuthResponse (v : AuthResponse) : ExtensionMessage :=
  authResponse v.method.toByte v.id v.username v.response

def ofAuthFailed (v : AuthFailed) : ExtensionMessage :=
  authFailed v.id v.reason.toUInt16 v.retryAfterSeconds

def decode (type : PacketType) (b : Bytes) : Option ExtensionMessage :=
  match type with
  | .authChallenge => (AuthChallenge.decode b).map ofAuthChallenge
  | .authResponse => (AuthResponse.decode b).map ofAuthResponse
  | .authOk => (decodeAuthOk b).map authOk
  | .authFailed => (AuthFailed.decode b).map ofAuthFailed
  | .relocate => (Relocate.decode b).map relocate
  | .relocateBind => (RelocateBind.decode b).map relocateBind
  | .relocateOk => (decodeRelocateOk b).map relocateOk
  | .config => (AccessConfig.decode b).map config
  | _ => none

theorem encode_of_decode {type : PacketType} {b : Bytes} {v : ExtensionMessage}
    (h : decode type b = some v) : v.encode = b ∧ v.type = type := by
  unfold decode at h
  split at h
  · obtain ⟨w, hw, rfl⟩ := Option.map_eq_some_iff.mp h
    exact ⟨w.encode_of_decode hw, rfl⟩
  · obtain ⟨w, hw, rfl⟩ := Option.map_eq_some_iff.mp h
    exact ⟨w.encode_of_decode hw, rfl⟩
  · obtain ⟨w, hw, rfl⟩ := Option.map_eq_some_iff.mp h
    exact ⟨encodeAuthOk_of_decode hw, rfl⟩
  · obtain ⟨w, hw, rfl⟩ := Option.map_eq_some_iff.mp h
    exact ⟨w.encode_of_decode hw, rfl⟩
  · obtain ⟨w, hw, rfl⟩ := Option.map_eq_some_iff.mp h
    exact ⟨w.encode_of_decode hw, rfl⟩
  · obtain ⟨w, hw, rfl⟩ := Option.map_eq_some_iff.mp h
    exact ⟨w.encode_of_decode hw, rfl⟩
  · obtain ⟨w, hw, rfl⟩ := Option.map_eq_some_iff.mp h
    exact ⟨encodeRelocateOk_of_decode hw, rfl⟩
  · obtain ⟨w, hw, rfl⟩ := Option.map_eq_some_iff.mp h
    exact ⟨w.encode_of_decode hw, rfl⟩
  · cases h

/-- What the decoder of the type asks of a value beyond what the encoder asks. -/
def Readable : ExtensionMessage → Prop
  | authChallenge method _ _ _ => method = 1
  | authResponse method _ username _ => method = 1 ∧ ∀ c ∈ username, 0x21 ≤ c ∧ c ≤ 0x7e
  | authFailed _ reason _ => 1 ≤ reason ∧ reason ≤ 6
  | relocate v => ∀ i : Fin 16, (Relocate.addressSize v.family).getD 0 ≤ i → v.address.get i = 0
  | _ => True

instance : DecidablePred Readable
  | authChallenge method .. => inferInstanceAs (Decidable (method = 1))
  | authResponse method _ username _ =>
    inferInstanceAs (Decidable (method = 1 ∧ ∀ c ∈ username, 0x21 ≤ c ∧ c ≤ 0x7e))
  | authFailed _ reason _ => inferInstanceAs (Decidable (1 ≤ reason ∧ reason ≤ 6))
  | relocate v => inferInstanceAs (Decidable
      (∀ i : Fin 16, (Relocate.addressSize v.family).getD 0 ≤ i → v.address.get i = 0))
  | authOk _ => isTrue trivial
  | relocateBind _ => isTrue trivial
  | relocateOk _ => isTrue trivial
  | config _ => isTrue trivial

end ExtensionMessage

/-! ### Messages that are encoded -/

theorem AuthChallenge.decode_encoded {method : UInt8} {lifetime : UInt32} {challenge : Bytes}
    (hid : id ≠ 0) (hlifetime : lifetime ≠ 0) (hsize : challenge.length ≤ maxAuthField) :
    AuthChallenge.decode ([extensionFormat, method] ++ storeBe16 0 ++ storeBe64 id ++
        storeBe32 lifetime ++ storeBe32 (UInt32.ofNat challenge.length) ++ challenge) =
      (AuthMethod.ofByte method).map fun method => ⟨method, id, lifetime, challenge⟩ := by
  generalize hb : [extensionFormat, method] ++ storeBe16 0 ++ storeBe64 id ++ storeBe32 lifetime ++
    storeBe32 (UInt32.ofNat challenge.length) ++ challenge = b
  have hdrop : b.drop 20 = challenge := by
    rw [← hb]
    exact drop_left' (by simp)
  have hlength : b.length = 20 + challenge.length := by
    simp [← hb]
    omega
  simp only [append_assoc] at hb
  have hformat : b.getD 0 0 = extensionFormat := by rw [← hb]; rfl
  have hmethod : b.getD 1 0 = method := by rw [← hb]; rfl
  have hzero : loadBe16 b 2 = 0 := by simp [← hb]
  have hidBytes : loadBe64 b 4 = id := by simp [← hb, loadBe64_append]
  have hlife : loadBe32 b 12 = lifetime := by simp [← hb, loadBe32_append]
  have hn : (loadBe32 b 16).toNat = challenge.length := by
    have hload : loadBe32 b 16 = UInt32.ofNat challenge.length := by simp [← hb, loadBe32_append]
    rw [hload, UInt32.toNat_ofNat_of_lt' (hsize.trans_lt (by decide))]
  rw [decode, if_neg (by rw [hformat, hzero]; simp [hlength]), hmethod]
  cases AuthMethod.ofByte method with
  | none => rfl
  | some m =>
    simp only [hidBytes, hlife, hn, hdrop]
    rw [if_neg (by simp [hid, hlifetime, hlength, hsize])]
    rfl

theorem AuthResponse.decode_encoded {method : UInt8} {username response : Bytes} (hid : id ≠ 0)
    (hname : username ≠ []) (hun : username.length ≤ 255) (hsize : response.length ≤ maxAuthField) :
    AuthResponse.decode ([extensionFormat, method, UInt8.ofNat username.length, 0] ++
        storeBe64 id ++ storeBe32 (UInt32.ofNat response.length) ++ username ++ response) =
      if username.any fun c => c < 0x21 || 0x7e < c then none
      else (AuthMethod.ofByte method).map fun method => ⟨method, id, username, response⟩ := by
  generalize hb : [extensionFormat, method, UInt8.ofNat username.length, 0] ++ storeBe64 id ++
    storeBe32 (UInt32.ofNat response.length) ++ username ++ response = b
  have hdrop : b.drop (16 + username.length) = response := by
    rw [← hb]
    refine drop_left' ?_
    simp
    omega
  have hlength : b.length = 16 + username.length + response.length := by
    simp [← hb]
    omega
  simp only [append_assoc] at hb
  have hformat : b.getD 0 0 = extensionFormat := by rw [← hb]; rfl
  have hmethod : b.getD 1 0 = method := by rw [← hb]; rfl
  have hcount : (b.getD 2 0).toNat = username.length := by
    rw [← hb]
    exact UInt8.toNat_ofNat_of_lt' (hun.trans_lt (by decide))
  have hzero : b.getD 3 0 = 0 := by rw [← hb]; rfl
  have hidBytes : loadBe64 b 4 = id := by simp [← hb]
  have hn : (loadBe32 b 12).toNat = response.length := by
    have hload : loadBe32 b 12 = UInt32.ofNat response.length := by simp [← hb, loadBe32_append]
    rw [hload, UInt32.toNat_ofNat_of_lt' (hsize.trans_lt (by decide))]
  have huser : field b 16 username.length = username := by
    rw [← hb, ← append_assoc, ← append_assoc]
    exact field_append (by simp) rfl
  rw [decode, if_neg (by rw [hformat, hzero]; simp [hlength]; omega), hmethod]
  cases AuthMethod.ofByte method with
  | none => simp
  | some m =>
    simp only [hidBytes, hn, hcount, hdrop, huser]
    rw [if_neg (by simp [hid, hname, hlength, hsize])]
    rfl

theorem plainHead_fields (rest : Bytes) :
    ¬(([extensionFormat, 0, 0, 0] ++ rest).getD 0 0 ≠ extensionFormat ∨
      ([extensionFormat, 0, 0, 0] ++ rest).getD 1 0 ≠ 0 ∨
      loadBe16 ([extensionFormat, 0, 0, 0] ++ rest) 2 ≠ 0) := by
  rintro (h | h | h)
  · exact h rfl
  · exact h rfl
  · exact h rfl

theorem decodeAuthOk_encode (hid : id ≠ 0) : decodeAuthOk (encodeAuthOk id) = some id := by
  have hidBytes : loadBe64 ([extensionFormat, 0, 0, 0] ++ storeBe64 id) 4 = id := by simp
  rw [encodeAuthOk, if_neg hid, decodeAuthOk, if_neg, hidBytes, if_neg hid]
  rw [not_or]
  exact ⟨by simp, plainHead_fields _⟩

theorem AuthFailed.decode_encoded {reason : UInt16} {retry : UInt32} (hid : id ≠ 0) :
    AuthFailed.decode ([extensionFormat, 0] ++ storeBe16 reason ++ storeBe64 id ++
        storeBe32 retry) =
      (AuthFailure.ofUInt16 reason).map fun reason => ⟨id, reason, retry⟩ := by
  generalize hb : [extensionFormat, 0] ++ storeBe16 reason ++ storeBe64 id ++ storeBe32 retry = b
  have hlength : b.length = 16 := by simp [← hb]
  simp only [append_assoc] at hb
  have hformat : b.getD 0 0 = extensionFormat := by rw [← hb]; rfl
  have hflags : b.getD 1 0 = 0 := by rw [← hb]; rfl
  have hreason : loadBe16 b 2 = reason := by simp [← hb]
  have hidBytes : loadBe64 b 4 = id := by simp [← hb, loadBe64_append]
  have hretry : loadBe32 b 12 = retry := by simp [← hb, loadBe32_append]
  rw [decode, if_neg (by simp only [hlength, hformat, hflags, hidBytes, hid]; simp), hreason,
    hidBytes, hretry]

theorem RelocateBind.decode_encode (v : RelocateBind) : RelocateBind.decode v.encode = some v := by
  have htoken : field v.encode 4 32 = v.token.toList := by
    rw [encode, append_assoc]
    exact field_append rfl v.token.length_toList
  have hbinder : field v.encode 36 32 = v.binder.toList := by
    rw [encode]
    exact field_last (by simp) v.binder.length_toList
  rw [decode, if_neg, htoken, hbinder, block_toList, block_toList]
  rw [encode, append_assoc, not_or]
  exact ⟨by simp, plainHead_fields _⟩

theorem decodeRelocateOk_encode (token : Block 32) :
    decodeRelocateOk (encodeRelocateOk token) = some token := by
  have htoken : field (encodeRelocateOk token) 4 32 = token.toList := by
    rw [encodeRelocateOk]
    exact field_last rfl token.length_toList
  rw [decodeRelocateOk, if_neg, htoken, block_toList]
  rw [encodeRelocateOk, not_or]
  exact ⟨by simp, plainHead_fields _⟩

theorem Relocate.decode_encoded {v : Relocate} {an : ℕ} (han : addressSize v.family = some an)
    (hport : v.port ≠ 0) (hlifetime : v.lifetimeSeconds ≠ 0) :
    Relocate.decode v.encode = some { v with address := block 16 (v.address.toList.take an) } := by
  have htake : (v.address.toList.take an).length = an := by
    rw [length_take, Vector.length_toList]
    exact min_eq_left (addressSize_le han)
  generalize hb : v.encode = b
  rw [encode, han] at hb
  dsimp only at hb
  rw [if_neg (by simp [hport, hlifetime])] at hb
  have hlength : b.length = 12 + 32 + 32 + an := by
    simp only [← hb, length_append, htake, Vector.length_toList, length_storeBe16,
      length_storeBe32, length_cons, length_nil]
  have haddress : field b 76 an = v.address.toList.take an := by
    rw [← hb]
    exact field_last (by simp) htake
  have hbinder : field b 44 32 = v.binder.toList := by
    rw [← hb, append_assoc _ v.binder.toList]
    exact field_append (by simp) v.binder.length_toList
  have htoken : field b 12 32 = v.token.toList := by
    rw [← hb, append_assoc _ v.binder.toList, append_assoc _ v.token.toList]
    exact field_append (by simp) v.token.length_toList
  simp only [append_assoc] at hb
  have hformat : b.getD 0 0 = extensionFormat := by rw [← hb]; rfl
  have hfamily : b.getD 1 0 = v.family := by rw [← hb]; rfl
  have hportBytes : loadBe16 b 2 = v.port := by simp [← hb]
  have hlife : loadBe32 b 4 = v.lifetimeSeconds := by simp [← hb, loadBe32_append]
  have htokenSize : loadBe16 b 8 = 32 := by simp [← hb, loadBe16_append]
  have hbinderSize : loadBe16 b 10 = 32 := by simp [← hb, loadBe16_append]
  rw [decode, if_neg (by rw [hformat]; simp [hlength]; omega), hfamily, han]
  dsimp only
  rw [if_neg (by simp [hlength, htokenSize, hbinderSize]), hportBytes, hlife,
    if_neg (by simp [hport, hlifetime]), haddress, htoken, hbinder, block_toList, block_toList]

namespace AccessConfig

theorem flag_le (required : Bool) : ¬(1 : UInt16) < (if required then 1 else 0) ∧
    (decide ((if required then 1 else 0 : UInt16) = 1) = required) := by
  cases required with
  | false | true => decide

/-- Items written behind `front` are read back from there. -/
theorem decodeItems_wire {front : Bytes} {items : List ConfigItem}
    (hvalues : ∀ i ∈ items, i.value.length ≤ 65535) :
    decodeItems (front ++ items.flatMap ConfigItem.wire) items.length front.length =
      some items := by
  induction items generalizing front with
  | nil => simp [decodeItems]
  | cons i items ih =>
    have hvalue := hvalues i mem_cons_self
    have hrest := @ih (front ++ i.wire) fun j hj => hvalues j (mem_cons_of_mem _ hj)
    have hwire : i.wire.length = 8 + i.value.length := by
      simp only [ConfigItem.wire, length_append, length_storeBe16]
      omega
    rw [flatMap_cons, length_cons, decodeItems, ← append_assoc]
    generalize hb : front ++ i.wire ++ items.flatMap ConfigItem.wire = b at hrest ⊢
    have hroom : front.length + 8 + i.value.length ≤ b.length := by
      rw [← hb, length_append, length_append, hwire]
      omega
    simp only [ConfigItem.wire, append_assoc] at hb
    have htype : loadBe16 b front.length = i.type := by
      simp [← hb, loadBe16_append]
    have hflags : loadBe16 b (front.length + 2) = if i.required then 1 else 0 := by
      simp [← hb, loadBe16_append]
    have hsize : (loadBe16 b (front.length + 4)).toNat = i.value.length := by
      have hload : loadBe16 b (front.length + 4) = UInt16.ofNat i.value.length := by
        simp [← hb, loadBe16_append]
      rw [hload, UInt16.toNat_ofNat_of_lt' (hvalue.trans_lt (by decide))]
    have hzero : loadBe16 b (front.length + 6) = 0 := by
      simp [← hb, loadBe16_append]
    have hbytes : field b (front.length + 8) i.value.length = i.value := by
      have hfront := @field_append [] i.value (items.flatMap ConfigItem.wire) 0 _ rfl rfl
      simpa [← hb, field_append_right] using hfront
    have hrequired := flag_le i.required
    rw [hflags, hsize, hzero, htype, hbytes, hrequired.2]
    rw [if_neg (by omega), if_neg]
    · rw [length_append, hwire, ← Nat.add_assoc] at hrest
      rw [hrest]
      rfl
    · rw [not_or, not_or]
      exact ⟨hrequired.1, by simp, by omega⟩

theorem length_wires (items : List ConfigItem) :
    8 * items.length ≤ (items.flatMap ConfigItem.wire).length := by
  induction items with
  | nil => simp
  | cons i items ih =>
    simp only [flatMap_cons, ConfigItem.wire, length_append, length_storeBe16,
      length_cons]
    omega

theorem decode_encode {v : AccessConfig} (h : v.encode ≠ []) :
    AccessConfig.decode v.encode = some v := by
  rw [encode] at h ⊢
  split at h
  · exact absurd rfl h
  next hid =>
  obtain ⟨hbytes, hvalues, hsize⟩ := encodeItems_ne_nil h (by simp [maxConfigSize])
  have hcount := length_wires v.items
  have hitems := @decodeItems_wire ([extensionFormat, 0, 0, 0] ++ storeBe64 v.id ++
    storeBe16 (UInt16.ofNat v.items.length) ++ storeBe16 0) v.items hvalues
  rw [if_neg hid, hbytes]
  generalize hb : [extensionFormat, 0, 0, 0] ++ storeBe64 v.id ++
    storeBe16 (UInt16.ofNat v.items.length) ++ storeBe16 0 ++
    v.items.flatMap ConfigItem.wire = b at hsize hitems ⊢
  have hlength : b.length = 16 + (v.items.flatMap ConfigItem.wire).length := by
    simp only [← hb, length_append, length_storeBe16, length_storeBe64, length_cons,
      length_nil, Nat.reduceAdd]
  simp only [append_assoc] at hb
  have hidBytes : loadBe64 b 4 = v.id := by simp [← hb]
  have hcountBytes : (loadBe16 b 12).toNat = v.items.length := by
    have hload : loadBe16 b 12 = UInt16.ofNat v.items.length := by
      simp [← hb, loadBe16_append]
    rw [hload, UInt16.toNat_ofNat_of_lt']
    rw [maxConfigSize] at hsize
    change _ < 65536
    omega
  have hlast : loadBe16 b 14 = 0 := by simp [← hb, loadBe16_append]
  have hhead := plainHead_fields (storeBe64 v.id ++
    (storeBe16 (UInt16.ofNat v.items.length) ++ (storeBe16 0 ++
      v.items.flatMap ConfigItem.wire)))
  rw [hb] at hhead
  simp only [length_append, length_storeBe16, length_storeBe64, length_cons,
    length_nil] at hitems
  rw [decode, if_neg, hidBytes, hcountBytes, hitems]
  · rw [if_neg hid]
    rfl
  · simp only [not_or] at hhead ⊢
    exact ⟨by omega, by omega, hhead.1, hhead.2.1, hhead.2.2, not_not.mpr hlast⟩

end AccessConfig

namespace ExtensionMessage

theorem ofByte_isSome {method : UInt8} : (AuthMethod.ofByte method).isSome = true ↔ method = 1 := by
  rw [AuthMethod.ofByte]
  split
  next h => simp [h]
  next h => simp [h]

theorem ofUInt16_isSome {reason : UInt16} :
    (AuthFailure.ofUInt16 reason).isSome = true ↔ 1 ≤ reason ∧ reason ≤ 6 := by
  have hbounds : (1 ≤ reason ∧ reason ≤ 6) ↔ 1 ≤ reason.toNat ∧ reason.toNat ≤ 6 := by
    rw [UInt16.le_iff_toNat_le, UInt16.le_iff_toNat_le]
    rfl
  rw [hbounds, AuthFailure.ofUInt16, List.find?_isSome]
  simp only [mem_cons, not_mem_nil, or_false, exists_eq_or_imp, exists_eq_left,
    AuthFailure.toUInt16, decide_eq_true_eq, ← UInt16.toNat_inj]
  change 1 = _ ∨ 2 = _ ∨ 3 = _ ∨ 4 = _ ∨ 5 = _ ∨ 6 = _ ↔ _
  omega

theorem printable_iff {username : Bytes} :
    (username.any fun c => c < 0x21 || 0x7e < c) = false ↔ ∀ c ∈ username, 0x21 ≤ c ∧ c ≤ 0x7e := by
  simp

theorem block_take_iff {address : Block 16} {an : ℕ} :
    block 16 (address.toList.take an) = address ↔ ∀ i : Fin 16, an ≤ i → address.get i = 0 := by
  have hget : ∀ i : Fin 16, (block 16 (address.toList.take an)).get i =
      if i.val < an then address.get i else 0 := by
    intro i
    have hi := i.isLt
    simp only [block, Vector.get_ofFn, getD_eq_getElem?_getD, List.getElem?_take]
    split
    · simp [Vector.get_eq_getElem]
    · rfl
  constructor
  · intro h i hi
    rw [← h, hget, if_neg (by omega)]
  · intro h
    refine Vector.ext fun i hi => ?_
    have hbyte := hget ⟨i, hi⟩
    rw [Vector.get_eq_getElem, Vector.get_eq_getElem] at hbyte
    split at hbyte
    · exact hbyte
    next hge =>
    rw [hbyte]
    exact (h ⟨i, hi⟩ (not_lt.mp hge)).symm

/-- An encoded message is read as the value it was made from exactly when the decoder's additional
conditions hold of it. -/
theorem decode_encode_iff {v : ExtensionMessage} (h : v.encode ≠ []) :
    decode v.type v.encode = some v ↔ v.Readable := by
  cases v with
  | authChallenge method id lifetime challenge =>
    rw [encode] at h
    split at h
    · exact absurd rfl h
    next hguard =>
    simp only [not_or, not_lt] at hguard
    simp only [decode, type, encode, Readable]
    rw [if_neg (by simpa using hguard),
      AuthChallenge.decode_encoded hguard.1 hguard.2.1 hguard.2.2, ← ofByte_isSome]
    cases hm : AuthMethod.ofByte method with
    | none => simp
    | some m => simp [ofAuthChallenge, AuthMethod.toByte_of_ofByte hm]
  | authResponse method id username response =>
    rw [encode] at h
    split at h
    · exact absurd rfl h
    next hguard =>
    simp only [not_or, not_lt] at hguard
    simp only [decode, type, encode, Readable]
    rw [if_neg (by simpa using hguard),
      AuthResponse.decode_encoded hguard.1 hguard.2.1 hguard.2.2.1 hguard.2.2.2,
      ← ofByte_isSome, ← printable_iff]
    cases hm : AuthMethod.ofByte method with
    | none => simp
    | some m => simp [ofAuthResponse, AuthMethod.toByte_of_ofByte hm]
  | authOk id =>
    rw [encode, encodeAuthOk] at h
    split at h
    · exact absurd rfl h
    next hid => simp [decode, type, encode, decodeAuthOk_encode hid, Readable]
  | authFailed id reason retry =>
    rw [encode] at h
    split at h
    · exact absurd rfl h
    next hid =>
    simp only [decode, type, encode, Readable]
    rw [if_neg hid, AuthFailed.decode_encoded hid, ← ofUInt16_isSome]
    cases hr : AuthFailure.ofUInt16 reason with
    | none => simp
    | some r => simp [ofAuthFailed, AuthFailure.toUInt16_of_ofUInt16 hr]
  | relocate v =>
    rw [encode, Relocate.encode] at h
    split at h
    · exact absurd rfl h
    next an han =>
    split at h
    · exact absurd rfl h
    next hfields =>
    rw [not_or] at hfields
    simp only [decode, type, encode, Readable, han, Option.getD_some]
    rw [Relocate.decode_encoded han hfields.1 hfields.2, ← block_take_iff, Option.map_some,
      Option.some_inj, relocate.injEq]
    constructor
    · intro heq
      exact congrArg Relocate.address heq
    · intro heq
      rw [heq]
  | relocateBind v => simp [decode, type, encode, v.decode_encode, Readable]
  | relocateOk token => simp [decode, type, encode, decodeRelocateOk_encode, Readable]
  | config v => simp [decode, type, encode, AccessConfig.decode_encode h, Readable]

end ExtensionMessage

/-! ### The transcript of an authentication -/

namespace AuthGate

variable (P : Primitives) (opts : AuthOptions)

def transcriptDigest (wire : Bytes) : Bytes :=
  let half (domain : String) : Bytes :=
    (P.mac opts.masterKey opts.tunnelId (ascii domain ++ [0] ++ wire)).toList
  half "TUNTOM-V5-AUTH-TRANSCRIPT-0" ++ half "TUNTOM-V5-AUTH-TRANSCRIPT-1"

theorem transcriptHash_eq (challenge : AuthChallenge) (response : AuthResponse) :
    transcriptHash P opts challenge response =
      transcriptDigest P opts (challenge.encode ++ response.encode) := by
  simp only [transcriptHash, transcriptDigest, append_assoc]

theorem authJob_step {s : AuthGate} {input : AuthInput} {job : AuthJob}
    (h : (authStep P opts s input).1.authJob = some job) :
    s.authJob = some job ∨ ∃ payload peer host,
      input = .extension .authResponse payload peer host ∧
        AuthResponse.decode payload = some job.response := by
  cases input with
  | activated peerChanged random now =>
    rw [authStep, (s.sessionActivated_closed opts peerChanged random now).1] at h
    exact .inl h
  | extension type payload peer host =>
    change (s.handleSessionExtension type payload peer host).authJob = _ at h
    rw [handleSessionExtension] at h
    split at h
    next htype =>
      split at h
      · exact .inl h
      next response hresponse =>
      split at h
      · exact .inl h
      · cases h
        exact .inr ⟨payload, peer, host, by rw [htype], hresponse⟩
    · exact .inl h
  | finished done =>
    rw [authStep, s.tickAuthJob_authJob P opts done] at h
    cases h
  | reap childStatus =>
    have hcore := (frame_reapChildren childStatus s.children s).core
    exact .inl ((congrArg (fun core => core.2.2) hcore).symm.trans h)
  | tick now ready => exact .inl h

theorem response_received {past : List (AuthInput × List GateEvent)} {s : AuthGate}
    (h : AuthTrace P opts past s) {job : AuthJob} (hjob : s.authJob = some job) :
    ∃ payload peer host, AuthInput.extension .authResponse payload peer host ∈ past.map Prod.fst ∧
      AuthResponse.decode payload = some job.response := by
  induction h with
  | nil => cases hjob
  | cons input h ih =>
    rcases authJob_step P opts hjob with hold | ⟨payload, peer, host, rfl, hdecode⟩
    · obtain ⟨payload, peer, host, hmem, hdecode⟩ := ih hold
      exact ⟨payload, peer, host, mem_cons_of_mem _ hmem, hdecode⟩
    · exact ⟨payload, peer, host, mem_cons_self, hdecode⟩

end AuthGate

/-- Every accepted extension message is the encoding of the value it is read as, so two messages of
one type with the same value are equal. The transcript that a listener hashes over messages encoded
again is the one of the bytes that were received, in every run for the response of its job. -/
theorem extension_messages_canonical :
    (∀ type b v, ExtensionMessage.decode type b = some v → v.encode = b) ∧
    (∀ type b b' v, ExtensionMessage.decode type b = some v →
      ExtensionMessage.decode type b' = some v → b = b') ∧
    (∀ (P : Primitives) (opts : AuthOptions) c b challenge response,
      AuthChallenge.decode c = some challenge → AuthResponse.decode b = some response →
      AuthGate.transcriptHash P opts challenge response =
        AuthGate.transcriptDigest P opts (c ++ b)) ∧
    ∀ (P : Primitives) (opts : AuthOptions) past s, AuthTrace P opts past s →
      ∀ job, s.authJob = some job → ∃ payload peer host,
        AuthInput.extension .authResponse payload peer host ∈ past.map Prod.fst ∧
        AuthResponse.decode payload = some job.response ∧
        ∀ done random, (s.bootstrap P opts job done random).authHash =
          AuthGate.transcriptDigest P opts (s.authChallenge.encode ++ payload) := by
  refine ⟨fun type b v h => (ExtensionMessage.encode_of_decode h).1, ?_, ?_, ?_⟩
  · intro type b b' v h h'
    rw [← (ExtensionMessage.encode_of_decode h).1, (ExtensionMessage.encode_of_decode h').1]
  · intro P opts c b challenge response hc hb
    rw [AuthGate.transcriptHash_eq, challenge.encode_of_decode hc, response.encode_of_decode hb]
  · intro P opts past s h job hjob
    obtain ⟨payload, peer, host, hmem, hdecode⟩ := AuthGate.response_received P opts h hjob
    refine ⟨payload, peer, host, hmem, hdecode, fun done random => ?_⟩
    change AuthGate.transcriptHash P opts s.authChallenge job.response = _
    rw [AuthGate.transcriptHash_eq, job.response.encode_of_decode hdecode]

/-- Which of the values that are encoded at all their readers understand. -/
theorem extension_decode_encode_iff (v : ExtensionMessage) (h : v.encode ≠ []) :
    ExtensionMessage.decode v.type v.encode = some v ↔ v.Readable :=
  ExtensionMessage.decode_encode_iff h

theorem extension_decode_encode_iff_sample :
    ExtensionMessage.decode .authResponse
        (ExtensionMessage.encode (.authResponse 1 7 (ascii "user") [1, 2])) =
      some (.authResponse 1 7 (ascii "user") [1, 2]) :=
  (extension_decode_encode_iff (.authResponse 1 7 (ascii "user") [1, 2]) (by decide +kernel)).mpr
    (by decide +kernel)

/-- A user name with a blank is sent and every reader drops the message. -/
theorem blank_username_unreadable :
    ExtensionMessage.encode (.authResponse 1 7 (ascii "a b") []) ≠ [] ∧
      ExtensionMessage.decode .authResponse
        (ExtensionMessage.encode (.authResponse 1 7 (ascii "a b") [])) = none := by
  decide

end Tuntom
