import Tuntom.AuthGate
import Tuntom.LabelFrame

/-! The result an authentication helper writes to its standard output. -/
namespace Tuntom
open List

def maxStack : ℕ := 8

def HelperStatus.toByte : HelperStatus → UInt8
  | allow => 1
  | deny => 2
  | temporaryFailure => 3

def HelperStatus.ofByte (b : UInt8) : Option HelperStatus :=
  if b = 1 then some .allow else if b = 2 then some .deny
  else if b = 3 then some .temporaryFailure else none

@[simp] theorem HelperStatus.ofByte_toByte (status : HelperStatus) :
    ofByte status.toByte = some status := by
  cases status <;> rfl

namespace HelperResult

def encode (v : HelperResult) : Bytes :=
  if 255 < v.principal.length ∨ 63 < v.portId.length ∨ maxStack < v.ingressStack.length ∨
      maxConfigSize < v.config.length then []
  else
    ascii "TTR" ++ [1, v.status.toByte, UInt8.ofNat v.principal.length,
        UInt8.ofNat v.portId.length, UInt8.ofNat v.ingressStack.length] ++
      storeBe32 (UInt32.ofNat v.config.length) ++ v.principal ++ v.portId ++
      v.ingressStack.flatMap storeBe64 ++ v.config

def complete (v : HelperResult) : Bool :=
  v.status ≠ .allow ∨ v.principal ≠ [] ∧ v.portId ≠ [] ∧ v.ingressStack ≠ []

def decode (b : Bytes) : Option HelperResult :=
  if b.length < 12 ∨ b.take 4 ≠ ascii "TTR" ++ [1] ∨ maxStack < (b.getD 7 0).toNat then none
  else
    match HelperStatus.ofByte (b.getD 4 0) with
    | none => none
    | some status =>
      let principal := (b.getD 5 0).toNat
      let port := (b.getD 6 0).toNat
      let stack := (b.getD 7 0).toNat
      let config := (loadBe32 b 8).toNat
      if 63 < port ∨ maxConfigSize < config ∨
          b.length ≠ 12 + principal + port + 8 * stack + config then none
      else
        let result : HelperResult :=
          { status
            principal := field b 12 principal
            portId := field b (12 + principal) port
            ingressStack :=
              (List.range stack).map fun i => loadBe64 b (12 + principal + port + i * 8)
            config := b.drop (12 + principal + port + 8 * stack) }
        if result.complete then some result else none

def head (v : HelperResult) : Bytes :=
  ascii "TTR" ++ [1, v.status.toByte, UInt8.ofNat v.principal.length,
    UInt8.ofNat v.portId.length, UInt8.ofNat v.ingressStack.length] ++
    storeBe32 (UInt32.ofNat v.config.length)

theorem length_head (v : HelperResult) : v.head.length = 12 := by
  rw [head, length_append, length_storeBe32]
  rfl

theorem getD_head (v : HelperResult) (rest : Bytes) :
    (v.head ++ rest).take 4 = ascii "TTR" ++ [1] ∧
    (v.head ++ rest).getD 4 0 = v.status.toByte ∧
    (v.head ++ rest).getD 5 0 = UInt8.ofNat v.principal.length ∧
    (v.head ++ rest).getD 6 0 = UInt8.ofNat v.portId.length ∧
    (v.head ++ rest).getD 7 0 = UInt8.ofNat v.ingressStack.length ∧
    loadBe32 (v.head ++ rest) 8 = UInt32.ofNat v.config.length := by
  rw [head, append_assoc]
  refine ⟨rfl, rfl, rfl, rfl, rfl, ?_⟩
  exact loadBe32_store _ rfl

theorem decode_encode {v : HelperResult} (hprincipal : v.principal.length ≤ 255)
    (hport : v.portId.length ≤ 63) (hstack : v.ingressStack.length ≤ maxStack)
    (hconfig : v.config.length ≤ maxConfigSize) (hcomplete : v.complete = true) :
    v.encode ≠ [] ∧ decode v.encode = some v := by
  have hstack8 : v.ingressStack.length ≤ 8 := hstack
  have hconfig16 : v.config.length ≤ 16384 := hconfig
  have hbytes : v.encode = v.head ++ (v.principal ++ (v.portId ++
      (v.ingressStack.flatMap storeBe64 ++ v.config))) := by
    rw [encode, if_neg, head]
    · simp only [append_assoc]
    · simp only [not_or, Nat.not_lt]
      exact ⟨hprincipal, hport, hstack, hconfig⟩
  have hhead := v.length_head
  have hlabels := length_flatMap_storeBe64 v.ingressStack
  have hlength : v.encode.length = 12 + v.principal.length + v.portId.length +
      8 * v.ingressStack.length + v.config.length := by
    simp only [hbytes, length_append, hhead, hlabels]
    omega
  refine ⟨fun hnil => ?_, ?_⟩
  · rw [hnil, length_nil] at hlength
    omega
  obtain ⟨hmagic, hstatus, hfive, hsix, hseven, hsize⟩ := v.getD_head
    (v.principal ++ (v.portId ++ (v.ingressStack.flatMap storeBe64 ++ v.config)))
  rw [← hbytes] at hmagic hstatus hfive hsix hseven hsize
  have hprincipalByte : (UInt8.ofNat v.principal.length).toNat = v.principal.length :=
    UInt8.toNat_ofNat_of_lt' (by change _ < 256; omega)
  have hportByte : (UInt8.ofNat v.portId.length).toNat = v.portId.length :=
    UInt8.toNat_ofNat_of_lt' (by change _ < 256; omega)
  have hstackByte : (UInt8.ofNat v.ingressStack.length).toNat = v.ingressStack.length :=
    UInt8.toNat_ofNat_of_lt' (by change _ < 256; omega)
  have hconfigWord : (UInt32.ofNat v.config.length).toNat = v.config.length :=
    UInt32.toNat_ofNat_of_lt' (by change _ < 4294967296; omega)
  have hfirst : field v.encode 12 v.principal.length = v.principal := by
    rw [hbytes]
    exact field_append hhead rfl
  have hsecond : field v.encode (12 + v.principal.length) v.portId.length = v.portId := by
    rw [hbytes, ← append_assoc]
    exact field_append (by rw [length_append, hhead]) rfl
  have hthird : (List.range v.ingressStack.length).map (fun i =>
      loadBe64 v.encode (12 + v.principal.length + v.portId.length + i * 8)) = v.ingressStack := by
    have hload := @loadBe64_labels (v.head ++ (v.principal ++ v.portId)) v.config v.ingressStack
    simp only [length_append, hhead, append_assoc] at hload
    rw [hbytes]
    simpa only [Nat.add_assoc] using hload
  have hlast : v.encode.drop (12 + v.principal.length + v.portId.length +
      8 * v.ingressStack.length) = v.config := by
    rw [hbytes, ← append_assoc, ← append_assoc, ← append_assoc]
    refine drop_left' ?_
    simp only [length_append, hhead, hlabels]
    omega
  rw [decode, if_neg]
  · simp only [hstatus, hfive, hsix, hseven, hsize, hprincipalByte, hportByte, hstackByte,
      hconfigWord, HelperStatus.ofByte_toByte, hfirst, hsecond, hthird, hlast]
    rw [if_neg, if_pos hcomplete]
    simp only [not_or, Nat.not_lt, not_not]
    exact ⟨hport, hconfig, hlength⟩
  · simp only [not_or, Nat.not_lt, not_not, hseven, hstackByte]
    exact ⟨by omega, hmagic, hstack⟩

end HelperResult

end Tuntom
