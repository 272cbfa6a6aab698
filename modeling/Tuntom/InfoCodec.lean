import Tuntom.Packet

/-! INFO payloads on the wire, and the newest of them kept as the peer's snapshot. -/
namespace Tuntom
open List

namespace Info

/-! ### Encoding -/

def encodeByte (c : UInt8) : Except String UInt8 :=
  if 0x80 ≤ c then .ok 63
  else if (c < 0x20 || c == 0x7f) && c != 9 then .error "Invalid INFO value"
  else .ok c

/-- One pass of the loop of `encode`. -/
def encodeField (text : Bytes) (field : Bytes × Bytes) : Except String Bytes :=
  if !validKey field.1 then .error "Invalid INFO key"
  else do
    let value ← field.2.mapM encodeByte
    let trimmed := trimValue value
    if text.length + field.1.length + trimmed.length + 2 > maxPayload then
      .error "INFO exceeds payload limit"
    else .ok (text ++ (field.1 ++ 61 :: trimmed ++ [10]))

def encode (fields : Fields) : Except String Bytes :=
  if fields = [] then .error "INFO requires at least one field" else fields.foldlM encodeField []

/-- `decode` with its output argument, which is written at the end only. -/
def decodeInto (payload : Bytes) (fields : Fields) : Bool × Fields :=
  match decode payload with
  | some result => (true, result)
  | none => (false, fields)

/-- The keys ascend, as they do in a `std::map`. -/
def Fields.Ordered (fields : Fields) : Prop := fields.Pairwise fun a b => compare a.1 b.1 = .lt

def shown (value : Bytes) : Bytes := trimValue (value.map fun c => if 0x80 ≤ c then 63 else c)

/-! ### Values and keys -/

def printable (c : UInt8) : Bool := 0x20 ≤ c && c ≤ 0x7e || c == 9

theorem printable_iff {c : UInt8} :
    printable c = true ↔ 32 ≤ c.toNat ∧ c.toNat ≤ 126 ∨ c.toNat = 9 := by
  simp [printable, UInt8.le_iff_toNat_le, ← UInt8.toNat_inj]

theorem encodeByte_eq_ok {c d : UInt8} (h : encodeByte c = .ok d) :
    d = (if 0x80 ≤ c then 63 else c) ∧ printable d = true := by
  rw [encodeByte] at h
  split at h
  next hhigh =>
    cases h
    exact ⟨(if_pos hhigh).symm, rfl⟩
  next hascii =>
  split at h
  · cases h
  next hcontrol =>
  cases h
  refine ⟨(if_neg hascii).symm, printable_iff.mpr ?_⟩
  simp [UInt8.le_iff_toNat_le, UInt8.lt_iff_toNat_lt, ← UInt8.toNat_inj] at hascii hcontrol
  omega

variable {value : Bytes} {fields : Fields}

theorem mapM_encodeByte {out : Bytes} (h : value.mapM encodeByte = .ok out) :
    out = value.map (fun c => if 0x80 ≤ c then 63 else c) ∧ ∀ c ∈ out, printable c = true := by
  induction value generalizing out with
  | nil =>
    cases h
    exact ⟨rfl, by simp⟩
  | cons c value ih =>
    rw [mapM_cons] at h
    cases hc : encodeByte c with
    | error e => simp [hc, bind, Except.bind] at h
    | ok d =>
      cases hrest : value.mapM encodeByte with
      | error e => simp [hc, hrest, bind, Except.bind] at h
      | ok rest =>
        simp only [hc, hrest, bind, Except.bind, pure, Except.pure, Except.ok.injEq] at h
        obtain ⟨hd, hprint⟩ := encodeByte_eq_ok hc
        obtain ⟨hmap, hall⟩ := ih hrest
        rw [← h, map_cons, ← hd, ← hmap]
        exact ⟨rfl, forall_mem_cons.mpr ⟨hprint, hall⟩⟩

theorem trimValue_eq (value : Bytes) : trimValue value = (value.dropWhile blank).rdropWhile blank :=
  rfl

theorem trimValue_idem (value : Bytes) : trimValue (trimValue value) = trimValue value := by
  simp only [trimValue_eq]
  have hfront : ((value.dropWhile blank).rdropWhile blank).dropWhile blank =
      (value.dropWhile blank).rdropWhile blank := by
    obtain ⟨tail, htail⟩ := List.rdropWhile_prefix blank (value.dropWhile blank)
    cases hr : (value.dropWhile blank).rdropWhile blank with
    | nil => rfl
    | cons c r =>
      rw [hr, cons_append] at htail
      have hc : blank c = false := by
        have hnot := head_dropWhile_not blank (l := value) (by rw [← htail]; exact cons_ne_nil _ _)
        simpa [← htail] using hnot
      rw [dropWhile_cons_of_neg (by simp [hc])]
  rw [hfront, rdropWhile_idempotent]

theorem mem_trimValue {c : UInt8} (h : c ∈ trimValue value) : c ∈ value := by
  rw [trimValue_eq] at h
  exact (dropWhile_sublist blank).mem ((List.rdropWhile_prefix blank _).sublist.mem h)

theorem printable_of_mem_key {key : Bytes} (hkey : validKey key = true) {c : UInt8} (h : c ∈ key) :
    printable c = true ∧ c ≠ 61 := by
  cases key with
  | nil => cases h
  | cons first rest =>
    rw [validKey, Bool.and_eq_true, all_eq_true] at hkey
    have hc := hkey.2 c h
    rw [printable_iff, Ne, ← UInt8.toNat_inj]
    simp [lowercase, UInt8.le_iff_toNat_le, ← UInt8.toNat_inj] at hc
    change _ ∧ ¬c.toNat = 61
    omega

/-! ### Lines -/

theorem lines_append {line rest : Bytes} (h : 10 ∉ line) :
    lines (line ++ 10 :: rest) = line :: lines rest := by
  induction line with
  | nil => simp [lines]
  | cons c line ih =>
    rw [mem_cons, not_or] at h
    rw [cons_append, lines, if_neg (Ne.symm h.1), ih h.2]

theorem emplace_last {key : Bytes} (h : ∀ f ∈ fields, compare f.1 key = .lt) :
    emplace key value fields = some (fields ++ [(key, value)]) := by
  induction fields with
  | nil => rfl
  | cons f fields ih =>
    have hgt : compare key f.1 = .gt :=
      Std.OrientedOrd.eq_swap.trans (by rw [h f mem_cons_self]; rfl)
    rw [emplace, hgt, ih fun g hg => h g (mem_cons_of_mem _ hg)]
    rfl

theorem decodeLine_field {key : Bytes} (hkey : validKey key = true)
    (h : ∀ f ∈ fields, compare f.1 key = .lt) :
    decodeLine fields (key ++ 61 :: value) = some (fields ++ [(key, trimValue value)]) := by
  have htake : (key ++ 61 :: value).takeWhile (· != 61) = key := by
    rw [takeWhile_append_of_pos]
    · simp
    · intro c hc
      simpa using (printable_of_mem_key hkey hc).2
  have hdrop : (key ++ 61 :: value).drop (key.length + 1) = value := by
    simp [drop_append]
  rw [decodeLine, if_pos (by simp)]
  simp only [htake]
  rw [if_pos hkey, hdrop, emplace_last h]

def text (fields : Fields) : Bytes :=
  fields.flatMap fun f => f.1 ++ 61 :: shown f.2 ++ [10]

theorem encodeField_eq_ok {start out : Bytes} {field : Bytes × Bytes}
    (h : encodeField start field = .ok out) :
    validKey field.1 = true ∧ (∀ c ∈ shown field.2, printable c = true) ∧
      out = start ++ text [field] ∧ out.length ≤ maxPayload := by
  rw [encodeField] at h
  split at h
  · cases h
  next hkey =>
  cases hvalue : field.2.mapM encodeByte with
  | error e => simp [hvalue, bind, Except.bind] at h
  | ok value =>
    simp only [hvalue, bind, Except.bind] at h
    split at h
    · cases h
    next hroom =>
    obtain ⟨rfl, hprint⟩ := mapM_encodeByte hvalue
    cases h
    refine ⟨by simpa using hkey, fun c hc => hprint c (mem_trimValue hc), by simp [text, shown], ?_⟩
    simp only [length_append, length_cons, length_nil]
    omega

theorem foldlM_encodeField {start out : Bytes} (h : fields.foldlM encodeField start = .ok out)
    (hstart : start.length ≤ maxPayload) :
    (∀ f ∈ fields, validKey f.1 = true ∧ ∀ c ∈ shown f.2, printable c = true) ∧
      out = start ++ text fields ∧ out.length ≤ maxPayload := by
  induction fields generalizing start with
  | nil =>
    cases h
    exact ⟨by simp, by simp [text], hstart⟩
  | cons f fields ih =>
    rw [foldlM_cons] at h
    cases hf : encodeField start f with
    | error e => simp [hf, bind, Except.bind] at h
    | ok next =>
      simp only [hf, bind, Except.bind] at h
      obtain ⟨hkey, hprint, rfl, hroom⟩ := encodeField_eq_ok hf
      obtain ⟨hfields, rfl, hsize⟩ := ih h hroom
      refine ⟨forall_mem_cons.mpr ⟨⟨hkey, hprint⟩, hfields⟩, ?_, hsize⟩
      simp [text]

theorem decode_text {done : Fields}
    (hfields : ∀ f ∈ fields, validKey f.1 = true ∧ ∀ c ∈ shown f.2, printable c = true)
    (hordered : fields.Ordered) (hdone : ∀ f ∈ fields, ∀ g ∈ done, compare g.1 f.1 = .lt) :
    (lines (text fields)).foldlM decodeLine done =
      some (done ++ fields.map fun f => (f.1, shown f.2)) := by
  induction fields generalizing done with
  | nil => simp [text, lines]
  | cons f fields ih =>
    obtain ⟨hkey, hprint⟩ := hfields f mem_cons_self
    obtain ⟨hfirst, hrest⟩ := pairwise_cons.mp hordered
    have hline : 10 ∉ f.1 ++ 61 :: shown f.2 := by
      rw [mem_append, mem_cons]
      rintro (h | h | h)
      · exact absurd (printable_of_mem_key hkey h).1 (by decide)
      · exact absurd h (by decide)
      · exact absurd (hprint _ h) (by decide)
    have htext : text (f :: fields) = f.1 ++ 61 :: shown f.2 ++ 10 :: text fields := by
      simp [text]
    rw [htext, lines_append hline, foldlM_cons,
      decodeLine_field hkey (hdone f mem_cons_self), shown, trimValue_idem]
    change (lines (text fields)).foldlM decodeLine (done ++ [(f.1, shown f.2)]) = _
    rw [ih (fun g hg => hfields g (mem_cons_of_mem _ hg)) hrest]
    · simp
    · intro g hg d hd
      rcases mem_append.mp hd with hd | hd
      · exact hdone g (mem_cons_of_mem _ hg) d hd
      · rw [mem_singleton.mp hd]
        exact hfirst g hg

theorem printable_text
    (hfields : ∀ f ∈ fields, validKey f.1 = true ∧ ∀ c ∈ shown f.2, printable c = true) :
    (text fields).any (fun c => (c < 0x20 || c > 0x7e) && c != 9 && c != 10) = false := by
  rw [any_eq_false]
  intro c hc
  obtain ⟨f, hf, hc⟩ := mem_flatMap.mp hc
  have hprint : printable c = true ∨ c = 10 := by
    simp only [mem_append, mem_cons, not_mem_nil, or_false] at hc
    rcases hc with (hc | hc | hc) | hc
    · exact .inl (printable_of_mem_key (hfields f hf).1 hc).1
    · exact .inl (hc ▸ rfl)
    · exact .inl ((hfields f hf).2 c hc)
    · exact .inr hc
  rw [printable_iff, ← UInt8.toNat_inj] at hprint
  simp [UInt8.lt_iff_toNat_lt, ← UInt8.toNat_inj]
  change _ ∨ c.toNat = 10 at hprint
  omega

theorem decode_encode {payload : Bytes} (hordered : fields.Ordered)
    (h : encode fields = .ok payload) :
    decode payload = some (fields.map fun f => (f.1, shown f.2)) := by
  rw [encode] at h
  split at h
  · cases h
  next hne =>
  obtain ⟨hfields, rfl, hsize⟩ := foldlM_encodeField h (by simp)
  rw [nil_append] at hsize ⊢
  have hlength : (text fields).length ≠ 0 := by
    cases fields with
    | nil => exact absurd rfl hne
    | cons f fields => simp [text]
  rw [decode, if_neg (by omega), if_neg (by rw [printable_text hfields]; exact Bool.false_ne_true),
    decode_text hfields hordered (by simp)]
  rfl

end Info

/-! ### The snapshot of the peer -/

/-- `info::PeerSnapshot`. -/
structure PeerSnapshot where
  fields : Info.Fields := []
  received : Bool := false
  exchange : UInt64 := 0
  sequence : UInt64 := 0
  deriving DecidableEq, Repr

namespace PeerSnapshot

/-- INFO can precede the end of the handshake; a snapshot of the same exchange stays. -/
def activated (s : PeerSnapshot) (exchange : UInt64) : PeerSnapshot :=
  if s.exchange = exchange then s
  else { s with fields := [], received := false, sequence := 0, exchange := exchange }

def accept (s : PeerSnapshot) (exchange sequence : UInt64) (payload : Bytes) :
    PeerSnapshot × Bool :=
  if exchange = s.exchange ∧ sequence ≤ s.sequence then (s, false)
  else
    match Info.decode payload with
    | none => (s, false)
    | some fields => (⟨fields, true, exchange, sequence⟩, true)

/-- The calls of `accept` within one exchange, by sequence number and payload, oldest first. -/
def acceptAll (s : PeerSnapshot) (exchange : UInt64) (calls : List (UInt64 × Bytes)) :
    PeerSnapshot :=
  calls.foldl (fun s call => (s.accept exchange call.1 call.2).1) s

/-- The first of the payloads that decode and have the largest sequence number. -/
def Newest (calls : List (UInt64 × Bytes)) (sequence : UInt64) (fields : Info.Fields) : Prop :=
  ∃ before payload after, calls = before ++ (sequence, payload) :: after ∧
    Info.decode payload = some fields ∧
    (∀ call ∈ before, (Info.decode call.2).isSome → call.1 < sequence) ∧
    ∀ call ∈ after, (Info.decode call.2).isSome → call.1 ≤ sequence

variable {calls : List (UInt64 × Bytes)} {sequence : UInt64}

theorem Newest.le {fields : Info.Fields} (h : Newest calls sequence fields)
    {call : UInt64 × Bytes} (hcall : call ∈ calls) (hdecode : (Info.decode call.2).isSome) :
    call.1 ≤ sequence := by
  obtain ⟨before, payload, after, rfl, -, hbefore, hafter⟩ := h
  rcases mem_append.mp hcall with hcall | hcall
  · exact UInt64.le_of_lt (hbefore call hcall hdecode)
  rcases mem_cons.mp hcall with rfl | hcall
  · exact UInt64.le_refl _
  · exact hafter call hcall hdecode

theorem Newest.keep {fields : Info.Fields} (h : Newest calls sequence fields)
    {call : UInt64 × Bytes} (hcall : (Info.decode call.2).isSome → call.1 ≤ sequence) :
    Newest (calls ++ [call]) sequence fields := by
  obtain ⟨before, payload, after, rfl, hdecode, hbefore, hafter⟩ := h
  refine ⟨before, payload, after ++ [call], by simp, hdecode, hbefore, ?_⟩
  intro c hc
  rcases mem_append.mp hc with hc | hc
  · exact hafter c hc
  · rw [mem_singleton.mp hc]
    exact hcall

theorem accept_of_none {s : PeerSnapshot} {exchange : UInt64} {payload : Bytes}
    (h : Info.decode payload = none) : s.accept exchange sequence payload = (s, false) := by
  rw [accept, h]
  split
  · rfl
  · rfl

/-- After any calls within an exchange: nothing has been read, or the newest payload is stored. -/
theorem acceptAll_newest {start : PeerSnapshot} {exchange : UInt64}
    (h : start.exchange ≠ exchange ∨ start.sequence = 0 ∧ ∀ call ∈ calls, call.1 ≠ 0) :
    ((∀ call ∈ calls, Info.decode call.2 = none) ∧ start.acceptAll exchange calls = start) ∨
      ∃ sequence fields, Newest calls sequence fields ∧
        start.acceptAll exchange calls = ⟨fields, true, exchange, sequence⟩ := by
  induction calls using List.reverseRecOn with
  | nil => exact .inl ⟨by simp, rfl⟩
  | append_singleton calls call ih =>
    have hlast : start.acceptAll exchange (calls ++ [call]) =
        ((start.acceptAll exchange calls).accept exchange call.1 call.2).1 := by
      simp [acceptAll, foldl_append]
    rw [hlast]
    specialize ih (h.imp_right fun h => ⟨h.1, fun c hc => h.2 c (mem_append_left _ hc)⟩)
    cases hdecode : Info.decode call.2 with
    | none =>
      rw [accept_of_none hdecode]
      rcases ih with ⟨hnone, hstart⟩ | ⟨sequence, fields, hnewest, hstate⟩
      · left
        refine ⟨?_, hstart⟩
        intro c hc
        rcases mem_append.mp hc with hc | hc
        · exact hnone c hc
        · rw [mem_singleton.mp hc]
          exact hdecode
      · exact .inr ⟨sequence, fields, hnewest.keep (by simp [hdecode]), hstate⟩
    | some fields' =>
      right
      have hnew : (∀ c ∈ calls, (Info.decode c.2).isSome → c.1 < call.1) →
          Newest (calls ++ [call]) call.1 fields' := fun hbefore =>
        ⟨calls, call.2, [], rfl, hdecode, hbefore, by simp⟩
      rcases ih with ⟨hnone, hstart⟩ | ⟨sequence, fields, hnewest, hstate⟩
      · refine ⟨call.1, fields', hnew fun c hc hsome => ?_, ?_⟩
        · rw [hnone c hc] at hsome
          cases hsome
        · rw [hstart, accept, if_neg, hdecode]
          rintro ⟨hexchange, hle⟩
          rcases h with h | ⟨hzero, hcalls⟩
          · exact h hexchange.symm
          · rw [hzero] at hle
            exact hcalls call (by simp) (UInt64.le_zero_iff.mp hle)
      rw [hstate]
      by_cases hle : call.1 ≤ sequence
      · refine ⟨sequence, fields, hnewest.keep fun _ => hle, ?_⟩
        rw [accept, if_pos ⟨rfl, hle⟩]
      refine ⟨call.1, fields', hnew fun c hc hsome => ?_, ?_⟩
      · exact UInt64.lt_of_le_of_lt (hnewest.le hc hsome) (UInt64.not_le.mp hle)
      · rw [accept, if_neg fun hguard => hle hguard.2, hdecode]

end PeerSnapshot

/-- INFO fields survive the wire, a payload that does not decode changes nothing, and the snapshot
shows the newest payload of its exchange. Once the exchange has been activated this needs non-zero
sequence numbers, which are the only ones the session delivers. -/
theorem info_snapshots_forward :
    (∀ fields payload, Info.Fields.Ordered fields → Info.encode fields = .ok payload →
      Info.decode payload = some (fields.map fun f => (f.1, Info.shown f.2))) ∧
    (∀ payload fields fields', Info.decodeInto payload fields = (false, fields') →
      fields' = fields) ∧
    ∀ (start : PeerSnapshot) exchange calls,
      (start.exchange ≠ exchange ∨ start.sequence = 0 ∧ ∀ call ∈ calls, call.1 ≠ 0) →
      (((∀ call ∈ calls, Info.decode call.2 = none) ∧ start.acceptAll exchange calls = start) ∨
        ∃ sequence fields, PeerSnapshot.Newest calls sequence fields ∧
          start.acceptAll exchange calls = ⟨fields, true, exchange, sequence⟩) ∧
      ∀ old ∈ calls, (Info.decode old.2).isSome → ∀ sequence payload, sequence ≤ old.1 →
        (start.acceptAll exchange calls).accept exchange sequence payload =
          (start.acceptAll exchange calls, false) := by
  refine ⟨fun fields payload => Info.decode_encode, ?_, ?_⟩
  · intro payload fields fields' h
    rw [Info.decodeInto] at h
    split at h
    · cases h
    · cases h
      rfl
  · intro start exchange calls h
    have hnewest := PeerSnapshot.acceptAll_newest h
    refine ⟨hnewest, ?_⟩
    intro old hold hsome sequence payload hle
    rcases hnewest with ⟨hnone, -⟩ | ⟨newest, fields, hnewest, hstate⟩
    · rw [hnone old hold] at hsome
      cases hsome
    · rw [hstate, PeerSnapshot.accept, if_pos ⟨rfl, UInt64.le_trans hle (hnewest.le hold hsome)⟩]

/-- A payload with sequence number zero is refused once the exchange is known, although it is the
only one and decodes. -/
theorem zero_sequence_refused :
    Info.decode (ascii "a=b") = some [(ascii "a", ascii "b")] ∧
      (({} : PeerSnapshot).activated 100).acceptAll 100 [(0, ascii "a=b")] =
        { exchange := 100 } := by
  decide

end Tuntom
