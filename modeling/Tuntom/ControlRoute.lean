import Tuntom.ControlAuth

/-! Routed control frames: the hop stacks of `control_route.hpp`, their limits and
their bytes. -/
namespace Tuntom.ControlRoute
open List
open Control (Id zeroBlock proofSize challengeSize controlMaxBody)

def headerSize : ℕ := 52
def maxStackBytes : ℕ := 1024
def maxHops : ℕ := 16
def maxFrame : ℕ := 65535

inductive Kind
  | put | status | reply | finish | confirmed | discover | found | altPath | routeError | challenge
  deriving DecidableEq, Repr

def Kind.toByte : Kind → UInt8
  | put => 1
  | status => 2
  | reply => 3
  | finish => 4
  | confirmed => 5
  | discover => 6
  | found => 7
  | altPath => 8
  | routeError => 9
  | challenge => 10

def Kind.ofByte (b : UInt8) : Option Kind :=
  [put, status, reply, finish, confirmed, discover, found, altPath, routeError, challenge].find?
    fun k => k.toByte == b

theorem Kind.toByte_of_ofByte {b : UInt8} {k : Kind} (h : ofByte b = some k) : k.toByte = b := by
  simpa using List.find?_some h

@[simp] theorem Kind.ofByte_toByte (k : Kind) : ofByte k.toByte = some k := by
  cases k <;> rfl

inductive HopType
  | peer | port | link
  deriving DecidableEq, Repr

def HopType.toByte : HopType → UInt8
  | peer => 1
  | port => 2
  | link => 3

def HopType.ofByte (b : UInt8) : Option HopType :=
  [peer, port, link].find? fun t => t.toByte == b

theorem HopType.toByte_of_ofByte {b : UInt8} {t : HopType} (h : ofByte b = some t) :
    t.toByte = b := by
  simpa using List.find?_some h

@[simp] theorem HopType.ofByte_toByte (t : HopType) : ofByte t.toByte = some t := by
  cases t <;> rfl

structure Hop where
  type : HopType := .peer
  value : Bytes := []
  deriving DecidableEq, Repr

namespace Hop

def peer : Hop := {}
def port (name : Bytes) : Hop := { type := .port, value := name }
def link (id : Id) : Hop := { type := .link, value := id.toList }

def valid (hop : Hop) : Bool :=
  match hop.type with
  | .peer => hop.value.isEmpty
  | .link => hop.value.length = 16 ∧ hop.value ≠ List.replicate 16 0
  | .port => hop.value ≠ [] ∧ hop.value.length ≤ 63 ∧ hop.value.all fun c => 0x21 ≤ c ∧ c ≤ 0x7e

def bytes (hop : Hop) : Bytes := hop.type.toByte :: UInt8.ofNat hop.value.length :: hop.value

theorem length_value_le {hop : Hop} (h : hop.valid = true) : hop.value.length ≤ 63 := by
  rw [valid] at h
  split at h
  · rw [isEmpty_iff.mp h]
    exact Nat.zero_le _
  · have hlen := (of_decide_eq_true h).1
    omega
  · exact (of_decide_eq_true h).2.1

theorem length_bytes (hop : Hop) : hop.bytes.length = 2 + hop.value.length := by
  simp only [bytes, length_cons]
  omega

theorem length_bytes_le {hop : Hop} (h : hop.valid = true) : hop.bytes.length ≤ 65 := by
  have hle := length_value_le h
  rw [length_bytes]
  omega

theorem link_injective {a b : Id} (h : link a = link b) : a = b := by
  have hlist : a.toList = b.toList := congrArg Hop.value h
  rw [← block_toList a, ← block_toList b, hlist]

theorem valid_link {id : Id} (h : id ≠ zeroBlock 16) : (link id).valid = true := by
  refine decide_eq_true ⟨?_, ?_⟩
  · exact Vector.length_toList
  · intro hzero
    apply h
    rw [← block_toList id, ← block_toList (zeroBlock 16)]
    rw [show id.toList = List.replicate 16 0 from hzero]
    rfl

theorem length_link (id : Id) : (link id).bytes.length = 18 := by
  rw [length_bytes]
  exact congrArg (2 + ·) Vector.length_toList

end Hop

abbrev Path := List Hop

def pathBytes (path : Path) : Bytes := path.flatMap Hop.bytes

/-- What `encode_path` does not throw on. -/
def Stackable (path : Path) : Prop :=
  path.length ≤ maxHops ∧ (∀ hop ∈ path, hop.valid = true) ∧ (pathBytes path).length ≤ maxStackBytes

instance (path : Path) : Decidable (Stackable path) := inferInstanceAs (Decidable (_ ∧ _ ∧ _))

/-- The loop of `decode_path`, with `room` hops left. -/
def decodeHops : ℕ → Bytes → Option Path
  | _, [] => some []
  | 0, _ :: _ => none
  | _ + 1, [_] => none
  | room + 1, type :: size :: rest =>
    if rest.length < size.toNat then none
    else
      match HopType.ofByte type with
      | none => none
      | some type =>
        let hop : Hop := { type, value := rest.take size.toNat }
        if hop.valid then (decodeHops room (rest.drop size.toNat)).map (hop :: ·) else none

def decodePath (b : Bytes) : Option Path :=
  if maxStackBytes < b.length then none else decodeHops maxHops b

theorem pathBytes_cons (hop : Hop) (path : Path) :
    pathBytes (hop :: path) = hop.bytes ++ pathBytes path := rfl

variable {path : Path}

theorem length_pathBytes_le (h : ∀ hop ∈ path, hop.valid = true) :
    (pathBytes path).length ≤ 65 * path.length := by
  induction path with
  | nil => exact Nat.le_refl _
  | cons hop rest ih =>
    have hhop := Hop.length_bytes_le (h hop mem_cons_self)
    have hrest := ih fun g hg => h g (mem_cons_of_mem _ hg)
    rw [pathBytes_cons, length_append, length_cons]
    omega

theorem Stackable.push (h : Stackable path) (hroom : path.length < maxHops) {id : Id}
    (hid : id ≠ zeroBlock 16) : Stackable (Hop.link id :: path) := by
  refine ⟨hroom, ?_, ?_⟩
  · intro hop hmem
    rcases mem_cons.mp hmem with rfl | hmem
    · exact Hop.valid_link hid
    · exact h.2.1 hop hmem
  · have hle := length_pathBytes_le h.2.1
    rw [pathBytes_cons, length_append, Hop.length_link]
    simp only [maxHops, maxStackBytes] at hroom ⊢
    omega

theorem Stackable.tail {hop : Hop} (h : Stackable (hop :: path)) : Stackable path := by
  obtain ⟨hlen, hvalid, hsize⟩ := h
  rw [pathBytes_cons, length_append] at hsize
  rw [length_cons] at hlen
  exact ⟨by omega, fun g hg => hvalid g (mem_cons_of_mem _ hg), by omega⟩

theorem stackable_nil : Stackable [] := by decide

theorem decodeHops_bytes {room : ℕ} (hroom : path.length ≤ room)
    (hvalid : ∀ hop ∈ path, hop.valid = true) : decodeHops room (pathBytes path) = some path := by
  induction path generalizing room with
  | nil => cases room <;> rfl
  | cons hop rest ih =>
    obtain ⟨room, rfl⟩ : ∃ n, room = n + 1 := ⟨room - 1, by rw [length_cons] at hroom; omega⟩
    have hhop := hvalid hop mem_cons_self
    have hle := Hop.length_value_le hhop
    have hsize : (UInt8.ofNat hop.value.length).toNat = hop.value.length := by
      refine UInt8.toNat_ofNat_of_lt' ?_
      show _ < 256
      omega
    have hrest := @ih room (by rw [length_cons] at hroom; omega)
      fun g hg => hvalid g (mem_cons_of_mem _ hg)
    have hfits : ¬(hop.value ++ pathBytes rest).length < hop.value.length := by
      rw [length_append]
      omega
    rw [pathBytes_cons, Hop.bytes, cons_append, cons_append, decodeHops, hsize,
      if_neg hfits, HopType.ofByte_toByte]
    simp only [take_left', drop_left', hrest, Option.map_some]
    exact if_pos hhop

theorem decodePath_bytes (h : Stackable path) : decodePath (pathBytes path) = some path := by
  rw [decodePath, if_neg (Nat.not_lt.mpr h.2.2)]
  exact decodeHops_bytes h.1 h.2.1

theorem decodeHops_sound {room : ℕ} {b : Bytes} (h : decodeHops room b = some path) :
    path.length ≤ room ∧ (∀ hop ∈ path, hop.valid = true) ∧ pathBytes path = b := by
  fun_induction decodeHops room b generalizing path with
  | case1 => cases h; simp [pathBytes]
  | case2 | case3 | case4 | case5 => cases h
  | case6 =>
    rename_i hfits type htype hop hvalid ih
    obtain ⟨tail, htail, rfl⟩ := Option.map_eq_some_iff.mp h
    obtain ⟨hlen, hall, hbytes⟩ := ih htail
    refine ⟨Nat.succ_le_succ hlen, forall_mem_cons.mpr ⟨hvalid, hall⟩, ?_⟩
    have hsize : hop.value.length = _ := length_take_of_le (Nat.not_lt.mp hfits)
    rw [pathBytes_cons, hbytes, Hop.bytes, hsize, HopType.toByte_of_ofByte htype,
      UInt8.ofNat_toNat, cons_append, cons_append, take_append_drop]
  | case7 => cases h

theorem decodePath_sound {b : Bytes} (h : decodePath b = some path) :
    Stackable path ∧ pathBytes path = b := by
  rw [decodePath] at h
  split at h
  next => cases h
  next hfits =>
  obtain ⟨hlen, hall, hbytes⟩ := decodeHops_sound h
  exact ⟨⟨hlen, hall, by rw [hbytes]; exact Nat.not_lt.mp hfits⟩, hbytes⟩

structure Frame where
  kind : Kind := .status
  state : UInt8 := 0
  remaining : UInt8 := 16
  request : Id := zeroBlock 16
  origin : Id := zeroBlock 16
  offset : UInt32 := 0
  total : UInt32 := 0
  destination : Path := []
  replyPath : Path := []
  command : Bytes := []
  data : Bytes := []
  auth : Bytes := []
  deriving DecidableEq, Repr

namespace Frame

/-- Kinds that belong to a transaction, the ones up to `confirmed`. -/
def transaction (f : Frame) : Bool := f.kind.toByte ≤ 5

def fieldsValid (f : Frame) : Bool :=
  if f.remaining = 0 ∨ 16 < f.remaining ∨ f.request = zeroBlock 16 ∨ f.origin = zeroBlock 16 ∨
      256 < f.command.length then false
  else if f.auth ≠ [] ∧ (8 < f.kind.toByte ∨ f.auth.length ≠ proofSize) then false
  else if f.kind = .challenge then
    f.state = 0 ∧ f.offset = 0 ∧ f.total = 0 ∧ f.data.length = challengeSize
  else if f.transaction then
    if f.state < 1 ∨ 8 < f.state then false
    else if f.kind ≠ .put ∧ f.command ≠ [] then false
    else if (f.kind = .status ∨ f.kind = .finish ∨ f.kind = .confirmed) ∧ f.data ≠ [] then false
    else if f.kind = .put ∨ (f.kind = .reply ∧ 4 ≤ f.state ∧ f.state ≤ 7) then
      f.total.toNat ≤ controlMaxBody ∧ f.offset ≤ f.total ∧
        f.data.length ≤ f.total.toNat - f.offset.toNat
    else true
  else f.state = 0 ∧ f.offset = 0 ∧ f.total = 0 ∧ (f.kind ≠ .discover ∨ f.data = [])

def size (f : Frame) : ℕ :=
  headerSize + f.auth.length + (pathBytes f.destination).length + (pathBytes f.replyPath).length +
    f.command.length + f.data.length

/-- What `encode` does not throw on. -/
def Encodable (f : Frame) : Prop :=
  f.fieldsValid = true ∧ Stackable f.destination ∧ Stackable f.replyPath ∧ f.size ≤ maxFrame

instance (f : Frame) : Decidable f.Encodable := inferInstanceAs (Decidable (_ ∧ _ ∧ _ ∧ _))

def lengths (f : Frame) : Bytes :=
  storeBe16 (UInt16.ofNat f.command.length) ++
    (storeBe16 (UInt16.ofNat (pathBytes f.destination).length) ++
      (storeBe16 (UInt16.ofNat (pathBytes f.replyPath).length) ++
        storeBe16 (UInt16.ofNat f.auth.length)))

def body (f : Frame) : Bytes :=
  f.auth ++ (pathBytes f.destination ++ (pathBytes f.replyPath ++ (f.command ++ f.data)))

def header (f : Frame) : Bytes :=
  [2, f.kind.toByte, f.state, f.remaining] ++ (f.request.toList ++ (f.origin.toList ++
    (storeBe32 f.offset ++ storeBe32 f.total)))

def bytes (f : Frame) : Bytes := f.header ++ (f.lengths ++ f.body)

def encode (f : Frame) : Option Bytes := if f.Encodable then some f.bytes else none

def readBody (b : Bytes) (kind : Kind) (auth command destination reply : ℕ) : Option Frame :=
  match decodePath (field b (headerSize + auth) destination),
      decodePath (field b (headerSize + auth + destination) reply) with
  | some dest, some back => some
    { kind
      state := b.getD 2 0
      remaining := b.getD 3 0
      request := block 16 (field b 4 16)
      origin := block 16 (field b 20 16)
      offset := loadBe32 b 36
      total := loadBe32 b 40
      destination := dest
      replyPath := back
      auth := field b headerSize auth
      command := field b (headerSize + auth + destination + reply) command
      data := b.drop (headerSize + auth + destination + reply + command) }
  | _, _ => none

def read (b : Bytes) : Option Frame :=
  if b.length < headerSize ∨ maxFrame < b.length ∨ b.getD 0 0 ≠ 2 then none
  else
    match Kind.ofByte (b.getD 1 0) with
    | none => none
    | some kind =>
      let auth := (loadBe16 b 50).toNat
      let command := (loadBe16 b 44).toNat
      let destination := (loadBe16 b 46).toNat
      let reply := (loadBe16 b 48).toNat
      if (auth ≠ 0 ∧ auth ≠ proofSize) ∨ 256 < command ∨
          b.length < headerSize + auth + command + destination + reply then none
      else readBody b kind auth command destination reply

def decode (b : Bytes) : Option Frame := (read b).filter fieldsValid

/-- `discovery_canonical`: what the proofs on discovery frames cover, without the
fields that routers rewrite. -/
def discoveryCanonical (f : Frame) : Option Bytes :=
  (encode { f with auth := [], destination := [], replyPath := [], remaining := 16 }).map fun b =>
    ascii "TUNTOM-DISCOVERY-v1" ++ [0] ++ b

def response (request : Frame) (kind : Kind) (data : Bytes) : Frame :=
  { kind, request := request.request, origin := request.origin, destination := request.replyPath
    command := request.command, data }

variable {f : Frame}

theorem encode_eq_some {b : Bytes} (h : f.encode = some b) : f.Encodable ∧ b = f.bytes := by
  rw [encode] at h
  split at h
  next hf => exact ⟨hf, (Option.some.inj h).symm⟩
  next => cases h

theorem encode_of (h : f.Encodable) : f.encode = some f.bytes := if_pos h

theorem length_header (f : Frame) : f.header.length = 44 := by
  simp [header]

theorem length_lengths (f : Frame) : f.lengths.length = 8 := by
  simp [lengths]

theorem length_bytes (f : Frame) : f.bytes.length = f.size := by
  simp only [bytes, body, length_append, length_header, length_lengths, size, headerSize]
  omega

theorem command_le (h : f.fieldsValid = true) : f.command.length ≤ 256 := by
  rw [fieldsValid] at h
  split at h
  · cases h
  · omega

theorem auth_length (h : f.fieldsValid = true) : f.auth = [] ∨ f.auth.length = proofSize := by
  by_contra hnot
  rw [not_or] at hnot
  rw [fieldsValid] at h
  split at h
  · cases h
  · rw [if_pos ⟨hnot.1, .inr hnot.2⟩] at h
    cases h

theorem load_lengths (h : f.Encodable) :
    (loadBe16 f.bytes 44).toNat = f.command.length ∧
      (loadBe16 f.bytes 46).toNat = (pathBytes f.destination).length ∧
      (loadBe16 f.bytes 48).toNat = (pathBytes f.replyPath).length ∧
      (loadBe16 f.bytes 50).toNat = f.auth.length := by
  have hsize := h.2.2.2
  simp only [size, headerSize, maxFrame] at hsize
  have hload : ∀ {front back : Bytes} {offset n : ℕ}, n < 2 ^ 16 → front.length = offset →
      (loadBe16 (front ++ (storeBe16 (UInt16.ofNat n) ++ back)) offset).toNat = n := by
    intro front back offset n hn hfront
    rw [loadBe16_store _ hfront, UInt16.toNat_ofNat_of_lt' hn]
  refine ⟨?_, ?_, ?_, ?_⟩
  · rw [bytes, lengths, append_assoc]
    exact hload (by omega) (length_header f)
  · have hsplit : f.bytes = (f.header ++ storeBe16 (UInt16.ofNat f.command.length)) ++
        (storeBe16 (UInt16.ofNat (pathBytes f.destination).length) ++
          (storeBe16 (UInt16.ofNat (pathBytes f.replyPath).length) ++
            (storeBe16 (UInt16.ofNat f.auth.length) ++ f.body))) := by
      simp only [bytes, lengths, append_assoc]
    rw [hsplit]
    exact hload (by omega) (by simp [length_header])
  · have hsplit : f.bytes = (f.header ++ storeBe16 (UInt16.ofNat f.command.length) ++
        storeBe16 (UInt16.ofNat (pathBytes f.destination).length)) ++
        (storeBe16 (UInt16.ofNat (pathBytes f.replyPath).length) ++
          (storeBe16 (UInt16.ofNat f.auth.length) ++ f.body)) := by
      simp only [bytes, lengths, append_assoc]
    rw [hsplit]
    exact hload (by omega) (by simp [length_header])
  · have hsplit : f.bytes = (f.header ++ storeBe16 (UInt16.ofNat f.command.length) ++
        storeBe16 (UInt16.ofNat (pathBytes f.destination).length) ++
        storeBe16 (UInt16.ofNat (pathBytes f.replyPath).length)) ++
        (storeBe16 (UInt16.ofNat f.auth.length) ++ f.body) := by
      simp only [bytes, lengths, append_assoc]
    rw [hsplit]
    exact hload (by omega) (by simp [length_header])

theorem load_header (f : Frame) :
    field f.bytes 4 16 = f.request.toList ∧ field f.bytes 20 16 = f.origin.toList ∧
      loadBe32 f.bytes 36 = f.offset ∧ loadBe32 f.bytes 40 = f.total := by
  refine ⟨?_, ?_, ?_, ?_⟩
  · rw [bytes, header, append_assoc, append_assoc]
    exact field_append rfl (by simp)
  · rw [bytes, header, append_assoc, append_assoc, append_assoc, ← append_assoc]
    exact field_append (by simp) (by simp)
  · rw [bytes, header, append_assoc, append_assoc, append_assoc, append_assoc,
      ← append_assoc, ← append_assoc]
    exact loadBe32_store _ (by simp)
  · rw [bytes, header, append_assoc, append_assoc, append_assoc, append_assoc,
      ← append_assoc, ← append_assoc, ← append_assoc]
    exact loadBe32_store _ (by simp)

theorem load_body (f : Frame) :
    field f.bytes headerSize f.auth.length = f.auth ∧
      field f.bytes (headerSize + f.auth.length) (pathBytes f.destination).length =
        pathBytes f.destination ∧
      field f.bytes (headerSize + f.auth.length + (pathBytes f.destination).length)
        (pathBytes f.replyPath).length = pathBytes f.replyPath ∧
      field f.bytes (headerSize + f.auth.length + (pathBytes f.destination).length +
        (pathBytes f.replyPath).length) f.command.length = f.command ∧
      f.bytes.drop (headerSize + f.auth.length + (pathBytes f.destination).length +
        (pathBytes f.replyPath).length + f.command.length) = f.data := by
  have hfront : (f.header ++ f.lengths).length = headerSize := by
    rw [length_append, length_header, length_lengths]
    rfl
  refine ⟨?_, ?_, ?_, ?_, ?_⟩
  · rw [bytes, ← append_assoc]
    exact field_append hfront rfl
  · rw [bytes, ← append_assoc, body, ← append_assoc]
    exact field_append (by rw [length_append, hfront]) rfl
  · rw [bytes, ← append_assoc, body, ← append_assoc, ← append_assoc]
    exact field_append (by rw [length_append, length_append, hfront]) rfl
  · rw [bytes, ← append_assoc, body, ← append_assoc, ← append_assoc,
      ← append_assoc]
    refine field_append ?_ rfl
    rw [length_append, length_append, length_append, hfront]
  · rw [bytes, ← append_assoc, body, ← append_assoc, ← append_assoc,
      ← append_assoc, ← append_assoc]
    refine drop_left' ?_
    rw [length_append, length_append, length_append, length_append, hfront]

theorem readBody_bytes (h : f.Encodable) :
    readBody f.bytes f.kind f.auth.length f.command.length (pathBytes f.destination).length
      (pathBytes f.replyPath).length = some f := by
  obtain ⟨hrequest, horigin, hoffset, htotal⟩ := load_header f
  obtain ⟨hauth, hdest, hreply, hcommand, hdata⟩ := load_body f
  have hfirst : f.bytes.getD 2 0 = f.state ∧ f.bytes.getD 3 0 = f.remaining := ⟨rfl, rfl⟩
  rw [readBody, hdest, hreply, decodePath_bytes h.2.1, decodePath_bytes h.2.2.1]
  simp only [hrequest, horigin, hoffset, htotal, hauth, hcommand, hdata, hfirst.1, hfirst.2,
    block_toList]

theorem decode_bytes (h : f.Encodable) : decode f.bytes = some f := by
  obtain ⟨hcommand, hdest, hreply, hauth⟩ := load_lengths h
  have hlen := length_bytes f
  have hsize := h.2.2.2
  have hfirst : f.bytes.getD 0 0 = 2 ∧ f.bytes.getD 1 0 = f.kind.toByte := ⟨rfl, rfl⟩
  have hpass : ¬(f.bytes.length < headerSize ∨ maxFrame < f.bytes.length ∨ (2 : UInt8) ≠ 2) := by
    rintro (hshort | hlong | hne)
    · rw [hlen, size] at hshort
      omega
    · omega
    · exact hne rfl
  have hfits : ¬((f.auth.length ≠ 0 ∧ f.auth.length ≠ proofSize) ∨ 256 < f.command.length ∨
      f.bytes.length < headerSize + f.auth.length + f.command.length +
        (pathBytes f.destination).length + (pathBytes f.replyPath).length) := by
    rintro (⟨hne, hbad⟩ | hlong | hshort)
    · rcases auth_length h.1 with hnil | hsome
      · exact hne (by rw [hnil, length_nil])
      · exact hbad hsome
    · have hle := command_le h.1
      omega
    · rw [hlen, size] at hshort
      omega
  rw [decode, read, hfirst.1, hfirst.2, if_neg hpass, Kind.ofByte_toByte]
  simp only [hcommand, hdest, hreply, hauth, if_neg hfits, readBody_bytes h, Option.filter_some,
    h.1, if_true]

theorem decode_encode {b : Bytes} (h : f.encode = some b) : decode b = some f := by
  obtain ⟨hf, rfl⟩ := encode_eq_some h
  exact decode_bytes hf

theorem readBody_sound {b : Bytes} {kind : Kind} {auth command destination reply : ℕ}
    (h : readBody b kind auth command destination reply = some f)
    (hfits : headerSize + auth + command + destination + reply ≤ b.length) :
    Stackable f.destination ∧ Stackable f.replyPath ∧ f.size = b.length := by
  rw [readBody] at h
  split at h
  next dest back hdest hback =>
    obtain ⟨hd, hdest⟩ := decodePath_sound hdest
    obtain ⟨hr, hback⟩ := decodePath_sound hback
    cases h
    refine ⟨hd, hr, ?_⟩
    rw [size]
    simp only [hdest, hback, length_drop]
    rw [length_field (by omega), length_field (by omega), length_field (by omega),
      length_field (by omega)]
    omega
  next => cases h

theorem decode_sound {b : Bytes} (h : decode b = some f) : f.Encodable ∧ f.size = b.length := by
  obtain ⟨hread, hvalid⟩ := Option.filter_eq_some_iff.mp h
  rw [read] at hread
  split at hread
  next => cases hread
  next hpass =>
  split at hread
  next => cases hread
  next kind _ =>
  dsimp only at hread
  split at hread
  next => cases hread
  next hfits =>
  obtain ⟨hd, hr, hsize⟩ := readBody_sound hread (by omega)
  exact ⟨⟨hvalid, hd, hr, by omega⟩, hsize⟩

end Frame

end Tuntom.ControlRoute
