import Tuntom.SwitchRuleset
import Tuntom.WordFields

/-! The VIA envelope of a label stack (`via/codec.hpp`) and the part of it that an
adapter handles (`via/adapter.hpp`). -/
namespace Tuntom.Via

inductive Action
  | offer | onward | bypass | complete
  deriving DecidableEq, Repr

namespace Action

def code : Action → UInt64
  | .offer => 0
  | .onward => 1
  | .bypass => 2
  | .complete => 3

def ofCode (code : UInt64) : Option Action :=
  if code = 0 then some .offer else if code = 1 then some .onward
  else if code = 2 then some .bypass else if code = 3 then some .complete else none

end Action

structure Envelope where
  base : Labels := []
  saved : Labels := []
  cookie : UInt32 := 0
  chain : UInt32 := 0
  originId : UInt64 := 0
  step : UInt16 := 0
  action : Action := .offer
  reverse : Bool := false
  present : Bool := false
  deriving DecidableEq, Repr

def magic : UInt64 := 0x5649410000

def marker (label : UInt64) : Bool := label &&& 0xffffff0000 == magic

def letter (c : UInt32) : Bool := (97 ≤ c && c ≤ 122) || (65 ≤ c && c ≤ 90)

def lettered (cookie : UInt32) : Bool :=
  letter (cookie >>> 16) && letter ((cookie >>> 8) &&& 255) && letter (cookie &&& 255)

namespace Envelope

def header (env : Envelope) : UInt64 :=
  (env.cookie.toUInt64 <<< 40) ||| magic ||| 0x100 ||| UInt64.ofNat (3 + env.saved.length)

def ctx (env : Envelope) : UInt64 :=
  (env.chain.toUInt64 <<< 32) ||| (env.step.toUInt64 <<< 16) |||
    (UInt64.ofNat env.saved.length <<< 8) ||| (env.action.code <<< 1) |||
    (if env.reverse then 1 else 0)

end Envelope

def attach (env : Envelope) : Option Labels :=
  if env.base = [] ∨ env.saved = [] ∨ env.originId = 0 ∨ env.chain = 0 ∨ !lettered env.cookie ∨
      switchMaxLabels < env.base.length + 3 + env.saved.length then none
  else some (env.base ++ env.header :: env.ctx :: env.originId :: env.saved)

variable {env result : Envelope} {labels : Labels}

theorem attach_isSome_iff :
    (attach env).isSome ↔ env.base ≠ [] ∧ env.saved ≠ [] ∧ env.originId ≠ 0 ∧ env.chain ≠ 0 ∧
      lettered env.cookie ∧ env.base.length + 3 + env.saved.length ≤ switchMaxLabels := by
  by_cases h : env.base = [] ∨ env.saved = [] ∨ env.originId = 0 ∨ env.chain = 0 ∨
      !lettered env.cookie ∨ switchMaxLabels < env.base.length + 3 + env.saved.length
  · rw [attach, if_pos h]
    simp only [Option.isSome_none, Bool.false_eq_true, false_iff]
    rintro ⟨h₁, h₂, h₃, h₄, h₅, h₆⟩
    simp [h₁, h₂, h₃, h₄, h₅, Nat.not_lt.mpr h₆] at h
  · rw [attach, if_neg h]
    simp only [not_or, Bool.not_eq_true, Bool.not_eq_false', not_lt] at h
    exact ⟨fun _ => h, fun _ => rfl⟩

/-- The envelope that starts with `header` and goes on in `body`. -/
def readEnvelope (result : Envelope) (header : UInt64) (body : Labels) : Option Envelope :=
  let count := (header &&& 255).toNat
  let cookie := (header >>> 40).toUInt32
  if result.present ∨ (header >>> 8) &&& 255 ≠ 1 ∨ count < 4 ∨ body.length + 1 < count ∨
      !lettered cookie then none
  else match body with
    | ctx :: originId :: rest =>
      let chain := (ctx >>> 32).toUInt32
      let saved := ((ctx >>> 8) &&& 255).toNat
      let flags := ctx &&& 255
      if chain = 0 ∨ count ≠ saved + 3 ∨ flags &&& 0xf0 ≠ 0 then none
      else do
        let action ← Action.ofCode ((flags >>> 1) &&& 7)
        if originId = 0 then none
        else some { result with
          cookie := cookie, chain := chain, step := (ctx >>> 16).toUInt16
          reverse := flags &&& 1 != 0, action := action, originId := originId
          saved := rest.take saved, present := true }
    | _ => none

/-- The loop of `split`; `skip` labels still belong to the envelope just read. -/
def splitFrom : ℕ → Envelope → Labels → Option Envelope
  | _, result, [] => if result.base = [] then none else some result
  | skip + 1, result, _ :: rest => splitFrom skip result rest
  | 0, result, label :: rest =>
    if marker label then do
      let result ← readEnvelope result label rest
      splitFrom ((label &&& 255).toNat - 1) result rest
    else splitFrom 0 { result with base := result.base ++ [label] } rest

def split (labels : Labels) : Option Envelope := splitFrom 0 {} labels

/-! ### Adapters -/

/-- `AdapterCodec::receive` on the client (`false`) or server (`true`) side. -/
def receive (labels : Labels) (server : Bool) : Option Envelope := do
  let env ← split labels
  if env.present ∧ env.action = .offer ∧ env.reverse = server ∧ env.step ≠ 65535 then some env
  else none

/-- `AdapterCodec::onward` towards the client or server side. -/
def onward (env : Envelope) (server : Bool) : Envelope :=
  { env with reverse := !server, action := .onward }

def bypass (env : Envelope) : Envelope := { env with action := .bypass }

/-! ### Splitting -/

theorem splitFrom_skip (result : Envelope) (body rest : Labels) :
    splitFrom body.length result (body ++ rest) = splitFrom 0 result rest := by
  induction body with
  | nil => rfl
  | cons label body ih => exact ih

theorem splitFrom_base {base rest : Labels} (h : ∀ l ∈ base, marker l = false) :
    splitFrom 0 result (base ++ rest) = splitFrom 0 { result with base := result.base ++ base } rest := by
  induction base generalizing result with
  | nil => simp
  | cons label base ih =>
    have hlabel := h label List.mem_cons_self
    have hbase := fun l hl => h l (List.mem_cons_of_mem _ hl)
    rw [List.cons_append, splitFrom, if_neg (by simp [hlabel]), ih hbase]
    simp

theorem split_plain (hne : labels ≠ []) (h : ∀ l ∈ labels, marker l = false) :
    split labels = some { base := labels } := by
  have hsplit : splitFrom 0 {} (labels ++ []) = splitFrom 0 { base := [] ++ labels } [] :=
    splitFrom_base h
  rw [List.append_nil, List.nil_append] at hsplit
  rw [split, hsplit, splitFrom, if_neg hne]

theorem splitFrom_present {skip : ℕ} (h : splitFrom skip result labels = some env)
    (hp : result.present) : env.present := by
  induction labels generalizing skip result with
  | nil =>
    rw [splitFrom] at h
    split at h
    · cases h
    · cases h; exact hp
  | cons label rest ih =>
    cases skip with
    | succ skip => exact ih h hp
    | zero =>
      rw [splitFrom] at h
      split at h
      · obtain ⟨next, hnext, -⟩ := Option.bind_eq_some_iff.mp h
        simp [readEnvelope, hp] at hnext
      · exact ih h hp

theorem present_of_readEnvelope {label : UInt64} {body : Labels}
    (h : readEnvelope result label body = some env) : env.present := by
  simp only [readEnvelope] at h
  split at h
  · cases h
  split at h
  · split at h
    · cases h
    · obtain ⟨action, -, h⟩ := Option.bind_eq_some_iff.mp h
      split at h
      · cases h
      · cases h; rfl
  · cases h

/-- A marker is never taken for an ordinary label: the stack is refused, or an envelope
was read from it. -/
theorem present_of_marker {l : UInt64} (h : split labels = some env) (hl : l ∈ labels)
    (hm : marker l) : env.present := by
  have key : ∀ result : Envelope, splitFrom 0 result labels = some env → env.present := by
    clear h
    induction labels with
    | nil => cases hl
    | cons label rest ih =>
      intro result h
      rw [splitFrom] at h
      split at h
      next =>
        obtain ⟨next, hnext, h⟩ := Option.bind_eq_some_iff.mp h
        exact splitFrom_present h (present_of_readEnvelope hnext)
      next hlabel =>
      rcases List.mem_cons.mp hl with rfl | hrest
      · exact absurd hm hlabel
      · exact ih hrest _ h
  exact key _ h

/-! ### Round trip -/

theorem toNat_le_of_letter {c : UInt32} (h : letter c) : c.toNat ≤ 122 := by
  simp only [letter, Bool.or_eq_true, Bool.and_eq_true, decide_eq_true_eq,
    UInt32.le_iff_toNat_le] at h
  have h122 : (122 : UInt32).toNat = 122 := rfl
  have h90 : (90 : UInt32).toNat = 90 := rfl
  omega

theorem cookie_lt {cookie : UInt32} (h : lettered cookie) : cookie.toNat < 2 ^ 24 := by
  simp only [lettered, Bool.and_eq_true] at h
  have hle := toNat_le_of_letter h.1.1
  rw [UInt32.toNat_shiftRight, Nat.shiftRight_eq_div_pow] at hle
  have h16 : (16 : UInt32).toNat % 32 = 16 := rfl
  rw [h16] at hle
  omega

namespace Envelope

variable {env : Envelope}

theorem header_toNat (hc : lettered env.cookie) (hs : env.saved.length ≤ 8) :
    env.header.toNat = env.cookie.toNat * 2 ^ 40 + (0x56494101 * 2 ^ 8 + (3 + env.saved.length)) := by
  have hlen : (UInt64.ofNat (3 + env.saved.length)).toNat = 3 + env.saved.length :=
    UInt64.toNat_ofNat_of_lt (by rw [UInt64.size]; omega)
  have hcookie : env.cookie.toUInt64.toNat < 2 ^ (64 - (40 : UInt64).toNat) := by
    rw [UInt32.toNat_toUInt64]
    exact cookie_lt hc
  have hlow : (((0x56494101 : UInt64) <<< 8) ||| UInt64.ofNat (3 + env.saved.length)).toNat =
      0x56494101 * 2 ^ 8 + (3 + env.saved.length) := by
    rw [WordFields.toNat_pack (by decide) (by decide) (by rw [hlen]; change _ < 2 ^ 8; omega), hlen]
    rfl
  have hsplit : env.header = (env.cookie.toUInt64 <<< 40) |||
      (((0x56494101 : UInt64) <<< 8) ||| UInt64.ofNat (3 + env.saved.length)) := by
    rw [header, UInt64.or_assoc, UInt64.or_assoc]
    rw [← UInt64.or_assoc magic]
    rfl
  rw [hsplit, WordFields.toNat_pack (by decide) hcookie (by rw [hlow]; change _ < 2 ^ 40; omega),
    hlow, UInt32.toNat_toUInt64]
  rfl

def flags (env : Envelope) : UInt64 := (env.action.code <<< 1) ||| (if env.reverse then 1 else 0)

theorem flags_toNat_lt (env : Envelope) : env.flags.toNat < 8 := by
  rw [flags]
  cases env.action <;> cases env.reverse <;> decide

theorem ctx_toNat (hs : env.saved.length ≤ 8) :
    env.ctx.toNat = env.chain.toNat * 2 ^ 32 + (env.step.toNat * 2 ^ 16 +
      (env.saved.length * 2 ^ 8 + env.flags.toNat)) := by
  have hlen : (UInt64.ofNat env.saved.length).toNat = env.saved.length :=
    UInt64.toNat_ofNat_of_lt (by rw [UInt64.size]; omega)
  have hflags := flags_toNat_lt env
  have hstep := env.step.toNat_lt
  have hchain := env.chain.toNat_lt
  have hlow : ((UInt64.ofNat env.saved.length <<< 8) ||| env.flags).toNat =
      env.saved.length * 2 ^ 8 + env.flags.toNat := by
    rw [WordFields.toNat_pack (by decide) (by rw [hlen]; change _ < 2 ^ 56; omega)
      (by change _ < 2 ^ 8; omega), hlen]
    rfl
  have hmid : ((env.step.toUInt64 <<< 16) ||| ((UInt64.ofNat env.saved.length <<< 8) |||
      env.flags)).toNat = env.step.toNat * 2 ^ 16 + (env.saved.length * 2 ^ 8 + env.flags.toNat) := by
    rw [WordFields.toNat_pack (by decide) (by rw [UInt16.toNat_toUInt64]; change _ < 2 ^ 48; omega)
      (by rw [hlow]; change _ < 2 ^ 16; omega), hlow, UInt16.toNat_toUInt64]
    rfl
  have hsplit : env.ctx = (env.chain.toUInt64 <<< 32) ||| ((env.step.toUInt64 <<< 16) |||
      ((UInt64.ofNat env.saved.length <<< 8) ||| env.flags)) := by
    rw [ctx, flags, UInt64.or_assoc, UInt64.or_assoc, UInt64.or_assoc]
  rw [hsplit, WordFields.toNat_pack (by decide) (by rw [UInt32.toNat_toUInt64]; change _ < 2 ^ 32; omega)
    (by rw [hmid]; change _ < 2 ^ 32; omega), hmid, UInt32.toNat_toUInt64]
  rfl

theorem marker_header (hc : lettered env.cookie) (hs : env.saved.length ≤ 8) :
    marker env.header := by
  have hmask : (0xffffff0000 : UInt64).toNat = (2 ^ 24 - 1) <<< 16 := rfl
  have hlt := cookie_lt hc
  rw [marker, beq_iff_eq, ← UInt64.toNat_inj, UInt64.toNat_and, hmask, WordFields.and_mask,
    header_toNat hc hs]
  have hfield : (env.cookie.toNat * 2 ^ 40 + (0x56494101 * 2 ^ 8 + (3 + env.saved.length))) / 2 ^ 16 %
      2 ^ 24 = 0x564941 := by omega
  rw [hfield]
  rfl

theorem ofCode_flags : Action.ofCode ((env.flags >>> 1) &&& 7) = some env.action := by
  rw [flags]
  cases env.action <;> cases env.reverse <;> decide

theorem reverse_flags : (env.flags &&& 1 != 0) = env.reverse := by
  rw [flags]
  cases env.action <;> cases env.reverse <;> decide

theorem reserved_flags : env.flags &&& 0xf0 = 0 := by
  rw [flags]
  cases env.action <;> cases env.reverse <;> decide

theorem readEnvelope_header {result : Envelope} (hp : result.present = false)
    (hc : lettered env.cookie) (hs : env.saved.length ≤ 8) (hne : env.saved ≠ [])
    (hchain : env.chain ≠ 0) (horigin : env.originId ≠ 0) :
    readEnvelope result env.header (env.ctx :: env.originId :: env.saved) =
      some { env with base := result.base, present := true } := by
  have hcookieLt := cookie_lt hc
  have hpos : 0 < env.saved.length := List.length_pos_iff.mpr hne
  have hheader := header_toNat hc hs
  have hctx := ctx_toNat hs
  have hflagsLt := flags_toNat_lt env
  have hstepLt := env.step.toNat_lt
  have hcount : (env.header &&& 255).toNat = env.saved.length + 3 := by
    rw [WordFields.toNat_and_byte, hheader]; omega
  have hversion : (env.header >>> 8) &&& 255 = 1 := by
    rw [← UInt64.toNat_inj, WordFields.toNat_and_byte, WordFields.toNat_shiftRight (by decide), hheader]
    change _ / 2 ^ 8 % 2 ^ 8 = 1
    omega
  have hcookie : (env.header >>> 40).toUInt32 = env.cookie := by
    rw [← UInt32.toNat_inj, UInt64.toNat_toUInt32, WordFields.toNat_shiftRight (by decide), hheader]
    change _ / 2 ^ 40 % 2 ^ 32 = _
    omega
  have hchainEq : (env.ctx >>> 32).toUInt32 = env.chain := by
    rw [← UInt32.toNat_inj, UInt64.toNat_toUInt32, WordFields.toNat_shiftRight (by decide), hctx]
    have := env.chain.toNat_lt
    change _ / 2 ^ 32 % 2 ^ 32 = _
    omega
  have hstep : (env.ctx >>> 16).toUInt16 = env.step := by
    rw [← UInt16.toNat_inj, UInt64.toNat_toUInt16, WordFields.toNat_shiftRight (by decide), hctx]
    change _ / 2 ^ 16 % 2 ^ 16 = _
    omega
  have hsaved : ((env.ctx >>> 8) &&& 255).toNat = env.saved.length := by
    rw [WordFields.toNat_and_byte, WordFields.toNat_shiftRight (by decide), hctx]
    change _ / 2 ^ 8 % 2 ^ 8 = _
    omega
  have hflags : env.ctx &&& 255 = env.flags := by
    rw [← UInt64.toNat_inj, WordFields.toNat_and_byte, hctx]
    omega
  simp only [readEnvelope, hp, hcount, hversion, hcookie, hc, hchainEq, hstep, hsaved, hflags,
    ofCode_flags, reverse_flags, reserved_flags]
  rw [if_neg (by simp; omega), if_neg (by simp [hchain])]
  simp [horigin]

end Envelope

theorem split_attach (h : attach env = some labels) (hbase : ∀ l ∈ env.base, marker l = false) :
    split labels = some { env with present := true } := by
  simp only [attach] at h
  split at h
  next => cases h
  next hok =>
  cases h
  simp only [not_or, Bool.not_eq_true, Bool.not_eq_false', switchMaxLabels, not_lt] at hok
  obtain ⟨hne, hsaved, horigin, hchain, hcookie, hsize⟩ := hok
  have hlen : env.saved.length ≤ 8 := by omega
  have hcount : (env.header &&& 255).toNat - 1 =
      (env.ctx :: env.originId :: env.saved).length := by
    rw [WordFields.toNat_and_byte, Envelope.header_toNat hcookie hlen]
    simp only [List.length_cons]
    omega
  rw [split, splitFrom_base hbase, splitFrom, if_pos (Envelope.marker_header hcookie hlen),
    Envelope.readEnvelope_header rfl hcookie hlen hsaved hchain horigin]
  simp only [Option.bind_eq_bind, Option.bind_some, hcount]
  have hskip := splitFrom_skip { env with base := [] ++ env.base, present := true }
    (env.ctx :: env.originId :: env.saved) []
  rw [List.append_nil] at hskip
  rw [hskip, splitFrom, if_neg (by simpa using hne)]
  simp

example : attach { base := [17, 42], saved := [17, 42], cookie := 0x685458, chain := 1, originId := 123 } =
    some [17, 42, 0x6854585649410105, 0x100000200, 123, 17, 42] := by decide

end Tuntom.Via
