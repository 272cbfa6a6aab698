import Tuntom.DivertSwitch

/-! Both envelope codecs are faithful: what is attached is split off again, and what is split off is
the block that attaching the result would write. -/
namespace Tuntom
open List

/-- What a codec of one envelope per stack owes its users. `split` has the output argument of the
source, `plain` says that a stack shows no sign of an envelope. -/
structure EnvelopeFaithful {ε : Type} (attach : ε → Option Labels) (split : Labels → ε → Bool × ε)
    (base : ε → Labels) (present : ε → Bool) (marked : ε → ε) (plain : Labels → Prop) : Prop where
  split_attach : ∀ env labels output, attach env = some labels → plain (base env) →
    split labels output = (true, marked env)
  attach_split : ∀ labels output env, labels.length ≤ switchMaxLabels →
    split labels output = (true, env) → present env = true →
    ∃ before block after, labels = before ++ block ++ after ∧ base env = before ++ after ∧
      attach env = some (base env ++ block)
  split_absent : ∀ labels output env, labels.length ≤ switchMaxLabels →
    split labels output = (true, env) → present env = false → base env = labels
  split_fails : ∀ labels output env, split labels output = (false, env) → env = output

/-! ### VIA -/

namespace Via

/-- `Codec::split`, which fills its output argument at the end only. -/
def splitInto (labels : Labels) (output : Envelope) : Bool × Envelope :=
  match split labels with
  | some env => (true, env)
  | none => (false, output)

variable {env result : Envelope} {labels : Labels}

theorem splitInto_eq_true {output : Envelope} :
    splitInto labels output = (true, env) ↔ split labels = some env := by
  rw [splitInto]
  split
  next h => simp [h]
  next h => simp [h]

theorem splitFrom_drop (skip : ℕ) (result : Envelope) (labels : Labels) :
    splitFrom skip result labels = splitFrom 0 result (labels.drop skip) := by
  induction labels generalizing skip with
  | nil =>
    rw [drop_nil]
    cases skip with
    | zero | succ skip => rfl
  | cons label rest ih =>
    cases skip with
    | zero => rfl
    | succ skip => exact ih skip

theorem splitFrom_rest (hp : result.present = true) (h : splitFrom 0 result labels = some env) :
    env = { result with base := result.base ++ labels } := by
  induction labels generalizing result with
  | nil =>
    rw [splitFrom] at h
    split at h
    · cases h
    · cases h
      simp
  | cons label rest ih =>
    rw [splitFrom] at h
    split at h
    · obtain ⟨next, hnext, -⟩ := Option.bind_eq_some_iff.mp h
      simp [readEnvelope, hp] at hnext
    refine (ih ?_ h).trans ?_
    · exact hp
    · simp

/-- The fields of a marker label, as the header of the envelope puts them together again. -/
theorem header_of_fields {header : UInt64} (hm : marker header = true)
    (hversion : (header >>> 8) &&& 255 = 1) (hcookie : env.cookie = (header >>> 40).toUInt32)
    (hlettered : lettered env.cookie = true) (hlength : env.saved.length ≤ 8)
    (hcount : (header &&& 255).toNat = env.saved.length + 3) : header = env.header := by
  have hmask : (0xffffff0000 : UInt64).toNat = (2 ^ 24 - 1) <<< 16 := rfl
  have hmagic : header.toNat / 2 ^ 16 % 2 ^ 24 = 0x564941 := by
    rw [marker, beq_iff_eq, ← UInt64.toNat_inj, UInt64.toNat_and, hmask, WordFields.and_mask,
      Nat.shiftLeft_eq] at hm
    have hvalue : magic.toNat = 0x564941 * 2 ^ 16 := rfl
    rw [hvalue] at hm
    exact Nat.eq_of_mul_eq_mul_right (by norm_num) hm
  have hbyte : header.toNat / 2 ^ 8 % 2 ^ 8 = 1 := by
    rw [← UInt64.toNat_inj, WordFields.toNat_and_byte, WordFields.toNat_shiftRight (by decide)]
      at hversion
    exact hversion
  have hhigh : env.cookie.toNat = header.toNat / 2 ^ 40 := by
    have hlt := header.toNat_lt
    rw [hcookie, UInt64.toNat_toUInt32, WordFields.toNat_shiftRight (by decide)]
    change header.toNat / 2 ^ 40 % 2 ^ 32 = _
    omega
  rw [WordFields.toNat_and_byte] at hcount
  rw [← UInt64.toNat_inj, Envelope.header_toNat hlettered hlength, hhigh]
  omega

theorem flags_of_fields {flags : UInt64} (hreserved : flags &&& 0xf0 = 0)
    (hlt : flags.toNat < 2 ^ 8) (haction : Action.ofCode ((flags >>> 1) &&& 7) = some env.action)
    (hreverse : env.reverse = (flags &&& 1 != 0)) : env.flags = flags := by
  have hsmall : flags.toNat < 16 := by
    have hmask : (0xf0 : UInt64).toNat = (2 ^ 4 - 1) <<< 4 := rfl
    rw [← UInt64.toNat_inj, UInt64.toNat_and, hmask, WordFields.and_mask, Nat.shiftLeft_eq] at hreserved
    have hzero : flags.toNat / 2 ^ 4 % 2 ^ 4 * 2 ^ 4 = 0 := hreserved
    omega
  have hall : ∀ (action : Action) (n : Fin 16),
      Action.ofCode ((UInt64.ofNat n >>> 1) &&& 7) = some action →
        (action.code <<< 1) ||| (if (UInt64.ofNat n &&& 1 != 0) = true then 1 else 0) =
          UInt64.ofNat n := by
    intro action
    cases action <;> decide
  have hvalue := hall env.action ⟨flags.toNat, hsmall⟩
  simp only [UInt64.ofNat_toNat] at hvalue
  rw [Envelope.flags, hreverse]
  exact hvalue haction

theorem ctx_of_fields {ctx : UInt64} (hchain : env.chain = (ctx >>> 32).toUInt32)
    (hstep : env.step = (ctx >>> 16).toUInt16) (hlength : env.saved.length ≤ 8)
    (hsaved : ((ctx >>> 8) &&& 255).toNat = env.saved.length) (hflags : env.flags = ctx &&& 255) :
    ctx = env.ctx := by
  have hlt := ctx.toNat_lt
  have hchainNat : env.chain.toNat = ctx.toNat / 2 ^ 32 := by
    rw [hchain, UInt64.toNat_toUInt32, WordFields.toNat_shiftRight (by decide)]
    change ctx.toNat / 2 ^ 32 % 2 ^ 32 = _
    omega
  have hstepNat : env.step.toNat = ctx.toNat / 2 ^ 16 % 2 ^ 16 := by
    rw [hstep, UInt64.toNat_toUInt16, WordFields.toNat_shiftRight (by decide)]
    rfl
  rw [WordFields.toNat_and_byte, WordFields.toNat_shiftRight (by decide)] at hsaved
  change ctx.toNat / 2 ^ 8 % 2 ^ 8 = _ at hsaved
  rw [← UInt64.toNat_inj, Envelope.ctx_toNat hlength, hchainNat, hstepNat, ← hsaved, hflags,
    WordFields.toNat_and_byte]
  omega

theorem readEnvelope_block {header : UInt64} {body : Labels} (hm : marker header = true)
    (hsize : body.length < 8) (h : readEnvelope result header body = some env) :
    ∃ rest, body = env.ctx :: env.originId :: env.saved ++ rest ∧ header = env.header ∧
      (header &&& 255).toNat - 1 = (env.ctx :: env.originId :: env.saved).length ∧
      env.base = result.base ∧ env.present = true ∧ env.saved ≠ [] ∧ env.originId ≠ 0 ∧
      env.chain ≠ 0 ∧ lettered env.cookie = true := by
  simp only [readEnvelope] at h
  split at h
  · cases h
  next hguard =>
  simp only [not_or, not_lt, Bool.not_eq_true, Bool.not_eq_false', not_not] at hguard
  obtain ⟨-, hversion, hfour, hroom, hletters⟩ := hguard
  split at h
  next ctx originId rest =>
    split at h
    · cases h
    next hctx =>
    simp only [not_or, not_not] at hctx
    obtain ⟨hchain, hcount, hreserved⟩ := hctx
    obtain ⟨action, haction, h⟩ := Option.bind_eq_some_iff.mp h
    split at h
    · cases h
    next horigin =>
    have henv := Option.some.inj h
    have hsaved : env.saved = rest.take ((ctx >>> 8) &&& 255).toNat := by rw [← henv]
    have hlength : env.saved.length = ((ctx >>> 8) &&& 255).toNat := by
      rw [hsaved, length_take]
      simp only [length_cons] at hroom
      omega
    have hcookie : env.cookie = (header >>> 40).toUInt32 := by rw [← henv]
    have hlettered : lettered env.cookie = true := by rw [hcookie, hletters]
    have hflags : env.flags = ctx &&& 255 := by
      refine flags_of_fields hreserved ?_ ?_ ?_
      · rw [WordFields.toNat_and_byte]
        exact Nat.mod_lt _ (by norm_num)
      · rw [haction, ← henv]
      · rw [← henv]
    have height : env.saved.length ≤ 8 := by
      simp only [length_cons] at hroom hsize
      omega
    have hctx : ctx = env.ctx :=
      ctx_of_fields (by rw [← henv]) (by rw [← henv]) height hlength.symm hflags
    have hheader : header = env.header :=
      header_of_fields hm hversion hcookie hlettered height (by rw [hcount, hlength])
    have horiginId : env.originId = originId := by rw [← henv]
    refine ⟨rest.drop ((ctx >>> 8) &&& 255).toNat, ?_, hheader, ?_, by rw [← henv],
      by rw [← henv], ?_, horiginId ▸ horigin, ?_, hlettered⟩
    · rw [hsaved, horiginId, ← hctx, cons_append, cons_append, take_append_drop]
    · simp only [length_cons]
      omega
    · rw [Ne, ← length_eq_zero_iff]
      omega
    · rw [← henv]
      exact hchain
  · cases h

/-- An accepted stack: ordinary labels only, or an envelope with ordinary labels around it. -/
theorem splitFrom_cases (hp : result.present = false) (hsize : labels.length ≤ 8)
    (h : splitFrom 0 result labels = some env) :
    env = { result with base := result.base ++ labels } ∨
      ∃ before after,
        labels = before ++ (env.header :: env.ctx :: env.originId :: env.saved) ++ after ∧
        env.base = result.base ++ (before ++ after) ∧ env.present = true ∧ env.saved ≠ [] ∧
        env.originId ≠ 0 ∧ env.chain ≠ 0 ∧ lettered env.cookie = true := by
  induction labels generalizing result with
  | nil =>
    rw [splitFrom] at h
    split at h
    · cases h
    · cases h
      simp
  | cons label rest ih =>
    rw [length_cons] at hsize
    rw [splitFrom] at h
    split at h
    next hm =>
      obtain ⟨next, hnext, h⟩ := Option.bind_eq_some_iff.mp h
      obtain ⟨after, hbody, hheader, hskip, hbase, hpresent, hfields⟩ :=
        readEnvelope_block hm (by omega) hnext
      rw [splitFrom_drop, hskip, hbody, drop_left] at h
      obtain rfl := splitFrom_rest hpresent h
      refine .inr ⟨[], after, ?_, ?_, hpresent, hfields⟩
      · rw [nil_append, cons_append, hheader, hbody]
        rfl
      · rw [nil_append, hbase]
    rcases ih (by exact hp) (by omega) h with hplain | ⟨before, after, hlabels, hbase, hfields⟩
    · left
      rw [hplain]
      simp
    · refine .inr ⟨label :: before, after, by rw [hlabels]; rfl, ?_, hfields⟩
      rw [hbase]
      simp

theorem splitFrom_base_ne {skip : ℕ} (h : splitFrom skip result labels = some env) :
    env.base ≠ [] := by
  induction labels generalizing skip result with
  | nil =>
    rw [splitFrom] at h
    split at h
    · cases h
    next hne =>
    cases h
    exact hne
  | cons label rest ih =>
    cases skip with
    | succ skip => exact ih h
    | zero =>
      rw [splitFrom] at h
      split at h
      · obtain ⟨next, -, h⟩ := Option.bind_eq_some_iff.mp h
        exact ih h
      · exact ih h

theorem faithful : EnvelopeFaithful attach splitInto Envelope.base Envelope.present
    (fun env => { env with present := true }) (fun base => ∀ l ∈ base, marker l = false) where
  split_attach env labels output h hplain := splitInto_eq_true.mpr (split_attach h hplain)
  attach_split labels output env hsize h hp := by
    have hsplit := splitInto_eq_true.mp h
    have hne := splitFrom_base_ne hsplit
    rcases splitFrom_cases rfl hsize hsplit with
      hplain | ⟨before, after, hlabels, hbase, -, hsaved, horigin, hchain, hletters⟩
    · rw [hplain] at hp
      cases hp
    · have hlength : env.base.length + 3 + env.saved.length ≤ switchMaxLabels := by
        rw [hlabels] at hsize
        rw [hbase]
        simp only [length_append, length_cons, length_nil] at hsize ⊢
        omega
      refine ⟨before, _, after, hlabels, hbase, ?_⟩
      rw [attach, if_neg]
      simp only [not_or, not_lt, hletters, Bool.not_true]
      exact ⟨hne, hsaved, horigin, hchain, Bool.false_ne_true, hlength⟩
  split_absent labels output env hsize h hp := by
    rcases splitFrom_cases rfl hsize (splitInto_eq_true.mp h) with
      hplain | ⟨_, _, _, _, hpresent, _⟩
    · rw [hplain]
      rfl
    · rw [hp] at hpresent
      cases hpresent
  split_fails labels output env h := by
    rw [splitInto] at h
    split at h
    · cases h
    · cases h
      rfl

end Via

/-! ### Divert -/

namespace Divert

/-- `Codec::split`, which fills its output argument at the end only. -/
def splitInto (cookie : Bytes) (labels : Labels) (output : Envelope) : Bool × Envelope :=
  match split cookie labels with
  | some env => (true, env)
  | none => (false, output)

/-- The constructor of `Codec` takes three ASCII letters. -/
def validCookie (cookie : Bytes) : Bool :=
  cookie.length == 3 && cookie.all fun c => (97 ≤ c && c ≤ 122) || (65 ≤ c && c ≤ 90)

def Plain (cookie : Bytes) (labels : Labels) : Prop :=
  ∀ before value rest, labels = before ++ value :: rest → starts cookie value rest = false

variable {cookie : Bytes}

variable {env result : Envelope} {labels rest : Labels} {name : ℕ} {value : UInt64}

theorem splitInto_eq_true {output : Envelope} :
    splitInto cookie labels output = (true, env) ↔ split cookie labels = some env := by
  rw [splitInto]
  split
  next h => simp [h]
  next h => simp [h]

theorem splitFrom_drop (skip : ℕ) (result : Envelope) (labels : Labels) :
    splitFrom cookie skip result labels = splitFrom cookie 0 result (labels.drop skip) := by
  induction labels generalizing skip with
  | nil =>
    rw [drop_nil]
    cases skip with
    | zero | succ skip => rfl
  | cons label rest ih =>
    cases skip with
    | zero => rfl
    | succ skip => exact ih skip

theorem toNat_letter (c : UInt8) {place : UInt64} (hplace : place.toNat ≤ 56) :
    (c.toUInt64 <<< place).toNat = c.toNat <<< place.toNat := by
  have hc := c.toNat_lt
  rw [UInt64.toNat_shiftLeft, UInt8.toNat_toUInt64, Nat.mod_eq_of_lt (by omega : _ < 64)]
  refine Nat.mod_eq_of_lt ?_
  rw [Nat.shiftLeft_eq]
  calc c.toNat * 2 ^ place.toNat < 2 ^ 8 * 2 ^ place.toNat :=
        Nat.mul_lt_mul_of_pos_right hc (Nat.two_pow_pos _)
    _ = 2 ^ (8 + place.toNat) := (pow_add ..).symm
    _ ≤ 2 ^ 64 := Nat.pow_le_pow_right (by norm_num) (by omega)

theorem toNat_textLabel (hc : validCookie cookie = true) :
    ∃ name, (textLabel cookie).toNat = name * 2 ^ 40 := by
  rw [validCookie, Bool.and_eq_true, beq_iff_eq] at hc
  obtain ⟨a, b, c, rfl⟩ := length_eq_three.mp hc.1
  have ha := a.toNat_lt
  have hb := b.toNat_lt
  have hc := c.toNat_lt
  refine ⟨a.toNat * 2 ^ 16 + b.toNat * 2 ^ 8 + c.toNat, ?_⟩
  have hlabel : textLabel [a, b, c] =
      (0 : UInt64) ||| a.toUInt64 <<< 56 ||| b.toUInt64 <<< 48 ||| c.toUInt64 <<< 40 := rfl
  have hab : a.toNat <<< 56 ||| b.toNat <<< 48 = (a.toNat * 2 ^ 8 + b.toNat) <<< 48 := by
    rw [← Nat.shiftLeft_add_eq_or_of_lt (by rw [Nat.shiftLeft_eq]; omega)]
    simp only [Nat.shiftLeft_eq]
    omega
  have habc : (a.toNat * 2 ^ 8 + b.toNat) <<< 48 ||| c.toNat <<< 40 =
      (a.toNat * 2 ^ 16 + b.toNat * 2 ^ 8 + c.toNat) * 2 ^ 40 := by
    rw [← Nat.shiftLeft_add_eq_or_of_lt (by rw [Nat.shiftLeft_eq]; omega)]
    simp only [Nat.shiftLeft_eq]
    omega
  rw [hlabel, UInt64.toNat_or, UInt64.toNat_or, UInt64.toNat_or, toNat_letter a (by decide),
    toNat_letter b (by decide), toNat_letter c (by decide), UInt64.toNat_zero, Nat.zero_or]
  exact (congrArg (· ||| c.toNat <<< 40) hab).trans habc

/-- The label in front of a body of `n` labels. -/
def header (cookie : Bytes) (n : ℕ) : UInt64 := textLabel cookie ||| (UInt64.ofNat (n + 48) <<< 32)

theorem toNat_header {n : ℕ} (hcookie : (textLabel cookie).toNat = name * 2 ^ 40) (hn : n ≤ 8) :
    (header cookie n).toNat = name * 2 ^ 40 + (n + 48) * 2 ^ 32 := by
  have hcount : (UInt64.ofNat (n + 48) <<< 32).toNat = (n + 48) <<< 32 := by
    rw [UInt64.toNat_shiftLeft, UInt64.toNat_ofNat']
    change ((n + 48) % 2 ^ 64) <<< 32 % 2 ^ 64 = _
    simp only [Nat.shiftLeft_eq]
    omega
  rw [header, UInt64.toNat_or, hcookie, hcount, ← Nat.shiftLeft_eq name,
    ← Nat.shiftLeft_add_eq_or_of_lt (by rw [Nat.shiftLeft_eq]; omega)]
  simp only [Nat.shiftLeft_eq]

/-- The fields of a label that `split` looks at determine it. -/
theorem fields_iff {n : ℕ} (hcookie : (textLabel cookie).toNat = name * 2 ^ 40) (hn : n ≤ 8) :
    (value &&& 0xffffff0000000000 = textLabel cookie ∧ value &&& 0xffffffff = 0 ∧
      ((value >>> 32) &&& 255).toNat = n + 48) ↔ value = header cookie n := by
  have hupper : (value &&& 0xffffff0000000000).toNat = (value.toNat / 2 ^ 40 % 2 ^ 24) <<< 40 := by
    rw [UInt64.toNat_and]
    exact WordFields.and_mask value.toNat 40 24
  have hlower : (value &&& 0xffffffff).toNat = value.toNat % 2 ^ 32 := by
    rw [UInt64.toNat_and]
    exact Nat.and_two_pow_sub_one_eq_mod value.toNat 32
  have hcount : ((value >>> 32) &&& 255).toNat = value.toNat / 2 ^ 32 % 2 ^ 8 := by
    rw [WordFields.toNat_and_byte, WordFields.toNat_shiftRight (by decide)]
    rfl
  have hbound := value.toNat_lt
  rw [← UInt64.toNat_inj, ← UInt64.toNat_inj, ← UInt64.toNat_inj (a := value), hupper, hlower, hcount,
    hcookie, toNat_header hcookie hn, UInt64.toNat_zero, Nat.shiftLeft_eq]
  omega

theorem header_ne_marker {n : ℕ} (hcookie : (textLabel cookie).toNat = name * 2 ^ 40) (hn : n ≤ 8) :
    header cookie n ≠ marker := by
  intro h
  have hnat := toNat_header hcookie hn
  rw [h] at hnat
  have hmarker : marker.toNat = 0x445652 * 2 ^ 40 + 0x54 * 2 ^ 32 := rfl
  omega

theorem starts_iff : starts cookie value rest = true ↔
    value &&& 0xffffff0000000000 = textLabel cookie ∧ value &&& 0xffffffff = 0 ∧
      ∃ body, rest = marker :: body := by
  rw [starts, Bool.and_eq_true, Bool.and_eq_true, beq_iff_eq, beq_iff_eq, beq_iff_eq,
    List.head?_eq_some_iff, and_assoc]

theorem ofCode_isNone {code : UInt64} : (Action.ofCode code).isNone = true ↔ 3 < code := by
  rw [UInt64.lt_iff_toNat_lt]
  change _ ↔ 3 < code.toNat
  simp only [Action.ofCode, ← UInt64.toNat_inj]
  change (if code.toNat = 0 then _ else if code.toNat = 1 then _ else if code.toNat = 2 then _
    else if code.toNat = 3 then _ else _ : Option Action).isNone = true ↔ _
  split_ifs with h0 h1 h2 h3
  · simp [h0]
  · simp [h1]
  · simp [h2]
  · simp [h3]
  · refine iff_of_true rfl ?_
    omega

def Sound (body : Labels) : Prop :=
  3 ≤ body.length ∧ body.headD 0 ≠ 0 ∧ ¬3 < (body.drop 1).headD 0

theorem attach_eq_some {base body : Labels} : attach cookie base body = some labels ↔
    base ≠ [] ∧ Sound body ∧ base.length + body.length + 2 ≤ switchMaxLabels ∧
      labels = base ++ header cookie body.length :: marker :: body := by
  rw [attach]
  split
  next h =>
    refine iff_of_false (by simp) ?_
    rintro ⟨hne, ⟨hthree, horigin, haction⟩, hsize, -⟩
    rcases h with h | h | h | h | h
    · exact hne h
    · omega
    · exact horigin h
    · exact haction h
    · omega
  next h =>
  simp only [not_or, not_lt] at h
  obtain ⟨hne, hthree, horigin, haction, hsize⟩ := h
  rw [Option.some.injEq, eq_comm]
  exact ⟨fun hl => ⟨hne, ⟨hthree, horigin, haction⟩, hsize, hl⟩, fun hl => hl.2.2.2⟩

/-- Reading an envelope: the label in front is the one `attach` writes for the body. -/
theorem splitFrom_envelope (hcookie : (textLabel cookie).toNat = name * 2 ^ 40)
    (hsize : rest.length < 8) (hstarts : starts cookie value rest = true) (env : Envelope) :
    splitFrom cookie 0 result (value :: rest) = some env ↔
      ∃ body after, value = header cookie body.length ∧ rest = marker :: body ++ after ∧
        Sound body ∧ result.present = false ∧
        splitFrom cookie 0 { result with body := body, present := true } after = some env := by
  obtain ⟨hupper, hlower, labels, rfl⟩ := starts_iff.mp hstarts
  rw [length_cons] at hsize
  rw [splitFrom, if_pos hstarts]
  generalize hlength : ((value >>> 32) &&& 255).toNat = length
  simp only [drop_one, tail_cons]
  constructor
  · intro h
    split at h
    · cases h
    next hguard =>
    split at h
    · cases h
    next hbody =>
    simp only [not_or, not_lt, Bool.not_eq_true] at hguard
    obtain ⟨hpresent, hlow, -, hroom⟩ := hguard
    rw [not_or, Envelope.action, ofCode_isNone] at hbody
    have htake : (labels.take (length - 48)).length = length - 48 := by
      rw [length_take]
      omega
    refine ⟨labels.take (length - 48), labels.drop (length - 48), ?_, ?_, ?_, hpresent, ?_⟩
    · rw [← fields_iff hcookie (by omega), htake]
      exact ⟨hupper, hlower, by omega⟩
    · rw [cons_append, take_append_drop]
    · exact ⟨by omega, hbody⟩
    · rw [splitFrom_drop, drop_succ_cons] at h
      exact h
  · rintro ⟨body, after, hvalue, hlabels, ⟨hthree, horigin, haction⟩, hpresent, h⟩
    rw [cons_append, List.cons.injEq] at hlabels
    obtain ⟨-, rfl⟩ := hlabels
    rw [length_append] at hsize
    have hcount := ((fields_iff hcookie (by omega)).mpr hvalue).2.2
    have hbody : length - 48 = body.length := by omega
    have htake : (body ++ after).take (length - 48) = body := by rw [hbody, take_left]
    rw [if_neg, if_neg, htake, splitFrom_drop, drop_succ_cons, hbody, drop_left]
    · exact h
    · rw [htake, not_or]
      exact ⟨horigin, ofCode_isNone.not.mpr haction⟩
    · simp only [hpresent, length_append, Bool.false_eq_true, false_or]
      omega

theorem splitFrom_ordinary (h : starts cookie value rest = false) :
    splitFrom cookie 0 result (value :: rest) =
      splitFrom cookie 0 { result with base := result.base ++ [value] } rest := by
  rw [splitFrom, if_neg (by simp [h])]

theorem splitFrom_rest (hcookie : (textLabel cookie).toNat = name * 2 ^ 40)
    (hsize : labels.length ≤ 8) (hp : result.present = true)
    (h : splitFrom cookie 0 result labels = some env) :
    env = { result with base := result.base ++ labels } := by
  induction labels generalizing result with
  | nil =>
    rw [splitFrom] at h
    split at h
    · cases h
    · cases h
      simp
  | cons value rest ih =>
    rw [length_cons] at hsize
    by_cases hstarts : starts cookie value rest = true
    · obtain ⟨_, _, _, _, _, hpresent, _⟩ := (splitFrom_envelope hcookie (by omega) hstarts env).mp h
      rw [hp] at hpresent
      cases hpresent
    rw [splitFrom_ordinary (Bool.eq_false_iff.mpr hstarts)] at h
    rw [ih (by omega) (by exact hp) h]
    simp

theorem splitFrom_base_ne {skip : ℕ} (h : splitFrom cookie skip result labels = some env) :
    env.base ≠ [] := by
  induction labels generalizing skip result with
  | nil =>
    rw [splitFrom] at h
    split at h
    · cases h
    next hne =>
    cases h
    exact hne
  | cons value rest ih =>
    cases skip with
    | succ skip => exact ih h
    | zero =>
      rw [splitFrom] at h
      split at h
      · dsimp only at h
        split at h
        · cases h
        split at h
        · cases h
        · exact ih h
      · exact ih h

/-- An accepted stack: ordinary labels only, or an envelope with ordinary labels around it. -/
theorem splitFrom_cases (hcookie : (textLabel cookie).toNat = name * 2 ^ 40)
    (hp : result.present = false) (hsize : labels.length ≤ 8)
    (h : splitFrom cookie 0 result labels = some env) :
    env = { result with base := result.base ++ labels } ∨
      ∃ before after,
        labels = before ++ (header cookie env.body.length :: marker :: env.body) ++ after ∧
        env.base = result.base ++ (before ++ after) ∧ env.present = true ∧ Sound env.body := by
  induction labels generalizing result with
  | nil =>
    rw [splitFrom] at h
    split at h
    · cases h
    · cases h
      simp
  | cons value rest ih =>
    rw [length_cons] at hsize
    by_cases hstarts : starts cookie value rest = true
    · obtain ⟨body, after, hvalue, hrest, hsound, -, h⟩ :=
        (splitFrom_envelope hcookie (by omega) hstarts env).mp h
      rw [hrest, length_append] at hsize
      obtain rfl := splitFrom_rest hcookie (by omega) rfl h
      refine .inr ⟨[], after, ?_, rfl, rfl, hsound⟩
      rw [hvalue, hrest]
      rfl
    rw [splitFrom_ordinary (Bool.eq_false_iff.mpr hstarts)] at h
    rcases ih (by exact hp) (by omega) h with hplain | ⟨before, after, hlabels, hbase, hfields⟩
    · left
      rw [hplain]
      simp
    refine .inr ⟨value :: before, after, by rw [hlabels]; rfl, ?_, hfields⟩
    rw [hbase]
    simp

/-- The labels in front of an envelope stay ordinary ones: its first label is no marker. -/
theorem splitFrom_plain {base : Labels} (hvalue : value ≠ marker) (hplain : Plain cookie base) :
    splitFrom cookie 0 result (base ++ value :: rest) =
      splitFrom cookie 0 { result with base := result.base ++ base } (value :: rest) := by
  induction base generalizing result with
  | nil => simp
  | cons label base ih =>
    have hlabel : starts cookie label (base ++ value :: rest) = false := by
      cases base with
      | nil =>
        rw [starts]
        simp [hvalue]
      | cons next base => exact hplain [] label (next :: base) rfl
    rw [cons_append, splitFrom_ordinary hlabel, ih]
    · simp
    · intro before l after h
      exact hplain (label :: before) l after (by rw [h]; rfl)

theorem split_attach (hc : validCookie cookie = true) {base body : Labels}
    (h : attach cookie base body = some labels) (hplain : Plain cookie base) :
    split cookie labels = some { base := base, body := body, present := true } := by
  obtain ⟨hne, hsound, hsize, rfl⟩ := attach_eq_some.mp h
  obtain ⟨name, hcookie⟩ := toNat_textLabel hc
  rw [switchMaxLabels] at hsize
  have hfields := (fields_iff hcookie (by omega : body.length ≤ 8)).mpr rfl
  rw [split, splitFrom_plain (header_ne_marker hcookie (by omega)) hplain,
    splitFrom_envelope hcookie ?_ (starts_iff.mpr ⟨hfields.1, hfields.2.1, body, rfl⟩)]
  · refine ⟨body, [], rfl, by rw [append_nil], hsound, rfl, ?_⟩
    rw [splitFrom, if_neg (by simpa using hne)]
    rfl
  · rw [length_cons]
    have hpos := length_pos_iff.mpr hne
    omega

theorem faithful (hc : validCookie cookie = true) :
    EnvelopeFaithful (fun env => attach cookie env.base env.body) (splitInto cookie)
      Envelope.base Envelope.present (fun env => { env with present := true }) (Plain cookie) where
  split_attach env labels output h hplain := splitInto_eq_true.mpr (split_attach hc h hplain)
  attach_split labels output env hsize h hp := by
    obtain ⟨name, hcookie⟩ := toNat_textLabel hc
    have hsplit := splitInto_eq_true.mp h
    rcases splitFrom_cases hcookie rfl hsize hsplit with
      hplain | ⟨before, after, hlabels, hbase, -, hsound⟩
    · rw [hplain] at hp
      cases hp
    · refine ⟨before, _, after, hlabels, hbase, ?_⟩
      refine attach_eq_some.mpr ⟨splitFrom_base_ne hsplit, hsound, ?_, rfl⟩
      rw [hlabels] at hsize
      rw [hbase]
      simp only [length_append, length_cons, length_nil] at hsize ⊢
      omega
  split_absent labels output env hsize h hp := by
    obtain ⟨name, hcookie⟩ := toNat_textLabel hc
    rcases splitFrom_cases hcookie rfl hsize (splitInto_eq_true.mp h) with
      hplain | ⟨_, _, _, _, hpresent, _⟩
    · rw [hplain]
      rfl
    · rw [hp] at hpresent
      cases hpresent
  split_fails labels output env h := by
    rw [splitInto] at h
    split at h
    · cases h
    · cases h
      rfl

end Divert

/-- Both codecs of label-stack envelopes are faithful, the divert codec with every cookie its
constructor takes. -/
theorem envelope_codecs_faithful :
    EnvelopeFaithful Via.attach Via.splitInto Via.Envelope.base Via.Envelope.present
      (fun env => { env with present := true }) (fun base => ∀ l ∈ base, Via.marker l = false) ∧
    ∀ cookie, Divert.validCookie cookie = true →
      EnvelopeFaithful (fun env => Divert.attach cookie env.base env.body)
        (Divert.splitInto cookie) Divert.Envelope.base Divert.Envelope.present
        (fun env => { env with present := true }) (Divert.Plain cookie) :=
  ⟨Via.faithful, fun _ hc => Divert.faithful hc⟩

end Tuntom
