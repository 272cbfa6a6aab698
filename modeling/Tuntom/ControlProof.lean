import Tuntom.ControlAuth
import Tuntom.Transition

/-! What an authority proof establishes: the replay window refuses what it has
accepted, and every way in which `verify` ends. -/
namespace Tuntom.Control
open List

namespace Window

theorem and_bit_ne_zero {x d : UInt64} (hd : d.toNat < 64) :
    x &&& (1 <<< d) ≠ 0 ↔ x.toNat.testBit d.toNat = true := by
  have hpow : 2 ^ d.toNat < 2 ^ 64 := Nat.pow_lt_pow_right (by decide) hd
  have hnat : (x &&& (1 <<< d)).toNat = (x.toNat.testBit d.toNat).toNat * 2 ^ d.toNat := by
    rw [UInt64.toNat_and, UInt64.toNat_shiftLeft, Nat.mod_eq_of_lt hd, UInt64.toNat_one,
      Nat.one_shiftLeft, Nat.mod_eq_of_lt hpow, Nat.and_two_pow]
  rw [ne_eq, ← UInt64.toNat_inj, hnat]
  cases x.toNat.testBit d.toNat <;> simp

def Spent (w : Window) (seq : UInt64) : Prop := w.accept seq = none

theorem spent_iff {w : Window} {seq : UInt64} :
    w.Spent seq ↔ seq.toNat = 0 ∨ (seq.toNat ≤ w.high.toNat ∧
      (64 ≤ w.high.toNat - seq.toNat ∨ w.bits.toNat.testBit (w.high.toNat - seq.toNat) = true)) := by
  rw [Spent, accept]
  by_cases hzero : seq = 0
  · simp [hzero]
  have hseq : seq.toNat ≠ 0 := fun h => hzero (UInt64.toNat_inj.mp h)
  rw [if_neg hzero]
  by_cases hhigh : w.high < seq
  · have hlt := UInt64.lt_iff_toNat_lt.mp hhigh
    rw [if_pos hhigh]
    simp only [reduceCtorEq, false_iff]
    omega
  have hle : seq ≤ w.high := UInt64.not_lt.mp hhigh
  have hnat := UInt64.le_iff_toNat_le.mp hle
  have hsub : (w.high - seq).toNat = w.high.toNat - seq.toNat := UInt64.toNat_sub_of_le _ _ hle
  rw [if_neg hhigh]
  by_cases hold : 64 ≤ w.high - seq
  · have hfar := UInt64.le_iff_toNat_le.mp hold
    rw [hsub] at hfar
    simp only [hold, true_or, if_true, true_iff]
    exact .inr ⟨hnat, .inl hfar⟩
  have hnear : (w.high - seq).toNat < 64 := UInt64.lt_iff_toNat_lt.mp (UInt64.not_le.mp hold)
  have hbit := and_bit_ne_zero (x := w.bits) hnear
  rw [hsub] at hbit hnear
  simp only [hold, false_or, hbit, ite_eq_left_iff, reduceCtorEq, imp_false, not_not]
  constructor
  · exact fun h => .inr ⟨hnat, .inr h⟩
  · rintro (h | ⟨_, h | h⟩)
    · exact absurd h hseq
    · omega
    · exact h

theorem accept_eq_some {w v : Window} {seq : UInt64} (h : w.accept seq = some v) :
    seq.toNat ≠ 0 ∧ ((w.high.toNat < seq.toNat ∧ v.high = seq ∧
        ∀ i < 64, v.bits.toNat.testBit i = true ↔ i = 0 ∨ (seq.toNat - w.high.toNat ≤ i ∧
          w.bits.toNat.testBit (i - (seq.toNat - w.high.toNat)) = true)) ∨
      (seq.toNat ≤ w.high.toNat ∧ w.high.toNat - seq.toNat < 64 ∧ v.high = w.high ∧
        ∀ i < 64, v.bits.toNat.testBit i = true ↔
          i = w.high.toNat - seq.toNat ∨ w.bits.toNat.testBit i = true)) := by
  rw [accept] at h
  split at h
  next => cases h
  next hzero =>
  refine ⟨fun h0 => hzero (UInt64.toNat_inj.mp h0), ?_⟩
  dsimp only at h
  split at h
  next hhigh =>
    have hlt := UInt64.lt_iff_toNat_lt.mp hhigh
    have hsub : (seq - w.high).toNat = seq.toNat - w.high.toNat :=
      UInt64.toNat_sub_of_le _ _ (UInt64.le_of_lt hhigh)
    cases h
    refine .inl ⟨hlt, rfl, fun i hi => ?_⟩
    dsimp only
    by_cases hfar : 64 ≤ seq - w.high
    · have hnat := UInt64.le_iff_toNat_le.mp hfar
      rw [hsub] at hnat
      have h64 : (64 : UInt64).toNat = 64 := rfl
      rw [if_pos hfar, UInt64.toNat_one, Nat.testBit_one_eq_true_iff_self_eq_zero]
      constructor
      · exact .inl
      · rintro (h | ⟨h, _⟩)
        · exact h
        · omega
    have hnat := UInt64.lt_iff_toNat_lt.mp (UInt64.not_le.mp hfar)
    rw [hsub] at hnat
    have h64 : (64 : UInt64).toNat = 64 := rfl
    rw [h64] at hnat
    rw [if_neg hfar, UInt64.toNat_or, UInt64.toNat_shiftLeft, hsub, Nat.mod_eq_of_lt hnat,
      UInt64.toNat_one, Nat.testBit_or, Nat.testBit_mod_two_pow, Nat.testBit_shiftLeft,
      Bool.or_eq_true, Nat.testBit_one_eq_true_iff_self_eq_zero]
    simp only [hi, decide_true, Bool.true_and, Bool.and_eq_true, decide_eq_true_eq]
    exact or_comm
  next hhigh =>
  have hle : seq ≤ w.high := UInt64.not_lt.mp hhigh
  have hnat := UInt64.le_iff_toNat_le.mp hle
  have hsub : (w.high - seq).toNat = w.high.toNat - seq.toNat := UInt64.toNat_sub_of_le _ _ hle
  split at h
  next => cases h
  next hfresh =>
  rw [not_or] at hfresh
  have hnear : (w.high - seq).toNat < 64 :=
    UInt64.lt_iff_toNat_lt.mp (UInt64.not_le.mp hfresh.1)
  cases h
  refine .inr ⟨hnat, by omega, rfl, fun i hi => ?_⟩
  have hpow : 2 ^ (w.high - seq).toNat < 2 ^ 64 := Nat.pow_lt_pow_right (by decide) hnear
  dsimp only
  rw [UInt64.toNat_or, UInt64.toNat_shiftLeft, Nat.mod_eq_of_lt hnear, UInt64.toNat_one,
    Nat.one_shiftLeft, Nat.mod_eq_of_lt hpow, Nat.testBit_or, Nat.testBit_two_pow, hsub,
    Bool.or_eq_true, decide_eq_true_eq, or_comm]
  exact or_congr_left eq_comm

theorem spent_of_accept {w v : Window} {seq : UInt64} (h : w.accept seq = some v) : v.Spent seq := by
  obtain ⟨_, ⟨_, hhigh, hbits⟩ | ⟨hle, hnear, hhigh, hbits⟩⟩ := accept_eq_some h
  · refine spent_iff.mpr (.inr ⟨by rw [hhigh], .inr ?_⟩)
    rw [hhigh, Nat.sub_self]
    exact (hbits 0 (by decide)).mpr (.inl rfl)
  refine spent_iff.mpr (.inr ⟨by rw [hhigh]; exact hle, .inr ?_⟩)
  rw [hhigh]
  exact (hbits _ hnear).mpr (.inl rfl)

theorem Spent.accept {w v : Window} {seq other : UInt64} (h : w.Spent seq)
    (haccept : w.accept other = some v) : v.Spent seq := by
  obtain ⟨_, ⟨hlt, hhigh, hbits⟩ | ⟨hle, hnear, hhigh, hbits⟩⟩ := accept_eq_some haccept
  · rcases spent_iff.mp h with hzero | ⟨hseq, hspent⟩
    · exact spent_iff.mpr (.inl hzero)
    refine spent_iff.mpr (.inr ⟨by rw [hhigh]; omega, ?_⟩)
    rw [hhigh]
    by_cases hfar : 64 ≤ other.toNat - seq.toNat
    · exact .inl hfar
    have hbit := hspent.resolve_left (by omega)
    refine .inr ((hbits _ (by omega)).mpr (.inr ⟨by omega, ?_⟩))
    rwa [show other.toNat - seq.toNat - (other.toNat - w.high.toNat) = w.high.toNat - seq.toNat by
      omega]
  rcases spent_iff.mp h with hzero | ⟨hseq, hspent⟩
  · exact spent_iff.mpr (.inl hzero)
  refine spent_iff.mpr (.inr ⟨by rw [hhigh]; exact hseq, ?_⟩)
  rw [hhigh]
  by_cases hfar : 64 ≤ w.high.toNat - seq.toNat
  · exact .inl hfar
  exact .inr ((hbits _ (by omega)).mpr (.inr (hspent.resolve_left hfar)))

/-- One call of `accept`, with whether it took the number. -/
def step (w : Window) (seq : UInt64) : Window × Bool := ((w.accept seq).getD w, (w.accept seq).isSome)

def taken (past : List (UInt64 × Bool)) : List UInt64 := (past.filter Prod.snd).map Prod.fst

/-- The window as a summary of the numbers taken before: the highest one, and a bit for each
of the 64 numbers up to it. -/
structure Summary (w : Window) (taken : List UInt64) : Prop where
  high : taken = [] ∧ w.high = 0 ∨ w.high ∈ taken
  below : ∀ a ∈ taken, a ≠ 0 ∧ a ≤ w.high
  bits : ∀ i < 64, w.bits.toNat.testBit i = true ↔ ∃ a ∈ taken, a.toNat + i = w.high.toNat

theorem Summary.accept {w v : Window} {taken : List UInt64} (h : w.Summary taken) {seq : UInt64}
    (haccept : w.accept seq = some v) : v.Summary (seq :: taken) := by
  obtain ⟨hzero, hcases⟩ := accept_eq_some haccept
  have hseq : seq ≠ 0 := fun heq => hzero (by rw [heq]; rfl)
  rcases hcases with ⟨hlt, hhigh, hbits⟩ | ⟨hle, hnear, hhigh, hbits⟩
  · refine ⟨.inr (by rw [hhigh]; exact mem_cons_self), ?_, ?_⟩
    · rw [hhigh]
      refine forall_mem_cons.mpr ⟨⟨hseq, UInt64.le_refl _⟩, fun a ha => ⟨(h.below a ha).1, ?_⟩⟩
      exact UInt64.le_trans (h.below a ha).2 (UInt64.le_of_lt (UInt64.lt_iff_toNat_lt.mpr hlt))
    · intro i hi
      rw [hhigh, hbits i hi]
      simp only [mem_cons, exists_eq_or_imp]
      refine or_congr (by omega) ?_
      constructor
      · rintro ⟨hge, hbit⟩
        obtain ⟨a, ha, hsum⟩ := (h.bits _ (by omega)).mp hbit
        exact ⟨a, ha, by omega⟩
      · rintro ⟨a, ha, hsum⟩
        have hbelow := UInt64.le_iff_toNat_le.mp (h.below a ha).2
        exact ⟨by omega, (h.bits _ (by omega)).mpr ⟨a, ha, by omega⟩⟩
  refine ⟨?_, ?_, ?_⟩
  · rcases h.high with ⟨-, hzero'⟩ | hmem
    · rw [hzero'] at hle
      exact absurd (Nat.le_zero.mp hle) hzero
    · exact .inr (by rw [hhigh]; exact mem_cons_of_mem _ hmem)
  · rw [hhigh]
    exact forall_mem_cons.mpr ⟨⟨hseq, UInt64.le_iff_toNat_le.mpr hle⟩, h.below⟩
  · intro i hi
    rw [hhigh, hbits i hi, h.bits i hi]
    simp only [mem_cons, exists_eq_or_imp]
    exact or_congr_left (by omega)

theorem Summary.accept_iff {w : Window} {taken : List UInt64} (h : w.Summary taken) (seq : UInt64) :
    (w.accept seq).isSome = true ↔ seq ≠ 0 ∧ seq ∉ taken ∧
      ((∀ a ∈ taken, a < seq) ∨
        ∃ m ∈ taken, (∀ a ∈ taken, a ≤ m) ∧ m.toNat - seq.toNat < 64) := by
  have hspent := @spent_iff w seq
  rw [Spent] at hspent
  rw [Option.isSome_iff_ne_none, ne_eq, hspent]
  have hzero : seq.toNat = 0 ↔ seq = 0 := by rw [← UInt64.toNat_inj, UInt64.toNat_zero]
  constructor
  · intro hfresh
    simp only [not_or, not_and, Bool.not_eq_true] at hfresh
    obtain ⟨hne, hfresh⟩ := hfresh
    refine ⟨fun heq => hne (hzero.mpr heq), fun hmem => ?_, ?_⟩
    · have hle := UInt64.le_iff_toNat_le.mp (h.below seq hmem).2
      obtain ⟨hnear, hbit⟩ := hfresh hle
      rw [(h.bits _ (by omega)).mpr ⟨seq, hmem, by omega⟩] at hbit
      cases hbit
    · by_cases hle : seq.toNat ≤ w.high.toNat
      · have hnear := (hfresh hle).1
        rcases h.high with ⟨-, hhigh⟩ | hmem
        · rw [hhigh] at hle
          exact absurd (Nat.le_zero.mp hle) hne
        · exact .inr ⟨w.high, hmem, fun a ha => (h.below a ha).2, by omega⟩
      · refine .inl fun a ha => UInt64.lt_iff_toNat_lt.mpr ?_
        have := UInt64.le_iff_toNat_le.mp (h.below a ha).2
        omega
  · rintro ⟨hne, hnot, hrange⟩ (hz | ⟨hle, hold⟩)
    · exact hne (hzero.mp hz)
    rcases h.high with ⟨-, hhigh⟩ | hmem
    · rw [hhigh] at hle
      exact hne (hzero.mp (Nat.le_zero.mp hle))
    rcases hrange with hall | ⟨m, hm, hmax, hnear⟩
    · have := UInt64.lt_iff_toNat_lt.mp (hall w.high hmem)
      omega
    have heq : m.toNat = w.high.toNat :=
      Nat.le_antisymm (UInt64.le_iff_toNat_le.mp (h.below m hm).2)
        (UInt64.le_iff_toNat_le.mp (hmax w.high hmem))
    rcases hold with hold | hbit
    · omega
    obtain ⟨a, ha, hsum⟩ := (h.bits _ (by omega)).mp hbit
    have hsame : a = seq := UInt64.toNat_inj.mp (by omega)
    exact hnot (hsame ▸ ha)

theorem trace_summary {past : List (UInt64 × Bool)} {w : Window}
    (h : Transition.Trace step {} past w) : w.Summary (taken past) := by
  refine Transition.Trace.invariant (fun past (w : Window) => w.Summary (taken past)) ?_ ?_ h
  · exact ⟨.inl ⟨rfl, rfl⟩, by simp [taken], by simp [taken]⟩
  · rintro past w seq - hsummary
    rcases hanswer : w.accept seq with _ | v
    · simpa [step, taken, hanswer] using hsummary
    · simpa [step, taken, hanswer] using hsummary.accept hanswer

/-- After every sequence of calls, `accept` takes a number exactly if it is not zero, was not
taken before, and exceeds all taken ones or lies less than 64 below the largest. -/
theorem accept_iff_taken (calls : List UInt64) (seq : UInt64) :
    ((Transition.run step {} calls).2.accept seq).isSome = true ↔
      seq ≠ 0 ∧ seq ∉ taken (Transition.run step {} calls).1 ∧
        ((∀ a ∈ taken (Transition.run step {} calls).1, a < seq) ∨
          ∃ m ∈ taken (Transition.run step {} calls).1,
            (∀ a ∈ taken (Transition.run step {} calls).1, a ≤ m) ∧ m.toNat - seq.toNat < 64) :=
  (trace_summary (@Transition.trace_run _ _ _ step {} calls)).accept_iff seq

end Window

namespace Challenge

theorem length_encode (c : Challenge) : c.encode.length = challengeSize := by
  simp [encode, challengeSize]

theorem decode_encode {c d : Challenge} (h : decode c.encode = some d) : d = c := by
  have hn : field c.encode 0 32 = c.n.toList := by
    rw [encode, append_assoc, append_assoc]
    exact @field_append [] c.n.toList _ 0 32 rfl (by simp)
  have hauthority : field c.encode 32 32 = c.authority.toList := by
    rw [encode, append_assoc, append_assoc]
    exact field_append (by simp) (by simp)
  have hcaps : loadBe64 c.encode 64 = c.caps := by
    rw [encode, append_assoc]
    exact loadBe64_store _ (by simp)
  have hlevel : loadBe64 c.encode 72 = c.level := by
    rw [encode, ← append_nil (storeBe64 c.level)]
    exact loadBe64_store _ (by simp)
  rw [decode, if_neg (by rw [length_encode]; exact not_not.mpr rfl)] at h
  split at h
  · cases h
  · rw [hn, hauthority, hcaps, hlevel, block_toList, block_toList] at h
    exact (Option.some.inj h).symm

end Challenge

namespace Auth

variable (P : Primitives)

inductive Verified (a : Auth) (request : Id) (message proof : Bytes) (caps : UInt64) :
    Auth × Option AuthorityKey → Prop
  | refused : Verified a request message proof caps (a, none)
  /-- A proof that fails its check leaves the key derived for it behind. -/
  | unproven (s keyed : AuthSession)
      (hfind : a.incoming.find? (block 32 (field proof 0 32)) = some s)
      (hkey : a.keyed P s (block 32 (field proof 32 32)) = some keyed) :
      Verified a request message proof caps
        ({ a with incoming := a.incoming.insert (block 32 (field proof 0 32)) keyed }, none)
  | accepted (s keyed : AuthSession) (rx : Window) (hsize : proof.length = proofSize)
      (hfind : a.incoming.find? (block 32 (field proof 0 32)) = some s)
      (hrequest : s.request = zeroBlock 16 ∨ s.request = request)
      (hgrants : a.required = true →
        a.grants s.challenge (block 32 (field proof 32 32)) caps = true)
      (hkey : a.keyed P s (block 32 (field proof 32 32)) = some keyed)
      (htag : (tag P keyed.key message proof false).toList = field proof 72 16)
      (hrx : keyed.rx.accept (sequence proof) = some rx) :
      Verified a request message proof caps
        ({ a with
            incoming := (a.incoming.insert (block 32 (field proof 0 32))
              ({ keyed with rx }.bind (block 32 (field proof 32 32)) request)).filter fun m t =>
                m = block 32 (field proof 0 32) || t.request ≠ request
            responding := a.responding.insert request (block 32 (field proof 0 32)) },
          some (block 32 (field proof 32 32)))

theorem check_eq_some {s t : AuthSession} {message proof : Bytes}
    (h : check P s message proof false = some t) :
    (tag P s.key message proof false).toList = field proof 72 16 ∧
      ∃ rx, s.rx.accept (sequence proof) = some rx ∧ t = { s with rx } := by
  rw [check] at h
  split at h
  · cases h
  split at h
  · cases h
  next htag =>
  obtain ⟨rx, hrx, ht⟩ := Option.map_eq_some_iff.mp h
  exact ⟨not_not.mp htag, rx, hrx, ht.symm⟩

theorem verify_cases (a : Auth) (request : Id) (message proof : Bytes) (caps : UInt64) :
    Verified P a request message proof caps (a.verify P request message proof caps) := by
  rw [verify]
  split
  · exact .refused
  next hsize =>
  dsimp only
  split
  · exact .refused
  next s hfind =>
  split
  · exact .refused
  next hrequest =>
  split
  · exact .refused
  next hgrants =>
  split
  · exact .refused
  next keyed hkey =>
  split
  · exact .unproven s keyed hfind hkey
  next t hcheck =>
  obtain ⟨htag, rx, hrx, rfl⟩ := check_eq_some P hcheck
  refine .accepted s keyed rx ?_ hfind ?_ ?_ hkey htag hrx
  · exact not_not.mp fun h => hsize (.inr h)
  · by_cases hzero : s.request = zeroBlock 16
    · exact .inl hzero
    · exact .inr (not_not.mp fun h => hrequest ⟨hzero, h⟩)
  · intro hreq
    exact Bool.not_eq_false _ ▸ fun h => hgrants ⟨hreq, h⟩

/-- A session keyed for an authority differs from what it was in nothing but its key. -/
theorem keyed_eq_some {a : Auth} {s t : AuthSession} {authority : AuthorityKey}
    (h : a.keyed P s authority = some t) :
    t = { s with key := t.key } ∧
      (s.bound = true → s.authority = authority ∧ t.key = s.key) ∧
      (s.bound = false → derive P s.secret authority s.challenge authority a.origin = some t.key) := by
  rw [keyed] at h
  split at h
  next hbound =>
    split at h
    next hauth =>
      cases h
      exact ⟨rfl, fun _ => ⟨hauth, rfl⟩, fun hfalse => by rw [hbound] at hfalse; cases hfalse⟩
    next => cases h
  next hbound =>
  obtain ⟨key, hkey, rfl⟩ := Option.map_eq_some_iff.mp h
  exact ⟨rfl, fun htrue => absurd htrue hbound, fun _ => hkey⟩

theorem grants_eq_true {a : Auth} {challenge : Challenge} {authority : AuthorityKey} {caps : UInt64}
    (h : a.grants challenge authority caps = true) :
    ∃ grant, a.config.trusted.find? authority = some grant ∧
      grant.allows (caps ||| a.config.caps) a.config.level = true := by
  rw [grants] at h
  split at h
  · cases h
  next grant hfind =>
  split at h
  · cases h
  split at h
  · cases h
  · exact ⟨grant, hfind, h⟩

theorem length_protect (a : Auth) (request : Id) (message : Bytes) (reply : Bool) :
    (a.protect P request message reply).2 = [] ∨
      (a.protect P request message reply).2.length = proofSize := by
  have hsign : ∀ s : AuthSession, (sign P s message reply).2 = [] ∨
      (sign P s message reply).2.length = proofSize := by
    intro s
    rw [sign]
    split
    · exact .inl rfl
    · refine .inr ?_
      simp [proofSize]
  rw [protect]
  split
  · exact .inl rfl
  split
  next hreply =>
    split
    · exact .inl rfl
    split
    · exact .inl rfl
    · exact hreply ▸ hsign _
  next hreply =>
  split
  · exact .inl rfl
  · exact Bool.eq_false_iff.mpr hreply ▸ hsign _

theorem challenge_issued {a : Auth} {request : Id} {caps : UInt64} {now : Time}
    {random : Option (Block 32)} (h : (a.challenge P request caps now random).2 ≠ []) :
    ∃ secret c, random = some secret ∧ c = (a.tick now).freshChallenge P secret caps ∧
      a.config.enabled = true ∧
      a.challenge P request caps now random =
        ({ a.tick now with
            nextChallenge := now + 20 * millisecond
            incoming := (a.tick now).incoming.insert c.n
              { challenge := c, secret, request, expires := now + lifetime } }, c.encode) := by
  rw [challenge] at h ⊢
  dsimp only at h ⊢
  split at h
  · exact absurd rfl h
  next hopen =>
  rw [if_neg hopen]
  rcases random with _ | secret
  · exact absurd rfl h
  dsimp only at h ⊢
  split at h
  · exact absurd rfl h
  next hnew =>
  rw [if_neg hnew]
  refine ⟨secret, _, rfl, rfl, ?_, rfl⟩
  rw [not_or, not_or] at hopen
  exact Bool.not_eq_false _ ▸ hopen.2.1

theorem freshChallenge_n (a : Auth) (secret : Block 32) (caps : UInt64) :
    (a.freshChallenge P secret caps).n = P.publicKey secret := by
  rw [freshChallenge]
  split <;> rfl

end Auth

end Tuntom.Control
