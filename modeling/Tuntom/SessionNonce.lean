import Tuntom.Ascon
import Tuntom.SessionTranscripts

/-! Nonce uniqueness. The sequence of a packet, under its transmit key, is the
nonce of the AEAD. Sessions move between the slots of an endpoint, but no move
copies a session or winds its counter back, so a sequence is used twice only for
the fixed confirmation with counter 0. -/
namespace Tuntom
open List

/-! ### Sequences -/

def counterOf (p : Packet) : ℕ := (p.sequence &&& counterMask).toNat

def hintOf (p : Packet) : UInt16 := (p.sequence >>> 48).toUInt16

theorem toNat_sequenceOf {hint : UInt16} {k : ℕ} (hk : k < 2 ^ 48) :
    (sequenceOf hint k).toNat = hint.toNat * 2 ^ 48 + k := by
  have hh : hint.toNat < 2 ^ 16 := hint.toNat_lt
  have hshift : (hint.toUInt64 <<< 48).toNat = hint.toNat <<< 48 := by
    have h48 : (48 : UInt64).toNat % 64 = 48 := rfl
    rw [UInt64.toNat_shiftLeft, UInt16.toNat_toUInt64, h48]
    apply Nat.mod_eq_of_lt
    rw [Nat.shiftLeft_eq]
    omega
  have hofNat : (UInt64.ofNat k).toNat = k := UInt64.toNat_ofNat_of_lt' (hk.trans (by decide))
  rw [sequenceOf, UInt64.toNat_or, hshift, hofNat, ← Nat.shiftLeft_add_eq_or_of_lt hk,
    Nat.shiftLeft_eq]

theorem counterOf_sequence {p : Packet} {hint : UInt16} {k : ℕ} (hk : k < 2 ^ 48)
    (h : p.sequence = sequenceOf hint k) : counterOf p = k := by
  have hmask : counterMask.toNat = 2 ^ 48 - 1 := rfl
  rw [counterOf, h, UInt64.toNat_and, hmask, Nat.and_two_pow_sub_one_eq_mod, toNat_sequenceOf hk]
  omega

theorem hintOf_sequence {p : Packet} {hint : UInt16} {k : ℕ} (hk : k < 2 ^ 48)
    (h : p.sequence = sequenceOf hint k) : hintOf p = hint := by
  have hh : hint.toNat < 2 ^ 16 := hint.toNat_lt
  have h48 : (48 : UInt64).toNat % 64 = 48 := rfl
  apply UInt16.toNat_inj.mp
  rw [hintOf, h, UInt64.toNat_toUInt16, UInt64.toNat_shiftRight, h48, toNat_sequenceOf hk,
    Nat.shiftRight_eq_div_pow]
  omega

theorem confirmation_sequence (cfg : SessionConfig) (session : Session) (type : PacketType) :
    (confirmationPacket cfg session type).sequence = sequenceOf session.hint 0 := by
  simp [confirmationPacket, sequenceOf]

theorem counterLimit_lt (cfg : SessionConfig) : cfg.counterLimit < 2 ^ 48 := by
  rw [SessionConfig.counterLimit]
  split <;> decide

/-! ### Sessions in their slots -/

/-- A session as `derive` made it. -/
def Session.base (session : Session) : Session := { session with replay := [], nextCounter := 1 }

def SessionConfig.confirmType (cfg : SessionConfig) : PacketType :=
  if cfg.server then .confirmAck else .confirm

/-- The derivations of a history have different transmit keys unless their transcripts agree. -/
def DistinctKeys (log : List SessionEvent) : Prop :=
  ∀ d ∈ derivations log, ∀ d' ∈ derivations log, d.codec.txKey = d'.codec.txKey →
    d.init = d'.init ∧ d.response = d'.response

instance (log : List SessionEvent) : Decidable (DistinctKeys log) :=
  inferInstanceAs (Decidable (∀ _ ∈ _, _))

/-- `e` was encoded for the session derived as `d` with the counter `k`, which that
session will not use again. -/
structure EncodedWith (cfg : SessionConfig) (c : SessionCore) (d : Session) (k : ℕ)
    (e : Codec × Packet) : Prop where
  codec : e.1 = d.codec
  limit : k ≤ cfg.counterLimit
  sequence : e.2.sequence = sequenceOf d.hint k
  zero : k = 0 → e.2 = confirmationPacket cfg d cfg.confirmType
  spent : ∀ slot session, c.slot slot = some session → session.init = d.init →
    k < session.nextCounter

structure SlotInv (cfg : SessionConfig) (log : List SessionEvent) (c : SessionCore) : Prop where
  held : ∀ slot session, c.slot slot = some session → session.base ∈ derivations log
  apart : ∀ a b session session', c.slot a = some session → c.slot b = some session' →
    session.init = session'.init → a = b
  counter : ∀ slot session, c.slot slot = some session →
    1 ≤ session.nextCounter ∧ session.nextCounter ≤ cfg.counterLimit + 1
  encoded : ∀ e ∈ encodings log, ∃ d ∈ derivations log, ∃ k, EncodedWith cfg c d k e
  unique : (encodings log).Pairwise fun a b => a.1.txKey = b.1.txKey →
    a.2.sequence = b.2.sequence → counterOf a.2 = 0 ∧ a = b

section Slots
variable {P : Primitives} {cfg : SessionConfig} {log : List SessionEvent} {c c' : SessionCore}

theorem Session.init_eq_of_base {σ τ : Session} (h : σ.base = τ.base) : σ.init = τ.init := by
  change σ.base.init = τ.base.init
  rw [h]

/-- Sessions may move between slots, be dropped and advance, but are never copied. -/
def Moves (cfg : SessionConfig) (c c' : SessionCore) : Prop :=
  ∃ f : Slot → Slot,
    (∀ a b session session', c'.slot a = some session → c'.slot b = some session' → f a = f b →
      a = b) ∧
    ∀ b session', c'.slot b = some session' → ∃ session, c.slot (f b) = some session ∧
      session'.base = session.base ∧ session.nextCounter ≤ session'.nextCounter ∧
      (session.nextCounter ≤ cfg.counterLimit + 1 → session'.nextCounter ≤ cfg.counterLimit + 1)

theorem Moves.of_slots (f : Slot → Slot)
    (hf : ∀ a b session session', c'.slot a = some session → c'.slot b = some session' →
      f a = f b → a = b)
    (hslots : ∀ b session, c'.slot b = some session → c.slot (f b) = some session) :
    Moves cfg c c' :=
  ⟨f, hf, fun b session hs => ⟨session, hslots b session hs, rfl, le_rfl, id⟩⟩

theorem Moves.of_drop
    (hslots : ∀ b session, c'.slot b = some session → c.slot b = some session) : Moves cfg c c' :=
  .of_slots id (fun _ _ _ _ _ _ h => h) hslots

variable {session : Session} {events : List SessionEvent}

theorem Moves.of_advance (target : Slot) {session' : Session}
    (hold : c.slot target = some session) (hnew : c'.slot target = some session')
    (hrest : ∀ b, b ≠ target → c'.slot b = c.slot b) (hbase : session'.base = session.base)
    (hle : session.nextCounter ≤ session'.nextCounter)
    (hlimit : session.nextCounter ≤ cfg.counterLimit + 1 →
      session'.nextCounter ≤ cfg.counterLimit + 1) : Moves cfg c c' := by
  refine ⟨id, fun _ _ _ _ _ _ h => h, ?_⟩
  intro b σ hs
  by_cases hb : b = target
  · subst hb
    rw [hnew] at hs
    cases hs
    exact ⟨session, hold, hbase, hle, hlimit⟩
  · rw [hrest b hb] at hs
    exact ⟨σ, hs, rfl, le_rfl, id⟩

theorem SlotInv.move (h : SlotInv cfg log c) (hm : Moves cfg c c') : SlotInv cfg log c' := by
  obtain ⟨f, hinj, horigin⟩ := hm
  refine { held := ?_, apart := ?_, counter := ?_, encoded := ?_, unique := h.unique }
  · intro slot session' hs
    obtain ⟨session, hs', hbase, -⟩ := horigin slot session' hs
    exact hbase ▸ h.held _ _ hs'
  · intro a b session session' ha hb hi
    obtain ⟨σ, hσ, hσb, -⟩ := horigin a session ha
    obtain ⟨τ, hτ, hτb, -⟩ := horigin b session' hb
    have hi' : σ.init = τ.init := by
      rw [← Session.init_eq_of_base hσb, ← Session.init_eq_of_base hτb, hi]
    exact hinj a b session session' ha hb (h.apart _ _ σ τ hσ hτ hi')
  · intro slot session' hs
    obtain ⟨session, hs', -, hle, hlimit⟩ := horigin slot session' hs
    have hcounter := h.counter _ _ hs'
    exact ⟨hcounter.1.trans hle, hlimit hcounter.2⟩
  · intro e he
    obtain ⟨d, hd, k, hk⟩ := h.encoded e he
    refine ⟨d, hd, k, hk.codec, hk.limit, hk.sequence, hk.zero, ?_⟩
    intro slot session' hs hi
    obtain ⟨session, hs', hbase, hle, -⟩ := horigin slot session' hs
    exact (hk.spent _ session hs' ((Session.init_eq_of_base hbase).symm.trans hi)).trans_le hle

theorem SlotInv.of_log {log' : List SessionEvent} (h : SlotInv cfg log c)
    (hderivations : derivations log' = derivations log)
    (hencodings : encodings log' = encodings log) : SlotInv cfg log' c := by
  obtain ⟨h1, h2, h3, h4, h5⟩ := h
  exact ⟨by rwa [hderivations], h2, h3, by rwa [hencodings, hderivations], by rwa [hencodings]⟩

theorem derivation_ext (hdistinct : DistinctInits log) {d d' : Session} (hd : d ∈ derivations log)
    (hd' : d' ∈ derivations log) (h : d.init = d'.init) : d = d' :=
  inj_on_of_nodup_map hdistinct hd hd' h

theorem SlotInv.encoding_unique (h : SlotInv cfg log c) (hdistinct : DistinctInits log)
    (hkeys : DistinctKeys log) {d : Session} (hd : d ∈ derivations log) {k : ℕ}
    {e : Codec × Packet} (hcodec : e.1 = d.codec) (hlimit : k ≤ cfg.counterLimit)
    (hsequence : e.2.sequence = sequenceOf d.hint k)
    (hzero : k = 0 → e.2 = confirmationPacket cfg d cfg.confirmType)
    (hnext : k ≠ 0 → ∃ slot session, c.slot slot = some session ∧ session.init = d.init ∧
      session.nextCounter = k) :
    ∀ e' ∈ encodings log, e.1.txKey = e'.1.txKey → e.2.sequence = e'.2.sequence →
      counterOf e.2 = 0 ∧ e = e' := by
  intro e' he' hkey hseq
  obtain ⟨d', hd', k', hk'⟩ := h.encoded e' he'
  have hbound := counterLimit_lt cfg
  have hdd : d = d' := by
    refine derivation_ext hdistinct hd hd' (hkeys d hd d' hd' ?_).1
    rw [← hcodec, hkey, hk'.codec]
  subst hdd
  have hcounter : counterOf e.2 = k := counterOf_sequence (by omega) hsequence
  have hcounter' : counterOf e'.2 = k' := counterOf_sequence (by have := hk'.limit; omega) hk'.sequence
  have hkk : k = k' := by rw [← hcounter, ← hcounter', counterOf, counterOf, hseq]
  by_cases hk0 : k = 0
  · refine ⟨hcounter.trans hk0, Prod.ext (hcodec.trans hk'.codec.symm) ?_⟩
    rw [hzero hk0, hk'.zero (hkk ▸ hk0)]
  obtain ⟨slot, session, hslot, hinit, hnextk⟩ := hnext hk0
  have := hk'.spent slot session hslot hinit
  omega

theorem SlotInv.confirm (h : SlotInv cfg log c) (hdistinct : DistinctInits log)
    (hkeys : DistinctKeys log) (slot : Slot) (hslot : c.slot slot = some session)
    (hderivations : derivations (events ++ log) = derivations log)
    (hencodings : encodings (events ++ log) =
      (session.codec, confirmationPacket cfg session cfg.confirmType) :: encodings log) :
    SlotInv cfg (events ++ log) c := by
  have hd := h.held slot session hslot
  refine { held := ?_, apart := h.apart, counter := h.counter, encoded := ?_, unique := ?_ }
  · rw [hderivations]
    exact h.held
  · rw [hencodings, hderivations]
    intro e he
    rcases mem_cons.mp he with rfl | he
    · refine ⟨session.base, hd, 0, rfl, Nat.zero_le _, confirmation_sequence _ _ _, fun _ => rfl, ?_⟩
      intro slot' session' hs _
      exact (h.counter slot' session' hs).1
    · exact h.encoded e he
  · rw [hencodings]
    refine pairwise_cons.mpr ⟨?_, h.unique⟩
    exact h.encoding_unique hdistinct hkeys hd rfl (Nat.zero_le _) (confirmation_sequence _ _ _)
      (fun _ => rfl) (fun h0 => absurd rfl h0)

theorem SlotInv.enter (h : SlotInv cfg log c) {d : Session} (target : Slot) (f : Slot → Slot)
    (hdistinct : DistinctInits (events ++ log))
    (hderivations : derivations (events ++ log) = d :: derivations log)
    (hencodings : encodings (events ++ log) = encodings log) (hbase : d.base = d)
    (htarget : c'.slot target = some d)
    (hothers : ∀ b session, b ≠ target → c'.slot b = some session → c.slot (f b) = some session)
    (hf : ∀ a b, a ≠ target → b ≠ target → f a = f b → a = b) : SlotInv cfg (events ++ log) c' := by
  have hnew : ∀ d' ∈ derivations log, d'.init ≠ d.init := by
    rw [DistinctInits, hderivations, map_cons, nodup_cons] at hdistinct
    intro d' hd' heq
    exact hdistinct.1 (mem_map.mpr ⟨d', hd', heq⟩)
  -- a slot holds either the new session or one of the old ones
  have hcases : ∀ b session, c'.slot b = some session →
      b = target ∧ session = d ∨
        b ≠ target ∧ c.slot (f b) = some session ∧ session.init ≠ d.init := by
    intro b session hs
    by_cases hb : b = target
    · rw [hb, htarget] at hs
      exact .inl ⟨hb, (Option.some.inj hs).symm⟩
    · have hs' := hothers b session hb hs
      exact .inr ⟨hb, hs', hnew session.base (h.held _ _ hs')⟩
  have hcounter : d.nextCounter = 1 := by
    rw [← hbase]
    rfl
  refine { held := ?_, apart := ?_, counter := ?_, encoded := ?_, unique := ?_ }
  · intro slot session hs
    rw [hderivations]
    rcases hcases slot session hs with ⟨-, rfl⟩ | ⟨-, hs', -⟩
    · exact hbase ▸ mem_cons_self
    · exact mem_cons_of_mem _ (h.held _ _ hs')
  · intro a b session session' ha hb hi
    rcases hcases a session ha with ⟨rfl, rfl⟩ | ⟨hat, ha', hai⟩ <;>
      rcases hcases b session' hb with ⟨rfl, rfl⟩ | ⟨hbt, hb', hbi⟩
    · rfl
    · exact absurd hi.symm hbi
    · exact absurd hi hai
    · exact hf a b hat hbt (h.apart _ _ session session' ha' hb' hi)
  · intro slot session hs
    rcases hcases slot session hs with ⟨-, rfl⟩ | ⟨-, hs', -⟩
    · omega
    · exact h.counter _ _ hs'
  · rw [hencodings, hderivations]
    intro e he
    obtain ⟨d', hd', k, hk⟩ := h.encoded e he
    refine ⟨d', mem_cons_of_mem _ hd', k, hk.codec, hk.limit, hk.sequence, hk.zero, ?_⟩
    intro slot session hs hi
    rcases hcases slot session hs with ⟨-, rfl⟩ | ⟨-, hs', -⟩
    · exact absurd hi.symm (hnew d' hd')
    · exact hk.spent _ session hs' hi
  · rw [hencodings]
    exact h.unique

theorem SlotInv.encode (h : SlotInv cfg log c) (hdistinct : DistinctInits log)
    (hkeys : DistinctKeys log) {packet : Packet} (hactive : c.active = some session)
    (hlimit : session.nextCounter ≤ cfg.counterLimit)
    (hsequence : packet.sequence = sequenceOf session.hint session.nextCounter) (hmove : Moves cfg c
      { c with active := some { session with nextCounter := session.nextCounter + 1 } }) :
    SlotInv cfg (.encoded session.codec packet :: log)
      { c with active := some { session with nextCounter := session.nextCounter + 1 } } := by
  have hd := h.held .active session hactive
  have hpos := (h.counter .active session hactive).1
  have hmoved := h.move hmove
  refine { held := hmoved.held, apart := hmoved.apart, counter := hmoved.counter
           encoded := ?_, unique := ?_ }
  · intro e he
    rcases mem_cons.mp he with rfl | he
    · refine ⟨session.base, hd, session.nextCounter, rfl, hlimit, hsequence, by omega, ?_⟩
      intro slot session' hs hi
      have hslot : slot = .active := hmoved.apart _ _ session' _ hs rfl hi
      subst hslot
      cases hs
      exact Nat.lt_succ_self _
    · exact hmoved.encoded e he
  · refine pairwise_cons.mpr ⟨?_, h.unique⟩
    exact h.encoding_unique hdistinct hkeys hd rfl hlimit hsequence (by omega)
      (fun _ => ⟨.active, session, hactive, rfl, rfl⟩)

theorem DistinctInits.of_append (h : DistinctInits (events ++ log)) : DistinctInits log := by
  rw [DistinctInits, derivations, filterMap_append, map_append] at h
  exact h.of_append_right

theorem DistinctKeys.of_append (h : DistinctKeys (events ++ log)) : DistinctKeys log := by
  have hmem : ∀ d ∈ derivations log, d ∈ derivations (events ++ log) := by
    intro d hd
    rw [derivations, filterMap_append]
    exact mem_append_right _ hd
  exact fun d hd d' hd' => h d (hmem d hd) d' (hmem d' hd')

theorem slotInv_effect {input : Option Bytes} (hdistinct : DistinctInits (events ++ log))
    (hkeys : DistinctKeys (events ++ log)) (h : SlotInv cfg log c)
    (e : Effect P cfg input c c' events) : SlotInv cfg (events ++ log) c' := by
  have hdistinct₀ := hdistinct.of_append
  have hkeys₀ := hkeys.of_append
  cases e with
  | expirePrevious =>
    exact h.move (.of_drop fun b session hs => by cases b <;> simp_all [SessionCore.slot])
  | expirePending =>
    exact h.move (.of_drop fun b session hs => by cases b <;> simp_all [SessionCore.slot])
  | begin =>
    refine (h.move (.of_drop fun b session hs => ?_)).of_log rfl rfl
    cases b <;> first | exact hs | cases hs
  | clear =>
    exact h.move (.of_drop fun b session hs => by cases b <;> cases hs)
  | abandon =>
    -- an unconfirmed candidate gives its place back to the previous session
    refine h.move (.of_slots (fun b => if c.waitingAck ∧ b = .active then .previous else b) ?_ ?_)
    · intro a b session session' ha hb hab
      cases hw : c.waitingAck <;> cases a <;> cases b <;> simp_all [SessionCore.slot]
    · intro b session hs
      cases hw : c.waitingAck <;> cases b <;> simp_all [SessionCore.slot]
  | spend session hactive hlimit =>
    exact h.move (.of_advance .active hactive rfl
      (fun b hb => by cases b <;> first | rfl | exact absurd rfl hb) rfl (Nat.le_succ _)
      (fun _ => Nat.succ_le_succ hlimit))
  | encode session packet hactive hlimit hsequence =>
    exact h.encode hdistinct₀ hkeys₀ hactive hlimit hsequence (.of_advance .active hactive rfl
      (fun b hb => by cases b <;> first | rfl | exact absurd rfl hb) rfl (Nat.le_succ _)
      (fun _ => Nat.succ_le_succ hlimit))
  | advance wall | purge => exact h.move (.of_drop fun b session hs => by cases b <;> exact hs)
  | reserve => exact h.move (.of_drop fun b session hs => by cases b <;> exact hs)
  | respond wire packet random secret dh now response candidate _ _ hpending _ hcandidate =>
    refine h.enter .pending id hdistinct rfl rfl (by rw [hcandidate]; rfl) rfl ?_
      (fun _ _ _ _ hab => hab)
    intro b session hb hs
    cases b <;> first | exact absurd rfl hb | exact hs | cases hs
  | propose wire packet dh now candidate _ hclient _ _ _ _ _ hcandidate =>
    have hdistinct₁ : DistinctInits ([.derived candidate] ++ log) := hdistinct
    have hkeys₁ : DistinctKeys ([.derived candidate] ++ log) := hkeys
    have henter : SlotInv cfg ([.derived candidate] ++ log)
        { c with clientSecret := Vector.replicate 32 0, previous := c.active, waitingAck := true,
                 active := some candidate, flight := confirmation P cfg candidate .confirm } := by
      refine h.enter .active (fun b => if b = .previous then .active else b) hdistinct₁ rfl rfl
        (by rw [hcandidate]; rfl) rfl ?_ ?_
      · intro b session hb hs
        cases b <;> first | exact absurd rfl hb | exact hs
      · intro a b ha hb hab
        cases a <;> cases b <;> simp_all
    change SlotInv cfg ([.encoded _ _] ++ ([.derived candidate] ++ log)) _
    exact henter.confirm hdistinct₁ hkeys₁ .active rfl rfl
      (by rw [SessionConfig.confirmType, hclient]; rfl)
  | promote wire packet session _ hserver hpending =>
    have hmove : SlotInv cfg log
        { c with previous := c.active, active := some session, pending := none } := by
      refine h.move (.of_slots (fun b => if b = .active then .pending else .active) ?_ ?_)
      · intro a b σ τ ha hb hab
        cases a <;> cases b <;> simp_all [SessionCore.slot]
      · intro b σ hs
        cases b <;> simp_all [SessionCore.slot]
    exact hmove.confirm hdistinct₀ hkeys₀ .active rfl rfl
      (by rw [SessionConfig.confirmType, if_pos hserver]; rfl)
  | acknowledgeAgain session hserver hactive =>
    exact h.confirm hdistinct₀ hkeys₀ .active hactive rfl
      (by rw [SessionConfig.confirmType, if_pos hserver]; rfl)
  | acknowledged => exact (h.move (.of_drop fun b session hs => by cases b <;> exact hs)).of_log rfl rfl
  | replayActive session window hactive =>
    exact h.move (.of_advance .active hactive rfl
      (fun b hb => by cases b <;> first | rfl | exact absurd rfl hb) rfl le_rfl id)
  | replayPrevious session window hprevious =>
    exact h.move (.of_advance .previous hprevious rfl
      (fun b hb => by cases b <;> first | rfl | exact absurd rfl hb) rfl le_rfl id)

theorem slotInv_start : SlotInv cfg [] {} := by
  have hempty : ∀ slot session, ({} : SessionCore).slot slot ≠ some session := by
    intro slot session
    cases slot <;> rintro ⟨⟩
  exact { held := fun slot session hs => absurd hs (hempty slot session)
          apart := fun a _ session _ hs => absurd hs (hempty a session)
          counter := fun slot session hs => absurd hs (hempty slot session)
          encoded := fun _ he => (not_mem_nil he).elim
          unique := .nil }

end Slots

section Runs
variable {P : Primitives} {cfg : SessionConfig} {past : List (SessionOp × Report)} {s : Endpoint}

theorem slotInv_trace (h : SessionTrace P cfg past s) (hfresh : FreshInits cfg (eventLog past))
    (hkeys : DistinctKeys (eventLog past)) : SlotInv cfg (eventLog past) s.core := by
  refine sessionTrace_invariant
    (fun log c => DistinctInits log → DistinctKeys log → SlotInv cfg log c)
    (fun _ _ => slotInv_start) ?_ h (distinctInits_trace h hfresh) hkeys
  intro input log c c' events hinv e hdistinct hkeys
  exact slotInv_effect hdistinct hkeys (hinv hdistinct.of_append hkeys.of_append) e

/-- No two encodings of an endpoint share transmit key and sequence unless they are
the same fixed confirmation; every counter stays below the limit of the suite and
out of the hint. -/
theorem session_nonce_unique (h : SessionTrace P cfg past s)
    (hfresh : FreshInits cfg (eventLog past)) (hkeys : DistinctKeys (eventLog past)) :
    ((encodings (eventLog past)).Pairwise fun a b => a.1.txKey = b.1.txKey →
        a.2.sequence = b.2.sequence → counterOf a.2 = 0 ∧ a = b) ∧
      ∀ e ∈ encodings (eventLog past), counterOf e.2 ≤ cfg.counterLimit ∧
        ∃ d ∈ derivations (eventLog past), e.1 = d.codec ∧ hintOf e.2 = d.hint ∧
          (counterOf e.2 = 0 →
            e.2 = confirmationPacket cfg d (if cfg.server then .confirmAck else .confirm)) := by
  have hinv := slotInv_trace h hfresh hkeys
  refine ⟨hinv.unique, ?_⟩
  intro e he
  obtain ⟨d, hd, k, hk⟩ := hinv.encoded e he
  have hlt : k < 2 ^ 48 := hk.limit.trans_lt (counterLimit_lt cfg)
  have hcounter : counterOf e.2 = k := counterOf_sequence hlt hk.sequence
  refine ⟨hcounter.symm ▸ hk.limit, d, hd, hk.codec, hintOf_sequence hlt hk.sequence, ?_⟩
  intro h0
  exact hk.zero (hcounter.symm.trans h0)

end Runs

section Samples

def sampleConfig (server : Bool) : SessionConfig where
  id := 7
  master := Vector.replicate 16 1
  server := server
  encrypt := true
  pfs := false
  initWindow := 300
  encrypt_of_pfs := by simp
  window_valid := by decide

def sampleRandom (b : UInt8) : Random := { id := some 9, nonce := some (Vector.replicate 32 b) }

def sampleInit (P : Primitives) : Bytes :=
  (sessionBegin P (sampleConfig false) {} 0 1000 (sampleRandom 2)).result

def sampleResponse (P : Primitives) : Bytes :=
  (sessionReceive P (sampleConfig true) {} (sampleInit P) 0 1000 (sampleRandom 3)).result.reply

def sampleLog : List SessionEvent :=
  eventLog (Transition.run (sessionStep samplePrimitives (sampleConfig false)) {}
    [.begin 0 1000 (sampleRandom 2), .receive (sampleResponse samplePrimitives) 1 1000 {},
      .encode { payload := [1], originalLength := 1 },
      .encode { payload := [2], originalLength := 1 }]).1

theorem sampleLog_facts :
    (handshakes sampleLog).Nodup ∧ DistinctKeys sampleLog ∧
      (encodings sampleLog).map (fun e => (e.2.type, counterOf e.2)) =
        [(.data, 2), (.data, 1), (.confirm, 0)] := by
  decide +kernel

theorem session_nonce_unique_sample :
    (encodings sampleLog).map (fun e => (e.2.type, counterOf e.2)) =
        [(.data, 2), (.data, 1), (.confirm, 0)] ∧
      (encodings sampleLog).Pairwise fun a b => a.1.txKey = b.1.txKey →
        a.2.sequence = b.2.sequence → counterOf a.2 = 0 ∧ a = b :=
  ⟨sampleLog_facts.2.2,
    (session_nonce_unique (Transition.trace_run _) (fun _ => sampleLog_facts.1)
      sampleLog_facts.2.1).1⟩

end Samples

end Tuntom
