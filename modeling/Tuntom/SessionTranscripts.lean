import Tuntom.SessionEffects

/-! No INIT is used for two derivations. A client draws a new INIT for every
handshake and derives at most once from it; a server remembers the nonce of every
INIT it answered for as long as the timestamp test would let it in again. -/
namespace Tuntom
open List

section Handshake
variable (P : Primitives) (cfg : SessionConfig)

/-! ### The handshake packets are well formed -/

theorem suite_le (cfg : SessionConfig) : cfg.suite ≤ 2 := by
  rw [SessionConfig.suite]
  split
  · decide
  · split <;> decide

theorem suite_eq_two_iff (cfg : SessionConfig) : cfg.suite = 2 ↔ cfg.pfs := by
  cases hp : cfg.pfs <;> cases he : cfg.encrypt <;> simp [SessionConfig.suite, hp, he]

theorem length_suiteFields (secret : Block 32) :
    (suiteFields P cfg secret).length = 4 + if cfg.pfs then 32 else 0 := by
  rw [suiteFields]
  split <;> simp

theorem handshakeRules_suiteFields {p : Packet} (front : Bytes) (secret : Block 32) {n : ℕ}
    (hn : front.length + 4 = n) (hpayload : p.payload = front ++ suiteFields P cfg secret)
    (hsequence : p.sequence = 0) (hid : p.messageId ≠ 0) (hoffset : p.fragmentOffset = 0)
    (hlength : p.originalLength = 0) : p.handshakeRules n := by
  have hlen : p.payload.length = n + if cfg.pfs then 32 else 0 := by
    rw [hpayload, length_append, length_suiteFields]
    omega
  have hsuite : loadBe16 p.payload (n - 4) = cfg.suite := by
    rw [hpayload, suiteFields]
    exact loadBe16_store _ (by omega)
  have hdh : loadBe16 p.payload (n - 2) = if cfg.pfs then 32 else 0 := by
    rw [hpayload, suiteFields, ← append_assoc]
    have hfront : (front ++ storeBe16 cfg.suite).length = n - 2 := by
      simp
      omega
    split
    · exact loadBe16_store _ hfront
    · simpa using @loadBe16_store _ [] _ 0 hfront
  have hpfs : (if cfg.suite = 2 then (32 : UInt16) else 0) = if cfg.pfs then 32 else 0 := by
    by_cases hp : cfg.pfs
    · rw [if_pos ((suite_eq_two_iff cfg).mpr hp), if_pos hp]
    · rw [if_neg (fun h => hp ((suite_eq_two_iff cfg).mp h)), if_neg hp]
  have hsize : (if cfg.pfs then (32 : UInt16) else 0).toNat = if cfg.pfs then 32 else 0 := by
    split <;> rfl
  simp only [Packet.handshakeRules, Bool.and_eq_true, beq_iff_eq, bne_iff_ne, decide_eq_true_eq,
    hsuite, hdh, hpfs, hlen, hsize]
  exact ⟨⟨⟨⟨⟨⟨⟨hsequence, hid⟩, hoffset⟩, hlength⟩, by omega⟩, suite_le cfg⟩, trivial⟩, trivial⟩

theorem handshakePacket_wellFormed {p : Packet} {type : PacketType} {exchange : UInt64}
    (front : Bytes) (secret : Block 32) (hid : exchange ≠ 0)
    (hp : p = { controlPacket cfg type exchange with payload := front ++ suiteFields P cfg secret })
    (htype : type = .init ∧ front.length = 40 ∨ type = .response ∧ front.length = 64) :
    (handshakeCodec P cfg).WellFormed p := by
  have hlen : p.payload.length ≤ 100 := by
    rw [hp, length_append, length_suiteFields]
    split <;> omega
  have hlimit : 100 ≤ p.type.limit := by
    obtain ⟨rfl, -⟩ | ⟨rfl, -⟩ := htype <;> subst hp <;> exact show 100 ≤ maxIpPacketSize by decide
  refine { tunnelId := ?_, version := ?_, offset_le := ?_, length_le := ?_, clear := fun _ => rfl
           payload_le := hlen.trans hlimit, acceptable := ?_, whole := ?_, plain := ?_ }
  · rw [hp]; rfl
  · rw [hp]; rfl
  · rw [hp]; exact Nat.zero_le _
  · rw [hp]; exact Nat.zero_le _
  · obtain ⟨rfl, hn⟩ | ⟨rfl, hn⟩ := htype <;> subst hp <;>
    exact handshakeRules_suiteFields P cfg front secret (by omega) rfl rfl hid rfl rfl
  · intro hc
    obtain ⟨rfl, -⟩ | ⟨rfl, -⟩ := htype <;> subst hp <;> cases hc
  · intro _ h9
    obtain ⟨rfl, -⟩ | ⟨rfl, -⟩ := htype <;> subst hp <;> cases h9

theorem initPacket_wellFormed {id : UInt64} (hid : id ≠ 0) (nonce : Nonce) (wall : Int64)
    (secret : Block 32) :
    (handshakeCodec P cfg).WellFormed (initPacket P cfg id nonce wall secret) :=
  handshakePacket_wellFormed P cfg
    (nonce.toList ++ storeBe64 (UInt64.ofNat wall.toInt.toNat)) secret hid
    (by rw [initPacket, append_assoc])
    (.inl ⟨rfl, by rw [length_append, Vector.length_toList, length_storeBe64]⟩)

theorem responsePacket_wellFormed {exchange : UInt64} (hid : exchange ≠ 0) (init : Bytes)
    (random secret : Block 32) :
    (handshakeCodec P cfg).WellFormed (responsePacket P cfg init exchange random secret) :=
  handshakePacket_wellFormed P cfg
    (commitment P cfg.master cfg.id init ++ random.toList) secret hid
    (by rw [responsePacket, append_assoc])
    (.inr ⟨rfl, by simp [commitment]⟩)

theorem layout_injective {c : Codec} {p q : Packet} (hp : c.WellFormed p) (hq : c.WellFormed q)
    (h : c.layout P p = c.layout P q) : p = q := by
  have hdp := Codec.decode_layout P hp.peer
  have hdq := Codec.decode_layout P hq.peer
  rw [Codec.peer_peer] at hdp hdq
  rw [h, hdq] at hdp
  exact (Option.some.inj hdp).symm

end Handshake

def DistinctInits (log : List SessionEvent) : Prop :=
  ((derivations log).map Session.init).Nodup

section Client
variable {P : Primitives} {cfg : SessionConfig}

/-! ### The client -/

structure ClientInv (P : Primitives) (cfg : SessionConfig) (log : List SessionEvent)
    (c : SessionCore) : Prop where
  wellFormed : ∀ p ∈ handshakes log, (handshakeCodec P cfg).WellFormed p ∧ p.type = .init
  current : c.clientInit ≠ [] → ∃ p ∈ handshakes log,
    c.clientInit = (handshakeCodec P cfg).layout P p ∧ c.clientExchange = p.messageId
  derived : ∀ d ∈ derivations log, ∃ p ∈ handshakes log,
    d.init = (handshakeCodec P cfg).layout P p ∧ d.exchange = p.messageId
  unused : c.clientInit ≠ [] → c.waitingAck = false → ∀ d ∈ derivations log, d.init ≠ c.clientInit
  distinct : DistinctInits log

theorem ClientInv.frame {log log' : List SessionEvent} {c c' : SessionCore}
    (h : ClientInv P cfg log c) (hinit : c'.clientInit = c.clientInit)
    (hexchange : c'.clientExchange = c.clientExchange) (hwaiting : c'.waitingAck = c.waitingAck)
    (hhandshakes : handshakes log' = handshakes log)
    (hderivations : derivations log' = derivations log) : ClientInv P cfg log' c' := by
  obtain ⟨h1, h2, h3, h4, h5⟩ := h
  simp only [DistinctInits] at h5
  constructor
  · rwa [hhandshakes]
  · rwa [hinit, hexchange, hhandshakes]
  · rwa [hderivations, hhandshakes]
  · rwa [hinit, hwaiting, hderivations]
  · rwa [DistinctInits, hderivations]

theorem clientInv_effect (hclient : cfg.server = false) {input : Option Bytes}
    {log : List SessionEvent} {c c' : SessionCore} {events : List SessionEvent}
    (hfresh : (handshakes (events ++ log)).Nodup) (h : ClientInv P cfg log c)
    (e : Effect P cfg input c c' events) : ClientInv P cfg (events ++ log) c' := by
  cases e with
  | begin id nonce wall secret packet encoded _ hid hpacket hencoded =>
    have hwf : (handshakeCodec P cfg).WellFormed packet :=
      hpacket ▸ initPacket_wellFormed P cfg hid nonce wall secret
    have hnew : packet ∉ handshakes log := (nodup_cons.mp hfresh).1
    refine { wellFormed := ?_, current := ?_, derived := ?_, unused := ?_, distinct := h.distinct }
    · intro p hp
      rcases mem_cons.mp hp with rfl | hp
      · exact ⟨hwf, by rw [hpacket]; rfl⟩
      · exact h.wellFormed p hp
    · intro _
      exact ⟨packet, mem_cons_self, hencoded, by rw [hpacket]; rfl⟩
    · intro d hd
      obtain ⟨p, hp, hdp⟩ := h.derived d hd
      exact ⟨p, mem_cons_of_mem _ hp, hdp⟩
    · intro _ _ d hd heq
      obtain ⟨p, hp, hinit, -⟩ := h.derived d hd
      have : p = packet :=
        layout_injective P (h.wellFormed p hp).1 hwf (hinit.symm.trans (heq.trans hencoded))
      exact hnew (this ▸ hp)
  | propose wire packet dh now candidate _ _ _ _ hinit _ hwaiting hcandidate =>
    have hinit' : candidate.init = c.clientInit := by rw [hcandidate]; rfl
    have hexchange : candidate.exchange = c.clientExchange := by rw [hcandidate]; rfl
    refine { wellFormed := h.wellFormed, current := h.current, derived := ?_, unused := ?_
             distinct := ?_ }
    · intro d hd
      rcases mem_cons.mp hd with rfl | hd
      · obtain ⟨p, hp, hpi, hpe⟩ := h.current hinit
        exact ⟨p, hp, hinit'.trans hpi, hexchange.trans hpe⟩
      · exact h.derived d hd
    · intro _ hfalse
      cases hfalse
    · refine nodup_cons.mpr ⟨fun hmem => ?_, h.distinct⟩
      obtain ⟨d, hd, heq⟩ := mem_map.mp hmem
      exact h.unused hinit hwaiting d hd (heq.trans hinit')
  | clear => exact ⟨h.wellFormed, fun hc => absurd rfl hc, h.derived, fun hc => absurd rfl hc,
      h.distinct⟩
  | abandon => exact ⟨h.wellFormed, fun hc => absurd rfl hc, h.derived, fun hc => absurd rfl hc,
      h.distinct⟩
  | acknowledged => exact ⟨h.wellFormed, fun hc => absurd rfl hc, h.derived,
      fun hc => absurd rfl hc, h.distinct⟩
  | respond wire packet random secret dh now response candidate _ hadmits =>
    have := hadmits.server
    rw [hclient] at this
    cases this
  | _ => exact h.frame rfl rfl rfl rfl rfl

theorem clientInv_start : ClientInv P cfg [] {} :=
  ⟨fun _ h => (not_mem_nil h).elim, fun h => absurd rfl h, fun _ h => (not_mem_nil h).elim,
    fun h => absurd rfl h, .nil⟩

end Client

section Server
variable {P : Primitives} {cfg : SessionConfig}

/-! ### The server -/

structure ServerInv (P : Primitives) (cfg : SessionConfig) (log : List SessionEvent)
    (c : SessionCore) : Prop where
  high_lt : c.wallHighWater < 2 ^ 63
  nodup : (c.nonceExpiry.map Prod.snd).Nodup
  seen : c.seenNonces = (c.nonceExpiry.map Prod.snd).toFinset
  card_le : c.seenNonces.card ≤ nonceCapacity
  /-- The nonce of an answered INIT is known until its timestamp is too old. -/
  remembered : ∀ d ∈ derivations log, ∃ p, (handshakeCodec P cfg).decode P d.init = some p ∧
    p.type = .init ∧ initStamp p + cfg.initWindow / 2 < 2 ^ 64 ∧
    (initStamp p + cfg.initWindow / 2 < c.wallHighWater ∨ expiryEntry cfg p ∈ c.nonceExpiry)
  pending : ∀ session, c.pending = some session → session ∈ derivations log
  distinct : DistinctInits log

variable {c : SessionCore} {log : List SessionEvent}

theorem ServerInv.frame {log' : List SessionEvent} {c' : SessionCore} (h : ServerInv P cfg log c)
    (hhigh : c'.wallHighWater = c.wallHighWater) (hseen : c'.seenNonces = c.seenNonces)
    (hexpiry : c'.nonceExpiry = c.nonceExpiry)
    (hpending : ∀ session, c'.pending = some session → c.pending = some session)
    (hderivations : derivations log' = derivations log) : ServerInv P cfg log' c' := by
  obtain ⟨h1, h2, h3, h4, h5, h6, h7⟩ := h
  simp only [DistinctInits] at h7
  constructor
  · rwa [hhigh]
  · rwa [hexpiry]
  · rwa [hseen, hexpiry]
  · rwa [hseen]
  · rwa [hderivations, hhigh, hexpiry]
  · rw [hderivations]
    exact fun session hs => h6 session (hpending session hs)
  · rwa [DistinctInits, hderivations]

/-- Dropping the expired entries keeps the two indexes equal. -/
theorem seen_purge {expiry : List (ℕ × Nonce)} (hnodup : (expiry.map Prod.snd).Nodup)
    (current : ℕ) :
    (expiry.takeWhile fun e => e.1 < current).foldl (fun seen e => seen.erase e.2)
        (expiry.map Prod.snd).toFinset =
      ((expiry.dropWhile fun e => e.1 < current).map Prod.snd).toFinset := by
  induction expiry with
  | nil => rfl
  | cons e expiry ih =>
    rw [map_cons, nodup_cons] at hnodup
    by_cases hcurrent : e.1 < current
    · have herase : ((e :: expiry).map Prod.snd).toFinset.erase e.2 =
          (expiry.map Prod.snd).toFinset := by
        rw [map_cons, toFinset_cons, Finset.erase_insert]
        simpa using hnodup.1
      simp only [takeWhile_cons, dropWhile_cons, hcurrent, decide_true, if_true,
        foldl_cons, herase]
      exact ih hnodup.2
    · simp [hcurrent]

theorem mem_emplaceExpiry {expiry : List (ℕ × Nonce)} {entry e : ℕ × Nonce} :
    e ∈ emplaceExpiry expiry entry ↔ e = entry ∨ e ∈ expiry := by
  rw [emplaceExpiry, mem_insertIdx]
  exact (List.takeWhile_prefix _).length_le

theorem emplaceExpiry_perm (expiry : List (ℕ × Nonce)) (entry : ℕ × Nonce) :
    (emplaceExpiry expiry entry).Perm (entry :: expiry) :=
  perm_insertIdx _ _ (List.takeWhile_prefix _).length_le

theorem serverInv_reserve {wire : Bytes} {packet : Packet} (h : ServerInv P cfg log c)
    (hadmits : AdmitsInit P cfg c wire packet) :
    ServerInv P cfg log (c.reserve (expiryEntry cfg packet)) := by
  have hperm := (emplaceExpiry_perm c.nonceExpiry (expiryEntry cfg packet)).map Prod.snd
  have hfresh : (expiryEntry cfg packet).2 ∉ c.seenNonces := hadmits.fresh
  refine { high_lt := h.high_lt, nodup := ?_, seen := ?_, card_le := ?_, remembered := ?_
           pending := h.pending, distinct := h.distinct }
  · refine hperm.nodup_iff.mpr (nodup_cons.mpr ⟨?_, h.nodup⟩)
    rw [h.seen, mem_toFinset] at hfresh
    exact hfresh
  · change insert _ c.seenNonces =
      ((emplaceExpiry c.nonceExpiry (expiryEntry cfg packet)).map Prod.snd).toFinset
    rw [toFinset_eq_of_perm _ _ hperm, map_cons, toFinset_cons, ← h.seen]
  · change (insert _ c.seenNonces).card ≤ _
    rw [Finset.card_insert_of_notMem hfresh]
    exact hadmits.capacity
  · intro d hd
    obtain ⟨p, hp, ht, hlt, hmem⟩ := h.remembered d hd
    exact ⟨p, hp, ht, hlt, hmem.imp_right fun hm => mem_emplaceExpiry.mpr (.inr hm)⟩

theorem le_stamp_of_timely {stamp high half : ℕ} (h : clockDistance stamp high ≤ half) :
    stamp ≤ high + half ∧ high ≤ stamp + half := by
  rw [clockDistance] at h
  split at h <;> omega

theorem expiryEntry_fst {packet : Packet} (h : initStamp packet + cfg.initWindow / 2 < 2 ^ 64) :
    (expiryEntry cfg packet).1 = initStamp packet + cfg.initWindow / 2 :=
  Nat.mod_eq_of_lt h

theorem admitted_ne_derived {wire : Bytes} {packet : Packet} (h : ServerInv P cfg log c)
    (hadmits : AdmitsInit P cfg c wire packet) {d : Session} (hd : d ∈ derivations log) :
    d.init ≠ wire := by
  rintro rfl
  obtain ⟨p, hp, -, -, hmem⟩ := h.remembered d hd
  have hpacket : p = packet := Option.some.inj (hp.symm.trans hadmits.decoded)
  subst hpacket
  rcases hmem with hold | hmem
  · have := (le_stamp_of_timely hadmits.timely).2
    omega
  apply hadmits.fresh
  rw [h.seen, mem_toFinset]
  exact mem_map.mpr ⟨expiryEntry cfg p, hmem, rfl⟩

theorem serverInv_effect (hserver : cfg.server = true) {input : Option Bytes} {c' : SessionCore}
    {events : List SessionEvent} (h : ServerInv P cfg log c) (e : Effect P cfg input c c' events) :
    ServerInv P cfg (events ++ log) c' := by
  cases e with
  | advance wall =>
    refine ⟨?_, h.nodup, h.seen, h.card_le, ?_, h.pending, h.distinct⟩
    · have hhigh := h.high_lt
      have hwall : wall.toInt < 2 ^ 63 := Int64.toInt_lt wall
      change max c.wallHighWater wall.toInt.toNat < _
      omega
    · intro d hd
      obtain ⟨p, hp, ht, hlt, hmem⟩ := h.remembered d hd
      exact ⟨p, hp, ht, hlt, hmem.imp_left fun hold => lt_of_lt_of_le hold (le_max_left _ _)⟩
  | purge =>
    have hsuffix : (c.purge c.wallHighWater).nonceExpiry <:+ c.nonceExpiry := dropWhile_suffix _
    have hseen : (c.purge c.wallHighWater).seenNonces =
        ((c.purge c.wallHighWater).nonceExpiry.map Prod.snd).toFinset := by
      have := seen_purge h.nodup c.wallHighWater
      rw [← h.seen] at this
      exact this
    refine ⟨h.high_lt, ?_, hseen, ?_, ?_, h.pending, h.distinct⟩
    · exact h.nodup.sublist (hsuffix.sublist.map _)
    · refine le_trans (Finset.card_le_card ?_) h.card_le
      rw [hseen, h.seen]
      intro nonce
      simp only [mem_toFinset, mem_map]
      rintro ⟨e, he, hne⟩
      exact ⟨e, hsuffix.mem he, hne⟩
    · intro d hd
      obtain ⟨p, hp, ht, hlt, hmem⟩ := h.remembered d hd
      refine ⟨p, hp, ht, hlt, ?_⟩
      rcases hmem with hold | hmem
      · exact .inl hold
      -- an entry leaves the index only when its timestamp has become too old
      · by_cases hkey : (expiryEntry cfg p).1 < c.wallHighWater
        · rw [expiryEntry_fst hlt] at hkey
          exact .inl hkey
        · right
          have := takeWhile_append_dropWhile (p := fun e : ℕ × Nonce => e.1 < c.wallHighWater)
            (l := c.nonceExpiry)
          rw [← this, mem_append] at hmem
          exact hmem.resolve_left fun ht => hkey (by simpa using mem_takeWhile_imp ht)
  | reserve wire packet _ hadmits => exact serverInv_reserve h hadmits
  | respond wire packet random secret dh now response candidate _ hadmits _ _ hcandidate =>
    have hreserve := serverInv_reserve h hadmits
    have hinit : candidate.init = wire := by rw [hcandidate]; rfl
    refine ⟨hreserve.high_lt, hreserve.nodup, hreserve.seen, hreserve.card_le, ?_, ?_, ?_⟩
    · intro d hd
      rcases mem_cons.mp hd with rfl | hd
      · refine ⟨packet, hinit ▸ hadmits.decoded, hadmits.type, ?_, .inr (mem_emplaceExpiry.mpr (.inl rfl))⟩
        have hstamp := (le_stamp_of_timely hadmits.timely).1
        have hhigh := h.high_lt
        have hwindow := cfg.window_valid
        omega
      · exact hreserve.remembered d hd
    · intro session hs
      cases hs
      exact mem_cons_self
    · refine nodup_cons.mpr ⟨fun hmem => ?_, h.distinct⟩
      obtain ⟨d, hd, heq⟩ := mem_map.mp hmem
      exact admitted_ne_derived h hadmits hd (heq.trans hinit)
  | propose wire packet dh now candidate _ hclient =>
    rw [hserver] at hclient
    cases hclient
  | expirePending | begin | clear | promote => exact h.frame rfl rfl rfl (fun _ => by simp) rfl
  | _ => exact h.frame rfl rfl rfl (fun _ => id) rfl

theorem serverInv_start : ServerInv P cfg [] {} :=
  ⟨by decide, .nil, rfl, Nat.zero_le _, fun _ h => (not_mem_nil h).elim, fun _ => by simp, .nil⟩

end Server

/-! ### Both roles -/

variable {cfg : SessionConfig} {past : List (SessionOp × Report)}

theorem serverInv_trace {P : Primitives} (hserver : cfg.server) {s : Endpoint}
    (h : SessionTrace P cfg past s) : ServerInv P cfg (eventLog past) s.core :=
  sessionTrace_invariant (ServerInv P cfg) serverInv_start
    (fun _ _ _ _ _ hinv e => serverInv_effect hserver hinv e) h

def FreshInits (cfg : SessionConfig) (log : List SessionEvent) : Prop :=
  cfg.server = false → (handshakes log).Nodup

theorem FreshInits.of_append {events log : List SessionEvent} (h : FreshInits cfg (events ++ log)) :
    FreshInits cfg log := by
  intro hclient
  have := h hclient
  rw [handshakes, filterMap_append] at this
  exact this.of_append_right

theorem clientInv_trace {P : Primitives} (hclient : cfg.server = false) {s : Endpoint}
    (h : SessionTrace P cfg past s) (hfresh : FreshInits cfg (eventLog past)) :
    ClientInv P cfg (eventLog past) s.core := by
  refine sessionTrace_invariant (fun log c => FreshInits cfg log → ClientInv P cfg log c)
    (fun _ => clientInv_start) ?_ h hfresh
  intro input log c c' events hinv e hfresh
  exact clientInv_effect hclient (hfresh hclient) (hinv hfresh.of_append) e

theorem distinctInits_trace {P : Primitives} {s : Endpoint} (h : SessionTrace P cfg past s)
    (hfresh : FreshInits cfg (eventLog past)) : DistinctInits (eventLog past) := by
  cases hserver : cfg.server with
  | true => exact (serverInv_trace hserver h).distinct
  | false => exact (clientInv_trace hserver h hfresh).distinct

end Tuntom
