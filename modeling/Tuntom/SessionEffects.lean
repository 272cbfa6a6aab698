import Tuntom.ProtocolRoundtrip
import Tuntom.SessionModel

/-! What the calls of `SessionProtocol` can do to its sessions, transcripts and
nonce indexes, apart from timers and statistics. Every call is a sequence of the
effects listed here, so an invariant of all runs is checked effect by effect. -/
namespace Tuntom

structure SessionCore where
  active : Option Session := none
  previous : Option Session := none
  pending : Option Session := none
  waitingAck : Bool := false
  clientExchange : UInt64 := 0
  clientInit : Bytes := []
  flight : Bytes := []
  clientSecret : Block 32 := Vector.replicate 32 0
  seenNonces : Finset Nonce := ∅
  nonceExpiry : List (ℕ × Nonce) := []
  wallHighWater : ℕ := 0

def Endpoint.core (s : Endpoint) : SessionCore where
  active := s.active
  previous := s.previous
  pending := s.pending
  waitingAck := s.waitingAck
  clientExchange := s.clientExchange
  clientInit := s.clientInit
  flight := s.flight
  clientSecret := s.clientSecret
  seenNonces := s.seenNonces
  nonceExpiry := s.nonceExpiry
  wallHighWater := s.wallHighWater

namespace SessionCore

def slot (c : SessionCore) : Slot → Option Session
  | .active => c.active
  | .pending => c.pending
  | .previous => c.previous

/-- The two nonce indexes after the entries below `current` are gone. -/
def purge (c : SessionCore) (current : ℕ) : SessionCore :=
  { c with
    seenNonces := (c.nonceExpiry.takeWhile fun e => e.1 < current).foldl
      (fun seen e => seen.erase e.2) c.seenNonces
    nonceExpiry := c.nonceExpiry.dropWhile fun e => e.1 < current }

def reserve (c : SessionCore) (entry : ℕ × Nonce) : SessionCore :=
  { c with seenNonces := insert entry.2 c.seenNonces
           nonceExpiry := emplaceExpiry c.nonceExpiry entry }

end SessionCore

structure AdmitsInit (P : Primitives) (cfg : SessionConfig) (c : SessionCore) (wire : Bytes)
    (packet : Packet) : Prop where
  server : cfg.server
  decoded : (handshakeCodec P cfg).decode P wire = some packet
  type : packet.type = .init
  timely : clockDistance (initStamp packet) c.wallHighWater ≤ cfg.initWindow / 2
  fresh : initNonce packet ∉ c.seenNonces
  capacity : c.seenNonces.card < nonceCapacity

/-- One indivisible change; `input` is the datagram of a `receive` call. -/
inductive Effect (P : Primitives) (cfg : SessionConfig) (input : Option Bytes) :
    SessionCore → SessionCore → List SessionEvent → Prop
  | expirePrevious (c) : Effect P cfg input c { c with previous := none } []
  | expirePending (c) : Effect P cfg input c { c with pending := none } []
  | begin (c id nonce wall secret packet encoded) (hclient : cfg.server = false) (hid : id ≠ 0)
      (hpacket : packet = initPacket P cfg id nonce wall secret)
      (hencoded : encoded = (handshakeCodec P cfg).layout P packet) :
      Effect P cfg input c
        { c with previous := none, pending := none, waitingAck := false, clientSecret := secret,
                 clientInit := encoded, clientExchange := id, flight := encoded }
        [.handshake packet]
  | clear (c) (hclient : cfg.server = false) :
      Effect P cfg input c
        { c with active := none, previous := none, pending := none, waitingAck := false,
                 flight := [], clientInit := [], clientSecret := Vector.replicate 32 0 } []
  | abandon (c) (hclient : cfg.server = false) :
      Effect P cfg input c
        { c with active := if c.waitingAck then c.previous else c.active,
                 previous := if c.waitingAck then none else c.previous,
                 waitingAck := false, flight := [], clientInit := [],
                 clientSecret := Vector.replicate 32 0 } []
  | spend (c session) (hactive : c.active = some session)
      (hlimit : session.nextCounter ≤ cfg.counterLimit) :
      Effect P cfg input c
        { c with active := some { session with nextCounter := session.nextCounter + 1 } } []
  | encode (c session packet) (hactive : c.active = some session)
      (hlimit : session.nextCounter ≤ cfg.counterLimit)
      (hsequence : packet.sequence = sequenceOf session.hint session.nextCounter) :
      Effect P cfg input c
        { c with active := some { session with nextCounter := session.nextCounter + 1 } }
        [.encoded session.codec packet]
  | advance (c) (wall : Int64) :
      Effect P cfg input c { c with wallHighWater := max c.wallHighWater wall.toInt.toNat } []
  | purge (c) : Effect P cfg input c (c.purge c.wallHighWater) []
  | reserve (c wire packet) (hinput : input = some wire) (hadmits : AdmitsInit P cfg c wire packet) :
      Effect P cfg input c (c.reserve (expiryEntry cfg packet)) []
  | respond (c wire packet random secret dh now response candidate) (hinput : input = some wire)
      (hadmits : AdmitsInit P cfg c wire packet) (hpending : c.pending = none)
      (hresponse : response = responsePacket P cfg wire packet.messageId random secret)
      (hcandidate : candidate = derive P cfg wire ((handshakeCodec P cfg).layout P response)
        packet.messageId dh now) :
      Effect P cfg input c
        { c.reserve (expiryEntry cfg packet) with previous := none, pending := some candidate }
        [.handshake response, .derived candidate]
  | propose (c wire packet dh now candidate) (hinput : input = some wire)
      (hclient : cfg.server = false)
      (hdecoded : (handshakeCodec P cfg).decode P wire = some packet)
      (htype : packet.type = .response) (hinit : c.clientInit ≠ [])
      (hexchange : packet.messageId = c.clientExchange) (hwaiting : c.waitingAck = false)
      (hcandidate : candidate = derive P cfg c.clientInit wire c.clientExchange dh now) :
      Effect P cfg input c
        { c with clientSecret := Vector.replicate 32 0, previous := c.active, waitingAck := true,
                 active := some candidate, flight := confirmation P cfg candidate .confirm }
        [.encoded candidate.codec (confirmationPacket cfg candidate .confirm), .derived candidate]
  | promote (c wire packet session) (hinput : input = some wire) (hserver : cfg.server)
      (hpending : c.pending = some session) (hhint : session.hint = (loadBe64 wire 1 >>> 48).toUInt16)
      (hdecoded : session.codec.decode P wire = some packet) (htype : packet.type = .confirm)
      (hexchange : packet.messageId = session.exchange) :
      Effect P cfg input c
        { c with previous := c.active, active := some session, pending := none }
        [.promoted session, .encoded session.codec (confirmationPacket cfg session .confirmAck)]
  | acknowledgeAgain (c session) (hserver : cfg.server) (hactive : c.active = some session) :
      Effect P cfg input c c
        [.encoded session.codec (confirmationPacket cfg session .confirmAck)]
  | acknowledged (c wire packet session) (hinput : input = some wire)
      (hclient : cfg.server = false) (hactive : c.active = some session)
      (hhint : session.hint = (loadBe64 wire 1 >>> 48).toUInt16)
      (hdecoded : session.codec.decode P wire = some packet) (htype : packet.type = .confirmAck)
      (hexchange : packet.messageId = session.exchange) (hwaiting : c.waitingAck) :
      Effect P cfg input c { c with waitingAck := false, flight := [], clientInit := [] }
        [.acknowledged session]
  | replayActive (c session window) (hactive : c.active = some session) :
      Effect P cfg input c { c with active := some { session with replay := window } } []
  | replayPrevious (c session window) (hprevious : c.previous = some session) :
      Effect P cfg input c { c with previous := some { session with replay := window } } []

inductive Effects (P : Primitives) (cfg : SessionConfig) (input : Option Bytes) (c : SessionCore) :
    SessionCore → List SessionEvent → Prop
  | refl : Effects P cfg input c c []
  | tail {c' c'' events events'} (h : Effects P cfg input c c' events)
      (e : Effect P cfg input c' c'' events') : Effects P cfg input c c'' (events' ++ events)

section Refinement
variable {P : Primitives} {cfg : SessionConfig} {input : Option Bytes}

namespace Effects
variable {c c' c'' : SessionCore} {events events' : List SessionEvent}

theorem single (e : Effect P cfg input c c' events) : Effects P cfg input c c' events := by
  simpa using Effects.refl.tail e

theorem trans (h : Effects P cfg input c c' events) (h' : Effects P cfg input c' c'' events') :
    Effects P cfg input c c'' (events' ++ events) := by
  induction h' with
  | refl => exact h
  | tail _ e ih =>
    rw [List.append_assoc]
    exact ih.tail e

theorem after (h : Effects P cfg input c c' []) (h' : Effects P cfg input c' c'' events) :
    Effects P cfg input c c'' events := by
  simpa using h.trans h'

theorem of_core_eq (h : c' = c) : Effects P cfg input c c' [] := h ▸ .refl

theorem preserves (I : List SessionEvent → SessionCore → Prop)
    (hI : ∀ log c c' events, I log c → Effect P cfg input c c' events → I (events ++ log) c')
    (h : Effects P cfg input c c' events) {log : List SessionEvent} (hc : I log c) :
    I (events ++ log) c' := by
  induction h with
  | refl => exact hc
  | tail _ e ih =>
    rw [List.append_assoc]
    exact hI _ _ _ _ ih e

end Effects

/-! ### Bookkeeping leaves the core alone -/

variable (s : Endpoint) (now : Time)

@[simp] theorem core_started : s.started.core = s.core := rfl
@[simp] theorem core_completed : (s.completed now).core = s.core := rfl
@[simp] theorem core_retried : s.retried.core = s.core := rfl
@[simp] theorem core_timedOut : s.timedOut.core = s.core := rfl
@[simp] theorem core_dhRejected : s.dhRejected.core = s.core := rfl
@[simp] theorem core_suiteMismatched : s.suiteMismatched.core = s.core := rfl
@[simp] theorem core_randomFailed : (s.randomFailed now).core = s.core := rfl

/-! ### Expiry of slots -/

theorem expire_effects :
    Effects P cfg input s.core ((s.expirePrevious now).expirePending now).core [] := by
  have hprevious : Effects P cfg input s.core (s.expirePrevious now).core [] := by
    rw [Endpoint.expirePrevious]
    split
    · exact .single (.expirePrevious s.core)
    · exact .refl
  have hpending : Effects P cfg input (s.expirePrevious now).core
      ((s.expirePrevious now).expirePending now).core [] := by
    rw [Endpoint.expirePending]
    split
    · exact .single (.expirePending (s.expirePrevious now).core)
    · exact .refl
  exact hprevious.trans hpending

theorem expire_responseResendAfter :
    ((s.expirePrevious now).expirePending now).responseResendAfter = s.responseResendAfter := by
  simp only [Endpoint.expirePending, Endpoint.expirePrevious]
  split <;> split <;> rfl

theorem expirePrevious_pending : (s.expirePrevious now).pending = s.pending := by
  rw [Endpoint.expirePrevious]
  split <;> rfl

theorem expirePrevious_pendingUntil : (s.expirePrevious now).pendingUntil = s.pendingUntil := by
  rw [Endpoint.expirePrevious]
  split <;> rfl

theorem expire_pending :
    ((s.expirePrevious now).expirePending now).pending = s.pending ∨
      ((s.expirePrevious now).expirePending now).pending = none ∧ s.pendingUntil ≤ now := by
  rw [Endpoint.expirePending]
  split
  · next h =>
    right
    rw [expirePrevious_pendingUntil] at h
    exact ⟨rfl, h.2⟩
  · exact .inl (expirePrevious_pending s now)

variable {session : Session} {packet : Packet} {wire : Bytes} {slot : Slot}

theorem expire_pending_some {s : Endpoint} {now : Time}
    (h : ((s.expirePrevious now).expirePending now).pending = some session) :
    s.pending = some session := by
  rcases expire_pending s now with hkept | ⟨hnone, -⟩
  · exact hkept ▸ h
  · rw [hnone] at h
    cases h

theorem expire_before_deadline (h : now < s.pendingUntil) :
    (s.expirePrevious now).expirePending now = s.expirePrevious now := by
  rw [Endpoint.expirePending, if_neg]
  rintro ⟨-, hge⟩
  rw [expirePrevious_pendingUntil] at hge
  exact absurd h (not_lt.mpr hge)

theorem expire_waitingAck :
    ((s.expirePrevious now).expirePending now).waitingAck = s.waitingAck := by
  simp only [Endpoint.expirePending, Endpoint.expirePrevious]
  split <;> split <;> rfl

/-! ### The calls of a client -/

theorem sessionBegin_effects (wall : Int64) (random : Random) :
    Effects P cfg input s.core (sessionBegin P cfg s now wall random).state.core
      (sessionBegin P cfg s now wall random).events := by
  rw [sessionBegin]
  split
  · exact .refl
  next hclient =>
  rw [Bool.not_eq_true] at hclient
  dsimp only
  split
  · exact .refl
  split
  · exact .refl
  next hid =>
  split
  · next nonce secret _ _ =>
    exact .single (.begin s.core _ nonce wall secret _ _ hclient hid rfl rfl)
  · exact .refl

theorem sessionRestart_effects (wall : Int64) (random : Random) :
    Effects P cfg input s.core (sessionRestart P cfg s now wall random).state.core
      (sessionRestart P cfg s now wall random).events := by
  rw [sessionRestart]
  split
  · exact .refl
  next hclient =>
  rw [Bool.not_eq_true] at hclient
  have hclear : Effects P cfg input s.core (clearSessions s).core [] :=
    .single (.clear s.core hclient)
  exact hclear.after (sessionBegin_effects _ now wall random)

theorem abandonFlight_core :
    (abandonFlight s).core =
      { s.core with active := if s.core.waitingAck then s.core.previous else s.core.active,
                    previous := if s.core.waitingAck then none else s.core.previous,
                    waitingAck := false, flight := [], clientInit := [],
                    clientSecret := Vector.replicate 32 0 } := by
  cases hw : s.waitingAck <;> simp [abandonFlight, Endpoint.core, Endpoint.timedOut, hw]

theorem sessionTick_effects (wall : Int64) (random : Random) :
    Effects P cfg input s.core (sessionTick P cfg s now wall random).state.core
      (sessionTick P cfg s now wall random).events := by
  refine (expire_effects s now).after ?_
  rw [sessionTick]
  generalize (s.expirePrevious now).expirePending now = s
  dsimp only
  split
  · exact .refl
  next hclient =>
  rw [Bool.not_eq_true] at hclient
  split
  · split
    · have habandon : Effects P cfg input s.core (abandonFlight s).core [] := by
        rw [abandonFlight_core]
        exact .single (.abandon s.core hclient)
      exact habandon.after (sessionBegin_effects _ now wall random)
    · split <;> exact .refl
  split
  · exact sessionBegin_effects s now wall random
  · exact .refl

theorem sessionEncode_effects (packet : Packet) :
    Effects P cfg input s.core (sessionEncode P cfg s packet).state.core
      (sessionEncode P cfg s packet).events := by
  rw [sessionEncode]
  split
  · exact .refl
  next session hactive =>
  split
  · next hlimit =>
    dsimp only
    split
    · exact .single (.spend s.core session hactive hlimit)
    · exact .single (.encode s.core session _ hactive hlimit rfl)
  · exact .refl

/-! ### Receiving -/

theorem release_reserve {entry : ℕ × Nonce} (hfresh : entry.2 ∉ s.seenNonces) :
    (releaseNonce ((reserveNonce s entry).randomFailed now) entry.2
      (expiryPosition s.nonceExpiry entry.1)).core = s.core := by
  simp [releaseNonce, reserveNonce, Endpoint.randomFailed, Endpoint.core, emplaceExpiry, hfresh,
    List.eraseIdx_insertIdx_self]

theorem repeatedInit_effects (wire : Bytes) (result : Received) :
    Effects P cfg input s.core (repeatedInit s wire now result).state.core
      (repeatedInit s wire now result).events := by
  rw [repeatedInit]
  split
  · split
    · split <;> exact .refl
    · exact .refl
  · exact .refl

theorem respond_effects (random : Random) (result : Received)
    (hadmits : AdmitsInit P cfg s.core wire packet) (hpending : s.pending = none) :
    Effects P cfg (some wire) s.core
      (respond P cfg (reserveNonce s (expiryEntry cfg packet))
        (expiryPosition s.nonceExpiry (expiryEntry cfg packet).1) wire packet now random
        result).state.core
      (respond P cfg (reserveNonce s (expiryEntry cfg packet))
        (expiryPosition s.nonceExpiry (expiryEntry cfg packet).1) wire packet now random
        result).events := by
  rw [respond]
  split
  · next nonce secret _ _ =>
    split
    · exact .single (.reserve s.core wire packet rfl hadmits)
    · next dh _ =>
      exact .single (.respond s.core wire packet nonce secret dh now _ _ rfl hadmits hpending rfl rfl)
  · exact .of_core_eq (release_reserve s now hadmits.fresh)

theorem receiveInit_effects (wall : Int64) (random : Random) (hserver : cfg.server)
    (hdecoded : (handshakeCodec P cfg).decode P wire = some packet) (htype : packet.type = .init) :
    Effects P cfg (some wire) s.core (receiveInit P cfg s wire packet now wall random).state.core
      (receiveInit P cfg s wire packet now wall random).events := by
  have hadvance : Effects P cfg (some wire) s.core
      { s with wallHighWater := max s.wallHighWater wall.toInt.toNat : Endpoint }.core [] :=
    .single (.advance s.core wall)
  refine hadvance.after ?_
  rw [receiveInit]
  generalize hs : ({ s with wallHighWater := max s.wallHighWater wall.toInt.toNat } : Endpoint) = s₁
  rw [show max s.wallHighWater wall.toInt.toNat = s₁.wallHighWater from hs ▸ rfl]
  dsimp only
  split
  · exact .refl
  next htimely =>
  have hpurge : Effects P cfg (some wire) s₁.core (purgeNonces s₁ s₁.wallHighWater).core [] :=
    .single (.purge s₁.core)
  have hhigh : (purgeNonces s₁ s₁.wallHighWater).wallHighWater = s₁.wallHighWater := rfl
  refine hpurge.after ?_
  generalize purgeNonces s₁ s₁.wallHighWater = s₂ at hhigh ⊢
  split
  · exact repeatedInit_effects s₂ now wire _
  next hfresh =>
  split
  · exact .refl
  next hcapacity =>
  split
  · exact .refl
  have hadmits : AdmitsInit P cfg s₂.core wire packet :=
    { server := hserver, decoded := hdecoded, type := htype, fresh := hfresh,
      timely := by
        change clockDistance (initStamp packet) s₂.wallHighWater ≤ _
        rw [hhigh]
        omega,
      capacity := by
        change s₂.seenNonces.card < _
        omega }
  split
  · exact .single (.reserve s₂.core wire packet rfl hadmits)
  next hpending =>
  exact respond_effects s₂ now random _ hadmits (by simpa [reserveNonce] using hpending)

theorem receiveResponse_effects (hclient : cfg.server = false)
    (hdecoded : (handshakeCodec P cfg).decode P wire = some packet)
    (htype : packet.type = .response) :
    Effects P cfg (some wire) s.core (receiveResponse P cfg s wire packet now).state.core
      (receiveResponse P cfg s wire packet now).events := by
  rw [receiveResponse]
  split
  · exact .refl
  next hopen =>
  push Not at hopen
  split
  · exact .refl
  split
  · split <;> exact .refl
  next hwaiting =>
  rw [Bool.not_eq_true] at hwaiting
  split
  · exact .refl
  next dh _ =>
  exact .single (.propose s.core wire packet dh now _ rfl hclient hdecoded htype hopen.1 hopen.2
    hwaiting rfl)

theorem matchSession_cases {s : Endpoint}
    (h : matchSession P s wire = some (slot, session, packet)) :
    s.slot slot = some session ∧ session.hint = (loadBe64 wire 1 >>> 48).toUInt16 ∧
      session.codec.decode P wire = some packet := by
  obtain ⟨slot', -, hslot⟩ := List.exists_of_findSome?_eq_some h
  split at hslot
  · cases hslot
  next session' hs =>
  split_ifs at hslot with hhint
  obtain ⟨packet', hdecoded, heq⟩ := Option.map_eq_some_iff.mp hslot
  cases heq
  exact ⟨hs, hhint, hdecoded⟩

theorem receiveConfirm_effects (hslot : s.slot slot = some session)
    (hhint : session.hint = (loadBe64 wire 1 >>> 48).toUInt16)
    (hdecoded : session.codec.decode P wire = some packet) (htype : packet.type = .confirm) :
    Effects P cfg (some wire) s.core (receiveConfirm P cfg s slot session packet now).state.core
      (receiveConfirm P cfg s slot session packet now).events := by
  rw [receiveConfirm]
  split
  · exact .refl
  next hguard =>
  push Not at hguard
  cases slot with
  | active => exact .single (.acknowledgeAgain s.core session hguard.1 hslot)
  | pending =>
    exact .single (.promote s.core wire packet session rfl hguard.1 hslot hhint hdecoded htype
      hguard.2)
  | previous => exact .refl

theorem receiveConfirmAck_effects (hslot : s.slot slot = some session)
    (hhint : session.hint = (loadBe64 wire 1 >>> 48).toUInt16)
    (hdecoded : session.codec.decode P wire = some packet) (htype : packet.type = .confirmAck) :
    Effects P cfg (some wire) s.core (receiveConfirmAck cfg s slot session packet now).state.core
      (receiveConfirmAck cfg s slot session packet now).events := by
  rw [receiveConfirmAck]
  split
  · exact .refl
  next hguard =>
  push Not at hguard
  obtain ⟨hclient, rfl, hexchange⟩ := hguard
  split
  · exact .refl
  next hwaiting =>
  rw [not_not] at hwaiting
  exact .single (.acknowledged s.core wire packet session rfl (by simpa using hclient) hslot hhint
    hdecoded htype hexchange hwaiting)

theorem receiveData_effects (packet : Packet) (hslot : s.slot slot = some session) :
    Effects P cfg input s.core (receiveData cfg s slot session packet now).state.core
      (receiveData cfg s slot session packet now).events := by
  cases slot with
  | active =>
    simp only [receiveData]
    split
    · exact .single (.replayActive s.core session _ hslot)
    · exact .refl
  | pending => exact .refl
  | previous =>
    simp only [receiveData]
    split
    · exact .refl
    split
    · exact .single (.replayPrevious s.core session _ hslot)
    · exact .refl

theorem receiveSession_effects {type : PacketType}
    (htype : PacketType.ofByte (wire.headD 0 &&& 0x1f) = some type) :
    Effects P cfg (some wire) s.core (receiveSession P cfg s type wire now).state.core
      (receiveSession P cfg s type wire now).events := by
  rw [receiveSession]
  split
  · exact .refl
  next slot session packet hmatch =>
  obtain ⟨hslot, hhint, hdecoded⟩ := matchSession_cases hmatch
  have htype' : packet.type = type := by
    have := Codec.type_of_decode hdecoded
    rw [htype] at this
    exact (Option.some.inj this).symm
  split
  · exact receiveConfirm_effects s now hslot hhint hdecoded htype'
  · exact receiveConfirmAck_effects s now hslot hhint hdecoded htype'
  · exact receiveData_effects s now packet hslot

theorem receiveHandshake_effects {type : PacketType} (wall : Int64) (random : Random)
    (htype : PacketType.ofByte (wire.headD 0 &&& 0x1f) = some type) :
    Effects P cfg (some wire) s.core
      (receiveHandshake P cfg s type wire now wall random).state.core
      (receiveHandshake P cfg s type wire now wall random).events := by
  have hdecode : ∀ packet, (handshakeCodec P cfg).decode P wire = some packet →
      packet.type = type := by
    intro packet hdecoded
    have := Codec.type_of_decode hdecoded
    rw [htype] at this
    exact (Option.some.inj this).symm
  cases hserver : cfg.server with
  | true =>
    simp only [receiveHandshake, hserver, if_true]
    split
    · exact .refl
    next hinit =>
    rw [ne_eq, not_not] at hinit
    split
    · exact .refl
    next packet hdecoded =>
    split
    · exact .refl
    exact receiveInit_effects s now wall random hserver hdecoded ((hdecode _ hdecoded).trans hinit)
  | false =>
    simp only [receiveHandshake, hserver, Bool.false_eq_true, if_false]
    split
    · exact .refl
    next hresponse =>
    rw [ne_eq, not_not] at hresponse
    split
    · exact .refl
    next packet hdecoded =>
    split
    · exact .refl
    exact receiveResponse_effects s now hserver hdecoded ((hdecode _ hdecoded).trans hresponse)

theorem sessionReceive_effects (wire : Bytes) (wall : Int64) (random : Random) :
    Effects P cfg (some wire) s.core (sessionReceive P cfg s wire now wall random).state.core
      (sessionReceive P cfg s wire now wall random).events := by
  refine (expire_effects s now).after ?_
  rw [sessionReceive]
  generalize (s.expirePrevious now).expirePending now = s
  split
  · exact .refl
  split
  · exact .refl
  next type htype =>
  split
  · exact .refl
  split
  · exact receiveHandshake_effects s now wall random htype
  · exact receiveSession_effects s now htype

end Refinement

def SessionOp.input : SessionOp → Option Bytes
  | .receive wire _ _ _ => some wire
  | _ => none

theorem sessionStep_effects (P : Primitives) (cfg : SessionConfig) (s : Endpoint) (op : SessionOp) :
    Effects P cfg op.input s.core (sessionStep P cfg s op).1.core
      (sessionStep P cfg s op).2.events := by
  cases op with
  | begin now wall random => exact sessionBegin_effects s now wall random
  | restart now wall random => exact sessionRestart_effects s now wall random
  | tick now wall random => exact sessionTick_effects s now wall random
  | receive wire now wall random => exact sessionReceive_effects s now wire wall random
  | encode packet => exact sessionEncode_effects s packet

theorem sessionTrace_invariant {P : Primitives} {cfg : SessionConfig}
    (I : List SessionEvent → SessionCore → Prop) (h0 : I [] {})
    (hI : ∀ input log c c' events, I log c → Effect P cfg input c c' events → I (events ++ log) c')
    {past : List (SessionOp × Report)} {s : Endpoint} (h : SessionTrace P cfg past s) :
    I (eventLog past) s.core := by
  refine Transition.Trace.invariant (fun past (s : Endpoint) => I (eventLog past) s.core) ?_ ?_ h
  · exact h0
  intro past s op _ ih
  exact (sessionStep_effects P cfg s op).preserves I (hI op.input) ih

end Tuntom
