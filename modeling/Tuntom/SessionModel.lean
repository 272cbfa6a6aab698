import Tuntom.ProtocolCodec
import Tuntom.Transition

/-! `SessionProtocol`: the V5 handshake and its up to three live sessions, without
sockets. Clocks and the random source are inputs of every call. Each operation
also lets out the events a verifier observes: derivations, encodings and
activations. They play no part in the state. -/
namespace Tuntom

abbrev Nonce := Block 32

/-! ### Replay window -/

/-- `ReplayWindow`: the highest accepted values, descending. -/
abbrev ReplayWindow := List UInt64

def ReplayWindow.size : ℕ := 64

/-- `ReplayWindow::accept`. -/
def ReplayWindow.accept (window : ReplayWindow) (sequence : UInt64) : Bool × ReplayWindow :=
  if sequence = 0 then (false, window)
  else
    let above := window.takeWhile (· > sequence)
    let below := window.drop above.length
    if below.head? = some sequence then (false, window)
    else if above.length = ReplayWindow.size then (false, window)
    else (true, (above ++ sequence :: below).take ReplayWindow.size)

/-! ### Configuration -/

structure SessionConfig where
  id : UInt16
  master : Key
  server : Bool
  encrypt : Bool
  pfs : Bool
  initWindow : ℕ
  encrypt_of_pfs : pfs → encrypt
  window_valid : 2 ≤ initWindow ∧ initWindow ≤ 86400 ∧ initWindow % 2 = 0

namespace SessionConfig

/-- The constructor of `SessionProtocol`. -/
def create (id : UInt16) (master : Key) (server encrypt : Bool) (initWindow : ℕ) (pfs : Bool) :
    Except String SessionConfig :=
  if h : initWindow < 2 ∨ initWindow > 86400 ∨ initWindow % 2 ≠ 0 then
    .error "INIT window must be even and in range 2..86400 seconds"
  else
    .ok { id, master, server, encrypt := encrypt || pfs, pfs, initWindow,
          encrypt_of_pfs := fun hp => by simp [hp],
          window_valid := by omega }

def suite (cfg : SessionConfig) : UInt16 := if cfg.pfs then 2 else if cfg.encrypt then 1 else 0

def counterLimit (cfg : SessionConfig) : ℕ := if cfg.encrypt then 0xffffffff else 0x0000ffffffffffff

end SessionConfig

def counterMask : UInt64 := 0x0000ffffffffffff
def retryInterval : Time := second
def responseResendInterval : Time := 200000000
def pendingLifetime : Time := 5 * second
def oldLifetime : Time := 3 * second
def rekeyInterval : Time := 120 * second
def idleRestart : Time := 20 * second
def nonceCapacity : ℕ := 65536

/-! ### State -/

structure Session where
  codec : Codec
  hint : UInt16
  exchange : UInt64
  init : Bytes
  response : Bytes
  created : Time
  replay : ReplayWindow := []
  nextCounter : ℕ := 1
  deriving DecidableEq, Repr

structure SessionCounters where
  handshakeStarted : ℕ := 0
  handshakeCompleted : ℕ := 0
  rekeyStarted : ℕ := 0
  rekeyCompleted : ℕ := 0
  handshakeRetries : ℕ := 0
  handshakeTimeouts : ℕ := 0
  handshakeSuiteMismatch : ℕ := 0
  handshakeDhRejected : ℕ := 0
  handshakeRandomErrors : ℕ := 0
  deriving DecidableEq, Repr

/-- The owners of session objects, in the order `receive` tries them. -/
inductive Slot
  | active | pending | previous
  deriving DecidableEq, Repr

/-- The members of `SessionProtocol`. -/
structure Endpoint where
  active : Option Session := none
  previous : Option Session := none
  pending : Option Session := none
  previousUntil : Time := 0
  pendingUntil : Time := 0
  lastReceived : Time := 0
  responseResendAfter : Time := 0
  randomRetryAfter : Time := 0
  flightStarted : Time := 0
  lastRetry : Time := 0
  waitingAck : Bool := false
  beginRetry : Bool := false
  clientExchange : UInt64 := 0
  clientInit : Bytes := []
  flight : Bytes := []
  clientSecret : Block 32 := Vector.replicate 32 0
  transmitGeneration : ℕ := 0
  seenNonces : Finset Nonce := ∅
  /-- The multimap from expiry seconds to nonces, in key order. -/
  nonceExpiry : List (ℕ × Nonce) := []
  wallHighWater : ℕ := 0
  lastCompleted : Time := 0
  counters : SessionCounters := {}
  deriving DecidableEq

/-- What the random source gives during one call; `none` is a failure. -/
structure Random where
  id : Option UInt64 := none
  nonce : Option (Block 32) := none
  secret : Option (Block 32) := none
  deriving DecidableEq, Repr

/-- `SessionProtocol::Received`; the session pointer is the slot it points into. -/
structure Received where
  data : Bool := false
  control : Bool := false
  replayDrop : Bool := false
  activated : Bool := false
  updatePeer : Bool := false
  timestampRejected : Bool := false
  clockWarning : Bool := false
  nonceCapacity : Bool := false
  clockOffset : ℤ := 0
  session : Option Slot := none
  packet : Option Packet := none
  reply : Bytes := []
  deriving DecidableEq, Repr

inductive SessionEvent
  /-- An INIT or RESPONSE encoded with the handshake codec. -/
  | handshake (packet : Packet)
  /-- A session object made by `derive`. -/
  | derived (session : Session)
  /-- A packet encoded with the codec of a session. -/
  | encoded (codec : Codec) (packet : Packet)
  /-- The server moved a pending session to active. -/
  | promoted (session : Session)
  /-- The client accepted the CONFIRM_ACK of its active session. -/
  | acknowledged (session : Session)
  deriving DecidableEq, Repr

/-- The state after a call, its result, and its events, newest first. -/
structure Outcome (α : Type) where
  state : Endpoint
  result : α
  events : List SessionEvent := []

namespace Endpoint

variable (s : Endpoint)

def slot : Slot → Option Session
  | .active => s.active
  | .pending => s.pending
  | .previous => s.previous

def ready (cfg : SessionConfig) (s : Endpoint) : Bool :=
  match s.active with
  | some session => session.nextCounter ≤ cfg.counterLimit
  | none => false

def started : Endpoint :=
  let c := { s.counters with handshakeStarted := s.counters.handshakeStarted + 1 }
  { s with counters :=
      if c.handshakeCompleted = 0 then c else { c with rekeyStarted := c.rekeyStarted + 1 } }

def completed (now : Time) : Endpoint :=
  let c := s.counters
  let c := if c.handshakeCompleted = 0 then c else { c with rekeyCompleted := c.rekeyCompleted + 1 }
  { s with counters := { c with handshakeCompleted := c.handshakeCompleted + 1 }
           lastCompleted := now }

def retried : Endpoint :=
  { s with counters.handshakeRetries := s.counters.handshakeRetries + 1 }

def timedOut : Endpoint :=
  { s with counters.handshakeTimeouts := s.counters.handshakeTimeouts + 1 }

def dhRejected : Endpoint :=
  { s with counters.handshakeDhRejected := s.counters.handshakeDhRejected + 1 }

def suiteMismatched : Endpoint :=
  { s with counters.handshakeSuiteMismatch := s.counters.handshakeSuiteMismatch + 1 }

def randomFailed (now : Time) : Endpoint :=
  { s with counters.handshakeRandomErrors := s.counters.handshakeRandomErrors + 1
           randomRetryAfter := now + retryInterval }

def expirePrevious (now : Time) : Endpoint :=
  if s.previous.isSome ∧ now ≥ s.previousUntil then { s with previous := none } else s

def expirePending (now : Time) : Endpoint :=
  if s.pending.isSome ∧ now ≥ s.pendingUntil then { s.timedOut with pending := none } else s

end Endpoint

/-! ### Key derivation -/

section Derivation
variable (P : Primitives) (cfg : SessionConfig)

/-- `SessionProtocol::expand`: the label carries its terminating NUL. -/
def sessionExpand (master : Key) (id : UInt16) (label : String) (transcript : Bytes) : Key :=
  P.mac master id (ascii label ++ [0] ++ transcript)

def commitment (master : Key) (id : UInt16) (init : Bytes) : Bytes :=
  (sessionExpand P master id "V4-INIT-BIND-0" init).toList ++
    (sessionExpand P master id "V4-INIT-BIND-1" init).toList

def handshakeCodec : Codec := Codec.handshake P cfg.id cfg.master cfg.server

def deriveKeys (dh : Block 32) (transcript : Bytes) : Key × Key × Key :=
  if cfg.pfs then
    let prk := akdfExtract P cfg.master cfg.id dh
    (akdfExpand P prk cfg.id "TUNTOM-AKDF-v1-C2S" transcript,
     akdfExpand P prk cfg.id "TUNTOM-AKDF-v1-S2C" transcript,
     akdfExpand P prk cfg.id "TUNTOM-AKDF-v1-HINT" transcript)
  else
    (sessionExpand P cfg.master cfg.id "V4-SESSION-C2S" transcript,
     sessionExpand P cfg.master cfg.id "V4-SESSION-S2C" transcript,
     sessionExpand P cfg.master cfg.id "V4-SESSION-HINT" transcript)

def derive (init response : Bytes) (exchange : UInt64) (dh : Block 32) (now : Time) : Session :=
  let (c2s, s2c, hint) := deriveKeys P cfg dh (init ++ response)
  { codec := { tunnelId := cfg.id, txKey := if cfg.server then s2c else c2s,
               rxKey := if cfg.server then c2s else s2c, encrypt := cfg.encrypt }
    hint := loadBe16 hint.toList 0, exchange, init, response, created := now }

/-- `control`: a packet without payload. -/
def controlPacket (type : PacketType) (exchange : UInt64) : Packet :=
  { type, tunnelId := cfg.id, messageId := exchange }

def sequenceOf (hint : UInt16) (counter : ℕ) : UInt64 :=
  (hint.toUInt64 <<< 48) ||| UInt64.ofNat counter

def confirmationPacket (session : Session) (type : PacketType) : Packet :=
  { controlPacket cfg type session.exchange with sequence := session.hint.toUInt64 <<< 48 }

def confirmation (session : Session) (type : PacketType) : Bytes :=
  session.codec.layout P (confirmationPacket cfg session type)

/-- Suite, length of the public key and the public key itself close both handshake payloads. -/
def suiteFields (secret : Block 32) : Bytes :=
  storeBe16 cfg.suite ++
    (if cfg.pfs then storeBe16 32 ++ (P.publicKey secret).toList else storeBe16 0)

def initPacket (id : UInt64) (nonce : Nonce) (wall : Int64) (secret : Block 32) : Packet :=
  { controlPacket cfg .init id with
    payload := nonce.toList ++ (storeBe64 (UInt64.ofNat wall.toInt.toNat) ++ suiteFields P cfg secret) }

def responsePacket (init : Bytes) (exchange : UInt64) (random secret : Block 32) : Packet :=
  { controlPacket cfg .response exchange with
    payload := commitment P cfg.master cfg.id init ++ (random.toList ++ suiteFields P cfg secret) }

def drawSecret (random : Random) : Option (Block 32) :=
  if cfg.pfs then random.secret else some (Vector.replicate 32 0)

def drawShared (secret peer : Block 32) : Option (Block 32) :=
  if cfg.pfs then shared P secret peer else some (Vector.replicate 32 0)

end Derivation

/-! ### Operations -/

section Operations
variable (P : Primitives) (cfg : SessionConfig)

variable (s : Endpoint)

/-- `begin`: start a handshake on the client. -/
def sessionBegin (now : Time) (wall : Int64) (random : Random) : Outcome Bytes :=
  if cfg.server then ⟨s, [], []⟩
  else
    let s := { s with beginRetry := true }
    if now < s.randomRetryAfter then ⟨s, [], []⟩
    else
      let id := random.id.getD 0
      -- a drawn zero defers the attempt as a failed draw does
      if id = 0 then ⟨s.randomFailed now, [], []⟩
      else
        match random.nonce, drawSecret cfg random with
        | some nonce, some secret =>
          let packet := initPacket P cfg id nonce wall secret
          let encoded := (handshakeCodec P cfg).layout P packet
          ⟨{ s with previous := none, pending := none, waitingAck := false
                    clientSecret := secret, clientInit := encoded, clientExchange := id
                    flight := encoded, flightStarted := now, lastRetry := now
                    beginRetry := false }.started, encoded, [.handshake packet]⟩
        | _, _ => ⟨s.randomFailed now, [], []⟩

def clearSessions : Endpoint :=
  { s with active := none, previous := none, pending := none, waitingAck := false
           flight := [], clientInit := [], clientSecret := Vector.replicate 32 0
           transmitGeneration := s.transmitGeneration + 1 }

/-- `restart`: drop every session of a client and begin again. -/
def sessionRestart (now : Time) (wall : Int64) (random : Random) : Outcome Bytes :=
  if cfg.server then ⟨s, [], []⟩ else sessionBegin P cfg (clearSessions s) now wall random

/-- The flight deadline of `tick`: an unconfirmed candidate falls back to the previous session. -/
def abandonFlight : Endpoint :=
  let s := s.timedOut
  let s := if s.waitingAck then
      { s with active := s.previous, previous := none
               transmitGeneration := s.transmitGeneration + 1 } else s
  { s with waitingAck := false, flight := [], clientInit := []
           clientSecret := Vector.replicate 32 0 }

def sessionTick (now : Time) (wall : Int64) (random : Random) : Outcome Bytes :=
  let s := (s.expirePrevious now).expirePending now
  if cfg.server then ⟨s, [], []⟩
  else if s.flight ≠ [] then
    if now - s.flightStarted ≥ pendingLifetime then
      sessionBegin P cfg (abandonFlight s) now wall random
    else if now - s.lastRetry ≥ retryInterval then
      ⟨{ s.retried with lastRetry := now }, s.flight, []⟩
    else ⟨s, [], []⟩
  else if s.beginRetry ∨ ¬ s.ready cfg ∨ now - s.lastReceived ≥ idleRestart ∨
      cfg.pfs ∧ s.active.any fun session => now - session.created ≥ rekeyInterval then
    sessionBegin P cfg s now wall random
  else ⟨s, [], []⟩

/-- `encode_into`: the counter is consumed even when the codec rejects the packet. -/
def sessionEncode (packet : Packet) : Outcome (Except String (Option Bytes)) :=
  match s.active with
  | none => ⟨s, .ok none, []⟩
  | some session =>
    if session.nextCounter ≤ cfg.counterLimit then
      let packet := { packet with sequence := sequenceOf session.hint session.nextCounter }
      let s := { s with active := some { session with nextCounter := session.nextCounter + 1 } }
      match session.codec.encode P packet with
      | .error message => ⟨s, .error message, []⟩
      | .ok wire => ⟨s, .ok (some wire), [.encoded session.codec packet]⟩
    else ⟨s, .ok none, []⟩

/-! #### The server's INIT -/

/-- Forget the nonces whose expiry lies before `current`. -/
def purgeNonces (current : ℕ) : Endpoint :=
  let expired := s.nonceExpiry.takeWhile fun e => e.1 < current
  { s with seenNonces := expired.foldl (fun seen e => seen.erase e.2) s.seenNonces
           nonceExpiry := s.nonceExpiry.dropWhile fun e => e.1 < current }

/-- Where `std::multimap::emplace` puts a key: behind the entries with the same key. -/
def expiryPosition (expiry : List (ℕ × Nonce)) (key : ℕ) : ℕ :=
  (expiry.takeWhile fun e => e.1 ≤ key).length

def emplaceExpiry (expiry : List (ℕ × Nonce)) (entry : ℕ × Nonce) : List (ℕ × Nonce) :=
  expiry.insertIdx (expiryPosition expiry entry.1) entry

def reserveNonce (entry : ℕ × Nonce) : Endpoint :=
  { s with seenNonces := insert entry.2 s.seenNonces
           nonceExpiry := emplaceExpiry s.nonceExpiry entry }

/-- The destructor of a `NonceReservation` that is not kept; `position` is its iterator. -/
def releaseNonce (nonce : Nonce) (position : ℕ) : Endpoint :=
  { s with seenNonces := s.seenNonces.erase nonce, nonceExpiry := s.nonceExpiry.eraseIdx position }

/-- An authenticated INIT: its nonce, its timestamp, and the distance of the two clocks. -/
def initNonce (packet : Packet) : Nonce := block 32 packet.payload
def initStamp (packet : Packet) : ℕ := (loadBe64 packet.payload 32).toNat
def clockDistance (stamp current : ℕ) : ℕ := if stamp > current then stamp - current else current - stamp

/-- The key under which a nonce is kept: `stamp + half` in 64 bits. -/
def expiryEntry (packet : Packet) : ℕ × Nonce :=
  ((initStamp packet + cfg.initWindow / 2) % 2 ^ 64, initNonce packet)

def clockReport (stamp current : ℕ) : Received :=
  let half := cfg.initWindow / 2
  let distance := clockDistance stamp current
  let magnitude : ℤ := min distance (2 ^ 63 - 1)
  { control := true, clockOffset := if stamp ≥ current then magnitude else -magnitude
    timestampRejected := distance > half, clockWarning := distance ≥ (half * 4 + 4) / 5 }

/-- Construct the RESPONSE to a fresh INIT whose nonce `s` has reserved at `position`. -/
def respond (position : ℕ) (wire : Bytes) (packet : Packet) (now : Time)
    (random : Random) (result : Received) : Outcome Received :=
  match random.nonce, drawSecret cfg random with
  | some nonce, some secret =>
    match drawShared P cfg secret (block 32 (packet.payload.drop 44)) with
    | none => ⟨s.dhRejected, result, []⟩
    | some dh =>
      let response := responsePacket P cfg wire packet.messageId nonce secret
      let responseWire := (handshakeCodec P cfg).layout P response
      let candidate := derive P cfg wire responseWire packet.messageId dh now
      ⟨{ s with previous := none, pending := some candidate
                pendingUntil := now + pendingLifetime, responseResendAfter := now }.started,
        { result with reply := responseWire }, [.handshake response, .derived candidate]⟩
  | _, _ => ⟨releaseNonce (s.randomFailed now) (initNonce packet) position, result, []⟩

/-- An INIT whose nonce is known: only a retry of the pending one is answered. -/
def repeatedInit (wire : Bytes) (now : Time) (result : Received) : Outcome Received :=
  match s.pending with
  | some session =>
    if session.init = wire then
      if now < s.responseResendAfter then ⟨s, result, []⟩
      else ⟨{ s with responseResendAfter := now + responseResendInterval }.retried,
        { result with reply := session.response }, []⟩
    else ⟨s, { result with replayDrop := true }, []⟩
  | none => ⟨s, { result with replayDrop := true }, []⟩

def receiveInit (wire : Bytes) (packet : Packet) (now : Time) (wall : Int64)
    (random : Random) : Outcome Received :=
  -- the acceptance time never moves backwards
  let current := max s.wallHighWater wall.toInt.toNat
  let s := { s with wallHighWater := current }
  let result := clockReport cfg (initStamp packet) current
  if clockDistance (initStamp packet) current > cfg.initWindow / 2 then ⟨s, result, []⟩
  else
    let s := purgeNonces s current
    if initNonce packet ∈ s.seenNonces then repeatedInit s wire now result
    else if s.seenNonces.card ≥ nonceCapacity then ⟨s, { result with nonceCapacity := true }, []⟩
    else if s.pending = none ∧ now < s.randomRetryAfter then ⟨s, result, []⟩
    else
      let entry := expiryEntry cfg packet
      let position := expiryPosition s.nonceExpiry entry.1
      let s := reserveNonce s entry
      -- a different INIT cannot evict an exchange awaiting CONFIRM
      if s.pending.isSome then ⟨s, result, []⟩
      else respond P cfg s position wire packet now random result

/-! #### The client's RESPONSE -/

def receiveResponse (wire : Bytes) (packet : Packet) (now : Time) :
    Outcome Received :=
  if s.clientInit = [] ∨ packet.messageId ≠ s.clientExchange then ⟨s, {}, []⟩
  else if commitment P cfg.master cfg.id s.clientInit ≠ packet.payload.take 32 then ⟨s, {}, []⟩
  else if s.waitingAck then
    if s.active.any fun session => session.response == wire then
      ⟨s.retried, { control := true, reply := s.flight }, []⟩
    else ⟨s, { control := true }, []⟩
  else
    match drawShared P cfg s.clientSecret (block 32 (packet.payload.drop 68)) with
    | none => ⟨s.dhRejected, { control := true }, []⟩
    | some dh =>
      let candidate := derive P cfg s.clientInit wire s.clientExchange dh now
      let flight := confirmation P cfg candidate .confirm
      ⟨{ s with clientSecret := Vector.replicate 32 0, previous := s.active
                previousUntil := now + oldLifetime, active := some candidate
                transmitGeneration := s.transmitGeneration + 1, waitingAck := true
                flight := flight, flightStarted := now, lastRetry := now },
        { control := true, reply := flight },
        [.encoded candidate.codec (confirmationPacket cfg candidate .confirm), .derived candidate]⟩

/-! #### Packets of a session -/

def matchSession (wire : Bytes) : Option (Slot × Session × Packet) :=
  [Slot.active, .pending, .previous].findSome? fun slot =>
    match s.slot slot with
    | none => none
    | some session =>
      if session.hint = (loadBe64 wire 1 >>> 48).toUInt16 then
        (session.codec.decode P wire).map fun packet => (slot, session, packet)
      else none

def receiveConfirm (slot : Slot) (session : Session) (packet : Packet)
    (now : Time) : Outcome Received :=
  if ¬ cfg.server ∨ packet.messageId ≠ session.exchange then ⟨s, {}, []⟩
  else
    let reply := confirmation P cfg session .confirmAck
    let encoded := SessionEvent.encoded session.codec (confirmationPacket cfg session .confirmAck)
    match slot with
    | .pending =>
      ⟨{ s with previous := s.active, previousUntil := now + oldLifetime
                active := some session, pending := none
                transmitGeneration := s.transmitGeneration + 1 }.completed now,
        { control := true, reply, activated := true, updatePeer := true },
        [.promoted session, encoded]⟩
    | .active => ⟨s.retried, { control := true, reply }, [encoded]⟩
    | .previous => ⟨s, { control := true }, []⟩

def receiveConfirmAck (slot : Slot) (session : Session) (packet : Packet)
    (now : Time) : Outcome Received :=
  if cfg.server ∨ slot ≠ .active ∨ packet.messageId ≠ session.exchange then ⟨s, {}, []⟩
  else if ¬ s.waitingAck then ⟨s, { control := true }, []⟩
  else
    ⟨{ s with waitingAck := false, flight := [], clientInit := [], lastReceived := now }.completed
        now, { control := true, activated := true }, [.acknowledged session]⟩

/-- Types that belong to the current session only, never to the rekey grace period. -/
def PacketType.currentOnly : PacketType → Bool
  | .info | .control | .controlChallenge | .authChallenge | .authResponse | .authOk | .authFailed
  | .relocate | .config | .relocateBind | .relocateOk => true
  | _ => false

def receiveData (slot : Slot) (session : Session) (packet : Packet) (now : Time) :
    Outcome Received :=
  let window := session.replay.accept (packet.sequence &&& counterMask)
  let session := { session with replay := window.2 }
  match slot with
  | .pending => ⟨s, {}, []⟩
  | .active =>
    if window.1 then
      ⟨{ s with active := some session, lastReceived := now },
        { updatePeer := cfg.server, data := true, session := some .active, packet }, []⟩
    else ⟨s, { replayDrop := true }, []⟩
  | .previous =>
    if packet.type.currentOnly then ⟨s, {}, []⟩
    else if window.1 then
      ⟨{ s with previous := some session }, { data := true, session := some .previous, packet }, []⟩
    else ⟨s, { replayDrop := true }, []⟩

def suiteOffset (type : PacketType) : ℕ := if type = .init then 40 else 64

/-- The part of `receive` for INIT and RESPONSE. -/
def receiveHandshake (type : PacketType) (wire : Bytes) (now : Time) (wall : Int64)
    (random : Random) : Outcome Received :=
  if type ≠ (if cfg.server then .init else .response) then ⟨s, {}, []⟩
  else
    match (handshakeCodec P cfg).decode P wire with
    | none => ⟨s, {}, []⟩
    | some packet =>
      if loadBe16 packet.payload (suiteOffset type) ≠ cfg.suite then
        ⟨s.suiteMismatched, {}, []⟩
      else if cfg.server then receiveInit P cfg s wire packet now wall random
      else receiveResponse P cfg s wire packet now

/-- The part of `receive` for packets of a session. -/
def receiveSession (type : PacketType) (wire : Bytes) (now : Time) :
    Outcome Received :=
  match matchSession P s wire with
  | none => ⟨s, {}, []⟩
  | some (slot, session, packet) =>
    match type with
    | .confirm => receiveConfirm P cfg s slot session packet now
    | .confirmAck => receiveConfirmAck cfg s slot session packet now
    | _ => receiveData cfg s slot session packet now

def sessionReceive (wire : Bytes) (now : Time) (wall : Int64) (random : Random) :
    Outcome Received :=
  let s := (s.expirePrevious now).expirePending now
  if wire.length < protocolHeaderV5Size then ⟨s, {}, []⟩
  else
    match PacketType.ofByte (wire.headD 0 &&& 0x1f) with
    -- no codec accepts a value outside the enumeration
    | none => ⟨s, {}, []⟩
    | some type =>
      if ¬ cfg.server ∧ s.flight ≠ [] ∧ now - s.flightStarted ≥ pendingLifetime ∧
          (type = .response ∨ type = .confirmAck) then ⟨s, {}, []⟩
      else if type.handshake then receiveHandshake P cfg s type wire now wall random
      else receiveSession P cfg s type wire now

/-! ### Runs -/

inductive SessionOp
  | begin (now : Time) (wall : Int64) (random : Random)
  | restart (now : Time) (wall : Int64) (random : Random)
  | tick (now : Time) (wall : Int64) (random : Random)
  | receive (wire : Bytes) (now : Time) (wall : Int64) (random : Random)
  | encode (packet : Packet)
  deriving DecidableEq, Repr

/-- What one call lets out: the result of `receive`, the bytes to send, the events. -/
structure Report where
  received : Received := {}
  output : Bytes := []
  events : List SessionEvent := []
  deriving DecidableEq, Repr

def sessionStep : SessionOp → Endpoint × Report
  | .begin now wall random =>
    let o := sessionBegin P cfg s now wall random
    (o.state, { output := o.result, events := o.events })
  | .restart now wall random =>
    let o := sessionRestart P cfg s now wall random
    (o.state, { output := o.result, events := o.events })
  | .tick now wall random =>
    let o := sessionTick P cfg s now wall random
    (o.state, { output := o.result, events := o.events })
  | .receive wire now wall random =>
    let o := sessionReceive P cfg s wire now wall random
    (o.state, { received := o.result, output := o.result.reply, events := o.events })
  | .encode packet =>
    let o := sessionEncode P cfg s packet
    (o.state, { output := (o.result.toOption.bind id).getD [], events := o.events })

abbrev SessionTrace := Transition.Trace (sessionStep P cfg) ({} : Endpoint)

end Operations

def eventLog (past : List (SessionOp × Report)) : List SessionEvent :=
  past.flatMap fun call => call.2.events

@[simp] theorem eventLog_nil : eventLog [] = [] := rfl

@[simp] theorem eventLog_cons (call : SessionOp × Report) (past : List (SessionOp × Report)) :
    eventLog (call :: past) = call.2.events ++ eventLog past := rfl

def derivations (log : List SessionEvent) : List Session :=
  log.filterMap fun
    | .derived session => some session
    | _ => none

def encodings (log : List SessionEvent) : List (Codec × Packet) :=
  log.filterMap fun
    | .encoded codec packet => some (codec, packet)
    | _ => none

def handshakes (log : List SessionEvent) : List Packet :=
  log.filterMap fun
    | .handshake packet => some packet
    | _ => none

def promotions (log : List SessionEvent) : List Session :=
  log.filterMap fun
    | .promoted session => some session
    | _ => none

def acknowledgements (log : List SessionEvent) : List Session :=
  log.filterMap fun
    | .acknowledged session => some session
    | _ => none

end Tuntom
