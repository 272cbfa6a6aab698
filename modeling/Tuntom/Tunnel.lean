import Tuntom.UdpTxQueue
import Tuntom.Fragmentation
import Tuntom.SessionModel
import Tuntom.AuthGate

/-! The part of `Tunnel` that stands between user packets and the UDP socket: the session, the
peer address, the AUTH and relocation gate and the retry queue. The kernel, the helpers, the
clocks and the packets of the other protocols are inputs of the steps. -/
namespace Tuntom

/-! ### The client's side of `AuthState` -/

namespace AuthState

def allowsData (a : AuthState) : Bool := a.phase == .opened || a.phase == .authenticated

def receiveChallenge (a : AuthState) (c : AuthChallenge) : Option AuthState :=
  if a.role ≠ .client ∨ (a.phase ≠ .opened ∧ a.phase ≠ .pending) ∨ c.id = 0 then none
  -- a retransmission
  else if a.phase = .pending ∧ a.id = c.id then some a
  else if a.phase ≠ .opened then none
  else some { a with id := c.id, phase := .pending }

def sendResponse (a : AuthState) (id : UInt64) : Option AuthState :=
  if a.role ≠ .client ∨ a.phase ≠ .pending ∨ id ≠ a.id then none
  else some { a with phase := .waitingResult }

def receiveOk (a : AuthState) (id : UInt64) : Option AuthState :=
  if a.role ≠ .client ∨ a.phase ≠ .waitingResult ∨ id ≠ a.id then none
  else some { a with phase := .authenticated }

def receiveFailed (a : AuthState) (v : AuthFailed) : Option AuthState :=
  if a.role ≠ .client ∨ a.phase ≠ .waitingResult ∨ v.id ≠ a.id then none
  else some { a with phase := .rejected }

end AuthState

/-! ### State -/

/-- A socket address, as far as `peer_matches` compares it. -/
structure Peer where
  host : Bytes
  port : UInt16
  deriving DecidableEq, Repr

structure Seal where
  session : Session
  peer : Option Peer
  deriving DecidableEq, Repr

/-- `relocation::Ticket`. -/
structure Ticket where
  profile : Bootstrap
  port : UInt16
  used : Bool := false

def Ticket.consume (P : Primitives) (t : Ticket) (now : UInt64) (port : UInt16)
    (value : RelocateBind) (peer : Bytes) : Option Ticket :=
  if t.used ∨ t.profile.expiry < now ∨ port ≠ t.port ∨ value.token ≠ t.profile.token ∨
      peer ≠ t.profile.peer then none
  else if block 32 (relocationBind P t.profile port) ≠ value.binder then none
  else some { t with used := true }

structure TunnelOptions where
  session : SessionConfig
  auth : AuthOptions
  /-- Whether the server has an AUTH helper. -/
  authCommand : Bool
  /-- Whether the client has a helper that answers challenges. -/
  authResponseCommand : Bool
  authUsername : Bytes
  relay : Bool
  pmtudAuto : Bool
  logicalLimit : ℕ
  localPort : UInt16

structure Tunnel where
  session : Endpoint := {}
  udpTxGeneration : ℕ := 0
  queue : UdpTxQueue Seal := {}
  peer : Option Peer := none
  gate : AuthGate
  /-- The ticket of an access worker. -/
  ticket : Option Ticket := none
  relocationBound : Bool := false
  acceptedRelocateBind : Option RelocateBind := none
  pendingRelocate : Option Relocate := none
  relayExchange : UInt64 := 0

/-- The circumstances under which a datagram is handed to the socket or a payload delivered. -/
structure Moment where
  active : Option Session
  peer : Option Peer
  allowed : Bool
  deriving DecidableEq, Repr

inductive TunnelEvent where
  /-- A DATA or IPC datagram handed to the socket, at once or by a flush of the queue. -/
  | handed (wire : Bytes) (note : Seal) (flushed : Bool) (moment : Moment)
  /-- A received payload given to TUN, switch or relay. -/
  | delivered (payload : Bytes) (moment : Moment)
  deriving DecidableEq, Repr

namespace TunnelOptions

variable (o : TunnelOptions)

def packetType : PacketType := if o.relay then .ipc else .data

/-- The constructor of `Tunnel`. A client starts with the peer it was given. -/
def create (peer : Option Peer) (ticket : Option Ticket) : Tunnel where
  peer := peer
  ticket := ticket
  gate :=
    { auth :=
        { role := if o.session.server then .server else .client
          phase := if o.session.server ∧ o.authCommand then .needChallenge else .opened }
      switchStack := o.auth.switchStack }

end TunnelOptions

namespace Tunnel

def trafficAllowed (s : Tunnel) : Bool :=
  s.gate.auth.allowsData && (s.ticket.isNone || s.relocationBound) && s.pendingRelocate.isNone &&
    !s.gate.relocatingOriginal

def moment (s : Tunnel) : Moment := ⟨s.session.active, s.peer, s.trafficAllowed⟩

section Operations

variable (P : Primitives) (o : TunnelOptions)

variable (s : Tunnel)

/-- `sync_udp_tx_session`: a new transmit generation makes queued ciphertext worthless. -/
def syncUdpTxSession : Tunnel :=
  { s with
    queue := if s.session.transmitGeneration ≠ s.udpTxGeneration ∨ ¬s.session.ready o.session then
        s.queue.discard else s.queue
    udpTxGeneration := s.session.transmitGeneration }

/-- `UdpEndpoint::set_peer` and the discard that follows a change. -/
def setPeer (source : Peer) : Tunnel × Bool :=
  let changed : Bool := s.peer ≠ some source
  ({ s with peer := some source, queue := if changed then s.queue.discard else s.queue }, changed)

def sendAll (packets : List Packet) : Tunnel :=
  packets.foldl (fun s p => { s with session := (sessionEncode P o.session s.session p).state }) s

def extensionPackets (events : List GateEvent) : List Packet :=
  events.map fun
    | .sent type payload => { type := type, payload := payload }
    | .resent type payload => { type := type, payload := payload }

/-! #### User packets -/

/-- A packet from TUN, switch or relay, with what the kernel does to its datagrams: how many it
takes, and the error that stops it. -/
structure Outgoing where
  payload : Bytes
  /-- The payload a fragment may have, by the current transport MTU. -/
  maximum : ℕ
  messageId : UInt64
  now : Time
  queuedAt : Time
  sent : ℕ
  error : Option SendError
  /-- The MTU probes after an oversized datagram. -/
  probes : List Packet

/-- The fragments of a packet, encoded one after the other by the active session. -/
def encodeFragments (peer : Option Peer) :
    Endpoint → List Packet → Endpoint × Option (List (Bytes × Seal))
  | s, [] => (s, some [])
  | s, p :: rest =>
    match s.active, (sessionEncode P o.session s p).result with
    | some session, .ok (some wire) =>
      let (s, packets) := encodeFragments peer (sessionEncode P o.session s p).state rest
      (s, packets.map ((wire, ⟨session, peer⟩) :: ·))
    | _, _ => ((sessionEncode P o.session s p).state, none)

/-- The datagrams of one packet: behind a waiting queue, or to the socket, which may take only the
first of them. -/
def transmit (d : Outgoing) (packets : List (Bytes × Seal)) :
    Tunnel × List TunnelEvent :=
  let s := { s with queue := s.queue.expire d.queuedAt }
  if s.queue.entries ≠ [] then ({ s with queue := s.queue.append packets d.queuedAt }, [])
  else if s.peer = none then (s, [])
  else
    let rest := packets.drop d.sent
    let queue := match d.error with
      | some .again => (s.queue.blocked d.queuedAt).append rest d.queuedAt
      | some .interrupted => s.queue.append rest d.queuedAt
      | _ => s.queue
    (sendAll P o { s with queue := queue } d.probes,
      packets.map fun p => .handed p.1 p.2 false s.moment)

def sendData (d : Outgoing) : Tunnel × List TunnelEvent :=
  let s := s.syncUdpTxSession o
  if ¬s.session.ready o.session ∨ ¬s.trafficAllowed then (s, [])
  else if o.logicalLimit < d.payload.length then (s, [])
  else
    let whole := d.maximum + if o.packetType = .ipc then 16 else 12
    let sizeLimit := if d.payload.length ≤ whole then whole else d.maximum
    match makeFragmentPlan d.payload.length sizeLimit o.packetType.fragmentLimit with
    | .error _ => (s, [])
    | .ok plan =>
      let s := { s with queue := s.queue.expire d.now }
      -- a full queue refuses before sequence numbers are spent
      if s.queue.entries ≠ [] ∧ ¬s.queue.fits plan.count (d.payload.length + plan.count * 64) then
        (s, [])
      else
        let fragments := fragmentLoop plan o.packetType o.session.id d.messageId d.payload
          plan.count 0 0
        let (session, packets) := encodeFragments P o s.peer s.session fragments
        let s := { s with session := session }
        match packets with
        | none => (s, [])
        | some packets => s.transmit P o d packets

/-- `flush_udp_tx`. -/
def flushUdpTx (now : Time) (send : Bytes → SendResult) (probes : List Packet) :
    Tunnel × List TunnelEvent :=
  let s := s.syncUdpTxSession o
  let (queue, handed, error) := s.queue.flush now fun e =>
    if s.peer = none then .sent 0 else send e.wire
  let queue := if error = some .messageSize ∧ o.pmtudAuto then queue.discard else queue
  (sendAll P o { s with queue := queue } probes,
    handed.map fun e => .handed e.wire e.note true s.moment)

/-! #### Received datagrams -/

structure Arrival where
  wire : Bytes
  source : Peer
  numericPeer : Bytes
  numericHost : Bytes
  now : Time
  wall : Int64
  random : Random
  /-- The random bytes of an AUTH challenge. -/
  challenge : Option (Block 40)
  /-- The answer of the client's AUTH helper. -/
  answer : Option Bytes
  /-- Whether the CONFIG helper succeeded; none without a helper. -/
  configured : Option Bool
  /-- The random numbers of a handshake that RELOCATE begins. -/
  relocation : Random
  /-- The packet that reassembly completes with this fragment. -/
  completed : Option Bytes
  /-- Replies and probes that are sent in the course of the call. -/
  probes : List Packet

/-- The gate at a session activation: a server may have to ask again, a relocating client presents
its token. -/
def activatedGate (a : Arrival) (peerChanged : Bool) : AuthGate × List GateEvent :=
  if o.session.server then
    if o.authCommand ∧ s.ticket.isNone then
      s.gate.sessionActivated o.auth peerChanged a.challenge a.now
    else if s.gate.auth.phase = .needChallenge then
      s.gate.beginSessionAuth o.auth a.challenge a.now
    else (s.gate, [])
  else
    match s.pendingRelocate with
    | some relocate =>
      s.gate.sendReliable o.auth .relocateBind
        (RelocateBind.encode ⟨relocate.token, relocate.binder⟩) a.now
    | none => (s.gate, [])

/-- `session_activated`. -/
def sessionActivated (a : Arrival) (peerChanged : Bool) : Tunnel × List GateEvent :=
  let (gate, sent) := s.activatedGate o a peerChanged
  ({ s with gate := gate }.syncUdpTxSession o, sent)

def handleAuthChallenge (a : Arrival) (payload : Bytes) : Tunnel × List GateEvent :=
  match AuthChallenge.decode payload with
  | none => (s, [])
  | some challenge =>
    match s.gate.auth.receiveChallenge challenge with
    | none => (s, [])
    | some auth =>
      let s := { s with gate := { s.gate with auth := auth }.acknowledge .authChallenge }
      match if o.authResponseCommand then a.answer else none with
      | none => (s, [])
      | some answer =>
        if maxAuthField < answer.length then (s, [])
        else
          match s.gate.auth.sendResponse challenge.id with
          | none => (s, [])
          | some auth =>
            let response : AuthResponse :=
              { method := challenge.method, id := challenge.id, username := o.authUsername
                response := answer }
            let (gate, sent) := { s.gate with auth := auth }.sendReliable o.auth .authResponse
              response.encode a.now
            ({ s with gate := gate }, sent)

def handleRelocate (a : Arrival) (payload : Bytes) : Tunnel :=
  match Relocate.decode payload with
  | none => s
  | some value =>
    if ¬s.gate.auth.allowsData ∨ value.family ≠ 0 then s
    else
      let gate := (s.gate.acknowledge .authResponse).acknowledge .authOk
      let peer := if value.port = 0 then s.peer else some { a.source with port := value.port }
      { s with
        gate := gate, pendingRelocate := some value, peer := peer, queue := s.queue.discard
        session := (sessionRestart P o.session s.session a.now a.wall a.relocation).state }

/-- RELOCATE_BIND: the worker accepts the client that holds its ticket, once. -/
def handleRelocateBind (a : Arrival) (payload : Bytes) : Tunnel × List GateEvent :=
  match s.ticket, RelocateBind.decode payload with
  | some ticket, some value =>
    if s.relocationBound ∧ s.acceptedRelocateBind = some value then
      (s, AuthGate.sendExtension .relocateOk (encodeRelocateOk value.token))
    else
      match ticket.consume P (UInt64.ofNat a.wall.toInt.toNat) o.localPort value a.numericHost with
      | none => (s, [])
      | some ticket =>
        let (gate, config) := if ticket.profile.config = [] then (s.gate, [])
          else s.gate.sendAccessConfig ticket.profile.config
        ({ s with ticket := some ticket, relocationBound := true
                  acceptedRelocateBind := some value, gate := gate },
          AuthGate.sendExtension .relocateOk (encodeRelocateOk value.token) ++ config)
  | _, _ => (s, [])

def handleRelocateOk (payload : Bytes) : Tunnel :=
  match s.pendingRelocate, decodeRelocateOk payload with
  | some relocate, some token =>
    if token = relocate.token then
      { s with pendingRelocate := none, gate := s.gate.acknowledge .relocateBind }
    else s
  | _, _ => s

def handleConfig (a : Arrival) (payload : Bytes) : Tunnel :=
  match AccessConfig.decode payload with
  | none => s
  | some value =>
    { s with gate := { s.gate with
        accessConfigId := value.id
        accessConfigState := match a.configured with
          | none => "not_applied"
          | some applied => if applied then "applied" else "failed" } }

/-- `handle_session_extension`. -/
def handleSessionExtension (s : Tunnel) (a : Arrival) (type : PacketType) (payload : Bytes) :
    Tunnel × List GateEvent :=
  if o.session.server then
    match type with
    | .authResponse =>
      ({ s with gate := s.gate.handleSessionExtension .authResponse payload a.numericPeer
                  a.numericHost }, [])
    | .relocateBind => s.handleRelocateBind P o a payload
    | _ => (s, [])
  else
    match type with
    | .authChallenge => s.handleAuthChallenge o a payload
    | .authOk =>
      match (decodeAuthOk payload).bind s.gate.auth.receiveOk with
      | none => (s, [])
      | some auth => ({ s with gate := { s.gate with auth := auth }.acknowledge .authResponse }, [])
    | .authFailed =>
      match (AuthFailed.decode payload).bind s.gate.auth.receiveFailed with
      | none => (s, [])
      | some auth => ({ s with gate := { s.gate with auth := auth }.acknowledge .authResponse }, [])
    | .relocate => (s.handleRelocate P o a payload, [])
    | .relocateOk => (s.handleRelocateOk payload, [])
    | .config => (s.handleConfig a payload, [])
    | _ => (s, [])

end Operations

end Tunnel

/-- The extension types that `handle_udp_packet` hands to `handle_session_extension`. -/
def PacketType.extension : PacketType → Bool
  | .authChallenge | .authResponse | .authOk | .authFailed | .relocate | .config | .relocateBind
  | .relocateOk => true
  | _ => false

namespace Tunnel

section Operations

variable (P : Primitives) (o : TunnelOptions)

/-- What a packet of an established session does: an extension message reaches the gate, every
other packet needs it open. -/
def handleSessionPacket (s : Tunnel) (a : Arrival) (slot : Slot) (packet : Packet) :
    Tunnel × List GateEvent × List TunnelEvent :=
  if packet.type.extension then
    let (s, sent) := s.handleSessionExtension P o a packet.type packet.payload
    (s, sent, [])
  else if ¬s.trafficAllowed then (s, [], [])
  else if packet.type ≠ o.packetType then (s, [], [])
  else if o.relay ∧ (s.session.slot slot).map Session.exchange ≠ some s.relayExchange then (s, [], [])
  else
    match a.completed with
    | none => (s, [], [])
    | some payload => (s, [], [.delivered payload s.moment])

/-- The part of `handle_udp_packet` for a handshake that this datagram completes. -/
def activate (s : Tunnel) (a : Arrival) (result : Received) : Tunnel × List GateEvent :=
  if result.activated then
    let moved := if result.updatePeer then s.setPeer a.source else (s, false)
    { moved.1 with
      relayExchange := (s.session.active.map Session.exchange).getD 0 }.sessionActivated o a moved.2
  else (s, [])

/-- `handle_udp_packet`. -/
def handleUdpPacket (s : Tunnel) (a : Arrival) : Tunnel × List TunnelEvent :=
  let received := sessionReceive P o.session s.session a.wire a.now a.wall a.random
  let result := received.result
  let s := { s with session := received.state }.syncUdpTxSession o
  let (s, activation) := s.activate o a result
  match result.data, result.session, result.packet with
  | true, some slot, some packet =>
    -- the server follows an authenticated client behind NAT
    let s := if o.session.server ∧ result.updatePeer then (s.setPeer a.source).1 else s
    let (s, sent, events) := s.handleSessionPacket P o a slot packet
    (sendAll P o s (extensionPackets (activation ++ sent) ++ a.probes), events)
  | _, _, _ => (sendAll P o s (extensionPackets activation ++ a.probes), [])

end Operations

/-! ### Runs -/

inductive Op where
  | receive (arrival : Arrival)
  | send (packet : Outgoing)
  | flush (now : Time) (send : Bytes → SendResult) (probes : List Packet)
  | tick (now : Time) (wall : Int64) (random : Random) (probes : List Packet)
  /-- A pass of the loop: queued datagrams age, and children are looked after. -/
  | loop (now : Time) (childStatus : ℤ → Bool × Bool)
  | finished (done : FinishInput)
  /-- CONTROL, INFO, keepalive and probe packets of the other protocols. -/
  | control (packets : List Packet)

def step (P : Primitives) (o : TunnelOptions) (s : Tunnel) : Op → Tunnel × List TunnelEvent
  | .receive arrival => s.handleUdpPacket P o arrival
  | .send packet => s.sendData P o packet
  | .flush now send probes => s.flushUdpTx P o now send probes
  | .tick now wall random probes =>
    let ticked := sessionTick P o.session s.session now wall random
    let s := { s with session := ticked.state }.syncUdpTxSession o
    let (gate, sent) := s.gate.tickExtensions now (s.session.ready o.session)
    (sendAll P o { s with gate := gate } (extensionPackets sent ++ probes), [])
  | .loop now childStatus =>
    let s := s.syncUdpTxSession o
    ({ s with gate := AuthGate.reapChildren childStatus s.gate.children s.gate
              queue := s.queue.expire now }, [])
  | .finished done =>
    let (gate, sent) := s.gate.tickAuthJob P o.auth done
    (sendAll P o { s with gate := gate } (extensionPackets sent), [])
  | .control packets => (sendAll P o s packets, [])

end Tunnel

end Tuntom
