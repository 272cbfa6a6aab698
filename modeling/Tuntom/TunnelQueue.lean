import Tuntom.SessionEffects
import Tuntom.Tunnel

/-! Queued datagrams are never stale: the transmit generation grows with every change of the active
session, and between a change of the session or of the peer and the next flush lies a discard. -/
namespace Tuntom

/-- What makes a session object the one it is: everything but its counters. -/
def Session.identity (s : Session) : Session := { s with replay := [], nextCounter := 1 }

/-- `t` comes after `s`: without a new generation the active session is the same. -/
structure Endpoint.Follows (s t : Endpoint) : Prop where
  le : s.transmitGeneration ≤ t.transmitGeneration
  same : t.transmitGeneration = s.transmitGeneration →
    t.active.map Session.identity = s.active.map Session.identity

namespace Endpoint

variable {s t u : Endpoint}

theorem Follows.refl (s : Endpoint) : s.Follows s := ⟨le_rfl, fun _ => rfl⟩

theorem Follows.trans (h : s.Follows t) (h' : t.Follows u) : s.Follows u := by
  refine ⟨h.le.trans h'.le, fun heq => ?_⟩
  have hle := h.le
  have hle' := h'.le
  rw [h'.same (by omega), h.same (by omega)]

theorem Follows.of_eq (hgeneration : t.transmitGeneration = s.transmitGeneration)
    (hactive : t.active = s.active) : s.Follows t :=
  ⟨hgeneration.ge, fun _ => by rw [hactive]⟩

theorem Follows.of_lt (h : s.transmitGeneration < t.transmitGeneration) : s.Follows t :=
  ⟨h.le, fun heq => absurd heq h.ne'⟩

theorem follows_expire (s : Endpoint) (now : Time) :
    s.Follows ((s.expirePrevious now).expirePending now) := by
  have hprevious : s.Follows (s.expirePrevious now) := by
    rw [expirePrevious]
    split
    · exact .of_eq rfl rfl
    · exact .refl s
  refine hprevious.trans ?_
  rw [expirePending]
  split
  · exact .of_eq rfl rfl
  · exact .refl _

end Endpoint

/-! ### The session operations -/

section Session

variable (P : Primitives) (cfg : SessionConfig) (s : Endpoint)

theorem follows_begin (now : Time) (wall : Int64) (random : Random) :
    s.Follows (sessionBegin P cfg s now wall random).state := by
  rw [sessionBegin]
  dsimp only
  split_ifs
  · exact .refl s
  · exact .of_eq rfl rfl
  · exact .of_eq rfl rfl
  · split
    · exact .of_eq rfl rfl
    · exact .of_eq rfl rfl

theorem follows_restart (now : Time) (wall : Int64) (random : Random) :
    s.Follows (sessionRestart P cfg s now wall random).state := by
  rw [sessionRestart]
  split_ifs
  · exact .refl s
  · have hclear : s.Follows (clearSessions s) := .of_lt (Nat.lt_succ_self _)
    exact hclear.trans (follows_begin P cfg _ now wall random)

theorem follows_abandonFlight : s.Follows (abandonFlight s) := by
  rw [abandonFlight]
  split_ifs
  · exact .of_lt (Nat.lt_succ_self _)
  · exact .of_eq rfl rfl

theorem follows_tick (now : Time) (wall : Int64) (random : Random) :
    s.Follows (sessionTick P cfg s now wall random).state := by
  rw [sessionTick]
  refine (s.follows_expire now).trans ?_
  generalize (s.expirePrevious now).expirePending now = t
  dsimp only
  split_ifs
  · exact .refl t
  · exact (follows_abandonFlight t).trans (follows_begin P cfg _ now wall random)
  · exact .of_eq rfl rfl
  · exact .refl t
  · exact follows_begin P cfg t now wall random
  · exact .refl t

theorem encode_same (packet : Packet) :
    (sessionEncode P cfg s packet).state.transmitGeneration = s.transmitGeneration ∧
      (sessionEncode P cfg s packet).state.active.map Session.identity =
        s.active.map Session.identity := by
  rw [sessionEncode]
  cases hactive : s.active with
  | none => exact ⟨rfl, by rw [hactive]⟩
  | some session =>
    dsimp only
    split_ifs
    · split
      · exact ⟨rfl, rfl⟩
      · exact ⟨rfl, rfl⟩
    · exact ⟨rfl, by rw [hactive]⟩

theorem follows_encode (packet : Packet) : s.Follows (sessionEncode P cfg s packet).state :=
  ⟨(encode_same P cfg s packet).1.ge, fun _ => (encode_same P cfg s packet).2⟩

theorem follows_respond (position : ℕ) (wire : Bytes) (packet : Packet) (now : Time)
    (random : Random) (result : Received) :
    s.Follows (respond P cfg s position wire packet now random result).state := by
  rw [respond]
  split
  · split
    · exact .of_eq rfl rfl
    · exact .of_eq rfl rfl
  · exact .of_eq rfl rfl

theorem follows_repeatedInit (wire : Bytes) (now : Time) (result : Received) :
    s.Follows (repeatedInit s wire now result).state := by
  rw [repeatedInit]
  split
  · split_ifs
    · exact .refl s
    · exact .of_eq rfl rfl
    · exact .refl s
  · exact .refl s

theorem follows_receiveInit (wire : Bytes) (packet : Packet) (now : Time) (wall : Int64)
    (random : Random) : s.Follows (receiveInit P cfg s wire packet now wall random).state := by
  rw [receiveInit]
  dsimp only
  split
  · exact .of_eq rfl rfl
  split
  · refine Endpoint.Follows.trans (.of_eq ?_ ?_) (follows_repeatedInit _ wire now _)
    · rfl
    · rfl
  split
  · exact .of_eq rfl rfl
  split
  · exact .of_eq rfl rfl
  split
  · exact .of_eq rfl rfl
  refine Endpoint.Follows.trans (.of_eq ?_ ?_)
    (follows_respond P cfg _ _ wire packet now random _)
  · rfl
  · rfl

theorem follows_receiveResponse (wire : Bytes) (packet : Packet) (now : Time) :
    s.Follows (receiveResponse P cfg s wire packet now).state := by
  rw [receiveResponse]
  split_ifs
  · exact .refl s
  · exact .refl s
  · exact .of_eq rfl rfl
  · exact .refl s
  · split
    · exact .of_eq rfl rfl
    · exact .of_lt (Nat.lt_succ_self _)

theorem follows_receiveConfirm (slot : Slot) (session : Session) (packet : Packet) (now : Time) :
    s.Follows (receiveConfirm P cfg s slot session packet now).state := by
  rw [receiveConfirm]
  split
  · exact .refl s
  cases slot with
  | active => exact .of_eq rfl rfl
  | pending => exact .of_lt (Nat.lt_succ_self _)
  | previous => exact .refl s

theorem follows_receiveConfirmAck (slot : Slot) (session : Session) (packet : Packet)
    (now : Time) : s.Follows (receiveConfirmAck cfg s slot session packet now).state := by
  rw [receiveConfirmAck]
  split_ifs
  · exact .refl s
  · exact .of_eq rfl rfl
  · exact .refl s

theorem follows_receiveData {slot : Slot} {session : Session} (hslot : s.slot slot = some session)
    (packet : Packet) (now : Time) :
    s.Follows (receiveData cfg s slot session packet now).state := by
  unfold receiveData
  cases slot with
  | active =>
    dsimp only
    split
    · refine ⟨le_rfl, fun _ => ?_⟩
      have hactive : s.active = some session := hslot
      rw [hactive]
      rfl
    · exact .refl s
  | pending => exact .refl s
  | previous =>
    dsimp only
    split_ifs
    · exact .refl s
    · exact .of_eq rfl rfl
    · exact .refl s

theorem follows_receiveHandshake (type : PacketType) (wire : Bytes) (now : Time) (wall : Int64)
    (random : Random) : s.Follows (receiveHandshake P cfg s type wire now wall random).state := by
  rw [receiveHandshake]
  by_cases htype : type ≠ (if cfg.server then .init else .response)
  · rw [if_pos htype]
    exact .refl s
  rw [if_neg htype]
  split
  · exact .refl s
  next packet _ =>
  split
  · exact .of_eq rfl rfl
  split
  · exact follows_receiveInit P cfg s wire packet now wall random
  · exact follows_receiveResponse P cfg s wire packet now

theorem follows_receive (wire : Bytes) (now : Time) (wall : Int64) (random : Random) :
    s.Follows (sessionReceive P cfg s wire now wall random).state := by
  rw [sessionReceive]
  refine (s.follows_expire now).trans ?_
  generalize (s.expirePrevious now).expirePending now = t
  split
  · exact .refl t
  split
  · exact .refl t
  split
  · exact .refl t
  split
  · exact follows_receiveHandshake P cfg t _ wire now wall random
  rw [receiveSession]
  split
  · exact .refl t
  next slot session packet hmatch =>
  have hslot := (matchSession_cases hmatch).1
  split
  · exact follows_receiveConfirm P cfg t slot session packet now
  · exact follows_receiveConfirmAck cfg t slot session packet now
  · exact follows_receiveData cfg t hslot packet now

end Session

/-! ### The queue -/

def Seal.Covers (P : Primitives) (note : Seal) (wire : Bytes) : Prop :=
  ∃ packet, note.session.codec.encode P packet = .ok wire

namespace Tunnel

variable (P : Primitives) (o : TunnelOptions)

/-- Everything queued was encoded for the current peer, and by the active session as long as no
newer generation waits for the next synchronization. -/
structure Current (s : Tunnel) : Prop where
  le : s.udpTxGeneration ≤ s.session.transmitGeneration
  covers : ∀ e ∈ s.queue.entries, e.note.Covers P e.wire
  peer : ∀ e ∈ s.queue.entries, e.note.peer = s.peer
  session : s.session.transmitGeneration = s.udpTxGeneration →
    ∀ e ∈ s.queue.entries, s.session.active.map Session.identity = some e.note.session.identity

structure Keeps (s t : Tunnel) : Prop where
  follows : s.session.Follows t.session
  current : s.Current P → t.Current P

namespace Keeps

variable {P : Primitives} {s t u : Tunnel}

theorem refl (s : Tunnel) : s.Keeps P s := ⟨.refl _, id⟩

theorem trans (h : s.Keeps P t) (h' : t.Keeps P u) : s.Keeps P u :=
  ⟨h.follows.trans h'.follows, fun hs => h'.current (h.current hs)⟩

theorem of_follows (s : Tunnel) {session : Endpoint} (h : s.session.Follows session) :
    s.Keeps P { s with session := session } where
  follows := h
  current hs := by
    refine ⟨hs.le.trans h.le, hs.covers, hs.peer, fun heq => ?_⟩
    have hle := hs.le
    have hle' := h.le
    have heq' : session.transmitGeneration = s.udpTxGeneration := heq
    dsimp only
    rw [h.same (by omega)]
    exact hs.session (by omega)

theorem of_queue (s : Tunnel) {queue : UdpTxQueue Seal}
    (h : ∀ e ∈ queue.entries, e ∈ s.queue.entries) : s.Keeps P { s with queue := queue } where
  follows := .refl _
  current hs := ⟨hs.le, fun e he => hs.covers e (h e he), fun e he => hs.peer e (h e he),
    fun heq e he => hs.session heq e (h e he)⟩

theorem of_gate (hsession : t.session = s.session) (hgeneration : t.udpTxGeneration = s.udpTxGeneration)
    (hqueue : t.queue = s.queue) (hpeer : t.peer = s.peer) : s.Keeps P t where
  follows := .of_eq (by rw [hsession]) (by rw [hsession])
  current hs := by
    refine ⟨?_, ?_, ?_, ?_⟩
    · rw [hsession, hgeneration]
      exact hs.le
    · rw [hqueue]
      exact hs.covers
    · rw [hqueue, hpeer]
      exact hs.peer
    · rw [hsession, hgeneration, hqueue]
      exact hs.session

end Keeps

variable (s : Tunnel)

theorem keeps_discard (peer : Option Peer) :
    s.Keeps P { s with peer := peer, queue := s.queue.discard } where
  follows := .refl _
  current hs := ⟨hs.le, by simp, by simp, by simp⟩

theorem keeps_sync : s.Keeps P (s.syncUdpTxSession o) where
  follows := .refl _
  current hs := by
    rw [syncUdpTxSession]
    split_ifs with hstale
    · exact ⟨le_rfl, by simp, by simp, by simp⟩
    · rw [not_or, not_not] at hstale
      exact ⟨le_rfl, hs.covers, hs.peer, fun _ => hs.session hstale.1⟩

theorem keeps_setPeer (source : Peer) : s.Keeps P (s.setPeer source).1 := by
  by_cases hpeer : s.peer = some source
  · refine .of_gate rfl rfl ?_ ?_
    · simp [setPeer, hpeer]
    · simp [setPeer, hpeer]
  · have h := s.keeps_discard P (some source)
    simpa [setPeer, hpeer] using h

theorem keeps_sendAll (packets : List Packet) : s.Keeps P (s.sendAll P o packets) := by
  rw [sendAll]
  induction packets generalizing s with
  | nil => exact .refl s
  | cons p rest ih =>
    rw [List.foldl_cons]
    exact (Keeps.of_follows s (follows_encode P o.session s.session p)).trans (ih _)

/-! #### User packets -/

/-- The fragments of a packet are all encoded by the session that is active before and after. -/
theorem encodeFragments_spec (peer : Option Peer) (s : Endpoint) (fragments : List Packet) :
    (encodeFragments P o peer s fragments).1.transmitGeneration = s.transmitGeneration ∧
      (encodeFragments P o peer s fragments).1.active.map Session.identity =
        s.active.map Session.identity ∧
      ∀ packets, (encodeFragments P o peer s fragments).2 = some packets →
        ∀ p ∈ packets, p.2.Covers P p.1 ∧ p.2.peer = peer ∧
          s.active.map Session.identity = some p.2.session.identity := by
  induction fragments generalizing s with
  | nil =>
    refine ⟨rfl, rfl, ?_⟩
    rintro packets ⟨⟩ p hp
    cases hp
  | cons fragment rest ih =>
    obtain ⟨hgeneration, hactive⟩ := encode_same P o.session s fragment
    rw [encodeFragments]
    split
    next session wire hsome hwire =>
      obtain ⟨ihgeneration, ihactive, ihpackets⟩ := ih (sessionEncode P o.session s fragment).state
      refine ⟨ihgeneration.trans hgeneration, ihactive.trans hactive, ?_⟩
      intro packets hpackets p hp
      obtain ⟨later, hlater, rfl⟩ := Option.map_eq_some_iff.mp hpackets
      rcases List.mem_cons.mp hp with rfl | hp
      · refine ⟨?_, rfl, by rw [hsome]; rfl⟩
        rw [sessionEncode, hsome] at hwire
        dsimp only at hwire
        split_ifs at hwire
        · split at hwire
          · cases hwire
          next hencoded =>
            cases hwire
            exact ⟨_, hencoded⟩
        · cases hwire
      · obtain ⟨hcovers, hpeer, hsession⟩ := ihpackets later hlater p hp
        exact ⟨hcovers, hpeer, hactive ▸ hsession⟩
    next =>
    refine ⟨hgeneration, hactive, ?_⟩
    intro packets hpackets
    cases hpackets

theorem keeps_append {packets : List (Bytes × Seal)} (now : Time)
    (h : ∀ p ∈ packets, p.2.Covers P p.1 ∧ p.2.peer = s.peer ∧
      s.session.active.map Session.identity = some p.2.session.identity) :
    s.Keeps P { s with queue := s.queue.append packets now } where
  follows := .refl _
  current hs := by
    refine ⟨hs.le, ?_, ?_, ?_⟩
    · intro e he
      rcases UdpTxQueue.mem_append he with hold | ⟨p, hp, rfl⟩
      · exact hs.covers e hold
      · exact (h p hp).1
    · intro e he
      rcases UdpTxQueue.mem_append he with hold | ⟨p, hp, rfl⟩
      · exact hs.peer e hold
      · exact (h p hp).2.1
    · intro heq e he
      rcases UdpTxQueue.mem_append he with hold | ⟨p, hp, rfl⟩
      · exact hs.session heq e hold
      · exact (h p hp).2.2

theorem keeps_transmit (d : Outgoing) {packets : List (Bytes × Seal)}
    (h : ∀ p ∈ packets, p.2.Covers P p.1 ∧ p.2.peer = s.peer ∧
      s.session.active.map Session.identity = some p.2.session.identity) :
    s.Keeps P (s.transmit P o d packets).1 := by
  have hexpire : s.Keeps P { s with queue := s.queue.expire d.queuedAt } :=
    .of_queue s fun _ => UdpTxQueue.mem_expire
  have hrest : ∀ p ∈ packets.drop d.sent, p.2.Covers P p.1 ∧ p.2.peer = s.peer ∧
      s.session.active.map Session.identity = some p.2.session.identity :=
    fun p hp => h p (List.mem_of_mem_drop hp)
  rw [transmit]
  dsimp only
  split
  · exact hexpire.trans (keeps_append P _ d.queuedAt h)
  split
  · exact hexpire
  refine hexpire.trans (Keeps.trans ?_ (keeps_sendAll P o _ d.probes))
  split
  · refine Keeps.trans (t := { s with queue := (s.queue.expire d.queuedAt).blocked d.queuedAt })
      (.of_queue _ fun _ he => he) ?_
    exact keeps_append P _ d.queuedAt hrest
  · exact keeps_append P _ d.queuedAt hrest
  · exact .refl _

theorem keeps_sendData (d : Outgoing) : s.Keeps P (s.sendData P o d).1 := by
  refine (s.keeps_sync P o).trans ?_
  rw [sendData]
  generalize s.syncUdpTxSession o = t
  dsimp only
  split
  · exact .refl t
  split
  · exact .refl t
  split
  · exact .refl t
  next plan _ =>
  have hexpire : t.Keeps P { t with queue := t.queue.expire d.now } :=
    .of_queue t fun _ => UdpTxQueue.mem_expire
  refine hexpire.trans ?_
  split
  · exact .refl _
  obtain ⟨hgeneration, hactive, hpackets⟩ := encodeFragments_spec P o t.peer t.session
    (fragmentLoop plan o.packetType o.session.id d.messageId d.payload plan.count 0 0)
  refine (Keeps.of_follows { t with queue := t.queue.expire d.now }
    ⟨hgeneration.ge, fun _ => hactive⟩).trans ?_
  split
  · exact .refl _
  next packets hsome =>
  refine keeps_transmit P o _ d fun p hp => ?_
  obtain ⟨hcovers, hpeer, hsession⟩ := hpackets packets hsome p hp
  exact ⟨hcovers, hpeer, hactive.trans hsession⟩

theorem keeps_flushUdpTx (now : Time) (send : Bytes → SendResult) (probes : List Packet) :
    s.Keeps P (s.flushUdpTx P o now send probes).1 := by
  refine (s.keeps_sync P o).trans ?_
  rw [flushUdpTx]
  generalize s.syncUdpTxSession o = t
  dsimp only
  have hkept : ∀ e ∈ (t.queue.flush now fun e =>
      if t.peer = none then .sent 0 else send e.wire).1.entries, e ∈ t.queue.entries :=
    UdpTxQueue.mem_flush.1
  generalize (t.queue.flush now fun e =>
    if t.peer = none then .sent 0 else send e.wire) = flushed at hkept ⊢
  refine Keeps.trans (.of_queue t fun e he => ?_) (keeps_sendAll P o _ probes)
  split at he
  · exact absurd he (by simp)
  · exact hkept e he

/-! #### Received datagrams -/

theorem keeps_sessionActivated (a : Arrival) (changed : Bool) :
    s.Keeps P (s.sessionActivated o a changed).1 := by
  have hgate : s.Keeps P { s with gate := (s.activatedGate o a changed).1 } :=
    .of_gate rfl rfl rfl rfl
  exact hgate.trans (keeps_sync P o _)

theorem keeps_activate (a : Arrival) (result : Received) : s.Keeps P (s.activate o a result).1 := by
  rw [activate]
  split
  · have hmoved : s.Keeps P (if result.updatePeer then s.setPeer a.source else (s, false)).1 := by
      split
      · exact s.keeps_setPeer P a.source
      · exact .refl s
    generalize (if result.updatePeer then s.setPeer a.source else (s, false)) = moved at hmoved ⊢
    refine hmoved.trans (Keeps.trans ?_ (keeps_sessionActivated P o _ a moved.2))
    exact .of_gate rfl rfl rfl rfl
  · exact .refl s

theorem keeps_handleAuthChallenge (a : Arrival) (payload : Bytes) :
    s.Keeps P (s.handleAuthChallenge o a payload).1 := by
  rw [handleAuthChallenge]
  split
  · exact .refl s
  split
  · exact .refl s
  dsimp only
  split
  · exact .of_gate rfl rfl rfl rfl
  split
  · exact .of_gate rfl rfl rfl rfl
  split
  · exact .of_gate rfl rfl rfl rfl
  · exact .of_gate rfl rfl rfl rfl

theorem keeps_handleRelocate (a : Arrival) (payload : Bytes) :
    s.Keeps P (s.handleRelocate P o a payload) := by
  rw [handleRelocate]
  split
  · exact .refl s
  split
  · exact .refl s
  refine ⟨follows_restart P o.session s.session a.now a.wall a.relocation, fun hs => ?_⟩
  refine ⟨hs.le.trans (follows_restart P o.session s.session a.now a.wall a.relocation).le, ?_,
    ?_, ?_⟩
  · simp
  · simp
  · simp

theorem keeps_handleRelocateBind (a : Arrival) (payload : Bytes) :
    s.Keeps P (s.handleRelocateBind P o a payload).1 := by
  rw [handleRelocateBind]
  split
  · split
    · exact .refl s
    · split
      · exact .refl s
      · exact .of_gate rfl rfl rfl rfl
  · exact .refl s

theorem keeps_handleRelocateOk (payload : Bytes) : s.Keeps P (s.handleRelocateOk payload) := by
  rw [handleRelocateOk]
  split
  · split
    · exact .of_gate rfl rfl rfl rfl
    · exact .refl s
  · exact .refl s

theorem keeps_handleConfig (a : Arrival) (payload : Bytes) :
    s.Keeps P (s.handleConfig a payload) := by
  rw [handleConfig]
  split
  · exact .refl s
  · exact .of_gate rfl rfl rfl rfl

theorem keeps_handleSessionExtension (a : Arrival) (type : PacketType) (payload : Bytes) :
    s.Keeps P (s.handleSessionExtension P o a type payload).1 := by
  unfold handleSessionExtension
  split
  · split
    · exact .of_gate rfl rfl rfl rfl
    · exact s.keeps_handleRelocateBind P o a payload
    · exact .refl s
  split
  · exact s.keeps_handleAuthChallenge P o a payload
  · split
    · exact .refl s
    · exact .of_gate rfl rfl rfl rfl
  · split
    · exact .refl s
    · exact .of_gate rfl rfl rfl rfl
  · exact s.keeps_handleRelocate P o a payload
  · exact s.keeps_handleRelocateOk P payload
  · exact s.keeps_handleConfig P a payload
  · exact .refl s

theorem keeps_handleSessionPacket (a : Arrival) (slot : Slot) (packet : Packet) :
    s.Keeps P (s.handleSessionPacket P o a slot packet).1 := by
  rw [handleSessionPacket]
  split
  · exact s.keeps_handleSessionExtension P o a packet.type packet.payload
  split
  · exact .refl s
  split
  · exact .refl s
  split
  · exact .refl s
  split
  · exact .refl s
  · exact .refl s

theorem keeps_handleUdpPacket (a : Arrival) : s.Keeps P (s.handleUdpPacket P o a).1 := by
  refine (Keeps.of_follows s (follows_receive P o.session s.session a.wire a.now a.wall
    a.random)).trans ?_
  refine (keeps_sync P o _).trans ?_
  rw [handleUdpPacket]
  generalize sessionReceive P o.session s.session a.wire a.now a.wall a.random = received
  generalize syncUdpTxSession o { s with session := received.state } = t
  dsimp only
  refine (keeps_activate P o t a received.result).trans ?_
  generalize (t.activate o a received.result).1 = u
  split
  next slot packet _ _ _ =>
    refine Keeps.trans ?_ (keeps_sendAll P o _ _)
    refine Keeps.trans ?_ (keeps_handleSessionPacket P o _ a slot packet)
    split
    · exact u.keeps_setPeer P a.source
    · exact .refl u
  · exact keeps_sendAll P o u _

theorem keeps_step (op : Op) : s.Keeps P (s.step P o op).1 := by
  cases op with
  | receive arrival => exact s.keeps_handleUdpPacket P o arrival
  | send packet => exact s.keeps_sendData P o packet
  | flush now send probes => exact s.keeps_flushUdpTx P o now send probes
  | tick now wall random probes =>
    refine (Keeps.of_follows s (follows_tick P o.session s.session now wall random)).trans ?_
    refine (keeps_sync P o _).trans ?_
    refine Keeps.trans ?_ (keeps_sendAll P o _ _)
    exact .of_gate rfl rfl rfl rfl
  | loop now childStatus =>
    refine (s.keeps_sync P o).trans ?_
    refine (Keeps.of_queue _ fun e he => ?_).trans (.of_gate rfl rfl rfl rfl)
    exact UdpTxQueue.mem_expire he
  | finished done =>
    refine Keeps.trans ?_ (keeps_sendAll P o _ _)
    exact .of_gate rfl rfl rfl rfl
  | control packets => exact s.keeps_sendAll P o packets

def after (peer : Option Peer) (ticket : Option Ticket) (ops : List Op) : Tunnel :=
  (Transition.run (step P o) (o.create peer ticket) ops).2

theorem current_after (peer : Option Peer) (ticket : Option Ticket) (ops : List Op) :
    (after P o peer ticket ops).Current P := by
  have htrace : Transition.Trace (step P o) (o.create peer ticket) _ (after P o peer ticket ops) :=
    Transition.trace_run ops
  refine htrace.invariant (fun _ s => s.Current P) ?_ ?_
  · exact ⟨le_rfl, by simp [TunnelOptions.create], by simp [TunnelOptions.create],
      by simp [TunnelOptions.create]⟩
  · intro past s op _ hs
    exact (s.keeps_step P o op).current hs

theorem flushed_mem {now : Time} {send : Bytes → SendResult} {probes : List Packet}
    {event : TunnelEvent} (h : event ∈ (s.flushUdpTx P o now send probes).2) :
    ∃ e ∈ (s.syncUdpTxSession o).queue.entries,
      event = .handed e.wire e.note true (s.syncUdpTxSession o).moment := by
  obtain ⟨e, he, rfl⟩ := List.mem_map.mp h
  exact ⟨e, UdpTxQueue.mem_flush.2 e he, rfl⟩

theorem Current.flushed {P : Primitives} {o : TunnelOptions} {s : Tunnel} (hs : s.Current P)
    {now : Time} {send : Bytes → SendResult} {probes : List Packet} {event : TunnelEvent}
    (h : event ∈ (s.flushUdpTx P o now send probes).2) :
    ∃ wire note moment active, event = .handed wire note true moment ∧
      moment.active = some active ∧ note.session.identity = active.identity ∧
      (∃ packet, active.codec.encode P packet = .ok wire) ∧ note.peer = moment.peer := by
  obtain ⟨e, he, rfl⟩ := s.flushed_mem P o h
  have hsynced := (s.keeps_sync P o).current hs
  obtain ⟨active, hactive, hidentity⟩ := Option.map_eq_some_iff.mp (hsynced.session rfl e he)
  obtain ⟨packet, hpacket⟩ := hsynced.covers e he
  refine ⟨e.wire, e.note, _, active, rfl, hactive, hidentity.symm, ⟨packet, ?_⟩, hsynced.peer e he⟩
  have hcodec : active.identity.codec = e.note.session.identity.codec := by rw [hidentity]
  exact (congrArg (fun codec => Codec.encode P codec packet) hcodec).trans hpacket

/-- At every point of every run, the next operation raises the transmit generation if it changes
the active session, and what a flush hands to the socket was encoded by the active session for the
current peer. -/
theorem flush_sends_current (peer : Option Peer) (ticket : Option Ticket) (ops : List Op) :
    (∀ op, (after P o peer ticket ops).session.transmitGeneration ≤
        ((after P o peer ticket ops).step P o op).1.session.transmitGeneration ∧
      (((after P o peer ticket ops).step P o op).1.session.active.map Session.identity ≠
          (after P o peer ticket ops).session.active.map Session.identity →
        (after P o peer ticket ops).session.transmitGeneration <
          ((after P o peer ticket ops).step P o op).1.session.transmitGeneration)) ∧
    ∀ now send probes,
      ∀ event ∈ ((after P o peer ticket ops).step P o (.flush now send probes)).2,
        ∃ wire note moment active, event = .handed wire note true moment ∧
          moment.active = some active ∧ note.session.identity = active.identity ∧
          (∃ packet, active.codec.encode P packet = .ok wire) ∧ note.peer = moment.peer := by
  refine ⟨fun op => ?_, fun now send probes event h => ?_⟩
  · have hfollows := ((after P o peer ticket ops).keeps_step P o op).follows
    refine ⟨hfollows.le, fun hchanged => lt_of_le_of_ne hfollows.le fun heq => ?_⟩
    exact hchanged (hfollows.same heq.symm)
  · exact (current_after P o peer ticket ops).flushed h

end Tunnel

end Tuntom
