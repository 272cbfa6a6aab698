import Tuntom.AuthVerdict
import Tuntom.SessionAgreement
import Tuntom.TunnelQueue

/-! The AUTH and relocation gate and the user traffic behind it. The gate is looked at where packets
enter; a closing gate must find the retry queue empty. All closings see to that except one: the
AUTH_CHALLENGE that an open client accepts. -/
namespace Tuntom
open List

namespace AuthState

theorem receiveChallenge_eq_some {a a' : AuthState} {c : AuthChallenge}
    (h : a.receiveChallenge c = some a') :
    (a.phase = .opened ∨ a.phase = .pending) ∧ a'.phase = .pending := by
  rw [receiveChallenge] at h
  split_ifs at h with hready hrepeat hopen
  · cases h
    exact ⟨.inr hrepeat.1, hrepeat.1⟩
  · cases h
    exact ⟨.inl (not_not.mp hopen), rfl⟩

theorem sendResponse_eq_some {a a' : AuthState} {id : UInt64} (h : a.sendResponse id = some a') :
    a'.phase = .waitingResult := by
  rw [sendResponse] at h
  split_ifs at h
  cases h
  rfl

theorem receiveOk_eq_some {a a' : AuthState} {id : UInt64} (h : a.receiveOk id = some a') :
    a.phase = .waitingResult := by
  rw [receiveOk] at h
  split_ifs at h with hready
  push Not at hready
  exact hready.2.1

theorem receiveFailed_eq_some {a a' : AuthState} {v : AuthFailed}
    (h : a.receiveFailed v = some a') : a.phase = .waitingResult := by
  rw [receiveFailed] at h
  split_ifs at h with hready
  push Not at hready
  exact hready.2.1

end AuthState

namespace AuthGate

variable (P : Primitives) (opts : AuthOptions) (s : AuthGate)

theorem beginSessionAuth_closed (random : Option (Block 40)) (now : Time) :
    (s.beginSessionAuth opts random now).1.authJob = s.authJob ∧
      ((s.beginSessionAuth opts random now).1.auth.allowsData = true →
        s.auth.allowsData = true) := by
  unfold beginSessionAuth
  split
  · exact ⟨rfl, id⟩
  dsimp only
  split
  · exact ⟨rfl, id⟩
  next hauth =>
  obtain ⟨-, -, rfl⟩ := sendChallenge_eq_some hauth
  exact ⟨rfl, by rintro ⟨⟩⟩

theorem sessionActivated_closed (peerChanged : Bool) (random : Option (Block 40)) (now : Time) :
    (s.sessionActivated opts peerChanged random now).1.authJob = s.authJob ∧
      ((s.sessionActivated opts peerChanged random now).1.auth.allowsData = true →
        s.auth.allowsData = true) := by
  rw [sessionActivated]
  split
  · obtain ⟨hjob, hallows⟩ := beginSessionAuth_closed opts
      { s with auth := .required, gate := s.gate + 1, reliable := [], relocatingOriginal := false }
      random now
    split
    · exact ⟨hjob, fun h => absurd (hallows h) Bool.false_ne_true⟩
    · exact ⟨rfl, by rintro ⟨⟩⟩
  split
  · exact beginSessionAuth_closed opts s random now
  · exact ⟨rfl, id⟩

theorem handleSessionExtension_closed (type : PacketType) (payload numericPeer numericHost : Bytes) :
    s.handleSessionExtension type payload numericPeer numericHost = s ∨
      s.auth.allowsData = false ∧
        (s.handleSessionExtension type payload numericPeer numericHost).auth.allowsData = false := by
  rw [handleSessionExtension]
  split
  · split
    · exact .inl rfl
    · split
      · exact .inl rfl
      next hauth =>
        obtain ⟨-, hphase, -, rfl⟩ := receiveResponse_eq_some hauth
        refine .inr ⟨?_, rfl⟩
        rw [AuthState.allowsData, hphase]
        rfl
  · exact .inl rfl

theorem tickAuthJob_authJob (done : FinishInput) : (s.tickAuthJob P opts done).1.authJob = none := by
  rw [tickAuthJob]
  split
  next hnone => exact hnone
  next job _ =>
  have hcore := verdict_core P opts { s with authJob := none } job done
  unfold finishAuthJob
  generalize verdict P opts { s with authJob := none } job done = v at hcore ⊢
  obtain ⟨s₁, allow, relocate⟩ := v
  simp only [core, Prod.mk.injEq] at hcore
  obtain ⟨-, -, hnone⟩ := hcore
  dsimp only
  split
  · split
    · exact hnone
    · split
      · exact hnone
      · unfold sendAccessConfig
        split
        · exact hnone
        · exact hnone
  · exact hnone

end AuthGate

def TunnelEvent.moment : TunnelEvent → Moment
  | .handed _ _ _ moment => moment
  | .delivered _ moment => moment

theorem activated_generation {P : Primitives} {cfg : SessionConfig} {s : Endpoint} {wire : Bytes}
    {now : Time} {wall : Int64} {random : Random} (hserver : cfg.server = true)
    (h : (sessionReceive P cfg s wire now wall random).result.activated = true) :
    s.transmitGeneration <
      (sessionReceive P cfg s wire now wall random).state.transmitGeneration := by
  obtain ⟨type, heq⟩ := sessionReceive_of_activated s now h
  have hle := (s.follows_expire now).le
  rw [heq] at h ⊢
  refine hle.trans_lt ?_
  generalize (s.expirePrevious now).expirePending now = t at h ⊢
  revert h
  rw [receiveSession]
  split
  · simp
  next slot session packet hmatch =>
  split
  · rw [receiveConfirm]
    split
    · simp
    cases slot with
    | active => simp
    | pending => exact fun _ => Nat.lt_succ_self _
    | previous => simp
  · rw [receiveConfirmAck, if_pos (.inl hserver)]
    simp
  intro hdata
  exfalso
  revert hdata
  cases slot with
  | active =>
    simp only [receiveData]
    split
    · simp
    · simp
  | pending => rintro ⟨⟩
  | previous =>
    simp only [receiveData]
    split_ifs
    · simp
    · simp
    · simp

namespace Tunnel

variable (P : Primitives) (o : TunnelOptions)

/-- Everything that `traffic_allowed` and the AUTH job depend on. -/
def passage (s : Tunnel) :
    AuthState × Option AuthJob × Bool × Option Ticket × Bool × Option Relocate :=
  (s.gate.auth, s.gate.authJob, s.gate.relocatingOriginal, s.ticket, s.relocationBound,
    s.pendingRelocate)

theorem trafficAllowed_of_passage {s t : Tunnel} (h : t.passage = s.passage) :
    t.trafficAllowed = s.trafficAllowed := by
  simp only [passage, Prod.mk.injEq] at h
  obtain ⟨hauth, -, hrelocating, hticket, hbound, hpending⟩ := h
  rw [trafficAllowed, trafficAllowed, hauth, hrelocating, hticket, hbound, hpending]

structure Guarded (s : Tunnel) : Prop where
  gated : s.queue.entries ≠ [] → s.trafficAllowed = true
  job : s.gate.authJob.isSome = true → o.session.server = true ∧ s.gate.auth.allowsData = false

namespace Guarded

variable {o : TunnelOptions} {s t : Tunnel}

theorem empty_of_closed (h : s.Guarded o) (hclosed : s.gate.auth.allowsData = false) :
    s.queue.entries = [] := by
  by_contra hqueue
  have hallowed := h.gated hqueue
  rw [trafficAllowed, hclosed] at hallowed
  cases hallowed

theorem of_passage (h : s.Guarded o) (hqueue : t.queue.entries ≠ [] → s.queue.entries ≠ [])
    (hpassage : t.passage = s.passage) : t.Guarded o where
  gated hentries := (trafficAllowed_of_passage hpassage).trans (h.gated (hqueue hentries))
  job := by
    simp only [passage, Prod.mk.injEq] at hpassage
    obtain ⟨hauth, hjob, -⟩ := hpassage
    rw [hauth, hjob]
    exact h.job

theorem of_empty (hqueue : t.queue.entries = []) (hjob : t.gate.authJob.isSome = true →
      o.session.server = true ∧ t.gate.auth.allowsData = false) : t.Guarded o :=
  ⟨fun hentries => absurd hqueue hentries, hjob⟩

theorem not_job (h : s.Guarded o) (hclient : ¬o.session.server = true) :
    ¬s.gate.authJob.isSome = true := fun hjob => hclient (h.job hjob).1

end Guarded

section Parts

variable {P o} {s : Tunnel}

theorem entries_sync (s : Tunnel) (h : s.queue.entries = []) :
    (s.syncUdpTxSession o).queue.entries = [] := by
  rw [syncUdpTxSession]
  split_ifs
  · exact UdpTxQueue.entries_discard _
  · exact h

theorem entries_sync_ne (s : Tunnel) (h : (s.syncUdpTxSession o).queue.entries ≠ []) :
    s.queue.entries ≠ [] := fun hempty => h (s.entries_sync hempty)

theorem entries_setPeer (s : Tunnel) (source : Peer) (h : s.queue.entries = []) :
    (s.setPeer source).1.queue.entries = [] := by
  simp only [setPeer]
  split_ifs
  · exact UdpTxQueue.entries_discard _
  · exact h

theorem sendAll_eq (s : Tunnel) (packets : List Packet) :
    s.sendAll P o packets = { s with session := (s.sendAll P o packets).session } := by
  rw [sendAll]
  induction packets generalizing s with
  | nil => rfl
  | cons p rest ih =>
    rw [foldl_cons]
    exact ih _

theorem Guarded.withSession (h : s.Guarded o) (session : Endpoint) :
    { s with session := session }.Guarded o := h.of_passage id rfl

theorem Guarded.sync (h : s.Guarded o) : (s.syncUdpTxSession o).Guarded o :=
  h.of_passage s.entries_sync_ne rfl

theorem Guarded.sendAll (h : s.Guarded o) (packets : List Packet) :
    (s.sendAll P o packets).Guarded o := by
  rw [sendAll_eq]
  exact h.of_passage id rfl

theorem Guarded.setPeer (h : s.Guarded o) (source : Peer) : (s.setPeer source).1.Guarded o :=
  h.of_passage (fun hentries hempty => hentries (s.entries_setPeer source hempty)) rfl

/-! #### User packets -/

theorem transmit_gated (h : s.Guarded o) (hallowed : s.trafficAllowed = true) (d : Outgoing)
    (packets : List (Bytes × Seal)) :
    (s.transmit P o d packets).1.Guarded o ∧
      ∀ event ∈ (s.transmit P o d packets).2, event.moment.allowed = true := by
  have hqueue : ∀ queue, { s with queue := queue }.Guarded o := fun _ => ⟨fun _ => hallowed, h.job⟩
  rw [transmit]
  dsimp only
  split
  · exact ⟨hqueue _, fun event hevent => absurd hevent not_mem_nil⟩
  split
  · exact ⟨hqueue _, fun event hevent => absurd hevent not_mem_nil⟩
  refine ⟨(hqueue _).sendAll d.probes, fun event hevent => ?_⟩
  obtain ⟨p, -, rfl⟩ := mem_map.mp hevent
  exact hallowed

theorem sendData_gated (h : s.Guarded o) (d : Outgoing) :
    (s.sendData P o d).1.Guarded o ∧
      ∀ event ∈ (s.sendData P o d).2, event.moment.allowed = true := by
  have hnone : ∀ t : Tunnel, t.Guarded o →
      t.Guarded o ∧ ∀ event ∈ ([] : List TunnelEvent), event.moment.allowed = true :=
    fun t ht => ⟨ht, fun event hevent => absurd hevent not_mem_nil⟩
  have hsync := h.sync
  rw [sendData]
  generalize s.syncUdpTxSession o = t at hsync ⊢
  dsimp only
  split
  · exact hnone t hsync
  next hready =>
  rw [not_or, not_not, not_not] at hready
  obtain ⟨-, hallowed⟩ := hready
  split
  · exact hnone t hsync
  split
  · exact hnone t hsync
  have hqueue : ∀ session queue, { t with session := session, queue := queue }.Guarded o :=
    fun _ _ => ⟨fun _ => hallowed, hsync.job⟩
  split
  · exact hnone _ (hqueue _ _)
  split
  · exact hnone _ (hqueue _ _)
  refine transmit_gated ?_ ?_ d _
  · exact hqueue _ _
  · exact hallowed

theorem flushUdpTx_gated (h : s.Guarded o) (now : Time) (send : Bytes → SendResult)
    (probes : List Packet) :
    (s.flushUdpTx P o now send probes).1.Guarded o ∧
      ∀ event ∈ (s.flushUdpTx P o now send probes).2, event.moment.allowed = true := by
  constructor
  · have hsync := h.sync
    rw [flushUdpTx]
    generalize s.syncUdpTxSession o = t at hsync ⊢
    dsimp only
    have hkept : ∀ e ∈ (t.queue.flush now fun e =>
        if t.peer = none then .sent 0 else send e.wire).1.entries, e ∈ t.queue.entries :=
      UdpTxQueue.mem_flush.1
    generalize (t.queue.flush now fun e =>
      if t.peer = none then .sent 0 else send e.wire) = flushed at hkept ⊢
    refine Guarded.sendAll ?_ probes
    refine hsync.of_passage ?_ rfl
    intro hentries hempty
    obtain ⟨e, he⟩ := exists_mem_of_ne_nil _ hentries
    split at he
    · exact absurd he (by simp)
    have hmem := hkept e he
    rw [hempty] at hmem
    cases hmem
  · intro event hevent
    obtain ⟨e, he, rfl⟩ := s.flushed_mem P o hevent
    exact h.sync.gated (ne_nil_of_mem he)

/-! #### Extension messages -/

theorem Guarded.handleAuthChallenge (h : s.Guarded o) (hclient : ¬o.session.server = true)
    (a : Arrival) (payload : Bytes) (hclosing : s.gate.auth.phase = .opened →
      (s.handleAuthChallenge o a payload).1.gate.auth.phase ≠ .opened →
      (s.handleAuthChallenge o a payload).1.queue.entries = []) :
    (s.handleAuthChallenge o a payload).1.Guarded o := by
  have hnojob := h.not_job hclient
  revert hclosing
  rw [Tunnel.handleAuthChallenge]
  split
  · exact fun _ => h
  split
  · exact fun _ => h
  next auth hauth =>
  obtain ⟨hbefore, hafter⟩ := AuthState.receiveChallenge_eq_some hauth
  -- a repeated challenge finds the gate closed
  have hempty : (s.gate.auth.phase = .opened → s.queue.entries = []) → s.queue.entries = [] := by
    intro hopened
    rcases hbefore with hbefore | hbefore
    · exact hopened hbefore
    refine h.empty_of_closed ?_
    rw [AuthState.allowsData, hbefore]
    rfl
  have hpending : auth.phase ≠ .opened := by
    rw [hafter]
    decide
  dsimp only
  split
  · exact fun hclosing => .of_empty (hempty fun hopened => hclosing hopened hpending)
      fun hjob => absurd hjob hnojob
  split
  · exact fun hclosing => .of_empty (hempty fun hopened => hclosing hopened hpending)
      fun hjob => absurd hjob hnojob
  split
  · exact fun hclosing => .of_empty (hempty fun hopened => hclosing hopened hpending)
      fun hjob => absurd hjob hnojob
  next hsent =>
  have hwaiting := AuthState.sendResponse_eq_some hsent
  refine fun hclosing => .of_empty (hempty fun hopened => hclosing hopened ?_)
    fun hjob => absurd hjob hnojob
  exact fun hphase => absurd (hwaiting.symm.trans hphase) (by decide)

theorem Guarded.handleRelocate (h : s.Guarded o) (a : Arrival) (payload : Bytes) :
    (s.handleRelocate P o a payload).Guarded o := by
  rw [Tunnel.handleRelocate]
  split
  · exact h
  split
  · exact h
  · exact .of_empty (UdpTxQueue.entries_discard _) h.job

theorem sendAccessConfig_gate (gate : AuthGate) (payload : Bytes) :
    (gate.sendAccessConfig payload).1.auth = gate.auth ∧
      (gate.sendAccessConfig payload).1.authJob = gate.authJob ∧
      (gate.sendAccessConfig payload).1.relocatingOriginal = gate.relocatingOriginal := by
  unfold AuthGate.sendAccessConfig
  split
  · exact ⟨rfl, rfl, rfl⟩
  · exact ⟨rfl, rfl, rfl⟩

theorem Guarded.handleRelocateBind (h : s.Guarded o) (a : Arrival) (payload : Bytes) :
    (s.handleRelocateBind P o a payload).1.Guarded o := by
  have hopens : ∀ gate : AuthGate, gate.auth = s.gate.auth → gate.authJob = s.gate.authJob →
      gate.relocatingOriginal = s.gate.relocatingOriginal → ∀ ticket bind,
      { s with ticket := ticket, relocationBound := true, acceptedRelocateBind := bind
               gate := gate }.Guarded o := by
    intro gate hauth hjob hrelocating ticket bind
    refine ⟨fun hentries => ?_, ?_⟩
    · have hallowed := h.gated hentries
      simp only [trafficAllowed, Bool.and_eq_true, Bool.or_eq_true] at hallowed ⊢
      rw [hauth, hrelocating]
      exact ⟨⟨⟨hallowed.1.1.1, .inr trivial⟩, hallowed.1.2⟩, hallowed.2⟩
    · dsimp only
      rw [hauth, hjob]
      exact h.job
  rw [Tunnel.handleRelocateBind]
  split
  · split
    · exact h
    · split
      · exact h
      · dsimp only
        split
        · exact hopens s.gate rfl rfl rfl _ _
        · obtain ⟨hauth, hjob, hrelocating⟩ := sendAccessConfig_gate s.gate _
          exact hopens _ hauth hjob hrelocating _ _
  · exact h

theorem Guarded.handleRelocateOk (h : s.Guarded o) (payload : Bytes) :
    (s.handleRelocateOk payload).Guarded o := by
  rw [Tunnel.handleRelocateOk]
  split
  · split
    · refine ⟨fun hentries => ?_, h.job⟩
      have hallowed := h.gated hentries
      simp only [trafficAllowed, Bool.and_eq_true] at hallowed ⊢
      exact ⟨⟨hallowed.1.1, rfl⟩, hallowed.2⟩
    · exact h
  · exact h

theorem Guarded.handleConfig (h : s.Guarded o) (a : Arrival) (payload : Bytes) :
    (s.handleConfig a payload).Guarded o := by
  rw [Tunnel.handleConfig]
  split
  · exact h
  · exact h.of_passage id rfl

theorem Guarded.answered (h : s.Guarded o) (hclient : ¬o.session.server = true)
    (hphase : s.gate.auth.phase = .waitingResult) (auth : AuthState) :
    { s with gate := { s.gate with auth := auth }.acknowledge .authResponse }.Guarded o := by
  refine .of_empty (h.empty_of_closed ?_) fun hjob => absurd hjob (h.not_job hclient)
  rw [AuthState.allowsData, hphase]
  rfl

theorem Guarded.handleSessionExtension (h : s.Guarded o) (a : Arrival) (type : PacketType)
    (payload : Bytes) (hclosing : ¬o.session.server = true → s.gate.auth.phase = .opened →
      (s.handleSessionExtension P o a type payload).1.gate.auth.phase ≠ .opened →
      (s.handleSessionExtension P o a type payload).1.queue.entries = []) :
    (s.handleSessionExtension P o a type payload).1.Guarded o := by
  revert hclosing
  unfold Tunnel.handleSessionExtension
  split
  next hserver =>
    intro _
    split
    · rcases s.gate.handleSessionExtension_closed .authResponse payload a.numericPeer
        a.numericHost with hsame | ⟨hbefore, hafter⟩
      · rw [hsame]
        exact h
      · exact .of_empty (h.empty_of_closed hbefore) fun _ => ⟨hserver, hafter⟩
    · exact h.handleRelocateBind a payload
    · exact h
  next hclient =>
  split
  · exact fun hclosing => h.handleAuthChallenge hclient a payload (hclosing hclient)
  · intro _
    split
    · exact h
    next hauth =>
    obtain ⟨id, -, hok⟩ := Option.bind_eq_some_iff.mp hauth
    exact h.answered hclient (AuthState.receiveOk_eq_some hok) _
  · intro _
    split
    · exact h
    next hauth =>
    obtain ⟨failed, -, hfailed⟩ := Option.bind_eq_some_iff.mp hauth
    exact h.answered hclient (AuthState.receiveFailed_eq_some hfailed) _
  · exact fun _ => h.handleRelocate a payload
  · exact fun _ => h.handleRelocateOk payload
  · exact fun _ => h.handleConfig a payload
  · exact fun _ => h

/-! #### Received datagrams -/

theorem handleSessionPacket_gated (h : s.Guarded o) (a : Arrival) (slot : Slot) (packet : Packet)
    (hclosing : ¬o.session.server = true → s.gate.auth.phase = .opened →
      (s.handleSessionPacket P o a slot packet).1.gate.auth.phase ≠ .opened →
      (s.handleSessionPacket P o a slot packet).1.queue.entries = []) :
    (s.handleSessionPacket P o a slot packet).1.Guarded o ∧
      ∀ event ∈ (s.handleSessionPacket P o a slot packet).2.2, event.moment.allowed = true := by
  have hnone : s.Guarded o ∧ ∀ event ∈ ([] : List TunnelEvent), event.moment.allowed = true :=
    ⟨h, fun event hevent => absurd hevent not_mem_nil⟩
  revert hclosing
  rw [handleSessionPacket]
  split
  · intro hclosing
    exact ⟨h.handleSessionExtension a packet.type packet.payload hclosing,
      fun event hevent => absurd hevent not_mem_nil⟩
  intro _
  split
  · exact hnone
  next hallowed =>
  split
  · exact hnone
  split
  · exact hnone
  split
  · exact hnone
  refine ⟨h, fun event hevent => ?_⟩
  rw [mem_singleton.mp hevent]
  exact not_not.mp hallowed

theorem passage_of_frame {gate : AuthGate} (h : AuthGate.Frame s.gate gate) :
    { s with gate := gate }.passage = s.passage := by
  have hcore := h.core
  have hingress := h.ingress
  simp only [AuthGate.core, AuthGate.ingress, Prod.mk.injEq] at hcore hingress
  simp only [passage, hcore.1, hcore.2.2, hingress.2]

theorem activatedGate_client (hclient : ¬o.session.server = true) (a : Arrival) (changed : Bool) :
    AuthGate.Frame s.gate (s.activatedGate o a changed).1 := by
  rw [activatedGate, if_neg hclient]
  split
  · exact AuthGate.frame_sendReliable o.auth s.gate .relocateBind _ a.now
  · exact .refl _

theorem activatedGate_server (hserver : o.session.server = true) (a : Arrival) (changed : Bool) :
    (s.activatedGate o a changed).1.authJob = s.gate.authJob ∧
      ((s.activatedGate o a changed).1.auth.allowsData = true → s.gate.auth.allowsData = true) := by
  rw [activatedGate, if_pos hserver]
  split_ifs
  · exact AuthGate.sessionActivated_closed o.auth s.gate changed a.challenge a.now
  · exact AuthGate.beginSessionAuth_closed o.auth s.gate a.challenge a.now
  · exact ⟨rfl, id⟩

/-- A client's gate takes no notice of an activation; a server's may close, so its queue must be
empty. -/
theorem Guarded.sessionActivated (h : s.Guarded o) (a : Arrival) (changed : Bool)
    (hempty : o.session.server = true → s.queue.entries = []) :
    (s.sessionActivated o a changed).1.Guarded o ∧
      (¬o.session.server = true → (s.sessionActivated o a changed).1.gate.auth = s.gate.auth) := by
  by_cases hserver : o.session.server = true
  · refine ⟨.of_empty (entries_sync _ (hempty hserver)) fun hjob => ?_, fun hclient =>
      absurd hserver hclient⟩
    obtain ⟨hsame, hallows⟩ := activatedGate_server (s := s) hserver a changed
    have hjob' : (s.activatedGate o a changed).1.authJob.isSome = true := hjob
    rw [hsame] at hjob'
    have hclosed := (h.job hjob').2
    refine ⟨hserver, Bool.eq_false_iff.mpr fun hopen => ?_⟩
    rw [hallows hopen] at hclosed
    cases hclosed
  have hpassage := passage_of_frame (activatedGate_client (s := s) hserver a changed)
  have hgate : { s with gate := (s.activatedGate o a changed).1 }.Guarded o :=
    h.of_passage id hpassage
  exact ⟨hgate.sync, fun _ => congrArg Prod.fst hpassage⟩

theorem Guarded.activate (h : s.Guarded o) (a : Arrival) (result : Received)
    (hempty : o.session.server = true → result.activated = true → s.queue.entries = []) :
    (s.activate o a result).1.Guarded o ∧
      (¬o.session.server = true → (s.activate o a result).1.gate.auth = s.gate.auth) := by
  rw [Tunnel.activate]
  split
  next hactivated =>
    have hmoved : (if result.updatePeer then s.setPeer a.source else (s, false)).1.Guarded o ∧
        (s.queue.entries = [] →
          (if result.updatePeer then s.setPeer a.source else (s, false)).1.queue.entries = []) ∧
        (if result.updatePeer then s.setPeer a.source else (s, false)).1.gate = s.gate := by
      split
      · exact ⟨h.setPeer a.source, s.entries_setPeer a.source, rfl⟩
      · exact ⟨h, id, rfl⟩
    generalize (if result.updatePeer then s.setPeer a.source else (s, false)) = moved at hmoved ⊢
    obtain ⟨hguarded, hqueue, hgate⟩ := hmoved
    rw [← hgate]
    refine Guarded.sessionActivated ?_ a moved.2 fun hserver => hqueue (hempty hserver hactivated)
    exact hguarded.of_passage id rfl
  · exact ⟨h, fun _ => rfl⟩

theorem entries_of_activated (h : s.Current P) (hserver : o.session.server = true) (a : Arrival)
    (hactivated : (sessionReceive P o.session s.session a.wire a.now a.wall
      a.random).result.activated = true) :
    ({ s with session := (sessionReceive P o.session s.session a.wire a.now a.wall
      a.random).state }.syncUdpTxSession o).queue.entries = [] := by
  have hnew := h.le.trans_lt (activated_generation hserver hactivated)
  rw [syncUdpTxSession, if_pos (.inl hnew.ne')]
  exact UdpTxQueue.entries_discard _

theorem handleUdpPacket_gated (h : s.Guarded o) (hcurrent : s.Current P) (a : Arrival)
    (hclosing : s.gate.auth.phase = .opened →
      (s.handleUdpPacket P o a).1.gate.auth.phase ≠ .opened →
      (s.handleUdpPacket P o a).1.queue.entries = []) :
    (s.handleUdpPacket P o a).1.Guarded o ∧
      ∀ event ∈ (s.handleUdpPacket P o a).2, event.moment.allowed = true := by
  have hempty := fun hserver : o.session.server = true => entries_of_activated hcurrent hserver a
  have hsync : ({ s with session := (sessionReceive P o.session s.session a.wire a.now a.wall
      a.random).state }.syncUdpTxSession o).Guarded o := (h.withSession _).sync
  have hauth : ({ s with session := (sessionReceive P o.session s.session a.wire a.now a.wall
      a.random).state }.syncUdpTxSession o).gate.auth = s.gate.auth := rfl
  revert hclosing
  rw [handleUdpPacket, ← hauth]
  generalize sessionReceive P o.session s.session a.wire a.now a.wall a.random = received
    at hempty hsync ⊢
  generalize syncUdpTxSession o { s with session := received.state } = t at hempty hsync ⊢
  dsimp only
  obtain ⟨hguarded, hclient⟩ := hsync.activate a received.result hempty
  generalize (t.activate o a received.result).1 = u at hguarded hclient ⊢
  split
  next slot packet _ _ _ =>
    have hmoved : (if o.session.server = true ∧ received.result.updatePeer = true then
        (u.setPeer a.source).1 else u).Guarded o ∧
        (if o.session.server = true ∧ received.result.updatePeer = true then
          (u.setPeer a.source).1 else u).gate = u.gate := by
      split
      · exact ⟨hguarded.setPeer a.source, rfl⟩
      · exact ⟨hguarded, rfl⟩
    generalize (if o.session.server = true ∧ received.result.updatePeer = true then
      (u.setPeer a.source).1 else u) = v at hmoved ⊢
    intro hclosing
    rw [sendAll_eq] at hclosing
    obtain ⟨hpacket, hevents⟩ := handleSessionPacket_gated (P := P) hmoved.1 a slot packet
      fun hnot hopened => hclosing (by rw [← hclient hnot, ← hmoved.2]; exact hopened)
    exact ⟨hpacket.sendAll _, hevents⟩
  · exact fun _ => ⟨hguarded.sendAll _, fun event hevent => absurd hevent not_mem_nil⟩

theorem Guarded.tickAuthJob (h : s.Guarded o) (done : FinishInput) :
    { s with gate := (s.gate.tickAuthJob P o.auth done).1 }.Guarded o := by
  by_cases hjob : s.gate.authJob.isSome = true
  · refine .of_empty (h.empty_of_closed (h.job hjob).2) fun hafter => ?_
    have hnone := s.gate.tickAuthJob_authJob P o.auth done
    have hsome : (s.gate.tickAuthJob P o.auth done).1.authJob.isSome = true := hafter
    rw [hnone] at hsome
    cases hsome
  have hnone : s.gate.authJob = none := Option.not_isSome_iff_eq_none.mp hjob
  have hsame : (s.gate.tickAuthJob P o.auth done).1 = s.gate := by
    unfold AuthGate.tickAuthJob
    rw [hnone]
  rw [hsame]
  exact h

/-- Every step keeps the queue behind the gate, provided an AUTH state that leaves `open` leaves an
empty queue. -/
theorem step_gated (h : s.Guarded o) (hcurrent : s.Current P) (op : Op)
    (hclosing : s.gate.auth.phase = .opened → (s.step P o op).1.gate.auth.phase ≠ .opened →
      (s.step P o op).1.queue.entries = []) :
    (s.step P o op).1.Guarded o ∧ ∀ event ∈ (s.step P o op).2, event.moment.allowed = true := by
  cases op with
  | receive arrival => exact handleUdpPacket_gated h hcurrent arrival hclosing
  | send packet => exact sendData_gated h packet
  | flush now send probes => exact flushUdpTx_gated h now send probes
  | tick now wall random probes =>
    refine ⟨Guarded.sendAll ?_ _, fun event hevent => absurd hevent not_mem_nil⟩
    have hticked : ({ s with session := (sessionTick P o.session s.session now wall
        random).state }.syncUdpTxSession o).Guarded o := (h.withSession _).sync
    exact hticked.of_passage id (passage_of_frame (AuthGate.frame_tickExtensions _ now _))
  | loop now childStatus =>
    refine ⟨?_, fun event hevent => absurd hevent not_mem_nil⟩
    refine h.sync.of_passage ?_
      (passage_of_frame (AuthGate.frame_reapChildren childStatus s.gate.children s.gate))
    intro hentries
    obtain ⟨e, he⟩ := exists_mem_of_ne_nil _ hentries
    exact ne_nil_of_mem (UdpTxQueue.mem_expire he)
  | finished done =>
    refine ⟨Guarded.sendAll ?_ _, fun event hevent => absurd hevent not_mem_nil⟩
    exact h.tickAuthJob done
  | control packets =>
    exact ⟨h.sendAll packets, fun event hevent => absurd hevent not_mem_nil⟩

end Parts

/-! ### Runs -/

theorem after_append (peer : Option Peer) (ticket : Option Ticket) (ops : List Op) (op : Op) :
    after P o peer ticket (ops ++ [op]) = ((after P o peer ticket ops).step P o op).1 := by
  rw [after, Transition.run_append_singleton]
  rfl

/-- Every step of the run in which the AUTH state leaves `open`, which is the AUTH_CHALLENGE that
an open client accepts, leaves the retry queue empty. -/
def ChallengedEmpty (peer : Option Peer) (ticket : Option Ticket) (ops : List Op) : Prop :=
  ∀ k < ops.length, (after P o peer ticket (ops.take k)).gate.auth.phase = .opened →
    (after P o peer ticket (ops.take (k + 1))).gate.auth.phase ≠ .opened →
    (after P o peer ticket (ops.take (k + 1))).queue.entries = []

instance (peer : Option Peer) (ticket : Option Ticket) (ops : List Op) :
    Decidable (ChallengedEmpty P o peer ticket ops) :=
  inferInstanceAs (Decidable (∀ k < ops.length, _ → _ → _))

variable {P o}

theorem ChallengedEmpty.init {peer : Option Peer} {ticket : Option Ticket} {ops : List Op} {op : Op}
    (h : ChallengedEmpty P o peer ticket (ops ++ [op])) : ChallengedEmpty P o peer ticket ops := by
  intro k hk
  have hstep := h k (by rw [length_append]; omega)
  rw [take_append_of_le_length hk.le, take_append_of_le_length hk] at hstep
  exact hstep

theorem guarded_after {peer : Option Peer} {ticket : Option Ticket} {ops : List Op}
    (h : ChallengedEmpty P o peer ticket ops) :
    (after P o peer ticket ops).Guarded o ∧
      ∀ call ∈ (Transition.run (step P o) (o.create peer ticket) ops).1,
        ∀ event ∈ call.2, event.moment.allowed = true := by
  induction ops using List.reverseRecOn with
  | nil =>
    have hstart : (o.create peer ticket).Guarded o :=
      .of_empty rfl fun hjob => absurd hjob Bool.false_ne_true
    exact ⟨hstart, fun call hcall => absurd hcall not_mem_nil⟩
  | append_singleton ops op ih =>
    obtain ⟨hguarded, hpast⟩ := ih h.init
    have hlast := h ops.length (by simp)
    rw [take_left, take_of_length_le (by simp), after_append] at hlast
    obtain ⟨hnext, hevents⟩ :=
      step_gated hguarded (current_after P o peer ticket ops) op hlast
    rw [after_append, Transition.run_append_singleton]
    refine ⟨hnext, fun call hcall => ?_⟩
    rcases mem_cons.mp hcall with rfl | hcall
    · exact hevents
    · exact hpast call hcall

section Samples

def sampleOptions : TunnelOptions where
  session := sampleConfig false
  auth := { tunnelId := 7, masterKey := Vector.replicate 16 1 }
  authCommand := false
  authResponseCommand := false
  authUsername := []
  relay := false
  pmtudAuto := false
  logicalLimit := 1500
  localPort := 0

def samplePeer : Peer := ⟨[192, 0, 2, 1], 5000⟩

def sampleArrival (wire : Bytes) (now : Time) : Op :=
  .receive
    { wire := wire, source := samplePeer, numericPeer := [], numericHost := [], now := now
      wall := 1000, random := {}, challenge := none, answer := none, configured := none
      relocation := {}, completed := none, probes := [] }

/-- The client completes the handshake, and the socket does not take its first packet. -/
def sampleBlocked : List Op :=
  [.tick 0 1000 (sampleRandom 2) [], sampleArrival (sampleResponse checksumPrimitives) 1,
    sampleArrival sampleConfirmed.2.received.reply 3,
    .send { payload := [1, 2, 3], maximum := 1000, messageId := 1, now := 3, queuedAt := 3
            sent := 0, error := some .again, probes := [] }]

def sampleChallenge : Bytes :=
  ((sessionEncode checksumPrimitives (sampleConfig true) sampleConfirmed.1.server
    { type := .authChallenge
      payload := AuthChallenge.encode { id := 5, lifetimeSeconds := 10, challenge := [1] } }
    ).result.toOption.bind id).getD []

def sampleFlush : Op := .flush 2000000 (fun wire => .sent wire.length) []

def sampleEvents (ops : List Op) : List TunnelEvent :=
  (Transition.run (step checksumPrimitives sampleOptions)
    (sampleOptions.create (some samplePeer) none) ops).1.flatMap Prod.snd

end Samples

end Tunnel

end Tuntom
