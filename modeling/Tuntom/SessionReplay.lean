import Tuntom.SessionNonce

/-! INIT replay safety of the server. An INIT leads to at most one candidate; the
candidate waits until it expires or is confirmed; and a retry of its INIT gets at
most the cached RESPONSE, 200 ms apart. -/
namespace Tuntom
open List

section Pending
variable {P : Primitives} {cfg : SessionConfig}

inductive PendingStep (P : Primitives) (s : Endpoint) (wire : Bytes) (now : Time) :
    Outcome Received → Prop
  /-- Nothing about the candidate changes; a reply belongs to an encoding. -/
  | kept {o} (hpending : o.state.pending = s.pending) (huntil : o.state.pendingUntil = s.pendingUntil)
      (hresend : o.state.responseResendAfter = s.responseResendAfter)
      (hreply : o.events = [] → o.result.reply = []) : PendingStep P s wire now o
  /-- The cached RESPONSE is sent again. -/
  | resent {o} (session) (hpending : s.pending = some session) (hinit : session.init = wire)
      (hafter : s.responseResendAfter ≤ now) (hkept : o.state.pending = s.pending)
      (huntil : o.state.pendingUntil = s.pendingUntil)
      (hresend : o.state.responseResendAfter = now + responseResendInterval)
      (hevents : o.events = []) (hreply : o.result.reply = session.response) :
      PendingStep P s wire now o
  /-- A candidate is derived. -/
  | derived {o} (session) (hnone : s.pending = none) (hpending : o.state.pending = some session)
      (hinit : session.init = wire) (hevents : .derived session ∈ o.events) :
      PendingStep P s wire now o
  /-- The candidate becomes the active session. -/
  | promoted {o} (session packet) (hpending : s.pending = some session)
      (hdecoded : session.codec.decode P wire = some packet) (htype : packet.type = .confirm)
      (hexchange : packet.messageId = session.exchange) (hnone : o.state.pending = none)
      (hactive : o.state.active = some session) (hevents : .promoted session ∈ o.events) :
      PendingStep P s wire now o

variable {result : Received} {wire : Bytes} {session : Session}

theorem PendingStep.quiet {s s' : Endpoint} {now : Time} (hpending : s'.pending = s.pending)
    (huntil : s'.pendingUntil = s.pendingUntil)
    (hresend : s'.responseResendAfter = s.responseResendAfter) (hreply : result.reply = []) :
    PendingStep P s wire now ⟨s', result, []⟩ :=
  .kept hpending huntil hresend fun _ => hreply

variable (s : Endpoint) (now : Time)

theorem repeatedInit_pending (wire : Bytes) (hresult : result.reply = []) :
    PendingStep P s wire now (repeatedInit s wire now result) := by
  rw [repeatedInit]
  split
  · next session hpending =>
    split
    · next hinit =>
      split
      · exact .quiet rfl rfl rfl hresult
      · next hafter =>
        exact .resent session hpending hinit (not_lt.mp hafter) rfl rfl rfl rfl rfl
    · exact .quiet rfl rfl rfl hresult
  · exact .quiet rfl rfl rfl hresult

theorem respond_pending (position : ℕ) (wire : Bytes) (packet : Packet) (random : Random)
    (hresult : result.reply = []) (hpending : s.pending = none) :
    PendingStep P s wire now (respond P cfg s position wire packet now random result) := by
  rw [respond]
  split
  · split
    · exact .quiet rfl rfl rfl hresult
    · exact .derived _ hpending rfl rfl (mem_cons_of_mem _ mem_cons_self)
  · exact .quiet rfl rfl rfl hresult

/-- A step of a state that differs only in its nonce indexes. -/
theorem PendingStep.of_indexes {s s' : Endpoint} {now : Time} {o : Outcome Received}
    (h : PendingStep P s' wire now o) (hpending : s'.pending = s.pending)
    (huntil : s'.pendingUntil = s.pendingUntil)
    (hresend : s'.responseResendAfter = s.responseResendAfter) : PendingStep P s wire now o := by
  cases h with
  | kept h1 h2 h3 h4 => exact .kept (h1.trans hpending) (h2.trans huntil) (h3.trans hresend) h4
  | resent session h1 h2 h3 h4 h5 h6 h7 h8 =>
    exact .resent session (hpending.symm.trans h1) h2 (hresend ▸ h3) (h4.trans hpending)
      (h5.trans huntil) h6 h7 h8
  | derived session h1 h2 h3 h4 => exact .derived session (hpending.symm.trans h1) h2 h3 h4
  | promoted session packet h1 h2 h3 h4 h5 h6 h7 =>
    exact .promoted session packet (hpending.symm.trans h1) h2 h3 h4 h5 h6 h7

theorem receiveInit_pending (wire : Bytes) (packet : Packet) (wall : Int64) (random : Random) :
    PendingStep P s wire now (receiveInit P cfg s wire packet now wall random) := by
  rw [receiveInit]
  dsimp only
  split
  · exact .quiet rfl rfl rfl rfl
  generalize hs : purgeNonces { s with wallHighWater := max s.wallHighWater wall.toInt.toNat }
    (max s.wallHighWater wall.toInt.toNat) = s₁
  have hpending : s₁.pending = s.pending := hs ▸ rfl
  have huntil : s₁.pendingUntil = s.pendingUntil := hs ▸ rfl
  have hresend : s₁.responseResendAfter = s.responseResendAfter := hs ▸ rfl
  refine PendingStep.of_indexes ?_ hpending huntil hresend
  split
  · exact repeatedInit_pending s₁ now wire rfl
  split
  · exact .quiet rfl rfl rfl rfl
  split
  · exact .quiet rfl rfl rfl rfl
  split
  · exact .quiet rfl rfl rfl rfl
  next hnone =>
  have hnone' : s₁.pending = none := by simpa [reserveNonce] using hnone
  exact (respond_pending (reserveNonce s₁ (expiryEntry cfg packet)) now _ wire packet random rfl
    hnone').of_indexes rfl rfl rfl

theorem receiveConfirm_pending {slot : Slot} {packet : Packet}
    (hslot : s.slot slot = some session) (hdecoded : session.codec.decode P wire = some packet)
    (htype : packet.type = .confirm) :
    PendingStep P s wire now (receiveConfirm P cfg s slot session packet now) := by
  rw [receiveConfirm]
  split
  · exact .quiet rfl rfl rfl rfl
  next hguard =>
  push Not at hguard
  cases slot with
  | active => exact .kept rfl rfl rfl (fun h => by cases h)
  | pending =>
    exact .promoted session packet hslot hdecoded htype hguard.2 rfl rfl mem_cons_self
  | previous => exact .quiet rfl rfl rfl rfl

theorem receiveSession_pending (hserver : cfg.server) {type : PacketType}
    (htype : PacketType.ofByte (wire.headD 0 &&& 0x1f) = some type) :
    PendingStep P s wire now (receiveSession P cfg s type wire now) := by
  rw [receiveSession]
  split
  · exact .quiet rfl rfl rfl rfl
  next slot session packet hmatch =>
  obtain ⟨hslot, -, hdecoded⟩ := matchSession_cases hmatch
  have htype' : packet.type = type := by
    have := Codec.type_of_decode hdecoded
    rw [htype] at this
    exact (Option.some.inj this).symm
  split
  · exact receiveConfirm_pending s now hslot hdecoded htype'
  · rw [receiveConfirmAck, if_pos (.inl hserver)]
    exact .quiet rfl rfl rfl rfl
  cases slot with
  | active =>
    simp only [receiveData]
    split <;> exact .quiet rfl rfl rfl rfl
  | pending => exact .quiet rfl rfl rfl rfl
  | previous =>
    simp only [receiveData]
    split
    · exact .quiet rfl rfl rfl rfl
    · split <;> exact .quiet rfl rfl rfl rfl

theorem sessionReceive_pending (hserver : cfg.server) (wire : Bytes) (wall : Int64)
    (random : Random) :
    PendingStep P ((s.expirePrevious now).expirePending now) wire now
      (sessionReceive P cfg s wire now wall random) := by
  rw [sessionReceive]
  generalize (s.expirePrevious now).expirePending now = s
  split
  · exact .quiet rfl rfl rfl rfl
  split
  · exact .quiet rfl rfl rfl rfl
  next type htype =>
  split
  · exact .quiet rfl rfl rfl rfl
  split
  · rw [receiveHandshake, if_pos hserver]
    split
    · exact .quiet rfl rfl rfl rfl
    split
    · exact .quiet rfl rfl rfl rfl
    split
    · exact .quiet rfl rfl rfl rfl
    exact receiveInit_pending s now wire _ wall random
  · exact receiveSession_pending s now hserver htype

/-- A datagram that decodes as INIT reaches `receive_init`, or stops at the suite. -/
theorem sessionReceive_init (hserver : cfg.server) {packet : Packet}
    (hdecoded : (handshakeCodec P cfg).decode P wire = some packet) (htype : packet.type = .init)
    (wall : Int64) (random : Random) :
    sessionReceive P cfg s wire now wall random =
        ⟨((s.expirePrevious now).expirePending now).suiteMismatched, {}, []⟩ ∨
      sessionReceive P cfg s wire now wall random =
        receiveInit P cfg ((s.expirePrevious now).expirePending now) wire packet now wall random := by
  have hbyte := Codec.type_of_decode hdecoded
  rw [htype] at hbyte
  have hlen : ¬ wire.length < protocolHeaderV5Size := by
    rw [← (Codec.layout_of_decode hdecoded).2, Codec.length_layout]
    have := Codec.protocolHeaderV5Size_le packet
    omega
  have hsplit : sessionReceive P cfg s wire now wall random =
      receiveHandshake P cfg ((s.expirePrevious now).expirePending now) .init wire now wall
        random := by
    simp only [sessionReceive, hlen, if_false, hbyte]
    rw [if_neg (by simp [hserver]), if_pos (show PacketType.init.handshake = true from rfl)]
  rw [hsplit, receiveHandshake, if_pos hserver, if_neg (by simp)]
  simp only [hdecoded, hserver, if_true]
  split
  · exact .inl rfl
  · exact .inr rfl

/-! ### INITs that find a candidate -/

/-- The outcome of an INIT while `session` waits for its CONFIRM. -/
structure InitRetry (s : Endpoint) (session : Session) (now : Time) (o : Outcome Received) :
    Prop where
  events : o.events = []
  pending : o.state.pending = some session
  pendingUntil : o.state.pendingUntil = s.pendingUntil
  active : o.state.active = s.active
  previous : o.state.previous = s.previous
  generation : o.state.transmitGeneration = s.transmitGeneration
  peer : o.result.updatePeer = false
  activated : o.result.activated = false
  reply : o.result.reply = [] ∧ o.state.responseResendAfter = s.responseResendAfter ∨
    o.result.reply = session.response ∧ s.responseResendAfter ≤ now ∧
      o.state.responseResendAfter = now + responseResendInterval

variable {s now}

theorem InitRetry.silent {s' : Endpoint} (hpending : s.pending = some session)
    (hs : s'.pending = s.pending) (huntil : s'.pendingUntil = s.pendingUntil)
    (hactive : s'.active = s.active) (hprevious : s'.previous = s.previous)
    (hgeneration : s'.transmitGeneration = s.transmitGeneration)
    (hresend : s'.responseResendAfter = s.responseResendAfter)
    (hresult : result.updatePeer = false ∧ result.activated = false ∧ result.reply = []) :
    InitRetry s session now ⟨s', result, []⟩ where
  events := rfl
  pending := hs.trans hpending
  pendingUntil := huntil
  active := hactive
  previous := hprevious
  generation := hgeneration
  peer := hresult.1
  activated := hresult.2.1
  reply := .inl ⟨hresult.2.2, hresend⟩

theorem receiveInit_retry (hpending : s.pending = some session) (wire : Bytes) (packet : Packet)
    (wall : Int64) (random : Random) :
    InitRetry s session now (receiveInit P cfg s wire packet now wall random) := by
  rw [receiveInit]
  dsimp only
  split
  · exact .silent hpending rfl rfl rfl rfl rfl rfl ⟨rfl, rfl, rfl⟩
  split
  · have hs : (purgeNonces { s with wallHighWater := max s.wallHighWater wall.toInt.toNat }
        (max s.wallHighWater wall.toInt.toNat)).pending = some session := hpending
    simp only [repeatedInit, hs]
    split
    · split
      · exact .silent hpending rfl rfl rfl rfl rfl rfl ⟨rfl, rfl, rfl⟩
      · next hafter =>
        exact { events := rfl, pending := rfl, pendingUntil := rfl, active := rfl
                previous := rfl, generation := rfl, peer := rfl, activated := rfl
                reply := .inr ⟨rfl, not_lt.mp hafter, rfl⟩ }
    · exact .silent hpending rfl rfl rfl rfl rfl rfl ⟨rfl, rfl, rfl⟩
  split
  · exact .silent hpending rfl rfl rfl rfl rfl rfl ⟨rfl, rfl, rfl⟩
  split
  · exact .silent hpending rfl rfl rfl rfl rfl rfl ⟨rfl, rfl, rfl⟩
  -- the nonce is new to the index, but the candidate keeps its place
  rw [if_pos (by change s.pending.isSome; simp [hpending])]
  exact .silent hpending rfl rfl rfl rfl rfl rfl ⟨rfl, rfl, rfl⟩

end Pending

/-! ### Runs of a server -/

def SessionOp.time : SessionOp → Option Time
  | .begin now _ _ | .restart now _ _ | .tick now _ _ | .receive _ now _ _ => some now
  | .encode _ => none

section Runs
variable {P : Primitives} {cfg : SessionConfig}

variable {op : SessionOp} {s : Endpoint} {session : Session}

theorem serverStep_quiet (hserver : cfg.server) (s : Endpoint) (hop : op.input = none) :
    ((sessionStep P cfg s op).1.pending = s.pending ∨
        (sessionStep P cfg s op).1.pending = none ∧ ∃ now, op.time = some now ∧
          s.pendingUntil ≤ now) ∧
      (sessionStep P cfg s op).1.responseResendAfter = s.responseResendAfter ∧
      derivations (sessionStep P cfg s op).2.events = [] := by
  cases op with
  | begin now wall random => simp [sessionStep, sessionBegin, hserver, derivations]
  | restart now wall random => simp [sessionStep, sessionRestart, hserver, derivations]
  | tick now wall random =>
    have htick : sessionTick P cfg s now wall random =
        ⟨(s.expirePrevious now).expirePending now, [], []⟩ := by
      rw [sessionTick, if_pos hserver]
    simp only [sessionStep, htick, SessionOp.time, Option.some.injEq, exists_eq_left']
    exact ⟨expire_pending s now, expire_responseResendAfter s now, rfl⟩
  | receive wire now wall random => cases hop
  | encode packet =>
    simp only [sessionStep, sessionEncode]
    split
    · exact ⟨.inl rfl, rfl, rfl⟩
    split
    · split <;> exact ⟨.inl rfl, rfl, rfl⟩
    · exact ⟨.inl rfl, rfl, rfl⟩

theorem pending_leaves (hserver : cfg.server) (hpending : s.pending = some session)
    (hgone : (sessionStep P cfg s op).1.pending ≠ some session) :
    (∃ now, op.time = some now ∧ s.pendingUntil ≤ now) ∨
      ∃ wire now wall random packet, op = .receive wire now wall random ∧
        session.codec.decode P wire = some packet ∧ packet.type = .confirm ∧
        packet.messageId = session.exchange ∧
        (sessionStep P cfg s op).1.active = some session := by
  cases hop : op.input with
  | none =>
    rcases (serverStep_quiet hserver s hop).1 with hkept | ⟨-, hexpired⟩
    · exact absurd (hkept.trans hpending) hgone
    · exact .inl hexpired
  | some wire =>
    cases op with
    | receive wire now wall random =>
      rcases expire_pending s now with hkept | ⟨-, hexpired⟩
      · have hpending' := hkept.trans hpending
        cases sessionReceive_pending s now hserver wire wall random with
        | kept h => exact absurd (h.trans hpending') hgone
        | resent σ h _ _ hσ => exact absurd (hσ.trans hpending') hgone
        | derived σ h =>
          rw [hpending'] at h
          cases h
        | promoted σ packet h hdecoded htype hexchange _ hactive =>
          rw [hpending'] at h
          cases h
          exact .inr ⟨wire, now, wall, random, packet, rfl, hdecoded, htype, hexchange, hactive⟩
      · exact .inl ⟨now, rfl, hexpired⟩
    | _ => cases hop

theorem pending_enters (hserver : cfg.server)
    (hpending : (sessionStep P cfg s op).1.pending = some session)
    (hnew : s.pending ≠ some session) :
    op.input = some session.init ∧ .derived session ∈ (sessionStep P cfg s op).2.events := by
  cases hop : op.input with
  | none =>
    rcases (serverStep_quiet hserver s hop).1 with hkept | ⟨hnone, -⟩
    · exact absurd (hkept.symm.trans hpending) hnew
    · rw [hnone] at hpending
      cases hpending
  | some wire =>
    cases op with
    | receive wire now wall random =>
      cases hop
      have hold : ((s.expirePrevious now).expirePending now).pending ≠ some session :=
        fun h => hnew (expire_pending_some h)
      cases sessionReceive_pending s now hserver wire wall random with
      | kept h | resent σ _ _ _ h => exact absurd (h.symm.trans hpending) hold
      | derived σ _ h hinit hevents =>
        cases h.symm.trans hpending
        exact ⟨by rw [hinit], hevents⟩
      | promoted σ packet _ _ _ _ h =>
        cases h.symm.trans hpending
    | _ => cases hop

/-- A call that answers the datagram `wire` at time `t` without encoding anything:
on a server, a cached RESPONSE. -/
def Resends (call : SessionOp × Report) (wire : Bytes) (t : Time) : Prop :=
  (∃ wall random, call.1 = .receive wire t wall random) ∧ call.2.output ≠ [] ∧ call.2.events = []

theorem resends_cases (hserver : cfg.server) {wire : Bytes} {now : Time}
    (h : Resends (op, (sessionStep P cfg s op).2) wire now) :
    ∃ session, s.pending = some session ∧ session.init = wire ∧ s.responseResendAfter ≤ now ∧
      (sessionStep P cfg s op).1.pending = some session ∧
      (sessionStep P cfg s op).1.responseResendAfter = now + responseResendInterval ∧
      (sessionStep P cfg s op).2.output = session.response := by
  obtain ⟨⟨wall, random, rfl⟩, houtput, hevents⟩ := h
  cases sessionReceive_pending s now hserver wire wall random with
  | kept _ _ _ hreply => exact absurd (hreply hevents) houtput
  | resent session hpending hinit hafter hstays _ hresend _ hreply =>
    rw [expire_responseResendAfter] at hafter
    exact ⟨session, expire_pending_some hpending, hinit, hafter, hstays.trans hpending, hresend, hreply⟩
  | derived session _ _ _ hmem =>
    rw [show (sessionReceive P cfg s wire now wall random).events = [] from hevents] at hmem
    cases hmem
  | promoted session packet _ _ _ _ _ _ hmem =>
    rw [show (sessionReceive P cfg s wire now wall random).events = [] from hevents] at hmem
    cases hmem

theorem responseResendAfter_mono (hserver : cfg.server)
    (hafter : (sessionStep P cfg s op).1.pending = some session)
    (hold : .derived session ∉ (sessionStep P cfg s op).2.events) :
    s.responseResendAfter ≤ (sessionStep P cfg s op).1.responseResendAfter := by
  cases hop : op.input with
  | none => exact (serverStep_quiet hserver s hop).2.1.ge
  | some wire =>
    cases op with
    | receive wire now wall random =>
      rw [← expire_responseResendAfter s now]
      cases sessionReceive_pending s now hserver wire wall random with
      | kept _ _ h => exact h.ge
      | resent σ _ _ hle _ _ h =>
        refine (hle.trans ?_).trans h.ge
        exact le_add_of_nonneg_right (by decide)
      | derived σ _ h _ hevents =>
        cases h.symm.trans hafter
        exact absurd hevents hold
      | promoted σ packet _ _ _ _ h =>
        cases h.symm.trans hafter
    | _ => cases hop

structure ResendInv (past : List (SessionOp × Report)) (s : Endpoint) : Prop where
  known : ∀ call ∈ past, ∀ wire t, Resends call wire t →
    wire ∈ (derivations (eventLog past)).map Session.init
  spaced : ∀ call ∈ past, ∀ wire t, Resends call wire t → ∀ session, s.pending = some session →
    session.init = wire → t + responseResendInterval ≤ s.responseResendAfter

theorem mem_derivations {log : List SessionEvent} :
    session ∈ derivations log ↔ .derived session ∈ log := by
  simp only [derivations, mem_filterMap]
  constructor
  · rintro ⟨event, hmem, heq⟩
    cases event <;> simp_all
  · exact fun hmem => ⟨_, hmem, rfl⟩

theorem derivations_append (events log : List SessionEvent) :
    derivations (events ++ log) = derivations events ++ derivations log := filterMap_append

theorem resendInv_step (hserver : cfg.server) {past : List (SessionOp × Report)}
    (h : SessionTrace P cfg past s) (hinv : ResendInv past s) (op : SessionOp) :
    ResendInv ((op, (sessionStep P cfg s op).2) :: past) (sessionStep P cfg s op).1 := by
  have hbefore := serverInv_trace hserver h
  have hafter := serverInv_trace hserver (.cons op h)
  rw [eventLog_cons] at hafter
  -- a candidate whose INIT was derived from earlier is not derived again
  have hnot : ∀ session, session.init ∈ (derivations (eventLog past)).map Session.init →
      .derived session ∉ (sessionStep P cfg s op).2.events := by
    intro session hmem hderived
    have hnodup := hafter.distinct
    rw [DistinctInits, derivations_append, map_append] at hnodup
    exact (disjoint_of_nodup_append hnodup)
      (mem_map_of_mem (mem_derivations.mpr hderived)) hmem
  have hknown : ∀ call ∈ (op, (sessionStep P cfg s op).2) :: past, ∀ wire t, Resends call wire t →
      wire ∈ (derivations (eventLog past)).map Session.init := by
    intro call hcall wire t hr
    rcases mem_cons.mp hcall with rfl | hcall
    · obtain ⟨session, hpending, rfl, -⟩ := resends_cases hserver hr
      exact mem_map_of_mem (hbefore.pending session hpending)
    · exact hinv.known call hcall wire t hr
  refine ⟨?_, ?_⟩
  · intro call hcall wire t hr
    rw [eventLog_cons, derivations_append, map_append]
    exact mem_append_right _ (hknown call hcall wire t hr)
  · intro call hcall wire t hr session hpending hinit
    have hold := hnot session (hinit ▸ hknown call hcall wire t hr)
    rcases mem_cons.mp hcall with rfl | hcall
    · obtain ⟨_, -, -, -, -, hresend, -⟩ := resends_cases hserver hr
      exact hresend.ge
    have hwaiting : s.pending = some session := by
      by_contra hne
      exact hold (pending_enters hserver hpending hne).2
    exact (hinv.spaced call hcall wire t hr session hwaiting hinit).trans
      (responseResendAfter_mono hserver hpending hold)

theorem resendInv_trace (hserver : cfg.server) {past : List (SessionOp × Report)}
    (h : SessionTrace P cfg past s) : ResendInv past s :=
  h.invariant ResendInv ⟨fun _ hc => (not_mem_nil hc).elim, fun _ hc => (not_mem_nil hc).elim⟩
    (fun _ _ op ht hinv => resendInv_step hserver ht hinv op)

/-- INIT replay safety: in every run of a server, (1) no INIT leads to two
candidates, and a candidate comes only from the INIT of its call; (2) the two nonce
indexes agree and are bounded; (3) a candidate leaves only by its own expiry or its
own CONFIRM; (4) a retry of its INIT changes neither candidate nor active session
and gets at most the cached RESPONSE, (5) not more often than every 200 ms. -/
theorem server_init_replay_safe (hserver : cfg.server) {past : List (SessionOp × Report)}
    {s : Endpoint} (h : SessionTrace P cfg past s) :
    (((derivations (eventLog past)).map Session.init).Nodup ∧
      ∀ op session, (sessionStep P cfg s op).1.pending = some session →
        s.pending ≠ some session → op.input = some session.init ∧
          .derived session ∈ (sessionStep P cfg s op).2.events) ∧
    (s.seenNonces = (s.nonceExpiry.map Prod.snd).toFinset ∧ (s.nonceExpiry.map Prod.snd).Nodup ∧
      s.seenNonces.card ≤ 65536) ∧
    (∀ op session, s.pending = some session → (sessionStep P cfg s op).1.pending ≠ some session →
      (∃ now, op.time = some now ∧ s.pendingUntil ≤ now) ∨
        ∃ wire now wall random packet, op = .receive wire now wall random ∧
          session.codec.decode P wire = some packet ∧ packet.type = .confirm ∧
          packet.messageId = session.exchange ∧
          (sessionStep P cfg s op).1.active = some session) ∧
    (∀ session now wall random, s.pending = some session → now < s.pendingUntil →
      InitRetry (s.expirePrevious now) session now
        (sessionReceive P cfg s session.init now wall random)) ∧
    ∀ op wire now, Resends (op, (sessionStep P cfg s op).2) wire now →
      ∀ call ∈ past, ∀ t, Resends call wire t → t + responseResendInterval ≤ now := by
  have hinv := serverInv_trace hserver h
  refine ⟨⟨hinv.distinct, fun op session => pending_enters hserver⟩,
    ⟨hinv.seen, hinv.nodup, hinv.card_le⟩, fun op session hpending => pending_leaves hserver hpending, ?_, ?_⟩
  · intro session now wall random hpending hdeadline
    obtain ⟨packet, hdecoded, htype, -⟩ := hinv.remembered _ (hinv.pending session hpending)
    have hpending' : (s.expirePrevious now).pending = some session :=
      (expirePrevious_pending s now).trans hpending
    have hreceive := sessionReceive_init s now hserver hdecoded htype wall random
    rw [expire_before_deadline s now hdeadline] at hreceive
    rcases hreceive with hreceive | hreceive <;> rw [hreceive]
    · exact .silent hpending' rfl rfl rfl rfl rfl rfl ⟨rfl, rfl, rfl⟩
    · exact receiveInit_retry hpending' session.init packet wall random
  · intro op wire now hr call hcall t hrt
    obtain ⟨session, hpending, hinit, hafter, -⟩ := resends_cases hserver hr
    exact ((resendInv_trace hserver h).spaced call hcall wire t hrt session hpending hinit).trans
      hafter

end Runs

/-- A server that gets the same INIT three times, the last time too early to answer. -/
def sampleServer : List (SessionOp × Report) × Endpoint :=
  Transition.run (sessionStep samplePrimitives (sampleConfig true)) {}
    [.receive (sampleInit samplePrimitives) 0 1000 (sampleRandom 3),
      .receive (sampleInit samplePrimitives) 1 1000 (sampleRandom 4),
      .receive (sampleInit samplePrimitives) 200000000 1000 (sampleRandom 5)]

theorem sampleServer_facts :
    (sampleServer.1.map fun call => call.2.received.reply.isEmpty) = [true, false, false] ∧
      (derivations (eventLog sampleServer.1)).length = 1 ∧ sampleServer.2.pending.isSome := by
  decide +kernel

theorem server_init_replay_safe_sample :
    (derivations (eventLog sampleServer.1)).length = 1 ∧
      (sampleServer.1.map fun call => call.2.received.reply.isEmpty) = [true, false, false] ∧
      ∃ session, sampleServer.2.pending = some session ∧
        InitRetry (sampleServer.2.expirePrevious 200000001) session 200000001
          (sessionReceive samplePrimitives (sampleConfig true) sampleServer.2 session.init
            200000001 1000 {}) := by
  obtain ⟨session, hsession⟩ := Option.isSome_iff_exists.mp sampleServer_facts.2.2
  refine ⟨sampleServer_facts.2.1, sampleServer_facts.1, session, hsession, ?_⟩
  exact (server_init_replay_safe rfl (Transition.trace_run _)).2.2.2.1 session 200000001 1000 {}
    hsession (by decide +kernel)

end Tuntom
