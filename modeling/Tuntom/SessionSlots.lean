import Tuntom.SessionAgreement

/-! Which of the session slots can be filled at one time, and from which of them packets are
reported. -/
namespace Tuntom

variable {P : Primitives} {cfg : SessionConfig} {c c' : SessionCore} {input : Option Bytes}
  {events : List SessionEvent}

/-! ### The client -/

structure ClientSlots (P : Primitives) (cfg : SessionConfig) (c : SessionCore) : Prop where
  pending : c.pending = none
  flight : c.flight = [] ↔ c.clientInit = []
  waiting : c.waitingAck = true → ∃ session, c.active = some session ∧
    session.exchange = c.clientExchange ∧ c.flight = confirmation P cfg session .confirm

theorem layout_ne_nil (codec : Codec) (packet : Packet) : codec.layout P packet ≠ [] := by
  intro hnil
  have hlen := Codec.length_layout P codec packet
  rw [hnil, List.length_nil] at hlen
  omega

theorem ClientSlots.of_active (h : ClientSlots P cfg c) {session session' : Session}
    (hactive : c.active = some session) (hexchange : session'.exchange = session.exchange)
    (hconfirm : confirmation P cfg session' .confirm = confirmation P cfg session .confirm) :
    ClientSlots P cfg { c with active := some session' } where
  pending := h.pending
  flight := h.flight
  waiting hwaiting := by
    obtain ⟨held, hheld, hexchange', hflight⟩ := h.waiting hwaiting
    rw [hactive] at hheld
    obtain rfl := Option.some.inj hheld
    exact ⟨session', rfl, hexchange.trans hexchange', hflight.trans hconfirm.symm⟩

theorem clientSlots_effect (hclient : cfg.server = false) (h : ClientSlots P cfg c)
    (e : Effect P cfg input c c' events) : ClientSlots P cfg c' := by
  have hrole : cfg.server = true → False := by simp [hclient]
  cases e with
  | expirePrevious => exact ⟨h.pending, h.flight, h.waiting⟩
  | expirePending => exact ⟨rfl, h.flight, h.waiting⟩
  | begin id nonce wall secret packet encoded _ _ _ hencoded =>
    refine ⟨rfl, ?_, by simp⟩
    exact iff_of_eq rfl
  | clear => exact ⟨rfl, iff_of_true rfl rfl, by simp⟩
  | abandon => exact ⟨h.pending, iff_of_true rfl rfl, by simp⟩
  | spend session hactive | encode session packet hactive => exact h.of_active hactive rfl rfl
  | advance | purge => exact ⟨h.pending, h.flight, h.waiting⟩
  | reserve wire packet _ hadmits => exact (hrole hadmits.server).elim
  | respond wire packet random secret dh now response candidate _ hadmits =>
    exact (hrole hadmits.server).elim
  | propose wire packet dh now candidate _ _ _ _ hinit _ _ hcandidate =>
    refine ⟨h.pending, iff_of_false (layout_ne_nil _ _) hinit, fun _ => ⟨candidate, rfl, ?_, rfl⟩⟩
    rw [hcandidate]
    rfl
  | promote wire packet session _ hserver => exact (hrole hserver).elim
  | acknowledgeAgain session hserver => exact (hrole hserver).elim
  | acknowledged => exact ⟨h.pending, iff_of_true rfl rfl, by simp⟩
  | replayActive session window hactive => exact h.of_active hactive rfl rfl
  | replayPrevious => exact ⟨h.pending, h.flight, h.waiting⟩

/-! ### The server -/

/-- A server has no flight of its own, and a pending session leaves no room for a previous one. -/
structure ServerSlots (c : SessionCore) : Prop where
  waiting : c.waitingAck = false
  flight : c.flight = []
  clientInit : c.clientInit = []
  apart : c.pending = none ∨ c.previous = none

theorem serverSlots_effect (hserver : cfg.server = true) (h : ServerSlots c)
    (e : Effect P cfg input c c' events) : ServerSlots c' := by
  have hrole : cfg.server = false → False := by simp [hserver]
  cases e with
  | expirePrevious => exact ⟨h.waiting, h.flight, h.clientInit, .inr rfl⟩
  | expirePending => exact ⟨h.waiting, h.flight, h.clientInit, .inl rfl⟩
  | begin id nonce wall secret packet encoded hclient | clear hclient => exact (hrole hclient).elim
  | abandon hclient => exact (hrole hclient).elim
  | spend | encode | advance | purge | reserve => exact ⟨h.waiting, h.flight, h.clientInit, h.apart⟩
  | respond => exact ⟨h.waiting, h.flight, h.clientInit, .inr rfl⟩
  | propose wire packet dh now candidate _ hclient => exact (hrole hclient).elim
  | promote => exact ⟨h.waiting, h.flight, h.clientInit, .inl rfl⟩
  | acknowledgeAgain => exact h
  | acknowledged wire packet session _ hclient => exact (hrole hclient).elim
  | replayActive => exact ⟨h.waiting, h.flight, h.clientInit, h.apart⟩
  | replayPrevious session window hprevious =>
    refine ⟨h.waiting, h.flight, h.clientInit, .inl (h.apart.resolve_right ?_)⟩
    rw [hprevious]
    simp

/-! ### Reports -/

/-- A packet of the datagram's session is reported, never one of a pending session, and one that
belongs to the current session only from that one. -/
def Reports (P : Primitives) (s : Endpoint) (wire : Bytes) (now : Time) (result : Received) :
    Prop :=
  ∃ slot session packet,
    matchSession P ((s.expirePrevious now).expirePending now) wire = some (slot, session, packet) ∧
    result.session = some slot ∧ result.packet = some packet ∧ slot ≠ .pending ∧
    (packet.type.currentOnly = true → slot = .active)

theorem sessionReceive_reports {s : Endpoint} {now : Time} {wire : Bytes} {wall : Int64}
    {random : Random} (h : (sessionReceive P cfg s wire now wall random).result.data = true) :
    Reports P s wire now (sessionReceive P cfg s wire now wall random).result := by
  have hloud : ¬(sessionReceive P cfg s wire now wall random).result.Quiet := by
    rintro ⟨-, hquiet⟩
    rw [h] at hquiet
    cases hquiet
  obtain ⟨type, -, heq⟩ := sessionReceive_of_not_quiet s now hloud
  rw [heq] at h ⊢
  revert h
  rw [receiveSession]
  split
  · simp
  next slot session packet hmatch =>
  split
  · rw [receiveConfirm]
    split
    · simp
    · cases slot <;> simp
  · rw [receiveConfirmAck]
    split
    · simp
    · split <;> simp
  cases slot with
  | pending => rintro ⟨⟩
  | active =>
    simp only [receiveData]
    split
    · exact fun _ => ⟨.active, session, packet, hmatch, rfl, rfl, by simp, fun _ => rfl⟩
    · simp
  | previous =>
    simp only [receiveData]
    split
    · simp
    next hother =>
    split
    · refine fun _ => ⟨.previous, session, packet, hmatch, rfl, rfl, by simp, fun hmeta => ?_⟩
      exact absurd hmeta hother
    · simp

/-! ### All runs -/

theorem clientSlots_trace (hclient : cfg.server = false) {past : List (SessionOp × Report)}
    {s : Endpoint} (h : SessionTrace P cfg past s) : ClientSlots P cfg s.core :=
  sessionTrace_invariant (fun _ c => ClientSlots P cfg c)
    ⟨rfl, iff_of_true rfl rfl, by simp⟩
    (fun _ _ _ _ _ hc e => clientSlots_effect hclient hc e) h

theorem serverSlots_trace (hserver : cfg.server = true) {past : List (SessionOp × Report)}
    {s : Endpoint} (h : SessionTrace P cfg past s) : ServerSlots s.core :=
  sessionTrace_invariant (fun _ c => ServerSlots c) ⟨rfl, rfl, rfl, .inl rfl⟩
    (fun _ _ _ _ _ hc e => serverSlots_effect hserver hc e) h

def Endpoint.held (s : Endpoint) : List Slot :=
  [Slot.active, .pending, .previous].filter fun slot => (s.slot slot).isSome

theorem length_held_le {s : Endpoint} (h : s.pending = none ∨ s.previous = none) :
    s.held.length ≤ 2 := by
  rcases h with h | h
  · have hheld : s.held = [Slot.active, .previous].filter fun slot => (s.slot slot).isSome := by
      simp [Endpoint.held, List.filter_cons, Endpoint.slot, h]
    rw [hheld]
    exact List.length_filter_le _ _
  have hheld : s.held = [Slot.active, .pending].filter fun slot => (s.slot slot).isSome := by
    simp [Endpoint.held, List.filter_cons, Endpoint.slot, h]
  rw [hheld]
  exact List.length_filter_le _ _

/-- What the slots of a reachable endpoint can hold, and what can be reported from them. -/
theorem session_slots {past : List (SessionOp × Report)} {s : Endpoint}
    (h : SessionTrace P cfg past s) :
    (cfg.server = false → s.pending = none ∧ (s.flight = [] ↔ s.clientInit = []) ∧
      (s.waitingAck = true → ∃ session, s.active = some session ∧
        session.exchange = s.clientExchange ∧ s.flight = confirmation P cfg session .confirm)) ∧
    (cfg.server = true → s.waitingAck = false ∧ s.flight = [] ∧ s.clientInit = [] ∧
      ¬(s.pending.isSome = true ∧ s.previous.isSome = true)) ∧
    s.held.length ≤ 2 ∧
    ∀ op, (sessionStep P cfg s op).2.received.data = true →
      ∃ wire now wall random, op = .receive wire now wall random ∧
        Reports P s wire now (sessionStep P cfg s op).2.received := by
  refine ⟨fun hclient => ?_, fun hserver => ?_, ?_, fun op hdata => ?_⟩
  · have hslots := clientSlots_trace hclient h
    exact ⟨hslots.pending, hslots.flight, hslots.waiting⟩
  · have hslots := serverSlots_trace hserver h
    refine ⟨hslots.waiting, hslots.flight, hslots.clientInit, ?_⟩
    rintro ⟨hpending, hprevious⟩
    rcases hslots.apart with hnone | hnone
    · change s.pending = none at hnone
      rw [hnone] at hpending
      cases hpending
    · change s.previous = none at hnone
      rw [hnone] at hprevious
      cases hprevious
  · refine length_held_le ?_
    cases hrole : cfg.server with
    | false => exact .inl (clientSlots_trace hrole h).pending
    | true => exact (serverSlots_trace hrole h).apart
  · cases op with
    | receive wire now wall random =>
      exact ⟨wire, now, wall, random, rfl, sessionReceive_reports hdata⟩
    | begin now wall random => cases hdata
    | restart now wall random => cases hdata
    | tick now wall random => cases hdata
    | encode packet => cases hdata

def sampleWaiting : List (SessionOp × Report) × Endpoint :=
  Transition.run (sessionStep samplePrimitives (sampleConfig false)) {}
    [.begin 0 1000 (sampleRandom 2), .receive (sampleResponse samplePrimitives) 1 1000 {}]

theorem sampleWaiting_trace :
    SessionTrace samplePrimitives (sampleConfig false) sampleWaiting.1 sampleWaiting.2 :=
  Transition.trace_run _

theorem sampleWaiting_facts :
    sampleWaiting.2.waitingAck = true ∧ sampleWaiting.2.flight ≠ [] := by
  decide +kernel

theorem session_slots_sample :
    sampleWaiting.2.flight ≠ [] ∧ ∃ session, sampleWaiting.2.active = some session ∧
      session.exchange = sampleWaiting.2.clientExchange ∧
      sampleWaiting.2.flight =
        confirmation samplePrimitives (sampleConfig false) session .confirm :=
  ⟨sampleWaiting_facts.2,
    ((session_slots sampleWaiting_trace).1 rfl).2.2 sampleWaiting_facts.1⟩

end Tuntom
