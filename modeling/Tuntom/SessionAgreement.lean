import Tuntom.SessionNonce

/-! Handshake agreement. A client and a server with the same master key talk over a
network that delivers any bytes at any time, except that a datagram which decodes
under a key in use was encoded under that key before. Neither side activates a
session whose transcript the other side never held. -/
namespace Tuntom
open List

/-! ### Two endpoints -/

inductive Side
  | client | server
  deriving DecidableEq, Repr

instance : Fintype Side where
  elems := {.client, .server}
  complete := by rintro (_ | _) <;> decide

def SessionConfig.forSide (cfg : SessionConfig) (side : Side) : SessionConfig :=
  { cfg with server := side == .server }

structure Joint where
  client : Endpoint := {}
  server : Endpoint := {}

section Joint
variable (P : Primitives) (cfg : SessionConfig)

def jointStep (j : Joint) : Side × SessionOp → Joint × Report
  | (.client, op) =>
    let r := sessionStep P (cfg.forSide .client) j.client op
    ({ j with client := r.1 }, r.2)
  | (.server, op) =>
    let r := sessionStep P (cfg.forSide .server) j.server op
    ({ j with server := r.1 }, r.2)

abbrev JointHistory := List ((Side × SessionOp) × Report)

abbrev JointTrace := Transition.Trace (jointStep P cfg) ({} : Joint)

def sideLog (side : Side) (past : JointHistory) : List SessionEvent :=
  past.flatMap fun call => if call.1.1 = side then call.2.events else []

/-- Everything a side has encoded, with the handshake codec or with a session. -/
def sent (side : Side) (log : List SessionEvent) : List (Codec × Packet) :=
  (handshakes log).map (fun p => (handshakeCodec P (cfg.forSide side), p)) ++ encodings log

def codecsInUse (side : Side) (log : List SessionEvent) : List Codec :=
  handshakeCodec P (cfg.forSide side) :: (derivations log).map Session.codec

/-- `wire` decodes under one of `codecs` only if a side encoded it under that key. -/
def Genuine (logs : Side → List SessionEvent) (codecs : List Codec) (wire : Bytes) : Prop :=
  ∀ codec ∈ codecs, (codec.decode P wire).isSome →
    ∃ side, ∃ e ∈ sent P cfg side (logs side), e.1.txKey = codec.rxKey ∧ e.1.layout P e.2 = wire

def GenuineCalls (codecs : Side → List Codec) : JointHistory → Prop
  | [] => True
  | call :: earlier =>
    (∀ wire ∈ call.1.2.input, Genuine P cfg (sideLog · earlier) (codecs call.1.1) wire) ∧
      GenuineCalls codecs earlier

def Unforgeable (past : JointHistory) : Prop :=
  GenuineCalls P cfg (fun side => codecsInUse P cfg side (sideLog side past)) past

instance (logs : Side → List SessionEvent) (codecs : List Codec) (wire : Bytes) :
    Decidable (Genuine P cfg logs codecs wire) :=
  inferInstanceAs (Decidable (∀ _ ∈ _, _))

instance decidableGenuineCalls (codecs : Side → List Codec) :
    (past : JointHistory) → Decidable (GenuineCalls P cfg codecs past)
  | [] => .isTrue trivial
  | call :: earlier =>
    have := decidableGenuineCalls codecs earlier
    inferInstanceAs (Decidable
      ((∀ wire ∈ call.1.2.input, Genuine P cfg (sideLog · earlier) (codecs call.1.1) wire) ∧
        GenuineCalls P cfg codecs earlier))

instance (past : JointHistory) : Decidable (Unforgeable P cfg past) :=
  decidableGenuineCalls P cfg _ past

end Joint

def Session.c2s (side : Side) (session : Session) : Key :=
  match side with
  | .client => session.codec.txKey
  | .server => session.codec.rxKey

def Session.s2c (side : Side) (session : Session) : Key :=
  match side with
  | .client => session.codec.rxKey
  | .server => session.codec.txKey

def SameTranscript (a b : Session) : Prop := a.init = b.init ∧ a.response = b.response

instance (a b : Session) : Decidable (SameTranscript a b) :=
  inferInstanceAs (Decidable (_ ∧ _))

/-- Derivations, on whichever side, share a key only if they share the transcript. -/
def KeysBindTranscripts (logs : Side → List SessionEvent) : Prop :=
  ∀ a b, ∀ d ∈ derivations (logs a), ∀ d' ∈ derivations (logs b),
    d.c2s a = d'.c2s b ∨ d.s2c a = d'.s2c b → SameTranscript d d'

instance (logs : Side → List SessionEvent) : Decidable (KeysBindTranscripts logs) :=
  inferInstanceAs (Decidable (∀ _, _))

def DistinctIds (log : List SessionEvent) : Prop := ((handshakes log).map Packet.messageId).Nodup

instance (log : List SessionEvent) : Decidable (DistinctIds log) :=
  inferInstanceAs (Decidable (List.Nodup _))

def both {α : Type} (client server : α) : Side → α
  | .client => client
  | .server => server

/-! ### What both sides know -/

structure Agrees (session peer : Session) : Prop where
  transcript : SameTranscript session peer
  key : session.codec.txKey = peer.codec.rxKey
  hint : session.hint = peer.hint

structure JointInv (P : Primitives) (cfg : SessionConfig) (logC logS : List SessionEvent)
    (cC cS : SessionCore) : Prop where
  client : ClientInv P (cfg.forSide .client) logC cC
  server : ServerInv P (cfg.forSide .server) logS cS
  clientSlots : SlotInv (cfg.forSide .client) logC cC
  serverSlots : SlotInv (cfg.forSide .server) logS cS
  /-- The server derives only from INITs of the client. -/
  inits : ∀ d ∈ derivations logS, ∃ p ∈ handshakes logC,
    d.init = (handshakeCodec P (cfg.forSide .client)).layout P p ∧ d.exchange = p.messageId
  /-- Every RESPONSE of the server closes a transcript it has derived from. -/
  responses : ∀ p ∈ handshakes logS,
    (handshakeCodec P (cfg.forSide .server)).WellFormed p ∧ p.type = .response ∧
      ∃ d ∈ derivations logS, d.exchange = p.messageId ∧
        d.response = (handshakeCodec P (cfg.forSide .server)).layout P p
  /-- The client derives only from transcripts the server holds. -/
  held : ∀ d ∈ derivations logC, ∃ d' ∈ derivations logS, SameTranscript d d'
  promoted : ∀ d ∈ promotions logS, d ∈ derivations logS ∧ ∃ d' ∈ derivations logC, Agrees d' d
  active : ∀ session, cS.active = some session → session.base ∈ promotions logS
  /-- Only promoted sessions are acknowledged. -/
  acks : ∀ e ∈ encodings logS, counterOf e.2 = 0 → ∃ d ∈ promotions logS, e.1 = d.codec
  acknowledged : ∀ session ∈ acknowledgements logC, ∃ d ∈ promotions logS, Agrees session.base d ∧
    session.exchange = d.exchange ∧ d.codec.txKey = session.codec.rxKey

section Origins
variable {P : Primitives} {cfg : SessionConfig} {logC logS : List SessionEvent}
  {cC cS : SessionCore}

/-- The two handshake codecs face each other. -/
theorem handshakeCodec_peer :
    (handshakeCodec P (cfg.forSide .client)).peer = handshakeCodec P (cfg.forSide .server) := rfl

theorem counterOf_confirm {p : Packet} (h : p.acceptable)
    (htype : p.type = .confirm ∨ p.type = .confirmAck) : counterOf p = 0 := by
  have hmask : p.sequence &&& counterMask = 0 := by
    rcases htype with ht | ht <;>
    · simp only [Packet.acceptable, ht, Bool.and_eq_true, beq_iff_eq] at h
      exact h.2
  rw [counterOf, hmask]
  rfl

theorem counterOf_handshake {p : Packet} (h : p.acceptable)
    (htype : p.type = .init ∨ p.type = .response) : counterOf p = 0 := by
  have hsequence : p.sequence = 0 := by
    rcases htype with ht | ht <;>
    · simp only [Packet.acceptable, ht, Packet.handshakeRules, Bool.and_eq_true, beq_iff_eq] at h
      exact h.1.1.1.1.1.1.1
  rw [counterOf, hsequence]
  rfl

inductive Origin (P : Primitives) (cfg : SessionConfig) (logC logS : List SessionEvent)
    (e : Codec × Packet) : Prop
  | init (htype : e.2.type = .init) (hmem : e.2 ∈ handshakes logC)
      (hcodec : e.1 = handshakeCodec P (cfg.forSide .client))
  | response (htype : e.2.type = .response) (hmem : e.2 ∈ handshakes logS)
      (hcodec : e.1 = handshakeCodec P (cfg.forSide .server))
  | confirm (htype : e.2.type = .confirm) (d) (hd : d ∈ derivations logC) (hcodec : e.1 = d.codec)
      (hhint : hintOf e.2 = d.hint)
  | confirmAck (htype : e.2.type = .confirmAck) (d) (hd : d ∈ promotions logS)
      (hcodec : e.1 = d.codec)

theorem JointInv.origin (h : JointInv P cfg logC logS cC cS) {side : Side} {e : Codec × Packet}
    (he : e ∈ sent P cfg side (both logC logS side)) (hzero : counterOf e.2 = 0) :
    Origin P cfg logC logS e := by
  rcases mem_append.mp he with he | he
  · obtain ⟨p, hp, rfl⟩ := mem_map.mp he
    cases side with
    | client => exact .init (h.client.wellFormed p hp).2 hp rfl
    | server => exact .response (h.responses p hp).2.1 hp rfl
  -- counter 0 belongs to the fixed confirmation of a session
  have hconfirm : ∀ {side : Side} {c : SessionCore} {d : Session} {k : ℕ},
      EncodedWith (cfg.forSide side) c d k e →
        e.2 = confirmationPacket (cfg.forSide side) d (cfg.forSide side).confirmType ∧
          hintOf e.2 = d.hint := by
    intro side c d k hk
    have hlt : k < 2 ^ 48 := hk.limit.trans_lt (counterLimit_lt _)
    have hk0 : k = 0 := (counterOf_sequence hlt hk.sequence).symm.trans hzero
    exact ⟨hk.zero hk0, hintOf_sequence hlt hk.sequence⟩
  cases side with
  | client =>
    obtain ⟨d, hd, k, hk⟩ := h.clientSlots.encoded e he
    obtain ⟨hp, hhint⟩ := hconfirm hk
    exact .confirm (by rw [hp]; rfl) d hd hk.codec hhint
  | server =>
    obtain ⟨d, hd, k, hk⟩ := h.serverSlots.encoded e he
    obtain ⟨hp, -⟩ := hconfirm hk
    obtain ⟨d', hd', hcodec⟩ := h.acks e he hzero
    exact .confirmAck (by rw [hp]; rfl) d' hd' hcodec

variable {codec : Codec} {codecs : List Codec} {packet : Packet} {wire : Bytes}

theorem JointInv.origin_of_genuine (h : JointInv P cfg logC logS cC cS)
    (hgenuine : Genuine P cfg (both logC logS) codecs wire) (hcodec : codec ∈ codecs)
    (hdecoded : codec.decode P wire = some packet) (hzero : counterOf packet = 0) :
    ∃ e : Codec × Packet, e.1.txKey = codec.rxKey ∧ e.1.layout P e.2 = wire ∧
      e.2.type = packet.type ∧ hintOf e.2 = hintOf packet ∧ Origin P cfg logC logS e := by
  obtain ⟨side, e, he, hkey, hlayout⟩ := hgenuine codec hcodec (by rw [hdecoded]; rfl)
  obtain ⟨htype, hsequence⟩ := Codec.header_of_layout_decode hlayout hdecoded
  have hzero' : counterOf e.2 = 0 := by
    rw [counterOf, hsequence]
    exact hzero
  exact ⟨e, hkey, hlayout, htype, by rw [hintOf, hintOf, hsequence], h.origin he hzero'⟩

theorem acceptable_of_decode (h : codec.decode P wire = some packet) : packet.acceptable :=
  (Codec.layout_of_decode h).1.acceptable

theorem JointInv.genuine_init (h : JointInv P cfg logC logS cC cS)
    (hgenuine : Genuine P cfg (both logC logS) codecs wire)
    (hcodec : handshakeCodec P (cfg.forSide .server) ∈ codecs)
    (hdecoded : (handshakeCodec P (cfg.forSide .server)).decode P wire = some packet)
    (htype : packet.type = .init) :
    packet ∈ handshakes logC ∧ (handshakeCodec P (cfg.forSide .client)).layout P packet = wire := by
  obtain ⟨e, -, hlayout, het, -, horigin⟩ := h.origin_of_genuine hgenuine hcodec hdecoded
    (counterOf_handshake (acceptable_of_decode hdecoded) (.inl htype))
  rw [htype] at het
  cases horigin with
  | init _ hmem hc =>
    rw [hc] at hlayout
    have hback := Codec.decode_layout P (h.client.wellFormed e.2 hmem).1.peer
    rw [Codec.peer_peer, hlayout, handshakeCodec_peer, hdecoded] at hback
    cases hback
    exact ⟨hmem, hlayout⟩
  | _ => exact absurd (het.symm.trans ‹e.2.type = _›) (by decide)

theorem JointInv.genuine_response (h : JointInv P cfg logC logS cC cS)
    (hgenuine : Genuine P cfg (both logC logS) codecs wire)
    (hcodec : handshakeCodec P (cfg.forSide .client) ∈ codecs)
    (hdecoded : (handshakeCodec P (cfg.forSide .client)).decode P wire = some packet)
    (htype : packet.type = .response) :
    packet ∈ handshakes logS ∧ (handshakeCodec P (cfg.forSide .server)).layout P packet = wire := by
  obtain ⟨e, -, hlayout, het, -, horigin⟩ := h.origin_of_genuine hgenuine hcodec hdecoded
    (counterOf_handshake (acceptable_of_decode hdecoded) (.inr htype))
  rw [htype] at het
  cases horigin with
  | response _ hmem hc =>
    rw [hc] at hlayout
    have hback := Codec.decode_layout P (h.responses e.2 hmem).1.peer
    rw [Codec.peer_peer, hlayout, ← handshakeCodec_peer, Codec.peer_peer, hdecoded] at hback
    cases hback
    exact ⟨hmem, hlayout⟩
  | _ => exact absurd (het.symm.trans ‹e.2.type = _›) (by decide)

theorem JointInv.genuine_confirm (h : JointInv P cfg logC logS cC cS)
    (hgenuine : Genuine P cfg (both logC logS) codecs wire) (hcodec : codec ∈ codecs)
    (hdecoded : codec.decode P wire = some packet) (htype : packet.type = .confirm) :
    ∃ d ∈ derivations logC, d.codec.txKey = codec.rxKey ∧ d.hint = hintOf packet := by
  obtain ⟨e, hkey, -, het, hhint, horigin⟩ := h.origin_of_genuine hgenuine hcodec hdecoded
    (counterOf_confirm (acceptable_of_decode hdecoded) (.inl htype))
  rw [htype] at het
  cases horigin with
  | confirm _ d hd hc hh => exact ⟨d, hd, hc ▸ hkey, hh.symm.trans hhint⟩
  | _ => exact absurd (het.symm.trans ‹e.2.type = _›) (by decide)

theorem JointInv.genuine_confirmAck (h : JointInv P cfg logC logS cC cS)
    (hgenuine : Genuine P cfg (both logC logS) codecs wire) (hcodec : codec ∈ codecs)
    (hdecoded : codec.decode P wire = some packet) (htype : packet.type = .confirmAck) :
    ∃ d ∈ promotions logS, d.codec.txKey = codec.rxKey := by
  obtain ⟨e, hkey, -, het, -, horigin⟩ := h.origin_of_genuine hgenuine hcodec hdecoded
    (counterOf_confirm (acceptable_of_decode hdecoded) (.inr htype))
  rw [htype] at het
  cases horigin with
  | confirmAck _ d hd hc => exact ⟨d, hd, hc ▸ hkey⟩
  | _ => exact absurd (het.symm.trans ‹e.2.type = _›) (by decide)

end Origins

/-! ### Steps of the client -/

section Steps
variable {P : Primitives} {cfg : SessionConfig} {logC logS : List SessionEvent}
  {cC cS : SessionCore} {input : Option Bytes} {events : List SessionEvent}

variable {d session : Session} {log : List SessionEvent} {cC' cS' : SessionCore}

theorem mem_append_derivations (h : d ∈ derivations log) : d ∈ derivations (events ++ log) := by
  rw [derivations, filterMap_append]
  exact mem_append_right _ h

theorem mem_append_handshakes {p : Packet} (h : p ∈ handshakes log) :
    p ∈ handshakes (events ++ log) := by
  rw [handshakes, filterMap_append]
  exact mem_append_right _ h

theorem mem_append_promotions (h : d ∈ promotions log) : d ∈ promotions (events ++ log) := by
  rw [promotions, filterMap_append]
  exact mem_append_right _ h

theorem DistinctIds.nodup (h : DistinctIds log) : (handshakes log).Nodup :=
  List.Nodup.of_map _ h

theorem KeysBindTranscripts.client (h : KeysBindTranscripts (both logC logS)) : DistinctKeys logC :=
  fun d hd d' hd' hkey => h .client .client d hd d' hd' (.inl hkey)

theorem KeysBindTranscripts.server (h : KeysBindTranscripts (both logC logS)) : DistinctKeys logS :=
  fun d hd d' hd' hkey => h .server .server d hd d' hd' (.inr hkey)

theorem client_derives (e : Effect P (cfg.forSide .client) input cC cC' events)
    (hd : d ∈ derivations (events ++ logC)) :
    d ∈ derivations logC ∨ ∃ wire packet, input = some wire ∧
      (handshakeCodec P (cfg.forSide .client)).decode P wire = some packet ∧
      packet.type = .response ∧ cC.clientInit ≠ [] ∧ packet.messageId = cC.clientExchange ∧
      d.init = cC.clientInit ∧ d.response = wire := by
  cases e with
  | propose wire packet dh now candidate hinput _ hdecoded htype hinit hexchange _ hcandidate =>
    rcases mem_cons.mp hd with rfl | hd
    · exact .inr ⟨wire, packet, hinput, hdecoded, htype, hinit, hexchange, by rw [hcandidate]; rfl,
        by rw [hcandidate]; rfl⟩
    · exact .inl hd
  | respond _ _ _ _ _ _ _ _ _ hadmits => cases hadmits.server
  | _ => exact .inl hd

theorem client_acknowledges (e : Effect P (cfg.forSide .client) input cC cC' events)
    (hs : session ∈ acknowledgements (events ++ logC)) :
    session ∈ acknowledgements logC ∨ cC.active = some session ∧ ∃ wire packet,
      input = some wire ∧ session.codec.decode P wire = some packet ∧ packet.type = .confirmAck := by
  cases e with
  | acknowledged wire packet session' hinput _ hactive _ hdecoded htype _ _ =>
    rcases mem_cons.mp hs with rfl | hs
    · exact .inr ⟨hactive, wire, packet, hinput, hdecoded, htype⟩
    · exact .inl hs
  | _ => exact .inl hs

theorem JointInv.response_held (h : JointInv P cfg logC logS cC cS) (hids : DistinctIds logC)
    {codecs : List Codec} {wire : Bytes} (hgenuine : Genuine P cfg (both logC logS) codecs wire)
    (hcodec : handshakeCodec P (cfg.forSide .client) ∈ codecs) {packet : Packet}
    (hdecoded : (handshakeCodec P (cfg.forSide .client)).decode P wire = some packet)
    (htype : packet.type = .response) (hinit : cC.clientInit ≠ [])
    (hexchange : packet.messageId = cC.clientExchange) :
    ∃ d ∈ derivations logS, cC.clientInit = d.init ∧ wire = d.response := by
  obtain ⟨hmem, hlayout⟩ := h.genuine_response hgenuine hcodec hdecoded htype
  obtain ⟨-, -, d, hd, hde, hdr⟩ := h.responses packet hmem
  obtain ⟨p, hp, hdi, hdp⟩ := h.inits d hd
  obtain ⟨q, hq, hci, hcq⟩ := h.client.current hinit
  -- both INITs carry the exchange id of the RESPONSE
  have hpq : p = q := by
    refine inj_on_of_nodup_map hids hp hq ?_
    rw [← hdp, hde, hexchange, hcq]
  exact ⟨d, hd, by rw [hci, hdi, hpq], by rw [hdr, hlayout]⟩

/-- An acknowledgement the client accepts comes from a promoted session of the server. -/
theorem JointInv.acknowledged_agrees (h : JointInv P cfg logC logS cC cS)
    (hkeys : KeysBindTranscripts (both logC logS)) {codecs : List Codec} {wire : Bytes}
    (hgenuine : Genuine P cfg (both logC logS) codecs wire) (hactive : cC.active = some session)
    (hcodec : session.codec ∈ codecs) {packet : Packet}
    (hdecoded : session.codec.decode P wire = some packet) (htype : packet.type = .confirmAck) :
    ∃ d ∈ promotions logS, Agrees session.base d ∧ session.exchange = d.exchange ∧
      d.codec.txKey = session.codec.rxKey := by
  obtain ⟨d, hd, hkey⟩ := h.genuine_confirmAck hgenuine hcodec hdecoded htype
  obtain ⟨hds, d', hd', hagrees⟩ := h.promoted d hd
  have hbase := h.clientSlots.held .active session hactive
  have htranscript : SameTranscript session.base d :=
    hkeys .client .server session.base hbase d hds (.inr hkey.symm)
  -- the client's session that was promoted is the active one
  have hsame : session.base = d' :=
    derivation_ext h.client.distinct hbase hd' (htranscript.1.trans hagrees.transcript.1.symm)
  obtain ⟨p, hp, hpi, hpe⟩ := h.client.derived session.base hbase
  obtain ⟨q, hq, hqi, hqe⟩ := h.inits d hds
  have hpq : p = q := layout_injective P (h.client.wellFormed p hp).1 (h.client.wellFormed q hq).1
    (by rw [← hpi, ← hqi, htranscript.1])
  have hexchange : session.base.exchange = d.exchange := by rw [hpe, hqe, hpq]
  exact ⟨d, hd, hsame ▸ hagrees, hexchange, hkey⟩

theorem jointInv_client (h : JointInv P cfg logC logS cC cS) (hids : DistinctIds (events ++ logC))
    (hkeys : KeysBindTranscripts (both (events ++ logC) logS))
    (hgenuine : ∀ wire, input = some wire → Genuine P cfg (both logC logS)
      (codecsInUse P cfg .client (events ++ logC)) wire)
    (e : Effect P (cfg.forSide .client) input cC cC' events) :
    JointInv P cfg (events ++ logC) logS cC' cS := by
  have hclient := clientInv_effect rfl hids.nodup h.client e
  have hids₀ : DistinctIds logC := by
    rw [DistinctIds, handshakes, filterMap_append, map_append] at hids
    exact hids.of_append_right
  have hkeys₀ : KeysBindTranscripts (both logC logS) := by
    intro a b d hd d' hd'
    refine hkeys a b d ?_ d' ?_
    · cases a with
      | client => exact mem_append_derivations hd
      | server => exact hd
    · cases b with
      | client => exact mem_append_derivations hd'
      | server => exact hd'
  refine { client := hclient, server := h.server, serverSlots := h.serverSlots
           clientSlots := slotInv_effect hclient.distinct hkeys.client h.clientSlots e
           inits := ?_, responses := h.responses, held := ?_, promoted := ?_, active := h.active
           acks := h.acks, acknowledged := ?_ }
  · intro d hd
    obtain ⟨p, hp, hdp⟩ := h.inits d hd
    exact ⟨p, mem_append_handshakes hp, hdp⟩
  · intro d hd
    rcases client_derives e hd with hd | ⟨wire, packet, hinput, hdecoded, htype, hinit, hexchange,
      hdi, hdr⟩
    · exact h.held d hd
    · obtain ⟨d', hd', hi, hr⟩ := h.response_held hids₀ (hgenuine wire hinput) mem_cons_self
        hdecoded htype hinit hexchange
      exact ⟨d', hd', hdi.trans hi, hdr.trans hr⟩
  · intro d hd
    obtain ⟨hds, d', hd', hagrees⟩ := h.promoted d hd
    exact ⟨hds, d', mem_append_derivations hd', hagrees⟩
  · intro session hs
    rcases client_acknowledges e hs with hs | ⟨hactive, wire, packet, hinput, hdecoded, htype⟩
    · exact h.acknowledged session hs
    have hcodec : session.codec ∈ codecsInUse P cfg .client (events ++ logC) :=
      mem_cons_of_mem _ (mem_map.mpr ⟨session.base,
        mem_append_derivations (h.clientSlots.held .active session hactive), rfl⟩)
    exact h.acknowledged_agrees hkeys₀ (hgenuine wire hinput) hactive hcodec hdecoded htype

/-! ### Steps of the server -/

/-- A new session of the server comes from an INIT, and is answered with its RESPONSE. -/
theorem server_derives (e : Effect P (cfg.forSide .server) input cS cS' events) :
    derivations events = [] ∧ handshakes events = [] ∨ ∃ wire packet d response,
      input = some wire ∧ (handshakeCodec P (cfg.forSide .server)).decode P wire = some packet ∧
      packet.type = .init ∧ derivations events = [d] ∧ handshakes events = [response] ∧
      d.init = wire ∧ d.exchange = packet.messageId ∧
      d.response = (handshakeCodec P (cfg.forSide .server)).layout P response ∧
      ∃ random secret, response =
        responsePacket P (cfg.forSide .server) wire packet.messageId random secret := by
  cases e with
  | respond wire packet random secret dh now response candidate hinput hadmits _ hresponse
      hcandidate =>
    exact .inr ⟨wire, packet, candidate, response, hinput, hadmits.decoded, hadmits.type, rfl, rfl,
      by rw [hcandidate]; rfl, by rw [hcandidate]; rfl, by rw [hcandidate]; rfl, random, secret,
      hresponse⟩
  | begin _ _ _ _ _ _ hclient | propose _ _ _ _ _ _ hclient => cases hclient
  | _ => exact .inl ⟨rfl, rfl⟩

theorem server_promotes (e : Effect P (cfg.forSide .server) input cS cS' events)
    (hd : d ∈ promotions (events ++ logS)) :
    d ∈ promotions logS ∨ cS.pending = some d ∧ ∃ wire packet, input = some wire ∧
      d.hint = (loadBe64 wire 1 >>> 48).toUInt16 ∧ d.codec.decode P wire = some packet ∧
      packet.type = .confirm := by
  cases e with
  | promote wire packet session hinput _ hpending hhint hdecoded htype =>
    rcases mem_cons.mp hd with rfl | hd
    · exact .inr ⟨hpending, wire, packet, hinput, hhint, hdecoded, htype⟩
    · exact .inl hd
  | _ => exact .inl hd

theorem JointInv.pending_base (h : JointInv P cfg logC logS cC cS)
    (hpending : cS.pending = some session) : session.base = session :=
  derivation_ext h.server.distinct (h.serverSlots.held .pending session hpending)
    (h.server.pending session hpending) rfl

theorem JointInv.server_active (h : JointInv P cfg logC logS cC cS)
    (e : Effect P (cfg.forSide .server) input cS cS' events) (hactive : cS'.active = some session) :
    session.base ∈ promotions (events ++ logS) := by
  cases e with
  | promote wire packet session' _ _ hpending =>
    cases hactive
    rw [h.pending_base hpending]
    exact mem_cons_self
  | spend session' hactive' =>
    cases hactive
    exact h.active session' hactive'
  | encode session' packet hactive' =>
    cases hactive
    exact h.active session' hactive'
  | replayActive session' window hactive' =>
    cases hactive
    exact h.active session' hactive'
  | clear hclient | abandon hclient | propose _ _ _ _ _ _ hclient => cases hclient
  | _ => exact h.active session hactive

theorem JointInv.server_acks (h : JointInv P cfg logC logS cC cS)
    (e : Effect P (cfg.forSide .server) input cS cS' events) {enc : Codec × Packet}
    (henc : enc ∈ encodings (events ++ logS)) (hzero : counterOf enc.2 = 0) :
    ∃ d ∈ promotions (events ++ logS), enc.1 = d.codec := by
  have hold : enc ∈ encodings logS → ∃ d ∈ promotions (events ++ logS), enc.1 = d.codec := by
    intro hmem
    obtain ⟨d, hd, hcodec⟩ := h.acks enc hmem hzero
    exact ⟨d, mem_append_promotions hd, hcodec⟩
  cases e with
  | encode session packet hactive hlimit hsequence =>
    rcases mem_cons.mp henc with rfl | henc
    · have hlt := hlimit.trans_lt (counterLimit_lt (cfg.forSide .server))
      have hpos := (h.serverSlots.counter .active session hactive).1
      rw [counterOf_sequence hlt hsequence] at hzero
      omega
    · exact hold henc
  | promote wire packet session =>
    rcases mem_cons.mp henc with rfl | henc
    · exact ⟨session, mem_cons_self, rfl⟩
    · exact hold henc
  | acknowledgeAgain session _ hactive =>
    rcases mem_cons.mp henc with rfl | henc
    · exact ⟨session.base, h.active session hactive, rfl⟩
    · exact hold henc
  | propose _ _ _ _ _ _ hclient => cases hclient
  | _ => exact hold henc

theorem messageId_ne_zero_of_init {p : Packet} (h : p.acceptable) (htype : p.type = .init) :
    p.messageId ≠ 0 := by
  simp only [Packet.acceptable, htype, Packet.handshakeRules, Bool.and_eq_true, bne_iff_ne] at h
  exact h.1.1.1.1.1.1.2

theorem jointInv_server (h : JointInv P cfg logC logS cC cS)
    (hkeys : KeysBindTranscripts (both logC (events ++ logS)))
    (hgenuine : ∀ wire, input = some wire → Genuine P cfg (both logC logS)
      (codecsInUse P cfg .server (events ++ logS)) wire)
    (e : Effect P (cfg.forSide .server) input cS cS' events) :
    JointInv P cfg logC (events ++ logS) cC cS' := by
  have hserver := serverInv_effect rfl h.server e
  have hderivations : derivations (events ++ logS) = derivations events ++ derivations logS :=
    filterMap_append
  have hhandshakes : handshakes (events ++ logS) = handshakes events ++ handshakes logS :=
    filterMap_append
  refine { client := h.client, server := hserver, clientSlots := h.clientSlots
           serverSlots := slotInv_effect hserver.distinct hkeys.server h.serverSlots e
           inits := ?_, responses := ?_, held := ?_, promoted := ?_
           active := fun session => h.server_active e, acks := fun enc => h.server_acks e
           acknowledged := ?_ }
  · intro d hd
    rw [hderivations, mem_append] at hd
    rcases hd with hd | hd
    · rcases server_derives e with ⟨hnone, -⟩ | ⟨wire, packet, d', response, hinput, hdecoded, htype,
        hevents, -, hi, hx, -⟩
      · rw [hnone] at hd
        cases hd
      · rw [hevents, mem_singleton] at hd
        subst hd
        obtain ⟨hmem, hlayout⟩ := h.genuine_init (hgenuine wire hinput) mem_cons_self hdecoded
          htype
        exact ⟨packet, hmem, by rw [hi, hlayout], hx⟩
    · exact h.inits d hd
  · intro p hp
    rw [hhandshakes, mem_append] at hp
    rcases hp with hp | hp
    · rcases server_derives e with ⟨-, hnone⟩ | ⟨wire, packet, d', response, hinput, hdecoded, htype,
        hevents, hsent, -, hx, hr, random, secret, hresponse⟩
      · rw [hnone] at hp
        cases hp
      · rw [hsent, mem_singleton] at hp
        subst hp
        have hid := messageId_ne_zero_of_init (acceptable_of_decode hdecoded) htype
        refine ⟨?_, by rw [hresponse]; rfl, d', ?_, ?_, hr⟩
        · rw [hresponse]
          exact responsePacket_wellFormed P _ hid wire random secret
        · rw [hderivations, hevents]
          exact mem_cons_self
        · rw [hx, hresponse]
          rfl
    · obtain ⟨hw, ht, d, hd, hdx⟩ := h.responses p hp
      exact ⟨hw, ht, d, mem_append_derivations hd, hdx⟩
  · intro d hd
    obtain ⟨d', hd', hsame⟩ := h.held d hd
    exact ⟨d', mem_append_derivations hd', hsame⟩
  · intro d hd
    rcases server_promotes e hd with hd | ⟨hpending, wire, packet, hinput, hhint, hdecoded, htype⟩
    · obtain ⟨hds, hagrees⟩ := h.promoted d hd
      exact ⟨mem_append_derivations hds, hagrees⟩
    have hds : d ∈ derivations (events ++ logS) :=
      mem_append_derivations (h.server.pending d hpending)
    have hcodec : d.codec ∈ codecsInUse P cfg .server (events ++ logS) :=
      mem_cons_of_mem _ (mem_map_of_mem hds)
    obtain ⟨d', hd', hkey, hh⟩ := h.genuine_confirm (hgenuine wire hinput) hcodec hdecoded htype
    refine ⟨hds, d', hd', hkeys .client .server d' hd' d hds (.inl hkey), hkey, ?_⟩
    rw [hh, hhint, Codec.sequence_of_decode hdecoded]
    rfl
  · intro session hs
    obtain ⟨d, hd, hagrees⟩ := h.acknowledged session hs
    exact ⟨d, mem_append_promotions hd, hagrees⟩

end Steps

/-! ### Whole calls -/

section Calls
variable {P : Primitives} {cfg : SessionConfig} {logC logS : List SessionEvent}
  {cC cS : SessionCore} {input : Option Bytes} {events : List SessionEvent}

theorem sent_append (side : Side) (log : List SessionEvent) {e : Codec × Packet}
    (h : e ∈ sent P cfg side log) : e ∈ sent P cfg side (events ++ log) := by
  rcases mem_append.mp h with h | h
  · obtain ⟨p, hp, rfl⟩ := mem_map.mp h
    exact mem_append_left _ (mem_map.mpr ⟨p, mem_append_handshakes hp, rfl⟩)
  refine mem_append_right _ ?_
  rw [encodings, filterMap_append]
  exact mem_append_right _ h

theorem Genuine.mono {logs logs' : Side → List SessionEvent} {codecs codecs' : List Codec}
    {wire : Bytes} (h : Genuine P cfg logs codecs wire)
    (hlogs : ∀ side, ∀ e ∈ sent P cfg side (logs side), e ∈ sent P cfg side (logs' side))
    (hcodecs : codecs' ⊆ codecs) : Genuine P cfg logs' codecs' wire := by
  intro codec hcodec hdecoded
  obtain ⟨side, e, he, hkey, hlayout⟩ := h codec (hcodecs hcodec) hdecoded
  exact ⟨side, e, hlogs side e he, hkey, hlayout⟩

theorem codecsInUse_append (side : Side) (log : List SessionEvent) :
    codecsInUse P cfg side log ⊆ codecsInUse P cfg side (events ++ log) := by
  intro codec hcodec
  rcases mem_cons.mp hcodec with rfl | hcodec
  · exact mem_cons_self
  · obtain ⟨d, hd, rfl⟩ := mem_map.mp hcodec
    exact mem_cons_of_mem _ (mem_map_of_mem (mem_append_derivations hd))

theorem DistinctIds.of_append {log : List SessionEvent} (h : DistinctIds (events ++ log)) :
    DistinctIds log := by
  rw [DistinctIds, handshakes, filterMap_append, map_append] at h
  exact h.of_append_right

theorem KeysBindTranscripts.mono {logs logs' : Side → List SessionEvent}
    (h : KeysBindTranscripts logs')
    (hlogs : ∀ side, ∀ d ∈ derivations (logs side), d ∈ derivations (logs' side)) :
    KeysBindTranscripts logs :=
  fun a b d hd d' hd' => h a b d (hlogs a d hd) d' (hlogs b d' hd')

theorem jointInv_clientCall {cC' : SessionCore}
    (he : Effects P (cfg.forSide .client) input cC cC' events)
    (h : JointInv P cfg logC logS cC cS) (hids : DistinctIds (events ++ logC))
    (hkeys : KeysBindTranscripts (both (events ++ logC) logS))
    (hgenuine : ∀ wire, input = some wire → Genuine P cfg (both logC logS)
      (codecsInUse P cfg .client (events ++ logC)) wire) :
    JointInv P cfg (events ++ logC) logS cC' cS := by
  induction he with
  | refl => exact h
  | @tail c' c'' events events' _ e ih =>
    rw [append_assoc] at hids hkeys hgenuine ⊢
    have hinv := ih hids.of_append
      (hkeys.mono fun side d hd => by
        cases side with
        | client => exact mem_append_derivations hd
        | server => exact hd)
      (fun wire hi => (hgenuine wire hi).mono (fun _ _ h => h) (codecsInUse_append _ _))
    refine jointInv_client hinv hids hkeys (fun wire hi => ?_) e
    refine (hgenuine wire hi).mono (fun side e he => ?_) (fun _ h => h)
    cases side with
    | client => exact sent_append _ _ he
    | server => exact he

theorem jointInv_serverCall {cS' : SessionCore}
    (he : Effects P (cfg.forSide .server) input cS cS' events)
    (h : JointInv P cfg logC logS cC cS)
    (hkeys : KeysBindTranscripts (both logC (events ++ logS)))
    (hgenuine : ∀ wire, input = some wire → Genuine P cfg (both logC logS)
      (codecsInUse P cfg .server (events ++ logS)) wire) :
    JointInv P cfg logC (events ++ logS) cC cS' := by
  induction he with
  | refl => exact h
  | @tail c' c'' events events' _ e ih =>
    rw [append_assoc] at hkeys hgenuine ⊢
    have hinv := ih
      (hkeys.mono fun side d hd => by
        cases side with
        | client => exact hd
        | server => exact mem_append_derivations hd)
      (fun wire hi => (hgenuine wire hi).mono (fun _ _ h => h) (codecsInUse_append _ _))
    refine jointInv_server hinv hkeys (fun wire hi => ?_) e
    refine (hgenuine wire hi).mono (fun side e he => ?_) (fun _ h => h)
    cases side with
    | client => exact he
    | server => exact sent_append _ _ he

theorem sideLog_cons_self (side : Side) (op : SessionOp) (report : Report) (past : JointHistory) :
    sideLog side (((side, op), report) :: past) = report.events ++ sideLog side past := by
  simp [sideLog]

theorem sideLog_cons_other {side other : Side} (hne : side ≠ other) (op : SessionOp)
    (report : Report) (past : JointHistory) :
    sideLog other (((side, op), report) :: past) = sideLog other past := by
  simp [sideLog, hne]

theorem sideLog_eq_both (past : JointHistory) :
    (sideLog · past) = both (sideLog .client past) (sideLog .server past) := by
  funext side
  cases side <;> rfl

theorem sideLog_cons_subset (call : (Side × SessionOp) × Report) (past : JointHistory)
    (side : Side) : ∃ events, sideLog side (call :: past) = events ++ sideLog side past :=
  ⟨_, rfl⟩

theorem GenuineCalls.mono {codecs codecs' : Side → List Codec}
    (hcodecs : ∀ side, codecs' side ⊆ codecs side) :
    ∀ {past : JointHistory}, GenuineCalls P cfg codecs past → GenuineCalls P cfg codecs' past
  | [], h => h
  | call :: _, h =>
    ⟨fun wire hwire => (h.1 wire hwire).mono (fun _ _ he => he) (hcodecs call.1.1),
      GenuineCalls.mono hcodecs h.2⟩

variable {past : JointHistory}

theorem Unforgeable.tail {call : (Side × SessionOp) × Report}
    (h : Unforgeable P cfg (call :: past)) : Unforgeable P cfg past := by
  refine GenuineCalls.mono (fun side => ?_) h.2
  obtain ⟨events, hevents⟩ := sideLog_cons_subset call past side
  rw [hevents]
  exact codecsInUse_append _ _

theorem jointInv_start : JointInv P cfg [] [] {} {} where
  client := clientInv_start
  server := serverInv_start
  clientSlots := slotInv_start
  serverSlots := slotInv_start
  inits := fun _ h => (not_mem_nil h).elim
  responses := fun _ h => (not_mem_nil h).elim
  held := fun _ h => (not_mem_nil h).elim
  promoted := fun _ h => (not_mem_nil h).elim
  active := fun _ => by simp
  acks := fun _ h => (not_mem_nil h).elim
  acknowledged := fun _ h => (not_mem_nil h).elim

theorem Unforgeable.head {side : Side} {op : SessionOp} {report : Report}
    (h : Unforgeable P cfg (((side, op), report) :: past)) {wire : Bytes}
    (hop : op.input = some wire) :
    Genuine P cfg (both (sideLog .client past) (sideLog .server past))
      (codecsInUse P cfg side (report.events ++ sideLog side past)) wire := by
  have := h.1 wire hop
  rw [← sideLog_eq_both, ← sideLog_cons_self]
  exact this

theorem KeysBindTranscripts.tail {call : (Side × SessionOp) × Report}
    (h : KeysBindTranscripts (sideLog · (call :: past))) :
    KeysBindTranscripts (sideLog · past) := by
  refine h.mono fun side d hd => ?_
  obtain ⟨events, hevents⟩ := sideLog_cons_subset call past side
  rw [hevents]
  exact mem_append_derivations hd

theorem jointInv_trace {j : Joint} (h : JointTrace P cfg past j)
    (hids : DistinctIds (sideLog .client past)) (hkeys : KeysBindTranscripts (sideLog · past))
    (hnetwork : Unforgeable P cfg past) :
    JointInv P cfg (sideLog .client past) (sideLog .server past) j.client.core j.server.core := by
  induction h with
  | nil => exact jointInv_start
  | @cons past j call h ih =>
    obtain ⟨side, op⟩ := call
    have hkeys₀ := hkeys.tail
    rw [sideLog_eq_both] at hkeys
    cases side with
    | client =>
      rw [sideLog_cons_self] at hids hkeys ⊢
      rw [sideLog_cons_other (by decide)] at hkeys ⊢
      exact jointInv_clientCall (sessionStep_effects P _ j.client op)
        (ih hids.of_append hkeys₀ hnetwork.tail) hids hkeys (fun _ hop => hnetwork.head hop)
    | server =>
      rw [sideLog_cons_other (by decide)] at hids hkeys ⊢
      rw [sideLog_cons_self] at hkeys ⊢
      exact jointInv_serverCall (sessionStep_effects P _ j.server op)
        (ih hids hkeys₀ hnetwork.tail) hkeys (fun _ hop => hnetwork.head hop)

end Calls

/-! ### Activation -/

section Activation
variable {P : Primitives} {cfg : SessionConfig} (s : Endpoint) (now : Time)

def Received.Quiet (result : Received) : Prop := result.activated = false ∧ result.data = false

theorem receiveInit_quiet (wire : Bytes) (packet : Packet) (wall : Int64) (random : Random) :
    (receiveInit P cfg s wire packet now wall random).result.Quiet := by
  rw [receiveInit]
  dsimp only
  split
  · exact ⟨rfl, rfl⟩
  split
  · rw [repeatedInit]
    split
    · split
      · split <;> exact ⟨rfl, rfl⟩
      · exact ⟨rfl, rfl⟩
    · exact ⟨rfl, rfl⟩
  split
  · exact ⟨rfl, rfl⟩
  split
  · exact ⟨rfl, rfl⟩
  split
  · exact ⟨rfl, rfl⟩
  rw [respond]
  split
  · split <;> exact ⟨rfl, rfl⟩
  · exact ⟨rfl, rfl⟩

theorem receiveResponse_quiet (wire : Bytes) (packet : Packet) :
    (receiveResponse P cfg s wire packet now).result.Quiet := by
  rw [receiveResponse]
  split
  · exact ⟨rfl, rfl⟩
  split
  · exact ⟨rfl, rfl⟩
  split
  · split <;> exact ⟨rfl, rfl⟩
  split <;> exact ⟨rfl, rfl⟩

/-- What `Received::activated` means in either role. -/
structure Activates (cfg : SessionConfig) (s : Endpoint) (o : Outcome Received)
    (session : Session) : Prop where
  active : o.state.active = some session
  server : cfg.server = true → s.pending = some session ∧ .promoted session ∈ o.events
  client : cfg.server = false → .acknowledged session ∈ o.events ∧ s.waitingAck = true ∧
    o.state.waitingAck = false

variable {wire : Bytes}

theorem receiveSession_activated {type : PacketType}
    (h : (receiveSession P cfg s type wire now).result.activated = true) :
    ∃ session, Activates cfg s (receiveSession P cfg s type wire now) session := by
  revert h
  rw [receiveSession]
  split
  · simp
  next slot session packet hmatch =>
  have hslot := (matchSession_cases hmatch).1
  split
  · rw [receiveConfirm]
    split
    · simp
    next hguard =>
    push Not at hguard
    cases slot with
    | active => simp
    | pending =>
      intro _
      refine ⟨session, rfl, fun _ => ⟨hslot, mem_cons_self⟩, fun hclient => ?_⟩
      rw [hclient] at hguard
      cases hguard.1
    | previous => simp
  · rw [receiveConfirmAck]
    split
    · simp
    next hguard =>
    push Not at hguard
    obtain ⟨hclient, rfl, -⟩ := hguard
    split
    · simp
    next hwaiting =>
    intro _
    exact ⟨session, hslot, fun hserver => absurd hserver hclient,
      fun _ => ⟨mem_cons_self, not_not.mp hwaiting, rfl⟩⟩
  intro hdata
  exfalso
  revert hdata
  cases slot with
  | active =>
    simp only [receiveData]
    split <;> simp
  | pending => rintro ⟨⟩
  | previous =>
    simp only [receiveData]
    split
    · simp
    · split <;> simp

theorem sessionReceive_of_not_quiet {wall : Int64} {random : Random}
    (h : ¬(sessionReceive P cfg s wire now wall random).result.Quiet) :
    ∃ type, PacketType.ofByte (wire.headD 0 &&& 0x1f) = some type ∧
      sessionReceive P cfg s wire now wall random =
        receiveSession P cfg ((s.expirePrevious now).expirePending now) type wire now := by
  revert h
  rw [sessionReceive]
  generalize (s.expirePrevious now).expirePending now = s
  have hempty : Received.Quiet {} := ⟨rfl, rfl⟩
  split
  · exact fun h => absurd hempty h
  split
  · exact fun h => absurd hempty h
  next type htype =>
  split
  · exact fun h => absurd hempty h
  split
  · intro hloud
    refine absurd ?_ hloud
    rw [receiveHandshake]
    generalize (if cfg.server = true then PacketType.init else PacketType.response) = expected
    split
    · exact hempty
    split
    · exact hempty
    split
    · exact hempty
    split
    · exact receiveInit_quiet s now wire _ wall random
    · exact receiveResponse_quiet s now wire _
  · exact fun _ => ⟨type, htype, rfl⟩

theorem sessionReceive_of_activated {wall : Int64} {random : Random}
    (h : (sessionReceive P cfg s wire now wall random).result.activated = true) :
    ∃ type, sessionReceive P cfg s wire now wall random =
      receiveSession P cfg ((s.expirePrevious now).expirePending now) type wire now := by
  have hloud : ¬(sessionReceive P cfg s wire now wall random).result.Quiet := by
    rintro ⟨hquiet, -⟩
    rw [h] at hquiet
    cases hquiet
  obtain ⟨type, -, heq⟩ := sessionReceive_of_not_quiet s now hloud
  exact ⟨type, heq⟩

theorem sessionReceive_activated {wall : Int64} {random : Random}
    (h : (sessionReceive P cfg s wire now wall random).result.activated = true) :
    ∃ session, Activates cfg s (sessionReceive P cfg s wire now wall random) session := by
  obtain ⟨type, heq⟩ := sessionReceive_of_activated s now h
  rw [heq] at h ⊢
  obtain ⟨session, hs⟩ := receiveSession_activated _ now h
  refine ⟨session, hs.active, fun hserver => ⟨?_, (hs.server hserver).2⟩, fun hclient => ?_⟩
  · exact expire_pending_some (hs.server hserver).1
  · rw [← expire_waitingAck s now]
    exact hs.client hclient

theorem sessionStep_activated {op : SessionOp}
    (h : (sessionStep P cfg s op).2.received.activated = true) :
    ∃ wire now wall random session, op = .receive wire now wall random ∧
      Activates cfg s (sessionReceive P cfg s wire now wall random) session := by
  cases op with
  | receive wire now wall random =>
    obtain ⟨session, hs⟩ := sessionReceive_activated s now h
    exact ⟨wire, now, wall, random, session, rfl, hs⟩
  | _ => cases h

end Activation

section Agreement
variable {P : Primitives} {cfg : SessionConfig} {past : JointHistory} {j : Joint}

/-- Handshake agreement, for every call in every history: a client that accepts an
acknowledgement finds a session the server promoted before, with the same
transcript, exchange and hint and with swapped keys; a server that promotes finds a
session the client derived before from the same transcript; and whatever session is
active on one side, the other side holds its transcript. -/
theorem handshake_agreement (h : JointTrace P cfg past j) (side : Side) (op : SessionOp)
    (hids : DistinctIds
      (sideLog .client (((side, op), (jointStep P cfg j (side, op)).2) :: past)))
    (hkeys : KeysBindTranscripts
      (sideLog · (((side, op), (jointStep P cfg j (side, op)).2) :: past)))
    (hnetwork : Unforgeable P cfg (((side, op), (jointStep P cfg j (side, op)).2) :: past)) :
    (side = .client → (jointStep P cfg j (side, op)).2.received.activated = true →
      j.client.waitingAck = true ∧ (jointStep P cfg j (side, op)).1.client.waitingAck = false ∧
      ∃ session, (jointStep P cfg j (side, op)).1.client.active = some session ∧
        ∃ d ∈ promotions (sideLog .server past), d.init = session.init ∧
          d.response = session.response ∧ d.exchange = session.exchange ∧ d.hint = session.hint ∧
          d.codec.txKey = session.codec.rxKey ∧ d.codec.rxKey = session.codec.txKey) ∧
    (side = .server → (jointStep P cfg j (side, op)).2.received.activated = true →
      ∃ session, j.server.pending = some session ∧
        (jointStep P cfg j (side, op)).1.server.active = some session ∧
        ∃ d ∈ derivations (sideLog .client past), d.init = session.init ∧
          d.response = session.response) ∧
    (∀ session, (jointStep P cfg j (side, op)).1.client.active = some session →
      ∃ d ∈ derivations (sideLog .server (((side, op), (jointStep P cfg j (side, op)).2) :: past)),
        d.init = session.init ∧ d.response = session.response) ∧
    ∀ session, (jointStep P cfg j (side, op)).1.server.active = some session →
      ∃ d ∈ derivations (sideLog .client (((side, op), (jointStep P cfg j (side, op)).2) :: past)),
        d.init = session.init ∧ d.response = session.response := by
  have hinv := jointInv_trace (.cons (side, op) h) hids hkeys hnetwork
  refine ⟨?_, ?_, ?_, ?_⟩
  · rintro rfl hactivated
    obtain ⟨wire, now, wall, random, session, rfl, hs⟩ := sessionStep_activated j.client hactivated
    obtain ⟨hmem, hbefore, hafter⟩ := hs.client rfl
    have hack : session ∈ acknowledgements (sideLog .client (((.client,
        .receive wire now wall random), (jointStep P cfg j
          (.client, .receive wire now wall random)).2) :: past)) := by
      rw [sideLog_cons_self, acknowledgements, List.filterMap_append]
      exact List.mem_append_left _ (List.mem_filterMap.mpr ⟨_, hmem, rfl⟩)
    obtain ⟨d, hd, hagrees, hexchange, hkey⟩ := hinv.acknowledged session hack
    rw [sideLog_cons_other (by decide)] at hd
    exact ⟨hbefore, hafter, session, hs.active, d, hd, hagrees.transcript.1.symm,
      hagrees.transcript.2.symm, hexchange.symm, hagrees.hint.symm, hkey, hagrees.key.symm⟩
  · rintro rfl hactivated
    obtain ⟨wire, now, wall, random, session, rfl, hs⟩ := sessionStep_activated j.server hactivated
    obtain ⟨hpending, hmem⟩ := hs.server rfl
    have hpromoted : session ∈ promotions (sideLog .server (((.server,
        .receive wire now wall random), (jointStep P cfg j
          (.server, .receive wire now wall random)).2) :: past)) := by
      rw [sideLog_cons_self, promotions, List.filterMap_append]
      exact List.mem_append_left _ (List.mem_filterMap.mpr ⟨_, hmem, rfl⟩)
    obtain ⟨-, d, hd, hagrees⟩ := hinv.promoted session hpromoted
    rw [sideLog_cons_other (by decide)] at hd
    exact ⟨session, hpending, hs.active, d, hd, hagrees.transcript⟩
  · intro session hactive
    obtain ⟨d, hd, hi, hr⟩ := hinv.held _ (hinv.clientSlots.held .active session hactive)
    exact ⟨d, hd, hi.symm, hr.symm⟩
  · intro session hactive
    obtain ⟨-, d, hd, hagrees⟩ := hinv.promoted _ (hinv.active session hactive)
    exact ⟨d, hd, hagrees.transcript⟩

end Agreement

section Samples

def checksum (bytes : Bytes) : Tag :=
  block 16 (BigEndian.digits 16 (bytes.foldl (fun acc b => (acc * 1000003 + b.toNat + 1) % 2 ^ 128) 7))

/-- Checksums in place of cryptography, so that whole handshakes evaluate quickly. -/
def checksumPrimitives : Primitives where
  mac key id bytes := checksum (key.toList ++ storeBe16 id ++ bytes)
  encrypt key nonce ad input := (input, checksum (key.toList ++ nonce ++ ad ++ input))
  decrypt key nonce ad input tag :=
    if checksum (key.toList ++ nonce ++ ad ++ input) = tag then some input else none
  publicKey := id
  x25519 secret _ := secret
  encrypt_length _ _ _ _ := rfl
  decrypt_iff _ _ _ input _ output := by
    rw [Option.ite_none_right_eq_some, Option.some_inj, Prod.mk.injEq]
    constructor
    · rintro ⟨htag, rfl⟩
      exact ⟨rfl, htag⟩
    · rintro ⟨rfl, htag⟩
      exact ⟨htag, rfl⟩

def lastReply (past : JointHistory) : Bytes :=
  (past.head?.map fun call => call.2.received.reply).getD []

def sampleOffered : JointHistory × Joint :=
  Transition.run (jointStep checksumPrimitives (sampleConfig false)) {}
    [(.client, .begin 0 1000 (sampleRandom 2)),
      (.server, .receive (sampleInit checksumPrimitives) 0 1000 (sampleRandom 3)),
      (.client, .receive (sampleResponse checksumPrimitives) 1 1000 {})]

def sampleConfirm : Side × SessionOp :=
  (.server, .receive (lastReply sampleOffered.1) 2 1000 {})

def sampleConfirmed : Joint × Report :=
  jointStep checksumPrimitives (sampleConfig false) sampleOffered.2 sampleConfirm

def sampleAck : SessionOp := .receive sampleConfirmed.2.received.reply 3 1000 {}

def sampleAcknowledged : Joint × Report :=
  jointStep checksumPrimitives (sampleConfig false) sampleConfirmed.1 (.client, sampleAck)

def sampleHistory : JointHistory :=
  ((.client, sampleAck), sampleAcknowledged.2) :: (sampleConfirm, sampleConfirmed.2) ::
    sampleOffered.1

theorem sampleHistory_facts :
    sampleAcknowledged.2.received.activated = true ∧
      DistinctIds (sideLog .client sampleHistory) ∧
      KeysBindTranscripts (sideLog · sampleHistory) ∧
      Unforgeable checksumPrimitives (sampleConfig false) sampleHistory := by
  decide +kernel

theorem handshake_agreement_sample :
    ∃ session, sampleAcknowledged.1.client.active = some session ∧
      ∃ d ∈ promotions (sideLog .server ((sampleConfirm, sampleConfirmed.2) :: sampleOffered.1)),
        d.init = session.init ∧ d.response = session.response ∧
          d.codec.txKey = session.codec.rxKey ∧ d.codec.rxKey = session.codec.txKey := by
  obtain ⟨hactivated, hids, hkeys, hnetwork⟩ := sampleHistory_facts
  have htrace : JointTrace checksumPrimitives (sampleConfig false)
      ((sampleConfirm, sampleConfirmed.2) :: sampleOffered.1) sampleConfirmed.1 :=
    .cons sampleConfirm (Transition.trace_run _)
  obtain ⟨-, -, session, hactive, d, hd, hinit, hresponse, -, -, htx, hrx⟩ :=
    (handshake_agreement htrace .client sampleAck hids hkeys hnetwork).1 rfl hactivated
  exact ⟨session, hactive, d, hd, hinit, hresponse, htx, hrx⟩

end Samples

end Tuntom
