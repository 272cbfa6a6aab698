import Tuntom.ControlForward

/-! A frame near the maximum size grows by its reply link before it loses its hop.
Its encoding is what throws, before any link limit is looked at. -/
namespace Tuntom.ControlRoute
open Control (Id zeroBlock AuthorityKey Auth Challenge)

namespace Router

variable {P : Primitives} {r : Router} {f : Frame}

theorem canonical_of_discovery (h : Discovery f) : f.discoveryCanonical.isSome = true := by
  obtain ⟨hstate, hoffset, htotal, hdata⟩ := h.data
  obtain ⟨-, -, hrequest, horigin⟩ := Frame.ids_of_valid h.valid
  have hcommand := Frame.command_le h.valid
  have hbare : ({ f with auth := [], destination := [], replyPath := [], remaining := 16 } :
      Frame).Encodable := by
    refine ⟨?_, stackable_nil, stackable_nil, ?_⟩
    · rw [Frame.fieldsValid, if_neg, if_neg, if_neg, if_neg]
      · exact decide_eq_true ⟨hstate, hoffset, htotal, .inr hdata⟩
      · rw [Frame.transaction]
        simp only [h.kind]
        decide
      · simp only [h.kind]
        decide
      · exact fun hbad => hbad.1 rfl
      · rintro (hbad | hbad | hbad | hbad | hbad)
        · exact absurd (show (16 : UInt8) = 0 from hbad) (by decide)
        · exact absurd (show (16 : UInt8) < 16 from hbad) (by decide)
        · exact hrequest hbad
        · exact horigin hbad
        · exact absurd hbad (Nat.not_lt.mpr hcommand)
    · simp only [Frame.size, hdata, pathBytes, List.flatMap_nil, List.length_nil, headerSize, maxFrame]
      omega
  rw [Frame.discoveryCanonical, Frame.encode_of hbare]
  rfl

theorem challengeDiscovery_safe (h : Discovery f) (ingress : Bytes) (now : Time)
    (secret : Option (Block 32)) : (r.challengeDiscovery P f ingress now secret).2.threw = false := by
  have hcases := challengeDiscovery_cases (P := P) r f ingress now secret
  generalize r.challengeDiscovery P f ingress now secret = result at hcases
  cases hcases with
  | silent => rfl
  | issued i =>
    have hlen := Challenge.length_encode i.challenge
    refine route_safe ⟨h.answerable.request, h.answerable.origin, h.answerable.command,
      stackable_nil⟩ fun _ => ?_
    refine h.answerable.response [] (.inr (.inr (.inr ⟨rfl, hlen⟩))) (.inl rfl) ?_
    exact Nat.le_trans (Nat.le_of_eq hlen) (by decide)

theorem proveDiscovery_safe (hr : r.Sound) (h : Discovery f) (now : Time) :
    (r.proveDiscovery P f now).2.threw = false := by
  rw [proveDiscovery]
  dsimp only
  split
  · rfl
  next session hfind =>
  split
  · rfl
  split
  next hnone =>
    have hsome := canonical_of_discovery h
    rw [hnone] at hsome
    cases hsome
  split
  · rfl
  · refine announce_safe P (hr.sessions _ _ hfind) ?_ _ now _
    exact hr.component

theorem discover_safe (hr : r.Sound) (h : Discovery f) (ingress : Bytes) (now : Time)
    (secret : Option (Block 32)) : (r.discover P f ingress now secret).2.threw = false := by
  rw [discover]
  split
  · exact announce_safe P h hr.component ingress now none
  split
  · exact challengeDiscovery_safe h ingress now secret
  · exact proveDiscovery_safe hr h now

theorem size_forwarded {hop : Hop} {rest : Path} (hdest : f.destination = hop :: rest)
    (ingress : Bytes) (e : Edge) (fresh : Fresh) :
    (r.pushed ingress e fresh f).popped.size + hop.bytes.length = f.size + 18 := by
  simp only [Frame.size, Frame.popped, pushed, hdest, List.tail_cons, pathBytes_cons,
    List.length_append, Hop.length_link]
  omega

theorem encodable_forwarded {bytes : Bytes} {hop : Hop} {rest : Path}
    (hdecode : Frame.decode bytes = some f) (hroom : f.replyPath.length < maxHops)
    (hdest : f.destination = hop :: rest) (hbudget : 1 < f.remaining) (ingress : Bytes) (e : Edge)
    (fresh : Fresh) :
    (r.pushed ingress e fresh f).popped.Encodable ↔
      (r.pushed ingress e fresh f).popped.size ≤ maxFrame := by
  obtain ⟨hencode, -⟩ := Frame.decode_sound hdecode
  obtain ⟨-, hle, -, -⟩ := Frame.ids_of_valid hencode.1
  obtain ⟨hne, hle', -⟩ := Frame.pred_remaining hbudget hle
  have htail : Stackable f.destination.tail := by
    have hstack := hencode.2.1
    rw [hdest] at hstack ⊢
    exact hstack.tail
  constructor
  · exact fun h => h.2.2.2
  · exact fun hsize => ⟨Frame.fieldsValid_reroute hencode.1 (f.remaining - 1) hne hle' _ _, htail,
      hencode.2.2.1.push hroom (token_ne_zero r ingress e fresh), hsize⟩

/-- A frame to be forwarded that is over the maximum once its link is pushed and its
hop popped. -/
def Outgrown (r : Router) (ingress bytes : Bytes) (now : Time) (fresh : Fresh) : Prop :=
  ∃ f e hop rest out, Frame.decode bytes = some f ∧ r.edges.find? ingress = some e ∧
    f.replyPath.length < maxHops ∧ f.destination = hop :: rest ∧
    (r.arrived ingress e now fresh).resolve hop = some out ∧ 1 < f.remaining ∧
    maxFrame + hop.bytes.length < bytes.length + 18

theorem receive_threw_iff (hr : r.Sound) (hallowed : r.allowed = true) (ingress bytes : Bytes)
    (now : Time) (fresh : Fresh) :
    (r.receive P ingress bytes now fresh).2.threw = true ↔ r.Outgrown ingress bytes now fresh := by
  constructor
  · intro hthrew
    have hcases := receive_cases (P := P) r ingress bytes now fresh
    generalize r.receive P ingress bytes now fresh = result at hcases hthrew
    cases hcases with
    | ignored => cases hthrew
    | tooDeep f hdecode =>
      rw [reject_threw (Frame.decode_sound hdecode).1.answerable (by decide)] at hthrew
      cases hthrew
    | routed f e hdecode hedge hroom =>
      obtain ⟨hencode, hsize⟩ := Frame.decode_sound hdecode
      have hkept := arrived_kept (P := P) r ingress e now fresh
      have hanswer : (r.pushed ingress e fresh f).Answerable :=
        hencode.answerable.pushed hroom (token_ne_zero r ingress e fresh)
      rw [route_threw hanswer, attempt_threw_iff (hkept.allowed.trans hallowed)] at hthrew
      obtain ⟨hop, rest, out, hpushed, hout, hbudget, hnot⟩ := hthrew
      have hdest : f.destination = hop :: rest := hpushed
      rw [encodable_forwarded hdecode hroom hdest hbudget] at hnot
      have hgrown := size_forwarded (r := r) hdest ingress e fresh
      exact ⟨f, e, hop, rest, out, hdecode, hedge, hroom, hdest, hout, hbudget, by omega⟩
    | discovered f e hdecode hedge hroom hkind =>
      have hsound := hr.kept (arrived_kept (P := P) r ingress e now fresh)
      have hdiscovery := pushed_discovery (r := r) hdecode hroom hkind ingress e fresh
      rw [discover_safe hsound hdiscovery] at hthrew
      cases hthrew
  · rintro ⟨f, e, hop, rest, out, hdecode, hedge, hroom, hdest, hout, hbudget, hover⟩
    obtain ⟨hencode, hsize⟩ := Frame.decode_sound hdecode
    have hkept := arrived_kept (P := P) r ingress e now fresh
    have hanswer : (r.pushed ingress e fresh f).Answerable :=
      hencode.answerable.pushed hroom (token_ne_zero r ingress e fresh)
    have hgrown := size_forwarded (r := r) hdest ingress e fresh
    have hkind : ¬(f.kind = .discover ∧ f.destination = []) := by
      rw [hdest]
      rintro ⟨-, ⟨⟩⟩
    rw [receive_routed hallowed hdecode hedge hroom hkind, route_threw hanswer, attempt_threw_iff (hkept.allowed.trans hallowed)]
    refine ⟨hop, rest, out, hdest, hout, hbudget, ?_⟩
    rw [encodable_forwarded hdecode hroom hdest hbudget]
    omega

/-- A frame over the limit of its link, and not over the maximum, is answered with a
route error, unless it is a reply itself. -/
theorem receive_over_limit {ingress bytes : Bytes} {e out : Edge} {hop : Hop} {rest : Path}
    (hallowed : r.allowed = true) (hdecode : Frame.decode bytes = some f)
    (hedge : r.edges.find? ingress = some e) (hroom : f.replyPath.length < maxHops)
    (hdest : f.destination = hop :: rest) {now : Time} {fresh : Fresh}
    (hout : (r.arrived ingress e now fresh).resolve hop = some out) (hbudget : 1 < f.remaining)
    (hlimit : out.limit + hop.bytes.length < bytes.length + 18)
    (hmax : bytes.length + 18 ≤ maxFrame + hop.bytes.length) :
    r.receive P ingress bytes now fresh = (r.arrived ingress e now fresh,
      (r.arrived ingress e now fresh).reject (r.pushed ingress e fresh f)
        (ascii "path_mtu_exceeded")) := by
  obtain ⟨-, hsize⟩ := Frame.decode_sound hdecode
  have hgrown := size_forwarded (r := r) hdest ingress e fresh
  have hencode : (r.pushed ingress e fresh f).popped.Encodable :=
    (encodable_forwarded hdecode hroom hdest hbudget ingress e fresh).mpr (by omega)
  have hkind : ¬(f.kind = .discover ∧ f.destination = []) := by
    rw [hdest]
    rintro ⟨-, ⟨⟩⟩
  have hopen : ¬(r.arrived ingress e now fresh).allowed = false := by
    rw [(arrived_kept (P := P) r ingress e now fresh).allowed, hallowed]
    decide
  have hattempt : (r.arrived ingress e now fresh).attempt (r.pushed ingress e fresh f) =
      .refused (r.pushed ingress e fresh f).popped (ascii "path_mtu_exceeded") := by
    have htop : (r.pushed ingress e fresh f).destination = hop :: rest := hdest
    have hmore : ¬(r.pushed ingress e fresh f).remaining ≤ 1 := UInt8.not_le.mpr hbudget
    rw [attempt, if_neg hopen, htop]
    simp only [hout, if_neg hmore, Frame.encode_of hencode, Frame.length_bytes]
    exact if_pos (by omega)
  rw [receive_routed hallowed hdecode hedge hroom hkind, route, hattempt]
  rfl

end Router

open Transition (Trace)

/-- In every state a router can reach, bytes from a registered edge make `receive`
throw exactly when they are a frame to be forwarded that outgrows the maximum; below
that a frame over the limit of its link gets a route error. -/
theorem receive_survives_iff (P : Primitives) {start r : Router}
    (hstart : start.discoveryIn = {}) (hcomponent : start.component.length ≤ 64064)
    {past : List (Call × Watched)} (h : Trace (Router.watch P) start past r)
    (hallowed : r.allowed = true) (ingress bytes : Bytes) (now : Time) (fresh : Fresh) :
    ((r.receive P ingress bytes now fresh).2.threw = false ↔
      ¬r.Outgrown ingress bytes now fresh) ∧
    ∀ f e hop rest out, Frame.decode bytes = some f → r.edges.find? ingress = some e →
      f.replyPath.length < maxHops → f.destination = hop :: rest →
      (r.arrived ingress e now fresh).resolve hop = some out → 1 < f.remaining →
      out.limit + hop.bytes.length < bytes.length + 18 →
      bytes.length + 18 ≤ maxFrame + hop.bytes.length →
      r.receive P ingress bytes now fresh = (r.arrived ingress e now fresh,
        (r.arrived ingress e now fresh).reject (r.pushed ingress e fresh f)
          (ascii "path_mtu_exceeded")) := by
  have hsound : r.Sound := by
    have hempty : start.Sound := by
      refine ⟨hcomponent, fun n d hfind => ?_⟩
      rw [hstart] at hfind
      cases hfind
    exact Trace.invariant (fun _ s => s.Sound) hempty (fun _ _ call _ hs => Router.step_sound hs call) h
  refine ⟨?_, ?_⟩
  · rw [← Router.receive_threw_iff (P := P) hsound hallowed, Bool.not_eq_true]
  · intro f e hop rest out hdecode hedge hroom hdest hout hbudget hlimit hmax
    exact Router.receive_over_limit hallowed hdecode hedge hroom hdest hout hbudget hlimit hmax

def sampleRouter : Router where
  instanceId := Vector.replicate 16 7
  component := ascii "switch"
  allowed := true

def sampleFresh : Fresh := { token := Vector.replicate 16 1, nonzero := ones_ne_zeroBlock }

def sampleEdges : List Call :=
  [.edge (ascii "peer") 1 true maxFrame, .edge (ascii "a") 2 false maxFrame]

def largestBlock : Frame where
  kind := .put
  state := 1
  request := Vector.replicate 16 2
  origin := Vector.replicate 16 3
  total := 65481
  destination := [Hop.peer]
  data := List.replicate 65481 0

theorem largestBlock_encodable : largestBlock.Encodable ∧ largestBlock.size = maxFrame := by
  have hdata : largestBlock.data.length = 65481 := List.length_replicate
  have hsize : largestBlock.size = maxFrame := by
    rw [Frame.size, hdata]
    rfl
  refine ⟨⟨?_, by decide, by decide, Nat.le_of_eq hsize⟩, hsize⟩
  rw [Frame.fieldsValid, if_neg (by decide), if_neg (by decide), if_neg (by decide),
    if_pos (by decide), if_neg (by decide), if_neg (by decide), if_neg (by decide),
    if_pos (by decide), hdata]
  decide

def sampleRun : List (Call × Watched) × Router :=
  Transition.run (Router.watch plainPrimitives) sampleRouter sampleEdges

def samplePort : Edge := { name := ascii "a", generation := 2, peer := false, limit := maxFrame }

theorem sampleRun_facts :
    sampleRun.2.allowed = true ∧ sampleRun.2.component = ascii "switch" ∧
      sampleRun.2.discoveryIn = {} ∧ sampleRun.2.edges.find? (ascii "a") = some samplePort ∧
      (sampleRun.2.arrived (ascii "a") samplePort 0 sampleFresh).resolve Hop.peer =
        some { name := ascii "peer", generation := 1, peer := true, limit := maxFrame } := by
  decide +kernel

/-- The largest block that decodes, sent on to the peer, is not answered with a route error. -/
theorem largest_block_throws :
    largestBlock.bytes.length ≤ maxFrame ∧ sampleRun.2.edges.contains (ascii "a") = true ∧
      (sampleRun.2.receive plainPrimitives (ascii "a") largestBlock.bytes 0
        sampleFresh).2.threw = true := by
  obtain ⟨hallowed, hcomponent, hin, hedge, hpeer⟩ := sampleRun_facts
  obtain ⟨hencode, hsize⟩ := largestBlock_encodable
  have hlen : largestBlock.bytes.length = maxFrame := (Frame.length_bytes _).trans hsize
  have hsound : sampleRun.2.Sound := by
    refine ⟨?_, fun n d hfind => ?_⟩
    · rw [hcomponent]
      decide
    · rw [hin] at hfind
      cases hfind
  refine ⟨Nat.le_of_eq hlen, ?_, ?_⟩
  · rw [OrderedMap.contains, hedge]
    rfl
  · refine (Router.receive_threw_iff hsound hallowed _ _ _ _).mpr ?_
    refine ⟨largestBlock, _, Hop.peer, [], _, Frame.decode_bytes hencode, hedge, by decide, rfl,
      hpeer, by decide, ?_⟩
    rw [hlen]
    decide

theorem receive_survives_iff_sample :
    (sampleRun.2.receive plainPrimitives (ascii "a") largestBlock.bytes 0
      sampleFresh).2.threw = false ↔
      ¬sampleRun.2.Outgrown (ascii "a") largestBlock.bytes 0 sampleFresh :=
  (@receive_survives_iff plainPrimitives sampleRouter sampleRun.2 rfl (by decide) sampleRun.1
    (Transition.trace_run sampleEdges) sampleRun_facts.1 (ascii "a") largestBlock.bytes 0
    sampleFresh).1

end Tuntom.ControlRoute
