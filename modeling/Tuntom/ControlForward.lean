import Tuntom.ControlRouter
import Tuntom.ControlProof
import Mathlib.Logic.Relation

/-! How a router moves frames: what `route` can emit, and when the encoding of a
frame that grew on the way throws. -/
namespace Tuntom.ControlRoute
open List
open Control (Id zeroBlock AuthorityKey AuthConfig Auth AuthSession Challenge proofSize)

namespace Router

variable {r : Router} {f : Frame} {e : Effect} {reason : Bytes}

inductive Moved (r : Router) (f : Frame) : Effect → Prop
  | here (hdest : f.destination = []) : Moved r f (.delivered f)
  | passed (hop : Hop) (rest : Path) (out : Edge) (hdest : f.destination = hop :: rest)
      (hedge : r.resolve hop = some out) (hbudget : 1 < f.remaining) (hencode : f.popped.Encodable)
      (hfits : f.popped.size ≤ out.limit) : Moved r f (.sent out.name f.popped.bytes)

theorem mem_attempt (h : e ∈ (r.attempt f).emitted.effects) : Moved r f e := by
  rw [attempt] at h
  split at h
  · cases h
  split at h
  next hdest =>
    rw [mem_singleton.mp h]
    exact .here hdest
  next hop rest hdest =>
  split at h
  · cases h
  next out hedge =>
  split at h
  · cases h
  next hbudget =>
  split at h
  · cases h
  next b hb =>
  split at h
  · cases h
  next hfits =>
  obtain ⟨hencode, rfl⟩ := Frame.encode_eq_some hb
  rw [Frame.length_bytes] at hfits
  rw [mem_singleton.mp h]
  exact .passed hop rest out hdest hedge (UInt8.not_le.mp hbudget) hencode
    (Nat.not_lt.mp hfits)

theorem mem_reject (h : e ∈ (r.reject f reason).effects) :
    f.kind.quiet = false ∧ Moved r (f.response .routeError reason) e := by
  rw [reject] at h
  split at h
  · cases h
  next hquiet => exact ⟨Bool.eq_false_iff.mpr hquiet, mem_attempt h⟩

/-- An attempt that is refused is refused for the frame as it came or as it would leave. -/
theorem attempt_refused {g : Frame} (h : r.attempt f = .refused g reason) :
    r.reject g reason = r.reject f reason ∧ reason.length ≤ 17 := by
  rw [attempt] at h
  split at h
  · cases h
  split at h
  · cases h
  split at h
  · cases h
    exact ⟨rfl, by decide⟩
  split at h
  · cases h
    exact ⟨rfl, by decide⟩
  split at h
  · cases h
  split at h
  · cases h
    exact ⟨rfl, by decide⟩
  · cases h

theorem route_cases (r : Router) (f : Frame) :
    r.route f = (r.attempt f).emitted ∨
      ((r.attempt f).emitted = {} ∧ ∃ reason, reason.length ≤ 17 ∧ r.route f = r.reject f reason) := by
  rw [route]
  split
  next g reason h =>
    obtain ⟨hsame, hlen⟩ := attempt_refused h
    exact .inr ⟨by rw [h]; rfl, reason, hlen, hsame⟩
  next => exact .inl rfl

theorem mem_route (h : e ∈ (r.route f).effects) :
    Moved r f e ∨ (f.kind.quiet = false ∧ ∃ reason, Moved r (f.response .routeError reason) e) := by
  rcases route_cases r f with hroute | ⟨-, reason, -, hroute⟩
  · rw [hroute] at h
    exact .inl (mem_attempt h)
  rw [hroute] at h
  obtain ⟨hquiet, hmoved⟩ := mem_reject h
  exact .inr ⟨hquiet, reason, hmoved⟩

theorem Moved.sent {edge b : Bytes} (h : Moved r f (.sent edge b)) :
    Frame.decode b = some f.popped ∧ 1 < f.remaining ∧
      ∃ hop rest out, f.destination = hop :: rest ∧ r.resolve hop = some out ∧ out.name = edge := by
  cases h with
  | passed hop rest out hdest hedge hbudget hencode hfits =>
    exact ⟨Frame.decode_bytes hencode, hbudget, hop, rest, out, hdest, hedge, rfl⟩

/-! ### Throwing -/

end Router

namespace Frame

variable {f : Frame}

structure Answerable (f : Frame) : Prop where
  request : f.request ≠ zeroBlock 16
  origin : f.origin ≠ zeroBlock 16
  command : f.command.length ≤ 256
  replyPath : Stackable f.replyPath

theorem ids_of_valid (h : f.fieldsValid = true) :
    f.remaining ≠ 0 ∧ f.remaining ≤ 16 ∧ f.request ≠ zeroBlock 16 ∧ f.origin ≠ zeroBlock 16 := by
  rw [fieldsValid] at h
  split at h
  · cases h
  next hids =>
  rw [not_or, not_or, not_or, not_or] at hids
  exact ⟨hids.1, UInt8.not_lt.mp hids.2.1, hids.2.2.1, hids.2.2.2.1⟩

theorem Encodable.answerable (h : f.Encodable) : f.Answerable := by
  obtain ⟨-, -, hrequest, horigin⟩ := ids_of_valid h.1
  exact ⟨hrequest, horigin, command_le h.1, h.2.2.1⟩

theorem Answerable.pushed (h : f.Answerable) (hroom : f.replyPath.length < maxHops) {id : Id}
    (hid : id ≠ zeroBlock 16) : ({ f with replyPath := Hop.link id :: f.replyPath }).Answerable :=
  { h with replyPath := h.replyPath.push hroom hid }

theorem fieldsValid_reroute (h : f.fieldsValid = true) (remaining : UInt8) (hzero : remaining ≠ 0)
    (hle : remaining ≤ 16) (destination replyPath : Path) :
    fieldsValid { f with remaining, destination, replyPath } = true := by
  have hfirst : ¬(f.remaining = 0 ∨ 16 < f.remaining ∨ f.request = zeroBlock 16 ∨
      f.origin = zeroBlock 16 ∨ 256 < f.command.length) := by
    intro hbad
    rw [fieldsValid, if_pos hbad] at h
    cases h
  rw [fieldsValid, if_neg hfirst] at h
  rw [fieldsValid]
  rw [not_or, not_or] at hfirst
  have hnew : ¬(remaining = 0 ∨ 16 < remaining ∨ f.request = zeroBlock 16 ∨
      f.origin = zeroBlock 16 ∨ 256 < f.command.length) := by
    rintro (hbad | hbad | hbad)
    · exact hzero hbad
    · exact absurd hbad (UInt8.not_lt.mpr hle)
    · exact hfirst.2.2 hbad
  exact (if_neg hnew).trans h

theorem pred_remaining (hbudget : 1 < f.remaining) (hle : f.remaining ≤ 16) :
    f.remaining - 1 ≠ 0 ∧ f.remaining - 1 ≤ 16 ∧
      (f.remaining - 1).toNat = f.remaining.toNat - 1 := by
  have hone : (1 : UInt8) ≤ f.remaining := UInt8.le_of_lt hbudget
  have hsub : (f.remaining - 1).toNat = f.remaining.toNat - 1 := UInt8.toNat_sub_of_le _ _ hone
  have hlt := UInt8.lt_iff_toNat_lt.mp hbudget
  have hnat := UInt8.le_iff_toNat_le.mp hle
  have h1 : (1 : UInt8).toNat = 1 := rfl
  have h16 : (16 : UInt8).toNat = 16 := rfl
  refine ⟨?_, ?_, hsub⟩
  · intro hzero
    have := congrArg UInt8.toNat hzero
    rw [hsub] at this
    have h0 : (0 : UInt8).toNat = 0 := rfl
    omega
  · rw [UInt8.le_iff_toNat_le, hsub]
    omega

theorem Answerable.response (h : f.Answerable) {kind : Kind} {data : Bytes} (auth : Bytes)
    (hkind : kind = .found ∨ kind = .altPath ∨ kind = .routeError ∨
      (kind = .challenge ∧ data.length = Control.challengeSize))
    (hauth : auth = [] ∨ ((kind = .found ∨ kind = .altPath) ∧ auth.length = proofSize))
    (hdata : data.length ≤ 64115) :
    ({ f.response kind data with auth } : Frame).popped.Encodable := by
  have hreply : Stackable f.replyPath.tail := by
    rcases hpath : f.replyPath with _ | ⟨hop, rest⟩
    · exact stackable_nil
    have hstack := h.replyPath
    rw [hpath] at hstack
    exact hstack.tail
  have hcommand := h.command
  refine ⟨?_, hreply, stackable_nil, ?_⟩
  · rw [fieldsValid, if_neg, if_neg]
    · rcases hkind with rfl | rfl | rfl | ⟨rfl, hsize⟩
      · rfl
      · rfl
      · rfl
      · exact decide_eq_true ⟨rfl, rfl, rfl, hsize⟩
    · rintro ⟨hne, hbad⟩
      rcases hauth with rfl | ⟨hk, hsize⟩
      · exact hne rfl
      refine hbad.elim (fun hlt => ?_) fun hlen => hlen hsize
      rcases hk with rfl | rfl
      · exact absurd (show (8 : UInt8) < Kind.found.toByte from hlt) (by decide)
      · exact absurd (show (8 : UInt8) < Kind.altPath.toByte from hlt) (by decide)
    · rintro (hzero | hbig | hbad | hbad | hbad)
      · exact absurd (show (16 : UInt8) - 1 = 0 from hzero) (by decide)
      · exact absurd (show (16 : UInt8) < 16 - 1 from hbig) (by decide)
      · exact h.request hbad
      · exact h.origin hbad
      · exact absurd hbad (Nat.not_lt.mpr hcommand)
  · have hsize := hreply.2.2
    have hlen : auth.length ≤ 88 := by
      rcases hauth with rfl | ⟨-, hsize⟩
      · exact Nat.zero_le _
      · exact Nat.le_of_eq hsize
    simp only [size, popped, Frame.response, pathBytes, flatMap_nil, length_nil,
      headerSize, maxFrame, maxStackBytes] at hsize ⊢
    omega

end Frame

/-! ### Throwing -/

namespace Router

variable {r : Router} {f : Frame}

theorem attempt_threw_iff (hallowed : r.allowed = true) :
    (r.attempt f).emitted.threw = true ↔ ∃ hop rest out, f.destination = hop :: rest ∧
      r.resolve hop = some out ∧ 1 < f.remaining ∧ ¬f.popped.Encodable := by
  have hopen : ¬r.allowed = false := by rw [hallowed]; decide
  rw [attempt, if_neg hopen]
  rcases hdest : f.destination with _ | ⟨hop, rest⟩
  · simp [Attempt.emitted]
  rcases hedge : r.resolve hop with _ | out
  · simp [hedge, Attempt.emitted]
  by_cases hbudget : f.remaining ≤ 1
  · simp [hedge, hbudget, Attempt.emitted]
  by_cases hencode : f.popped.Encodable
  · rw [Frame.encode_of hencode]
    simp only [hedge, hbudget, if_false, hencode, not_true_eq_false, and_false, exists_false,
      iff_false]
    split <;> exact Bool.false_ne_true
  have hnone : f.popped.encode = none := if_neg hencode
  simp only [hedge, hbudget, if_false, hnone, Attempt.emitted, true_iff]
  exact ⟨hop, rest, out, rfl, hedge, UInt8.not_le.mp hbudget, hencode⟩

theorem reject_threw (h : f.Answerable) {reason : Bytes} (hreason : reason.length ≤ 64115) :
    (r.reject f reason).threw = false := by
  rw [reject]
  split
  · rfl
  rcases hallowed : r.allowed with _ | _
  · rw [attempt, if_pos hallowed]
    rfl
  rw [Bool.eq_false_iff, ne_eq, attempt_threw_iff hallowed]
  rintro ⟨_, _, _, -, -, -, hnot⟩
  exact hnot (h.response [] (.inr (.inr (.inl rfl))) (.inl rfl) hreason)

theorem route_threw (h : f.Answerable) : (r.route f).threw = (r.attempt f).emitted.threw := by
  rcases route_cases r f with hroute | ⟨hnone, reason, hlen, hroute⟩
  · rw [hroute]
  · rw [hroute, hnone, reject_threw h (by omega)]

theorem route_safe (h : f.Answerable) (hencode : 1 < f.remaining → f.popped.Encodable) :
    (r.route f).threw = false := by
  rw [route_threw h]
  rcases hallowed : r.allowed with _ | _
  · rw [attempt, if_pos hallowed]
    rfl
  rw [Bool.eq_false_iff, ne_eq, attempt_threw_iff hallowed]
  rintro ⟨_, _, _, -, -, hbudget, hnot⟩
  exact hnot (hencode hbudget)

/-- A discovery as it is after `receive` has taken it in. -/
structure Discovery (f : Frame) : Prop where
  kind : f.kind = .discover
  valid : f.fieldsValid = true
  replyPath : Stackable f.replyPath

theorem Discovery.answerable (h : Discovery f) : f.Answerable := by
  obtain ⟨-, -, hrequest, horigin⟩ := Frame.ids_of_valid h.valid
  exact ⟨hrequest, horigin, Frame.command_le h.valid, h.replyPath⟩

theorem Discovery.data (h : Discovery f) :
    f.state = 0 ∧ f.offset = 0 ∧ f.total = 0 ∧ f.data = [] := by
  have hvalid := h.valid
  rw [Frame.fieldsValid] at hvalid
  split at hvalid
  · cases hvalid
  split at hvalid
  · cases hvalid
  rw [if_neg (by rw [h.kind]; decide), if_neg (by rw [Frame.transaction, h.kind]; decide)]
    at hvalid
  obtain ⟨hstate, hoffset, htotal, hdata⟩ := of_decide_eq_true hvalid
  exact ⟨hstate, hoffset, htotal, hdata.resolve_left fun hne => hne h.kind⟩

theorem Discovery.branch (h : Discovery f) {e : Edge} (hbudget : 1 < f.remaining)
    (hcommand : (branch f e).command.length ≤ 256) : (Router.branch f e).popped.Encodable := by
  obtain ⟨hstate, hoffset, htotal, hdata⟩ := h.data
  obtain ⟨-, hle, hrequest, horigin⟩ := Frame.ids_of_valid h.valid
  obtain ⟨hne, hle', -⟩ := Frame.pred_remaining hbudget hle
  refine ⟨?_, stackable_nil, h.replyPath, ?_⟩
  · rw [Frame.fieldsValid, if_neg, if_neg, if_neg, if_neg]
    · exact decide_eq_true ⟨hstate, hoffset, htotal, .inr hdata⟩
    · rw [Frame.transaction, show (Router.branch f e).popped.kind = .discover from h.kind]
      decide
    · rw [show (Router.branch f e).popped.kind = .discover from h.kind]
      decide
    · exact fun hbad => hbad.1 rfl
    · rintro (hbad | hbad | hbad | hbad | hbad)
      · exact hne hbad
      · exact absurd hbad (UInt8.not_lt.mpr hle')
      · exact hrequest hbad
      · exact horigin hbad
      · exact absurd hbad (Nat.not_lt.mpr hcommand)
  · have hsize := h.replyPath.2.2
    have hlen : (Router.branch f e).popped.command.length ≤ 256 := hcommand
    have hempty : (Router.branch f e).popped.data = [] := hdata
    rw [Frame.size, hempty]
    simp only [Frame.popped, Router.branch, tail_cons, pathBytes, flatMap_nil,
      length_nil, headerSize, maxFrame, maxStackBytes] at hsize hlen ⊢
    omega

theorem sendBranch_safe (h : Discovery f) (e : Edge) : (r.sendBranch f e).threw = false := by
  rw [sendBranch]
  split
  · exact reject_threw h.answerable (by decide)
  next hcommand =>
  have hle := Nat.not_lt.mp hcommand
  refine route_safe ?_ fun hbudget => h.branch hbudget hle
  exact { h.answerable with command := hle }

theorem fanOut_safe (h : Discovery f) (ingress : Bytes) : (r.fanOut f ingress).threw = false :=
  Emitted.threw_each fun e _ => sendBranch_safe h e.2

theorem canonical_of_answerable {f : Frame} (h : f.Answerable) {kind : Kind} {data : Bytes}
    (hkind : kind = .found ∨ kind = .altPath) (hdata : data.length ≤ 64115) :
    ((f.response kind data).discoveryCanonical).isSome = true := by
  have hbare : ({ f with replyPath := [] } : Frame).Answerable := { h with replyPath := stackable_nil }
  have hencode := hbare.response []
    (hkind.elim .inl fun h => .inr (.inl h)) (.inl rfl) hdata
  have hvalid := Frame.fieldsValid_reroute hencode.1 16 (by decide) (by decide) [] []
  have hfull : ({ f.response kind data with
      auth := [], destination := [], replyPath := [], remaining := 16 } : Frame).Encodable :=
    ⟨hvalid, stackable_nil, stackable_nil, hencode.2.2.2⟩
  rw [Frame.discoveryCanonical, Frame.encode_of hfull]
  rfl

theorem length_hex (id : Id) : (hex id).length = 32 := by
  have hflat : ∀ l : Bytes, (l.flatMap (hexDigits "0123456789abcdef")).length = 2 * l.length := by
    intro l
    induction l with
    | nil => rfl
    | cons b rest ih =>
      rw [flatMap_cons, length_append, ih, length_cons]
      simp only [hexDigits, length_cons, length_nil]
      omega
  rw [hex, hflat, Vector.length_toList]

theorem length_body (r : Router) : r.body.length ≤ 51 + r.component.length := by
  have hword : (ascii (if r.allowed then "control,discover" else "local")).length ≤ 16 := by
    split <;> decide
  simp only [body, length_append, length_hex, length_cons, length_nil]
  omega

variable (P : Primitives)

theorem answer_safe (h : f.Answerable) {kind : Kind} (hkind : kind = .found ∨ kind = .altPath)
    (hcomponent : r.component.length ≤ 64064) (proven : Option AuthorityKey) :
    (r.answer P f kind proven).2.threw = false := by
  have hbody : r.body.length ≤ 64115 := by
    have hle := length_body r
    omega
  have hresponse : ∀ auth : Bytes, (f.response kind r.body).Answerable ∧
      ({ f.response kind r.body with auth } : Frame).Answerable :=
    fun _ => ⟨⟨h.request, h.origin, h.command, stackable_nil⟩,
      ⟨h.request, h.origin, h.command, stackable_nil⟩⟩
  rw [answer]
  dsimp only
  split
  · exact route_safe (hresponse []).1 fun _ => h.response []
      (hkind.elim .inl fun h => .inr (.inl h)) (.inl rfl) hbody
  split
  next hnone =>
    have hsome := canonical_of_answerable h hkind hbody
    rw [hnone] at hsome
    cases hsome
  next message _ =>
  refine route_safe (hresponse _).2 fun _ =>
    h.response _ (hkind.elim .inl fun h => .inr (.inl h)) ?_ hbody
  exact (Auth.length_protect P _ _ message true).imp_right fun hlen => ⟨hkind, hlen⟩

theorem announce_safe (h : Discovery f) (hcomponent : r.component.length ≤ 64064) (ingress : Bytes)
    (now : Time) (proven : Option AuthorityKey) :
    (r.announce P f ingress now proven).2.threw = false := by
  rw [announce]
  split
  · split
    · exact reject_threw h.answerable (by decide)
    · dsimp only
      rw [Emitted.threw_andThen, fanOut_safe h, Bool.or_false]
      refine answer_safe P h.answerable (.inl rfl) ?_ proven
      exact hcomponent
  dsimp only
  split
  · rfl
  · refine answer_safe P h.answerable (.inr rfl) ?_ proven
    exact hcomponent

/-! ### What a discovery emits -/

variable {P}

variable {r' r : Router} {proven : Option AuthorityKey} {ingress : Bytes}

theorem resolve_congr (hedges : r'.edges = r.edges) (hop : Hop) :
    r'.resolve hop = r.resolve hop := by
  rw [resolve, resolve, hedges]

theorem Moved.congr {e : Effect} (hedges : r'.edges = r.edges) (h : Moved r' f e) :
    Moved r f e := by
  cases h with
  | here hdest => exact .here hdest
  | passed hop rest out hdest hedge hbudget hencode hfits =>
    exact .passed hop rest out hdest (by rw [← resolve_congr hedges]; exact hedge) hbudget hencode
      hfits

theorem answer_edges (r : Router) (f : Frame) (kind : Kind) (proven : Option AuthorityKey) :
    (r.answer P f kind proven).1.edges = r.edges ∧ (r.answer P f kind proven).1.seen = r.seen := by
  rw [answer]
  dsimp only
  split
  · exact ⟨rfl, rfl⟩
  · split <;> exact ⟨rfl, rfl⟩

theorem mem_answer {kind : Kind} (hkind : kind.quiet = true) {e : Effect}
    (h : e ∈ (r.answer P f kind proven).2.effects) :
    ∃ auth, Moved r { f.response kind r.body with auth } e := by
  have hnot : ∀ {g : Frame} {r' : Router}, g.kind = kind → r'.edges = r.edges →
      e ∈ (r'.route g).effects → Moved r g e := by
    intro g r' hg hedges hmem
    rcases mem_route hmem with hmoved | ⟨hquiet, -⟩
    · exact hmoved.congr hedges
    · rw [hg, hkind] at hquiet
      cases hquiet
  rw [answer] at h
  dsimp only at h
  split at h
  · exact ⟨[], hnot rfl rfl h⟩
  split at h
  · cases h
  · exact ⟨_, hnot rfl rfl h⟩

/-- What handling a discovery can emit: route errors, one answer, copies for the
edges other than the ingress. -/
inductive Announced (r : Router) (f : Frame) (ingress : Bytes) (e : Effect) : Prop
  | error (g : Frame) (reason : Bytes) (hkey : g.key = f.key) (hreply : g.replyPath = f.replyPath)
      (h : Moved r (g.response .routeError reason) e)
  | answer (kind : Kind) (auth : Bytes) (hkind : kind = .found ∨ kind = .altPath)
      (h : Moved r { f.response kind r.body with auth } e)
  | branch (name : Bytes) (out : Edge) (hmem : (name, out) ∈ r.edges.entries) (hne : name ≠ ingress)
      (h : Moved r (Router.branch f out) e)

theorem mem_fanOut {e : Effect} (h : e ∈ (r.fanOut f ingress).effects) :
    (∃ g reason, Frame.key g = f.key ∧ g.replyPath = f.replyPath ∧
      Moved r (g.response .routeError reason) e) ∨
    ∃ name out, (name, out) ∈ r.edges.entries ∧ name ≠ ingress ∧ Moved r (Router.branch f out) e := by
  obtain ⟨⟨name, out⟩, hmem, he⟩ := Emitted.mem_each h
  obtain ⟨hentry, hne⟩ := mem_filter.mp hmem
  rw [sendBranch] at he
  split at he
  · obtain ⟨-, hmoved⟩ := mem_reject he
    exact .inl ⟨f, _, rfl, rfl, hmoved⟩
  rcases mem_route he with hmoved | ⟨-, reason, hmoved⟩
  · exact .inr ⟨name, out, hentry, of_decide_eq_true hne, hmoved⟩
  · exact .inl ⟨Router.branch f out, reason, rfl, rfl, hmoved⟩

theorem mem_announce {now : Time} {e : Effect}
    (h : e ∈ (r.announce P f ingress now proven).2.effects) : Announced r f ingress e := by
  rw [announce] at h
  split at h
  · split at h
    · obtain ⟨-, hmoved⟩ := mem_reject h
      exact .error f _ rfl rfl hmoved
    · rcases Emitted.mem_andThen h with h | h
      · obtain ⟨auth, hmoved⟩ := mem_answer rfl h
        have hsame : ({ r with seen := r.seen.insert f.key (now + discoveryLifetime) } : Router).edges =
            r.edges := rfl
        have hanswer := hmoved.congr hsame
        exact .answer .found auth (.inl rfl) hanswer
      · have hedges := (answer_edges (P := P) { r with
          seen := r.seen.insert f.key (now + discoveryLifetime) } f .found proven).1
        rcases mem_fanOut h with ⟨g, reason, hkey, hreply, hmoved⟩ | ⟨name, out, hmem, hne, hmoved⟩
        · exact .error g reason hkey hreply (hmoved.congr hedges)
        · exact .branch name out (by rw [hedges] at hmem; exact hmem) hne (hmoved.congr hedges)
  dsimp only at h
  split at h
  · cases h
  obtain ⟨auth, hmoved⟩ := mem_answer rfl h
  have hsame : ({ r with
      alternatives := r.alternatives.insert f.key (r.nextQuota f.key now) } : Router).edges =
      r.edges := rfl
  have hanswer := hmoved.congr hsame
  exact .answer .altPath auth (.inr rfl) hanswer

theorem announce_edges (r : Router) (f : Frame) (ingress : Bytes) (now : Time)
    (proven : Option AuthorityKey) : (r.announce P f ingress now proven).1.edges = r.edges := by
  rw [announce]
  split
  · split
    · rfl
    · exact (answer_edges _ _ _ _).1
  dsimp only
  split
  · rfl
  · exact (answer_edges _ _ _ _).1

theorem announce_seen {now : Time} {key : DiscoveryKey}
    (hafter : (r.announce P f ingress now proven).1.seen.contains key = true)
    (hbefore : r.seen.contains key = false) : key = f.key := by
  rw [announce] at hafter
  split at hafter
  · split at hafter
    · rw [hbefore] at hafter
      cases hafter
    · dsimp only at hafter
      rw [(answer_edges _ _ _ _).2, OrderedMap.contains, OrderedMap.find?_insert] at hafter
      split at hafter
      next hkey => exact hkey
      next =>
      rw [← OrderedMap.contains, hbefore] at hafter
      cases hafter
  dsimp only at hafter
  split at hafter
  · rw [show ({ r with alternatives := _ } : Router).seen = r.seen from rfl, hbefore] at hafter
    cases hafter
  · rw [(answer_edges _ _ _ _).2, hbefore] at hafter
    cases hafter

variable (P)

/-! ### The challenges a router holds -/

inductive AuthMove : Auth → Auth → Prop
  | verify (a : Auth) (request : Id) (message proof : Bytes) :
      AuthMove a (a.verify P request message proof 1).1
  | protect (a : Auth) (request : Id) (message : Bytes) :
      AuthMove a (a.protect P request message true).1

/-- A step that issues no challenge: settings stay, and a session that is still
there has kept the context of its challenge. -/
structure Kept (r r' : Router) : Prop where
  component : r'.component = r.component
  allowed : r'.allowed = r.allowed
  required : r'.discoveryRequired = r.discoveryRequired
  config : r'.authConfig = r.authConfig
  epoch : r'.discoveryRateEpoch = r.discoveryRateEpoch
  challenges : r'.discoveryChallenges = r.discoveryChallenges
  size : r'.discoveryIn.size ≤ r.discoveryIn.size
  sessions : ∀ n d', r'.discoveryIn.find? n = some d' → ∃ d, r.discoveryIn.find? n = some d ∧
    d' = { d with auth := d'.auth } ∧ Relation.ReflTransGen (AuthMove P) d.auth d'.auth

variable {P}

theorem Kept.refl (r : Router) : Kept P r r :=
  ⟨rfl, rfl, rfl, rfl, rfl, rfl, Nat.le_refl _, fun _ d h => ⟨d, h, rfl, .refl⟩⟩

theorem Kept.trans {s t : Router} (h : Kept P r s) (h' : Kept P s t) : Kept P r t where
  component := h'.component.trans h.component
  allowed := h'.allowed.trans h.allowed
  required := h'.required.trans h.required
  config := h'.config.trans h.config
  epoch := h'.epoch.trans h.epoch
  challenges := h'.challenges.trans h.challenges
  size := Nat.le_trans h'.size h.size
  sessions := by
    intro n d'' hfind''
    obtain ⟨d', hfind', heq', hmoves'⟩ := h'.sessions n d'' hfind''
    obtain ⟨d, hfind, heq, hmoves⟩ := h.sessions n d' hfind'
    refine ⟨d, hfind, ?_, hmoves.trans hmoves'⟩
    rw [heq', heq]

theorem Kept.of_eq (hcomponent : r'.component = r.component) (hallowed : r'.allowed = r.allowed)
    (hrequired : r'.discoveryRequired = r.discoveryRequired)
    (hconfig : r'.authConfig = r.authConfig)
    (hepoch : r'.discoveryRateEpoch = r.discoveryRateEpoch)
    (hchallenges : r'.discoveryChallenges = r.discoveryChallenges)
    (hsessions : r'.discoveryIn = r.discoveryIn) : Kept P r r' :=
  ⟨hcomponent, hallowed, hrequired, hconfig, hepoch, hchallenges, by rw [hsessions],
    fun n d h => ⟨d, by rw [← hsessions]; exact h, rfl, .refl⟩⟩

theorem Kept.session {n : AuthorityKey} {d : DiscoverySession} {auth : Auth}
    (hfind : r.discoveryIn.find? n = some d) (hmove : AuthMove P d.auth auth) :
    Kept P r { r with discoveryIn := r.discoveryIn.insert n { d with auth } } where
  component := rfl
  allowed := rfl
  required := rfl
  config := rfl
  epoch := rfl
  challenges := rfl
  size := Nat.le_of_eq (OrderedMap.size_insert_of_some hfind _)
  sessions := by
    intro m d' hd'
    rw [OrderedMap.find?_insert] at hd'
    split at hd'
    next hm =>
      subst hm
      cases hd'
      exact ⟨d, hfind, rfl, .single hmove⟩
    next => exact ⟨d', hd', rfl, .refl⟩

theorem tick_kept (r : Router) (now : Time) : Kept P r (r.tick now) where
  component := rfl
  allowed := rfl
  required := rfl
  config := rfl
  epoch := rfl
  challenges := rfl
  size := length_filter_le _ _
  sessions := fun _ d h => ⟨d, OrderedMap.find?_of_filter h, rfl, .refl⟩

theorem withToken_kept (r : Router) (ingress : Bytes) (e : Edge) (token : Id) :
    Kept P r (r.withToken ingress e token).1 := by
  rw [withToken]
  split
  · exact .of_eq rfl rfl rfl rfl rfl rfl rfl
  · exact .refl r

theorem answer_kept (r : Router) (f : Frame) (kind : Kind) (proven : Option AuthorityKey) :
    Kept P r (r.answer P f kind proven).1 := by
  rw [answer]
  dsimp only
  split
  · exact .refl r
  next n session hproven =>
  split
  · exact .refl r
  obtain ⟨m, -, hbind⟩ := Option.bind_eq_some_iff.mp hproven
  obtain ⟨d, hfind, hpair⟩ := Option.map_eq_some_iff.mp hbind
  cases hpair
  exact .session hfind (.protect _ _ _)

theorem announce_kept (r : Router) (f : Frame) (ingress : Bytes) (now : Time)
    (proven : Option AuthorityKey) : Kept P r (r.announce P f ingress now proven).1 := by
  rw [announce]
  split
  · split
    · exact .refl r
    · refine .trans ?_ (answer_kept _ _ _ _)
      exact .of_eq rfl rfl rfl rfl rfl rfl rfl
  dsimp only
  split
  · exact .of_eq rfl rfl rfl rfl rfl rfl rfl
  · refine .trans ?_ (answer_kept _ _ _ _)
    exact .of_eq rfl rfl rfl rfl rfl rfl rfl

theorem proveDiscovery_kept (r : Router) (f : Frame) (now : Time) :
    Kept P r (r.proveDiscovery P f now).1 := by
  rw [proveDiscovery]
  dsimp only
  split
  · exact .refl r
  next session hfind =>
  split
  · exact .refl r
  split
  · exact .refl r
  next message _ =>
  have hmove := Kept.session (P := P) hfind (.verify session.auth f.request message f.auth)
  split
  · exact hmove
  · exact hmove.trans (announce_kept _ _ _ _ _)

structure Issue where
  ingress : Bytes
  time : Time
  frame : Frame
  secret : Block 32
  challenge : Challenge
  deriving DecidableEq, Repr

def Issue.session (config : AuthConfig) (i : Issue) : DiscoverySession where
  auth :=
    { config
      origin := i.frame.origin
      nextChallenge := i.time + 20 * Control.millisecond
      incoming := ({} : OrderedMap AuthorityKey AuthSession).insert i.challenge.n
        { challenge := i.challenge, secret := i.secret, request := i.frame.request
          expires := i.time + Auth.lifetime } }
  request := i.frame
  ingress := i.ingress
  expires := i.time + discoveryLifetime

def issue (r : Router) (i : Issue) : Router :=
  { r.rateWindow i.time with
    discoveryChallenges := (r.rateWindow i.time).discoveryChallenges + 1
    discoveryIn := (r.rateWindow i.time).discoveryIn.insert i.challenge.n
      (i.session (r.rateWindow i.time).authConfig) }

variable (P) in
inductive Challenged (r : Router) (f : Frame) (ingress : Bytes) (now : Time)
    (secret : Option (Block 32)) : Router × Emitted → Prop
  | silent (count : ℕ) (hle : (r.rateWindow now).discoveryChallenges ≤ count)
      (hcount : count ≤ max 32 (r.rateWindow now).discoveryChallenges) :
      Challenged r f ingress now secret ({ r.rateWindow now with discoveryChallenges := count }, {})
  | issued (i : Issue) (hingress : i.ingress = ingress) (htime : i.time = now)
      (hframe : i.frame = f) (hsecret : secret = some i.secret)
      (hn : i.challenge.n = P.publicKey i.secret) (hnew : r.discoveryIn.find? i.challenge.n = none)
      (hcount : (r.rateWindow now).discoveryChallenges < 32)
      (hroom : r.discoveryIn.size < discoverySessions) :
      Challenged r f ingress now secret
        (r.issue i, (r.issue i).route (f.response .challenge i.challenge.encode))

theorem rateWindow_fields (r : Router) (now : Time) :
    (r.rateWindow now).discoveryIn = r.discoveryIn ∧
      (r.rateWindow now).authConfig = r.authConfig := by
  rw [rateWindow]
  split <;> exact ⟨rfl, rfl⟩

theorem challengeDiscovery_cases (r : Router) (f : Frame) (ingress : Bytes) (now : Time)
    (secret : Option (Block 32)) :
    Challenged P r f ingress now secret (r.challengeDiscovery P f ingress now secret) := by
  obtain ⟨hin, -⟩ := rateWindow_fields r now
  rw [challengeDiscovery]
  dsimp only
  split
  · exact .silent (r.rateWindow now).discoveryChallenges (Nat.le_refl _) (Nat.le_max_right _ _)
  next hroom =>
  rw [not_or, Nat.not_le, Nat.not_le, hin] at hroom
  have hsilent : Challenged P r f ingress now secret ({ r.rateWindow now with
      discoveryChallenges := (r.rateWindow now).discoveryChallenges + 1 }, {}) :=
    .silent _ (Nat.le_succ _)
      (Nat.le_trans (Nat.succ_le_of_lt hroom.1) (Nat.le_max_left _ _))
  split
  · exact hsilent
  next c hdecode =>
  split
  · exact hsilent
  next hnew =>
  have hissued : (Auth.challenge P { config := (r.rateWindow now).authConfig, origin := f.origin }
      f.request 1 now secret).2 ≠ [] := by
    intro hnil
    rw [hnil] at hdecode
    cases hdecode
  obtain ⟨s, c', hs, hc', -, hresult⟩ := Auth.challenge_issued P hissued
  rw [hresult] at hdecode ⊢
  have hsame := Challenge.decode_encode hdecode
  subst hsame
  refine .issued
    { ingress, time := now, frame := f, secret := s, challenge := c } rfl rfl rfl hs ?_ ?_
    hroom.1 hroom.2
  · rw [hc']
    exact Auth.freshChallenge_n P _ _ _
  · rw [hin] at hnew
    exact Option.not_isSome_iff_eq_none.mp hnew

/-- The router once the ingress edge has its token and the timers have run. -/
def arrived (r : Router) (ingress : Bytes) (e : Edge) (now : Time) (fresh : Fresh) : Router :=
  (r.withToken ingress e fresh.token).1.tick now

def pushed (r : Router) (ingress : Bytes) (e : Edge) (fresh : Fresh) (f : Frame) : Frame :=
  { f with replyPath := Hop.link (r.withToken ingress e fresh.token).2.token :: f.replyPath }

variable (P) in
inductive Received (r : Router) (ingress bytes : Bytes) (now : Time) (fresh : Fresh) :
    Router × Emitted → Prop
  | ignored : Received r ingress bytes now fresh (r, {})
  | tooDeep (f : Frame) (hdecode : Frame.decode bytes = some f)
      (hdeep : maxHops ≤ f.replyPath.length) :
      Received r ingress bytes now fresh (r, r.reject f (ascii "reply_path_limit"))
  | routed (f : Frame) (e : Edge) (hdecode : Frame.decode bytes = some f)
      (hedge : r.edges.find? ingress = some e) (hroom : f.replyPath.length < maxHops)
      (hkind : ¬(f.kind = .discover ∧ f.destination = [])) :
      Received r ingress bytes now fresh (r.arrived ingress e now fresh,
        (r.arrived ingress e now fresh).route (r.pushed ingress e fresh f))
  | discovered (f : Frame) (e : Edge) (hdecode : Frame.decode bytes = some f)
      (hedge : r.edges.find? ingress = some e) (hroom : f.replyPath.length < maxHops)
      (hkind : f.kind = .discover) (hdest : f.destination = []) :
      Received r ingress bytes now fresh ((r.arrived ingress e now fresh).discover P
        (r.pushed ingress e fresh f) ingress now fresh.secret)

theorem receive_cases (r : Router) (ingress bytes : Bytes) (now : Time) (fresh : Fresh) :
    Received P r ingress bytes now fresh (r.receive P ingress bytes now fresh) := by
  rw [receive]
  split
  · exact .ignored
  split
  next f e hdecode hedge =>
    split
    next hdeep => exact .tooDeep f hdecode hdeep
    next hroom =>
    dsimp only
    split
    next hkind => exact .discovered f e hdecode hedge (Nat.not_le.mp hroom) hkind.1 hkind.2
    next hkind => exact .routed f e hdecode hedge (Nat.not_le.mp hroom) hkind
  next => exact .ignored

theorem receive_routed {bytes : Bytes} {e : Edge} (hallowed : r.allowed = true)
    (hdecode : Frame.decode bytes = some f) (hedge : r.edges.find? ingress = some e)
    (hroom : f.replyPath.length < maxHops) (hkind : ¬(f.kind = .discover ∧ f.destination = []))
    (now : Time) (fresh : Fresh) :
    r.receive P ingress bytes now fresh = (r.arrived ingress e now fresh,
      (r.arrived ingress e now fresh).route (r.pushed ingress e fresh f)) := by
  rw [receive, if_neg (by rw [hallowed]; decide), hdecode, hedge]
  dsimp only
  rw [if_neg (Nat.not_le.mpr hroom), if_neg hkind]
  rfl

theorem token_ne_zero (r : Router) (ingress : Bytes) (e : Edge) (fresh : Fresh) :
    (r.withToken ingress e fresh.token).2.token ≠ zeroBlock 16 := by
  rw [withToken]
  split
  · exact fresh.nonzero
  next h => exact h

theorem arrived_kept (r : Router) (ingress : Bytes) (e : Edge) (now : Time) (fresh : Fresh) :
    Kept P r (r.arrived ingress e now fresh) :=
  (withToken_kept r ingress e fresh.token).trans (tick_kept _ now)

theorem pushed_discovery {bytes : Bytes} (hdecode : Frame.decode bytes = some f)
    (hroom : f.replyPath.length < maxHops) (hkind : f.kind = .discover) (ingress : Bytes) (e : Edge)
    (fresh : Fresh) : Discovery (r.pushed ingress e fresh f) := by
  obtain ⟨hencode, -⟩ := Frame.decode_sound hdecode
  obtain ⟨hne, hle, -, -⟩ := Frame.ids_of_valid hencode.1
  exact ⟨hkind, Frame.fieldsValid_reroute hencode.1 f.remaining hne hle _ _,
    hencode.2.2.1.push hroom (token_ne_zero r ingress e fresh)⟩

/-! ### Routers that are never brought down by what they hold -/

structure Sound (r : Router) : Prop where
  component : r.component.length ≤ 64064
  sessions : ∀ n d, r.discoveryIn.find? n = some d → Discovery d.request

theorem Sound.kept (h : r.Sound) (hkept : Kept P r r') : r'.Sound where
  component := by rw [hkept.component]; exact h.component
  sessions := by
    intro n d' hfind'
    obtain ⟨d, hfind, hd, -⟩ := hkept.sessions n d' hfind'
    rw [hd]
    exact h.sessions n d hfind

theorem rateWindow_sound (h : r.Sound) (now : Time) : (r.rateWindow now).Sound := by
  rw [rateWindow]
  split
  · exact ⟨h.component, h.sessions⟩
  · exact h

theorem discover_sound (h : r.Sound) (hf : Discovery f) (ingress : Bytes) (now : Time)
    (secret : Option (Block 32)) : (r.discover P f ingress now secret).1.Sound := by
  rw [discover]
  split
  · exact h.kept (announce_kept _ _ _ _ _)
  split
  · have hcases := challengeDiscovery_cases (P := P) r f ingress now secret
    generalize r.challengeDiscovery P f ingress now secret = result at hcases
    cases hcases with
    | silent count =>
      have hsound := rateWindow_sound h now
      exact ⟨hsound.component, hsound.sessions⟩
    | issued i hingress htime hframe =>
      have hsound := rateWindow_sound h i.time
      refine ⟨hsound.component, ?_⟩
      intro n d hfind
      rw [issue, OrderedMap.find?_insert] at hfind
      split at hfind
      · cases hfind
        rw [Issue.session, hframe]
        exact hf
      · exact hsound.sessions n d hfind
  · exact h.kept (proveDiscovery_kept _ _ _)

theorem receive_sound (h : r.Sound) (ingress bytes : Bytes) (now : Time) (fresh : Fresh) :
    (r.receive P ingress bytes now fresh).1.Sound := by
  have hcases := receive_cases (P := P) r ingress bytes now fresh
  generalize r.receive P ingress bytes now fresh = result at hcases
  cases hcases with
  | ignored | tooDeep => exact h
  | routed f e => exact h.kept (P := P) (arrived_kept r ingress e now fresh)
  | discovered f e hdecode hedge hroom hkind =>
    exact discover_sound (h.kept (P := P) (arrived_kept r ingress e now fresh))
      (pushed_discovery hdecode hroom hkind ingress e fresh) ingress now fresh.secret

theorem step_kept (r : Router) {call : Call}
    (hcall : ∀ ingress bytes now fresh, call ≠ .receive ingress bytes now fresh) :
    Kept P r (r.step P call).1 := by
  cases call with
  | receive ingress bytes now fresh => exact absurd rfl (hcall ingress bytes now fresh)
  | send f now => exact tick_kept r now
  | beginDiscovery now path request =>
    rw [step, beginDiscovery]
    split
    · exact .refl r
    dsimp only
    split
    · exact (tick_kept r now).trans (announce_kept _ _ _ _ _)
    · exact (tick_kept r now).trans (tick_kept _ now)
  | localDiscovery f now =>
    rw [step, localDiscovery]
    split
    · exact .refl r
    · exact (tick_kept r now).trans (announce_kept _ _ _ _ _)
  | answerDiscoveryChallenge f now =>
    refine (tick_kept r now).trans ?_
    rw [step, answerDiscoveryChallenge]
    dsimp only
    split
    · exact .refl _
    split
    · exact .refl _
    split
    · exact .refl _
    split
    · exact .refl _
    split
    · exact .refl _
    · exact .of_eq rfl rfl rfl rfl rfl rfl rfl
  | verifyDiscoveryAnswer f now =>
    refine (tick_kept r now).trans ?_
    rw [step, verifyDiscoveryAnswer]
    dsimp only
    split
    · exact .refl _
    split
    · exact .refl _
    split
    · exact .refl _
    split
    · exact .refl _
    split
    · exact .refl _
    split
    · exact .refl _
    · exact .of_eq rfl rfl rfl rfl rfl rfl rfl
  | releaseDiscovery request => exact .of_eq rfl rfl rfl rfl rfl rfl rfl
  | edge name generation peer limit =>
    rw [step, edge]
    split
    · exact .of_eq rfl rfl rfl rfl rfl rfl rfl
    · exact .of_eq rfl rfl rfl rfl rfl rfl rfl
  | remove name | retain names => exact .of_eq rfl rfl rfl rfl rfl rfl rfl
  | tick now => exact tick_kept r now

theorem step_sound (h : r.Sound) (call : Call) : (r.step P call).1.Sound := by
  by_cases hcall : ∀ ingress bytes now fresh, call ≠ .receive ingress bytes now fresh
  · exact h.kept (step_kept r hcall)
  simp only [not_forall, ne_eq, not_not] at hcall
  obtain ⟨ingress, bytes, now, fresh, rfl⟩ := hcall
  exact receive_sound h ingress bytes now fresh

end Router

/-- A function of the right shape in place of the cryptography, to
evaluate runs with. -/
def plainPrimitives : Primitives where
  mac _ _ _ := Vector.replicate 16 0
  encrypt _ _ _ input := (input, Vector.replicate 16 0)
  decrypt _ _ _ input tag := if tag = Vector.replicate 16 0 then some input else none
  publicKey secret := secret
  x25519 secret _ := secret
  encrypt_length _ _ _ _ := rfl
  decrypt_iff := by
    intro _ _ _ input tag output
    constructor
    · intro h
      split at h
      next htag =>
        cases h
        rw [htag]
      next => cases h
    · intro h
      cases h
      exact if_pos rfl

end Tuntom.ControlRoute
