import Tuntom.ControlForward

/-! Authenticated discovery: nothing is disclosed, recorded or passed on before a
proof for a challenge of this router, and every proof works once. -/
namespace Tuntom.ControlRoute
open List
open Control (Id zeroBlock AuthorityKey AuthConfig Auth AuthSession Challenge Window proofSize)
open Transition (Trace)

/-! ### The session behind one challenge -/

structure AuthInv (P : Primitives) (config : AuthConfig) (i : Router.Issue) (a : Auth) : Prop where
  config : a.config = config
  origin : a.origin = i.frame.origin
  request : i.frame.request ≠ zeroBlock 16
  sessions : ∀ m s, a.incoming.find? m = some s → m = i.challenge.n ∧ s.challenge = i.challenge ∧
    s.request = i.frame.request ∧ (s.bound = false → s.secret = i.secret) ∧
    (s.bound = true →
      Auth.derive P i.secret s.authority i.challenge s.authority i.frame.origin = some s.key)

def SpentIn (n : AuthorityKey) (seq : UInt64) (a : Auth) : Prop :=
  ∀ s, a.incoming.find? n = some s → s.rx.Spent seq

variable {P : Primitives} {config : AuthConfig} {i : Router.Issue} {a b : Auth}

variable {n : AuthorityKey} {past : List Event} {r r' : Router}

theorem AuthInv.update (h : AuthInv P config i a) {t : AuthSession}
    (hconfig : b.config = a.config) (horigin : b.origin = a.origin)
    (hincoming : ∀ m s, b.incoming.find? m = some s →
      a.incoming.find? m = some s ∨ (m = n ∧ s = t)) (hn : n = i.challenge.n)
    (hchallenge : t.challenge = i.challenge) (hrequest : t.request = i.frame.request)
    (hsecret : t.bound = false → t.secret = i.secret) (hkey : t.bound = true →
      Auth.derive P i.secret t.authority i.challenge t.authority i.frame.origin = some t.key) :
    AuthInv P config i b := by
  refine ⟨hconfig.trans h.config, horigin.trans h.origin, h.request, fun m s hfind => ?_⟩
  rcases hincoming m s hfind with hold | ⟨rfl, rfl⟩
  · exact h.sessions m s hold
  · exact ⟨hn, hchallenge, hrequest, hsecret, hkey⟩

/-- The key that a proof of `authority` is checked under. -/
theorem AuthInv.keyed (h : AuthInv P config i a) {authority : AuthorityKey} {s t : AuthSession}
    (hfind : a.incoming.find? n = some s) (hkeyed : a.keyed P s authority = some t) :
    n = i.challenge.n ∧ t.challenge = i.challenge ∧ t.request = i.frame.request ∧ t.rx = s.rx ∧
      t.bound = s.bound ∧ (t.bound = false → t.secret = i.secret) ∧
      (t.bound = true → t.authority = authority) ∧
      Auth.derive P i.secret authority i.challenge authority i.frame.origin = some t.key := by
  obtain ⟨hn, hchallenge, hrequest, hsecret, hbound⟩ := h.sessions n s hfind
  obtain ⟨ht, htrue, hfalse⟩ := Auth.keyed_eq_some P hkeyed
  rw [ht]
  refine ⟨hn, hchallenge, hrequest, rfl, rfl, hsecret, fun hb => (htrue hb).1, ?_⟩
  rcases hb : s.bound with _ | _
  · have hderive := hfalse hb
    rw [hsecret hb, hchallenge, h.origin] at hderive
    exact hderive
  obtain ⟨hauthority, hkey⟩ := htrue hb
  rw [← hauthority, hkey]
  exact hbound hb

theorem AuthInv.verify (h : AuthInv P config i a) (request : Id) (message proof : Bytes) :
    AuthInv P config i (a.verify P request message proof 1).1 := by
  have hcases := Auth.verify_cases P a request message proof 1
  generalize a.verify P request message proof 1 = result at hcases
  cases hcases with
  | refused => exact h
  | unproven s t hfind hkeyed =>
    obtain ⟨hn, hchallenge, hrequest, -, -, hsecret, hauthority, hkey⟩ := h.keyed hfind hkeyed
    refine h.update (t := t) rfl rfl ?_ hn hchallenge hrequest hsecret ?_
    · intro m u hu
      rw [OrderedMap.find?_insert] at hu
      split at hu
      next hm => exact .inr ⟨hm, (Option.some.inj hu).symm⟩
      next => exact .inl hu
    · intro hb
      rw [hauthority hb]
      exact hkey
  | accepted s t rx hsize hfind hreq hgrants hkeyed htag hrx =>
    obtain ⟨hn, hchallenge, -, -, -, -, -, hkey⟩ := h.keyed hfind hkeyed
    obtain ⟨-, -, hsrequest, -, -⟩ := h.sessions _ s hfind
    have hrequest : request = i.frame.request := by
      rcases hreq with hzero | hsame
      · exact absurd (hsrequest.symm.trans hzero) h.request
      · exact hsame.symm.trans hsrequest
    refine h.update (t := { t with rx }.bind (block 32 (field proof 32 32)) request) rfl rfl ?_ hn
      hchallenge hrequest ?_ ?_
    · intro m u hu
      have hinsert := OrderedMap.find?_of_filter hu
      rw [OrderedMap.find?_insert] at hinsert
      split at hinsert
      next hm => exact .inr ⟨hm, (Option.some.inj hinsert).symm⟩
      next => exact .inl hinsert
    · intro hb
      exact absurd (show true = false from hb) (by decide)
    · exact fun _ => hkey

theorem protect_sessions (a : Auth) (request : Id) (message : Bytes) :
    (a.protect P request message true).1.config = a.config ∧
      (a.protect P request message true).1.origin = a.origin ∧
      ∀ m t, (a.protect P request message true).1.incoming.find? m = some t →
        ∃ s, a.incoming.find? m = some s ∧ t = { s with tx := t.tx } := by
  have hsame : ∀ m t, a.incoming.find? m = some t →
      ∃ s, a.incoming.find? m = some s ∧ t = { s with tx := t.tx } := fun _ t h => ⟨t, h, rfl⟩
  rw [Auth.protect]
  split
  · exact ⟨rfl, rfl, hsame⟩
  rw [if_pos rfl]
  split
  · exact ⟨rfl, rfl, hsame⟩
  next n _ =>
  split
  · exact ⟨rfl, rfl, hsame⟩
  next s hfind =>
  refine ⟨rfl, rfl, fun m t ht => ?_⟩
  dsimp only at ht
  rw [OrderedMap.find?_insert] at ht
  split at ht
  next hm =>
    subst hm
    refine ⟨s, hfind, ?_⟩
    cases ht
    rw [Auth.sign]
    split <;> rfl
  next => exact hsame m t ht

theorem AuthInv.protect (h : AuthInv P config i a) (request : Id) (message : Bytes) :
    AuthInv P config i (a.protect P request message true).1 := by
  obtain ⟨hconfig, horigin, hsessions⟩ := protect_sessions (P := P) a request message
  refine ⟨hconfig.trans h.config, horigin.trans h.origin, h.request, fun m t ht => ?_⟩
  obtain ⟨s, hs, heq⟩ := hsessions m t ht
  rw [heq]
  exact h.sessions m s hs

theorem SpentIn.verify {seq : UInt64} (h : SpentIn n seq a) (request : Id) (message proof : Bytes) :
    SpentIn n seq (a.verify P request message proof 1).1 := by
  have hcases := Auth.verify_cases P a request message proof 1
  generalize a.verify P request message proof 1 = result at hcases
  cases hcases with
  | refused => exact h
  | unproven s t hfind hkeyed =>
    intro u hu
    rw [OrderedMap.find?_insert] at hu
    split at hu
    next hn =>
      cases hu
      rw [(Auth.keyed_eq_some P hkeyed).1]
      exact h s (hn ▸ hfind)
    next => exact h u hu
  | accepted s t rx hsize hfind hreq hgrants hkeyed htag hrx =>
    intro u hu
    have hinsert := OrderedMap.find?_of_filter hu
    rw [OrderedMap.find?_insert] at hinsert
    split at hinsert
    next hn =>
      cases hinsert
      have hspent : t.rx.Spent seq := by
        rw [(Auth.keyed_eq_some P hkeyed).1]
        exact h s (hn ▸ hfind)
      exact hspent.accept hrx
    next => exact h u hinsert

theorem SpentIn.protect {seq : UInt64} (h : SpentIn n seq a) (request : Id) (message : Bytes) :
    SpentIn n seq (a.protect P request message true).1 := by
  intro t ht
  obtain ⟨s, hs, heq⟩ := (protect_sessions (P := P) a request message).2.2 n t ht
  rw [heq]
  exact h s hs

theorem AuthInv.moves (h : AuthInv P config i a)
    (hmoves : Relation.ReflTransGen (Router.AuthMove P) a b) : AuthInv P config i b := by
  induction hmoves with
  | refl => exact h
  | tail _ hmove ih =>
    cases hmove with
    | verify request message proof => exact ih.verify request message proof
    | protect request message => exact ih.protect request message

theorem SpentIn.moves {seq : UInt64} (h : SpentIn n seq a)
    (hmoves : Relation.ReflTransGen (Router.AuthMove P) a b) : SpentIn n seq b := by
  induction hmoves with
  | refl => exact h
  | tail _ hmove ih =>
    cases hmove with
    | verify request message proof => exact ih.verify request message proof
    | protect request message => exact ih.protect request message

theorem AuthInv.issued (config : AuthConfig) (hrequest : i.frame.request ≠ zeroBlock 16) :
    AuthInv P config i (i.session config).auth := by
  refine ⟨rfl, rfl, hrequest, fun m s hfind => ?_⟩
  rw [Router.Issue.session, OrderedMap.find?_insert] at hfind
  split at hfind
  next hm =>
    cases hfind
    exact ⟨hm, rfl, rfl, fun _ => rfl, by simp⟩
  next => cases hfind

/-! ### What the history of a router shows -/

def Call.challengeValue (P : Primitives) : Call → Option AuthorityKey
  | .receive _ _ _ fresh => fresh.secret.map P.publicKey
  | _ => none

/-- The challenge value and the sequence number in the proof of a received frame. -/
def Call.proof : Call → Option (AuthorityKey × UInt64)
  | .receive _ bytes _ _ =>
    (Frame.decode bytes).map fun f => (block 32 (field f.auth 0 32), Auth.sequence f.auth)
  | _ => none

namespace Event

/-- The event issued the challenge `i`. -/
def Issues (P : Primitives) (e : Event) (i : Router.Issue) : Prop :=
  ∃ bytes fresh f edge, e.1 = .receive i.ingress bytes i.time fresh ∧
    Frame.decode bytes = some f ∧ e.2.before.edges.find? i.ingress = some edge ∧
    f.kind = .discover ∧ f.destination = [] ∧ f.auth = [] ∧
    i.frame = e.2.before.pushed i.ingress edge fresh f ∧ fresh.secret = some i.secret ∧
    i.challenge.n = P.publicKey i.secret ∧
    e.2.after.discoveryIn.find? i.challenge.n = some (i.session e.2.before.authConfig)

def PassedOn (bytes : Bytes) (out : Frame) : Prop :=
  ∃ f token, Frame.decode bytes = some f ∧
    out = ({ f with replyPath := Hop.link token :: f.replyPath } : Frame).popped

/-- The handling of a received frame that makes a record of a discovery, answers it
or passes it on to other edges. -/
def Discloses (e : Event) : Prop :=
  ∃ ingress bytes now fresh, e.1 = .receive ingress bytes now fresh ∧
    ((∃ key, e.2.after.seen.contains key = true ∧ e.2.before.seen.contains key = false) ∨
      ∃ edge b out, Effect.sent edge b ∈ e.2.emitted.effects ∧ Frame.decode b = some out ∧
        (out.kind = .found ∨ out.kind = .altPath ∨ out.kind = .discover) ∧ ¬PassedOn bytes out)

/-- The event verified a proof for the live challenge `i`: for its origin, request and
trace, by an authority whose grant covers reading and the local policy. -/
def Verifies (P : Primitives) (e : Event) (i : Router.Issue) : Prop :=
  ∃ ingress bytes now fresh f message authority grant key,
    e.1 = .receive ingress bytes now fresh ∧ Frame.decode bytes = some f ∧ f.kind = .discover ∧
    f.auth.length = proofSize ∧ block 32 (field f.auth 0 32) = i.challenge.n ∧
    f.origin = i.frame.origin ∧ f.request = i.frame.request ∧ f.command = i.frame.command ∧
    now < i.time + discoveryLifetime ∧ authority = block 32 (field f.auth 32 32) ∧
    e.2.before.authConfig.trusted.find? authority = some grant ∧
    grant.allows (1 ||| e.2.before.authConfig.caps) e.2.before.authConfig.level = true ∧
    f.discoveryCanonical = some message ∧
    Auth.derive P i.secret authority i.challenge authority i.frame.origin = some key ∧
    (Auth.tag P key message f.auth false).toList = field f.auth 72 16

/-- Record, answers and copies are those of the frame that the challenge was issued for. -/
def Continues (e : Event) (i : Router.Issue) : Prop :=
  (∀ key, e.2.after.seen.contains key = true → e.2.before.seen.contains key = false →
    key = i.frame.key) ∧
  ∀ edge b out, Effect.sent edge b ∈ e.2.emitted.effects → Frame.decode b = some out →
    (out.kind = .found ∨ out.kind = .altPath →
      ∃ auth, out = ({ i.frame.response out.kind e.2.before.body with auth } : Frame).popped) ∧
    (out.kind = .discover → ∃ name target, (name, target) ∈ e.2.after.edges.entries ∧
      name ≠ i.ingress ∧ out = (Router.branch i.frame target).popped)

def issued (e : Event) : Bool :=
  e.2.after.discoveryIn.entries.any fun x => !e.2.before.discoveryIn.contains x.1

def Resets (e : Event) : Prop := e.2.after.discoveryRateEpoch ≠ e.2.before.discoveryRateEpoch

instance (e : Event) : Decidable e.Resets := inferInstanceAs (Decidable (_ ≠ _))

end Event

namespace Router

variable {r : Router} {f : Frame}

theorem arrived_fields (r : Router) (ingress : Bytes) (e : Edge) (now : Time) (fresh : Fresh) :
    (r.arrived ingress e now fresh).body = r.body ∧
      (r.arrived ingress e now fresh).seen = r.seen.filter fun _ expires => now < expires := by
  rw [arrived, withToken]
  split <;> exact ⟨rfl, rfl⟩

variable {fresh : Fresh} {ingress : Bytes} {now : Time}

theorem arrived_seen {e : Edge} {key : DiscoveryKey}
    (h : (r.arrived ingress e now fresh).seen.contains key = true) :
    r.seen.contains key = true := by
  rw [(arrived_fields r ingress e now fresh).2] at h
  obtain ⟨expires, hfind⟩ := Option.isSome_iff_exists.mp h
  rw [OrderedMap.contains, OrderedMap.find?_of_filter hfind]
  rfl

theorem arrived_live {e : Edge} {n : AuthorityKey} {d : DiscoverySession}
    (h : (r.arrived ingress e now fresh).discoveryIn.find? n = some d) :
    r.discoveryIn.find? n = some d ∧ now < d.expires := by
  have hin : (r.arrived ingress e now fresh).discoveryIn =
      r.discoveryIn.filter fun _ s => now < s.expires := by
    rw [arrived, withToken]
    split <;> rfl
  rw [hin, OrderedMap.find?_filter] at h
  obtain ⟨hfind, hlive⟩ := Option.filter_eq_some_iff.mp h
  exact ⟨hfind, of_decide_eq_true hlive⟩

def withAuth (r : Router) (n : AuthorityKey) (session : DiscoverySession) (auth : Auth) : Router :=
  { r with discoveryIn := r.discoveryIn.insert n { session with auth } }

inductive Proved (P : Primitives) (r : Router) (f : Frame) (now : Time) : Router × Emitted → Prop
  | refused (r' : Router) (em : Emitted) (hseen : r'.seen = r.seen) (heffects : em.effects = []) :
      Proved P r f now (r', em)
  | accepted (session : DiscoverySession) (message : Bytes) (authority : AuthorityKey)
      (hfind : r.discoveryIn.find? (block 32 (field f.auth 0 32)) = some session)
      (horigin : f.origin = session.request.origin) (hrequest : f.request = session.request.request)
      (hcommand : f.command = session.request.command)
      (hmessage : f.discoveryCanonical = some message)
      (hverify : (session.auth.verify P f.request message f.auth 1).2 = some authority) :
      Proved P r f now ((r.withAuth (block 32 (field f.auth 0 32)) session
        (session.auth.verify P f.request message f.auth 1).1).announce P session.request
          session.ingress now (some (block 32 (field f.auth 0 32))))

theorem proveDiscovery_cases (r : Router) (f : Frame) (now : Time) :
    Proved P r f now (r.proveDiscovery P f now) := by
  rw [proveDiscovery]
  dsimp only
  split
  · exact .refused _ _ rfl rfl
  next session hfind =>
  split
  · exact .refused _ _ rfl rfl
  next hsame =>
  rw [not_or, not_or, not_not, not_not, not_not] at hsame
  split
  · exact .refused _ _ rfl rfl
  next message hmessage =>
  split
  · exact .refused _ _ rfl rfl
  next authority hverify =>
    exact .accepted session message authority hfind hsame.1 hsame.2.1 hsame.2.2 hmessage hverify

theorem Moved.read {e : Effect} (h : Moved r f e) {edge b : Bytes} {out : Frame}
    (he : e = .sent edge b) (hout : Frame.decode b = some out) : out = f.popped := by
  subst he
  rw [h.sent.1] at hout
  exact (Option.some.inj hout).symm

/-- The handling of a frame that makes no record and only passes the frame on, or
answers with errors and challenges. -/
theorem not_discloses {bytes : Bytes} {w : Watched}
    (hseen : ∀ key, w.after.seen.contains key = true → w.before.seen.contains key = true)
    (hsent : ∀ edge b out, Effect.sent edge b ∈ w.emitted.effects → Frame.decode b = some out →
      out.kind = .challenge ∨ out.kind = .routeError ∨ Event.PassedOn bytes out) :
    ¬Event.Discloses (.receive ingress bytes now fresh, w) := by
  rintro ⟨ingress', bytes', now', fresh', hcall, ⟨key, hafter, hbefore⟩ | ⟨edge, b, out, hmem, hout,
    hkind, hpassed⟩⟩
  · rw [hseen key hafter] at hbefore
    cases hbefore
  · cases hcall
    rcases hsent edge b out hmem hout with h | h | h
    · rw [h] at hkind
      rcases hkind with hk | hk | hk <;> cases hk
    · rw [h] at hkind
      rcases hkind with hk | hk | hk <;> cases hk
    · exact hpassed h

theorem discloses_accepted (hrequired : r.discoveryRequired = true) {bytes : Bytes}
    (h : Event.Discloses (.receive ingress bytes now fresh,
      (r.watch P (.receive ingress bytes now fresh)).2)) :
    ∃ f e session message authority, Frame.decode bytes = some f ∧
      r.edges.find? ingress = some e ∧ f.kind = .discover ∧
      (r.arrived ingress e now fresh).discoveryIn.find? (block 32 (field f.auth 0 32)) =
        some session ∧
      f.origin = session.request.origin ∧ f.request = session.request.request ∧
      f.command = session.request.command ∧ f.discoveryCanonical = some message ∧
      (session.auth.verify P f.request message f.auth 1).2 = some authority ∧
      r.receive P ingress bytes now fresh =
        ((r.arrived ingress e now fresh).withAuth (block 32 (field f.auth 0 32)) session
          (session.auth.verify P f.request message f.auth 1).1).announce P session.request
            session.ingress now (some (block 32 (field f.auth 0 32))) := by
  have hcases := receive_cases (P := P) r ingress bytes now fresh
  have hdiscloses : Event.Discloses (.receive ingress bytes now fresh,
      { before := r, after := (r.receive P ingress bytes now fresh).1
        emitted := (r.receive P ingress bytes now fresh).2 }) := h
  generalize r.receive P ingress bytes now fresh = result at hcases hdiscloses ⊢
  cases hcases with
  | ignored =>
    refine absurd hdiscloses (not_discloses (fun _ hkey => hkey) fun edge b out hmem => ?_)
    cases hmem
  | tooDeep f =>
    refine absurd hdiscloses (not_discloses (fun _ hkey => hkey) fun edge b out hmem hout => ?_)
    obtain ⟨-, hmoved⟩ := mem_reject hmem
    rw [hmoved.read rfl hout]
    exact .inr (.inl rfl)
  | routed f e hdecode =>
    refine absurd hdiscloses (not_discloses (fun _ hkey => arrived_seen hkey)
      fun edge b out hmem hout => ?_)
    rcases mem_route hmem with hmoved | ⟨-, reason, hmoved⟩
    · rw [hmoved.read rfl hout]
      exact .inr (.inr ⟨f, _, hdecode, rfl⟩)
    · rw [hmoved.read rfl hout]
      exact .inr (.inl rfl)
  | discovered f e hdecode hedge hroom hkind hdest =>
    have hmode : (r.arrived ingress e now fresh).discoveryRequired = true :=
      (arrived_kept (P := P) r ingress e now fresh).required.trans hrequired
    rw [discover, if_neg (fun hopen => by rw [hmode] at hopen; exact absurd hopen.1 (by simp))]
      at hdiscloses ⊢
    split at hdiscloses
    next hempty =>
      have hchallenged := challengeDiscovery_cases (P := P) (r.arrived ingress e now fresh)
        (r.pushed ingress e fresh f) ingress now fresh.secret
      generalize (r.arrived ingress e now fresh).challengeDiscovery P (r.pushed ingress e fresh f)
        ingress now fresh.secret = result at hchallenged hdiscloses
      have hrate : ((r.arrived ingress e now fresh).rateWindow now).seen =
          (r.arrived ingress e now fresh).seen := by
        rw [rateWindow]
        split <;> rfl
      cases hchallenged with
      | silent count =>
        refine absurd hdiscloses (not_discloses (fun key hkey => ?_) fun edge b out hmem => ?_)
        · rw [hrate] at hkey
          exact arrived_seen hkey
        · cases hmem
      | issued i hingress htime =>
        refine absurd hdiscloses (not_discloses (fun key hkey => ?_) fun edge b out hmem hout => ?_)
        · rw [issue, htime, hrate] at hkey
          exact arrived_seen hkey
        · rcases mem_route hmem with hmoved | ⟨hquiet, -⟩
          · rw [hmoved.read rfl hout]
            exact .inl rfl
          · cases hquiet
    next hproof =>
    rw [if_neg hproof]
    have hproved := proveDiscovery_cases (P := P) (r.arrived ingress e now fresh)
      (r.pushed ingress e fresh f) now
    generalize (r.arrived ingress e now fresh).proveDiscovery P (r.pushed ingress e fresh f) now =
      result at hproved hdiscloses ⊢
    cases hproved with
    | refused r' em hseen heffects =>
      refine absurd hdiscloses (not_discloses (fun key hkey => ?_) fun edge b out hmem => ?_)
      · rw [hseen] at hkey
        exact arrived_seen hkey
      · rw [heffects] at hmem
        cases hmem
    | accepted session message authority hfind horigin hrequest hcommand hmessage hverify =>
      exact ⟨f, e, session, message, authority, hdecode, hedge, hkind, hfind, horigin, hrequest,
        hcommand, hmessage, hverify, rfl⟩

/-- A call of `receive` issues no challenge, or a discovery without a proof is behind it. -/
theorem receive_challenges (r : Router) (ingress bytes : Bytes) (now : Time) (fresh : Fresh) :
    Kept P r (r.receive P ingress bytes now fresh).1 ∨
      ∃ f e, Frame.decode bytes = some f ∧ r.edges.find? ingress = some e ∧
        f.replyPath.length < maxHops ∧ f.kind = .discover ∧ f.destination = [] ∧ f.auth = [] ∧
        Challenged P (r.arrived ingress e now fresh) (r.pushed ingress e fresh f) ingress now
          fresh.secret (r.receive P ingress bytes now fresh) := by
  have hcases := receive_cases (P := P) r ingress bytes now fresh
  generalize r.receive P ingress bytes now fresh = result at hcases ⊢
  cases hcases with
  | ignored | tooDeep => exact .inl (.refl r)
  | routed f e => exact .inl (arrived_kept r ingress e now fresh)
  | discovered f e hdecode hedge hroom hkind hdest =>
    have hkept := arrived_kept (P := P) r ingress e now fresh
    rw [discover]
    split
    · exact .inl (hkept.trans (announce_kept _ _ _ _ _))
    split
    next hauth =>
      exact .inr ⟨f, e, hdecode, hedge, hroom, hkind, hdest, hauth, challengeDiscovery_cases _ _ _ _ _⟩
    · exact .inl (hkept.trans (proveDiscovery_kept _ _ _))

theorem receive_sessions {bytes : Bytes} {n : AuthorityKey} {d' : DiscoverySession}
    (h : (r.receive P ingress bytes now fresh).1.discoveryIn.find? n = some d') :
    (∃ d, r.discoveryIn.find? n = some d ∧ d' = { d with auth := d'.auth } ∧
      Relation.ReflTransGen (AuthMove P) d.auth d'.auth) ∨
    ∃ i, Event.Issues P (.receive ingress bytes now fresh,
        (r.watch P (.receive ingress bytes now fresh)).2) i ∧ i.challenge.n = n ∧
      d' = i.session r.authConfig ∧ i.frame.request ≠ zeroBlock 16 := by
  rcases receive_challenges (P := P) r ingress bytes now fresh with
    hkept | ⟨f, e, hdecode, hedge, hroom, hkind, hdest, hauth, hchallenged⟩
  · exact .inl (hkept.sessions n d' h)
  have hkept := arrived_kept (P := P) r ingress e now fresh
  obtain ⟨hin, hconfig⟩ := rateWindow_fields (r.arrived ingress e now fresh) now
  have hissues : ∀ i, (∃ bytes' fresh' f edge, Call.receive ingress bytes now fresh =
        .receive i.ingress bytes' i.time fresh' ∧
      Frame.decode bytes' = some f ∧ r.edges.find? i.ingress = some edge ∧ f.kind = .discover ∧
      f.destination = [] ∧ f.auth = [] ∧ i.frame = r.pushed i.ingress edge fresh' f ∧
      fresh'.secret = some i.secret ∧ i.challenge.n = P.publicKey i.secret ∧
      (r.receive P ingress bytes now fresh).1.discoveryIn.find? i.challenge.n =
        some (i.session r.authConfig)) →
      Event.Issues P (.receive ingress bytes now fresh,
        (r.watch P (.receive ingress bytes now fresh)).2) i := fun _ h => h
  generalize r.receive P ingress bytes now fresh = result at hchallenged h hissues
  cases hchallenged with
  | silent count =>
    dsimp only at h
    rw [hin] at h
    exact .inl (hkept.sessions n d' h)
  | issued i hingress htime hframe hsecret hn hnew hcount hsize =>
    subst htime
    have hsame : ((r.arrived ingress e i.time fresh).rateWindow i.time).authConfig =
        r.authConfig := hconfig.trans hkept.config
    have hafter : ((r.arrived ingress e i.time fresh).issue i).discoveryIn.find? n = some d' := h
    rw [issue, OrderedMap.find?_insert, hsame, hin] at hafter
    split at hafter
    next hn' =>
      refine .inr ⟨i, ?_, hn'.symm, (Option.some.inj hafter).symm, ?_⟩
      · refine hissues i ⟨bytes, fresh, f, e, by rw [hingress], hdecode, by rw [hingress]; exact hedge,
          hkind, hdest, hauth, by rw [hingress]; exact hframe, hsecret, hn, ?_⟩
        rw [issue, OrderedMap.find?_insert, if_pos rfl, hsame]
      · rw [hframe]
        exact (pushed_discovery hdecode hroom hkind ingress e fresh).answerable.request
    next => exact .inl (hkept.sessions n d' hafter)

end Router

/-! ### Every run -/

structure History (P : Primitives) (config : AuthConfig) (past : List Event) (r : Router) : Prop where
  required : r.discoveryRequired = true
  settings : r.authConfig = config
  sessions : ∀ n d, r.discoveryIn.find? n = some d → ∃ i : Router.Issue, i.challenge.n = n ∧
    (∃ e ∈ past, Event.Issues P e i) ∧ d.request = i.frame ∧ d.ingress = i.ingress ∧
    d.expires = i.time + discoveryLifetime ∧ AuthInv P config i d.auth ∧
    ∀ e ∈ past, Event.Discloses e → ∀ seq, e.1.proof = some (n, seq) → SpentIn n seq d.auth
  disclosed : ∀ e ∈ past, Event.Discloses e → ∀ n seq, e.1.proof = some (n, seq) →
    ∃ issuing ∈ past, ∃ i, Event.Issues P issuing i ∧ i.challenge.n = n

theorem Event.Issues.value {e : Event} (h : e.Issues P i) :
    e.1.challengeValue P = some i.challenge.n := by
  obtain ⟨bytes, fresh, f, edge, hcall, -, -, -, -, -, -, hsecret, hn, -⟩ := h
  rw [hcall, Call.challengeValue, hsecret, hn]
  rfl

theorem Event.Issues.kind {e : Event} (h : e.Issues P i) : i.frame.kind = .discover := by
  obtain ⟨bytes, fresh, f, edge, -, -, -, hkind, -, -, hframe, -⟩ := h
  rw [hframe]
  exact hkind

/-- The accepted proof behind a disclosing event: whose challenge it answers, and that
its number is refused from then on. -/
theorem History.accepted (h : History P config past r) (hconfig : config.required = true)
    {ingress bytes : Bytes} {now : Time} {fresh : Fresh}
    (hdiscloses : Event.Discloses (.receive ingress bytes now fresh,
      (r.watch P (.receive ingress bytes now fresh)).2)) :
    ∃ i : Router.Issue, (∃ issuing ∈ past, Event.Issues P issuing i) ∧
      Event.Verifies P (.receive ingress bytes now fresh,
        (r.watch P (.receive ingress bytes now fresh)).2) i ∧
      Event.Continues (.receive ingress bytes now fresh,
        (r.watch P (.receive ingress bytes now fresh)).2) i ∧
      ∃ seq, (Call.receive ingress bytes now fresh).proof = some (i.challenge.n, seq) ∧
        (∀ e ∈ past, Event.Discloses e → e.1.proof ≠ some (i.challenge.n, seq)) ∧
        ∀ d', (r.receive P ingress bytes now fresh).1.discoveryIn.find? i.challenge.n = some d' →
          SpentIn i.challenge.n seq d'.auth := by
  obtain ⟨f, edge, session, message, authority, hdecode, hedge, hkind, hfind, horigin, hrequest,
    hcommand, hmessage, hverify, hresult⟩ := Router.discloses_accepted h.required hdiscloses
  obtain ⟨hfind', hlive⟩ := Router.arrived_live hfind
  obtain ⟨i, hn, hissued, hframe, hingress, hexpires, hinv, hspent⟩ := h.sessions _ _ hfind'
  have hdiscover : session.request.kind = .discover := by
    obtain ⟨issuing, -, hissuing⟩ := hissued
    rw [hframe]
    exact hissuing.kind
  have hproof : (Call.receive ingress bytes now fresh).proof =
      some (i.challenge.n, Auth.sequence f.auth) := by
    rw [Call.proof, hdecode, Option.map_some, hn]
  have hcases := Auth.verify_cases P session.auth f.request message f.auth 1
  generalize hresult' : session.auth.verify P f.request message f.auth 1 = verified
    at hcases hverify hresult
  cases hcases with
  | refused | unproven => cases hverify
  | accepted s t rx hsize hsession hreq hgrants hkeyed htag hrx =>
    obtain ⟨-, -, -, hrxs, -, -, -, hderive⟩ := hinv.keyed hsession hkeyed
    have hmode : session.auth.required = true := by
      rw [Auth.required, hinv.config]
      exact hconfig
    obtain ⟨grant, htrusted, hallows⟩ := Auth.grants_eq_true (hgrants hmode)
    rw [hinv.config, ← h.settings] at htrusted hallows
    refine ⟨i, hissued, ?_, ?_, Auth.sequence f.auth, hproof, ?_, ?_⟩
    · refine ⟨ingress, bytes, now, fresh, f, message, _, grant, t.key, rfl, hdecode, hkind, hsize,
        hn.symm, by rw [horigin, hframe], by rw [hrequest, hframe], by rw [hcommand, hframe], ?_, rfl,
        htrusted, hallows, hmessage, hderive, htag⟩
      rw [← hexpires]
      exact hlive
    · refine ⟨fun key hafter hbefore => ?_, fun target b out hmem hout => ?_⟩
      · have hseen : (r.receive P ingress bytes now fresh).1.seen.contains key = true := hafter
        rw [hresult] at hseen
        rw [← hframe]
        refine Router.announce_seen hseen ?_
        rw [Bool.eq_false_iff]
        intro hcontains
        have hold := Router.arrived_seen (show (r.arrived ingress edge now fresh).seen.contains key =
          true from hcontains)
        rw [show r.seen.contains key = false from hbefore] at hold
        cases hold
      · have heffects : Effect.sent target b ∈
            (r.receive P ingress bytes now fresh).2.effects := hmem
        rw [hresult] at heffects
        have hbody : (r.arrived ingress edge now fresh).body = r.body :=
          (Router.arrived_fields r ingress edge now fresh).1
        cases Router.mem_announce heffects with
        | error g reason hkey hreply hmoved =>
          have hkind' : out.kind = .routeError := by rw [hmoved.read rfl hout]; rfl
          rw [hkind']
          exact ⟨fun hk => hk.elim (fun h => by cases h) (fun h => by cases h),
            fun hk => by cases hk⟩
        | answer kind auth hk hmoved =>
          have hread := hmoved.read rfl hout
          have hkind' : out.kind = kind := by rw [hread]; rfl
          refine ⟨fun _ => ⟨auth, ?_⟩, fun hd => ?_⟩
          · show out = ({ i.frame.response out.kind r.body with auth } : Frame).popped
            rw [hkind', ← hframe, ← hbody]
            exact hread
          · rw [hkind'] at hd
            rcases hk with rfl | rfl <;> cases hd
        | branch name out' hentry hne hmoved =>
          have hread := hmoved.read rfl hout
          have hkind' : out.kind = .discover := by
            rw [hread]
            exact hdiscover
          refine ⟨fun hk => ?_, fun _ => ⟨name, out', ?_, ?_, ?_⟩⟩
          · rw [hkind'] at hk
            rcases hk with hk | hk <;> cases hk
          · show (name, out') ∈ (r.receive P ingress bytes now fresh).1.edges.entries
            rw [hresult, Router.announce_edges]
            exact hentry
          · rw [← hingress]
            exact hne
          · rw [hread, hframe]
    · intro e he hdisc hsame
      have hold := hspent e he hdisc _ (hn ▸ hsame)
      have hused := hold s hsession
      rw [Window.Spent, ← hrxs, hrx] at hused
      cases hused
    · intro d' hd'
      rw [hresult] at hd'
      obtain ⟨d, hd, -, hmoves⟩ := (Router.announce_kept (P := P) _ _ _ _ _).sessions _ d' hd'
      refine SpentIn.moves ?_ hmoves
      rw [Router.withAuth, OrderedMap.find?_insert, if_pos hn] at hd
      cases hd
      intro u hu
      have hinsert := OrderedMap.find?_of_filter hu
      rw [OrderedMap.find?_insert, if_pos hn] at hinsert
      cases hinsert
      exact Window.spent_of_accept hrx

theorem History.start (hin : r.discoveryIn = {}) (hrequired : r.discoveryRequired = true) :
    History P r.authConfig [] r where
  required := hrequired
  settings := rfl
  sessions := by
    intro n d hfind
    rw [hin] at hfind
    cases hfind
  disclosed := by simp

theorem History.kept (h : History P config past r) (hkept : Router.Kept P r r') {e : Event}
    (he : ¬Event.Discloses e) : History P config (e :: past) r' where
  required := hkept.required.trans h.required
  settings := hkept.config.trans h.settings
  sessions := by
    intro n d' hfind'
    obtain ⟨d, hfind, hd, hmoves⟩ := hkept.sessions n d' hfind'
    obtain ⟨i, hn, ⟨issuing, hmem, hissuing⟩, hframe, hingress, hexpires, hinv, hspent⟩ :=
      h.sessions n d hfind
    refine ⟨i, hn, ⟨issuing, mem_cons_of_mem _ hmem, hissuing⟩, ?_, ?_, ?_, hinv.moves hmoves, ?_⟩
    · rw [hd]; exact hframe
    · rw [hd]; exact hingress
    · rw [hd]; exact hexpires
    · intro e' he' hdisc seq hproof
      rcases mem_cons.mp he' with rfl | he'
      · exact absurd hdisc he
      · exact (hspent e' he' hdisc seq hproof).moves hmoves
  disclosed := by
    intro e' he' hdisc n seq hproof
    rcases mem_cons.mp he' with rfl | he'
    · exact absurd hdisc he
    · obtain ⟨issuing, hmem, hissuing⟩ := h.disclosed e' he' hdisc n seq hproof
      exact ⟨issuing, mem_cons_of_mem _ hmem, hissuing⟩

theorem Router.receive_settings (r : Router) (ingress bytes : Bytes) (now : Time) (fresh : Fresh) :
    (r.receive P ingress bytes now fresh).1.discoveryRequired = r.discoveryRequired ∧
      (r.receive P ingress bytes now fresh).1.authConfig = r.authConfig := by
  rcases Router.receive_challenges (P := P) r ingress bytes now fresh with
    hkept | ⟨f, e, -, -, -, -, -, -, hchallenged⟩
  · exact ⟨hkept.required, hkept.config⟩
  have hkept := Router.arrived_kept (P := P) r ingress e now fresh
  have hrate : ((r.arrived ingress e now fresh).rateWindow now).discoveryRequired =
      (r.arrived ingress e now fresh).discoveryRequired ∧
      ((r.arrived ingress e now fresh).rateWindow now).authConfig =
        (r.arrived ingress e now fresh).authConfig := by
    rw [Router.rateWindow]
    split <;> exact ⟨rfl, rfl⟩
  generalize r.receive P ingress bytes now fresh = result at hchallenged
  cases hchallenged with
  | silent => exact ⟨hrate.1.trans hkept.required, hrate.2.trans hkept.config⟩
  | issued i hingress htime =>
    subst htime
    exact ⟨hrate.1.trans hkept.required, hrate.2.trans hkept.config⟩

theorem History.receive (h : History P config past r) (hconfig : config.required = true)
    {ingress bytes : Bytes} {now : Time} {fresh : Fresh}
    (hfresh : ∀ e ∈ past, ∀ n, fresh.secret.map P.publicKey = some n →
      e.1.challengeValue P ≠ some n) :
    History P config ((.receive ingress bytes now fresh,
      (r.watch P (.receive ingress bytes now fresh)).2) :: past)
      (r.receive P ingress bytes now fresh).1 where
  required := (Router.receive_settings r ingress bytes now fresh).1.trans h.required
  settings := (Router.receive_settings r ingress bytes now fresh).2.trans h.settings
  sessions := by
    intro n d' hfind'
    have hnew : Event.Discloses (.receive ingress bytes now fresh,
        (r.watch P (.receive ingress bytes now fresh)).2) →
        ∀ seq, (Call.receive ingress bytes now fresh).proof = some (n, seq) →
          SpentIn n seq d'.auth := by
      intro hdisc seq hproof
      obtain ⟨i, -, -, -, seq', hproof', -, hspent⟩ := h.accepted hconfig hdisc
      rw [hproof', Option.some.injEq, Prod.mk.injEq] at hproof
      obtain ⟨rfl, rfl⟩ := hproof
      exact hspent d' hfind'
    rcases Router.receive_sessions hfind' with ⟨d, hfind, hd, hmoves⟩ | ⟨i, hissues, hn, hd, hrequest⟩
    · obtain ⟨i, hn, ⟨issuing, hmem, hissuing⟩, hframe, hingress, hexpires, hinv, hspent⟩ :=
        h.sessions n d hfind
      refine ⟨i, hn, ⟨issuing, mem_cons_of_mem _ hmem, hissuing⟩, ?_, ?_, ?_,
        hinv.moves hmoves, ?_⟩
      · rw [hd]; exact hframe
      · rw [hd]; exact hingress
      · rw [hd]; exact hexpires
      · intro e' he' hdisc seq hproof
        rcases mem_cons.mp he' with rfl | he'
        · exact hnew hdisc seq hproof
        · exact (hspent e' he' hdisc seq hproof).moves hmoves
    refine ⟨i, hn, ⟨_, mem_cons_self, hissues⟩, ?_, ?_, ?_, ?_, ?_⟩
    · rw [hd]; rfl
    · rw [hd]; rfl
    · rw [hd]; rfl
    · rw [hd, h.settings]
      exact AuthInv.issued config hrequest
    · intro e' he' hdisc seq hproof
      rcases mem_cons.mp he' with rfl | he'
      · exact hnew hdisc seq hproof
      -- a proof seen before belongs to a challenge issued before, which has another value
      obtain ⟨issuing, hmem, j, hissuing, hj⟩ := h.disclosed e' he' hdisc n seq hproof
      refine absurd hissuing.value (hfresh issuing hmem j.challenge.n ?_)
      rw [hj, ← hn]
      exact hissues.value
  disclosed := by
    intro e' he' hdisc n seq hproof
    rcases mem_cons.mp he' with rfl | he'
    · obtain ⟨i, ⟨issuing, hmem, hissuing⟩, -, -, seq', hproof', -⟩ := h.accepted hconfig hdisc
      have hsame : (Call.receive ingress bytes now fresh).proof = some (n, seq) := hproof
      rw [hproof', Option.some.injEq, Prod.mk.injEq] at hsame
      exact ⟨issuing, mem_cons_of_mem _ hmem, i, hissuing, hsame.1⟩
    · obtain ⟨issuing, hmem, hissuing⟩ := h.disclosed e' he' hdisc n seq hproof
      exact ⟨issuing, mem_cons_of_mem _ hmem, hissuing⟩

theorem Event.not_discloses_of_call {e : Event}
    (h : ∀ ingress bytes now fresh, e.1 ≠ .receive ingress bytes now fresh) : ¬e.Discloses := by
  rintro ⟨ingress, bytes, now, fresh, hcall, -⟩
  exact h ingress bytes now fresh hcall

theorem History.trace {start : Router} (hin : start.discoveryIn = {})
    (hrequired : start.discoveryRequired = true) (hconfig : start.authConfig.required = true)
    (h : Trace (Router.watch P) start past r)
    (hfresh : (past.filterMap fun e => e.1.challengeValue P).Nodup) :
    History P start.authConfig past r := by
  refine Trace.invariant (fun past r => (past.filterMap fun e => e.1.challengeValue P).Nodup →
    History P start.authConfig past r) (fun _ => History.start hin hrequired) ?_ h hfresh
  intro past s call _ ih hnodup
  have hpast : (past.filterMap fun e => e.1.challengeValue P).Nodup := by
    refine hnodup.sublist ?_
    rw [filterMap_cons]
    split
    · exact .refl _
    · exact sublist_cons_self _ _
  by_cases hcall : ∀ ingress bytes now fresh, call ≠ .receive ingress bytes now fresh
  · exact (ih hpast).kept (Router.step_kept s hcall) (Event.not_discloses_of_call hcall)
  simp only [not_forall, ne_eq, not_not] at hcall
  obtain ⟨ingress, bytes, now, fresh, rfl⟩ := hcall
  refine (ih hpast).receive hconfig fun e he n hn hvalue => ?_
  have hdrawn : Call.challengeValue P (.receive ingress bytes now fresh) = some n := hn
  simp only [filterMap_cons, hdrawn, nodup_cons] at hnodup
  exact hnodup.1 (mem_filterMap.mpr ⟨e, he, hvalue⟩)

/-! ### How many challenges there are -/

/-- The challenges issued since the rate window last started, the call that started it included. -/
def issuedSince : List Event → ℕ
  | [] => 0
  | e :: past => (if e.Resets then 0 else issuedSince past) + if e.issued then 1 else 0

structure Rated (r r' : Router) (now : Time) (issued : Bool) : Prop where
  size : r.discoveryIn.size ≤ discoverySessions → r'.discoveryIn.size ≤ discoverySessions
  bound : r.discoveryChallenges ≤ 32 → r'.discoveryChallenges ≤ 32
  count : (if r'.discoveryRateEpoch ≠ r.discoveryRateEpoch then 0 else r.discoveryChallenges) +
    (if issued then 1 else 0) ≤ r'.discoveryChallenges
  epoch : r'.discoveryRateEpoch ≠ r.discoveryRateEpoch →
    r.discoveryRateEpoch ≤ now ∧ r'.discoveryRateEpoch = now + second

theorem Rated.kept (hkept : Router.Kept P r r') (now : Time) {em : Emitted} {call : Call} :
    Rated r r' now (Event.issued (call, ⟨r, r', em⟩)) := by
  have hissued : Event.issued (call, ⟨r, r', em⟩) = false := by
    rw [Event.issued, any_eq_false]
    rintro ⟨n, d'⟩ hmem
    obtain ⟨d, hfind, -⟩ := hkept.sessions n d' (OrderedMap.find?_eq_some_iff.mpr hmem)
    simp [OrderedMap.contains, hfind]
  rw [hissued]
  refine ⟨fun h => Nat.le_trans hkept.size h, fun h => ?_, ?_, fun h => absurd hkept.epoch h⟩
  · rw [hkept.challenges]
    exact h
  · rw [if_neg (not_not.mpr hkept.epoch), hkept.challenges]
    exact Nat.le_refl _

theorem Router.rateWindow_rate (r : Router) (now : Time) :
    ((r.rateWindow now).discoveryRateEpoch = r.discoveryRateEpoch ∧
      (r.rateWindow now).discoveryChallenges = r.discoveryChallenges) ∨
    (r.discoveryRateEpoch ≤ now ∧ (r.rateWindow now).discoveryRateEpoch = now + second ∧
      (r.rateWindow now).discoveryChallenges = 0) := by
  rw [Router.rateWindow]
  split
  next h => exact .inr ⟨h, rfl, rfl⟩
  next => exact .inl ⟨rfl, rfl⟩

/-- A call that opens the rate window and counts up to `n` of at most 32 challenges. -/
theorem Rated.window {now : Time} {issued : Bool}
    (hepoch : r'.discoveryRateEpoch = (r.rateWindow now).discoveryRateEpoch)
    (hsize : r.discoveryIn.size ≤ discoverySessions → r'.discoveryIn.size ≤ discoverySessions)
    (hcount : (r.rateWindow now).discoveryChallenges + (if issued then 1 else 0) ≤
      r'.discoveryChallenges)
    (hbound : r'.discoveryChallenges ≤ max 32 (r.rateWindow now).discoveryChallenges) :
    Rated r r' now issued := by
  rcases Router.rateWindow_rate r now with ⟨hsame, hold⟩ | ⟨hle, hnew, hzero⟩
  · rw [hsame] at hepoch
    rw [hold] at hcount hbound
    refine ⟨hsize, fun h => by omega, ?_, fun h => absurd hepoch h⟩
    rw [if_neg (not_not.mpr hepoch)]
    exact hcount
  rw [hnew] at hepoch
  rw [hzero] at hcount hbound
  refine ⟨hsize, fun _ => by omega, ?_, fun _ => ⟨hle, hepoch⟩⟩
  refine Nat.le_trans (Nat.add_le_add_right ?_ _) hcount
  have hsecond : (0 : ℤ) < second := by decide
  have hne : r'.discoveryRateEpoch ≠ r.discoveryRateEpoch := by
    intro heq
    rw [heq] at hepoch
    rw [hepoch] at hle
    exact absurd (Int.lt_add_of_pos_right now hsecond) (Int.not_lt.mpr hle)
  rw [if_pos hne]

theorem Rated.after_kept {s : Router} {now : Time} {issued : Bool} (hkept : Router.Kept P r s)
    (h : Rated s r' now issued) : Rated r r' now issued where
  size := fun hsize => h.size (Nat.le_trans hkept.size hsize)
  bound := fun hbound => h.bound (by rw [hkept.challenges]; exact hbound)
  count := by
    have hcount := h.count
    rw [hkept.epoch, hkept.challenges] at hcount
    exact hcount
  epoch := by
    have hepoch := h.epoch
    rw [hkept.epoch] at hepoch
    exact hepoch

theorem Router.receive_rated (r : Router) (ingress bytes : Bytes) (now : Time) (fresh : Fresh) :
    Rated r (r.receive P ingress bytes now fresh).1 now
      (Event.issued (.receive ingress bytes now fresh,
        (r.watch P (.receive ingress bytes now fresh)).2)) := by
  have hcases := Router.receive_challenges (P := P) r ingress bytes now fresh
  show Rated r (r.receive P ingress bytes now fresh).1 now (Event.issued (.receive ingress bytes now
    fresh, ⟨r, (r.receive P ingress bytes now fresh).1, (r.receive P ingress bytes now fresh).2⟩))
  generalize r.receive P ingress bytes now fresh = result at hcases
  rcases hcases with hkept | ⟨f, e, -, -, -, -, -, -, hchallenged⟩
  · exact .kept hkept now
  have hkept := Router.arrived_kept (P := P) r ingress e now fresh
  obtain ⟨hin, -⟩ := Router.rateWindow_fields (r.arrived ingress e now fresh) now
  cases hchallenged with
  | silent count hle hcount =>
    have hissued : Event.issued (.receive ingress bytes now fresh, ⟨r,
        { (r.arrived ingress e now fresh).rateWindow now with discoveryChallenges := count },
        {}⟩) = false := by
      rw [Event.issued, any_eq_false]
      rintro ⟨n, d'⟩ hmem
      have hfind := OrderedMap.find?_eq_some_iff.mpr hmem
      dsimp only at hfind
      rw [hin] at hfind
      obtain ⟨d, hd, -⟩ := hkept.sessions n d' hfind
      simp [OrderedMap.contains, hd]
    rw [hissued]
    refine .after_kept hkept (.window rfl ?_ hle hcount)
    rw [show ({ (r.arrived ingress e now fresh).rateWindow now with
      discoveryChallenges := count } : Router).discoveryIn = _ from hin]
    exact id
  | issued i hingress htime hframe hsecret hn hnew hcount hroom =>
    subst htime
    refine .after_kept hkept (.window rfl ?_ ?_ ?_)
    · intro _
      have hnone : ((r.arrived ingress e i.time fresh).rateWindow i.time).discoveryIn.find?
          i.challenge.n = none := by rw [hin]; exact hnew
      have hsize := OrderedMap.size_insert_of_none hnone
        (i.session ((r.arrived ingress e i.time fresh).rateWindow i.time).authConfig)
      rw [Router.issue]
      dsimp only
      rw [hsize, hin]
      exact hroom
    · refine Nat.add_le_add_left ?_ _
      split
      · exact Nat.le_refl _
      · exact Nat.zero_le _
    · exact Nat.le_trans (Nat.succ_le_of_lt hcount) (Nat.le_max_left _ _)

theorem Router.step_rated (r : Router) (call : Call) :
    Rated r (r.step P call).1 call.time (Event.issued (call, (r.watch P call).2)) := by
  by_cases hcall : ∀ ingress bytes now fresh, call ≠ .receive ingress bytes now fresh
  · exact .kept (Router.step_kept (P := P) r hcall) call.time
  simp only [not_forall, ne_eq, not_not] at hcall
  obtain ⟨ingress, bytes, now, fresh, rfl⟩ := hcall
  exact Router.receive_rated r ingress bytes now fresh

structure RateInv (past : List Event) (r : Router) : Prop where
  size : r.discoveryIn.size ≤ discoverySessions
  bound : r.discoveryChallenges ≤ 32
  count : issuedSince past ≤ r.discoveryChallenges
  resets : ∀ e ∈ past, e.Resets → e.1.time + second ≤ r.discoveryRateEpoch

theorem RateInv.step (h : RateInv past r) (call : Call) :
    RateInv ((call, (r.watch P call).2) :: past) (r.watch P call).1 := by
  have hrated := Router.step_rated (P := P) r call
  refine ⟨hrated.size h.size, hrated.bound h.bound, ?_, ?_⟩
  · refine Nat.le_trans (Nat.add_le_add_right ?_ _) hrated.count
    have hsame : Event.Resets (call, (r.watch P call).2) ↔
        (r.step P call).1.discoveryRateEpoch ≠ r.discoveryRateEpoch := Iff.rfl
    rw [if_congr hsame rfl rfl]
    split
    · exact Nat.le_refl _
    · exact h.count
  · intro e he hreset
    rcases mem_cons.mp he with rfl | he
    · exact Int.le_of_eq (hrated.epoch hreset).2.symm
    have hold := h.resets e he hreset
    by_cases hepoch : (r.step P call).1.discoveryRateEpoch = r.discoveryRateEpoch
    · rw [Router.watch, hepoch]
      exact hold
    obtain ⟨hle, hnew⟩ := hrated.epoch hepoch
    rw [Router.watch, hnew]
    have hsecond : (0 : ℤ) ≤ second := by decide
    exact Int.le_trans hold (Int.le_trans hle (Int.le_add_of_nonneg_right hsecond))

theorem RateInv.trace {start : Router} (hin : start.discoveryIn = {})
    (hcount : start.discoveryChallenges ≤ 32) (h : Trace (Router.watch P) start past r) :
    RateInv past r := by
  refine Trace.invariant RateInv ⟨?_, hcount, Nat.zero_le _, by simp⟩
    (fun _ _ call _ hinv => hinv.step call) h
  rw [hin]
  exact Nat.zero_le _

theorem count_le_issuedSince {mid earlier : List Event} (h : ∀ e ∈ mid.dropLast, ¬e.Resets) :
    (mid.filter Event.issued).length ≤ issuedSince (mid ++ earlier) := by
  induction mid with
  | nil => exact Nat.zero_le _
  | cons e rest ih =>
    have hhead : ((e :: rest).filter Event.issued).length =
        (rest.filter Event.issued).length + if e.issued then 1 else 0 := by
      rw [filter_cons]
      split
      · rw [length_cons]
      · rw [Nat.add_zero]
    rw [hhead, cons_append, issuedSince]
    refine Nat.add_le_add_right ?_ _
    rcases rest with _ | ⟨next, rest⟩
    · exact Nat.zero_le _
    rw [dropLast_cons_of_ne_nil (cons_ne_nil _ _)] at h
    rw [if_neg (h e mem_cons_self)]
    exact ih fun e' he' => h e' (mem_cons_of_mem _ he')

/-- Authenticated discovery in every run of a router in required mode whose challenge
values never repeat. Whatever a received frame discloses, records or passes on rests on
a proof verified in that very step, for a live challenge of this router and by a trusted
authority, and goes on with the context of the challenge; no proof works twice; sessions
and challenges are bounded. -/
theorem authenticated_discovery (P : Primitives) {start r : Router} {past : List Event}
    (hin : start.discoveryIn = {}) (hcount : start.discoveryChallenges = 0)
    (hrequired : start.discoveryRequired = true) (hconfig : start.authConfig.required = true)
    (h : Trace (Router.watch P) start past r)
    (hfresh : (past.filterMap fun e => e.1.challengeValue P).Nodup) :
    (∀ later e earlier, past = later ++ e :: earlier → Event.Discloses e →
      ∃ i : Router.Issue, (∃ issuing ∈ earlier, Event.Issues P issuing i) ∧
        Event.Verifies P e i ∧ Event.Continues e i ∧
        ∀ other ∈ earlier, Event.Discloses other → other.1.proof ≠ e.1.proof) ∧
    r.discoveryIn.size ≤ 128 ∧
    (∀ later mid earlier, past = later ++ (mid ++ earlier) → (∀ e ∈ mid.dropLast, ¬Event.Resets e) →
      (mid.filter Event.issued).length ≤ 32) ∧
    ∀ later e mid e' earlier, past = later ++ e :: (mid ++ e' :: earlier) → Event.Resets e →
      Event.Resets e' → e'.1.time + second ≤ e.1.time := by
  have hzero : start.discoveryChallenges ≤ 32 := by rw [hcount]; decide
  refine ⟨?_, (RateInv.trace hin hzero h).size, ?_, ?_⟩
  · rintro later e earlier rfl hdisc
    obtain ⟨s, hs⟩ := h.suffix
    rw [List.filterMap_append] at hfresh
    have hnodup := (List.nodup_append.mp hfresh).2.1
    have hearlier : (earlier.filterMap fun e => e.1.challengeValue P).Nodup := by
      refine hnodup.sublist ?_
      rw [List.filterMap_cons]
      split
      · exact .refl _
      · exact List.sublist_cons_self _ _
    cases hs with
    | cons call hbefore =>
      have hhistory := History.trace hin hrequired hconfig hbefore hearlier
      obtain ⟨ingress, bytes, now, fresh, hcall, -⟩ := id hdisc
      cases hcall
      obtain ⟨i, hissued, hverifies, hcontinues, seq, hproof, honce, -⟩ :=
        hhistory.accepted hconfig hdisc
      refine ⟨i, hissued, hverifies, hcontinues, fun other hother hd => ?_⟩
      rw [show Call.proof _ = _ from hproof]
      exact honce other hother hd
  · rintro later mid earlier rfl hmid
    obtain ⟨s, hs⟩ := h.suffix
    have hinv := RateInv.trace hin hzero hs
    exact Nat.le_trans (count_le_issuedSince hmid) (Nat.le_trans hinv.count hinv.bound)
  · rintro later e mid e' earlier rfl he he'
    obtain ⟨s, hs⟩ := h.suffix
    cases hs with
    | @cons _ before call hbefore =>
      have hinv := RateInv.trace hin hzero hbefore
      have hreset := hinv.resets e' (List.mem_append_right _ List.mem_cons_self) he'
      have hrated := Router.step_rated (P := P) before call
      exact Int.le_trans hreset (hrated.epoch he).1

def guardedRouter : Router where
  instanceId := Vector.replicate 16 7
  component := ascii "switch"
  allowed := true
  discoveryRequired := true
  authConfig :=
    { trusted := ({} : OrderedMap AuthorityKey Control.Grant).insert (Vector.replicate 32 9)
        { pub := Vector.replicate 32 9, caps := 1 }
      allowTrusted := true }

def askedDiscovery : Frame :=
  { kind := .discover, request := Vector.replicate 16 2, origin := Vector.replicate 16 3 }

def provenDiscovery : Frame :=
  { askedDiscovery with
    auth := List.replicate 32 5 ++ List.replicate 32 9 ++ storeBe64 1 ++ List.replicate 16 0 }

/-- Two edges, a discovery from one of them, and the proof for its challenge. -/
def guardedCalls : List Call :=
  [.edge (ascii "peer") 1 true maxFrame, .edge (ascii "a") 2 false maxFrame,
    .receive (ascii "a") askedDiscovery.bytes 1
      ⟨Vector.replicate 16 1, ones_ne_zeroBlock, some (Vector.replicate 32 5)⟩,
    .receive (ascii "a") provenDiscovery.bytes 2 ⟨Vector.replicate 16 4, by decide, none⟩]

def guardedRun : List Event × Router :=
  Transition.run (Router.watch plainPrimitives) guardedRouter guardedCalls

theorem guardedRun_facts :
    (guardedRun.1.filterMap fun e => e.1.challengeValue plainPrimitives).Nodup ∧
      guardedRun.1.length = 4 ∧
      (guardedRun.1.head?.map fun e => e.2.after.seen.contains askedDiscovery.key &&
        !e.2.before.seen.contains askedDiscovery.key && e.2.emitted.effects.length == 2) =
        some true ∧
      guardedRun.1.head?.map Prod.fst = guardedCalls.getLast? := by
  decide +kernel

/-- The proof in the last call makes the router answer and pass the discovery on. -/
theorem authenticated_discovery_sample :
    ∃ e earlier, guardedRun.1 = e :: earlier ∧ Event.Discloses e ∧
      ∃ i : Router.Issue, (∃ issuing ∈ earlier, Event.Issues plainPrimitives issuing i) ∧
        Event.Verifies plainPrimitives e i := by
  obtain ⟨hnodup, -, hdisc, hcall⟩ := guardedRun_facts
  have hmain := @authenticated_discovery plainPrimitives guardedRouter guardedRun.2 guardedRun.1 rfl rfl
    rfl rfl (Transition.trace_run guardedCalls) hnodup
  rcases hrun : guardedRun.1 with _ | ⟨e, earlier⟩
  · rw [hrun] at hdisc
    cases hdisc
  · rw [hrun] at hdisc hcall
    simp only [List.head?_cons, Option.map_some, Option.some.injEq, Bool.and_eq_true,
      Bool.not_eq_true'] at hdisc
    have hdiscloses : Event.Discloses e :=
      ⟨_, _, _, _, Option.some.inj hcall, .inl ⟨askedDiscovery.key, hdisc.1.1, hdisc.1.2⟩⟩
    obtain ⟨i, hissued, hverifies, -⟩ := hmain.1 [] e earlier hrun hdiscloses
    exact ⟨e, earlier, rfl, hdiscloses, i, hissued, hverifies⟩

end Tuntom.ControlRoute
