import Tuntom.ControlNetwork

/-! Discovery cannot storm: a router answers a discovery and passes it on once, every
copy has a smaller hop budget than its original, errors breed no errors, and without
duplication the frames of a discovery run out. -/
namespace Tuntom.ControlRoute
open List
open Control (Id zeroBlock AuthorityKey)
open Transition (Trace)

/-! ### Counting what is emitted -/

def Effect.frame : Effect → Option Frame
  | .sent _ bytes => Frame.decode bytes
  | .delivered f => some f

def Effect.kind (e : Effect) : Option Kind := e.frame.map Frame.kind

def Effect.leaves (edge : Bytes) (kind : Kind) : Effect → Bool
  | .sent name bytes => name = edge ∧ (Frame.decode bytes).map Frame.kind = some kind
  | .delivered _ => false

namespace Emitted

def founds (em : Emitted) : ℕ := em.effects.countP fun e => e.kind = some .found

def fanouts (edge : Bytes) (em : Emitted) : ℕ := em.effects.countP (Effect.leaves edge .discover)

theorem founds_andThen_le (a b : Emitted) : (a.andThen b).founds ≤ a.founds + b.founds := by
  rw [andThen]
  split
  · exact Nat.le_add_right _ _
  · rw [founds, countP_append]
    exact Nat.le_refl _

theorem fanouts_andThen_le (edge : Bytes) (a b : Emitted) :
    (a.andThen b).fanouts edge ≤ a.fanouts edge + b.fanouts edge := by
  rw [andThen]
  split
  · exact Nat.le_add_right _ _
  · rw [fanouts, countP_append]
    exact Nat.le_refl _

end Emitted

namespace Router

variable {P : Primitives} {r : Router} {f : Frame}

theorem Moved.kind {e : Effect} (h : Moved r f e) : e.kind = some f.kind := by
  cases h with
  | here => rfl
  | passed hop rest out hdest hedge hbudget hencode =>
    rw [Effect.kind, Effect.frame, Frame.decode_bytes hencode]
    rfl

theorem length_attempt_le (r : Router) (f : Frame) : (r.attempt f).emitted.effects.length ≤ 1 := by
  cases r.attempt f <;> simp [Attempt.emitted]

theorem length_reject_le (r : Router) (f : Frame) (reason : Bytes) :
    (r.reject f reason).effects.length ≤ 1 := by
  rw [reject]
  split
  · exact Nat.zero_le _
  · exact length_attempt_le _ _

theorem length_route_le (r : Router) (f : Frame) : (r.route f).effects.length ≤ 1 := by
  rcases route_cases r f with h | ⟨-, reason, -, h⟩
  · rw [h]
    exact length_attempt_le _ _
  · rw [h]
    exact length_reject_le _ _ _

theorem length_answer_le (r : Router) (f : Frame) (kind : Kind) (proven : Option AuthorityKey) :
    (r.answer P f kind proven).2.effects.length ≤ 1 := by
  rw [answer]
  dsimp only
  split
  · exact length_route_le _ _
  split
  · exact Nat.zero_le _
  · exact length_route_le _ _

theorem length_sendBranch_le (r : Router) (f : Frame) (e : Edge) :
    (r.sendBranch f e).effects.length ≤ 1 := by
  rw [sendBranch]
  split
  · exact length_reject_le _ _ _
  · exact length_route_le _ _

theorem founds_eq_zero {em : Emitted} (h : ∀ e ∈ em.effects, e.kind ≠ some .found) :
    em.founds = 0 := by
  rw [Emitted.founds, countP_eq_zero]
  intro e he
  simpa using h e he

theorem fanouts_eq_zero {em : Emitted} {edge : Bytes}
    (h : ∀ e ∈ em.effects, e.kind ≠ some .discover) : em.fanouts edge = 0 := by
  rw [Emitted.fanouts, countP_eq_zero]
  intro e he
  cases e with
  | delivered => simp [Effect.leaves]
  | sent name bytes =>
    have hkind := h _ he
    simp only [Effect.leaves, decide_eq_true_eq, not_and]
    exact fun _ => hkind

theorem counts_eq_zero {em : Emitted} {kind : Kind} (h : ∀ e ∈ em.effects, e.kind = some kind)
    (hfound : kind ≠ .found) (hdiscover : kind ≠ .discover) :
    em.founds = 0 ∧ ∀ edge, em.fanouts edge = 0 := by
  refine ⟨founds_eq_zero fun e he => ?_, fun edge => fanouts_eq_zero fun e he => ?_⟩
  · rw [h e he]
    exact fun heq => hfound (Option.some.inj heq)
  · rw [h e he]
    exact fun heq => hdiscover (Option.some.inj heq)

theorem fanouts_sendBranch (hsingle : r.SinglePeer) (edge : Bytes) {name : Bytes} {e : Edge}
    (he : r.edges.find? name = some e) :
    (r.sendBranch f e).fanouts edge ≤ if name = edge then 1 else 0 := by
  split
  · exact Nat.le_trans (countP_le_length) (length_sendBranch_le r f e)
  next hne =>
  rw [Nat.le_zero, Emitted.fanouts, countP_eq_zero]
  intro x hx hleaves
  cases x with
  | delivered => cases hleaves
  | sent target bytes =>
    obtain ⟨htarget, hkind⟩ := of_decide_eq_true hleaves
    rw [sendBranch] at hx
    have hkindOf : ∀ {g : Frame}, Moved r g (.sent target bytes) → g.kind = .discover := by
      intro g hmoved
      have hk := hmoved.kind
      rw [Effect.kind, Effect.frame, hkind] at hk
      exact (Option.some.inj hk).symm
    split at hx
    · have hbad := hkindOf (mem_reject hx).2
      cases hbad
    rcases mem_route hx with hmoved | ⟨-, reason, hmoved⟩
    · obtain ⟨-, -, hop, rest, out, hdest, hresolve, hname⟩ := hmoved.sent
      have hhop : hop = hopOf e := (List.cons.inj hdest).1.symm
      rw [hhop] at hresolve
      apply hne
      rw [← hsingle.resolve_hopOf he hresolve, hname, htarget]
    · have hbad := hkindOf hmoved
      cases hbad

theorem fanouts_fanOut (hsingle : r.SinglePeer) (ingress edge : Bytes) :
    (r.fanOut f ingress).fanouts edge ≤ if edge = ingress then 0 else 1 := by
  have hlist : ∀ l : List (Bytes × Edge), (∀ x ∈ l, r.edges.find? x.1 = some x.2) →
      (Emitted.each (fun x => r.sendBranch f x.2) l).fanouts edge ≤ (l.map Prod.fst).count edge := by
    intro l hl
    induction l with
    | nil => exact Nat.le_refl _
    | cons x rest ih =>
      have hhead := fanouts_sendBranch (f := f) hsingle edge (hl x mem_cons_self)
      have htail := ih fun y hy => hl y (mem_cons_of_mem _ hy)
      have hthen := Emitted.fanouts_andThen_le edge (r.sendBranch f x.2)
        (Emitted.each (fun x => r.sendBranch f x.2) rest)
      rw [Emitted.each, map_cons, count_cons]
      simp only [beq_iff_eq]
      omega
  have hle := hlist (r.edges.entries.filter fun x => x.1 ≠ ingress)
    fun x hx => OrderedMap.find?_eq_some_iff.mpr (mem_of_mem_filter hx)
  have hnodup : ((r.edges.entries.filter fun x => x.1 ≠ ingress).map Prod.fst).Nodup :=
    r.edges.nodup.sublist (filter_sublist.map Prod.fst)
  rw [fanOut]
  split
  next hedge =>
    have hnot : edge ∉ (r.edges.entries.filter fun x => x.1 ≠ ingress).map Prod.fst := by
      intro hmem
      obtain ⟨x, hx, hname⟩ := mem_map.mp hmem
      exact of_decide_eq_true (mem_filter.mp hx).2 (hname.trans hedge)
    rw [count_eq_zero_of_not_mem hnot] at hle
    exact hle
  next => exact Nat.le_trans hle (nodup_iff_count_le_one.mp hnodup edge)

/-- A discovery that the router has a record of is not answered as found and not
passed on; one without a record is, once, and leaves a record. -/
theorem announce_counts (hsingle : r.SinglePeer) (hkind : f.kind = .discover) (ingress : Bytes)
    (now : Time) (proven : Option AuthorityKey) :
    (r.seen.contains f.key = true → (r.announce P f ingress now proven).2.founds = 0 ∧
      ∀ edge, (r.announce P f ingress now proven).2.fanouts edge = 0) ∧
    (r.announce P f ingress now proven).2.founds ≤ 1 ∧
    (∀ edge, (r.announce P f ingress now proven).2.fanouts edge ≤ if edge = ingress then 0 else 1) ∧
    (((r.announce P f ingress now proven).2.founds = 0 ∧
        ∀ edge, (r.announce P f ingress now proven).2.fanouts edge = 0) ∨
      (r.announce P f ingress now proven).1.seen.find? f.key = some (now + discoveryLifetime)) := by
  rw [announce]
  split
  next hnew =>
    refine ⟨fun h => absurd (hnew.symm.trans h) Bool.false_ne_true, ?_⟩
    split
    · have hnone := @counts_eq_zero (r.reject f (ascii "discovery_busy")) _
        (fun e he => (mem_reject he).2.kind) (by rintro ⟨⟩) (by rintro ⟨⟩)
      exact ⟨hnone.1.trans_le (Nat.zero_le _), fun edge => (hnone.2 edge).trans_le (Nat.zero_le _),
        .inl hnone⟩
    dsimp only
    let r' : Router := { r with seen := r.seen.insert f.key (now + discoveryLifetime) }
    have hedges : (r'.answer P f .found proven).1.edges = r.edges := (answer_edges _ _ _ _).1
    have hsingle' : (r'.answer P f .found proven).1.SinglePeer := by
      refine ⟨?_, ?_⟩
      · rw [hedges]
        exact hsingle.named
      · rw [hedges]
        exact hsingle.peer
    have hanswer : ∀ edge, (r'.answer P f .found proven).2.fanouts edge = 0 := by
      refine fun edge => fanouts_eq_zero fun e he => ?_
      obtain ⟨auth, hmoved⟩ := mem_answer rfl he
      rw [hmoved.kind]
      rintro ⟨⟩
    have hfan : ((r'.answer P f .found proven).1.fanOut f ingress).founds = 0 := by
      refine founds_eq_zero fun e he => ?_
      rcases mem_fanOut he with ⟨g, reason, -, -, hmoved⟩ | ⟨name, out, -, -, hmoved⟩
      · rw [hmoved.kind]
        rintro ⟨⟩
      rw [hmoved.kind]
      show some f.kind ≠ _
      rw [hkind]
      decide
    refine ⟨?_, fun edge => ?_, .inr ?_⟩
    · refine Nat.le_trans (Emitted.founds_andThen_le _ _) ?_
      rw [hfan, Nat.add_zero]
      exact Nat.le_trans countP_le_length (length_answer_le _ _ _ _)
    · refine Nat.le_trans (Emitted.fanouts_andThen_le _ _ _) ?_
      rw [hanswer edge, Nat.zero_add]
      exact fanouts_fanOut hsingle' ingress edge
    · rw [(answer_edges _ _ _ _).2]
      rw [OrderedMap.find?_insert, if_pos rfl]
  next hseen =>
  dsimp only
  split
  · exact ⟨fun _ => ⟨rfl, fun _ => rfl⟩, Nat.zero_le _, fun _ => Nat.zero_le _,
      .inl ⟨rfl, fun _ => rfl⟩⟩
  have hcount := @counts_eq_zero (answer P { r with
      alternatives := r.alternatives.insert f.key (r.nextQuota f.key now) } f .altPath proven).2
    .altPath (fun e he => by
      obtain ⟨auth, hmoved⟩ := mem_answer rfl he
      exact hmoved.kind) (by rintro ⟨⟩) (by rintro ⟨⟩)
  exact ⟨fun _ => hcount, hcount.1.trans_le (Nat.zero_le _),
    fun edge => (hcount.2 edge).trans_le (Nat.zero_le _), .inl hcount⟩

/-! ### One call -/

structure Open (r : Router) : Prop where
  required : r.discoveryRequired = false
  sessions : r.discoveryIn = {}

theorem Open.kept {r r' : Router} (h : r.Open) (hkept : Kept P r r') : r'.Open where
  required := hkept.required.trans h.required
  sessions := by
    refine OrderedMap.ext_entries (eq_nil_iff_forall_not_mem.mpr ?_)
    rintro ⟨n, d'⟩ hmem
    obtain ⟨d, hfind, -⟩ := hkept.sessions n d' (OrderedMap.find?_eq_some_iff.mpr hmem)
    rw [h.sessions] at hfind
    cases hfind

theorem Open.discover (h : r.Open) (ingress : Bytes) (now : Time) (secret : Option (Block 32)) :
    r.discover P f ingress now secret = r.announce P f ingress now none ∨
      r.discover P f ingress now secret = (r, {}) := by
  rw [Router.discover]
  split
  · exact .inl rfl
  next hmode =>
  rw [if_neg fun hempty => hmode ⟨h.required, hempty⟩, proveDiscovery]
  dsimp only
  rw [h.sessions]
  exact .inr rfl

/-- Frames that come in and discoveries that start here: what a network run is made of. -/
def Traffic (call : Call) : Prop :=
  (∃ ingress bytes now fresh, call = .receive ingress bytes now fresh) ∨
    ∃ now path request, call = .beginDiscovery now path request

theorem Open.receive (h : r.Open) (ingress bytes : Bytes) (now : Time) (fresh : Fresh) :
    (r.receive P ingress bytes now fresh).1.Open := by
  have hcases := receive_cases (P := P) r ingress bytes now fresh
  generalize r.receive P ingress bytes now fresh = result at hcases
  cases hcases with
  | ignored | tooDeep => exact h
  | routed f e => exact h.kept (arrived_kept (P := P) r ingress e now fresh)
  | discovered f e =>
    have hopen := h.kept (arrived_kept (P := P) r ingress e now fresh)
    rcases hopen.discover (P := P) (f := r.pushed ingress e fresh f) ingress now fresh.secret with
      hd | hd
    · rw [hd]
      exact hopen.kept (announce_kept (P := P) _ _ _ _ _)
    · rw [hd]
      exact hopen

theorem beginDiscovery_linked (r : Router) (now : Time) (path : Path) (request : Id) :
    Linked r (r.beginDiscovery P now path request).1 := by
  rw [beginDiscovery]
  split
  · exact .refl r
  dsimp only
  split
  · exact (tick_linked r now).trans (announce_linked _ _ _ _ _)
  · exact (tick_linked r now).trans (tick_linked _ now)

theorem Traffic.linked {call : Call} (h : Traffic call) (r : Router) :
    Linked r (r.step P call).1 := by
  rcases h with ⟨ingress, bytes, now, fresh, rfl⟩ | ⟨now, path, request, rfl⟩
  · exact receive_linked r ingress bytes now fresh
  · exact beginDiscovery_linked r now path request

theorem Traffic.opened {call : Call} (h : Traffic call) {r : Router} (hopen : r.Open) :
    (r.step P call).1.Open := by
  rcases h with ⟨ingress, bytes, now, fresh, rfl⟩ | ⟨now, path, request, rfl⟩
  · exact hopen.receive ingress bytes now fresh
  · exact hopen.kept (step_kept r (by simp))

variable {expires : Time} {key : DiscoveryKey}

theorem tick_seen {now : Time} (h : r.seen.find? key = some expires) (hlive : now < expires) :
    (r.tick now).seen.find? key = some expires := by
  rw [tick, OrderedMap.find?_filter, h]
  exact Option.filter_eq_some_iff.mpr ⟨rfl, decide_eq_true hlive⟩

theorem arrived_keeps {now : Time} (h : r.seen.find? key = some expires) (hlive : now < expires)
    (ingress : Bytes) (e : Edge) (fresh : Fresh) :
    (r.arrived ingress e now fresh).seen.find? key = some expires := by
  refine tick_seen ?_ hlive
  rw [withToken]
  split <;> exact h

theorem announce_keeps (h : r.seen.find? key = some expires) (ingress : Bytes) (now : Time)
    (proven : Option AuthorityKey) :
    (r.announce P f ingress now proven).1.seen.find? key = some expires := by
  rw [announce]
  split
  next hnew =>
    split
    · exact h
    dsimp only
    rw [(answer_edges _ _ _ _).2, OrderedMap.find?_insert, if_neg]
    · exact h
    · rintro rfl
      rw [OrderedMap.contains, h] at hnew
      cases hnew
  next =>
  dsimp only
  split
  · exact h
  · rw [(answer_edges _ _ _ _).2]
    exact h

theorem Traffic.keeps {call : Call} (h : Traffic call) (hopen : r.Open)
    (hseen : r.seen.find? key = some expires) (hlive : call.time < expires) :
    (r.step P call).1.seen.find? key = some expires := by
  rcases h with ⟨ingress, bytes, now, fresh, rfl⟩ | ⟨now, path, request, rfl⟩
  · rw [step]
    have hcases := receive_cases (P := P) r ingress bytes now fresh
    generalize r.receive P ingress bytes now fresh = result at hcases
    cases hcases with
    | ignored | tooDeep => exact hseen
    | routed f e => exact arrived_keeps hseen hlive ingress e fresh
    | discovered f e =>
      have hopen' := hopen.kept (arrived_kept (P := P) r ingress e now fresh)
      have hkeeps := arrived_keeps hseen hlive ingress e fresh
      rcases hopen'.discover (P := P) (f := r.pushed ingress e fresh f) ingress now fresh.secret with
        hd | hd
      · rw [hd]
        exact announce_keeps hkeeps _ _ _
      · rw [hd]
        exact hkeeps
  rw [step, beginDiscovery]
  have hkeeps := tick_seen hseen hlive
  split
  · exact hseen
  dsimp only
  split
  · exact announce_keeps hkeeps _ _ _
  · exact tick_seen hkeeps hlive

end Router

namespace Event

def asks (e : Event) : Option DiscoveryKey :=
  match e.1 with
  | .receive _ bytes _ _ =>
    (Frame.decode bytes).bind fun f =>
      if f.kind = .discover ∧ f.destination = [] then some f.key else none
  | .beginDiscovery _ path request =>
    if path = [] then some { origin := e.2.before.instanceId, request } else none
  | .localDiscovery f _ => some f.key
  | _ => none

def First (e : Event) : Prop := 0 < e.2.emitted.founds ∨ ∃ edge, 0 < e.2.emitted.fanouts edge

end Event

structure Asked (key : DiscoveryKey) (e : Event) : Prop where
  again : (∃ expires, e.2.before.seen.find? key = some expires ∧ e.1.time < expires) → ¬e.First
  founds : e.2.emitted.founds ≤ 1
  fanouts : ∀ edge, e.2.emitted.fanouts edge ≤ 1
  back : ∀ ingress bytes now fresh, e.1 = .receive ingress bytes now fresh →
    e.2.emitted.fanouts ingress = 0
  record : e.First → e.2.after.seen.find? key = some (e.1.time + discoveryLifetime)

theorem Asked.silent {key : DiscoveryKey} {e : Event} (hfounds : e.2.emitted.founds = 0)
    (hfanouts : ∀ edge, e.2.emitted.fanouts edge = 0) : Asked key e := by
  have hnot : ¬e.First := by
    rintro (h | ⟨edge, h⟩)
    · omega
    · have := hfanouts edge
      omega
  exact ⟨fun _ => hnot, by omega, fun edge => by have := hfanouts edge; omega,
    fun ingress _ _ _ _ => hfanouts ingress, fun h => absurd h hnot⟩

theorem Asked.announced {P : Primitives} {r s : Router} {f : Frame} {call : Call} {ingress : Bytes}
    {key : DiscoveryKey} (hsingle : s.SinglePeer) (hkind : f.kind = .discover) (hkey : f.key = key)
    (hkeeps : ∀ expires, r.seen.find? key = some expires → call.time < expires →
      s.seen.find? key = some expires)
    (hingress : ∀ ingress' bytes now fresh, call = .receive ingress' bytes now fresh →
      ingress' = ingress) :
    Asked key (call, ⟨r, (s.announce P f ingress call.time none).1,
      (s.announce P f ingress call.time none).2⟩) := by
  obtain ⟨hseen, hfounds, hfanouts, hrecord⟩ :=
    Router.announce_counts (P := P) hsingle hkind ingress call.time none
  subst hkey
  have hfirst : ((s.announce P f ingress call.time none).2.founds = 0 ∧
      ∀ edge, (s.announce P f ingress call.time none).2.fanouts edge = 0) →
      ¬Event.First (call, ⟨r, (s.announce P f ingress call.time none).1,
        (s.announce P f ingress call.time none).2⟩) := by
    rintro ⟨hzero, hzeros⟩ (h | ⟨edge, h⟩)
    · exact absurd h (by rw [hzero]; exact Nat.lt_irrefl 0)
    · exact absurd h (by rw [hzeros edge]; exact Nat.lt_irrefl 0)
  refine ⟨?_, hfounds, fun edge => ?_, ?_, fun h => ?_⟩
  · rintro ⟨expires, hfind, hlive⟩
    refine hfirst (hseen ?_)
    rw [OrderedMap.contains, hkeeps expires hfind hlive]
    rfl
  · refine Nat.le_trans (hfanouts edge) ?_
    split <;> omega
  · rintro ingress' bytes now fresh hcall
    rw [hingress ingress' bytes now fresh hcall]
    have hle := hfanouts ingress
    rw [if_pos rfl] at hle
    exact Nat.le_zero.mp hle
  · exact hrecord.resolve_left fun hnone => hfirst hnone h

namespace Router

variable {P : Primitives} {r : Router}

theorem Traffic.asked {call : Call} (h : Traffic call) (hopen : r.Open) (hsingle : r.SinglePeer)
    {key : DiscoveryKey} (hasks : Event.asks (call, (r.watch P call).2) = some key) :
    Asked key (call, (r.watch P call).2) := by
  rcases h with ⟨ingress, bytes, now, fresh, rfl⟩ | ⟨now, path, request, rfl⟩
  · show Asked key (.receive ingress bytes now fresh, ⟨r, (r.receive P ingress bytes now fresh).1,
      (r.receive P ingress bytes now fresh).2⟩)
    have hcases := receive_cases (P := P) r ingress bytes now fresh
    generalize r.receive P ingress bytes now fresh = result at hcases
    obtain ⟨g, hg, hasked⟩ := Option.bind_eq_some_iff.mp
      (show ((Frame.decode bytes).bind fun f =>
        if f.kind = .discover ∧ f.destination = [] then some f.key else none) = some key from hasks)
    split at hasked
    next hlocal =>
      cases hcases with
      | ignored => exact .silent rfl fun _ => rfl
      | tooDeep f =>
        have hnone := @counts_eq_zero (r.reject f (ascii "reply_path_limit")) _
          (fun e he => (mem_reject he).2.kind) (by rintro ⟨⟩) (by rintro ⟨⟩)
        exact .silent hnone.1 hnone.2
      | routed f e hdecode hedge hroom hnot =>
        rw [hg] at hdecode
        cases hdecode
        exact absurd hlocal hnot
      | discovered f e hdecode hedge hroom hkind hdest =>
        rw [hg] at hdecode
        cases hdecode
        have hopen' := hopen.kept (arrived_kept (P := P) r ingress e now fresh)
        rcases hopen'.discover (P := P) (f := r.pushed ingress e fresh g) ingress now
          fresh.secret with hd | hd
        · rw [hd]
          refine Asked.announced (hsingle.linked (arrived_linked hedge now fresh)) hkind
            (Option.some.inj hasked) (fun expires hfind hlive => ?_) fun _ _ _ _ hcall => ?_
          · exact arrived_keeps hfind hlive ingress e fresh
          · cases hcall
            rfl
        · rw [hd]
          exact .silent rfl fun _ => rfl
    next => cases hasked
  show Asked key (.beginDiscovery now path request, ⟨r, (r.beginDiscovery P now path request).1,
    (r.beginDiscovery P now path request).2⟩)
  have hpath : path = [] ∧ { origin := r.instanceId, request : DiscoveryKey } = key := by
    have hsome : (if path = [] then some { origin := r.instanceId, request : DiscoveryKey }
      else none) = some key := hasks
    split at hsome
    next hnil => exact ⟨hnil, Option.some.inj hsome⟩
    next => cases hsome
  rw [beginDiscovery]
  split
  · exact .silent rfl fun _ => rfl
  dsimp only
  rw [if_pos hpath.1]
  refine Asked.announced (hsingle.linked (tick_linked r now)) rfl hpath.2
    (fun expires hfind hlive => tick_seen hfind hlive) (by simp)

end Router

/-! ### One router over a run -/

section Run

variable {P : Primitives} {start r : Router} {past : List Event}

theorem trace_steady (hopen : start.Open) (hsingle : start.SinglePeer)
    (h : Trace (Router.watch P) start past r) (htraffic : ∀ e ∈ past, Router.Traffic e.1) :
    r.Open ∧ r.SinglePeer ∧ Router.Linked start r := by
  refine Trace.invariant (fun past r => (∀ e ∈ past, Router.Traffic e.1) →
    r.Open ∧ r.SinglePeer ∧ Router.Linked start r) (fun _ => ⟨hopen, hsingle, .refl _⟩) ?_ h htraffic
  intro past s call _ ih hall
  have hcall := hall _ mem_cons_self
  obtain ⟨hso, hss, hsl⟩ := ih fun e he => hall e (mem_cons_of_mem _ he)
  have hlinked := hcall.linked (P := P) s
  exact ⟨hcall.opened hso, hss.linked hlinked, hsl.trans hlinked⟩

variable {key : DiscoveryKey}

theorem record_lasts (hopen : start.Open) (hsingle : start.SinglePeer)
    (h : Trace (Router.watch P) start past r) (htraffic : ∀ e ∈ past, Router.Traffic e.1)
    {e : Event} (he : e ∈ past) (hasks : e.asks = some key) (hfirst : e.First)
    (hlive : ∀ e' ∈ past, e'.1.time < e.1.time + discoveryLifetime) :
    r.seen.find? key = some (e.1.time + discoveryLifetime) := by
  induction h with
  | nil => cases he
  | @cons past s call htrace ih =>
    have hcall := htraffic _ mem_cons_self
    have hrest : ∀ e ∈ past, Router.Traffic e.1 := fun e he => htraffic e (mem_cons_of_mem _ he)
    obtain ⟨hso, hss, -⟩ := trace_steady hopen hsingle htrace hrest
    rcases mem_cons.mp he with rfl | hold
    · exact (hcall.asked hso hss hasks).record hfirst
    · have hfind := ih hrest hold fun e' he' => hlive e' (mem_cons_of_mem _ he')
      exact hcall.keeps hso hfind (hlive _ mem_cons_self)

def Clocked (past : List Event) : Prop :=
  past.Pairwise fun newer older => older.1.time ≤ newer.1.time

def Within (key : DiscoveryKey) (past : List Event) : Prop :=
  ∀ e ∈ past, ∀ e' ∈ past, e.asks = some key → e'.asks = some key →
    e.1.time < e'.1.time + discoveryLifetime

theorem first_once (hopen : start.Open) (hsingle : start.SinglePeer)
    (h : Trace (Router.watch P) start past r) {call : Call}
    (htraffic : ∀ e ∈ (call, (r.watch P call).2) :: past, Router.Traffic e.1)
    (hclock : Clocked ((call, (r.watch P call).2) :: past))
    (hwithin : Within key ((call, (r.watch P call).2) :: past))
    (hasks : Event.asks (call, (r.watch P call).2) = some key) {e : Event} (he : e ∈ past)
    (heasks : e.asks = some key) (hfirst : e.First) : ¬Event.First (call, (r.watch P call).2) := by
  have hrest : ∀ e ∈ past, Router.Traffic e.1 := fun e he => htraffic e (mem_cons_of_mem _ he)
  obtain ⟨hso, hss, -⟩ := trace_steady hopen hsingle h hrest
  have hnow : call.time < e.1.time + discoveryLifetime :=
    hwithin _ mem_cons_self e (mem_cons_of_mem _ he) hasks heasks
  have hfind := record_lasts hopen hsingle h hrest he heasks hfirst fun e' he' =>
    Int.lt_of_le_of_lt ((pairwise_cons.mp hclock).1 e' he') hnow
  have hasked := (htraffic _ mem_cons_self).asked hso hss hasks
  exact hasked.again ⟨_, hfind, hnow⟩

def totalAsked (key : DiscoveryKey) (count : Event → ℕ) (past : List Event) : ℕ :=
  ((past.filter fun e => e.asks = some key).map count).sum

theorem totalAsked_le_one (hopen : start.Open) (hsingle : start.SinglePeer)
    (h : Trace (Router.watch P) start past r) (htraffic : ∀ e ∈ past, Router.Traffic e.1)
    (hclock : Clocked past) (hwithin : Within key past) {count : Event → ℕ}
    (hone : ∀ e, Asked key e → count e ≤ 1) (hfirst : ∀ e : Event, 0 < count e → e.First) :
    totalAsked key count past ≤ 1 := by
  induction h with
  | nil => exact Nat.zero_le _
  | @cons past s call htrace ih =>
    have hrest : ∀ e ∈ past, Router.Traffic e.1 := fun e he => htraffic e (mem_cons_of_mem _ he)
    obtain ⟨hso, hss, -⟩ := trace_steady hopen hsingle htrace hrest
    have hle := ih hrest (pairwise_cons.mp hclock).2 fun e he e' he' =>
      hwithin e (mem_cons_of_mem _ he) e' (mem_cons_of_mem _ he')
    by_cases hasks : Event.asks (call, (s.watch P call).2) = some key
    · have hcount : count (call, (s.watch P call).2) ≤ 1 :=
        hone _ ((htraffic _ mem_cons_self).asked hso hss hasks)
      rw [totalAsked, filter_cons_of_pos (by simpa using hasks), map_cons, sum_cons]
      rcases Nat.eq_zero_or_pos (totalAsked key count past) with hzero | hpos
      · rw [totalAsked] at hzero
        omega
      -- an earlier call counted, so this one does not
      obtain ⟨x, hx, hxpos⟩ : ∃ x ∈ (past.filter fun e : Event => e.asks = some key).map count,
          0 < x := by
        by_contra hnone
        push Not at hnone
        refine absurd hpos (Nat.not_lt.mpr (Nat.le_of_eq (sum_eq_zero fun x hx => ?_)))
        exact Nat.le_zero.mp (hnone x hx)
      obtain ⟨e, he, rfl⟩ := mem_map.mp hx
      obtain ⟨hmem, heasks⟩ := mem_filter.mp he
      have hnot := first_once hopen hsingle htrace htraffic hclock hwithin hasks hmem
        (of_decide_eq_true heasks) (hfirst e hxpos)
      have hzero : count (call, (s.watch P call).2) = 0 :=
        Nat.eq_zero_of_not_pos fun hp => hnot (hfirst _ hp)
      rw [totalAsked] at hle
      omega
    · rw [totalAsked, filter_cons_of_neg (by simpa using hasks)]
      exact hle

end Run

/-! ### Copies and errors -/

inductive Reaction (f : Frame) (e : Effect) : Prop
  | passed (s : Router) (token : Id)
      (h : Router.Moved s { f with replyPath := Hop.link token :: f.replyPath } e)
  | error (s : Router) (g : Frame) (reason : Bytes) (hloud : f.kind.quiet = false)
      (h : Router.Moved s (g.response .routeError reason) e)
  | answer (s : Router) (g : Frame) (kind : Kind) (data auth : Bytes) (hkind : f.kind = .discover)
      (hdest : f.destination = []) (hanswer : kind = .found ∨ kind = .altPath)
      (h : Router.Moved s { g.response kind data with auth } e)
  | copy (s : Router) (token : Id) (out : Edge) (hkind : f.kind = .discover)
      (hdest : f.destination = [])
      (h : Router.Moved s
        (Router.branch { f with replyPath := Hop.link token :: f.replyPath } out) e)

namespace Router

variable {P : Primitives} {r : Router} {f : Frame}

theorem Open.reacts (hopen : r.Open) {ingress bytes : Bytes} {now : Time} {fresh : Fresh} {e : Effect}
    (hdecode : Frame.decode bytes = some f)
    (he : e ∈ (r.receive P ingress bytes now fresh).2.effects) : Reaction f e := by
  have hcases := receive_cases (P := P) r ingress bytes now fresh
  generalize r.receive P ingress bytes now fresh = result at hcases he
  cases hcases with
  | ignored => cases he
  | tooDeep g hg =>
    rw [hdecode] at hg
    cases hg
    obtain ⟨hloud, hmoved⟩ := mem_reject he
    exact .error r f _ hloud hmoved
  | routed g edge hg =>
    rw [hdecode] at hg
    cases hg
    rcases mem_route he with hmoved | ⟨hloud, reason, hmoved⟩
    · exact .passed _ _ hmoved
    · exact .error _ (r.pushed ingress edge fresh f) reason hloud hmoved
  | discovered g edge hg hedge hroom hkind hdest =>
    rw [hdecode] at hg
    cases hg
    have hopen' := hopen.kept (arrived_kept (P := P) r ingress edge now fresh)
    rcases hopen'.discover (P := P) (f := r.pushed ingress edge fresh f) ingress now
      fresh.secret with hd | hd
    · rw [hd] at he
      cases mem_announce he with
      | error g reason hkey hreply hmoved =>
        exact .error _ g reason (by rw [hkind]; rfl) hmoved
      | answer kind auth hanswer hmoved => exact .answer _ _ kind _ auth hkind hdest hanswer hmoved
      | branch name out hmem hne hmoved => exact .copy _ _ out hkind hdest hmoved
    · rw [hd] at he
      cases he

end Router

/-- What a reaction says about the frames it sends: a quiet frame is passed on or nothing
happens, a copy has a smaller budget, and everything else is an answer to a request. -/
theorem Reaction.budget {f : Frame} (hf : f.Encodable) {edge bytes : Bytes} {out : Frame}
    (h : Reaction f (.sent edge bytes)) (hout : Frame.decode bytes = some out) :
    (f.kind.quiet = true →
        ∃ token, out = ({ f with replyPath := Hop.link token :: f.replyPath } : Frame).popped) ∧
      (out.kind = f.kind → out.remaining.toNat < f.remaining.toNat) ∧
      (out.kind ≠ f.kind → out.kind = .routeError ∨
        (f.kind = .discover ∧ f.destination = [] ∧ (out.kind = .found ∨ out.kind = .altPath))) := by
  obtain ⟨-, hle, -, -⟩ := Frame.ids_of_valid hf.1
  have hread : ∀ {s : Router} {g : Frame}, Router.Moved s g (.sent edge bytes) →
      out = g.popped ∧ 1 < g.remaining := by
    intro s g hmoved
    obtain ⟨hdecode, hbudget, -⟩ := hmoved.sent
    rw [hdecode] at hout
    exact ⟨(Option.some.inj hout).symm, hbudget⟩
  have hsmaller : 1 < f.remaining → (f.remaining - 1).toNat < f.remaining.toNat := by
    intro hbudget
    have hlt := UInt8.lt_iff_toNat_lt.mp hbudget
    have hpred := (Frame.pred_remaining hbudget hle).2.2
    omega
  cases h with
  | passed s token hmoved =>
    obtain ⟨rfl, hbudget⟩ := hread hmoved
    exact ⟨fun _ => ⟨token, rfl⟩, fun _ => hsmaller hbudget, fun hne => absurd rfl hne⟩
  | error s g reason hloud hmoved =>
    obtain ⟨rfl, -⟩ := hread hmoved
    refine ⟨fun hquiet => ?_, fun hkind => ?_, fun _ => .inl rfl⟩
    · rw [hloud] at hquiet
      cases hquiet
    · rw [← show Kind.routeError = f.kind from hkind] at hloud
      cases hloud
  | answer s g kind data auth hkind hdest hanswer hmoved =>
    obtain ⟨rfl, -⟩ := hread hmoved
    refine ⟨fun hquiet => ?_, fun hsame => ?_, fun _ => .inr ⟨hkind, hdest, hanswer⟩⟩
    · rw [hkind] at hquiet
      cases hquiet
    · have hsame' : kind = f.kind := hsame
      rw [hkind] at hsame'
      rcases hanswer with rfl | rfl <;> cases hsame'
  | copy s token target hkind hdest hmoved =>
    obtain ⟨rfl, hbudget⟩ := hread hmoved
    refine ⟨fun hquiet => ?_, fun _ => hsmaller hbudget, fun hne => absurd rfl hne⟩
    rw [hkind] at hquiet
    cases hquiet

/-! ### Frames run out -/

/-- What a discovery with `remaining` hops to go can cost a network whose routers have at
most `width` edges. -/
def discoverWeight (width : ℕ) : ℕ → ℕ
  | 0 => 16
  | remaining + 1 => 16 + (width + 1) * (17 + discoverWeight width remaining)

def Kind.weight (width remaining : ℕ) : Kind → ℕ
  | discover => discoverWeight width remaining
  | put | status | finish => remaining + 16
  | reply | confirmed | found | altPath | routeError | challenge => remaining

def Frame.weight (width : ℕ) (f : Frame) : ℕ := f.kind.weight width f.remaining.toNat

def bytesWeight (width : ℕ) (bytes : Bytes) : ℕ :=
  match Frame.decode bytes with
  | none => 0
  | some f => f.weight width

def Effect.cost (width : ℕ) : Effect → ℕ
  | .sent _ bytes => 1 + bytesWeight width bytes
  | .delivered _ => 0

def Emitted.cost (width : ℕ) (em : Emitted) : ℕ := (em.effects.map (Effect.cost width)).sum

section Cost

variable {P : Primitives} {r : Router} {f : Frame} {width : ℕ}

theorem Emitted.cost_andThen_le (width : ℕ) (a b : Emitted) :
    (a.andThen b).cost width ≤ a.cost width + b.cost width := by
  rw [andThen]
  split
  · exact Nat.le_add_right _ _
  · rw [cost, map_append, sum_append]
    exact Nat.le_refl _

theorem Emitted.cost_each_le {α : Type*} {g : α → Emitted} {l : List α} {n : ℕ}
    (h : ∀ a ∈ l, (g a).cost width ≤ n) : (each g l).cost width ≤ l.length * n := by
  induction l with
  | nil => exact Nat.zero_le _
  | cons a rest ih =>
    have hhead := h a mem_cons_self
    have htail := ih fun b hb => h b (mem_cons_of_mem _ hb)
    have hthen := cost_andThen_le width (g a) (each g rest)
    rw [each, length_cons, Nat.succ_mul]
    omega

theorem Emitted.cost_le_of_single {em : Emitted} {n : ℕ} (hlen : em.effects.length ≤ 1)
    (h : ∀ e ∈ em.effects, e.cost width ≤ n) : em.cost width ≤ n := by
  rw [cost]
  rcases heffects : em.effects with _ | ⟨e, rest⟩
  · exact Nat.zero_le _
  rw [heffects] at hlen h
  have hrest : rest = [] := eq_nil_of_length_eq_zero (by rw [length_cons] at hlen; omega)
  rw [hrest, map_cons, sum_cons, map_nil, sum_nil, Nat.add_zero]
  exact h e mem_cons_self

theorem Router.Moved.cost_le {e : Effect} (h : Router.Moved r f e) :
    e.cost width ≤ if 1 < f.remaining then 1 + f.popped.weight width else 0 := by
  cases h with
  | here => exact Nat.zero_le _
  | passed hop rest out hdest hedge hbudget hencode =>
    rw [if_pos hbudget, Effect.cost, bytesWeight, Frame.decode_bytes hencode]

theorem discoverWeight_succ (width remaining : ℕ) :
    16 + width * (17 + discoverWeight width remaining) + (17 + discoverWeight width remaining) =
      discoverWeight width (remaining + 1) := by
  rw [discoverWeight, Nat.succ_mul]
  omega

theorem sixteen_le_discoverWeight (width remaining : ℕ) : 16 ≤ discoverWeight width remaining := by
  cases remaining with
  | zero => exact Nat.le_refl _
  | succ n => exact Nat.le_add_right _ _

theorem Kind.weight_quiet {k : Kind} (h : k.quiet = true) (width remaining : ℕ) :
    k.weight width remaining = remaining := by
  cases k <;> first | rfl | cases h

theorem Kind.sixteen_le_weight {k : Kind} (h : k.quiet = false) (width remaining : ℕ) :
    16 ≤ k.weight width remaining := by
  cases k with
  | discover => exact sixteen_le_discoverWeight _ _
  | put | status | finish => exact Nat.le_add_left _ _
  | reply | confirmed | found | altPath | routeError | challenge => cases h

theorem Kind.weight_succ (k : Kind) (width remaining : ℕ) :
    1 + k.weight width remaining ≤ k.weight width (remaining + 1) := by
  cases k with
  | discover =>
    have hsucc := discoverWeight_succ width remaining
    simp only [weight]
    omega
  | put | status | finish | reply | confirmed | found | altPath | routeError | challenge =>
    simp only [weight]
    omega

theorem Router.Moved.cost_answer {e : Effect} {kind : Kind} (hkind : kind.quiet = true)
    {data auth : Bytes} (h : Router.Moved r { f.response kind data with auth } e) :
    e.cost width ≤ 16 := by
  refine Nat.le_trans h.cost_le ?_
  split
  · show 1 + kind.weight width ((16 : UInt8) - 1).toNat ≤ 16
    rw [Kind.weight_quiet hkind]
    decide
  · exact Nat.zero_le _

/-- Passing a frame on, or sending the error for it, costs no more than the frame weighs. -/
theorem Router.cost_route_le (r : Router) (f : Frame) (hle : f.remaining ≤ 16) :
    (r.route f).cost width ≤ f.weight width := by
  refine Emitted.cost_le_of_single (length_route_le r f) fun e he => ?_
  rcases mem_route he with hmoved | ⟨hloud, reason, hmoved⟩
  · refine Nat.le_trans hmoved.cost_le ?_
    split
    next hbudget =>
      have hpred := (Frame.pred_remaining hbudget hle).2.2
      have hlt := UInt8.lt_iff_toNat_lt.mp hbudget
      obtain ⟨n, hn⟩ : ∃ n, f.remaining.toNat = n + 1 := ⟨f.remaining.toNat - 1, by omega⟩
      show 1 + f.kind.weight width (f.remaining - 1).toNat ≤ f.kind.weight width f.remaining.toNat
      rw [hpred, hn, Nat.add_sub_cancel]
      exact Kind.weight_succ f.kind width n
    next => exact Nat.zero_le _
  · exact Nat.le_trans (@Moved.cost_answer r f width e .routeError rfl reason [] hmoved)
      (Kind.sixteen_le_weight hloud _ _)

theorem Router.cost_reject_le (r : Router) (f : Frame) (reason : Bytes) :
    (r.reject f reason).cost width ≤ 16 :=
  Emitted.cost_le_of_single (length_reject_le r f reason) fun _ he =>
    @Moved.cost_answer r f width _ .routeError rfl reason [] (mem_reject he).2

theorem Router.cost_announce_le (hkind : f.kind = .discover) (hle : f.remaining ≤ 16)
    (hpos : f.remaining ≠ 0) (hwidth : r.edges.size ≤ width) (ingress : Bytes) (now : Time) :
    (r.announce P f ingress now none).2.cost width ≤ f.weight width := by
  have hnonzero : f.remaining.toNat ≠ 0 := fun h => hpos (UInt8.toNat_inj.mp h)
  obtain ⟨n, hn⟩ : ∃ n, f.remaining.toNat = n + 1 := ⟨f.remaining.toNat - 1, by omega⟩
  have hweight : f.weight width = discoverWeight width (n + 1) := by
    rw [Frame.weight, hkind, hn, Kind.weight]
  have hanswer : ∀ (s : Router) (kind : Kind), kind.quiet = true →
      (s.answer P f kind none).2.cost width ≤ 16 := by
    intro s kind hquiet
    refine Emitted.cost_le_of_single (length_answer_le _ _ _ _) fun e he => ?_
    obtain ⟨auth, hmoved⟩ := mem_answer hquiet he
    exact hmoved.cost_answer hquiet
  have hbranch : ∀ (s : Router) (out : Edge), (s.sendBranch f out).cost width ≤
      17 + discoverWeight width n := by
    intro s out
    rw [sendBranch]
    split
    · exact Nat.le_trans (cost_reject_le _ _ _) (by omega)
    refine Emitted.cost_le_of_single (length_route_le _ _) fun e he => ?_
    rcases mem_route he with hmoved | ⟨-, reason, hmoved⟩
    · refine Nat.le_trans hmoved.cost_le ?_
      split
      next hbudget =>
        have hpred := (Frame.pred_remaining (f := f) hbudget hle).2.2
        have hk : (Router.branch f out).popped.kind = .discover := hkind
        have hr : (Router.branch f out).popped.remaining.toNat = n := by
          show (f.remaining - 1).toNat = n
          omega
        rw [Frame.weight, hk, hr, Kind.weight]
        omega
      next => exact Nat.zero_le _
    · have hcost := @Moved.cost_answer s (Router.branch f out) width e .routeError rfl reason [] hmoved
      omega
  have hsucc := discoverWeight_succ width n
  rw [announce]
  split
  · split
    · exact Nat.le_trans (cost_reject_le _ _ _) (by omega)
    · dsimp only
      let r' : Router := { r with seen := r.seen.insert f.key (now + discoveryLifetime) }
      have hedges : (r'.answer P f .found none).1.edges = r.edges := (answer_edges _ _ _ _).1
      have hfan : ((r'.answer P f .found none).1.fanOut f ingress).cost width ≤
          width * (17 + discoverWeight width n) := by
        refine Nat.le_trans (Emitted.cost_each_le fun e _ => hbranch _ e.2) ?_
        refine Nat.mul_le_mul_right _ (Nat.le_trans (length_filter_le _ _) ?_)
        rw [hedges]
        exact hwidth
      have hthen := Emitted.cost_andThen_le width (r'.answer P f .found none).2
        ((r'.answer P f .found none).1.fanOut f ingress)
      have hfirst := hanswer r' .found rfl
      refine Nat.le_trans hthen ?_
      omega
  dsimp only
  split
  · exact Nat.zero_le _
  · refine Nat.le_trans (hanswer _ .altPath rfl) ?_
    omega

theorem Router.cost_receive_le (hopen : r.Open) (hwidth : r.edges.size ≤ width) (ingress bytes : Bytes)
    (now : Time) (fresh : Fresh) :
    (r.receive P ingress bytes now fresh).2.cost width ≤ bytesWeight width bytes := by
  have hcases := receive_cases (P := P) r ingress bytes now fresh
  generalize r.receive P ingress bytes now fresh = result at hcases
  cases hcases with
  | ignored => exact Nat.zero_le _
  | tooDeep f hdecode =>
    rw [bytesWeight, hdecode]
    rcases hquiet : f.kind.quiet with _ | _
    · exact Nat.le_trans (cost_reject_le _ _ _) (Kind.sixteen_le_weight hquiet _ _)
    · rw [reject, if_pos hquiet]
      exact Nat.zero_le _
  | routed f e hdecode =>
    obtain ⟨-, hle, -, -⟩ := Frame.ids_of_valid (Frame.decode_sound hdecode).1.1
    rw [bytesWeight, hdecode]
    exact cost_route_le _ (r.pushed ingress e fresh f) hle
  | discovered f e hdecode hedge hroom hkind =>
    obtain ⟨hpos, hle, -, -⟩ := Frame.ids_of_valid (Frame.decode_sound hdecode).1.1
    have hopen' := hopen.kept (arrived_kept (P := P) r ingress e now fresh)
    have hsize : (r.arrived ingress e now fresh).edges.size ≤ width := by
      rw [(arrived_linked hedge now fresh).size]
      exact hwidth
    rw [bytesWeight, hdecode]
    rcases hopen'.discover (P := P) (f := r.pushed ingress e fresh f) ingress now fresh.secret with
      hd | hd
    · rw [hd]
      exact cost_announce_le (f := r.pushed ingress e fresh f) hkind hle hpos hsize ingress now
    · rw [hd]
      exact Nat.zero_le _

theorem Router.cost_beginDiscovery_le (hwidth : r.edges.size ≤ width) (now : Time) (path : Path)
    (request : Id) :
    (r.beginDiscovery P now path request).2.cost width ≤ discoverWeight width 16 := by
  rw [beginDiscovery]
  split
  · exact Nat.zero_le _
  dsimp only
  split
  · exact @cost_announce_le P (r.tick now) { kind := .discover, origin := r.instanceId, request } width
      rfl (show (16 : UInt8) ≤ 16 by decide) (show (16 : UInt8) ≠ 0 by decide) hwidth [] now
  · exact cost_route_le _ { kind := .discover, origin := r.instanceId, request, destination := path }
      (show (16 : UInt8) ≤ 16 by decide)

end Cost

def Emitted.sentCount (em : Emitted) : ℕ :=
  em.effects.countP fun e => match e with
    | .sent _ _ => true
    | .delivered _ => false

namespace Net

variable {ι : Type*} {P : Primitives} {links : Links ι}

def weight (width : ℕ) (net : Net ι) : ℕ :=
  (net.flight.map fun p => bytesWeight width p.bytes).sum

def sentIn (past : History ι) : ℕ :=
  (past.map fun x => (x.2.map fun y => y.2.2.emitted.sentCount).getD 0).sum

theorem arriving_weight_le (width : ℕ) (node : ι) (em : Emitted) :
    ((em.effects.filterMap (arriving links node)).map fun p => bytesWeight width p.bytes).sum +
      em.sentCount ≤ em.cost width := by
  rw [Emitted.sentCount, Emitted.cost]
  induction em.effects with
  | nil => exact Nat.le_refl _
  | cons e rest ih =>
    rw [map_cons, sum_cons, countP_cons, filterMap_cons]
    cases e with
    | delivered f =>
      simp only [arriving, Effect.cost, Bool.false_eq_true, if_false]
      omega
    | sent edge bytes =>
      simp only [arriving, Effect.cost, if_true]
      rcases links node edge with _ | far
      · simp only [Option.map_none]
        omega
      · simp only [Option.map_some, map_cons, sum_cons]
        omega

variable {net : Net ι}

theorem weight_erase (width : ℕ) {index : ℕ} {p : Packet ι} (h : net.flight[index]? = some p) :
    ({ net with flight := net.flight.eraseIdx index } : Net ι).weight width +
      bytesWeight width p.bytes = net.weight width := by
  obtain ⟨hlt, hget⟩ := List.getElem?_eq_some_iff.mp h
  have hperm := (getElem_cons_eraseIdx_perm hlt).map fun p => bytesWeight width p.bytes
  have hsum := hperm.sum_eq
  rw [map_cons, sum_cons, hget] at hsum
  rw [weight, weight, ← hsum]
  exact Nat.add_comm _ _

theorem weight_erase_le (width : ℕ) (net : Net ι) (index : ℕ) :
    ({ net with flight := net.flight.eraseIdx index } : Net ι).weight width ≤ net.weight width := by
  rcases hget : net.flight[index]? with _ | p
  · rw [weight, weight, eraseIdx_of_length_le (List.getElem?_eq_none_iff.mp hget)]
  · have := weight_erase width hget
    omega

variable [DecidableEq ι]

theorem weight_call_le (width : ℕ) (net : Net ι) (node : ι) (call : Call) :
    (net.call P links node call).1.weight width +
      ((net.routers node).watch P call).2.emitted.sentCount ≤
      net.weight width + ((net.routers node).watch P call).2.emitted.cost width := by
  have hle := @arriving_weight_le ι links width node ((net.routers node).watch P call).2.emitted
  rw [Net.call, weight]
  dsimp only
  rw [map_append, sum_append, weight]
  omega

theorem weight_step_le {width : ℕ} (hopen : ∀ v, (net.routers v).Open)
    (hwidth : ∀ v, (net.routers v).edges.size ≤ width) (op : NetOp ι)
    (hop : ∀ index, op ≠ .duplicate index) :
    (net.step P links op).1.weight width +
        ((net.step P links op).2.map fun y => y.2.2.emitted.sentCount).getD 0 ≤
      net.weight width + match op with
        | .discover _ _ _ _ => discoverWeight width 16
        | _ => 0 := by
  cases op with
  | discover node now path request =>
    have hcall := @weight_call_le ι P links _ width net node (.beginDiscovery now path request)
    have hcost : ((net.routers node).watch P (.beginDiscovery now path request)).2.emitted.cost width ≤
        discoverWeight width 16 :=
      Router.cost_beginDiscovery_le (P := P) (hwidth node) now path request
    exact Nat.le_trans hcall (Nat.add_le_add_left hcost _)
  | deliver index now fresh =>
    rw [step]
    split
    · exact Nat.le_refl _
    next p hp =>
    have hcall := @weight_call_le ι P links _ width { net with flight := net.flight.eraseIdx index }
      p.node (.receive p.ingress p.bytes now fresh)
    have hcost : ((net.routers p.node).watch P
        (.receive p.ingress p.bytes now fresh)).2.emitted.cost width ≤ bytesWeight width p.bytes :=
      Router.cost_receive_le (P := P) (hopen p.node) (hwidth p.node) p.ingress p.bytes now fresh
    have herase := weight_erase width hp
    refine Nat.le_trans hcall ?_
    show ({ net with flight := net.flight.eraseIdx index } : Net ι).weight width +
      ((net.routers p.node).watch P (.receive p.ingress p.bytes now fresh)).2.emitted.cost width ≤
        net.weight width + 0
    omega
  | duplicate index => exact absurd rfl (hop index)
  | lose index =>
    rw [step]
    exact weight_erase_le width net index

theorem eventsAt_traffic {start : Net ι} {past : History ι}
    (h : Trace (step P links) start past net) (node : ι) :
    ∀ e ∈ eventsAt node past, Router.Traffic e.1 := by
  intro e he
  obtain ⟨x, hx, hsome⟩ := mem_filterMap.mp he
  obtain ⟨earlier, s, -, hstep, -⟩ := h.step_of_mem hx
  obtain ⟨⟨u, e'⟩, hbind, hif⟩ := Option.bind_eq_some_iff.mp hsome
  split at hif
  · cases hif
    have hevent : (step P links s x.1).2 = some (u, e') := by
      rw [← congrArg Prod.snd hstep]
      exact hbind
    rcases @step_cases ι _ P links s x.1 with ⟨hnone, -⟩ | ⟨v, call, hcall, -, hkind⟩
    · rw [hnone] at hevent
      cases hevent
    rw [hcall] at hevent
    cases hevent
    rcases hkind with ⟨now, path, request, -, rfl⟩ | ⟨index, now, fresh, p, -, -, -, rfl⟩
    · exact .inr ⟨now, path, request, rfl⟩
    · exact .inl ⟨p.ingress, p.bytes, now, fresh, rfl⟩
  · cases hif

def started (past : History ι) : ℕ :=
  past.countP fun x => match x.1 with
    | .discover _ _ _ _ => true
    | _ => false

/-- Without duplication the frames sent so far and the weight of those under way stay
below what the run began with. -/
theorem sentIn_le {width : ℕ} {start : Net ι} {past : History ι}
    (hopen : ∀ v, (start.routers v).Open) (hsingle : ∀ v, (start.routers v).SinglePeer)
    (hwidth : ∀ v, (start.routers v).edges.size ≤ width) (h : Trace (step P links) start past net)
    (honce : ∀ x ∈ past, ∀ index, x.1 ≠ .duplicate index) :
    sentIn past + net.weight width ≤
      start.weight width + started past * discoverWeight width 16 := by
  induction h with
  | nil => exact Nat.le_of_eq (by simp [sentIn, started])
  | @cons past net op htrace ih =>
    have hold := ih fun x hx => honce x (mem_cons_of_mem _ hx)
    have hsteady : ∀ v, (net.routers v).Open ∧ (net.routers v).edges.size ≤ width := by
      intro v
      obtain ⟨ho, -, hl⟩ := trace_steady (hopen v) (hsingle v) (trace_eventsAt htrace v)
        (eventsAt_traffic htrace v)
      exact ⟨ho, by rw [hl.size]; exact hwidth v⟩
    have hstep := @weight_step_le ι P links net _ width (fun v => (hsteady v).1)
      (fun v => (hsteady v).2) op (honce _ mem_cons_self)
    rw [sentIn, map_cons, sum_cons, started, countP_cons]
    rw [sentIn] at hold
    rw [started] at hold
    cases op with
    | discover node now path request =>
      simp only [if_true] at hstep ⊢
      rw [Nat.succ_mul]
      omega
    | deliver | duplicate | lose =>
      simp only [Bool.false_eq_true, if_false, Nat.add_zero] at hstep ⊢
      omega

end Net

/-- Discovery cannot storm. In every run of a finite network of routers without
authentication, with any losses and duplications: each router answers a discovery as
found once and passes it on to each edge once, never to the one it came from, as long as
its arrivals lie within the lifetime of the record; copies have a smaller hop budget than
what they were made from, and frames that answer breed nothing. Without duplication the
frames sent are bounded before the run starts. -/
theorem discovery_cannot_storm {ι : Type*} [Fintype ι] [DecidableEq ι] (P : Primitives)
    (links : Links ι) (start : Net ι) (hopen : ∀ v, (start.routers v).Open)
    (hsingle : ∀ v, (start.routers v).SinglePeer) :
    (∀ past net, Trace (Net.step P links) start past net → ∀ v,
      (∀ key, Clocked (Net.eventsAt v past) → Within key (Net.eventsAt v past) →
        totalAsked key (fun e => e.2.emitted.founds) (Net.eventsAt v past) ≤ 1 ∧
        (∀ edge, totalAsked key (fun e => e.2.emitted.fanouts edge) (Net.eventsAt v past) ≤ 1) ∧
        ∀ e ∈ Net.eventsAt v past, Event.asks e = some key → ∀ ingress bytes now fresh,
          e.1 = .receive ingress bytes now fresh → e.2.emitted.fanouts ingress = 0) ∧
      ∀ e ∈ Net.eventsAt v past, ∀ ingress bytes now fresh f,
        e.1 = .receive ingress bytes now fresh → Frame.decode bytes = some f →
        ∀ edge b out, Effect.sent edge b ∈ e.2.emitted.effects → Frame.decode b = some out →
          (f.kind.quiet = true → ∃ token,
            out = ({ f with replyPath := Hop.link token :: f.replyPath } : Frame).popped) ∧
          (out.kind = f.kind → out.remaining.toNat < f.remaining.toNat) ∧
          (out.kind ≠ f.kind → out.kind = .routeError ∨ (f.kind = .discover ∧
            f.destination = [] ∧ (out.kind = .found ∨ out.kind = .altPath)))) ∧
    ∃ bound, ∀ past net, Trace (Net.step P links) start past net →
      (∀ x ∈ past, ∀ index, x.1 ≠ .duplicate index) → Net.started past ≤ 1 →
      Net.sentIn past ≤ bound := by
  refine ⟨fun past net h v => ?_, ?_⟩
  · have htrace := Net.trace_eventsAt h v
    have htraffic := Net.eventsAt_traffic h v
    refine ⟨fun key hclock hwithin => ⟨?_, fun edge => ?_, ?_⟩, ?_⟩
    · exact totalAsked_le_one (hopen v) (hsingle v) htrace htraffic hclock hwithin
        (fun e he => he.founds) fun e hpos => .inl hpos
    · exact totalAsked_le_one (hopen v) (hsingle v) htrace htraffic hclock hwithin
        (fun e he => he.fanouts edge) fun e hpos => .inr ⟨edge, hpos⟩
    · intro e he hasks ingress bytes now fresh hcall
      obtain ⟨earlier, s, hs, hevent, later, hsplit⟩ := htrace.step_of_mem he
      obtain ⟨hso, hss, -⟩ := trace_steady (hopen v) (hsingle v) hs fun e' he' =>
        htraffic e' (by rw [hsplit]; exact List.mem_append_right _ (List.mem_cons_of_mem _ he'))
      rw [hevent] at hasks ⊢
      exact ((htraffic e he).asked hso hss hasks).back ingress bytes now fresh hcall
    · intro e he ingress bytes now fresh f hcall hdecode edge b out hmem hout
      obtain ⟨earlier, s, hs, hevent, later, hsplit⟩ := htrace.step_of_mem he
      obtain ⟨hso, -, -⟩ := trace_steady (hopen v) (hsingle v) hs fun e' he' =>
        htraffic e' (by rw [hsplit]; exact List.mem_append_right _ (List.mem_cons_of_mem _ he'))
      rw [hevent, hcall] at hmem
      exact (hso.reacts (P := P) hdecode hmem).budget (Frame.decode_sound hdecode).1 hout
  · let width := Finset.univ.sup fun v => (start.routers v).edges.size
    refine ⟨start.weight width + discoverWeight width 16, fun past net h honce hstarted => ?_⟩
    have hwidth : ∀ v, (start.routers v).edges.size ≤ width := fun v =>
      Finset.le_sup (f := fun v => (start.routers v).edges.size) (Finset.mem_univ v)
    have hle := Net.sentIn_le hopen hsingle hwidth h honce
    have hmul := Nat.mul_le_mul_right (discoverWeight width 16) hstarted
    omega

theorem pairNet_open (side : Bool) : (pairNet.routers side).Open := ⟨rfl, rfl⟩

def pairRun : Net.History Bool × Net Bool :=
  Transition.run (Net.step plainPrimitives pairLinks) pairNet
    [.discover true 1 [] (Vector.replicate 16 2),
      .deliver 0 2 ⟨Vector.replicate 16 1, ones_ne_zeroBlock, none⟩,
      .deliver 0 3 ⟨Vector.replicate 16 3, by decide, none⟩]

theorem discovery_cannot_storm_sample :
    (∃ bound, ∀ past net, Trace (Net.step plainPrimitives pairLinks) pairNet past net →
      (∀ x ∈ past, ∀ index, x.1 ≠ .duplicate index) → Net.started past ≤ 1 →
      Net.sentIn past ≤ bound) ∧
    Net.sentIn pairRun.1 = 2 ∧
    totalAsked { origin := Vector.replicate 16 7, request := Vector.replicate 16 2 }
      (fun e => e.2.emitted.founds) (Net.eventsAt false pairRun.1) = 1 := by
  refine ⟨(discovery_cannot_storm plainPrimitives pairLinks pairNet pairNet_open
    pairNet_singlePeer).2, ?_⟩
  decide +kernel

end Tuntom.ControlRoute
