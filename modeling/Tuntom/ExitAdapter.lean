import Tuntom.IpFlow
import Tuntom.LruCache

/-! `ExitAdapterRoutes`: which label stack a packet from the exit goes back under. Two LRU caches
remember the stacks of learned packets, by transport flow and by address pair. -/
namespace Tuntom

structure ExitAdapterOptions where
  l3Capacity : ℕ
  l4Capacity : ℕ
  l3Timeout : Time
  l4Timeout : Time
  l4Only : Bool := false
  l4SportKeyBits : ℕ := 16
  /-- The constructor throws otherwise. -/
  bits_le : l4SportKeyBits ≤ 16 := by decide

def ExitAdapterOptions.clientPortMask (o : ExitAdapterOptions) : UInt16 :=
  UInt16.ofNat (0xffff <<< (16 - o.l4SportKeyBits))

structure ExitAdapterRoutes where
  l3 : LruCache IpPairKey (List UInt64)
  l4 : LruCache FlowKey (List UInt64)
  learnedPackets : ℕ := 0
  parseErrors : ℕ := 0
  l3Hits : ℕ := 0
  l3Misses : ℕ := 0
  l4Hits : ℕ := 0
  l4Misses : ℕ := 0

inductive RouteCall where
  | learn (packet : Bytes) (labels : List UInt64) (now : Time)
  | lookup (packet : Bytes) (now : Time)
  | flush
  | reclaim

inductive RouteResult where
  | learned (accepted : Bool)
  | found (labels : Option (List UInt64))
  | done

namespace ExitAdapterRoutes

variable (o : ExitAdapterOptions)

def create : ExitAdapterRoutes where
  l3 := { capacity := o.l3Capacity, idleTimeout := o.l3Timeout }
  l4 := { capacity := o.l4Capacity, idleTimeout := o.l4Timeout }

/-- Cache keys face the switch: the client's port is the destination port. -/
def l4CacheKey (key : FlowKey) : FlowKey :=
  { key with destinationPort := key.destinationPort &&& o.clientPortMask }

variable (r : ExitAdapterRoutes)

def learn (packet : Bytes) (labels : List UInt64) (now : Time) :
    ExitAdapterRoutes × Bool :=
  match parseIpFlow packet with
  | none => ({ r with parseErrors := r.parseErrors + 1 }, false)
  | some flow =>
    if labels = [] ∨ (o.l4Only ∧ (¬flow.hasL4 ∨ flow.fragmented)) then
      ({ r with parseErrors := r.parseErrors + 1 }, false)
    else
      ({ r with
          learnedPackets := r.learnedPackets + 1
          l3 := if o.l4Only then r.l3 else r.l3.put flow.l3.reverseKey labels now
          l4 := if flow.hasL4 then r.l4.put (l4CacheKey o flow.l4.reverseKey) labels now else r.l4 },
        true)

/-- The second part of `lookup`, for a packet that the transport table did not answer. -/
def lookupL3 (flow : ParsedIpFlow) (now : Time) :
    ExitAdapterRoutes × Option (List UInt64) :=
  if o.l4Only then (r, none)
  else
    let (l3, labels) := r.l3.get flow.l3 now
    ({ r with
        l3 := l3
        l3Hits := if labels.isSome then r.l3Hits + 1 else r.l3Hits
        l3Misses := if labels.isSome then r.l3Misses else r.l3Misses + 1 }, labels)

def lookupFlow (flow : ParsedIpFlow) (now : Time) :
    ExitAdapterRoutes × Option (List UInt64) :=
  if o.l4Only ∧ flow.fragmented then ({ r with l4Misses := r.l4Misses + 1 }, none)
  else if flow.hasL4 then
    let (l4, labels) := r.l4.get (l4CacheKey o flow.l4) now
    match labels with
    | some labels =>
      -- the address pair is refreshed too
      ({ r with
          l4 := l4
          l4Hits := r.l4Hits + 1
          l3 := if o.l4Only then r.l3 else (r.l3.get flow.l3 now).1 }, some labels)
    | none => lookupL3 o { r with l4 := l4, l4Misses := r.l4Misses + 1 } flow now
  else lookupL3 o r flow now

def lookup (packet : Bytes) (now : Time) :
    ExitAdapterRoutes × Option (List UInt64) :=
  match parseIpFlow packet with
  | none => ({ r with parseErrors := r.parseErrors + 1 }, none)
  | some flow => lookupFlow o r flow now

def step : RouteCall → ExitAdapterRoutes × RouteResult
  | .learn packet labels now => ((learn o r packet labels now).1, .learned (learn o r packet labels now).2)
  | .lookup packet now => ((lookup o r packet now).1, .found (lookup o r packet now).2)
  | .flush => ({ r with l3 := r.l3.flush, l4 := r.l4.flush }, .done)
  | .reclaim => ({ r with l3 := r.l3.reclaim 64, l4 := r.l4.reclaim 64 }, .done)

end ExitAdapterRoutes

/-! ### What was learned -/

/-- The labels of the latest successful learn since the last flush of a packet with a property, in
a history that starts with the latest call. -/
def lastLearned (agrees : ParsedIpFlow → Bool) :
    List (RouteCall × RouteResult) → Option (List UInt64)
  | [] => none
  | (.flush, _) :: _ => none
  | (.learn packet labels _, .learned true) :: past =>
    if (parseIpFlow packet).any agrees then some labels else lastLearned agrees past
  | _ :: past => lastLearned agrees past

theorem mem_of_lastLearned {agrees : ParsedIpFlow → Bool} {past : List (RouteCall × RouteResult)}
    {labels : List UInt64} (h : lastLearned agrees past = some labels) :
    ∃ later packet now earlier flow,
      past = later ++ (.learn packet labels now, .learned true) :: earlier ∧
      (∀ call ∈ later, call.1 ≠ .flush) ∧ parseIpFlow packet = some flow ∧ agrees flow = true := by
  induction past with
  | nil => cases h
  | cons call past ih =>
    have hskip : call.1 ≠ .flush → lastLearned agrees past = some labels →
        ∃ later packet now earlier flow,
          call :: past = later ++ (.learn packet labels now, .learned true) :: earlier ∧
          (∀ call ∈ later, call.1 ≠ .flush) ∧ parseIpFlow packet = some flow ∧
          agrees flow = true := by
      intro hne hpast
      obtain ⟨later, packet, now, earlier, flow, rfl, hlater, hflow⟩ := ih hpast
      exact ⟨call :: later, packet, now, earlier, flow, rfl,
        List.forall_mem_cons.mpr ⟨hne, hlater⟩, hflow⟩
    obtain ⟨call, result⟩ := call
    cases call with
    | flush => cases h
    | lookup packet now | reclaim => exact hskip (by simp) h
    | learn packet found now =>
      cases result with
      | found labels | done => exact hskip (by simp) h
      | learned accepted =>
        cases accepted with
        | false => exact hskip (by simp) h
        | true =>
          rw [lastLearned] at h
          cases hparse : parseIpFlow packet with
          | none =>
            rw [hparse] at h
            exact hskip (by simp) h
          | some flow =>
            rw [hparse, Option.any_some] at h
            split at h
            next hagrees =>
              cases h
              exact ⟨[], packet, now, past, flow, rfl, by simp, hparse, hagrees⟩
            · exact hskip (by simp) h

namespace ExitAdapterRoutes

variable (o : ExitAdapterOptions)

/-- A packet whose reversed transport key is the one a lookup asks for, with the client's port
masked. -/
def agreesL4 (key : FlowKey) (flow : ParsedIpFlow) : Bool :=
  flow.hasL4 && l4CacheKey o flow.l4.reverseKey = key

def agreesL3 (key : IpPairKey) (flow : ParsedIpFlow) : Bool := flow.l3.reverseKey = key

structure Tracks (past : List (RouteCall × RouteResult)) (r : ExitAdapterRoutes) : Prop where
  l3 : o.l4Only = false → r.l3.Serves fun key => lastLearned (agreesL3 key) past
  l4 : r.l4.Serves fun key => lastLearned (agreesL4 o key) past
  l4Capacity : r.l4.capacity = o.l4Capacity
  l4Timeout : r.l4.idleTimeout = o.l4Timeout

namespace Tracks

variable {o : ExitAdapterOptions} {past : List (RouteCall × RouteResult)} {r : ExitAdapterRoutes}

theorem create : Tracks o [] (create o) := by
  refine ⟨fun _ => ?_, ?_, rfl, rfl⟩
  · exact LruCache.serves_new _ _ _
  · exact LruCache.serves_new _ _ _

theorem learn (h : Tracks o past r) (packet : Bytes) (labels : List UInt64) (now : Time) :
    Tracks o ((.learn packet labels now, .learned (learn o r packet labels now).2) :: past)
      (learn o r packet labels now).1 := by
  rw [ExitAdapterRoutes.learn]
  cases hparse : parseIpFlow packet with
  | none => exact ⟨h.l3, h.l4, h.l4Capacity, h.l4Timeout⟩
  | some flow =>
    dsimp only
    split
    · exact ⟨h.l3, h.l4, h.l4Capacity, h.l4Timeout⟩
    have hlast : ∀ agrees, lastLearned agrees
        ((.learn packet labels now, .learned true) :: past) =
          if agrees flow then some labels else lastLearned agrees past := by
      intro agrees
      rw [lastLearned, hparse]
      rfl
    refine ⟨fun hnormal => ?_, ?_, ?_, ?_⟩
    · dsimp only
      rw [hnormal, if_neg Bool.false_ne_true]
      refine (h.l3 hnormal).put ?_ (fun key hne => ?_) now
      · rw [hlast, if_pos (by simp [agreesL3])]
      · rw [hlast, if_neg (by simpa [agreesL3] using hne.symm)]
    · dsimp only
      split
      next hl4 =>
        refine h.l4.put ?_ (fun key hne => ?_) now
        · rw [hlast, if_pos (by simp [agreesL4, hl4])]
        · rw [hlast, if_neg (by simpa [agreesL4, hl4] using hne.symm)]
      next hl4 =>
      have hsame : (fun key => lastLearned (agreesL4 o key)
          ((.learn packet labels now, .learned true) :: past)) =
            fun key => lastLearned (agreesL4 o key) past := by
        funext key
        rw [hlast, if_neg (by simp [agreesL4, hl4])]
      rw [hsame]
      exact h.l4
    · dsimp only
      split
      · exact (h.l4.limits_step (.put _ labels now)).1.trans h.l4Capacity
      · exact h.l4Capacity
    · dsimp only
      split
      · exact (h.l4.limits_step (.put _ labels now)).2.trans h.l4Timeout
      · exact h.l4Timeout

theorem lookupL3 (h : Tracks o past r) (flow : ParsedIpFlow) (now : Time) :
    Tracks o past (lookupL3 o r flow now).1 ∧
      ∀ labels, (ExitAdapterRoutes.lookupL3 o r flow now).2 = some labels →
        o.l4Only = false ∧ lastLearned (agreesL3 flow.l3) past = some labels := by
  rw [ExitAdapterRoutes.lookupL3]
  split
  · exact ⟨h, by simp⟩
  next hnormal =>
  have hnormal : o.l4Only = false := Bool.eq_false_iff.mpr hnormal
  obtain ⟨hserves, hvalue⟩ := (h.l3 hnormal).get flow.l3 now
  exact ⟨⟨fun _ => hserves, h.l4, h.l4Capacity, h.l4Timeout⟩,
    fun labels hsome => ⟨hnormal, hvalue labels hsome⟩⟩

/-- What a lookup returns was learned last: under the transport key if the table has it, and else
under the address pair. -/
theorem lookupFlow (h : Tracks o past r) (flow : ParsedIpFlow) (now : Time) :
    Tracks o past (lookupFlow o r flow now).1 ∧
      ∀ labels, (ExitAdapterRoutes.lookupFlow o r flow now).2 = some labels →
        ¬(o.l4Only = true ∧ flow.fragmented = true) ∧
        if flow.hasL4 = true ∧ (r.l4.get (l4CacheKey o flow.l4) now).2.isSome = true then
          lastLearned (agreesL4 o (l4CacheKey o flow.l4)) past = some labels
        else o.l4Only = false ∧ lastLearned (agreesL3 flow.l3) past = some labels := by
  rw [ExitAdapterRoutes.lookupFlow]
  by_cases hfragment : o.l4Only = true ∧ flow.fragmented = true
  · rw [if_pos hfragment]
    exact ⟨⟨h.l3, h.l4, h.l4Capacity, h.l4Timeout⟩, by simp⟩
  rw [if_neg hfragment]
  by_cases hl4 : flow.hasL4 = true
  · obtain ⟨hserves, hvalue⟩ := h.l4.get (l4CacheKey o flow.l4) now
    obtain ⟨hcapacity, hidle⟩ := h.l4.limits_step (.get (l4CacheKey o flow.l4) now)
    rw [if_pos hl4]
    dsimp only
    split
    next labels hsome =>
      refine ⟨⟨fun hnormal => ?_, hserves, hcapacity.trans h.l4Capacity,
        hidle.trans h.l4Timeout⟩, ?_⟩
      · dsimp only
        rw [hnormal, if_neg Bool.false_ne_true]
        exact ((h.l3 hnormal).get flow.l3 now).1
      · rintro _ ⟨⟩
        rw [hsome, if_pos ⟨hl4, rfl⟩]
        exact ⟨hfragment, hvalue labels hsome⟩
    next hnone =>
    have hmissed : Tracks o past { r with
        l4 := (r.l4.get (l4CacheKey o flow.l4) now).1, l4Misses := r.l4Misses + 1 } :=
      ⟨h.l3, hserves, hcapacity.trans h.l4Capacity, hidle.trans h.l4Timeout⟩
    obtain ⟨hkept, hfound⟩ := hmissed.lookupL3 flow now
    refine ⟨hkept, fun labels hlabels => ?_⟩
    rw [hnone, if_neg (fun hheld => Bool.false_ne_true hheld.2)]
    exact ⟨hfragment, hfound labels hlabels⟩
  rw [if_neg hl4]
  obtain ⟨hkept, hfound⟩ := h.lookupL3 flow now
  refine ⟨hkept, fun labels hlabels => ?_⟩
  rw [if_neg (fun hheld => hl4 hheld.1)]
  exact ⟨hfragment, hfound labels hlabels⟩

theorem lookup (h : Tracks o past r) (packet : Bytes) (now : Time) :
    Tracks o past (lookup o r packet now).1 := by
  rw [ExitAdapterRoutes.lookup]
  split
  · exact ⟨h.l3, h.l4, h.l4Capacity, h.l4Timeout⟩
  next flow _ => exact (h.lookupFlow flow now).1

theorem step (h : Tracks o past r) (call : RouteCall) :
    Tracks o ((call, (step o r call).2) :: past) (step o r call).1 := by
  cases call with
  | learn packet labels now => exact h.learn packet labels now
  | lookup packet now =>
    have hlookup := h.lookup packet now
    exact ⟨hlookup.l3, hlookup.l4, hlookup.l4Capacity, hlookup.l4Timeout⟩
  | flush =>
    exact ⟨fun hnormal => (h.l3 hnormal).flush, h.l4.flush, h.l4Capacity, h.l4Timeout⟩
  | reclaim =>
    obtain ⟨hcapacity, hidle⟩ := h.l4.limits_step (.reclaim 64)
    exact ⟨fun hnormal => (h.l3 hnormal).reclaim 64, h.l4.reclaim 64,
      hcapacity.trans h.l4Capacity, hidle.trans h.l4Timeout⟩

/-- Right after a packet was learned, its reverse flow finds it in the transport table. -/
theorem lookup_learned (h : Tracks o past r) {packet reply : Bytes} {labels : List UInt64}
    {now later : Time} {flow back : ParsedIpFlow} (hparse : parseIpFlow packet = some flow)
    (hreply : parseIpFlow reply = some back) (hl4 : flow.hasL4 = true) (hback : back.hasL4 = true)
    (hwhole : back.fragmented = false) (hkey : back.l4 = flow.l4.reverseKey)
    (haccepted : (ExitAdapterRoutes.learn o r packet labels now).2 = true)
    (hcapacity : o.l4Capacity ≠ 0) (hfresh : later - now ≤ o.l4Timeout) :
    (ExitAdapterRoutes.lookup o (ExitAdapterRoutes.learn o r packet labels now).1 reply later).2 =
      some labels := by
  have hput : (ExitAdapterRoutes.learn o r packet labels now).1.l4 =
      r.l4.put (l4CacheKey o back.l4) labels now := by
    rw [ExitAdapterRoutes.learn, hparse] at haccepted ⊢
    dsimp only at haccepted ⊢
    split at haccepted
    · cases haccepted
    next hready =>
    rw [if_neg hready, hkey]
    exact if_pos hl4
  have hget := h.l4.get_put (h.l4Capacity ▸ hcapacity) (l4CacheKey o back.l4) labels
    (h.l4Timeout ▸ hfresh)
  have hnot : ¬(o.l4Only = true ∧ back.fragmented = true) := fun hboth =>
    Bool.false_ne_true (hwhole.symm.trans hboth.2)
  rw [← hput] at hget
  rw [ExitAdapterRoutes.lookup, hreply]
  dsimp only
  rw [ExitAdapterRoutes.lookupFlow, if_neg hnot, if_pos hback]
  dsimp only
  rw [hget]

end Tracks

def history (calls : List RouteCall) : List (RouteCall × RouteResult) :=
  (Transition.run (step o) (create o) calls).1

def after (calls : List RouteCall) : ExitAdapterRoutes :=
  (Transition.run (step o) (create o) calls).2

theorem tracks_after (calls : List RouteCall) : Tracks o (history o calls) (after o calls) := by
  have htrace : Transition.Trace (step o) (create o) (history o calls) (after o calls) :=
    Transition.trace_run calls
  exact htrace.invariant (Tracks o) Tracks.create fun past r call _ h => h.step call

variable {o} in
theorem addresses_of_agreesL4 {flow learned : ParsedIpFlow} (hkeyed : flow.Keyed)
    (hlearned : learned.Keyed) (hl4 : flow.hasL4 = true)
    (h : agreesL4 o (l4CacheKey o flow.l4) learned = true) : learned.l3.reverseKey = flow.l3 := by
  rw [agreesL4, Bool.and_eq_true, decide_eq_true_eq] at h
  obtain ⟨hhas, hkey⟩ := h
  have hpair : learned.l4.toIpPairKey.reverseKey = flow.l4.toIpPairKey :=
    congrArg FlowKey.toIpPairKey hkey
  rw [(hkeyed hl4).1, (hlearned hhas).1] at hpair
  exact hpair

/-- Return routing, at every point of every run. Labels that a lookup returns are those of the
latest learn since the last flush under the transport key, if the transport table still holds it,
and else, in normal mode, those of the latest learn under the address pair; so some learn between
the same addresses stands behind them. In L4-only mode only whole TCP and UDP packets get labels.
And what was just learned is found by the reverse flow. -/
theorem exit_routes_return_learned (calls : List RouteCall) :
    (∀ packet now labels, (lookup o (after o calls) packet now).2 = some labels →
      ∃ flow, parseIpFlow packet = some flow ∧
        ((flow.hasL4 = true ∧ ∃ value seen,
            (l4CacheKey o flow.l4, value, seen) ∈ (after o calls).l4.visitLive now) →
          lastLearned (agreesL4 o (l4CacheKey o flow.l4)) (history o calls) = some labels) ∧
        (¬(flow.hasL4 = true ∧ ∃ value seen,
            (l4CacheKey o flow.l4, value, seen) ∈ (after o calls).l4.visitLive now) →
          o.l4Only = false ∧ lastLearned (agreesL3 flow.l3) (history o calls) = some labels) ∧
        (∃ later learned when earlier source,
          history o calls = later ++ (.learn learned labels when, .learned true) :: earlier ∧
          (∀ call ∈ later, call.1 ≠ .flush) ∧ parseIpFlow learned = some source ∧
          source.l3.reverseKey = flow.l3) ∧
        (o.l4Only = true → flow.hasL4 = true ∧ (flow.protocol = 6 ∨ flow.protocol = 17) ∧
          flow.fragmented = false)) ∧
    ∀ packet reply labels now later flow back,
      (learn o (after o calls) packet labels now).2 = true →
      parseIpFlow packet = some flow → flow.hasL4 = true → flow.fragmented = false →
      parseIpFlow reply = some back → back.hasL4 = true → back.fragmented = false →
      back.l4 = flow.l4.reverseKey → o.l4Capacity ≠ 0 → later - now ≤ o.l4Timeout →
      (lookup o (learn o (after o calls) packet labels now).1 reply later).2 = some labels := by
  have htracks := tracks_after o calls
  refine ⟨fun packet now labels hlookup => ?_, fun packet reply labels now later flow back haccepted
    hparse hl4 _ hreply hback hwhole hkey hcapacity hfresh => htracks.lookup_learned hparse hreply hl4
      hback hwhole hkey haccepted hcapacity hfresh⟩
  cases hparse : parseIpFlow packet with
  | none =>
    rw [lookup, hparse] at hlookup
    cases hlookup
  | some flow =>
    rw [lookup, hparse] at hlookup
    obtain ⟨hwhole, hlast⟩ := (htracks.lookupFlow flow now).2 labels hlookup
    have hkeyed := keyed_of_parse hparse
    have hholds := htracks.l4.get_isSome_iff (l4CacheKey o flow.l4) now
    refine ⟨flow, rfl, ?_⟩
    split at hlast
    next hheld =>
      have hvisit := And.imp_right hholds.mp hheld
      obtain ⟨later, learned, when_, earlier, source, hpast, hlater, hsource, hagrees⟩ :=
        mem_of_lastLearned hlast
      refine ⟨fun _ => hlast, fun hnot => absurd hvisit hnot, ?_, fun honly => ?_⟩
      · exact ⟨later, learned, when_, earlier, source, hpast, hlater, hsource,
          addresses_of_agreesL4 hkeyed (keyed_of_parse hsource) hheld.1 hagrees⟩
      · exact ⟨hheld.1, (hkeyed hheld.1).2, Bool.eq_false_iff.mpr fun hfragment =>
          hwhole ⟨honly, hfragment⟩⟩
    next hheld =>
      have hvisit := fun hboth => hheld (And.imp_right hholds.mpr hboth)
      obtain ⟨later, learned, when_, earlier, source, hpast, hlater, hsource, hagrees⟩ :=
        mem_of_lastLearned hlast.2
      refine ⟨fun hboth => absurd hboth hvisit, fun _ => hlast, ?_, fun honly => ?_⟩
      · exact ⟨later, learned, when_, earlier, source, hpast, hlater, hsource,
          of_decide_eq_true hagrees⟩
      · rw [hlast.1] at honly
        cases honly

end ExitAdapterRoutes

end Tuntom
