import Tuntom.Fragmentation
import Tuntom.Transition

/-! `Reassembler`: the pool of partly received messages, with its byte and entry
limits, its expiry and the memory of discarded message ids. -/
namespace Tuntom

open Pieces

def reassemblyTimeout : Time := 3 * second

structure FragmentRange where
  begin : ℕ
  finish : ℕ
  deriving DecidableEq, Repr

structure ReassemblyMetrics where
  activeEntries : ℕ := 0
  activeBytes : ℕ := 0
  peakEntries : ℕ := 0
  peakBytes : ℕ := 0
  discardedIds : ℕ := 0
  completedPackets : ℕ := 0
  capacityEvictions : ℕ := 0
  expiredEntries : ℕ := 0
  lateFragmentDrops : ℕ := 0
  invalidFragments : ℕ := 0
  overlapDrops : ℕ := 0
  capacityDrops : ℕ := 0
  discardedIdEvictions : ℕ := 0
  sessionDiscardedEntries : ℕ := 0
  deriving DecidableEq, Repr

/-- The constructor of `Reassembler` rejects limits that are not positive. -/
structure ReassemblyConfig where
  maximumPacketSize : ℕ
  entries : ℕ := 512
  bytes : ℕ := 16 * 1024 * 1024
  discardedIds : ℕ := 32768
  entries_pos : 0 < entries := by decide
  bytes_pos : 0 < bytes := by decide
  discardedIds_pos : 0 < discardedIds := by decide

structure ReassemblyEntry where
  originalLength : ℕ
  buffer : Bytes
  ranges : List FragmentRange := []
  receivedBytes : ℕ := 0
  firstSeen : Time
  lastUpdate : Time
  deriving DecidableEq, Repr

structure Discarded where
  id : UInt64
  expires : Time
  deriving DecidableEq, Repr

structure Reassembler where
  entries : AList fun _ : UInt64 => ReassemblyEntry := ∅
  /-- Live ids by age, oldest first. -/
  arrivalOrder : List UInt64 := []
  /-- Live ids by last update, least recent first. -/
  activityOrder : List UInt64 := []
  totalBytes : ℕ := 0
  discardedOrder : List Discarded := []
  discarded : Finset UInt64 := ∅
  metrics : ReassemblyMetrics := {}

/-- What `accept` did with a fragment. -/
inductive AcceptOutcome
  | invalid
  | whole (packet : Bytes)
  | late
  | capacityDrop
  | mismatch
  | overlap
  /-- The fragment was kept; `opened` tells that it was the first of its message. -/
  | stored (opened : Bool)
  | complete (opened : Bool) (packet : Bytes)
  deriving DecidableEq, Repr

/-- The result of `accept`: `complete_packet` when it returned true. -/
def AcceptOutcome.returned : AcceptOutcome → Option Bytes
  | .whole packet => some packet
  | .complete _ packet => some packet
  | _ => none

/-! ### Fragments and entries -/

namespace Packet

def range (p : Packet) : FragmentRange :=
  ⟨p.fragmentOffset.toNat, p.fragmentOffset.toNat + p.payload.length⟩

/-- The checks of `accept` that no state enters. -/
def invalidFor (p : Packet) (maximumPacketSize : ℕ) : Bool :=
  p.messageId == 0 || p.originalLength == 0 || maximumPacketSize < p.originalLength.toNat ||
    p.payload == [] || p.originalLength.toNat < p.range.finish

end Packet

def FragmentRange.overlaps (a b : FragmentRange) : Bool := a.begin < b.finish && b.begin < a.finish

namespace ReassemblyEntry

def fresh (fragment : Packet) (now : Time) : ReassemblyEntry :=
  { originalLength := fragment.originalLength.toNat
    buffer := List.replicate fragment.originalLength.toNat 0
    firstSeen := now
    lastUpdate := now }

def add (entry : ReassemblyEntry) (fragment : Packet) (now : Time) : ReassemblyEntry :=
  { entry with
    ranges := entry.ranges ++ [fragment.range]
    buffer := Piece.overwrite entry.buffer fragment.piece
    receivedBytes := entry.receivedBytes + fragment.payload.length
    lastUpdate := now }

end ReassemblyEntry

/-! ### The pool -/

namespace Reassembler

variable (cfg : ReassemblyConfig) (r : Reassembler)

def tally (change : ReassemblyMetrics → ReassemblyMetrics) : Reassembler :=
  { r with metrics := change r.metrics }

def erase (r : Reassembler) (id : UInt64) : Reassembler :=
  match r.entries.lookup id with
  | none => r
  | some entry =>
    { r with
      arrivalOrder := r.arrivalOrder.erase id
      activityOrder := r.activityOrder.erase id
      totalBytes := r.totalBytes - entry.originalLength
      entries := r.entries.erase id
      metrics :=
        { r.metrics with
          activeEntries := r.metrics.activeEntries - 1
          activeBytes := r.metrics.activeBytes - entry.originalLength } }

def forgetOldestDiscarded : Reassembler :=
  match r.discardedOrder with
  | [] => r
  | oldest :: rest =>
    { r with
      discarded := r.discarded.erase oldest.id
      discardedOrder := rest
      metrics := { r.metrics with discardedIds := r.metrics.discardedIds - 1 } }

def trimDiscarded : Reassembler :=
  if cfg.discardedIds ≤ r.discarded.card then
    r.forgetOldestDiscarded.tally fun m =>
      { m with discardedIdEvictions := m.discardedIdEvictions + 1 }
  else r

def rememberDiscarded (id : UInt64) (now : Time) :
    Reassembler :=
  if id ∈ r.discarded then r
  else
    let r := r.trimDiscarded cfg
    { r with
      discardedOrder := r.discardedOrder ++ [⟨id, now + reassemblyTimeout⟩]
      discarded := insert id r.discarded
      metrics := { r.metrics with discardedIds := r.metrics.discardedIds + 1 } }

/-- `remember_discarded` followed by `erase`. -/
def drop (id : UInt64) (now : Time) : Reassembler :=
  (r.rememberDiscarded cfg id now).erase id

/-- The first loop of `cleanup_expired`, over the records it may remove. -/
def forgetExpired (now : Time) : List Discarded → Reassembler → Reassembler
  | [], r => r
  | oldest :: rest, r =>
    if oldest.expires ≤ now then forgetExpired now rest r.forgetOldestDiscarded else r

/-- The second loop of `cleanup_expired`; its head is always the head of the activity
order, from which `erase` removes it. -/
def expireEntries (cfg : ReassemblyConfig) (now : Time) : List UInt64 → Reassembler → Reassembler
  | [], r => r
  | id :: rest, r =>
    match r.entries.lookup id with
    | none => r
    | some oldest =>
      if now - oldest.lastUpdate < reassemblyTimeout then r
      else
        expireEntries cfg now rest
          ((r.drop cfg id now).tally fun m => { m with expiredEntries := m.expiredEntries + 1 })

def cleanupExpired (now : Time) : Reassembler :=
  let r := forgetExpired now r.discardedOrder r
  expireEntries cfg now r.activityOrder r

def full (needed : ℕ) : Bool :=
  cfg.entries ≤ r.entries.keys.length || cfg.bytes - r.totalBytes < needed

def evict (cfg : ReassemblyConfig) (needed : ℕ) (now : Time) :
    List UInt64 → Reassembler → Reassembler
  | [], r => r
  | id :: rest, r =>
    if r.full cfg needed then
      evict cfg needed now rest
        ((r.drop cfg id now).tally fun m => { m with capacityEvictions := m.capacityEvictions + 1 })
    else r

def openEntry (r : Reassembler) (id : UInt64) (entry : ReassemblyEntry) : Reassembler :=
  { r with
    arrivalOrder := r.arrivalOrder ++ [id]
    activityOrder := r.activityOrder ++ [id]
    entries := r.entries.insert id entry
    totalBytes := r.totalBytes + entry.originalLength
    metrics :=
      { r.metrics with
        activeEntries := r.metrics.activeEntries + 1
        activeBytes := r.metrics.activeBytes + entry.originalLength
        peakEntries := max r.metrics.peakEntries (r.metrics.activeEntries + 1)
        peakBytes := max r.metrics.peakBytes (r.metrics.activeBytes + entry.originalLength) } }

def update (id : UInt64) (entry : ReassemblyEntry) : Reassembler :=
  { r with
    entries := r.entries.insert id entry
    activityOrder := r.activityOrder.erase id ++ [id] }

/-- The part of `accept` that adds a fragment to the entry of its message. -/
def store (entry : ReassemblyEntry) (fragment : Packet)
    (now : Time) (opened : Bool) : Reassembler × AcceptOutcome :=
  if entry.originalLength ≠ fragment.originalLength.toNat ∨
      fragment.type.fragmentLimit ≤ entry.ranges.length then
    ((r.tally fun m => { m with invalidFragments := m.invalidFragments + 1 }).drop cfg
      fragment.messageId now, .mismatch)
  else if entry.ranges.any fragment.range.overlaps then
    (r.tally fun m => { m with overlapDrops := m.overlapDrops + 1 }, .overlap)
  else
    let entry := entry.add fragment now
    let r := r.update fragment.messageId entry
    if entry.receivedBytes ≠ entry.originalLength then (r, .stored opened)
    else
      ((r.erase fragment.messageId).tally fun m =>
        { m with completedPackets := m.completedPackets + 1 }, .complete opened entry.buffer)

/-- `accept` after the cleanup, for a fragment that is not a whole packet. -/
def acceptPart (fragment : Packet) (now : Time) :
    Reassembler × AcceptOutcome :=
  if fragment.messageId ∈ r.discarded then
    (r.tally fun m => { m with lateFragmentDrops := m.lateFragmentDrops + 1 }, .late)
  else
    match r.entries.lookup fragment.messageId with
    | some entry => r.store cfg entry fragment now false
    | none =>
      if cfg.bytes < fragment.originalLength.toNat then
        ((r.tally fun m => { m with capacityDrops := m.capacityDrops + 1 }).rememberDiscarded cfg
          fragment.messageId now, .capacityDrop)
      else
        let r := evict cfg fragment.originalLength.toNat now r.arrivalOrder r
        (r.openEntry fragment.messageId (.fresh fragment now)).store cfg
          (.fresh fragment now) fragment now true

def accept (fragment : Packet) (now : Time) :
    Reassembler × AcceptOutcome :=
  if fragment.invalidFor cfg.maximumPacketSize then
    (r.tally fun m => { m with invalidFragments := m.invalidFragments + 1 }, .invalid)
  else if fragment.range = ⟨0, fragment.originalLength.toNat⟩ then (r, .whole fragment.payload)
  else (r.cleanupExpired cfg now).acceptPart cfg fragment now

end Reassembler

inductive ReassemblyOp
  | accept (fragment : Packet) (now : Time)
  | cleanup (now : Time)
  deriving DecidableEq, Repr

def reassemblyStep (cfg : ReassemblyConfig) (r : Reassembler) :
    ReassemblyOp → Reassembler × Option AcceptOutcome
  | .accept fragment now =>
    let (r, outcome) := r.accept cfg fragment now
    (r, some outcome)
  | .cleanup now => (r.cleanupExpired cfg now, none)

abbrev ReassemblyHistory := List (ReassemblyOp × Option AcceptOutcome)

abbrev ReassemblyTrace (cfg : ReassemblyConfig) :=
  Transition.Trace (reassemblyStep cfg) ({} : Reassembler)

/-! ### What a call does to the entries -/

namespace Reassembler

variable (cfg : ReassemblyConfig) (r : Reassembler)

abbrev live (id : UInt64) : Option ReassemblyEntry := r.entries.lookup id

/-- `r'` has no entry that `r` has not. -/
def Keeps (r r' : Reassembler) : Prop := ∀ id entry, r'.live id = some entry → r.live id = some entry

theorem Keeps.trans {a b c : Reassembler} (hab : a.Keeps b) (hbc : b.Keeps c) : a.Keeps c :=
  fun id entry h => hab id entry (hbc id entry h)

theorem Keeps.of_entries {r r' : Reassembler} (h : r'.entries = r.entries) : r.Keeps r' := by
  intro id entry hlive
  rwa [live, h] at hlive

theorem keeps_tally (change : ReassemblyMetrics → ReassemblyMetrics) :
    r.Keeps (r.tally change) := Keeps.of_entries rfl

@[simp] theorem live_erase_self (id : UInt64) : (r.erase id).live id = none := by
  unfold erase
  split
  · assumption
  · exact AList.lookup_erase id r.entries

theorem live_erase_ne {id other : UInt64} (h : other ≠ id) :
    (r.erase id).live other = r.live other := by
  unfold erase
  split
  · rfl
  · exact AList.lookup_erase_ne h

theorem keeps_erase (id : UInt64) : r.Keeps (r.erase id) := by
  intro other entry h
  by_cases hid : other = id
  · rw [hid, live_erase_self] at h
    cases h
  · rwa [live_erase_ne r hid] at h

@[simp] theorem entries_forgetOldestDiscarded :
    r.forgetOldestDiscarded.entries = r.entries := by
  unfold forgetOldestDiscarded
  split <;> rfl

@[simp] theorem entries_trimDiscarded :
    (r.trimDiscarded cfg).entries = r.entries := by
  unfold trimDiscarded
  split
  · exact entries_forgetOldestDiscarded r
  · rfl

@[simp] theorem entries_rememberDiscarded (id : UInt64)
    (now : Time) : (r.rememberDiscarded cfg id now).entries = r.entries := by
  unfold rememberDiscarded
  split
  · rfl
  · exact entries_trimDiscarded cfg r

theorem keeps_drop (id : UInt64) (now : Time) :
    r.Keeps (r.drop cfg id now) :=
  (Keeps.of_entries (entries_rememberDiscarded cfg r id now)).trans (keeps_erase _ id)

theorem entries_forgetExpired (now : Time) (records : List Discarded) (r : Reassembler) :
    (forgetExpired now records r).entries = r.entries := by
  induction records generalizing r with
  | nil => rfl
  | cons oldest rest ih =>
    rw [forgetExpired]
    split
    · rw [ih, entries_forgetOldestDiscarded]
    · rfl

theorem keeps_expireEntries (now : Time) (ids : List UInt64)
    (r : Reassembler) : r.Keeps (expireEntries cfg now ids r) := by
  induction ids generalizing r with
  | nil => exact fun _ _ h => h
  | cons id rest ih =>
    rw [expireEntries]
    split
    · exact fun _ _ h => h
    split
    · exact fun _ _ h => h
    · exact (keeps_drop cfg r id now).trans ((keeps_tally _ _).trans (ih _))

theorem keeps_cleanupExpired (now : Time) :
    r.Keeps (r.cleanupExpired cfg now) :=
  (Keeps.of_entries (entries_forgetExpired now r.discardedOrder r)).trans
    (keeps_expireEntries cfg now _ _)

theorem keeps_evict (needed : ℕ) (now : Time) (ids : List UInt64)
    (r : Reassembler) : r.Keeps (evict cfg needed now ids r) := by
  induction ids generalizing r with
  | nil => exact fun _ _ h => h
  | cons id rest ih =>
    rw [evict]
    split
    · exact (keeps_drop cfg r id now).trans ((keeps_tally _ _).trans (ih _))
    · exact fun _ _ h => h

/-- `fragment` was added to `entry`: the entry of its message, or a fresh one. -/
structure Adds (cfg : ReassemblyConfig) (r : Reassembler) (fragment : Packet) (now : Time)
    (r' : Reassembler) (opened : Bool) (entry : ReassemblyEntry) : Prop where
  valid : fragment.invalidFor cfg.maximumPacketSize = false
  source : if opened then entry = .fresh fragment now else r.live fragment.messageId = some entry
  length : entry.originalLength = fragment.originalLength.toNat
  apart : ∀ range ∈ entry.ranges, fragment.range.overlaps range = false
  others : ∀ id, id ≠ fragment.messageId → ∀ e, r'.live id = some e → r.live id = some e

/-- The three ways `accept` treats the entries. -/
inductive AcceptEffect (cfg : ReassemblyConfig) (r : Reassembler) (fragment : Packet) (now : Time)
    (r' : Reassembler) : AcceptOutcome → Prop
  | kept (outcome : AcceptOutcome) (h : r.Keeps r') (hstored : ∀ opened, outcome ≠ .stored opened)
      (hcomplete : ∀ opened packet, outcome ≠ .complete opened packet) :
      AcceptEffect cfg r fragment now r' outcome
  | stored (opened : Bool) (entry : ReassemblyEntry) (h : Adds cfg r fragment now r' opened entry)
      (hlive : r'.live fragment.messageId = some (entry.add fragment now)) :
      AcceptEffect cfg r fragment now r' (.stored opened)
  | complete (opened : Bool) (entry : ReassemblyEntry) (h : Adds cfg r fragment now r' opened entry)
      (hlive : r'.live fragment.messageId = none)
      (hreceived : (entry.add fragment now).receivedBytes = entry.originalLength) :
      AcceptEffect cfg r fragment now r' (.complete opened (entry.add fragment now).buffer)

theorem live_update_self (id : UInt64) (entry : ReassemblyEntry) :
    (r.update id entry).live id = some entry := AList.lookup_insert r.entries

theorem live_update_ne {id other : UInt64} (entry : ReassemblyEntry)
    (h : other ≠ id) : (r.update id entry).live other = r.live other :=
  AList.lookup_insert_ne h

theorem live_openEntry_ne {id other : UInt64} (entry : ReassemblyEntry)
    (h : other ≠ id) : (r.openEntry id entry).live other = r.live other :=
  AList.lookup_insert_ne h

/-- `base` is the pool before the call, `r` the one the fragment is stored in. -/
theorem store_effect {base r : Reassembler} {entry : ReassemblyEntry}
    {fragment : Packet} {now : Time} {opened : Bool}
    (hvalid : fragment.invalidFor cfg.maximumPacketSize = false)
    (hsource : if opened then entry = .fresh fragment now
      else base.live fragment.messageId = some entry ∧ r.live fragment.messageId = some entry)
    (hothers : ∀ id, id ≠ fragment.messageId → ∀ e, r.live id = some e → base.live id = some e) :
    AcceptEffect cfg base fragment now (r.store cfg entry fragment now opened).1
      (r.store cfg entry fragment now opened).2 := by
  -- a fresh entry has the length of its fragment and no ranges: it is never refused
  have hkept : ∀ {r' : Reassembler}, r.Keeps r' → opened = false → base.Keeps r' := by
    intro r' hr' hopened id e hlive
    rw [hopened] at hsource
    by_cases hid : id = fragment.messageId
    · have hr := hr' id e hlive
      rw [hid, hsource.2] at hr
      rw [hid, hsource.1, hr]
    · exact hothers id hid e (hr' id e hlive)
  have hfresh : opened = true → entry = .fresh fragment now := by
    rintro rfl
    exact hsource
  unfold store
  split
  next hmismatch =>
    cases opened with
    | false =>
      exact .kept _ (hkept ((keeps_tally r _).trans (keeps_drop cfg _ _ now)) rfl)
        (by simp) (by simp)
    | true =>
      have hlimit : 0 < fragment.type.fragmentLimit := by
        unfold PacketType.fragmentLimit
        split <;> decide
      rw [hfresh rfl] at hmismatch
      rcases hmismatch with h | h
      · exact absurd rfl h
      · exact absurd hlimit (not_lt.mpr h)
  next hmismatch =>
  rw [not_or, not_not] at hmismatch
  split
  next hoverlap =>
    cases opened with
    | false => exact .kept _ (hkept (keeps_tally r _) rfl) (by simp) (by simp)
    | true =>
      rw [hfresh rfl] at hoverlap
      cases hoverlap
  next hoverlap =>
  have hsource' : if opened then entry = .fresh fragment now
      else base.live fragment.messageId = some entry := by
    cases opened with
    | false => exact hsource.1
    | true => exact hsource
  have hapart : ∀ range ∈ entry.ranges, fragment.range.overlaps range = false := by
    simpa using hoverlap
  dsimp only
  split
  · refine .stored opened entry ⟨hvalid, hsource', hmismatch.1, hapart, ?_⟩
      (live_update_self ..)
    intro id hid e hlive
    rw [live_update_ne r _ hid] at hlive
    exact hothers id hid e hlive
  next hreceived =>
  refine .complete opened entry ⟨hvalid, hsource', hmismatch.1, hapart, ?_⟩
    (live_erase_self ..) (not_not.mp hreceived)
  intro id hid e hlive
  have hlive' := (live_erase_ne (r.update fragment.messageId (entry.add fragment now))
    hid).symm.trans hlive
  rw [live_update_ne r _ hid] at hlive'
  exact hothers id hid e hlive'

theorem acceptPart_effect {base r : Reassembler} (hkeeps : base.Keeps r)
    {fragment : Packet} {now : Time} (hvalid : fragment.invalidFor cfg.maximumPacketSize = false) :
    AcceptEffect cfg base fragment now (r.acceptPart cfg fragment now).1
      (r.acceptPart cfg fragment now).2 := by
  unfold acceptPart
  split
  · exact .kept _ (hkeeps.trans (keeps_tally r _)) (by simp) (by simp)
  split
  next entry hentry =>
    exact store_effect cfg hvalid ⟨hkeeps _ _ hentry, hentry⟩ fun id _ => hkeeps id
  split
  · refine .kept _ (hkeeps.trans ?_) (by simp) (by simp)
    exact Keeps.of_entries (entries_rememberDiscarded ..)
  refine store_effect cfg hvalid rfl fun id hid e hlive => ?_
  rw [live_openEntry_ne _ _ hid] at hlive
  exact hkeeps id e (keeps_evict cfg _ now _ r id e hlive)

theorem accept_effect (fragment : Packet) (now : Time) :
    AcceptEffect cfg r fragment now (r.accept cfg fragment now).1 (r.accept cfg fragment now).2 := by
  unfold accept
  split
  · exact .kept _ (keeps_tally r _) (by simp) (by simp)
  next hvalid =>
  split
  · exact .kept _ (Keeps.of_entries rfl) (by simp) (by simp)
  · exact acceptPart_effect cfg (keeps_cleanupExpired cfg r now) (Bool.not_eq_true _ ▸ hvalid)

end Reassembler

end Tuntom
