import Tuntom.ReassemblyCover

/-! The representation of `Reassembler`: its two orders, its byte account, its memory
of discarded ids, and the gauges that several reassemblers share. -/
namespace Tuntom

open Pieces List

/-! ### The source with its arithmetic checked -/

def subtract (a b : ℕ) : Option ℕ := if b ≤ a then some (a - b) else none

theorem subtract_of_le {a b : ℕ} (h : b ≤ a) : subtract a b = some (a - b) := if_pos h

namespace Reassembler

variable (cfg : ReassemblyConfig) (r : Reassembler)

/-- `erase` through an iterator. Nothing comes out where the source would wrap around
or follow an iterator to no entry. -/
def eraseChecked (id : UInt64) : Option Reassembler := do
  let entry ← r.entries.lookup id
  let totalBytes ← subtract r.totalBytes entry.originalLength
  let activeEntries ← subtract r.metrics.activeEntries 1
  let activeBytes ← subtract r.metrics.activeBytes entry.originalLength
  return { r with
    arrivalOrder := r.arrivalOrder.erase id
    activityOrder := r.activityOrder.erase id
    totalBytes
    entries := r.entries.erase id
    metrics := { r.metrics with activeEntries, activeBytes } }

def forgetOldestChecked : Option Reassembler :=
  match r.discardedOrder with
  | [] => none
  | oldest :: rest => do
    let discardedIds ← subtract r.metrics.discardedIds 1
    return { r with
      discarded := r.discarded.erase oldest.id
      discardedOrder := rest
      metrics := { r.metrics with discardedIds } }

def trimChecked : Option Reassembler :=
  if cfg.discardedIds ≤ r.discarded.card then
    r.forgetOldestChecked.map fun r => r.tally fun m =>
      { m with discardedIdEvictions := m.discardedIdEvictions + 1 }
  else some r

def rememberChecked (id : UInt64) (now : Time) :
    Option Reassembler :=
  if id ∈ r.discarded then some r
  else
    (r.trimChecked cfg).map fun r =>
      { r with
        discardedOrder := r.discardedOrder ++ [⟨id, now + reassemblyTimeout⟩]
        discarded := insert id r.discarded
        metrics := { r.metrics with discardedIds := r.metrics.discardedIds + 1 } }

def dropChecked (id : UInt64) (now : Time) :
    Option Reassembler :=
  (r.rememberChecked cfg id now).bind fun r => r.eraseChecked id

/-- The first loop of `cleanup_expired`; nothing comes out when `turns` passes do not end it. -/
def forgetExpiredChecked (now : Time) : ℕ → Reassembler → Option Reassembler
  | 0, _ => none
  | turns + 1, r =>
    match r.discardedOrder with
    | [] => some r
    | oldest :: _ =>
      if oldest.expires ≤ now then r.forgetOldestChecked.bind (forgetExpiredChecked now turns)
      else some r

/-- The second loop of `cleanup_expired`. -/
def expireChecked (cfg : ReassemblyConfig) (now : Time) : ℕ → Reassembler → Option Reassembler
  | 0, _ => none
  | turns + 1, r =>
    match r.activityOrder with
    | [] => some r
    | id :: _ =>
      (r.entries.lookup id).bind fun oldest =>
        if now - oldest.lastUpdate < reassemblyTimeout then some r
        else
          (r.dropChecked cfg id now).bind fun r => expireChecked cfg now turns
            (r.tally fun m => { m with expiredEntries := m.expiredEntries + 1 })

def cleanupChecked (now : Time) : Option Reassembler :=
  (forgetExpiredChecked now (r.discardedOrder.length + 1) r).bind fun r =>
    expireChecked cfg now (r.activityOrder.length + 1) r

/-- The eviction loop; reading the head of an empty arrival order gives nothing. -/
def evictChecked (cfg : ReassemblyConfig) (needed : ℕ) (now : Time) :
    ℕ → Reassembler → Option Reassembler
  | 0, _ => none
  | turns + 1, r =>
    (subtract cfg.bytes r.totalBytes).bind fun room =>
      if cfg.entries ≤ r.entries.keys.length || room < needed then
        match r.arrivalOrder with
        | [] => none
        | id :: _ =>
          (r.dropChecked cfg id now).bind fun r => evictChecked cfg needed now turns
            (r.tally fun m => { m with capacityEvictions := m.capacityEvictions + 1 })
      else some r

def storeChecked (entry : ReassemblyEntry)
    (fragment : Packet) (now : Time) (opened : Bool) : Option (Reassembler × AcceptOutcome) :=
  if entry.originalLength ≠ fragment.originalLength.toNat ∨
      fragment.type.fragmentLimit ≤ entry.ranges.length then
    ((r.tally fun m => { m with invalidFragments := m.invalidFragments + 1 }).dropChecked cfg
      fragment.messageId now).map fun r => (r, .mismatch)
  else if entry.ranges.any fragment.range.overlaps then
    some (r.tally fun m => { m with overlapDrops := m.overlapDrops + 1 }, .overlap)
  else
    let entry := entry.add fragment now
    let r := r.update fragment.messageId entry
    if entry.receivedBytes ≠ entry.originalLength then some (r, .stored opened)
    else
      (r.eraseChecked fragment.messageId).map fun r =>
        (r.tally fun m => { m with completedPackets := m.completedPackets + 1 },
          .complete opened entry.buffer)

def acceptPartChecked (fragment : Packet) (now : Time) :
    Option (Reassembler × AcceptOutcome) :=
  if fragment.messageId ∈ r.discarded then
    some (r.tally fun m => { m with lateFragmentDrops := m.lateFragmentDrops + 1 }, .late)
  else
    match r.entries.lookup fragment.messageId with
    | some entry => r.storeChecked cfg entry fragment now false
    | none =>
      if cfg.bytes < fragment.originalLength.toNat then
        ((r.tally fun m => { m with capacityDrops := m.capacityDrops + 1 }).rememberChecked cfg
          fragment.messageId now).map fun r => (r, .capacityDrop)
      else
        (evictChecked cfg fragment.originalLength.toNat now (r.entries.keys.length + 1) r).bind
          fun r => (r.openEntry fragment.messageId (.fresh fragment now)).storeChecked cfg
            (.fresh fragment now) fragment now true

/-- `accept`, with the loops as the source runs them and no subtraction below zero. -/
def acceptChecked (fragment : Packet) (now : Time) :
    Option (Reassembler × AcceptOutcome) :=
  if fragment.invalidFor cfg.maximumPacketSize then
    some (r.tally fun m => { m with invalidFragments := m.invalidFragments + 1 }, .invalid)
  else if fragment.range = ⟨0, fragment.originalLength.toNat⟩ then
    some (r, .whole fragment.payload)
  else (r.cleanupChecked cfg now).bind fun r => r.acceptPartChecked cfg fragment now

end Reassembler

def AcceptOutcome.refused : AcceptOutcome → Bool
  | .invalid | .late | .capacityDrop | .mismatch | .overlap => true
  | _ => false

/-! ### The invariant -/

def FragmentRange.length (range : FragmentRange) : ℕ := range.finish - range.begin

structure ReassemblyEntry.Inv (e : ReassemblyEntry) : Prop where
  some_range : e.ranges ≠ []
  inside : ∀ range ∈ e.ranges, range.begin < range.finish ∧ range.finish ≤ e.originalLength
  apart : e.ranges.Pairwise fun a b => a.overlaps b = false
  received : e.receivedBytes = (e.ranges.map FragmentRange.length).sum
  partly : e.receivedBytes < e.originalLength

namespace Reassembler

def weight (entries : AList fun _ : UInt64 => ReassemblyEntry) : ℕ :=
  (entries.entries.map fun e => e.2.originalLength).sum

structure Indexed (r : Reassembler) : Prop where
  arrival : r.arrivalOrder.Perm r.entries.keys
  activity : r.activityOrder.Perm r.entries.keys
  total : r.totalBytes = weight r.entries
  sorted : r.activityOrder.Pairwise fun a b =>
    ∀ x ∈ r.live a, ∀ y ∈ r.live b, x.lastUpdate ≤ y.lastUpdate

structure Remembers (cfg : ReassemblyConfig) (r : Reassembler) : Prop where
  same : r.discarded = (r.discardedOrder.map Discarded.id).toFinset
  nodup : (r.discardedOrder.map Discarded.id).Nodup
  limit : r.discardedOrder.length ≤ cfg.discardedIds
  sorted : r.discardedOrder.Pairwise fun a b => a.expires ≤ b.expires

structure Inv (cfg : ReassemblyConfig) (r : Reassembler) : Prop where
  indexed : r.Indexed
  bytes_le : r.totalBytes ≤ cfg.bytes
  entries_le : r.entries.keys.length ≤ cfg.entries
  remembers : r.Remembers cfg
  apart : ∀ id ∈ r.discarded, r.live id = none
  entry : ∀ id e, r.live id = some e → e.Inv

/-- Nothing in the pool is younger than `now`. -/
structure Recent (now : Time) (r : Reassembler) : Prop where
  live : ∀ id e, r.live id = some e → e.lastUpdate ≤ now
  discarded : ∀ d ∈ r.discardedOrder, d.expires ≤ now + reassemblyTimeout

/-- The gauges are those of the pool on top of `e` entries, `b` bytes and `d` discarded
ids of other pools. -/
structure Gauged (e b d : ℕ) (r : Reassembler) : Prop where
  entries : r.metrics.activeEntries = e + r.entries.keys.length
  bytes : r.metrics.activeBytes = b + r.totalBytes
  discarded : r.metrics.discardedIds = d + r.discarded.card

theorem Recent.mono {now now' : Time} {r : Reassembler}
    (h : r.Recent now) (hle : now ≤ now') : r.Recent now' :=
  ⟨fun id e he => (h.live id e he).trans hle,
    fun d hd => (h.discarded d hd).trans (Int.add_le_add_right hle _)⟩

structure Sound (cfg : ReassemblyConfig) (now : Time) (e b d : ℕ) (r : Reassembler) : Prop where
  indexed : r.Indexed
  bytes_le : r.totalBytes ≤ cfg.bytes
  entries_le : r.entries.keys.length ≤ cfg.entries
  remembers : r.Remembers cfg
  apart : ∀ id ∈ r.discarded, r.live id = none
  recent : r.Recent now
  gauged : r.Gauged e b d

/-! ### The byte account -/

theorem weight_erase {entries : AList fun _ : UInt64 => ReassemblyEntry} {id : UInt64}
    {entry : ReassemblyEntry} (h : entries.lookup id = some entry) :
    weight (entries.erase id) + entry.originalLength = weight entries := by
  have hmem : (⟨id, entry⟩ : Sigma fun _ : UInt64 => ReassemblyEntry) ∈ entries.entries :=
    AList.mem_lookup_iff.mp h
  obtain ⟨e, before, after, hbefore, hsplit, herase⟩ :=
    exists_of_kerase (mem_keys_of_mem hmem)
  have he : e = entry := by
    have hmem' : (⟨id, e⟩ : Sigma fun _ : UInt64 => ReassemblyEntry) ∈ entries.entries := by
      rw [hsplit]
      simp
    have hlookup : entries.lookup id = some e := AList.mem_lookup_iff.mpr hmem'
    rw [h] at hlookup
    exact (Option.some.inj hlookup).symm
  unfold weight
  rw [show (entries.erase id).entries = entries.entries.kerase id from rfl, herase, hsplit, he]
  simp only [map_append, map_cons, sum_append, sum_cons]
  omega

theorem erase_of_lookup_none {entries : AList fun _ : UInt64 => ReassemblyEntry} {id : UInt64}
    (h : entries.lookup id = none) : entries.erase id = entries := by
  apply AList.ext
  refine kerase_of_notMem_keys ?_
  rw [← AList.keys, ← AList.mem_keys]
  exact AList.lookup_eq_none.mp h

theorem weight_insert (entries : AList fun _ : UInt64 => ReassemblyEntry) (id : UInt64)
    (entry : ReassemblyEntry) :
    weight (entries.insert id entry) = entry.originalLength + weight (entries.erase id) := by
  simp [weight, AList.insert, AList.erase, List.kinsert]

/-! ### Erasing -/

section Erase
variable {r : Reassembler} {id : UInt64} {entry : ReassemblyEntry}

theorem mem_keys_of_live (h : r.live id = some entry) : id ∈ r.entries.keys :=
  AList.mem_keys.mp (AList.lookup_isSome.mp (Option.isSome_iff_exists.mpr ⟨entry, h⟩))

theorem live_of_mem_keys (h : id ∈ r.entries.keys) : ∃ entry, r.live id = some entry :=
  Option.isSome_iff_exists.mp (AList.lookup_isSome.mpr (AList.mem_keys.mpr h))

theorem length_le_total (h : r.Indexed) (hlive : r.live id = some entry) :
    entry.originalLength ≤ r.totalBytes := by
  rw [h.total, ← weight_erase hlive]
  exact Nat.le_add_left _ _

theorem length_keys_erase (h : r.live id = some entry) :
    (r.entries.erase id).keys.length + 1 = r.entries.keys.length := by
  have hmem := mem_keys_of_live h
  have hpos := length_pos_of_mem hmem
  rw [AList.keys_erase, length_erase_of_mem hmem]
  omega

theorem erase_eq (h : r.live id = some entry) :
    r.erase id =
      { r with
        arrivalOrder := r.arrivalOrder.erase id
        activityOrder := r.activityOrder.erase id
        totalBytes := r.totalBytes - entry.originalLength
        entries := r.entries.erase id
        metrics :=
          { r.metrics with
            activeEntries := r.metrics.activeEntries - 1
            activeBytes := r.metrics.activeBytes - entry.originalLength } } := by
  unfold erase
  rw [show r.entries.lookup id = some entry from h]

theorem eraseChecked_eq {e b d : ℕ} (h : r.Indexed) (hgauged : r.Gauged e b d)
    (hlive : r.live id = some entry) : r.eraseChecked id = some (r.erase id) := by
  have hlength := length_le_total h hlive
  have hpos := length_keys_erase hlive
  have hentries := hgauged.entries
  have hbytes := hgauged.bytes
  unfold eraseChecked
  rw [show r.entries.lookup id = some entry from hlive, Option.bind_eq_bind, Option.bind_some,
    subtract_of_le hlength, Option.bind_eq_bind, Option.bind_some, subtract_of_le (by omega),
    Option.bind_some, subtract_of_le (by omega), erase_eq hlive]
  rfl

theorem Indexed.erase (h : r.Indexed) (hlive : r.live id = some entry) : (r.erase id).Indexed := by
  have hkeeps := keeps_erase r id
  have htotal := weight_erase hlive
  rw [erase_eq hlive] at hkeeps ⊢
  refine ⟨?_, ?_, ?_, ?_⟩
  · rw [AList.keys_erase]
    exact h.arrival.erase id
  · rw [AList.keys_erase]
    exact h.activity.erase id
  · have := h.total
    dsimp only
    omega
  · refine (h.sorted.sublist erase_sublist).imp ?_
    intro a c hle x hx y hy
    exact hle x (hkeeps a x hx) y (hkeeps c y hy)

theorem Gauged.erase {e b d : ℕ} (h : r.Indexed) (hgauged : r.Gauged e b d)
    (hlive : r.live id = some entry) : (r.erase id).Gauged e b d := by
  have hlength := length_le_total h hlive
  have hpos := length_keys_erase hlive
  have hentries := hgauged.entries
  have hbytes := hgauged.bytes
  rw [erase_eq hlive]
  refine ⟨?_, ?_, hgauged.discarded⟩
  · dsimp only
    omega
  · dsimp only
    omega

end Erase

/-! ### Remembering -/

section Remember
variable {cfg : ReassemblyConfig} {r : Reassembler} {now : Time}

theorem Remembers.card (h : r.Remembers cfg) : r.discarded.card = r.discardedOrder.length := by
  rw [h.same, toFinset_card_of_nodup h.nodup, length_map]

theorem Remembers.forgetOldest (h : r.Remembers cfg) : r.forgetOldestDiscarded.Remembers cfg := by
  unfold forgetOldestDiscarded
  split
  · exact h
  next oldest rest heq =>
  obtain ⟨hsame, hnodup, hlimit, hsorted⟩ := h
  rw [heq] at hsame hnodup hlimit hsorted
  rw [map_cons, nodup_cons] at hnodup
  refine ⟨?_, hnodup.2, (Nat.le_succ _).trans hlimit, hsorted.of_cons⟩
  rw [hsame, map_cons, toFinset_cons, Finset.erase_insert]
  simpa using hnodup.1

variable {b d e : ℕ}

theorem Gauged.forgetOldest (h : r.Remembers cfg) (hgauged : r.Gauged e b d) :
    r.forgetOldestDiscarded.Gauged e b d := by
  have hcard := h.card
  have hcard' := h.forgetOldest.card
  have hdiscarded := hgauged.discarded
  unfold forgetOldestDiscarded at hcard' ⊢
  split
  · exact hgauged
  next oldest rest heq =>
  rw [heq] at hcard'
  rw [heq, length_cons] at hcard
  refine ⟨hgauged.entries, hgauged.bytes, ?_⟩
  dsimp only at hcard' ⊢
  omega

theorem forgetOldestChecked_eq (h : r.Remembers cfg) (hgauged : r.Gauged e b d)
    (hne : r.discardedOrder ≠ []) : r.forgetOldestChecked = some r.forgetOldestDiscarded := by
  have hdiscarded := hgauged.discarded
  have hcard := h.card
  have hpos := length_pos_iff.mpr hne
  obtain ⟨oldest, rest, heq⟩ := exists_cons_of_ne_nil hne
  unfold forgetOldestChecked forgetOldestDiscarded
  simp only [heq, subtract_of_le (show 1 ≤ r.metrics.discardedIds by omega), Option.bind_eq_bind,
    Option.bind_some, Option.pure_def]

theorem discardedOrder_forgetOldest (r : Reassembler) :
    r.forgetOldestDiscarded.discardedOrder = r.discardedOrder.tail := by
  unfold forgetOldestDiscarded
  split
  next heq => rw [heq]; rfl
  next heq => rw [heq]; rfl

theorem Remembers.tally (h : r.Remembers cfg) (change : ReassemblyMetrics → ReassemblyMetrics) :
    (r.tally change).Remembers cfg := ⟨h.same, h.nodup, h.limit, h.sorted⟩

theorem Remembers.trim (h : r.Remembers cfg) : (r.trimDiscarded cfg).Remembers cfg := by
  unfold trimDiscarded
  split
  · exact h.forgetOldest.tally _
  · exact h

theorem Gauged.trim (h : r.Remembers cfg) (hgauged : r.Gauged e b d) :
    (r.trimDiscarded cfg).Gauged e b d := by
  unfold trimDiscarded
  split
  · obtain ⟨hentries, hbytes, hdiscarded⟩ := hgauged.forgetOldest h
    exact ⟨hentries, hbytes, hdiscarded⟩
  · exact hgauged

theorem trim_room (h : r.Remembers cfg) :
    (r.trimDiscarded cfg).discardedOrder.length < cfg.discardedIds := by
  have hcard := h.card
  have hlimit := h.limit
  have hpos := cfg.discardedIds_pos
  unfold trimDiscarded
  split
  · rw [show ∀ change, (r.forgetOldestDiscarded.tally change).discardedOrder =
      r.forgetOldestDiscarded.discardedOrder from fun _ => rfl, discardedOrder_forgetOldest,
      length_tail]
    omega
  · omega

theorem trimChecked_eq (h : r.Remembers cfg) (hgauged : r.Gauged e b d) :
    r.trimChecked cfg = some (r.trimDiscarded cfg) := by
  unfold trimChecked trimDiscarded
  split
  next hfull =>
    have hne : r.discardedOrder ≠ [] := by
      rw [← length_pos_iff, ← h.card]
      exact cfg.discardedIds_pos.trans_le hfull
    rw [forgetOldestChecked_eq h hgauged hne]
    rfl
  · rfl

theorem trim_discarded (r : Reassembler) : (r.trimDiscarded cfg).discarded ⊆ r.discarded := by
  unfold trimDiscarded
  split
  · unfold forgetOldestDiscarded
    split
    · exact subset_rfl
    · exact Finset.erase_subset _ _
  · exact subset_rfl

theorem mem_trim_discardedOrder {x : Discarded} (hx : x ∈ (r.trimDiscarded cfg).discardedOrder) :
    x ∈ r.discardedOrder := by
  unfold trimDiscarded at hx
  split at hx
  · rw [show ∀ change, (r.forgetOldestDiscarded.tally change).discardedOrder =
      r.forgetOldestDiscarded.discardedOrder from fun _ => rfl, discardedOrder_forgetOldest] at hx
    exact mem_of_mem_tail hx
  · exact hx

theorem trim_pool (cfg : ReassemblyConfig) (r : Reassembler) :
    (r.trimDiscarded cfg).arrivalOrder = r.arrivalOrder ∧
      (r.trimDiscarded cfg).activityOrder = r.activityOrder ∧
      (r.trimDiscarded cfg).totalBytes = r.totalBytes := by
  unfold trimDiscarded forgetOldestDiscarded
  split
  · split <;> exact ⟨rfl, rfl, rfl⟩
  · exact ⟨rfl, rfl, rfl⟩

theorem remember_pool (cfg : ReassemblyConfig) (r : Reassembler) (id : UInt64) (now : Time) :
    (r.rememberDiscarded cfg id now).arrivalOrder = r.arrivalOrder ∧
      (r.rememberDiscarded cfg id now).activityOrder = r.activityOrder ∧
      (r.rememberDiscarded cfg id now).totalBytes = r.totalBytes := by
  unfold rememberDiscarded
  split
  · exact ⟨rfl, rfl, rfl⟩
  · exact trim_pool cfg r

theorem remember_discarded_subset (cfg : ReassemblyConfig) (r : Reassembler) (id : UInt64)
    (now : Time) : (r.rememberDiscarded cfg id now).discarded ⊆ insert id r.discarded := by
  unfold rememberDiscarded
  split
  · exact Finset.subset_insert _ _
  · exact Finset.insert_subset_insert _ (trim_discarded r)

theorem Remembers.remember (h : r.Remembers cfg) (id : UInt64)
    (hrecent : ∀ x ∈ r.discardedOrder, x.expires ≤ now + reassemblyTimeout) :
    (r.rememberDiscarded cfg id now).Remembers cfg := by
  unfold rememberDiscarded
  split
  · exact h
  next hnew =>
  have htrim := h.trim
  have hid : id ∉ (r.trimDiscarded cfg).discarded := fun hmem => hnew (trim_discarded r hmem)
  have hid' : id ∉ (r.trimDiscarded cfg).discardedOrder.map Discarded.id := by
    rw [htrim.same, mem_toFinset] at hid
    exact hid
  refine ⟨?_, ?_, ?_, ?_⟩
  · simp only [map_append, map_cons, map_nil, toFinset_append, htrim.same]
    rw [Finset.union_comm]
    rfl
  · simp only [map_append, map_cons, map_nil]
    exact nodup_append.mpr ⟨htrim.nodup, nodup_singleton _, by
      intro a ha c hc
      rw [mem_singleton.mp hc]
      rintro rfl
      exact hid' ha⟩
  · rw [length_append]
    exact trim_room h
  · refine pairwise_append.mpr ⟨htrim.sorted, pairwise_singleton _ _, ?_⟩
    intro a ha c hc
    rw [mem_singleton.mp hc]
    exact hrecent a (mem_trim_discardedOrder ha)

theorem Gauged.remember (h : r.Remembers cfg) (hgauged : r.Gauged e b d) (id : UInt64) :
    (r.rememberDiscarded cfg id now).Gauged e b d := by
  unfold rememberDiscarded
  split
  · exact hgauged
  next hnew =>
  obtain ⟨hentries, hbytes, hdiscarded⟩ := hgauged.trim h
  refine ⟨hentries, hbytes, ?_⟩
  dsimp only
  rw [Finset.card_insert_of_notMem fun hmem => hnew (trim_discarded r hmem), hdiscarded]
  omega

theorem rememberChecked_eq (h : r.Remembers cfg) (hgauged : r.Gauged e b d) (id : UInt64) :
    r.rememberChecked cfg id now = some (r.rememberDiscarded cfg id now) := by
  unfold rememberChecked rememberDiscarded
  split
  · rfl
  · rw [trimChecked_eq h hgauged]
    rfl

theorem mem_remember_discardedOrder {id : UInt64} {x : Discarded}
    (hx : x ∈ (r.rememberDiscarded cfg id now).discardedOrder) :
    x ∈ r.discardedOrder ∨ x = ⟨id, now + reassemblyTimeout⟩ := by
  unfold rememberDiscarded at hx
  split at hx
  · exact .inl hx
  rcases mem_append.mp hx with hx | hx
  · exact .inl (mem_trim_discardedOrder hx)
  · exact .inr (mem_singleton.mp hx)

end Remember

/-! ### One turn of a loop -/

section Sound
variable {cfg : ReassemblyConfig} {now : Time} {e b d : ℕ} {r : Reassembler} {id : UInt64}

theorem Sound.tally (h : r.Sound cfg now e b d) {change : ReassemblyMetrics → ReassemblyMetrics}
    (hentries : (change r.metrics).activeEntries = r.metrics.activeEntries)
    (hbytes : (change r.metrics).activeBytes = r.metrics.activeBytes)
    (hdiscarded : (change r.metrics).discardedIds = r.metrics.discardedIds) :
    (r.tally change).Sound cfg now e b d where
  indexed := ⟨h.indexed.arrival, h.indexed.activity, h.indexed.total, h.indexed.sorted⟩
  bytes_le := h.bytes_le
  entries_le := h.entries_le
  remembers := h.remembers.tally change
  apart := h.apart
  recent := ⟨h.recent.live, h.recent.discarded⟩
  gauged := ⟨hentries.trans h.gauged.entries, hbytes.trans h.gauged.bytes,
    hdiscarded.trans h.gauged.discarded⟩

theorem Indexed.remember (h : r.Indexed) (id : UInt64) :
    (r.rememberDiscarded cfg id now).Indexed := by
  obtain ⟨harrival, hactivity, htotal⟩ := remember_pool cfg r id now
  have hentries := entries_rememberDiscarded cfg r id now
  obtain ⟨h₁, h₂, h₃, h₄⟩ := h
  refine ⟨?_, ?_, ?_, ?_⟩
  · rwa [harrival, hentries]
  · rwa [hactivity, hentries]
  · rwa [htotal, hentries]
  · rw [hactivity]
    simp only [live, hentries]
    exact h₄

theorem discarded_erase (r : Reassembler) (id : UInt64) :
    (r.erase id).discarded = r.discarded ∧ (r.erase id).discardedOrder = r.discardedOrder := by
  unfold Reassembler.erase
  split <;> exact ⟨rfl, rfl⟩

theorem live_drop_self (cfg : ReassemblyConfig) (r : Reassembler) (id : UInt64) (now : Time) :
    (r.drop cfg id now).live id = none := live_erase_self _ _

theorem live_drop_ne (cfg : ReassemblyConfig) (r : Reassembler) {id other : UInt64} (now : Time)
    (h : other ≠ id) : (r.drop cfg id now).live other = r.live other := by
  unfold drop
  rw [live_erase_ne _ h, live, entries_rememberDiscarded]

variable {entry : ReassemblyEntry} {ids : List UInt64}

theorem live_remember (other : UInt64) :
    (r.rememberDiscarded cfg id now).live other = r.live other := by
  rw [live, entries_rememberDiscarded]

theorem Recent.remember (h : r.Recent now) : (r.rememberDiscarded cfg id now).Recent now := by
  refine ⟨fun other x hx => h.live other x ((live_remember other).symm.trans hx), fun x hx => ?_⟩
  rcases mem_remember_discardedOrder hx with hx | rfl
  · exact h.discarded x hx
  · exact le_rfl

theorem sound_erase (hindexed : r.Indexed) (hbytes : r.totalBytes ≤ cfg.bytes)
    (hentries : r.entries.keys.length ≤ cfg.entries) (hremembers : r.Remembers cfg)
    (hapart : ∀ other ∈ r.discarded, other ≠ id → r.live other = none) (hrecent : r.Recent now)
    (hgauged : r.Gauged e b d) (hlive : r.live id = some entry) :
    (r.erase id).Sound cfg now e b d := by
  obtain ⟨hdiscarded, horder⟩ := discarded_erase r id
  refine ⟨hindexed.erase hlive, ?_, ?_, ?_, ?_, ?_, hgauged.erase hindexed hlive⟩
  · rw [erase_eq hlive]
    exact (Nat.sub_le _ _).trans hbytes
  · rw [erase_eq hlive]
    exact ((Nat.le_succ _).trans_eq (length_keys_erase hlive)).trans hentries
  · obtain ⟨h₁, h₂, h₃, h₄⟩ := hremembers
    refine ⟨?_, ?_, ?_, ?_⟩ <;> simp only [hdiscarded, horder] <;> assumption
  · intro other hother
    by_cases hid : other = id
    · rw [hid]
      exact live_erase_self r id
    · rw [live_erase_ne r hid]
      exact hapart other (hdiscarded ▸ hother) hid
  · refine ⟨fun other x hx => hrecent.live other x (keeps_erase r id other x hx), ?_⟩
    rw [horder]
    exact hrecent.discarded

theorem Sound.erase (h : r.Sound cfg now e b d) (hlive : r.live id = some entry) :
    (r.erase id).Sound cfg now e b d :=
  sound_erase h.indexed h.bytes_le h.entries_le h.remembers (fun other hother _ => h.apart other hother)
    h.recent h.gauged hlive

theorem Sound.drop (h : r.Sound cfg now e b d) (hlive : r.live id = some entry) :
    (r.drop cfg id now).Sound cfg now e b d := by
  refine sound_erase (h.indexed.remember id) ?_ ?_ (h.remembers.remember id h.recent.discarded) ?_
    h.recent.remember (h.gauged.remember h.remembers id) ((live_remember id).trans hlive)
  · rw [(remember_pool cfg r id now).2.2]
    exact h.bytes_le
  · rw [entries_rememberDiscarded]
    exact h.entries_le
  · intro other hother hid
    rw [live_remember]
    exact h.apart other (Finset.mem_of_mem_insert_of_ne
      (remember_discarded_subset cfg r id now hother) hid)

theorem Sound.remember (h : r.Sound cfg now e b d) (hlive : r.live id = none) :
    (r.rememberDiscarded cfg id now).Sound cfg now e b d := by
  refine ⟨h.indexed.remember id, ?_, ?_, h.remembers.remember id h.recent.discarded, ?_,
    h.recent.remember, h.gauged.remember h.remembers id⟩
  · rw [(remember_pool cfg r id now).2.2]
    exact h.bytes_le
  · rw [entries_rememberDiscarded]
    exact h.entries_le
  · intro other hother
    rw [live_remember]
    rcases Finset.mem_insert.mp (remember_discarded_subset cfg r id now hother) with rfl | hother
    · exact hlive
    · exact h.apart other hother

theorem Sound.dropChecked (h : r.Sound cfg now e b d) (hlive : r.live id = some entry) :
    r.dropChecked cfg id now = some (r.drop cfg id now) := by
  have hlive' : (r.rememberDiscarded cfg id now).live id = some entry := by
    rwa [live, entries_rememberDiscarded]
  unfold Reassembler.dropChecked
  rw [rememberChecked_eq h.remembers h.gauged, Option.bind_some,
    eraseChecked_eq (h.indexed.remember id) (h.gauged.remember h.remembers id) hlive']
  rfl

theorem orders_drop (h : r.live id = some entry) :
    (r.drop cfg id now).arrivalOrder = r.arrivalOrder.erase id ∧
      (r.drop cfg id now).activityOrder = r.activityOrder.erase id := by
  have hlive' : (r.rememberDiscarded cfg id now).live id = some entry := by
    rwa [live, entries_rememberDiscarded]
  obtain ⟨harrival, hactivity, -⟩ := remember_pool cfg r id now
  rw [Reassembler.drop, erase_eq hlive']
  exact ⟨congrArg (·.erase id) harrival, congrArg (·.erase id) hactivity⟩

theorem Sound.forgetOldest (h : r.Sound cfg now e b d) :
    r.forgetOldestDiscarded.Sound cfg now e b d := by
  have hgauged := h.gauged.forgetOldest h.remembers
  have hremembers := h.remembers.forgetOldest
  rcases hd : r.discardedOrder with _ | ⟨oldest, rest⟩
  · rwa [show r.forgetOldestDiscarded = r by simp only [forgetOldestDiscarded, hd]]
  simp only [forgetOldestDiscarded, hd] at hgauged hremembers ⊢
  refine ⟨⟨h.indexed.arrival, h.indexed.activity, h.indexed.total, h.indexed.sorted⟩, h.bytes_le,
    h.entries_le, hremembers, ?_, ⟨h.recent.live, ?_⟩, hgauged⟩
  · exact fun other hother => h.apart other (Finset.mem_of_mem_erase hother)
  · intro x hx
    refine h.recent.discarded x ?_
    rw [hd]
    exact mem_cons_of_mem _ hx

/-! ### The loops -/

theorem Sound.forgetExpired (h : r.Sound cfg now e b d) {records : List Discarded}
    (hrecords : r.discardedOrder = records) :
    (forgetExpired now records r).Sound cfg now e b d ∧
      forgetExpiredChecked now (records.length + 1) r = some (forgetExpired now records r) := by
  induction records generalizing r with
  | nil =>
    refine ⟨h, ?_⟩
    simp [forgetExpiredChecked, hrecords, Reassembler.forgetExpired]
  | cons oldest rest ih =>
    have horder : r.forgetOldestDiscarded.discardedOrder = rest := by
      rw [discardedOrder_forgetOldest, hrecords, tail_cons]
    have hchecked := forgetOldestChecked_eq h.remembers h.gauged
      (by rw [hrecords]; exact cons_ne_nil _ _)
    simp only [Reassembler.forgetExpired, forgetExpiredChecked, hrecords, length_cons]
    split
    · rw [hchecked]
      exact ih h.forgetOldest horder
    · exact ⟨h, rfl⟩

theorem Sound.expireEntries (h : r.Sound cfg now e b d) (hids : r.activityOrder = ids) :
    (expireEntries cfg now ids r).Sound cfg now e b d ∧
      expireChecked cfg now (ids.length + 1) r = some (expireEntries cfg now ids r) := by
  induction ids generalizing r with
  | nil =>
    refine ⟨h, ?_⟩
    simp [expireChecked, hids, Reassembler.expireEntries]
  | cons id rest ih =>
    have hmem : id ∈ r.entries.keys :=
      h.indexed.activity.subset (by rw [hids]; exact mem_cons_self)
    obtain ⟨oldest, holdest⟩ := live_of_mem_keys hmem
    have horder : (r.drop cfg id now).activityOrder = rest := by
      rw [(orders_drop holdest).2, hids, erase_cons_head]
    simp only [Reassembler.expireEntries, expireChecked, hids, length_cons,
      show r.entries.lookup id = some oldest from holdest, Option.bind_some]
    split
    · exact ⟨h, rfl⟩
    · rw [h.dropChecked holdest]
      exact ih ((h.drop holdest).tally rfl rfl rfl) horder

theorem Sound.cleanupExpired (h : r.Sound cfg now e b d) :
    (r.cleanupExpired cfg now).Sound cfg now e b d ∧
      r.cleanupChecked cfg now = some (r.cleanupExpired cfg now) := by
  obtain ⟨hforget, hchecked⟩ := h.forgetExpired rfl
  unfold cleanupChecked Reassembler.cleanupExpired
  rw [hchecked]
  exact hforget.expireEntries rfl

theorem Sound.evict (h : r.Sound cfg now e b d) {needed : ℕ} (hneeded : needed ≤ cfg.bytes)
    (hids : r.arrivalOrder = ids) :
    (evict cfg needed now ids r).Sound cfg now e b d ∧
      (evict cfg needed now ids r).full cfg needed = false ∧
      evictChecked cfg needed now (ids.length + 1) r = some (evict cfg needed now ids r) := by
  induction ids generalizing r with
  | nil =>
    have hkeys : r.entries.keys = [] := perm_nil.mp (hids ▸ h.indexed.arrival).symm
    have hentries : r.entries.entries = [] := map_eq_nil_iff.mp hkeys
    have htotal : r.totalBytes = 0 := by simp [h.indexed.total, weight, hentries]
    have hpos := cfg.entries_pos
    have hfull : r.full cfg needed = false := by
      simp only [full, hkeys, htotal, length_nil, Bool.or_eq_false_iff,
        decide_eq_false_iff_not]
      omega
    refine ⟨h, hfull, ?_⟩
    unfold full at hfull
    rw [evictChecked, subtract_of_le h.bytes_le, Option.bind_some, hfull]
    rfl
  | cons id rest ih =>
    have hmem : id ∈ r.entries.keys :=
      h.indexed.arrival.subset (by rw [hids]; exact mem_cons_self)
    obtain ⟨oldest, holdest⟩ := live_of_mem_keys hmem
    have horder : (r.drop cfg id now).arrivalOrder = rest := by
      rw [(orders_drop holdest).1, hids, erase_cons_head]
    rw [Reassembler.evict, evictChecked, subtract_of_le h.bytes_le, Option.bind_some, hids]
    by_cases hfull : r.full cfg needed
    · have hfull' := hfull
      unfold full at hfull'
      rw [if_pos hfull, if_pos hfull']
      dsimp only
      rw [h.dropChecked holdest]
      exact ih ((h.drop holdest).tally rfl rfl rfl) horder
    have hfull' := hfull
    unfold full at hfull'
    rw [if_neg hfull, if_neg hfull']
    exact ⟨h, Bool.not_eq_true _ ▸ hfull, rfl⟩

/-! ### Storing a fragment -/

theorem notMem_keys_of_live (h : r.live id = none) : id ∉ r.entries.keys := fun hmem => by
  obtain ⟨entry, hentry⟩ := live_of_mem_keys hmem
  rw [h] at hentry
  cases hentry

theorem Sound.openEntry (h : r.Sound cfg now e b d)
    (hfull : r.full cfg entry.originalLength = false) (hlive : r.live id = none)
    (hdiscarded : id ∉ r.discarded) (hnow : entry.lastUpdate = now) :
    (r.openEntry id entry).Sound cfg now e b d := by
  have hkeys : (r.entries.insert id entry).keys = id :: r.entries.keys := by
    rw [AList.keys_insert, erase_of_not_mem (notMem_keys_of_live hlive)]
  have hweight := weight_insert r.entries id entry
  rw [erase_of_lookup_none hlive] at hweight
  have htotal := h.indexed.total
  have hbytes := h.bytes_le
  simp only [full, Bool.or_eq_false_iff, decide_eq_false_iff_not, not_le, not_lt] at hfull
  have hother : ∀ other, other ≠ id → (r.openEntry id entry).live other = r.live other :=
    fun other hne => live_openEntry_ne r entry hne
  have hself : (r.openEntry id entry).live id = some entry := AList.lookup_insert r.entries
  refine ⟨⟨?_, ?_, ?_, ?_⟩, ?_, ?_, ?_, ?_, ⟨?_, ?_⟩, ⟨?_, ?_, ?_⟩⟩
  · exact (perm_append_singleton _ _).trans ((h.indexed.arrival.cons id).trans (.of_eq hkeys.symm))
  · exact (perm_append_singleton _ _).trans
      ((h.indexed.activity.cons id).trans (.of_eq hkeys.symm))
  · change r.totalBytes + entry.originalLength = weight (r.entries.insert id entry)
    omega
  · -- the new entry is the youngest
    have hnotin : ∀ a ∈ r.activityOrder, a ≠ id := by
      rintro a ha rfl
      exact notMem_keys_of_live hlive (h.indexed.activity.subset ha)
    refine pairwise_append.mpr ⟨?_, pairwise_singleton _ _, ?_⟩
    · refine h.indexed.sorted.imp_of_mem ?_
      intro a c ha hc hle x hx y hy
      rw [hother a (hnotin a ha)] at hx
      rw [hother c (hnotin c hc)] at hy
      exact hle x hx y hy
    · intro a ha c hc x hx y hy
      rw [mem_singleton.mp hc, hself] at hy
      rw [hother a (hnotin a ha)] at hx
      rw [← Option.some.inj hy, hnow]
      exact h.recent.live a x hx
  · change r.totalBytes + entry.originalLength ≤ cfg.bytes
    omega
  · change (r.entries.insert id entry).keys.length ≤ cfg.entries
    rw [hkeys]
    exact hfull.1
  · exact ⟨h.remembers.same, h.remembers.nodup, h.remembers.limit, h.remembers.sorted⟩
  · intro other hmem
    rw [hother other (fun heq => hdiscarded (heq ▸ hmem))]
    exact h.apart other hmem
  · intro other x hx
    by_cases hid : other = id
    · rw [hid, hself] at hx
      rw [← Option.some.inj hx, hnow]
    · rw [hother other hid] at hx
      exact h.recent.live other x hx
  · exact h.recent.discarded
  · change r.metrics.activeEntries + 1 = e + (r.entries.insert id entry).keys.length
    rw [hkeys, h.gauged.entries]
    rfl
  · change r.metrics.activeBytes + entry.originalLength = b + (r.totalBytes + entry.originalLength)
    rw [h.gauged.bytes]
    omega
  · exact h.gauged.discarded

theorem Sound.update (h : r.Sound cfg now e b d) {old : ReassemblyEntry}
    (hlive : r.live id = some old) (hlength : entry.originalLength = old.originalLength)
    (hnow : entry.lastUpdate = now) : (r.update id entry).Sound cfg now e b d := by
  have hmem := mem_keys_of_live hlive
  have hkeys : (r.entries.insert id entry).keys.Perm r.entries.keys := by
    rw [AList.keys_insert]
    exact (perm_cons_erase hmem).symm
  have hweight : weight (r.entries.insert id entry) = weight r.entries := by
    rw [weight_insert, ← weight_erase hlive, hlength]
    omega
  have hother : ∀ other, other ≠ id → (r.update id entry).live other = r.live other :=
    fun other hne => live_update_ne r entry hne
  have hself := live_update_self r id entry
  refine ⟨⟨?_, ?_, ?_, ?_⟩, h.bytes_le, ?_, ?_, ?_, ⟨?_, h.recent.discarded⟩,
    ⟨?_, h.gauged.bytes, h.gauged.discarded⟩⟩
  · exact h.indexed.arrival.trans hkeys.symm
  · have hactivity : id ∈ r.activityOrder := h.indexed.activity.symm.subset hmem
    exact ((perm_append_singleton _ _).trans (perm_cons_erase hactivity).symm).trans
      (h.indexed.activity.trans hkeys.symm)
  · exact h.indexed.total.trans hweight.symm
  · have hnodup : r.activityOrder.Nodup :=
      h.indexed.activity.nodup_iff.mpr (AList.keys_nodup r.entries)
    have hnotin : ∀ a ∈ r.activityOrder.erase id, a ≠ id := by
      rintro a ha rfl
      exact hnodup.not_mem_erase ha
    refine pairwise_append.mpr ⟨?_, pairwise_singleton _ _, ?_⟩
    · refine (h.indexed.sorted.sublist erase_sublist).imp_of_mem ?_
      intro a c ha hc hle x hx y hy
      rw [hother a (hnotin a ha)] at hx
      rw [hother c (hnotin c hc)] at hy
      exact hle x hx y hy
    · intro a ha c hc x hx y hy
      rw [mem_singleton.mp hc, hself] at hy
      rw [hother a (hnotin a ha)] at hx
      rw [← Option.some.inj hy, hnow]
      exact h.recent.live a x hx
  · exact (hkeys.length_eq).trans_le h.entries_le
  · exact ⟨h.remembers.same, h.remembers.nodup, h.remembers.limit, h.remembers.sorted⟩
  · intro other hmem'
    have hnone := h.apart other hmem'
    rw [hother other]
    · exact hnone
    · rintro rfl
      rw [hlive] at hnone
      cases hnone
  · intro other x hx
    by_cases hid : other = id
    · rw [hid, hself] at hx
      rw [← Option.some.inj hx, hnow]
    · rw [hother other hid] at hx
      exact h.recent.live other x hx
  · exact h.gauged.entries.trans (congrArg (e + ·) hkeys.length_eq.symm)

variable {fragment : Packet}

theorem Sound.store (h : r.Sound cfg now e b d) (hlive : r.live fragment.messageId = some entry)
    (opened : Bool) :
    (r.store cfg entry fragment now opened).1.Sound cfg now e b d ∧
      r.storeChecked cfg entry fragment now opened =
        some (r.store cfg entry fragment now opened) := by
  unfold Reassembler.store storeChecked
  split
  · have htally : (r.tally fun m => { m with invalidFragments := m.invalidFragments + 1 }).Sound
        cfg now e b d := h.tally rfl rfl rfl
    exact ⟨htally.drop hlive, by rw [htally.dropChecked hlive]; rfl⟩
  split
  · refine ⟨?_, rfl⟩
    dsimp only
    exact h.tally rfl rfl rfl
  have hupdate : (r.update fragment.messageId (entry.add fragment now)).Sound cfg now e b d :=
    h.update hlive rfl rfl
  have hself := live_update_self r fragment.messageId (entry.add fragment now)
  dsimp only
  split
  · exact ⟨hupdate, rfl⟩
  refine ⟨?_, ?_⟩
  · dsimp only
    exact (hupdate.erase hself).tally rfl rfl rfl
  · rw [eraseChecked_eq hupdate.indexed hupdate.gauged hself]
    rfl

theorem evict_discarded (cfg : ReassemblyConfig) (needed : ℕ) (now : Time) (hids : id ∉ ids)
    (h : id ∉ r.discarded) : id ∉ (evict cfg needed now ids r).discarded := by
  induction ids generalizing r with
  | nil => exact h
  | cons oldest rest ih =>
    rw [mem_cons, not_or] at hids
    rw [Reassembler.evict]
    split
    · refine ih hids.2 fun hmem => ?_
      have hdrop : id ∈ (r.drop cfg oldest now).discarded := hmem
      rw [Reassembler.drop, (discarded_erase _ _).1] at hdrop
      rcases Finset.mem_insert.mp (remember_discarded_subset cfg r oldest now hdrop) with heq | hmem
      · exact hids.1 heq
      · exact h hmem
    · exact h

theorem Sound.acceptPart (h : r.Sound cfg now e b d) :
    (r.acceptPart cfg fragment now).1.Sound cfg now e b d ∧
      r.acceptPartChecked cfg fragment now = some (r.acceptPart cfg fragment now) := by
  unfold Reassembler.acceptPart acceptPartChecked
  split
  · refine ⟨?_, rfl⟩
    dsimp only
    exact h.tally rfl rfl rfl
  next hdiscarded =>
  rcases hlookup : r.entries.lookup fragment.messageId with _ | entry
  · dsimp only
    split
    · have htally : (r.tally fun m => { m with capacityDrops := m.capacityDrops + 1 }).Sound
          cfg now e b d := h.tally rfl rfl rfl
      refine ⟨htally.remember hlookup, ?_⟩
      rw [rememberChecked_eq htally.remembers htally.gauged]
      rfl
    next hfits =>
    obtain ⟨hevict, hroom, hchecked⟩ := h.evict (not_lt.mp hfits) rfl
    have hnone : (Reassembler.evict cfg fragment.originalLength.toNat now r.arrivalOrder r).live
        fragment.messageId = none := by
      refine Option.eq_none_iff_forall_ne_some.mpr fun entry hentry => ?_
      have hlive := keeps_evict _ _ _ _ _ _ entry hentry
      rw [live, hlookup] at hlive
      cases hlive
    have hnotin : fragment.messageId ∉ r.arrivalOrder := fun hmem =>
      notMem_keys_of_live hlookup (h.indexed.arrival.subset hmem)
    have hopen := @Sound.openEntry cfg now e b d _ fragment.messageId
      (.fresh fragment now) hevict hroom hnone (evict_discarded cfg _ now hnotin hdiscarded) rfl
    rw [← h.indexed.arrival.length_eq, hchecked]
    exact hopen.store (AList.lookup_insert _) true
  · exact h.store hlookup false

theorem Sound.accept (h : r.Sound cfg now e b d) :
    (r.accept cfg fragment now).1.Sound cfg now e b d ∧
      r.acceptChecked cfg fragment now = some (r.accept cfg fragment now) := by
  unfold Reassembler.accept acceptChecked
  split
  · refine ⟨?_, rfl⟩
    dsimp only
    exact h.tally rfl rfl rfl
  split
  · exact ⟨h, rfl⟩
  · rw [h.cleanupExpired.2]
    exact h.cleanupExpired.1.acceptPart

end Sound

end Reassembler

/-! ### The entries -/

def FragmentRange.piece (range : FragmentRange) : Piece Unit :=
  ⟨range.begin, List.replicate range.length ()⟩

theorem sum_length_le {n : ℕ} {ranges : List FragmentRange}
    (hinside : ∀ range ∈ ranges, range.begin < range.finish ∧ range.finish ≤ n)
    (hapart : ranges.Pairwise fun a b => a.overlaps b = false) :
    (ranges.map FragmentRange.length).sum ≤ n := by
  have hfinish : ∀ range ∈ ranges, range.piece.finish = range.finish := by
    intro range hrange
    have := hinside range hrange
    simp only [FragmentRange.piece, Piece.finish, length_replicate, FragmentRange.length]
    omega
  have hpieces : (ranges.map FragmentRange.piece).Pairwise Piece.Apart := by
    rw [pairwise_map]
    refine hapart.imp_of_mem ?_
    intro a c ha hc hac
    rw [Piece.Apart, Finset.disjoint_left]
    intro pos hpos hpos'
    rw [Piece.mem_span, hfinish a ha] at hpos
    rw [Piece.mem_span, hfinish c hc] at hpos'
    simp only [FragmentRange.overlaps, Bool.and_eq_false_iff, decide_eq_false_iff_not] at hac
    simp only [FragmentRange.piece] at hpos hpos'
    omega
  have htotal : total (ranges.map FragmentRange.piece) = (ranges.map FragmentRange.length).sum := by
    simp [total, FragmentRange.piece, Function.comp_def]
  rw [← htotal, ← card_covered hpieces]
  refine (Finset.card_le_card ?_).trans_eq (Finset.card_range n)
  intro pos hpos
  obtain ⟨p, hp, hmem⟩ := mem_covered.mp hpos
  obtain ⟨range, hrange, rfl⟩ := mem_map.mp hp
  rw [Piece.mem_span, hfinish range hrange] at hmem
  exact Finset.mem_range.mpr (hmem.2.trans_le (hinside range hrange).2)

theorem FragmentRange.overlaps_comm (a b : FragmentRange) : a.overlaps b = b.overlaps a := by
  rw [FragmentRange.overlaps, FragmentRange.overlaps, Bool.and_comm]

theorem ReassemblyEntry.inv_add {entry : ReassemblyEntry} {fragment : Packet} {n : ℕ} (now : Time)
    (hinv : entry.ranges = [] ∧ entry.receivedBytes = 0 ∨ entry.Inv)
    (hvalid : fragment.invalidFor n = false)
    (hlength : entry.originalLength = fragment.originalLength.toNat)
    (hapart : ∀ range ∈ entry.ranges, fragment.range.overlaps range = false)
    (hpartly : (entry.add fragment now).receivedBytes ≠ (entry.add fragment now).originalLength) :
    (entry.add fragment now).Inv := by
  obtain ⟨-, -, -, hpayload, hend⟩ := invalidFor_eq_false hvalid
  have hpos : fragment.range.begin < fragment.range.finish :=
    Nat.lt_add_of_pos_right (length_pos_iff.mpr hpayload)
  have hinside : ∀ range ∈ (entry.add fragment now).ranges,
      range.begin < range.finish ∧ range.finish ≤ entry.originalLength := by
    intro range hrange
    rcases mem_append.mp hrange with hrange | hrange
    · rcases hinv with ⟨hnil, -⟩ | hinv
      · rw [hnil] at hrange
        cases hrange
      · exact hinv.inside range hrange
    · rw [mem_singleton.mp hrange, hlength]
      exact ⟨hpos, hend⟩
  have hpairwise : (entry.add fragment now).ranges.Pairwise fun a b => a.overlaps b = false := by
    refine pairwise_append.mpr ⟨?_, pairwise_singleton _ _, ?_⟩
    · rcases hinv with ⟨hnil, -⟩ | hinv
      · rw [hnil]
        exact .nil
      · exact hinv.apart
    · intro a ha c hc
      rw [mem_singleton.mp hc, FragmentRange.overlaps_comm]
      exact hapart a ha
  have hreceived : (entry.add fragment now).receivedBytes =
      ((entry.add fragment now).ranges.map FragmentRange.length).sum := by
    have hold : entry.receivedBytes = (entry.ranges.map FragmentRange.length).sum := by
      rcases hinv with ⟨hnil, hzero⟩ | hinv
      · rw [hnil, hzero]
        rfl
      · exact hinv.received
    simp only [ReassemblyEntry.add, map_append, map_cons, map_nil, sum_append,
      sum_cons, sum_nil, hold, FragmentRange.length, Packet.range]
    omega
  refine ⟨?_, hinside, hpairwise, hreceived, ?_⟩
  · exact append_ne_nil_of_right_ne_nil _ (cons_ne_nil _ _)
  · refine lt_of_le_of_ne ?_ hpartly
    rw [hreceived]
    exact sum_length_le hinside hpairwise

namespace Reassembler

section Entries
variable {cfg : ReassemblyConfig} {now : Time} {r : Reassembler} {fragment : Packet}

theorem store_entries {entry : ReassemblyEntry}
    (hvalid : fragment.invalidFor cfg.maximumPacketSize = false)
    (hlive : r.live fragment.messageId = some entry)
    (hinv : entry.ranges = [] ∧ entry.receivedBytes = 0 ∨ entry.Inv)
    (hothers : ∀ id e, id ≠ fragment.messageId → r.live id = some e → e.Inv) (opened : Bool) :
    ∀ id e, (r.store cfg entry fragment now opened).1.live id = some e → e.Inv := by
  unfold store
  split
  · intro id e he
    by_cases hid : id = fragment.messageId
    · rw [hid, live_drop_self] at he
      cases he
    · rw [live_drop_ne _ _ _ hid] at he
      exact hothers id e hid he
  next hmatch =>
  rw [not_or, not_not] at hmatch
  split
  next hoverlap =>
    intro id e he
    have he' : r.live id = some e := he
    by_cases hid : id = fragment.messageId
    · rw [hid, hlive, Option.some.injEq] at he'
      rcases hinv with ⟨hnil, -⟩ | hinv
      · rw [hnil] at hoverlap
        cases hoverlap
      · rwa [← he']
    · exact hothers id e hid he'
  next hoverlap =>
  dsimp only
  split
  next hpartly =>
    intro id e he
    by_cases hid : id = fragment.messageId
    · rw [hid, live_update_self, Option.some.injEq] at he
      rw [← he]
      exact ReassemblyEntry.inv_add now hinv hvalid hmatch.1 (by simpa using hoverlap) hpartly
    · rw [live_update_ne _ _ hid] at he
      exact hothers id e hid he
  intro id e he
  have he' : ((r.update fragment.messageId (entry.add fragment now)).erase
    fragment.messageId).live id = some e := he
  by_cases hid : id = fragment.messageId
  · rw [hid, live_erase_self] at he'
    cases he'
  · rw [live_erase_ne _ hid, live_update_ne _ _ hid] at he'
    exact hothers id e hid he'

theorem accept_entries (h : ∀ id e, r.live id = some e → e.Inv) :
    ∀ id e, (r.accept cfg fragment now).1.live id = some e → e.Inv := by
  unfold accept
  split
  · exact h
  next hvalid =>
  rw [Bool.not_eq_true] at hvalid
  split
  · exact h
  have hclean : ∀ id e, (r.cleanupExpired cfg now).live id = some e → e.Inv :=
    fun id e he => h id e (keeps_cleanupExpired cfg r now id e he)
  unfold acceptPart
  split
  · exact hclean
  split
  next entry hentry =>
    exact store_entries hvalid hentry (.inr (hclean _ _ hentry)) (fun id e _ => hclean id e) _
  split
  · intro id e he
    refine hclean id e ?_
    rwa [live, entries_rememberDiscarded] at he
  refine store_entries hvalid (AList.lookup_insert _) (.inl ⟨rfl, rfl⟩) ?_ _
  intro id e hid he
  rw [live_openEntry_ne _ _ hid] at he
  exact hclean id e (keeps_evict _ _ _ _ _ id e he)

/-! ### What a refused fragment leaves alone -/

variable {e : ReassemblyEntry} {id : UInt64}

theorem expireEntries_survives (cfg : ReassemblyConfig) (now : Time) (ids : List UInt64)
    (h : r.live id = some e) :
    (expireEntries cfg now ids r).live id = some e ∨ reassemblyTimeout ≤ now - e.lastUpdate := by
  induction ids generalizing r with
  | nil => exact .inl h
  | cons oldest rest ih =>
    rw [expireEntries]
    split
    · exact .inl h
    next entry hentry =>
    split
    · exact .inl h
    next hlate =>
    by_cases hid : id = oldest
    · rw [← hid, show r.entries.lookup id = some e from h, Option.some.injEq] at hentry
      rw [hentry]
      exact .inr (not_lt.mp hlate)
    · exact ih ((live_drop_ne cfg r now hid).trans h)

theorem cleanupExpired_survives (cfg : ReassemblyConfig) (now : Time) (h : r.live id = some e) :
    (r.cleanupExpired cfg now).live id = some e ∨ reassemblyTimeout ≤ now - e.lastUpdate := by
  refine expireEntries_survives cfg now _ ?_
  rwa [live, entries_forgetExpired]

theorem store_refused {entry : ReassemblyEntry} {opened : Bool}
    (h : (r.store cfg entry fragment now opened).2.refused) (hid : id ≠ fragment.messageId) :
    (r.store cfg entry fragment now opened).1.live id = r.live id := by
  unfold store at h ⊢
  split
  · exact live_drop_ne cfg _ now hid
  next hmatch =>
  rw [if_neg hmatch] at h
  split
  · rfl
  next hoverlap =>
  rw [if_neg hoverlap] at h
  dsimp only at h
  split at h <;> cases h

theorem store_fresh_not_refused (r : Reassembler) (fragment : Packet) (now : Time) :
    (r.store cfg (.fresh fragment now) fragment now true).2.refused = false := by
  have hlimit : 0 < fragment.type.fragmentLimit := by
    unfold PacketType.fragmentLimit
    split <;> decide
  have hmatch : ¬((ReassemblyEntry.fresh fragment now).originalLength ≠ fragment.originalLength.toNat ∨
      fragment.type.fragmentLimit ≤ (ReassemblyEntry.fresh fragment now).ranges.length) :=
    not_or.mpr ⟨not_not.mpr rfl, not_le.mpr hlimit⟩
  unfold store
  rw [if_neg hmatch, if_neg (by simp [ReassemblyEntry.fresh])]
  dsimp only
  split <;> rfl

/-- A fragment that is not taken costs no other message its place: what is gone had expired. -/
theorem accept_refused (h : (r.accept cfg fragment now).2.refused) (hid : id ≠ fragment.messageId)
    (hlive : r.live id = some e) :
    (r.accept cfg fragment now).1.live id = some e ∨ reassemblyTimeout ≤ now - e.lastUpdate := by
  unfold accept at h ⊢
  split
  · exact .inl hlive
  next hvalid =>
  rw [if_neg hvalid] at h
  split
  · exact .inl hlive
  next hpart =>
  rw [if_neg hpart] at h
  refine (cleanupExpired_survives cfg now hlive).imp_left fun hclean => ?_
  rw [← hclean]
  unfold acceptPart at h ⊢
  split
  · rfl
  next hdiscarded =>
  rw [if_neg hdiscarded] at h
  split
  next entry hentry =>
    simp only [hentry] at h
    exact store_refused h hid
  next hnone =>
  simp only [hnone] at h
  split
  · rw [live, entries_rememberDiscarded]
    rfl
  next hfits =>
  rw [if_neg hfits, store_fresh_not_refused] at h
  cases h

end Entries

end Reassembler

/-! ### Reassemblers that share their metrics -/

/-- The active and the previous sessions of a tunnel count into one `ReassemblyMetrics`. -/
structure ReassemblerGroup where
  metrics : ReassemblyMetrics := {}
  members : List (ReassemblyConfig × Reassembler) := []

inductive GroupOp
  | create (cfg : ReassemblyConfig)
  | call (i : ℕ) (op : ReassemblyOp)
  | destroy (i : ℕ)

def ReassemblyOp.time : ReassemblyOp → Time
  | .accept _ now => now
  | .cleanup now => now

def GroupOp.time : GroupOp → Option Time
  | .call _ op => some op.time
  | _ => none

def ReassemblyMetrics.retire (m : ReassemblyMetrics) (r : Reassembler) : ReassemblyMetrics :=
  { m with
    activeEntries := m.activeEntries - r.entries.keys.length
    activeBytes := m.activeBytes - r.totalBytes
    discardedIds := m.discardedIds - r.discarded.card
    sessionDiscardedEntries := m.sessionDiscardedEntries + r.entries.keys.length }

def groupStep (g : ReassemblerGroup) : GroupOp → ReassemblerGroup × Option AcceptOutcome
  | .create cfg => ({ g with members := g.members ++ [(cfg, {})] }, none)
  | .call i op =>
    match g.members[i]? with
    | none => (g, none)
    | some (cfg, r) =>
      let done := reassemblyStep cfg { r with metrics := g.metrics } op
      (⟨done.1.metrics, g.members.set i (cfg, done.1)⟩, done.2)
  | .destroy i =>
    match g.members[i]? with
    | none => (g, none)
    | some (_, r) => (⟨g.metrics.retire r, g.members.eraseIdx i⟩, none)

abbrev GroupHistory := List (GroupOp × Option AcceptOutcome)

abbrev GroupTrace := Transition.Trace groupStep ({} : ReassemblerGroup)

def clock (past : GroupHistory) : List Time := past.filterMap fun call => call.1.time

namespace ReassemblerGroup

def sum (g : ReassemblerGroup) (f : Reassembler → ℕ) : ℕ := (g.members.map fun m => f m.2).sum

structure Gauges (g : ReassemblerGroup) : Prop where
  entries : g.metrics.activeEntries = g.sum fun r => r.entries.keys.length
  bytes : g.metrics.activeBytes = g.sum Reassembler.totalBytes
  discarded : g.metrics.discardedIds = g.sum fun r => r.discarded.card

/-- The invariant of a history that ends at some time before `now`. -/
structure Inv (past : GroupHistory) (g : ReassemblerGroup) : Prop where
  members : ∀ m ∈ g.members, m.2.Inv m.1
  recent : ∀ now, (∀ t ∈ clock past, t ≤ now) → ∀ m ∈ g.members, m.2.Recent now
  gauges : g.Gauges

section Step
variable {past : GroupHistory} {g : ReassemblerGroup}

theorem exists_split {α : Type} {l : List α} {i : ℕ} {x : α} (h : l[i]? = some x) :
    ∃ before after, l = before ++ x :: after ∧ (∀ y, l.set i y = before ++ y :: after) ∧
      l.eraseIdx i = before ++ after := by
  obtain ⟨hi, rfl⟩ := List.getElem?_eq_some_iff.mp h
  refine ⟨l.take i, l.drop (i + 1), ?_, ?_, ?_⟩
  · rw [← drop_eq_getElem_cons hi, take_append_drop]
  · intro y
    rw [set_eq_take_append_cons_drop, if_pos hi]
  · exact eraseIdx_eq_take_drop_succ l i

variable {cfg : ReassemblyConfig} {outcome : Option AcceptOutcome}

theorem Inv.sound (h : Inv past g) {before after : List (ReassemblyConfig × Reassembler)}
    {r : Reassembler} (hsplit : g.members = before ++ (cfg, r) :: after) {now : Time}
    (hnow : ∀ t ∈ clock past, t ≤ now) :
    ({ r with metrics := g.metrics } : Reassembler).Sound cfg now
      ((⟨g.metrics, before ++ after⟩ : ReassemblerGroup).sum fun r => r.entries.keys.length)
      ((⟨g.metrics, before ++ after⟩ : ReassemblerGroup).sum Reassembler.totalBytes)
      ((⟨g.metrics, before ++ after⟩ : ReassemblerGroup).sum fun r => r.discarded.card) := by
  have hmem : (cfg, r) ∈ g.members := by simp [hsplit]
  have hinv := h.members _ hmem
  have hrecent := h.recent now hnow _ hmem
  refine ⟨⟨hinv.indexed.arrival, hinv.indexed.activity, hinv.indexed.total, hinv.indexed.sorted⟩,
    hinv.bytes_le, hinv.entries_le,
    ⟨hinv.remembers.same, hinv.remembers.nodup, hinv.remembers.limit, hinv.remembers.sorted⟩,
    hinv.apart, ⟨hrecent.live, hrecent.discarded⟩, ⟨?_, ?_, ?_⟩⟩
  · rw [h.gauges.entries]
    simp only [sum, hsplit, map_append, map_cons, sum_append, sum_cons]
    omega
  · rw [h.gauges.bytes]
    simp only [sum, hsplit, map_append, map_cons, sum_append, sum_cons]
    omega
  · rw [h.gauges.discarded]
    simp only [sum, hsplit, map_append, map_cons, sum_append, sum_cons]
    omega

theorem reassemblyStep_sound {r : Reassembler} {op : ReassemblyOp} {e b d : ℕ}
    (h : r.Sound cfg op.time e b d) : (reassemblyStep cfg r op).1.Sound cfg op.time e b d := by
  cases op with
  | accept fragment now => exact h.accept.1
  | cleanup now => exact h.cleanupExpired.1

theorem reassemblyStep_entries {r : Reassembler} (op : ReassemblyOp)
    (h : ∀ id e, r.live id = some e → e.Inv) :
    ∀ id e, (reassemblyStep cfg r op).1.live id = some e → e.Inv := by
  cases op with
  | accept fragment now => exact Reassembler.accept_entries h
  | cleanup now => exact fun id e he => h id e (Reassembler.keeps_cleanupExpired cfg r now id e he)

theorem Inv.call (h : Inv past g) (i : ℕ) (op : ReassemblyOp)
    (hnow : ∀ t ∈ clock past, t ≤ op.time) :
    Inv ((.call i op, outcome) :: past) (groupStep g (.call i op)).1 := by
  have hrecent : ∀ now, (∀ t ∈ clock ((GroupOp.call i op, outcome) :: past), t ≤ now) →
      op.time ≤ now ∧ ∀ t ∈ clock past, t ≤ now := by
    intro now hall
    rw [clock, filterMap_cons, GroupOp.time] at hall
    exact ⟨hall _ mem_cons_self, fun t ht => hall t (mem_cons_of_mem _ ht)⟩
  rw [groupStep]
  split
  next heq => exact ⟨h.members, fun now hall => h.recent now (hrecent now hall).2, h.gauges⟩
  next cfg r heq =>
  obtain ⟨before, after, hsplit, hset, -⟩ := exists_split heq
  have hmem : (cfg, r) ∈ g.members := by simp [hsplit]
  have hsound := reassemblyStep_sound (h.sound hsplit hnow)
  have hentries : ∀ id e, (reassemblyStep cfg { r with metrics := g.metrics } op).1.live id = some e →
      e.Inv := reassemblyStep_entries op (h.members _ hmem).entry
  dsimp only
  rw [hset]
  generalize (reassemblyStep cfg { r with metrics := g.metrics } op).1 = r' at hsound hentries
  have hothers : ∀ m ∈ before ++ (cfg, r') :: after, m = (cfg, r') ∨ m ∈ g.members := by
    intro m hm
    rw [hsplit]
    simp only [mem_append, mem_cons] at hm ⊢
    tauto
  refine ⟨?_, ?_, ⟨?_, ?_, ?_⟩⟩
  · intro m hm
    rcases hothers m hm with rfl | hm
    · exact ⟨hsound.indexed, hsound.bytes_le, hsound.entries_le, hsound.remembers, hsound.apart,
        hentries⟩
    · exact h.members m hm
  · intro now hall m hm
    rcases hothers m hm with rfl | hm
    · exact hsound.recent.mono (hrecent now hall).1
    · exact h.recent now (hrecent now hall).2 m hm
  · have hgauge := hsound.gauged.entries
    simp only [sum, map_append, map_cons, sum_append, sum_cons] at hgauge ⊢
    omega
  · have hgauge := hsound.gauged.bytes
    simp only [sum, map_append, map_cons, sum_append, sum_cons] at hgauge ⊢
    omega
  · have hgauge := hsound.gauged.discarded
    simp only [sum, map_append, map_cons, sum_append, sum_cons] at hgauge ⊢
    omega

theorem Inv.create (h : Inv past g) (cfg : ReassemblyConfig) :
    Inv ((.create cfg, outcome) :: past) (groupStep g (.create cfg)).1 := by
  have hnew : ∀ m ∈ g.members ++ [(cfg, ({} : Reassembler))], m ∈ g.members ∨ m = (cfg, {}) := by
    intro m hm
    simpa using hm
  have hlive : ∀ id e, ({} : Reassembler).live id ≠ some e := fun id e he => by
    rw [Reassembler.live, AList.lookup_empty] at he
    cases he
  refine ⟨?_, ?_, ⟨?_, ?_, ?_⟩⟩
  · intro m hm
    rcases hnew m hm with hm | rfl
    · exact h.members m hm
    refine ⟨⟨.nil, .nil, rfl, .nil⟩, Nat.zero_le _, Nat.zero_le _, ⟨rfl, .nil, Nat.zero_le _, .nil⟩,
      ?_, fun id e he => absurd he (hlive id e)⟩
    exact fun id hid => absurd hid (Finset.notMem_empty id)
  · intro now hall m hm
    rcases hnew m hm with hm | rfl
    · exact h.recent now hall m hm
    · exact ⟨fun id e he => absurd he (hlive id e), fun d hd => absurd hd not_mem_nil⟩
  · rw [groupStep, h.gauges.entries]
    simp [sum]
  · rw [groupStep, h.gauges.bytes]
    simp [sum]
  · rw [groupStep, h.gauges.discarded]
    simp [sum]

theorem Inv.destroy (h : Inv past g) (i : ℕ) :
    Inv ((.destroy i, outcome) :: past) (groupStep g (.destroy i)).1 := by
  rw [groupStep]
  split
  · exact ⟨h.members, h.recent, h.gauges⟩
  next cfg r heq =>
  obtain ⟨before, after, hsplit, -, herase⟩ := exists_split heq
  rw [herase]
  have hmem : ∀ m ∈ before ++ after, m ∈ g.members := by
    intro m hm
    rw [hsplit]
    simp only [mem_append, mem_cons] at hm ⊢
    tauto
  refine ⟨fun m hm => h.members m (hmem m hm), fun now hall m hm => h.recent now hall m (hmem m hm),
    ⟨?_, ?_, ?_⟩⟩
  · have hgauge := h.gauges.entries
    simp only [sum, hsplit, ReassemblyMetrics.retire, map_append, map_cons,
      sum_append, sum_cons] at hgauge ⊢
    omega
  · have hgauge := h.gauges.bytes
    simp only [sum, hsplit, ReassemblyMetrics.retire, map_append, map_cons,
      sum_append, sum_cons] at hgauge ⊢
    omega
  · have hgauge := h.gauges.discarded
    simp only [sum, hsplit, ReassemblyMetrics.retire, map_append, map_cons,
      sum_append, sum_cons] at hgauge ⊢
    omega

theorem inv_of_trace (h : GroupTrace past g) (htime : (clock past).Pairwise (· ≥ ·)) :
    Inv past g := by
  refine Transition.Trace.invariant (fun past g => (clock past).Pairwise (· ≥ ·) → Inv past g)
    ?_ ?_ h htime
  · refine fun _ => ⟨?_, ?_, ⟨rfl, rfl, rfl⟩⟩
    · exact fun m hm => absurd hm not_mem_nil
    · exact fun _ _ m hm => absurd hm not_mem_nil
  · intro past g op _ ih htime
    cases op with
    | create cfg => exact (ih htime).create cfg
    | destroy i => exact (ih htime).destroy i
    | call i op =>
      rw [clock, filterMap_cons, GroupOp.time, pairwise_cons] at htime
      exact (ih htime.2).call i op htime.1

end Step

end ReassemblerGroup

/-- However fragments, cleanups, new and retired reassemblers follow each other in time:
every reassembler keeps its representation, the shared gauges are the sums over those
alive, the loops of the next call end without a subtraction below zero, and a fragment
that is not taken takes no other message out of the pool. -/
theorem reassembler_invariant {past : GroupHistory} {g : ReassemblerGroup} (h : GroupTrace past g)
    (htime : (clock past).Pairwise (· ≥ ·)) :
    (∀ m ∈ g.members, m.2.Inv m.1) ∧ g.Gauges ∧
      ∀ m ∈ g.members, ∀ now, (∀ t ∈ clock past, t ≤ now) →
        let r : Reassembler := { m.2 with metrics := g.metrics }
        r.cleanupChecked m.1 now = some (r.cleanupExpired m.1 now) ∧
          ∀ fragment, r.acceptChecked m.1 fragment now = some (r.accept m.1 fragment now) ∧
            ((r.accept m.1 fragment now).2.refused → ∀ id e, id ≠ fragment.messageId →
              r.live id = some e → (r.accept m.1 fragment now).1.live id = some e ∨
                reassemblyTimeout ≤ now - e.lastUpdate) := by
  have hinv := ReassemblerGroup.inv_of_trace h htime
  refine ⟨hinv.members, hinv.gauges, ?_⟩
  intro m hm now hnow r
  obtain ⟨i, hi⟩ := List.mem_iff_getElem?.mp hm
  obtain ⟨before, after, hsplit, -, -⟩ := ReassemblerGroup.exists_split hi
  have hsound := hinv.sound hsplit hnow
  refine ⟨hsound.cleanupExpired.2, fun fragment => ⟨hsound.accept.2, ?_⟩⟩
  exact fun hrefused id e hid hlive => Reassembler.accept_refused hrefused hid hlive

def sampleGroupConfig : ReassemblyConfig :=
  { maximumPacketSize := 100, entries := 1, bytes := 10, discardedIds := 1 }

/-- Two reassemblers; the second message of the first one takes the place of the first. -/
def sampleGroupOps : List GroupOp :=
  [.create sampleGroupConfig,
    .call 0 (.accept { messageId := 1, originalLength := 4, payload := [1, 2] } 5),
    .create sampleGroupConfig,
    .call 1 (.accept { messageId := 1, originalLength := 8, payload := [3, 4, 5] } 6),
    .call 0 (.accept { messageId := 2, originalLength := 9, payload := [6] } 7)]

theorem reassembler_invariant_sample :
    let g := (Transition.run groupStep {} sampleGroupOps).2
    g.metrics.capacityEvictions = 1 ∧ g.metrics.activeBytes = 17 ∧
      (∀ m ∈ g.members, m.2.Inv m.1) ∧ g.Gauges := by
  have h := reassembler_invariant (Transition.trace_run sampleGroupOps) (by decide)
  exact ⟨by decide +kernel, by decide +kernel, h.1, h.2.1⟩

end Tuntom
