import Tuntom.Packet
import Tuntom.Transition

/-! `LruCache`: an LRU cache whose flush only starts a new generation. Entries of older generations
stay in the list and in the index until they are reclaimed, evicted or put again. `PlainCache` is
the cache it stands for. -/
namespace Tuntom
open List

variable {κ β : Type} [DecidableEq κ]

inductive CacheCall (κ β : Type) where
  | put (key : κ) (value : β) (now : Time)
  | get (key : κ) (now : Time)
  | flush
  | reclaim (budget : ℕ)

/-! ### The plain cache -/

structure PlainEntry (κ β : Type) where
  key : κ
  value : β
  lastSeen : Time

/-- Entries in order of their last use, at most `capacity` of them. -/
structure PlainCache (κ β : Type) where
  capacity : ℕ
  idleTimeout : Time
  order : List (PlainEntry κ β) := []
  evictions : ℕ := 0
  expirations : ℕ := 0

namespace PlainCache

variable (c : PlainCache κ β)

def without (key : κ) : List (PlainEntry κ β) :=
  c.order.filter fun e => e.key ≠ key

def cut : PlainCache κ β :=
  { c with order := c.order.take c.capacity
           evictions := c.evictions + (c.order.length - c.capacity) }

def put (key : κ) (value : β) (now : Time) : PlainCache κ β :=
  if c.capacity = 0 then c
  else { c with order := ⟨key, value, now⟩ :: c.without key }.cut

def get (key : κ) (now : Time) : PlainCache κ β × Option β :=
  match c.order.find? fun e => e.key = key with
  | none => (c, none)
  | some e =>
    if c.idleTimeout < now - e.lastSeen then
      ({ c with order := c.without key, expirations := c.expirations + 1 }, none)
    else ({ c with order := { e with lastSeen := now } :: c.without key }, some e.value)

def size : ℕ := c.order.length

def visitLive (now : Time) : List (κ × β × Time) :=
  (c.order.filter fun e => now - e.lastSeen ≤ c.idleTimeout).map fun e =>
    (e.key, e.value, e.lastSeen)

def step : CacheCall κ β → PlainCache κ β × Option β
  | .put key value now => (c.put key value now, none)
  | .get key now => c.get key now
  | .flush => ({ c with order := [] }, none)
  | .reclaim _ => (c, none)

theorem cut_of_le {c : PlainCache κ β} (h : c.order.length ≤ c.capacity) : c.cut = c := by
  rw [cut, take_of_length_le h, Nat.sub_eq_zero_of_le h]
  rfl

end PlainCache

/-! ### The cache with generations -/

structure LruEntry (κ β : Type) where
  key : κ
  value : β
  lastSeen : Time
  generation : ℕ

/-- The list runs from the entry used last to the oldest one. An iterator of the index is known by
its key. -/
structure LruCache (κ β : Type) where
  capacity : ℕ
  idleTimeout : Time
  generation : ℕ := 0
  liveSize : ℕ := 0
  order : List (LruEntry κ β) := []
  entries : Finset κ := ∅
  evictions : ℕ := 0
  expirations : ℕ := 0

namespace LruCache

/-- `entries_.find` and the node behind the iterator. -/
def find? (c : LruCache κ β) (key : κ) : Option (LruEntry κ β) :=
  if key ∈ c.entries then c.order.find? fun e => e.key = key else none

variable (c : LruCache κ β)

def without (key : κ) : List (LruEntry κ β) :=
  c.order.eraseP fun e => e.key = key

def popBack : LruCache κ β :=
  match c.order.getLast? with
  | none => c
  | some e => { c with order := c.order.dropLast, entries := c.entries.erase e.key }

def reclaim (c : LruCache κ β) : ℕ → LruCache κ β
  | 0 => c
  | budget + 1 =>
    match c.order.getLast? with
    | none => c
    | some e => if e.generation ≠ c.generation then c.popBack.reclaim budget else c

def evictLast : LruCache κ β :=
  match c.order.getLast? with
  | none => c
  | some e =>
    if e.generation = c.generation then
      { c with liveSize := c.liveSize - 1, evictions := c.evictions + 1 }.popBack
    else c.popBack

/-- The loop at the end of `put`, with the rounds that are left. -/
def shrinkLoop : ℕ → LruCache κ β → LruCache κ β
  | 0, c => c
  | left + 1, c => if c.capacity < c.entries.card then shrinkLoop left c.evictLast else c

def shrink : LruCache κ β := shrinkLoop c.entries.card c

def put (key : κ) (value : β) (now : Time) : LruCache κ β :=
  let c := c.reclaim 64
  match c.find? key with
  | some e =>
    { c with
      liveSize := if e.generation ≠ c.generation then c.liveSize + 1 else c.liveSize
      order := { e with value := value, generation := c.generation, lastSeen := now } ::
        c.without key }.shrink
  | none =>
    if c.capacity = 0 then c
    else
      { c with
        order := ⟨key, value, now, c.generation⟩ :: c.order
        entries := insert key c.entries
        liveSize := c.liveSize + 1 }.shrink

def get (key : κ) (now : Time) : LruCache κ β × Option β :=
  match c.find? key with
  | none => (c, none)
  | some e =>
    if e.generation ≠ c.generation then (c, none)
    else if c.idleTimeout < now - e.lastSeen then
      ({ c with order := c.without key, entries := c.entries.erase key
                liveSize := c.liveSize - 1, expirations := c.expirations + 1 }, none)
    else ({ c with order := { e with lastSeen := now } :: c.without key }, some e.value)

def visitLive (now : Time) : List (κ × β × Time) :=
  (c.order.filter fun e => e.generation = c.generation ∧ now - e.lastSeen ≤ c.idleTimeout).map
    fun e => (e.key, e.value, e.lastSeen)

def size : ℕ := c.liveSize

def flush : LruCache κ β :=
  { c with generation := c.generation + 1, liveSize := 0 }

def step : CacheCall κ β → LruCache κ β × Option β
  | .put key value now => (c.put key value now, none)
  | .get key now => c.get key now
  | .flush => (c.flush, none)
  | .reclaim budget => (c.reclaim budget, none)

end LruCache

/-! ### What the cache stands for -/

def PlainEntry.live (generation : ℕ) (e : PlainEntry κ β) : LruEntry κ β :=
  ⟨e.key, e.value, e.lastSeen, generation⟩

namespace LruCache

/-- The live entries are those of the plain cache and come first; the index is that of the list. -/
structure Represents (c : LruCache κ β) (p : PlainCache κ β) (stale : List (LruEntry κ β)) :
    Prop where
  order : c.order = p.order.map (PlainEntry.live c.generation) ++ stale
  stale : ∀ e ∈ stale, e.generation < c.generation
  nodup : (c.order.map LruEntry.key).Nodup
  entries : c.entries = (c.order.map LruEntry.key).toFinset
  liveSize : c.liveSize = p.order.length
  capacity : c.capacity = p.capacity
  idleTimeout : c.idleTimeout = p.idleTimeout
  evictions : c.evictions = p.evictions
  expirations : c.expirations = p.expirations

theorem eraseP_eq_filter {α : Type} {f : α → κ} {l : List α} (h : (l.map f).Nodup) (k : κ) :
    (l.eraseP fun e => f e = k) = l.filter fun e => f e ≠ k := by
  induction l with
  | nil => rfl
  | cons a l ih =>
    obtain ⟨hnot, hnodup⟩ := nodup_cons.mp h
    by_cases ha : f a = k
    · rw [eraseP_cons_of_pos (by simpa using ha), filter_cons_of_neg (by simpa using ha),
        eq_comm, filter_eq_self]
      intro e he
      have hne : f e ≠ k := fun heq => hnot (mem_map.mpr ⟨e, he, heq.trans ha.symm⟩)
      simpa using hne
    · rw [eraseP_cons_of_neg (by simpa using ha), filter_cons_of_pos (by simpa using ha),
        ih hnodup]

theorem toFinset_erase (l : List (LruEntry κ β)) (key : κ) :
    (l.map LruEntry.key).toFinset.erase key =
      ((l.filter fun e => e.key ≠ key).map LruEntry.key).toFinset := by
  ext k
  simp only [Finset.mem_erase, mem_toFinset, mem_map, mem_filter, decide_eq_true_eq]
  constructor
  · rintro ⟨hne, e, he, rfl⟩
    exact ⟨e, ⟨he, hne⟩, rfl⟩
  · rintro ⟨e, ⟨he, hne⟩, rfl⟩
    exact ⟨hne, e, he, rfl⟩

namespace Represents

variable {c : LruCache κ β} {p : PlainCache κ β} {stale : List (LruEntry κ β)}

theorem card_entries (h : c.Represents p stale) : c.entries.card = c.order.length := by
  rw [h.entries, toFinset_card_of_nodup h.nodup, length_map]

theorem find?_eq (h : c.Represents p stale) (key : κ) :
    c.find? key = c.order.find? fun e => e.key = key := by
  rw [LruCache.find?]
  split
  · rfl
  next hnot =>
  rw [eq_comm, List.find?_eq_none]
  intro e he
  have hne : e.key ≠ key := by
    rintro rfl
    apply hnot
    rw [h.entries, mem_toFinset]
    exact mem_map_of_mem he
  simpa using hne

theorem without_eq (h : c.Represents p stale) (key : κ) :
    c.without key = c.order.filter fun e => e.key ≠ key :=
  eraseP_eq_filter h.nodup key

variable {e : LruEntry κ β} {x : PlainEntry κ β} {init : List (LruEntry κ β)}

theorem insert_key (h : c.Represents p stale) (he : e ∈ c.order) :
    insert e.key c.entries = c.entries := by
  rw [Finset.insert_eq_self, h.entries, mem_toFinset]
  exact mem_map_of_mem he

theorem filter_order (h : c.Represents p stale) (key : κ) :
    (c.order.filter fun e => e.key ≠ key) =
      (p.without key).map (PlainEntry.live c.generation) ++ stale.filter fun e => e.key ≠ key := by
  rw [h.order, filter_append, filter_map]
  rfl

theorem nodup_plain (h : c.Represents p stale) : (p.order.map PlainEntry.key).Nodup := by
  have hnodup := h.nodup
  rw [h.order, map_append, map_map] at hnodup
  exact hnodup.of_append_left

theorem length_without (h : c.Represents p stale) (hx : x ∈ p.order) :
    (p.without x.key).length + 1 = p.order.length := by
  have hpos := length_pos_of_mem hx
  rw [PlainCache.without, ← eraseP_eq_filter h.nodup_plain,
    length_eraseP_of_mem hx (by simp)]
  omega

theorem find?_live (h : c.Represents p stale) {key : κ}
    (hx : (p.order.find? fun e => e.key = key) = some x) :
    c.find? key = some (x.live c.generation) := by
  have hmap : ((p.order.map (PlainEntry.live c.generation)).find? fun e => e.key = key) =
      some (x.live c.generation) := by
    rw [List.find?_map]
    exact congrArg _ hx
  rw [h.find?_eq, h.order, List.find?_append, hmap]
  rfl

theorem find?_stale (h : c.Represents p stale) {key : κ}
    (hx : (p.order.find? fun e => e.key = key) = none) :
    c.find? key = stale.find? fun e => e.key = key := by
  have hmap : ((p.order.map (PlainEntry.live c.generation)).find? fun e => e.key = key) = none := by
    rw [List.find?_map]
    exact congrArg _ hx
  rw [h.find?_eq, h.order, List.find?_append, hmap]
  rfl

theorem without_of_absent {key : κ} (hx : (p.order.find? fun e => e.key = key) = none) :
    p.without key = p.order := by
  rw [PlainCache.without, filter_eq_self]
  intro e he
  simpa using List.find?_eq_none.mp hx e he

/-! #### The back of the list -/

theorem popBack_eq {rest : List (LruEntry κ β)} (horder : c.order = rest ++ [e]) :
    c.popBack = { c with order := rest, entries := c.entries.erase e.key } := by
  simp [LruCache.popBack, horder]

theorem index_back {rest : List (LruEntry κ β)} (hnodup : ((rest ++ [e]).map LruEntry.key).Nodup) :
    ((rest ++ [e]).map LruEntry.key).toFinset.erase e.key = (rest.map LruEntry.key).toFinset := by
  have hlast : e.key ∉ rest.map LruEntry.key := by
    rw [map_append, nodup_append] at hnodup
    exact fun hmem => hnodup.2.2 _ hmem _ (mem_singleton_self _) rfl
  rw [map_append, toFinset_append, Finset.union_comm]
  simp [hlast]

theorem popStale (h : c.Represents p (init ++ [e])) : c.popBack.Represents p init := by
  have horder : c.order = (p.order.map (PlainEntry.live c.generation) ++ init) ++ [e] := by
    rw [h.order, append_assoc]
  have hnodup := h.nodup
  rw [horder] at hnodup
  rw [popBack_eq horder]
  refine { h with
    order := rfl
    stale := fun e he => h.stale e (mem_append_left _ he)
    nodup := ?_
    entries := ?_ }
  · rw [map_append] at hnodup
    exact hnodup.of_append_left
  · dsimp only
    rw [h.entries, horder, index_back hnodup]

theorem getLast?_stale (h : c.Represents p (init ++ [e])) : c.order.getLast? = some e := by
  rw [h.order, ← append_assoc, List.getLast?_concat]

theorem reclaim (h : c.Represents p stale) (budget : ℕ) :
    ∃ stale', (c.reclaim budget).Represents p stale' ∧
      (c.reclaim budget).order.length ≤ c.order.length ∧
      (c.reclaim budget).capacity = c.capacity := by
  induction budget generalizing c stale with
  | zero => exact ⟨stale, h, le_rfl, rfl⟩
  | succ budget ih =>
    rw [LruCache.reclaim]
    rcases eq_nil_or_concat stale with rfl | ⟨init, e, rfl⟩
    · have hlive : ∀ e ∈ c.order, e.generation = c.generation := by
        rw [h.order, append_nil]
        intro e he
        obtain ⟨x, -, rfl⟩ := mem_map.mp he
        rfl
      split
      · exact ⟨[], h, le_rfl, rfl⟩
      next e hlast =>
      rw [if_neg (not_not.mpr (hlive e (mem_of_getLast? hlast)))]
      exact ⟨[], h, le_rfl, rfl⟩
    rw [concat_eq_append] at h
    have hold := (h.stale e (mem_append_right _ (mem_singleton_self e))).ne
    rw [h.getLast?_stale]
    dsimp only
    rw [if_pos hold]
    obtain ⟨stale', hrep, hlength, hcapacity⟩ := ih h.popStale
    have hpop : c.popBack.order.length ≤ c.order.length ∧ c.popBack.capacity = c.capacity := by
      rw [LruCache.popBack]
      split
      · exact ⟨le_rfl, rfl⟩
      · exact ⟨by simp, rfl⟩
    exact ⟨stale', hrep, hlength.trans hpop.1, hcapacity.trans hpop.2⟩

theorem evictLive {order : List (PlainEntry κ β)} (hp : p.order = order ++ [x])
    (h : c.Represents p []) :
    c.evictLast.Represents { p with order := order, evictions := p.evictions + 1 } [] := by
  have horder : c.order = order.map (PlainEntry.live c.generation) ++ [x.live c.generation] := by
    rw [h.order, hp, append_nil, map_append, map_singleton]
  have hlast : c.order.getLast? = some (x.live c.generation) := by
    rw [horder, List.getLast?_concat]
  have hnodup := h.nodup
  rw [horder] at hnodup
  have hevict : c.evictLast =
      { c with liveSize := c.liveSize - 1, evictions := c.evictions + 1 }.popBack := by
    rw [evictLast, hlast]
    exact if_pos rfl
  have hpop := popBack_eq
    (c := { c with liveSize := c.liveSize - 1, evictions := c.evictions + 1 }) horder
  rw [hevict, hpop]
  refine { h with
    order := (append_nil _).symm
    stale := fun e he => absurd he not_mem_nil
    nodup := ?_
    entries := ?_
    liveSize := ?_
    evictions := congrArg (· + 1) h.evictions }
  · rw [map_append] at hnodup
    exact hnodup.of_append_left
  · dsimp only
    rw [h.entries, horder]
    exact index_back hnodup
  · dsimp only
    rw [h.liveSize, hp, length_append, length_singleton, Nat.add_sub_cancel]

theorem evictStale (h : c.Represents p (init ++ [e])) : c.evictLast.Represents p init := by
  have hold := (h.stale e (mem_append_right _ (mem_singleton_self e))).ne
  have hevict : c.evictLast = c.popBack := by
    rw [evictLast, h.getLast?_stale]
    exact if_neg hold
  rw [hevict]
  exact h.popStale

theorem shrinkLoop_of_le (left : ℕ) (h : c.entries.card ≤ c.capacity) : shrinkLoop left c = c := by
  cases left with
  | zero => rfl
  | succ left => rw [shrinkLoop, if_neg (not_lt.mpr h)]

/-- The loop of `put` evicts what the plain cache evicts, and stale entries before that. -/
theorem shrink (h : c.Represents p stale) (hlength : c.order.length ≤ c.capacity + 1) :
    ∃ stale', c.shrink.Represents p.cut stale' ∧ c.shrink.order.length ≤ c.capacity := by
  have hsplit : c.order.length = p.order.length + stale.length := by
    rw [h.order, length_append, length_map]
  by_cases hfull : c.order.length ≤ c.capacity
  · have hsame : c.shrink = c := shrinkLoop_of_le _ (by rwa [h.card_entries])
    rw [hsame, PlainCache.cut_of_le (by rw [← h.capacity]; omega)]
    exact ⟨stale, h, hfull⟩
  have hone : c.shrink = shrinkLoop c.capacity c.evictLast := by
    have hcard : c.entries.card = c.capacity + 1 := by
      rw [h.card_entries]
      omega
    rw [LruCache.shrink, hcard, shrinkLoop, if_pos (by omega)]
  rcases eq_nil_or_concat stale with rfl | ⟨init, e, rfl⟩
  · have hfilled : p.order.length = p.capacity + 1 := by
      rw [← h.capacity]
      simp only [length_nil] at hsplit
      omega
    rcases eq_nil_or_concat p.order with hnil | ⟨order, x, hp⟩
    · rw [hnil] at hfilled
      simp at hfilled
    rw [concat_eq_append] at hp
    have hrep := evictLive hp h
    have horder : order.length = p.capacity := by
      rw [hp, length_append, length_singleton] at hfilled
      omega
    have hcut : p.cut = { p with order := order, evictions := p.evictions + 1 } := by
      rw [PlainCache.cut, hp, ← horder, take_left]
      simp
    have hafter : c.evictLast.order.length = c.evictLast.capacity := by
      rw [hrep.order, hrep.capacity, append_nil, length_map]
      exact horder
    rw [hone, shrinkLoop_of_le _ (by rw [hrep.card_entries, hafter]), hcut]
    refine ⟨[], hrep, ?_⟩
    rw [hafter, hrep.capacity, h.capacity]
  rw [concat_eq_append] at h hsplit
  have hrep := h.evictStale
  rw [length_append, length_singleton] at hsplit
  have hafter : c.evictLast.order.length ≤ c.capacity := by
    rw [hrep.order, length_append, length_map]
    omega
  have hcapacity : c.evictLast.capacity = c.capacity := by rw [hrep.capacity, h.capacity]
  rw [hone, shrinkLoop_of_le _ (by rw [hrep.card_entries, hcapacity]; exact hafter),
    PlainCache.cut_of_le (by rw [← h.capacity]; omega)]
  exact ⟨init, hrep, hafter⟩

theorem shrunk (h : c.Represents p stale) (hlength : c.order.length ≤ c.capacity + 1) :
    ∃ stale', c.shrink.Represents p.cut stale' ∧ c.shrink.order.length ≤ c.shrink.capacity := by
  obtain ⟨stale', hrep, hbound⟩ := h.shrink hlength
  exact ⟨stale', hrep, hbound.trans (by rw [hrep.capacity, h.capacity]; rfl)⟩

/-! #### The calls -/

theorem front (h : c.Represents p stale) (key : κ) (value : β) (now : Time) (liveSize : ℕ)
    (hlive : liveSize = (p.without key).length + 1) :
    { c with
      liveSize := liveSize
      order := ⟨key, value, now, c.generation⟩ :: c.order.filter fun e => e.key ≠ key
      entries := insert key c.entries }.Represents
      { p with order := ⟨key, value, now⟩ :: p.without key } (stale.filter fun e => e.key ≠ key) := by
  refine { h with
    order := ?_
    stale := fun e he => h.stale e (mem_filter.mp he).1
    nodup := ?_
    entries := ?_
    liveSize := ?_ }
  · rw [h.filter_order]
    rfl
  · dsimp only
    rw [map_cons, nodup_cons]
    refine ⟨?_, (h.nodup.sublist (filter_sublist.map _))⟩
    simp
  · dsimp only
    rw [map_cons, toFinset_cons, ← toFinset_erase, h.entries]
    ext k
    by_cases hk : k = key
    · simp [hk]
    · simp [hk]
  · dsimp only
    rw [hlive, length_cons]

theorem get (h : c.Represents p stale) (hbound : c.order.length ≤ c.capacity) (key : κ) (now : Time) :
    (c.get key now).2 = (p.get key now).2 ∧
      ∃ stale', (c.get key now).1.Represents (p.get key now).1 stale' ∧
        (c.get key now).1.order.length ≤ (c.get key now).1.capacity := by
  rw [LruCache.get, PlainCache.get]
  cases hx : (p.order.find? fun e => e.key = key) with
  | none =>
    rw [h.find?_stale hx]
    cases he : (stale.find? fun e => e.key = key) with
    | none => exact ⟨rfl, stale, h, hbound⟩
    | some e =>
      dsimp only
      rw [if_pos (h.stale e (mem_of_find?_eq_some he)).ne]
      exact ⟨rfl, stale, h, hbound⟩
  | some x =>
    have hmem := mem_of_find?_eq_some hx
    have hkey : x.key = key := by simpa using List.find?_some hx
    subst hkey
    have hlength := h.length_without hmem
    have hshorter : (c.order.filter fun e => e.key ≠ x.key).length + 1 ≤ c.order.length := by
      rw [h.filter_order, h.order]
      have hfiltered := length_filter_le (fun e : LruEntry κ β => e.key ≠ x.key) stale
      simp only [length_append, length_map]
      omega
    rw [h.find?_live hx]
    dsimp only
    have hcurrent : ¬(x.live c.generation).generation ≠ c.generation := not_not.mpr rfl
    have hexpired : c.idleTimeout < now - (x.live c.generation).lastSeen ↔
        p.idleTimeout < now - x.lastSeen := by
      rw [h.idleTimeout]
      rfl
    rw [if_neg hcurrent, h.without_eq]
    by_cases hidle : p.idleTimeout < now - x.lastSeen
    · rw [if_pos (hexpired.mpr hidle), if_pos hidle]
      refine ⟨rfl, stale.filter fun e => e.key ≠ x.key, ?_, ?_⟩
      · refine { h with
          order := h.filter_order x.key
          stale := fun e he => h.stale e (mem_filter.mp he).1
          nodup := h.nodup.sublist (filter_sublist.map _)
          entries := ?_
          liveSize := ?_
          expirations := congrArg (· + 1) h.expirations }
        · dsimp only
          rw [h.entries, toFinset_erase]
        · dsimp only
          rw [h.liveSize]
          omega
      · dsimp only
        omega
    rw [if_neg (hexpired.not.mpr hidle), if_neg hidle]
    refine ⟨rfl, stale.filter fun e => e.key ≠ x.key, ?_, ?_⟩
    · have hfront := h.front x.key x.value now c.liveSize (by rw [h.liveSize, hlength])
      have hindex : insert x.key c.entries = c.entries :=
        h.insert_key (e := x.live c.generation) (by
          rw [h.order]
          exact mem_append_left _ (mem_map_of_mem hmem))
      rw [hindex] at hfront
      exact hfront
    · dsimp only
      rw [length_cons]
      omega

/-- After a put the cache is the plain one again, with at most `capacity` entries of any kind. -/
theorem put (h : c.Represents p stale) (hbound : c.order.length ≤ c.capacity) (key : κ) (value : β)
    (now : Time) :
    ∃ stale', (c.put key value now).Represents (p.put key value now) stale' ∧
      (c.put key value now).order.length ≤ (c.put key value now).capacity := by
  obtain ⟨stale, h, hshorter, hcapacity⟩ := h.reclaim 64
  replace hbound := hshorter.trans (hbound.trans hcapacity.ge)
  rw [LruCache.put, PlainCache.put]
  generalize c.reclaim 64 = c at h hbound
  clear hshorter hcapacity
  cases hfind : c.find? key with
  | none =>
    have hx : (p.order.find? fun e => e.key = key) = none := by
      by_contra hsome
      obtain ⟨x, hx⟩ := Option.ne_none_iff_exists'.mp hsome
      rw [h.find?_live hx] at hfind
      cases hfind
    by_cases hzero : p.capacity = 0
    · rw [if_pos hzero]
      dsimp only
      rw [if_pos (h.capacity.trans hzero)]
      exact ⟨stale, h, hbound⟩
    rw [if_neg hzero]
    dsimp only
    rw [if_neg (h.capacity ▸ hzero)]
    have hfront := h.front key value now (c.liveSize + 1)
      (by rw [without_of_absent hx, h.liveSize])
    have hkept : (c.order.filter fun e => e.key ≠ key) = c.order := by
      rw [filter_eq_self]
      rw [h.find?_eq] at hfind
      intro e he
      simpa using List.find?_eq_none.mp hfind e he
    rw [hkept] at hfront
    exact hfront.shrunk (by simpa using hbound)
  | some e =>
    have hmem : e ∈ c.order ∧ e.key = key := by
      rw [h.find?_eq] at hfind
      exact ⟨mem_of_find?_eq_some hfind, by simpa using List.find?_some hfind⟩
    obtain ⟨hmem, rfl⟩ := hmem
    have hcapacity : p.capacity ≠ 0 := by
      have hpos := length_pos_of_mem hmem
      rw [← h.capacity]
      omega
    have hlive : (if e.generation ≠ c.generation then c.liveSize + 1 else c.liveSize) =
        (p.without e.key).length + 1 := by
      cases hx : (p.order.find? fun x => x.key = e.key) with
      | none =>
        rw [h.find?_stale hx] at hfind
        rw [if_pos (h.stale e (mem_of_find?_eq_some hfind)).ne, without_of_absent hx,
          h.liveSize]
      | some x =>
        rw [h.find?_live hx] at hfind
        cases hfind
        have hcurrent : ¬(x.live c.generation).generation ≠ c.generation := not_not.mpr rfl
        rw [if_neg hcurrent, h.liveSize]
        exact (h.length_without (mem_of_find?_eq_some hx)).symm
    have hfront := h.front e.key value now _ hlive
    have hshorter := length_filter_le (fun x : LruEntry κ β => decide (x.key ≠ e.key)) c.order
    rw [h.insert_key hmem] at hfront
    dsimp only
    rw [if_neg hcapacity, h.without_eq]
    refine hfront.shrunk ?_
    dsimp only
    rw [length_cons]
    omega

theorem flush (h : c.Represents p stale) : c.flush.Represents { p with order := [] } c.order := by
  refine { h with
    order := rfl
    stale := fun e he => ?_
    liveSize := rfl }
  have hold : e.generation ≤ c.generation := by
    rw [h.order] at he
    rcases mem_append.mp he with hlive | hstale
    · obtain ⟨x, -, rfl⟩ := mem_map.mp hlive
      exact le_rfl
    · exact (h.stale e hstale).le
  exact Nat.lt_succ_of_le hold

theorem visitLive (h : c.Represents p stale) (now : Time) : c.visitLive now = p.visitLive now := by
  have hstale : (stale.filter fun e =>
      e.generation = c.generation ∧ now - e.lastSeen ≤ c.idleTimeout) = [] := by
    rw [filter_eq_nil_iff]
    intro e he
    simp [(h.stale e he).ne]
  have hlive : (p.order.filter ((fun e : LruEntry κ β => decide (e.generation = c.generation ∧
      now - e.lastSeen ≤ c.idleTimeout)) ∘ PlainEntry.live c.generation)) =
      p.order.filter fun e => now - e.lastSeen ≤ p.idleTimeout :=
    filter_congr fun e _ => by
      rw [Function.comp_apply, decide_eq_decide]
      simp [PlainEntry.live, h.idleTimeout]
  rw [LruCache.visitLive, h.order, filter_append, hstale, append_nil, filter_map,
    map_map, hlive]
  rfl

end Represents

/-- The simulation relation: some stale entries lie behind the live ones, within the capacity. -/
def Simulates (c : LruCache κ β) (p : PlainCache κ β) : Prop :=
  ∃ stale, c.Represents p stale ∧ c.order.length ≤ c.capacity

theorem simulates_step {c : LruCache κ β} {p : PlainCache κ β} (call : CacheCall κ β)
    (h : c.Simulates p) : (c.step call).2 = (p.step call).2 ∧ (c.step call).1.Simulates (p.step call).1 := by
  obtain ⟨stale, hrep, hbound⟩ := h
  cases call with
  | put key value now => exact ⟨rfl, hrep.put hbound key value now⟩
  | get key now => exact hrep.get hbound key now
  | flush => exact ⟨rfl, c.order, hrep.flush, hbound⟩
  | reclaim budget =>
    obtain ⟨stale', hreclaimed, hlength, hcapacity⟩ := hrep.reclaim budget
    exact ⟨rfl, stale', hreclaimed, hlength.trans (hbound.trans hcapacity.ge)⟩

end LruCache

def LruCache.after (capacity : ℕ) (idleTimeout : Time) (calls : List (CacheCall κ β)) :
    LruCache κ β :=
  (Transition.run LruCache.step { capacity := capacity, idleTimeout := idleTimeout } calls).2

def PlainCache.after (capacity : ℕ) (idleTimeout : Time) (calls : List (CacheCall κ β)) :
    PlainCache κ β :=
  (Transition.run PlainCache.step { capacity := capacity, idleTimeout := idleTimeout } calls).2

namespace PlainCache

theorem limits_step (c : PlainCache κ β) (call : CacheCall κ β) :
    (c.step call).1.capacity = c.capacity ∧ (c.step call).1.idleTimeout = c.idleTimeout := by
  cases call with
  | put key value now =>
    simp only [step, put]
    split
    · exact ⟨rfl, rfl⟩
    · exact ⟨rfl, rfl⟩
  | get key now =>
    simp only [step, get]
    split
    · exact ⟨rfl, rfl⟩
    split
    · exact ⟨rfl, rfl⟩
    · exact ⟨rfl, rfl⟩
  | flush | reclaim budget => exact ⟨rfl, rfl⟩

theorem capacity_after (capacity : ℕ) (idleTimeout : Time) (calls : List (CacheCall κ β)) :
    (after capacity idleTimeout calls).capacity = capacity := by
  have htrace : Transition.Trace step { capacity := capacity, idleTimeout := idleTimeout } _
      (after capacity idleTimeout calls) := Transition.trace_run calls
  refine htrace.invariant (fun _ c => c.capacity = capacity) rfl fun past c call _ hc => ?_
  rw [(c.limits_step call).1, hc]

end PlainCache

namespace LruCache

theorem represents_new (capacity : ℕ) (idleTimeout : Time) :
    ({ capacity := capacity, idleTimeout := idleTimeout } : LruCache κ β).Represents
      { capacity := capacity, idleTimeout := idleTimeout } [] :=
  ⟨rfl, fun e he => absurd he not_mem_nil, nodup_nil, rfl, rfl, rfl, rfl, rfl, rfl⟩

theorem run_simulates (capacity : ℕ) (idleTimeout : Time) (calls : List (CacheCall κ β)) :
    (Transition.run step { capacity := capacity, idleTimeout := idleTimeout } calls).1 =
        (Transition.run PlainCache.step { capacity := capacity, idleTimeout := idleTimeout } calls).1 ∧
      (after capacity idleTimeout calls).Simulates (PlainCache.after capacity idleTimeout calls) := by
  refine Transition.run_simulates Simulates ?_ (fun c p call h => simulates_step call h) calls
  exact ⟨[], represents_new capacity idleTimeout, Nat.zero_le _⟩

/-- Every run of the cache has the history of the plain cache: what each `get` returns, and then
size, counters and live entries. The live entries come first, and stale ones count against the
capacity without ever exceeding it. -/
theorem lru_cache_refines_plain (capacity : ℕ) (idleTimeout : Time) (calls : List (CacheCall κ β)) :
    (Transition.run step { capacity := capacity, idleTimeout := idleTimeout } calls).1 =
        (Transition.run PlainCache.step { capacity := capacity, idleTimeout := idleTimeout } calls).1 ∧
      (after capacity idleTimeout calls).size = (PlainCache.after capacity idleTimeout calls).size ∧
      (after capacity idleTimeout calls).evictions =
        (PlainCache.after capacity idleTimeout calls).evictions ∧
      (after capacity idleTimeout calls).expirations =
        (PlainCache.after capacity idleTimeout calls).expirations ∧
      (∀ now, (after capacity idleTimeout calls).visitLive now =
        (PlainCache.after capacity idleTimeout calls).visitLive now) ∧
      (∃ live stale, (after capacity idleTimeout calls).order = live ++ stale ∧
        (∀ e ∈ live, e.generation = (after capacity idleTimeout calls).generation) ∧
        (∀ e ∈ stale, e.generation ≠ (after capacity idleTimeout calls).generation) ∧
        live.length = (after capacity idleTimeout calls).size) ∧
      (after capacity idleTimeout calls).entries.card =
        (after capacity idleTimeout calls).order.length ∧
      (after capacity idleTimeout calls).entries.card ≤ capacity := by
  obtain ⟨hresults, stale, hrep, hbound⟩ := run_simulates capacity idleTimeout calls
  have hcapacity : (after capacity idleTimeout calls).capacity = capacity := by
    rw [hrep.capacity, PlainCache.capacity_after]
  refine ⟨hresults, hrep.liveSize, hrep.evictions, hrep.expirations, hrep.visitLive, ?_,
    hrep.card_entries, ?_⟩
  · refine ⟨_, stale, hrep.order, fun e he => ?_, fun e he => (hrep.stale e he).ne, ?_⟩
    · obtain ⟨x, -, rfl⟩ := List.mem_map.mp he
      rfl
    · rw [List.length_map]
      exact hrep.liveSize.symm
  · rw [hrep.card_entries]
    exact hbound.trans hcapacity.le

/-! ### What a lookup may return -/

end LruCache

namespace PlainCache

def Holds (p : PlainCache κ β) (f : κ → Option β) : Prop := ∀ e ∈ p.order, f e.key = some e.value

variable {p : PlainCache κ β} {f f' : κ → Option β}

theorem Holds.put (h : p.Holds f) (hbound : p.order.length ≤ p.capacity) {key : κ} {value : β}
    (hkey : f' key = some value) (hother : ∀ k, k ≠ key → f' k = f k) (now : Time) :
    (p.put key value now).Holds f' := by
  intro e he
  rw [PlainCache.put] at he
  split at he
  next hzero =>
    have hnil : p.order = [] := length_eq_zero_iff.mp (by omega)
    rw [hnil] at he
    cases he
  rcases mem_cons.mp (mem_of_mem_take he) with rfl | hold
  · exact hkey
  obtain ⟨hmem, hne⟩ := mem_filter.mp hold
  rw [hother e.key (by simpa using hne)]
  exact h e hmem

theorem Holds.get (h : p.Holds f) (key : κ) (now : Time) :
    (p.get key now).1.Holds f ∧ ∀ value, (p.get key now).2 = some value → f key = some value := by
  rw [PlainCache.get]
  split
  · exact ⟨h, by simp⟩
  next e hfind =>
  have hmem := mem_of_find?_eq_some hfind
  have hkey : e.key = key := by simpa using List.find?_some hfind
  split
  · exact ⟨fun e he => h e (mem_filter.mp he).1, by simp⟩
  refine ⟨fun e' he' => ?_, fun value hvalue => ?_⟩
  · rcases mem_cons.mp he' with rfl | hold
    · exact h e hmem
    · exact h e' (mem_filter.mp hold).1
  · cases hvalue
    rw [← hkey]
    exact h e hmem

theorem get_put (hcapacity : p.capacity ≠ 0) (key : κ) (value : β) {now later : Time}
    (hfresh : later - now ≤ p.idleTimeout) :
    ((p.put key value now).get key later).2 = some value := by
  obtain ⟨capacity, hsucc⟩ := Nat.exists_eq_succ_of_ne_zero hcapacity
  have hfind : ((p.put key value now).order.find? fun e => e.key = key) =
      some ⟨key, value, now⟩ := by
    rw [put, if_neg hcapacity, cut]
    simp [hsucc]
  have hidle : (p.put key value now).idleTimeout = p.idleTimeout := by
    rw [put, if_neg hcapacity]
    rfl
  rw [get, hfind]
  dsimp only
  rw [hidle, if_neg (not_lt.mpr hfresh)]

theorem get_isSome_iff (hnodup : (p.order.map PlainEntry.key).Nodup) (key : κ) (now : Time) :
    (p.get key now).2.isSome = true ↔ ∃ value seen, (key, value, seen) ∈ p.visitLive now := by
  simp only [visitLive, mem_map, mem_filter, decide_eq_true_eq, Prod.mk.injEq]
  rw [get]
  split
  next hfind =>
    refine ⟨by simp, ?_⟩
    rintro ⟨value, seen, e, ⟨hmem, -⟩, hkey, -⟩
    exact absurd hkey (by simpa using List.find?_eq_none.mp hfind e hmem)
  next e hfind =>
  have hmem := mem_of_find?_eq_some hfind
  have hkey : e.key = key := by simpa using List.find?_some hfind
  split
  next hidle =>
    refine ⟨by simp, ?_⟩
    rintro ⟨value, seen, e', ⟨hmem', hlive⟩, hkey', -⟩
    have hsame : e' = e := inj_on_of_nodup_map hnodup hmem' hmem (hkey'.trans hkey.symm)
    rw [hsame] at hlive
    exact absurd hlive (not_le.mpr hidle)
  next hidle =>
    exact ⟨fun _ => ⟨e.value, e.lastSeen, e, ⟨hmem, not_lt.mp hidle⟩, hkey, rfl, rfl⟩, fun _ => rfl⟩

end PlainCache

namespace LruCache

def Serves (c : LruCache κ β) (f : κ → Option β) : Prop := ∃ p, c.Simulates p ∧ p.Holds f

variable {c : LruCache κ β} {f f' : κ → Option β}

theorem serves_new (capacity : ℕ) (idleTimeout : Time) (f : κ → Option β) :
    Serves { capacity := capacity, idleTimeout := idleTimeout } f :=
  ⟨_, ⟨[], represents_new capacity idleTimeout, Nat.zero_le _⟩,
    fun e he => absurd he not_mem_nil⟩

theorem Serves.put (h : c.Serves f) {key : κ} {value : β} (hkey : f' key = some value)
    (hother : ∀ k, k ≠ key → f' k = f k) (now : Time) : (c.put key value now).Serves f' := by
  obtain ⟨p, hsim, hholds⟩ := h
  obtain ⟨stale, hrep, hbound⟩ := id hsim
  have hplain : p.order.length ≤ p.capacity := by
    rw [hrep.order, length_append, length_map, hrep.capacity] at hbound
    omega
  exact ⟨_, (simulates_step (.put key value now) hsim).2, hholds.put hplain hkey hother now⟩

theorem Serves.get (h : c.Serves f) (key : κ) (now : Time) :
    (c.get key now).1.Serves f ∧ ∀ value, (c.get key now).2 = some value → f key = some value := by
  obtain ⟨p, hsim, hholds⟩ := h
  obtain ⟨hresult, hnext⟩ := simulates_step (.get key now) hsim
  obtain ⟨hkept, hvalue⟩ := hholds.get key now
  exact ⟨⟨_, hnext, hkept⟩, fun value hsome => hvalue value (hresult.symm.trans hsome)⟩

theorem Serves.flush (h : c.Serves f) : c.flush.Serves f' := by
  obtain ⟨p, hsim, -⟩ := h
  exact ⟨_, (simulates_step .flush hsim).2, fun e he => absurd he not_mem_nil⟩

theorem Serves.reclaim (h : c.Serves f) (budget : ℕ) : (c.reclaim budget).Serves f := by
  obtain ⟨p, hsim, hholds⟩ := h
  exact ⟨p, (simulates_step (.reclaim budget) hsim).2, hholds⟩

theorem Serves.limits_step (h : c.Serves f) (call : CacheCall κ β) :
    (c.step call).1.capacity = c.capacity ∧ (c.step call).1.idleTimeout = c.idleTimeout := by
  obtain ⟨p, hsim, -⟩ := h
  obtain ⟨_, hafter, -⟩ := (simulates_step call hsim).2
  obtain ⟨stale, hrep, -⟩ := hsim
  obtain ⟨hcapacity, hidle⟩ := p.limits_step call
  exact ⟨hafter.capacity.trans (hcapacity.trans hrep.capacity.symm),
    hafter.idleTimeout.trans (hidle.trans hrep.idleTimeout.symm)⟩

theorem Serves.get_put (h : c.Serves f) (hcapacity : c.capacity ≠ 0) (key : κ) (value : β)
    {now later : Time} (hfresh : later - now ≤ c.idleTimeout) :
    ((c.put key value now).get key later).2 = some value := by
  obtain ⟨p, hsim, -⟩ := h
  obtain ⟨stale, hrep, -⟩ := id hsim
  have hput := (simulates_step (.put key value now) hsim).2
  exact (simulates_step (.get key later) hput).1.trans
    (PlainCache.get_put (hrep.capacity ▸ hcapacity) key value (hrep.idleTimeout ▸ hfresh))

theorem Serves.get_isSome_iff (h : c.Serves f) (key : κ) (now : Time) :
    (c.get key now).2.isSome = true ↔ ∃ value seen, (key, value, seen) ∈ c.visitLive now := by
  obtain ⟨p, hsim, -⟩ := h
  obtain ⟨stale, hrep, -⟩ := id hsim
  have hresult : (c.get key now).2 = (p.get key now).2 := (simulates_step (.get key now) hsim).1
  rw [hresult, hrep.visitLive]
  exact PlainCache.get_isSome_iff hrep.nodup_plain key now

end LruCache

end Tuntom
