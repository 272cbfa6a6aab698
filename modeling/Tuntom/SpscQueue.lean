import Tuntom.Transition

/-! The queue of `switch_mp/queues.hpp` between one producer and one consumer, with every
load and store of a shared index and every access to a slot as a step of its own. -/
namespace Tuntom.Mp
open Transition List

structure Spsc (α : Type) where
  count : ℕ
  write : ℕ := 0
  /-- The producer's copy of `read`. -/
  readCache : ℕ := 0
  read : ℕ := 0
  /-- The consumer's copy of `write`. -/
  writeCache : ℕ := 0
  slots : ℕ → Option α := fun _ => none

def Spsc.next {α : Type} (q : Spsc α) (current : ℕ) : ℕ :=
  if current + 1 = q.count then 0 else current + 1

/-- Where a call of `push` stands: before the load of `read_`, before the store into the
slot, before the store of `write_`. -/
inductive Pushing (α : Type) where
  | idle
  | refresh (item : α) (current : ℕ)
  | fill (item : α) (current : ℕ)
  | publish (item : α) (current : ℕ)

/-- Where a call of `pop` stands: before the load of `write_`, before the load from the
slot, before the store of `read_`. -/
inductive Popping (α : Type) where
  | idle
  | refresh (current : ℕ)
  | take (current : ℕ)
  | advance (item : Option α) (current : ℕ)

inductive SpscEvent (α : Type) where
  | quiet
  | stored (slot : ℕ)
  | pushed (item : α)
  | full (item : α)
  | fetched (slot : ℕ)
  | popped (item : Option α)
  | empty

/-- A call begins with the load of the caller's own index; `produce` and `consume` are the
next steps of the calls. -/
inductive SpscAction (α : Type) where
  | push (item : α)
  | produce
  | pop
  | consume

structure SpscState (α : Type) where
  queue : Spsc α
  producer : Pushing α := .idle
  consumer : Popping α := .idle

variable {α : Type}

namespace SpscState

def start (capacity : ℕ) : SpscState α := { queue := { count := capacity + 1 } }

def push (s : SpscState α) (item : α) : SpscState α × SpscEvent α :=
  match s.producer with
  | .idle =>
    let current := s.queue.write
    if s.queue.next current = s.queue.readCache then
      ({ s with producer := .refresh item current }, .quiet)
    else ({ s with producer := .fill item current }, .quiet)
  | _ => (s, .quiet)

def produce (s : SpscState α) : SpscState α × SpscEvent α :=
  match s.producer with
  | .idle => (s, .quiet)
  | .refresh item current =>
    let queue := { s.queue with readCache := s.queue.read }
    if queue.next current = queue.readCache then
      ({ s with queue := queue, producer := .idle }, .full item)
    else ({ s with queue := queue, producer := .fill item current }, .quiet)
  | .fill item current =>
    let slots := Function.update s.queue.slots current (some item)
    ({ s with queue := { s.queue with slots := slots }, producer := .publish item current },
      .stored current)
  | .publish item current =>
    let write := s.queue.next current
    ({ s with queue := { s.queue with write := write }, producer := .idle }, .pushed item)

def pop (s : SpscState α) : SpscState α × SpscEvent α :=
  match s.consumer with
  | .idle =>
    let current := s.queue.read
    if current = s.queue.writeCache then ({ s with consumer := .refresh current }, .quiet)
    else ({ s with consumer := .take current }, .quiet)
  | _ => (s, .quiet)

def consume (s : SpscState α) : SpscState α × SpscEvent α :=
  match s.consumer with
  | .idle => (s, .quiet)
  | .refresh current =>
    let queue := { s.queue with writeCache := s.queue.write }
    if current = queue.writeCache then
      ({ s with queue := queue, consumer := .idle }, .empty)
    else ({ s with queue := queue, consumer := .take current }, .quiet)
  | .take current => ({ s with consumer := .advance (s.queue.slots current) current }, .fetched current)
  | .advance item current =>
    let read := s.queue.next current
    ({ s with queue := { s.queue with read := read }, consumer := .idle }, .popped item)

def step (s : SpscState α) : SpscAction α → SpscState α × SpscEvent α
  | .push item => s.push item
  | .produce => s.produce
  | .pop => s.pop
  | .consume => s.consume

end SpscState

abbrev SpscHistory (α : Type) := List (SpscAction α × SpscEvent α)

def SpscEvent.pushes : SpscEvent α → List α
  | .pushed item => [item]
  | _ => []

def SpscEvent.pops : SpscEvent α → List (Option α)
  | .popped item => [item]
  | _ => []

def SpscEvent.stores : SpscEvent α → List ℕ
  | .stored slot => [slot]
  | _ => []

def SpscEvent.fetches : SpscEvent α → List ℕ
  | .fetched slot => [slot]
  | _ => []

namespace SpscHistory

/-- The items of the calls of `push` that returned true, oldest first. -/
def pushed (past : SpscHistory α) : List α := past.reverse.flatMap fun x => x.2.pushes

/-- The items that calls of `pop` returned, oldest first. -/
def popped (past : SpscHistory α) : List (Option α) := past.reverse.flatMap fun x => x.2.pops

def stores (past : SpscHistory α) : List ℕ := past.reverse.flatMap fun x => x.2.stores

def fetches (past : SpscHistory α) : List ℕ := past.reverse.flatMap fun x => x.2.fetches

end SpscHistory

/-! ### Indices as counters -/

variable {n : ℕ} {s : SpscState α}

theorem mod_eq_mod_iff {a b : ℕ} (hab : a ≤ b) (hlt : b < a + n) : b % n = a % n ↔ b = a := by
  constructor
  · intro h
    have hdvd := (Nat.modEq_iff_dvd' hab).mp (show a ≡ b [MOD n] from h.symm)
    have hzero := Nat.eq_zero_of_dvd_of_lt hdvd (by omega)
    omega
  · rintro rfl
    rfl

theorem next_mod {q : Spsc α} {k : ℕ} (hq : q.count = n + 1) :
    q.next (k % (n + 1)) = (k + 1) % (n + 1) := by
  have hlt : k % (n + 1) < n + 1 := Nat.mod_lt k (Nat.succ_pos n)
  rw [Spsc.next, hq, ← Nat.mod_add_mod k]
  split
  next hlast => rw [hlast, Nat.mod_self]
  next hnot => exact (Nat.mod_eq_of_lt (by omega)).symm

theorem next_mod_eq_iff {w c : ℕ} (hle : c ≤ w) (hroom : w ≤ c + n) :
    (w + 1) % (n + 1) = c % (n + 1) ↔ w = c + n := by
  rw [← Nat.add_mod_right c (n + 1)]
  constructor
  · intro h
    have := (mod_eq_mod_iff (show w + 1 ≤ c + (n + 1) by omega) (by omega)).mp h.symm
    omega
  · rintro rfl
    rfl

/-! ### The invariant -/

/-- The slots that a call of `push` has found free and not yet published. -/
def Pushing.reserved : Pushing α → ℕ
  | .idle | .refresh _ _ => 0
  | .fill _ _ | .publish _ _ => 1

/-- What the place of the producer says when `w` items were pushed. -/
def Pushing.Valid (n w : ℕ) (slots : ℕ → Option α) : Pushing α → Prop
  | .idle => True
  | .refresh _ current | .fill _ current => current = w % (n + 1)
  | .publish item current => current = w % (n + 1) ∧ slots current = some item

/-- The items that a call of `pop` has found and not yet given back. -/
def Popping.claimed : Popping α → ℕ
  | .idle | .refresh _ => 0
  | .take _ | .advance _ _ => 1

/-- What the place of the consumer says when `r` items were popped. -/
def Popping.Valid (n r : ℕ) (pushed : List α) : Popping α → Prop
  | .idle => True
  | .refresh current | .take current => current = r % (n + 1)
  | .advance item current => current = r % (n + 1) ∧ r < pushed.length ∧ item = pushed[r]?

/-- The indices are the numbers of items pushed and popped, modulo the ring size; a cached
index is such a number from earlier, and the slots between the indices hold the items
pushed and not yet popped. -/
structure SpscInv (n : ℕ) (pushed : List α) (r : ℕ) (s : SpscState α) : Prop where
  count : s.queue.count = n + 1
  write : s.queue.write = pushed.length % (n + 1)
  read : s.queue.read = r % (n + 1)
  readCache : ∃ c, s.queue.readCache = c % (n + 1) ∧ c ≤ r ∧
    pushed.length + s.producer.reserved ≤ c + n
  writeCache : ∃ d, s.queue.writeCache = d % (n + 1) ∧ r + s.consumer.claimed ≤ d ∧
    d ≤ pushed.length
  content : ∀ k, r ≤ k → k < pushed.length → s.queue.slots (k % (n + 1)) = pushed[k]?
  producer : s.producer.Valid n pushed.length s.queue.slots
  consumer : s.consumer.Valid n r pushed

/-- What an event says of the queue before the step: `full` and `empty` are answered at the
load of the other side's index. -/
def SpscEvent.Sound (n r : ℕ) (pushed : List α) : SpscEvent α → Prop
  | .quiet | .pushed _ => True
  | .stored slot => slot = pushed.length % (n + 1) ∧ pushed.length < r + n
  | .full _ => pushed.length = r + n
  | .fetched slot => slot = r % (n + 1)
  | .popped item => r < pushed.length ∧ item = pushed[r]?
  | .empty => pushed.length = r

theorem spscInv_start (n : ℕ) : SpscInv n ([] : List α) 0 (SpscState.start n) where
  count := rfl
  write := rfl
  read := rfl
  readCache := ⟨0, rfl, Nat.le_refl _, Nat.zero_le _⟩
  writeCache := ⟨0, rfl, Nat.le_refl _, Nat.le_refl _⟩
  content := by simp
  producer := trivial
  consumer := trivial

theorem Popping.Valid.append {r : ℕ} {pushed : List α} {p : Popping α} (h : p.Valid n r pushed)
    (item : α) : p.Valid n r (pushed ++ [item]) := by
  cases p with
  | idle => trivial
  | refresh current | take current => exact h
  | advance taken current =>
    refine ⟨h.1, h.2.1.trans (by simp), ?_⟩
    rw [List.getElem?_append_left h.2.1]
    exact h.2.2

namespace SpscInv

variable {n r : ℕ} {pushed : List α} {s : SpscState α}

theorem claimed_le (h : SpscInv n pushed r s) : r + s.consumer.claimed ≤ pushed.length := by
  obtain ⟨d, -, hrd, hdw⟩ := h.writeCache
  omega

theorem read_le (h : SpscInv n pushed r s) : r ≤ pushed.length := by
  obtain ⟨d, -, hrd, hdw⟩ := h.writeCache
  omega

theorem room (h : SpscInv n pushed r s) : pushed.length + s.producer.reserved ≤ r + n := by
  obtain ⟨c, -, hcr, hroom⟩ := h.readCache
  omega

/-! #### The producer -/

theorem push (h : SpscInv n pushed r s) (item : α) :
    SpscInv n pushed r (s.push item).1 ∧ (s.push item).2 = .quiet := by
  rw [SpscState.push]
  split
  next hidle =>
    obtain ⟨c, hc, hcr, hroom⟩ := h.readCache
    rw [hidle] at hroom
    dsimp only
    split
    · exact ⟨{ h with producer := h.write, readCache := ⟨c, hc, hcr, hroom⟩ }, rfl⟩
    next hfree =>
    have hle := h.read_le
    rw [h.write, next_mod h.count, hc, next_mod_eq_iff (hcr.trans hle) hroom] at hfree
    refine ⟨{ h with producer := h.write, readCache := ⟨c, hc, hcr, ?_⟩ }, rfl⟩
    change pushed.length + 0 ≤ c + n at hroom
    change pushed.length + 1 ≤ c + n
    omega
  · exact ⟨h, rfl⟩

variable {current : ℕ}

theorem next_eq_read_iff (h : SpscInv n pushed r s) {item : α}
    (hp : s.producer = .refresh item current) :
    s.queue.next current = s.queue.read ↔ pushed.length = r + n := by
  have hcurrent := h.producer
  have hroom := h.room
  rw [hp] at hcurrent hroom
  rw [show current = _ from hcurrent, next_mod h.count, h.read, next_mod_eq_iff h.read_le hroom]

theorem fill (h : SpscInv n pushed r s) {item : α} (hp : s.producer = .fill item current) :
    SpscInv n pushed r { s with
      queue := { s.queue with slots := Function.update s.queue.slots current (some item) }
      producer := .publish item current } := by
  have hcurrent := h.producer
  have hroom := h.room
  have hcache := h.readCache
  rw [hp] at hcurrent hroom hcache
  change current = pushed.length % (n + 1) at hcurrent
  change pushed.length + 1 ≤ r + n at hroom
  refine { h with content := fun k hk hlt => ?_, producer := ⟨hcurrent, ?_⟩, readCache := hcache }
  · have hne : k % (n + 1) ≠ current := by
      rw [hcurrent, ne_comm, ne_eq, mod_eq_mod_iff hlt.le (by omega)]
      omega
    exact (Function.update_of_ne hne _ _).trans (h.content k hk hlt)
  · exact Function.update_self ..

/-- The store of `write_` makes the item one of the queue. -/
theorem publish (h : SpscInv n pushed r s) {item : α} (hp : s.producer = .publish item current) :
    SpscInv n (pushed ++ [item]) r { s with
      queue := { s.queue with write := s.queue.next current }, producer := .idle } := by
  have hproducer := h.producer
  obtain ⟨c, hc, hcr, hroom⟩ := h.readCache
  obtain ⟨d, hd, hrd, hdw⟩ := h.writeCache
  rw [hp] at hproducer hroom
  obtain ⟨rfl, hslot⟩ := hproducer
  have hlength : (pushed ++ [item]).length = pushed.length + 1 := by simp
  change pushed.length + 1 ≤ c + n at hroom
  exact {
    count := h.count
    write := by rw [hlength]; exact next_mod h.count
    read := h.read
    readCache := ⟨c, hc, hcr, by rw [hlength]; exact hroom⟩
    writeCache := ⟨d, hd, hrd, by omega⟩
    content := fun k hk hlt => by
      by_cases hlast : k = pushed.length
      · rw [hlast, List.getElem?_concat_length]
        exact hslot
      · rw [List.getElem?_append_left (by omega)]
        exact h.content k hk (by omega)
    producer := trivial
    consumer := h.consumer.append item }

theorem produce (h : SpscInv n pushed r s) :
    SpscInv n (pushed ++ s.produce.2.pushes) (r + s.produce.2.pops.length) s.produce.1 ∧
      s.produce.2.Sound n r pushed := by
  have hproducer := h.producer
  have hroom := h.room
  rw [SpscState.produce]
  split
  · exact ⟨by simpa [SpscEvent.pushes, SpscEvent.pops] using h, trivial⟩
  next item current hp =>
    have hiff := h.next_eq_read_iff hp
    rw [hp] at hproducer hroom
    change pushed.length + 0 ≤ r + n at hroom
    dsimp only
    split
    next hfull =>
      have hinv : SpscInv n pushed r { s with
          queue := { s.queue with readCache := s.queue.read }, producer := .idle } :=
        { h with readCache := ⟨r, h.read, le_rfl, hroom⟩, producer := trivial }
      exact ⟨by simpa [SpscEvent.pushes, SpscEvent.pops] using hinv, hiff.mp hfull⟩
    next hfree =>
    have hne : pushed.length ≠ r + n := fun heq => hfree (hiff.mpr heq)
    have hinv : SpscInv n pushed r { s with
        queue := { s.queue with readCache := s.queue.read }, producer := .fill item current } :=
      { h with
        readCache := ⟨r, h.read, le_rfl, show pushed.length + 1 ≤ r + n by omega⟩
        producer := hproducer }
    exact ⟨by simpa [SpscEvent.pushes, SpscEvent.pops] using hinv, trivial⟩
  next hp =>
    refine ⟨by simpa [SpscEvent.pushes, SpscEvent.pops] using h.fill hp, ?_⟩
    rw [hp] at hproducer hroom
    exact ⟨hproducer, hroom⟩
  next hp => exact ⟨by simpa [SpscEvent.pushes, SpscEvent.pops] using h.publish hp, trivial⟩

/-! #### The consumer -/

theorem pop (h : SpscInv n pushed r s) : SpscInv n pushed r s.pop.1 ∧ s.pop.2 = .quiet := by
  rw [SpscState.pop]
  split
  next hidle =>
    obtain ⟨d, hd, hrd, hdw⟩ := h.writeCache
    rw [hidle] at hrd
    dsimp only
    split
    · exact ⟨{ h with consumer := h.read, writeCache := ⟨d, hd, hrd, hdw⟩ }, rfl⟩
    next hsome =>
    have hne : d ≠ r := by
      rintro rfl
      exact hsome (h.read.trans hd.symm)
    change r + 0 ≤ d at hrd
    exact ⟨{ h with consumer := h.read
                    writeCache := ⟨d, hd, show r + 1 ≤ d by omega, hdw⟩ }, rfl⟩
  · exact ⟨h, rfl⟩

theorem current_eq_write_iff (h : SpscInv n pushed r s) (hc : s.consumer = .refresh current) :
    current = s.queue.write ↔ pushed.length = r := by
  have hcurrent := h.consumer
  have hroom := h.room
  rw [hc] at hcurrent
  rw [show current = _ from hcurrent, h.write, eq_comm, mod_eq_mod_iff h.read_le (by omega)]

theorem take (h : SpscInv n pushed r s) (hc : s.consumer = .take current) :
    SpscInv n pushed r { s with consumer := .advance (s.queue.slots current) current } := by
  have hcurrent := h.consumer
  have hcache := h.writeCache
  have hlt := h.claimed_le
  rw [hc] at hcurrent hcache hlt
  change current = r % (n + 1) at hcurrent
  refine { h with writeCache := hcache, consumer := ⟨hcurrent, hlt, ?_⟩ }
  rw [hcurrent]
  exact h.content r le_rfl hlt

theorem advance (h : SpscInv n pushed r s) {item : Option α}
    (hc : s.consumer = .advance item current) :
    SpscInv n pushed (r + 1) { s with
      queue := { s.queue with read := s.queue.next current }, consumer := .idle } := by
  have hconsumer := h.consumer
  obtain ⟨c, hcache, hcr, hroom⟩ := h.readCache
  obtain ⟨d, hd, hrd, hdw⟩ := h.writeCache
  rw [hc] at hconsumer hrd
  obtain ⟨rfl, -, -⟩ := hconsumer
  exact {
    count := h.count
    write := h.write
    read := next_mod h.count
    readCache := ⟨c, hcache, by omega, hroom⟩
    writeCache := ⟨d, hd, hrd, hdw⟩
    content := fun k hk hlt => h.content k (by omega) hlt
    producer := h.producer
    consumer := trivial }

theorem consume (h : SpscInv n pushed r s) :
    SpscInv n (pushed ++ s.consume.2.pushes) (r + s.consume.2.pops.length) s.consume.1 ∧
      s.consume.2.Sound n r pushed := by
  have hconsumer := h.consumer
  rw [SpscState.consume]
  split
  · exact ⟨by simpa [SpscEvent.pushes, SpscEvent.pops] using h, trivial⟩
  next current hc =>
    have hiff := h.current_eq_write_iff hc
    have hle := h.read_le
    rw [hc] at hconsumer
    dsimp only
    split
    next hempty =>
      have hinv : SpscInv n pushed r { s with
          queue := { s.queue with writeCache := s.queue.write }, consumer := .idle } :=
        { h with writeCache := ⟨pushed.length, h.write, hle, le_rfl⟩, consumer := trivial }
      exact ⟨by simpa [SpscEvent.pushes, SpscEvent.pops] using hinv, hiff.mp hempty⟩
    next hsome =>
    have hne : pushed.length ≠ r := fun heq => hsome (hiff.mpr heq)
    have hinv : SpscInv n pushed r { s with
        queue := { s.queue with writeCache := s.queue.write }, consumer := .take current } :=
      { h with
        writeCache := ⟨pushed.length, h.write, show r + 1 ≤ pushed.length by omega, le_rfl⟩
        consumer := hconsumer }
    exact ⟨by simpa [SpscEvent.pushes, SpscEvent.pops] using hinv, trivial⟩
  next hc =>
    refine ⟨by simpa [SpscEvent.pushes, SpscEvent.pops] using h.take hc, ?_⟩
    rw [hc] at hconsumer
    exact hconsumer
  next hc =>
  refine ⟨by simpa [SpscEvent.pushes, SpscEvent.pops] using h.advance hc, ?_⟩
  rw [hc] at hconsumer
  exact hconsumer.2

theorem step (h : SpscInv n pushed r s) (a : SpscAction α) :
    SpscInv n (pushed ++ (s.step a).2.pushes) (r + (s.step a).2.pops.length) (s.step a).1 ∧
      (s.step a).2.Sound n r pushed := by
  cases a with
  | push item =>
    obtain ⟨hinv, hquiet⟩ := h.push item
    rw [SpscState.step, hquiet]
    exact ⟨by simpa [SpscEvent.pushes, SpscEvent.pops] using hinv, trivial⟩
  | produce => exact h.produce
  | pop =>
    obtain ⟨hinv, hquiet⟩ := h.pop
    rw [SpscState.step, hquiet]
    exact ⟨by simpa [SpscEvent.pushes, SpscEvent.pops] using hinv, trivial⟩
  | consume => exact h.consume

end SpscInv

/-! ### Runs -/

namespace SpscHistory

variable (x : SpscAction α × SpscEvent α) (past : SpscHistory α)

@[simp] theorem pushed_cons : pushed (x :: past) = pushed past ++ x.2.pushes := by
  simp [pushed]

@[simp] theorem popped_cons : popped (x :: past) = popped past ++ x.2.pops := by
  simp [popped]

@[simp] theorem stores_cons : stores (x :: past) = stores past ++ x.2.stores := by
  simp [stores]

@[simp] theorem fetches_cons : fetches (x :: past) = fetches past ++ x.2.fetches := by
  simp [fetches]

theorem stores_append (later past : SpscHistory α) :
    stores (later ++ past) = stores past ++ stores later := by
  simp [stores]

theorem fetches_append (later past : SpscHistory α) :
    fetches (later ++ past) = fetches past ++ fetches later := by
  simp [fetches]

theorem mem_fetches {past : SpscHistory α} {slot : ℕ} (h : slot ∈ fetches past) :
    ∃ z ∈ past, z.2 = .fetched slot := by
  obtain ⟨z, hz, hslot⟩ := mem_flatMap.mp h
  refine ⟨z, mem_reverse.mp hz, ?_⟩
  cases he : z.2 with
  | fetched other =>
    rw [he] at hslot
    rw [mem_singleton.mp hslot]
  | _ =>
    rw [he] at hslot
    cases hslot

end SpscHistory

/-- The stores of a call of `push` into its slot that are not yet published. -/
def Pushing.filled : Pushing α → ℕ
  | .publish _ _ => 1
  | _ => 0

/-- The loads of a call of `pop` from its slot that have not yet given it back. -/
def Popping.fetched : Popping α → ℕ
  | .advance _ _ => 1
  | _ => 0

theorem step_filled (s : SpscState α) (a : SpscAction α) :
    (s.step a).2.stores.length + s.producer.filled =
      (s.step a).2.pushes.length + (s.step a).1.producer.filled := by
  obtain ⟨q, p, c⟩ := s
  cases a <;> cases p <;> cases c <;>
    simp only [SpscState.step, SpscState.push, SpscState.produce, SpscState.pop, SpscState.consume] <;>
    (try split) <;> rfl

theorem step_fetched (s : SpscState α) (a : SpscAction α) :
    (s.step a).2.fetches.length + s.consumer.fetched =
      (s.step a).2.pops.length + (s.step a).1.consumer.fetched := by
  obtain ⟨q, p, c⟩ := s
  cases a <;> cases p <;> cases c <;>
    simp only [SpscState.step, SpscState.push, SpscState.produce, SpscState.pop, SpscState.consume] <;>
    (try split) <;> rfl

open SpscHistory

/-- The invariant along a history: what was popped are the first items pushed, and the
slots are filled and emptied in turn. -/
structure SpscRun (n : ℕ) (past : SpscHistory α) (s : SpscState α) : Prop where
  inv : SpscInv n (pushed past) (popped past).length s
  fifo : popped past <+: (pushed past).map some
  stores : (stores past).length = (pushed past).length + s.producer.filled
  fetches : fetches past =
    (List.range ((popped past).length + s.consumer.fetched)).map (· % (n + 1))

theorem prefix_step {pushed : List α} {popped : List (Option α)} {e : SpscEvent α}
    (h : popped <+: pushed.map some) (hsound : e.Sound n popped.length pushed) :
    popped ++ e.pops <+: (pushed ++ e.pushes).map some := by
  rw [map_append]
  cases e with
  | popped item =>
    obtain ⟨hlt, rfl⟩ := hsound
    obtain ⟨rest, hrest⟩ := h
    have hget : (pushed.map some)[popped.length]? = some pushed[popped.length]? := by
      rw [List.getElem?_map, List.getElem?_eq_getElem hlt]
      rfl
    rw [← hrest, List.getElem?_append_right le_rfl, Nat.sub_self] at hget
    obtain ⟨others, rfl⟩ : ∃ others, rest = pushed[popped.length]? :: others := by
      cases rest with
      | nil => cases hget
      | cons a others => exact ⟨others, by rw [Option.some.inj hget]⟩
    exact ⟨others, by simp [SpscEvent.pops, SpscEvent.pushes, ← hrest]⟩
  | _ =>
    simp only [SpscEvent.pops, append_nil]
    exact h.trans (prefix_append ..)

theorem fetches_step {r : ℕ} {slots : List ℕ} (a : SpscAction α) {pushed : List α}
    (hsound : (s.step a).2.Sound n r pushed)
    (h : slots = (List.range (r + s.consumer.fetched)).map (· % (n + 1))) :
    slots ++ (s.step a).2.fetches = (List.range (r + (s.step a).2.pops.length +
      (s.step a).1.consumer.fetched)).map (· % (n + 1)) := by
  have hcount := step_fetched s a
  have hle : (s.step a).1.consumer.fetched ≤ 1 := by
    cases (s.step a).1.consumer <;> simp [Popping.fetched]
  generalize (s.step a).2 = e at *
  cases e with
  | fetched slot =>
    simp only [SpscEvent.fetches, SpscEvent.pops, length_singleton, length_nil] at hcount ⊢
    obtain ⟨hbefore, hafter⟩ : s.consumer.fetched = 0 ∧ (s.step a).1.consumer.fetched = 1 := by
      omega
    rw [h, hbefore, hafter, Nat.add_zero, range_succ, map_append]
    exact congrArg _ (congrArg (fun x => [x]) hsound)
  | _ =>
    simp only [SpscEvent.fetches, SpscEvent.pops, length_nil, length_singleton,
      append_nil] at hcount ⊢
    rw [h]
    congr 2
    omega

theorem spscRun {past : SpscHistory α} (h : Trace SpscState.step (SpscState.start n) past s) :
    SpscRun n past s := by
  refine h.invariant (SpscRun n) ?_ ?_
  · exact ⟨spscInv_start n, List.nil_prefix, rfl, rfl⟩
  · intro past s a _ hrun
    obtain ⟨hinv, hsound⟩ := hrun.inv.step a
    have hfilled := step_filled s a
    have hstores := hrun.stores
    refine ⟨?_, ?_, ?_, ?_⟩
    · rw [pushed_cons, popped_cons, length_append]
      exact hinv
    · rw [pushed_cons, popped_cons]
      exact prefix_step hrun.fifo hsound
    · rw [stores_cons, pushed_cons, length_append, length_append]
      dsimp only
      omega
    · rw [fetches_cons, popped_cons, length_append]
      exact fetches_step a hsound hrun.fetches

theorem exists_before {x : SpscAction α × SpscEvent α} {past : SpscHistory α}
    (h : Trace SpscState.step (SpscState.start n) (x :: past) s) :
    ∃ before, SpscRun n past before ∧ x.2 = (before.step x.1).2 := by
  cases h with
  | cons a h => exact ⟨_, spscRun h, rfl⟩

theorem stored_before {a : SpscAction α} {slot : ℕ} (h : (s.step a).2 = .stored slot) :
    s.producer.filled = 0 := by
  have hcount := step_filled s a
  have hle : (s.step a).1.producer.filled ≤ 1 := by
    cases (s.step a).1.producer <;> simp [Pushing.filled]
  rw [h] at hcount
  simp only [SpscEvent.stores, SpscEvent.pushes, length_singleton, length_nil] at hcount
  omega

theorem fetched_between {x y : SpscAction α × SpscEvent α} {later earlier : SpscHistory α}
    {slot : ℕ} (h : Trace SpscState.step (SpscState.start n) (x :: (later ++ y :: earlier)) s)
    (hx : x.2 = .stored slot) (hy : y.2 = .stored slot) : ∃ z ∈ later, z.2 = .fetched slot := by
  obtain ⟨sx, hrunx, hex⟩ := exists_before h
  obtain ⟨_, htracey⟩ := @Trace.suffix _ _ _ _ _ (x :: later) _ _ h
  obtain ⟨sy, hruny, hey⟩ := exists_before htracey
  rw [hx] at hex
  rw [hy] at hey
  have hsoundx := (hrunx.inv.step x.1).2
  have hsoundy := (hruny.inv.step y.1).2
  rw [← hex] at hsoundx
  rw [← hey] at hsoundy
  obtain ⟨hslotx, hroom⟩ := hsoundx
  obtain ⟨hsloty, -⟩ := hsoundy
  -- The first of the two stores is published before the second is made.
  have hmore : (pushed earlier).length < (pushed (later ++ y :: earlier)).length := by
    have hstoresx := hrunx.stores
    have hstoresy := hruny.stores
    rw [stored_before hex.symm] at hstoresx
    rw [stored_before hey.symm] at hstoresy
    rw [stores_append, stores_cons, hy, length_append, length_append] at hstoresx
    change (stores earlier).length + 1 + _ = _ at hstoresx
    omega
  have hturn : (pushed earlier).length + (n + 1) ≤ (pushed (later ++ y :: earlier)).length := by
    by_contra hnear
    have hsame := (mod_eq_mod_iff hmore.le (by omega)).mp (hslotx.symm.trans hsloty)
    omega
  -- So the load that belongs to the first store comes after it and before the second.
  have hlow : (fetches earlier).length ≤ (pushed earlier).length := by
    have hclaimed := hruny.inv.claimed_le
    have hfetched : sy.consumer.fetched ≤ sy.consumer.claimed := by
      cases sy.consumer <;> simp [Popping.fetched, Popping.claimed]
    rw [hruny.fetches, length_map, length_range]
    omega
  have hget : (fetches (later ++ y :: earlier))[(pushed earlier).length]? = some slot := by
    rw [hrunx.fetches, List.getElem?_map, List.getElem?_range (by omega), hsloty]
    rfl
  have hnone : y.2.fetches = [] := by
    rw [hy]
    rfl
  rw [fetches_append, fetches_cons, hnone, append_nil,
    List.getElem?_append_right hlow] at hget
  exact mem_fetches (mem_of_getElem? hget)

/-- Along every interleaving of the steps: the items popped are the first of the items
pushed, at most `capacity` items are in the queue, a slot is read between two stores into
it, and a call fails only if the queue is full or empty at its load of the other index. -/
theorem spsc_bounded_fifo (capacity : ℕ) {past : SpscHistory α} {s : SpscState α}
    (h : Trace SpscState.step (SpscState.start capacity) past s) :
    popped past <+: (pushed past).map some ∧
    (pushed past).length ≤ (popped past).length + capacity ∧
    (∀ after x later y earlier slot, past = after ++ x :: (later ++ y :: earlier) →
      x.2 = .stored slot → y.2 = .stored slot → ∃ z ∈ later, z.2 = .fetched slot) ∧
    (∀ a item, (s.step a).2 = .full item →
      (pushed past).length = (popped past).length + capacity) ∧
    ∀ a, (s.step a).2 = .empty → (pushed past).length = (popped past).length := by
  have hrun := spscRun h
  have hroom := hrun.inv.room
  refine ⟨hrun.fifo, by omega, ?_, fun a item hfull => ?_, fun a hempty => ?_⟩
  · rintro after x later y earlier slot rfl hx hy
    obtain ⟨_, hsuffix⟩ := h.suffix
    exact fetched_between hsuffix hx hy
  · have hsound := (hrun.inv.step a).2
    rw [hfull] at hsound
    exact hsound
  · have hsound := (hrun.inv.step a).2
    rw [hempty] at hsound
    exact hsound

/-- Two items through a queue of one place, the second one refused at first. -/
def sampleActions : List (SpscAction ℕ) :=
  [.push 7, .produce, .produce, .push 8, .produce, .pop, .consume, .consume, .consume,
    .push 8, .produce, .produce, .produce, .pop, .consume, .consume, .consume]

theorem spsc_bounded_fifo_sample :
    pushed (run SpscState.step (SpscState.start 1) sampleActions).1 = [7, 8] ∧
      popped (run SpscState.step (SpscState.start 1) sampleActions).1 <+: [some 7, some 8] := by
  have hpushed : pushed (run SpscState.step (SpscState.start 1) sampleActions).1 = [7, 8] := by
    decide
  have hfifo := (spsc_bounded_fifo 1 (trace_run sampleActions)).1
  rw [hpushed] at hfifo
  exact ⟨hpushed, hfifo⟩

end Tuntom.Mp
