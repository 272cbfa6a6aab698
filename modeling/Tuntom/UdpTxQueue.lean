import Tuntom.Packet
import Tuntom.Transition

/-! `UdpTxQueue`: the bounded FIFO of encoded datagrams that the UDP socket did not take. Each
datagram has a note beside it that no operation reads. -/
namespace Tuntom

def millisecond : Time := 1000000

structure QueuedDatagram (γ : Type) where
  wire : Bytes
  created : Time
  note : γ
  deriving DecidableEq, Repr

structure UdpTxQueue (γ : Type) where
  entries : List (QueuedDatagram γ) := []
  retryAt : Time := 0
  deriving DecidableEq, Repr

inductive SendError where
  | again
  | interrupted
  | messageSize
  | other
  deriving DecidableEq, Repr

inductive SendResult where
  | sent (bytes : ℕ)
  | failed (error : SendError)
  deriving DecidableEq, Repr

namespace UdpTxQueue

variable {γ : Type}

def capacity : ℕ := 64
def byteLimit : ℕ := 256 * 1024
def maxAge : Time := 100 * millisecond
def retryDelay : Time := millisecond

def bytes (q : UdpTxQueue γ) : ℕ := (q.entries.map fun e => e.wire.length).sum

def fits (q : UdpTxQueue γ) (count bytes : ℕ) : Bool :=
  count ≤ capacity - q.entries.length && bytes ≤ byteLimit - q.bytes

def writableInterest (q : UdpTxQueue γ) (now : Time) : Bool := q.entries ≠ [] && q.retryAt ≤ now

/-- `pop`: an empty queue has nothing to retry. -/
def pop (q : UdpTxQueue γ) : UdpTxQueue γ :=
  match q.entries with
  | [] => q
  | _ :: rest => { entries := rest, retryAt := if rest = [] then 0 else q.retryAt }

/-- The loop of `expire`, over the entries from the head on. -/
def expireFrom (now retryAt : Time) : List (QueuedDatagram γ) → UdpTxQueue γ
  | [] => { retryAt := retryAt }
  | e :: rest =>
    if maxAge ≤ now - e.created then expireFrom now (if rest = [] then 0 else retryAt) rest
    else { entries := e :: rest, retryAt := retryAt }

def expire (q : UdpTxQueue γ) (now : Time) : UdpTxQueue γ := expireFrom now q.retryAt q.entries

def discard (q : UdpTxQueue γ) : UdpTxQueue γ := if q.entries = [] then q else {}

def blocked (q : UdpTxQueue γ) (now : Time) : UdpTxQueue γ := { q with retryAt := now + retryDelay }

/-- Whether `append` admits the whole suffix: its bytes and the free slots. -/
def admits (q : UdpTxQueue γ) (packets : List (Bytes × γ)) : Bool :=
  packets.all (fun p => p.1.length ≤ 65535) &&
    (packets.map fun p => p.1.length).sum ≤ byteLimit - q.bytes &&
    packets.length ≤ capacity - q.entries.length

/-- `append`: all of the datagrams or none. -/
def append (q : UdpTxQueue γ) (packets : List (Bytes × γ)) (now : Time) : UdpTxQueue γ :=
  let q := q.expire now
  if q.admits packets then
    { q with entries := q.entries ++ packets.map fun p => ⟨p.1, now, p.2⟩ }
  else q

/-- The loop of `flush` with the sends that are left: the queue, the datagrams that were handed to
the socket, oldest first, and the error that ended it. -/
def flushLoop (now : Time) (send : QueuedDatagram γ → SendResult) :
    ℕ → UdpTxQueue γ → UdpTxQueue γ × List (QueuedDatagram γ) × Option SendError
  | 0, q => (q, [], none)
  | left + 1, q =>
    match q.entries with
    | [] => (q, [], none)
    | e :: _ =>
      match send e with
      | .failed .again => (q.blocked now, [e], none)
      | .failed .interrupted => ({ q with retryAt := now + retryDelay }, [e], none)
      | .failed error => (q.pop, [e], some error)
      | .sent n =>
        if n ≠ e.wire.length then (q.pop, [e], some .other)
        else
          let (q, handed, error) := flushLoop now send left q.pop
          (q, e :: handed, error)

def flush (q : UdpTxQueue γ) (now : Time) (send : QueuedDatagram γ → SendResult) :
    UdpTxQueue γ × List (QueuedDatagram γ) × Option SendError :=
  let q := q.expire now
  if q.writableInterest now then flushLoop now send capacity q else (q, [], none)

/-! What the operations leave in the queue. -/

variable {q : UdpTxQueue γ} {e : QueuedDatagram γ} {now : Time}

theorem entries_pop (q : UdpTxQueue γ) : q.pop.entries = q.entries.tail := by
  rw [pop]
  split
  next h => rw [h, List.tail_nil]
  next h => rw [h, List.tail_cons]

theorem expireFrom_suffix (now retryAt : Time) (l : List (QueuedDatagram γ)) :
    (expireFrom now retryAt l).entries <:+ l := by
  induction l generalizing retryAt with
  | nil => exact List.suffix_rfl
  | cons e rest ih =>
    rw [expireFrom]
    split
    · exact (ih _).trans (List.suffix_cons e rest)
    · exact List.suffix_rfl

theorem expire_sublist (q : UdpTxQueue γ) (now : Time) : (q.expire now).entries.Sublist q.entries :=
  (expireFrom_suffix _ _ _).sublist

theorem mem_expire (h : e ∈ (q.expire now).entries) : e ∈ q.entries :=
  (expire_sublist _ _).subset h

@[simp] theorem entries_discard (q : UdpTxQueue γ) : q.discard.entries = [] := by
  rw [discard]
  split
  next h => exact h
  next => rfl

theorem mem_append {packets : List (Bytes × γ)} (h : e ∈ (q.append packets now).entries) :
    e ∈ q.entries ∨ ∃ p ∈ packets, e = ⟨p.1, now, p.2⟩ := by
  rw [append] at h
  split at h
  · rcases List.mem_append.mp h with hold | hnew
    · exact .inl (mem_expire hold)
    · obtain ⟨p, hp, rfl⟩ := List.mem_map.mp hnew
      exact .inr ⟨p, hp, rfl⟩
  · exact .inl (mem_expire h)

theorem flushLoop_mem {send : QueuedDatagram γ → SendResult} (left : ℕ) (q : UdpTxQueue γ) :
    (∀ e ∈ (flushLoop now send left q).1.entries, e ∈ q.entries) ∧
      ∀ e ∈ (flushLoop now send left q).2.1, e ∈ q.entries := by
  induction left generalizing q with
  | zero => exact ⟨fun e h => h, fun e h => absurd h List.not_mem_nil⟩
  | succ left ih =>
    have hpop : ∀ e ∈ q.pop.entries, e ∈ q.entries := by
      intro e h
      rw [entries_pop] at h
      exact List.mem_of_mem_tail h
    rw [flushLoop]
    split
    · exact ⟨fun e h => h, fun e h => absurd h List.not_mem_nil⟩
    next head rest hentries =>
    have hhead : head ∈ q.entries := hentries ▸ List.mem_cons_self
    have hone : ∀ e ∈ [head], e ∈ q.entries := fun e h => List.mem_singleton.mp h ▸ hhead
    split
    · exact ⟨fun e h => h, hone⟩
    · exact ⟨fun e h => h, hone⟩
    · exact ⟨hpop, hone⟩
    split
    · exact ⟨hpop, hone⟩
    obtain ⟨hkept, hhanded⟩ := ih q.pop
    refine ⟨fun e h => hpop e (hkept e h), fun e h => ?_⟩
    rcases List.mem_cons.mp h with rfl | hrest
    · exact hhead
    · exact hpop e (hhanded e hrest)

theorem mem_flush {send : QueuedDatagram γ → SendResult} :
    (∀ e ∈ (q.flush now send).1.entries, e ∈ q.entries) ∧
      ∀ e ∈ (q.flush now send).2.1, e ∈ q.entries := by
  rw [flush]
  split
  · obtain ⟨hkept, hhanded⟩ := @flushLoop_mem γ now send capacity (q.expire now)
    exact ⟨fun e h => mem_expire (hkept e h), fun e h => mem_expire (hhanded e h)⟩
  · exact ⟨fun e h => mem_expire h, fun e h => absurd h List.not_mem_nil⟩

/-! ### Whole runs -/

inductive Call (γ : Type) where
  | append (packets : List (Bytes × γ)) (now : Time)
  | flush (now : Time) (send : QueuedDatagram γ → SendResult)
  | expire (now : Time)
  | blocked (now : Time)
  | discard

def Call.time : Call γ → Option Time
  | .append _ now | .flush now _ | .expire now | .blocked now => some now
  | .discard => none

/-- The datagrams that a call admits, and those that the socket takes in it with the time. -/
structure Traffic (γ : Type) where
  admitted : List (QueuedDatagram γ) := []
  taken : List (QueuedDatagram γ × Time) := []

def took (send : QueuedDatagram γ → SendResult) (e : QueuedDatagram γ) : Bool :=
  send e = .sent e.wire.length

def step (q : UdpTxQueue γ) : Call γ → UdpTxQueue γ × Traffic γ
  | .append packets now => (q.append packets now,
      { admitted :=
          if (q.expire now).admits packets then packets.map fun p => ⟨p.1, now, p.2⟩ else [] })
  | .flush now send => ((q.flush now send).1,
      { taken := ((q.flush now send).2.1.filter (took send)).map fun e => (e, now) })
  | .expire now => (q.expire now, {})
  | .blocked now => (q.blocked now, {})
  | .discard => (q.discard, {})

def admitted (past : List (Call γ × Traffic γ)) : List (QueuedDatagram γ) :=
  past.reverse.flatMap (·.2.admitted)

def taken (past : List (Call γ × Traffic γ)) : List (QueuedDatagram γ × Time) :=
  past.reverse.flatMap (·.2.taken)

theorem expireFrom_young {retryAt : Time} {l : List (QueuedDatagram γ)}
    (h : l.Pairwise fun e e' => e.created ≤ e'.created) :
    ∀ e ∈ (expireFrom now retryAt l).entries, now - e.created < maxAge := by
  induction l generalizing retryAt with
  | nil => simp [expireFrom]
  | cons e rest ih =>
    obtain ⟨hfirst, hrest⟩ := List.pairwise_cons.mp h
    rw [expireFrom]
    by_cases hold : maxAge ≤ now - e.created
    · rw [if_pos hold]
      exact ih hrest
    · rw [if_neg hold]
      intro e' he'
      rcases List.mem_cons.mp he' with rfl | he'
      · exact not_le.mp hold
      · exact (sub_le_sub_left (hfirst e' he') now).trans_lt (not_le.mp hold)

theorem flushLoop_sublist {send : QueuedDatagram γ → SendResult} (left : ℕ) (q : UdpTxQueue γ) :
    ((flushLoop now send left q).2.1.filter (took send) ++
      (flushLoop now send left q).1.entries).Sublist q.entries := by
  induction left generalizing q with
  | zero => simp [flushLoop]
  | succ left ih =>
    obtain ⟨_ | ⟨e, rest⟩, t⟩ := q
    · simp [flushLoop]
    rw [flushLoop]
    cases hsend : send e with
    | failed error => cases error <;> simp [took, hsend, blocked, pop]
    | sent n =>
      by_cases hwhole : n = e.wire.length
      · simpa [took, hsend, hwhole, entries_pop] using ih (pop ⟨e :: rest, t⟩)
      · simp [took, hsend, hwhole, pop]

theorem flush_sublist (q : UdpTxQueue γ) (send : QueuedDatagram γ → SendResult) :
    ((q.flush now send).2.1.filter (took send) ++ (q.flush now send).1.entries).Sublist
      (q.expire now).entries := by
  rw [flush]
  split
  · exact flushLoop_sublist capacity _
  · simp

/-- After calls at `times`: what the socket took and what waits stand in the order of admission,
and the entries in the order of their times. -/
structure Ordered (times : List Time) (past : List (Call γ × Traffic γ)) (q : UdpTxQueue γ) :
    Prop where
  order : ((taken past).map Prod.fst ++ q.entries).Sublist (admitted past)
  young : ∀ x ∈ taken past, x.2 - x.1.created < maxAge
  sorted : q.entries.Pairwise fun e e' => e.created ≤ e'.created
  stamped : ∀ e ∈ q.entries, e.created ∈ times
  within : q.entries.length ≤ capacity ∧ q.bytes ≤ byteLimit

namespace Ordered

variable {times : List Time} {past : List (Call γ × Traffic γ)} {q' : UdpTxQueue γ} {call : Call γ}

/-- Entries leave from the head, and the socket takes some of them. -/
theorem leave (h : Ordered times past q) (more : List Time) {out : List (QueuedDatagram γ × Time)}
    (hleft : (out.map Prod.fst ++ q'.entries).Sublist q.entries)
    (hyoung : ∀ x ∈ out, x.2 - x.1.created < maxAge) :
    Ordered (times ++ more) ((call, { taken := out }) :: past) q' := by
  have hkept : q'.entries.Sublist q.entries := (List.sublist_append_right _ _).trans hleft
  have hbytes : q'.bytes ≤ q.bytes := (hkept.map fun e => e.wire.length).sum_le_sum (by simp)
  refine ⟨?_, ?_, h.sorted.sublist hkept,
    fun e he => List.mem_append_left _ (h.stamped e (hkept.subset he)),
    hkept.length_le.trans h.within.1, hbytes.trans h.within.2⟩
  · simpa [taken, admitted] using ((List.Sublist.refl _).append hleft).trans h.order
  · intro x hx
    simp only [taken, List.reverse_cons, List.flatMap_append, List.mem_append] at hx
    exact hx.elim (h.young x) fun hx => hyoung x (by simpa using hx)

/-- Datagrams of the present come in behind the entries. -/
theorem enter (h : Ordered (times ++ [now]) ((call, {}) :: past) q)
    (hold : ∀ e ∈ q.entries, e.created ≤ now) {packets : List (Bytes × γ)}
    (hadmits : q.admits packets = true) :
    Ordered (times ++ [now])
      ((call, { admitted := packets.map fun p => ⟨p.1, now, p.2⟩ }) :: past)
      { q with entries := q.entries ++ packets.map fun p => ⟨p.1, now, p.2⟩ } := by
  simp only [admits, Bool.and_eq_true, decide_eq_true_eq] at hadmits
  obtain ⟨hlength, hbytes⟩ := h.within
  refine ⟨?_, by simpa [taken] using h.young, List.pairwise_append.mpr ⟨h.sorted, ?_, ?_⟩, ?_, ?_, ?_⟩
  · simpa [taken, admitted] using h.order.append (List.Sublist.refl _)
  · exact List.pairwise_map.mpr (List.pairwise_of_forall fun _ _ => le_rfl)
  · intro e he e' he'
    obtain ⟨p, _, rfl⟩ := List.mem_map.mp he'
    exact hold e he
  · intro e he
    rcases List.mem_append.mp he with he | he
    · exact h.stamped e he
    · obtain ⟨p, _, rfl⟩ := List.mem_map.mp he
      simp
  · rw [List.length_append, List.length_map]
    omega
  · simp only [bytes] at hbytes hadmits
    simp only [bytes, List.map_append, List.map_map, Function.comp_def, List.sum_append]
    omega

theorem step (h : Ordered times past q) (call : Call γ)
    (hlater : ∀ now ∈ call.time, ∀ t ∈ times, t ≤ now) :
    Ordered (times ++ call.time.toList) ((call, (q.step call).2) :: past) (q.step call).1 := by
  cases call with
  | append packets now =>
    have hexpired : Ordered (times ++ [now]) ((.append packets now, {}) :: past) (q.expire now) :=
      h.leave [now] (expire_sublist q now) (by simp)
    rw [UdpTxQueue.step, UdpTxQueue.append]
    cases hadmits : (q.expire now).admits packets with
    | false => exact hexpired
    | true => exact hexpired.enter (fun e he => hlater now rfl _ (h.stamped e (mem_expire he))) hadmits
  | flush now send =>
    refine h.leave [now] ?_ ?_
    · have hleft := (flush_sublist q send).trans (expire_sublist q now)
      simpa [UdpTxQueue.step, Function.comp_def] using hleft
    · intro x hx
      obtain ⟨e, he, rfl⟩ := List.mem_map.mp hx
      exact expireFrom_young h.sorted e ((flush_sublist q send).subset (List.mem_append_left _ he))
  | expire now => exact h.leave [now] (expire_sublist q now) (by simp)
  | blocked now => exact h.leave [now] (List.Sublist.refl _) (by simp)
  | discard => exact h.leave [] (by simp [UdpTxQueue.step]) (by simp)

end Ordered

def after (calls : List (Call γ)) : List (Call γ × Traffic γ) × UdpTxQueue γ :=
  Transition.run step {} calls

theorem ordered_after {calls : List (Call γ)} (h : (calls.filterMap Call.time).Pairwise (· ≤ ·)) :
    Ordered (calls.filterMap Call.time) (after calls).1 (after calls).2 := by
  induction calls using List.reverseRecOn with
  | nil =>
    exact ⟨.slnil, by simp [after, Transition.run, taken], .nil, by simp [after, Transition.run],
      Nat.zero_le _, Nat.zero_le _⟩
  | append_singleton calls call ih =>
    rw [List.filterMap_append] at h ⊢
    obtain ⟨hbefore, _, hlater⟩ := List.pairwise_append.mp h
    rw [after, Transition.run_append_singleton]
    have hstep := (ih hbefore).step call fun now hnow t ht =>
      hlater t ht now (by simpa using hnow)
    have hcall : [call].filterMap Call.time = call.time.toList := by
      cases htime : call.time <;> simp [htime]
    rw [hcall]
    exact hstep

def sampleCalls : List (Call Unit) :=
  [.append [([1], ()), ([2, 3], ())] 0, .flush 5 fun e => .sent e.wire.length, .expire 7]

end UdpTxQueue

end Tuntom
