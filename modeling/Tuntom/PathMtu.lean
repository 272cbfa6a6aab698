import Tuntom.Packet

/-! Path MTU discovery of `Tunnel`: one probe at a time, first the configured size, then the
upper bound, then the middle between the largest size that was answered and the smallest one
that was not. -/
namespace Tuntom

def protocolProbeV5Size : ℕ := 35
def udpHeaderSize : ℕ := 8
def pmtudUpperMtu : ℕ := 1500
def pmtudProbeTimeout : Time := 2 * second

inductive OuterIp where
  | ipv4
  | ipv6
  deriving DecidableEq, Repr

def OuterIp.size : OuterIp → ℕ
  | .ipv4 => 20
  | .ipv6 => 40

theorem OuterIp.size_le (outer : OuterIp) : outer.size ≤ 40 := by
  cases outer <;> decide

structure Pmtud where
  activeTransportMtu : ℕ := minTransportMtu
  started : Bool := false
  probePending : Bool := false
  knownGood : ℕ := minTransportMtu
  knownBad : ℕ := 0
  probeId : UInt64 := 0
  probeSize : ℕ := 0
  probeSentAt : Time := 0
  probesSent : ℕ := 0
  deriving DecidableEq, Repr

namespace Pmtud

/-- What the search meets during one call: the session, the socket, the clock and the message
ids, one for each probe. -/
structure Link where
  ready : Bool
  outer : OuterIp
  now : Time
  messageId : ℕ → UInt64
  sends : UInt64 → ℕ → Bool

def upperBound (transportMtu : ℕ) : ℕ := max pmtudUpperMtu transportMtu

section Search

variable (transportMtu : ℕ) (link : Link)

/-- Whether `advance_pmtud_search` has nothing left to probe. -/
def complete (s : Pmtud) : Bool :=
  upperBound transportMtu ≤ s.knownGood || (s.knownBad != 0 && s.knownBad ≤ s.knownGood + 1)

def candidate (s : Pmtud) : ℕ :=
  let middle := if s.knownBad = 0 then upperBound transportMtu
    else s.knownGood + (s.knownBad - s.knownGood) / 2
  if middle ≤ s.knownGood then s.knownGood + 1 else middle

mutual

/-- `send_mtu_probe`, with the depth to which the two functions may still call each other. -/
def sendMtuProbe : ℕ → ℕ → Pmtud → Option Pmtud
  | 0, _, _ => none
  | depth + 1, targetMtu, s =>
    if ¬link.ready then some s
    else if s.probePending then some s
    else if targetMtu ≤ link.outer.size + udpHeaderSize + protocolProbeV5Size then some s
    else
      let id := link.messageId s.probesSent
      if link.sends id targetMtu then
        some { s with probesSent := s.probesSent + 1, probePending := true, probeId := id
                      probeSize := targetMtu, probeSentAt := link.now }
      else
        advancePmtudSearch depth { s with probesSent := s.probesSent + 1, knownBad := targetMtu }

def advancePmtudSearch : ℕ → Pmtud → Option Pmtud
  | 0, _ => none
  | depth + 1, s =>
    if s.probePending then some s
    else if s.complete transportMtu then some s
    else sendMtuProbe depth (s.candidate transportMtu) s

end

def startPmtud (depth : ℕ) (s : Pmtud) : Option Pmtud :=
  if s.started then some s
  else
    sendMtuProbe transportMtu link depth
      (max (minTransportMtu + 1) (min transportMtu (upperBound transportMtu)))
      { s with started := true, knownGood := minTransportMtu, knownBad := 0
               activeTransportMtu := minTransportMtu }

def restartPmtud (depth : ℕ) (s : Pmtud) : Option Pmtud :=
  startPmtud transportMtu link depth
    { s with started := false, probePending := false, probeId := 0, probeSize := 0
             knownGood := minTransportMtu, knownBad := 0, activeTransportMtu := minTransportMtu }

def answers (s : Pmtud) (messageId : UInt64) (originalLength : ℕ) : Bool :=
  s.probePending && messageId == s.probeId && originalLength == s.probeSize

def handleMtuReply (depth : ℕ) (messageId : UInt64) (originalLength : ℕ) (s : Pmtud) :
    Option Pmtud :=
  if ¬s.answers messageId originalLength then some s
  else
    advancePmtudSearch transportMtu link depth
      { s with probePending := false, knownGood := max s.knownGood s.probeSize
               activeTransportMtu := max s.knownGood s.probeSize }

def expired (s : Pmtud) (now : Time) : Bool :=
  s.probePending && pmtudProbeTimeout ≤ now - s.probeSentAt

def handlePmtudTimeout (depth : ℕ) (s : Pmtud) : Option Pmtud :=
  if ¬s.expired link.now then some s
  else
    advancePmtudSearch transportMtu link depth
      { s with probePending := false, knownBad := s.probeSize }

end Search

inductive Event where
  | reply (messageId : UInt64) (originalLength : ℕ)
  | timer
  deriving DecidableEq, Repr

structure Turn where
  link : Link
  event : Event

def handle (transportMtu depth : ℕ) (turn : Turn) (s : Pmtud) : Option Pmtud :=
  match turn.event with
  | .reply messageId originalLength =>
    handleMtuReply transportMtu turn.link depth messageId originalLength s
  | .timer => handlePmtudTimeout transportMtu turn.link depth s

/-! ### The interval -/

def limit (transportMtu : ℕ) (s : Pmtud) : ℕ :=
  if s.knownBad = 0 then upperBound transportMtu + 1 else s.knownBad

/-- The interval of a search on a path that carries up to `M` bytes. -/
structure Bounded (transportMtu M : ℕ) (s : Pmtud) : Prop where
  good_ge : minTransportMtu ≤ s.knownGood
  good_le : s.knownGood ≤ upperBound transportMtu
  active_eq : s.activeTransportMtu = s.knownGood
  good_path : s.knownGood ≤ max M minTransportMtu
  bad : s.knownBad = 0 ∨
    s.knownGood < s.knownBad ∧ max M minTransportMtu < s.knownBad ∧
      s.knownBad ≤ upperBound transportMtu

variable {transportMtu M : ℕ} {link : Link} {s t : Pmtud}

theorem Bounded.good_lt (h : Bounded transportMtu M s) : s.knownGood < s.limit transportMtu := by
  have hle := h.good_le
  rcases h.bad with hbad | hbad
  · rw [limit, if_pos hbad]
    omega
  · rw [limit]
    split <;> omega

theorem Bounded.limit_le (h : Bounded transportMtu M s) :
    s.limit transportMtu ≤ upperBound transportMtu + 1 := by
  rw [limit]
  split
  · exact Nat.le_refl _
  · rcases h.bad with hbad | hbad <;> omega

theorem candidate_between (hleft : s.complete transportMtu = false) :
    s.knownGood < s.candidate transportMtu ∧ s.candidate transportMtu < s.limit transportMtu := by
  simp only [complete, Bool.or_eq_false_iff, Bool.and_eq_false_iff, decide_eq_false_iff_not,
    bne_eq_false_iff_eq, not_le] at hleft
  obtain ⟨hgood, hbad⟩ := hleft
  rw [candidate, limit]
  rcases hbad with hbad | hbad
  · simp only [if_pos hbad, if_neg (Nat.not_le.mpr hgood)]
    omega
  have hne : s.knownBad ≠ 0 := by omega
  have hmiddle : ¬s.knownGood + (s.knownBad - s.knownGood) / 2 ≤ s.knownGood := by omega
  simp only [if_neg hne, if_neg hmiddle]
  omega

theorem Bounded.complete_eq (h : Bounded transportMtu M s) (hdone : s.complete transportMtu = true) :
    s.activeTransportMtu = min (max M minTransportMtu) (upperBound transportMtu) := by
  have hle := h.good_le
  have hpath := h.good_path
  rw [h.active_eq]
  simp only [complete, Bool.or_eq_true, Bool.and_eq_true, decide_eq_true_eq, bne_iff_ne] at hdone
  rcases hdone with hgood | ⟨hne, hbad⟩
  · rw [min_eq_right (by omega)]
    omega
  rcases h.bad with hzero | ⟨hlt, hbeyond, hupper⟩
  · exact absurd hzero hne
  · rw [min_eq_left (by omega)]
    omega

/-! ### The calls -/

/-- A probe is pending strictly inside the interval, or the search is complete. -/
def Settled (transportMtu : ℕ) (s : Pmtud) : Prop :=
  s.probePending = true ∧ s.knownGood < s.probeSize ∧ s.probeSize < s.limit transportMtu ∨
    s.probePending = false ∧ s.complete transportMtu = true

/-- What a call of either function leaves behind when it starts in `s`. -/
structure Searched (transportMtu M : ℕ) (s t : Pmtud) : Prop where
  bounded : Bounded transportMtu M t
  settled : Settled transportMtu t
  good_eq : t.knownGood = s.knownGood
  limit_le : t.limit transportMtu ≤ s.limit transportMtu
  probes : t.probesSent + t.limit transportMtu ≤
    s.probesSent + s.limit transportMtu + if t.probePending then 1 else 0

/-- A link with a session and a socket that takes every datagram the path carries. -/
def Link.Carries (link : Link) (M : ℕ) : Prop :=
  link.ready = true ∧ ∀ id size, size ≤ M → link.sends id size = true

theorem returns (transportMtu : ℕ) (link : Link) (depth : ℕ) :
    (∀ targetMtu s, 2 * targetMtu < depth →
      (sendMtuProbe transportMtu link depth targetMtu s).isSome) ∧
    ∀ s : Pmtud, 2 * s.limit transportMtu ≤ depth → s.limit transportMtu ≠ 0 →
      (advancePmtudSearch transportMtu link depth s).isSome := by
  induction depth with
  | zero =>
    refine ⟨fun targetMtu s h => absurd h (Nat.not_lt_zero _), fun s h hne => ?_⟩
    omega
  | succ depth ih =>
    refine ⟨fun targetMtu s h => ?_, fun s h _ => ?_⟩
    · rw [sendMtuProbe]
      split
      · rfl
      split
      · rfl
      split
      · rfl
      next htarget =>
      dsimp only
      split
      · rfl
      -- the failed size is the new limit
      have hlimit : limit transportMtu
          { s with probesSent := s.probesSent + 1, knownBad := targetMtu } = targetMtu := by
        rw [limit, if_neg]
        show targetMtu ≠ 0
        omega
      refine ih.2 _ ?_ ?_
      · rw [hlimit]
        omega
      · rw [hlimit]
        omega
    · rw [advancePmtudSearch]
      split
      · rfl
      split
      · rfl
      next hleft =>
      have hbetween := candidate_between (Bool.eq_false_iff.mpr hleft)
      exact ih.1 _ _ (by omega)

theorem depth_irrelevant (transportMtu : ℕ) (link : Link) (depth : ℕ) :
    (∀ targetMtu s t, sendMtuProbe transportMtu link depth targetMtu s = some t →
      ∀ more, depth ≤ more → sendMtuProbe transportMtu link more targetMtu s = some t) ∧
    ∀ s t, advancePmtudSearch transportMtu link depth s = some t →
      ∀ more, depth ≤ more → advancePmtudSearch transportMtu link more s = some t := by
  induction depth with
  | zero =>
    refine ⟨fun targetMtu s t h => ?_, fun s t h => ?_⟩
    · rw [sendMtuProbe] at h
      cases h
    · rw [advancePmtudSearch] at h
      cases h
  | succ depth ih =>
    refine ⟨fun targetMtu s t h more hmore => ?_, fun s t h more hmore => ?_⟩
    · obtain ⟨more, rfl⟩ := Nat.exists_eq_add_of_lt hmore
      rw [sendMtuProbe] at h ⊢
      dsimp only at h ⊢
      split_ifs at h ⊢ with hready hpending hsmall hsent
      · exact h
      · exact h
      · exact h
      · exact ih.2 _ _ h _ (by omega)
      · exact h
    · obtain ⟨more, rfl⟩ := Nat.exists_eq_add_of_lt hmore
      rw [advancePmtudSearch] at h ⊢
      split_ifs at h ⊢ with hpending hdone
      · exact h
      · exact h
      · exact ih.1 _ _ _ h _ (by omega)

theorem Bounded.fail (h : Bounded transportMtu M s) {size : ℕ} (hgood : s.knownGood < size)
    (hlimit : size < s.limit transportMtu) (hpath : M < size) :
    Bounded transportMtu M { s with knownBad := size } ∧
      limit transportMtu { s with knownBad := size } = size := by
  have hge := h.good_ge
  have hle := h.limit_le
  refine ⟨⟨h.good_ge, h.good_le, h.active_eq, h.good_path, .inr ⟨hgood, ?_, ?_⟩⟩, ?_⟩
  · show max M minTransportMtu < size
    omega
  · show size ≤ upperBound transportMtu
    omega
  · rw [limit, if_neg]
    show size ≠ 0
    omega

/-- A call on a path that carries up to `M` bytes keeps the interval and leaves a probe pending
unless the search is complete. -/
theorem searched (hlink : link.Carries M) (depth : ℕ) :
    (∀ targetMtu s t, Bounded transportMtu M s → s.probePending = false →
      s.knownGood < targetMtu → targetMtu < s.limit transportMtu →
      sendMtuProbe transportMtu link depth targetMtu s = some t → Searched transportMtu M s t) ∧
    ∀ s t, Bounded transportMtu M s → s.probePending = false →
      advancePmtudSearch transportMtu link depth s = some t → Searched transportMtu M s t := by
  induction depth with
  | zero =>
    refine ⟨fun targetMtu s t _ _ _ _ h => ?_, fun s t _ _ h => ?_⟩
    · rw [sendMtuProbe] at h
      cases h
    · rw [advancePmtudSearch] at h
      cases h
  | succ depth ih =>
    refine ⟨fun targetMtu s t hs hidle hgood hlimit h => ?_, fun s t hs hidle h => ?_⟩
    · have hge : 500 ≤ s.knownGood := hs.good_ge
      have houter := link.outer.size_le
      have hfits : ¬targetMtu ≤ link.outer.size + udpHeaderSize + protocolProbeV5Size := by
        simp only [udpHeaderSize, protocolProbeV5Size]
        omega
      rw [sendMtuProbe, if_neg (not_not.mpr hlink.1), if_neg (Bool.eq_false_iff.mp hidle),
        if_neg hfits] at h
      dsimp only at h
      split at h
      · cases h
        refine ⟨⟨hs.good_ge, hs.good_le, hs.active_eq, hs.good_path, hs.bad⟩,
          .inl ⟨rfl, hgood, hlimit⟩, rfl, Nat.le_refl _, ?_⟩
        show s.probesSent + 1 + s.limit transportMtu ≤ s.probesSent + s.limit transportMtu + 1
        omega
      next hfailed =>
      have hpath : M < targetMtu :=
        Nat.lt_of_not_le fun hle => hfailed (hlink.2 _ _ hle)
      obtain ⟨hbounded, hnew⟩ := hs.fail hgood hlimit hpath
      obtain ⟨hbounded, hsettled, heq, hle, hprobes⟩ : Searched transportMtu M
          { s with probesSent := s.probesSent + 1, knownBad := targetMtu } t :=
        ih.2 _ t ⟨hbounded.good_ge, hbounded.good_le, hbounded.active_eq, hbounded.good_path,
          hbounded.bad⟩ hidle h
      have hlow : t.limit transportMtu ≤ targetMtu := hle.trans_eq hnew
      have hcount : t.probesSent + t.limit transportMtu ≤
          s.probesSent + 1 + targetMtu + if t.probePending then 1 else 0 := by
        rw [show limit transportMtu { s with probesSent := s.probesSent + 1, knownBad := targetMtu } =
          targetMtu from hnew] at hprobes
        exact hprobes
      exact ⟨hbounded, hsettled, heq, by omega, by omega⟩
    · rw [advancePmtudSearch, if_neg (Bool.eq_false_iff.mp hidle)] at h
      split at h
      next hdone =>
        cases h
        exact ⟨hs, .inr ⟨hidle, hdone⟩, rfl, Nat.le_refl _, Nat.le_add_right _ _⟩
      next hleft =>
      obtain ⟨hgood, hlimit⟩ := candidate_between (Bool.eq_false_iff.mpr hleft)
      exact ih.1 _ s t hs hidle hgood hlimit h

/-! ### A whole search -/

def callDepth (transportMtu : ℕ) : ℕ := 2 * upperBound transportMtu + 4

/-- What the path lets happen: it answers a pending probe that it carries, loses one that it does
not, and replies to no other probe count. -/
def Allowed (M : ℕ) (s : Pmtud) (turn : Turn) : Prop :=
  turn.link.Carries M ∧
    match turn.event with
    | .reply messageId originalLength =>
      s.answers messageId originalLength = true → s.probeSize ≤ M
    | .timer => s.expired turn.link.now = true → M < s.probeSize

def Decides (s : Pmtud) (turn : Turn) : Bool :=
  match turn.event with
  | .reply messageId originalLength => s.answers messageId originalLength
  | .timer => s.expired turn.link.now

def Step (transportMtu M : ℕ) (s t : Pmtud) : Prop :=
  ∃ turn, Allowed M s turn ∧ handle transportMtu (callDepth transportMtu) turn s = some t

/-- What holds of every state of a search that had sent `before` probes when it started. -/
structure Searching (transportMtu M before : ℕ) (s : Pmtud) : Prop where
  bounded : Bounded transportMtu M s
  settled : Settled transportMtu s
  probes : s.probesSent + s.limit transportMtu + minTransportMtu ≤
    before + (upperBound transportMtu + 1) + s.knownGood + if s.probePending then 1 else 0

def remaining (transportMtu : ℕ) (s : Pmtud) : ℕ :=
  if s.probePending then s.limit transportMtu - s.knownGood else 0

theorem minTransportMtu_lt (transportMtu : ℕ) : minTransportMtu < upperBound transportMtu :=
  lt_of_lt_of_le (by decide) (le_max_left _ _)

theorem Searching.of_searched {before : ℕ} (h : Searched transportMtu M s t)
    (hs : s.probesSent + s.limit transportMtu + minTransportMtu ≤
      before + (upperBound transportMtu + 1) + s.knownGood) :
    Searching transportMtu M before t := by
  have hprobes := h.probes
  have hgood := h.good_eq
  exact ⟨h.bounded, h.settled, by omega⟩

theorem Searching.probesSent_le {before : ℕ} (h : Searching transportMtu M before s) :
    s.probesSent ≤ before + upperBound transportMtu := by
  have hprobes := h.probes
  have hlt := h.bounded.good_lt
  have hmin : minTransportMtu = 500 := rfl
  split at hprobes <;> omega

theorem advance_returns (hs : Bounded transportMtu M s) :
    ∃ t, ∀ depth, callDepth transportMtu ≤ depth →
      advancePmtudSearch transportMtu link depth s = some t := by
  have hle := hs.limit_le
  have hlt := hs.good_lt
  obtain ⟨t, ht⟩ := Option.isSome_iff_exists.mp ((returns transportMtu link
    (callDepth transportMtu)).2 s (by rw [callDepth]; omega) (by omega))
  exact ⟨t, fun depth hdepth => (depth_irrelevant transportMtu link _).2 s t ht depth hdepth⟩

theorem restartPmtud_searching (hlink : link.Carries M) (s : Pmtud) :
    ∃ t, (∀ depth, callDepth transportMtu ≤ depth →
      restartPmtud transportMtu link depth s = some t) ∧
      Searching transportMtu M s.probesSent t := by
  have hupper := minTransportMtu_lt transportMtu
  have hfirst : minTransportMtu < max (minTransportMtu + 1) (min transportMtu (upperBound transportMtu)) ∧
      max (minTransportMtu + 1) (min transportMtu (upperBound transportMtu)) <
        upperBound transportMtu + 1 := by omega
  generalize hclamp : max (minTransportMtu + 1) (min transportMtu (upperBound transportMtu)) = first
    at hfirst
  have hbounded : Bounded transportMtu M
      { s with started := true, probePending := false, probeId := 0, probeSize := 0
               knownGood := minTransportMtu, knownBad := 0
               activeTransportMtu := minTransportMtu } :=
    ⟨Nat.le_refl _, hupper.le, rfl, le_max_right _ _, .inl rfl⟩
  obtain ⟨t, ht⟩ := Option.isSome_iff_exists.mp ((returns transportMtu link
    (callDepth transportMtu)).1 first _ (by rw [callDepth]; omega))
  have hsearched := (searched hlink _).1 first _ t hbounded rfl hfirst.1 hfirst.2 ht
  refine ⟨t, fun depth hdepth => ?_, .of_searched hsearched (Nat.le_refl _)⟩
  rw [restartPmtud, startPmtud, if_neg Bool.false_ne_true, hclamp]
  exact (depth_irrelevant transportMtu link _).1 first _ t ht depth hdepth

theorem Settled.pending (h : Settled transportMtu s) (hpending : s.probePending = true) :
    s.knownGood < s.probeSize ∧ s.probeSize < s.limit transportMtu := by
  rcases h with h | h
  · exact h.2
  · rw [h.1] at hpending
    cases hpending

theorem remaining_lt (h : Searched transportMtu M s t)
    {u : Pmtud} (hpending : u.probePending = true) (hu : u.knownGood < u.limit transportMtu)
    (hlt : s.limit transportMtu + u.knownGood < u.limit transportMtu + s.knownGood) :
    remaining transportMtu t < remaining transportMtu u := by
  have hle := h.limit_le
  have hgood := h.good_eq
  have hbounds := h.bounded.good_lt
  rw [remaining, remaining, if_pos hpending]
  split <;> omega

theorem handleMtuReply_searching {before : ℕ} (hlink : link.Carries M)
    (h : Searching transportMtu M before s) {messageId : UInt64} {originalLength : ℕ}
    (hanswers : s.answers messageId originalLength = true) (hpath : s.probeSize ≤ M) :
    ∃ t, (∀ depth, callDepth transportMtu ≤ depth →
      handleMtuReply transportMtu link depth messageId originalLength s = some t) ∧
      Searching transportMtu M before t ∧ remaining transportMtu t < remaining transportMtu s := by
  have hpending : s.probePending = true := by
    simp only [answers, Bool.and_eq_true] at hanswers
    exact hanswers.1.1
  obtain ⟨hgood, hlimit⟩ := h.settled.pending hpending
  have hle := h.bounded.limit_le
  have hprobes := h.probes
  have hmax : max s.knownGood s.probeSize = s.probeSize := max_eq_right hgood.le
  have hbounded : Bounded transportMtu M { s with probePending := false, knownGood := s.probeSize
                                                  activeTransportMtu := s.probeSize } := by
    have hge := h.bounded.good_ge
    refine ⟨hge.trans hgood.le, Nat.le_of_lt_succ (hlimit.trans_le hle), rfl,
      hpath.trans (le_max_left _ _), ?_⟩
    rcases h.bounded.bad with hzero | ⟨hlt, hbeyond, hupper⟩
    · exact .inl hzero
    · rw [limit, if_neg (by omega)] at hlimit
      exact .inr ⟨hlimit, hbeyond, hupper⟩
  obtain ⟨t, ht⟩ := @advance_returns transportMtu M link _ hbounded
  have hsearched := (searched hlink _).2 _ t hbounded rfl (ht _ (Nat.le_refl _))
  rw [if_pos hpending] at hprobes
  refine ⟨t, fun depth hdepth => ?_, .of_searched hsearched ?_,
    remaining_lt hsearched hpending h.bounded.good_lt ?_⟩
  · rw [handleMtuReply, if_neg (not_not.mpr hanswers), hmax]
    exact ht depth hdepth
  · show s.probesSent + s.limit transportMtu + minTransportMtu ≤
      before + (upperBound transportMtu + 1) + s.probeSize
    omega
  · show s.limit transportMtu + s.knownGood < s.limit transportMtu + s.probeSize
    omega

theorem handlePmtudTimeout_searching {before : ℕ} (hlink : link.Carries M)
    (h : Searching transportMtu M before s) (hexpired : s.expired link.now = true)
    (hpath : M < s.probeSize) :
    ∃ t, (∀ depth, callDepth transportMtu ≤ depth →
      handlePmtudTimeout transportMtu link depth s = some t) ∧
      Searching transportMtu M before t ∧ remaining transportMtu t < remaining transportMtu s := by
  have hpending : s.probePending = true := by
    simp only [expired, Bool.and_eq_true] at hexpired
    exact hexpired.1
  obtain ⟨hgood, hlimit⟩ := h.settled.pending hpending
  have hprobes := h.probes
  obtain ⟨hfail, hnew⟩ := h.bounded.fail hgood hlimit hpath
  have hbounded : Bounded transportMtu M
      { s with probePending := false, knownBad := s.probeSize } :=
    ⟨hfail.good_ge, hfail.good_le, hfail.active_eq, hfail.good_path, hfail.bad⟩
  have hnew : limit transportMtu { s with probePending := false, knownBad := s.probeSize } =
      s.probeSize := hnew
  obtain ⟨t, ht⟩ := @advance_returns transportMtu M link _ hbounded
  have hsearched := (searched hlink _).2 _ t hbounded rfl (ht _ (Nat.le_refl _))
  rw [if_pos hpending] at hprobes
  refine ⟨t, fun depth hdepth => ?_, .of_searched hsearched ?_,
    remaining_lt hsearched hpending h.bounded.good_lt ?_⟩
  · rw [handlePmtudTimeout, if_neg (not_not.mpr hexpired)]
    exact ht depth hdepth
  · rw [hnew]
    show s.probesSent + s.probeSize + minTransportMtu ≤
      before + (upperBound transportMtu + 1) + s.knownGood
    omega
  · rw [hnew]
    show s.probeSize + s.knownGood < s.limit transportMtu + s.knownGood
    omega

/-- One turn: it decides the pending probe and brings the bounds closer, or changes nothing. -/
theorem handle_searching {before : ℕ} (h : Searching transportMtu M before s) {turn : Turn}
    (hallowed : Allowed M s turn) :
    ∃ t, (∀ depth, callDepth transportMtu ≤ depth → handle transportMtu depth turn s = some t) ∧
      Searching transportMtu M before t ∧
      if s.Decides turn then remaining transportMtu t < remaining transportMtu s else t = s := by
  obtain ⟨link, event⟩ := turn
  obtain ⟨hlink, hevent⟩ := hallowed
  cases event with
  | reply messageId originalLength =>
    cases hdecides : s.answers messageId originalLength with
    | true =>
      obtain ⟨t, ht, hsearching, hless⟩ :=
        handleMtuReply_searching hlink h hdecides (hevent hdecides)
      exact ⟨t, ht, hsearching, by simpa only [Decides, hdecides, if_true] using hless⟩
    | false =>
      refine ⟨s, fun depth _ => ?_, h, by simp only [Decides, hdecides, Bool.false_eq_true, if_false]⟩
      show handleMtuReply transportMtu link depth messageId originalLength s = some s
      rw [handleMtuReply, hdecides, if_pos Bool.false_ne_true]
  | timer =>
    cases hdecides : s.expired link.now with
    | true =>
      obtain ⟨t, ht, hsearching, hless⟩ :=
        handlePmtudTimeout_searching hlink h hdecides (hevent hdecides)
      exact ⟨t, ht, hsearching, by simpa only [Decides, hdecides, if_true] using hless⟩
    | false =>
      refine ⟨s, fun depth _ => ?_, h, by simp only [Decides, hdecides, Bool.false_eq_true, if_false]⟩
      show handlePmtudTimeout transportMtu link depth s = some s
      rw [handlePmtudTimeout, hdecides, if_pos Bool.false_ne_true]

theorem Step.searching {before : ℕ} (h : Searching transportMtu M before s)
    (hstep : Step transportMtu M s t) : Searching transportMtu M before t := by
  obtain ⟨turn, hallowed, hhandle⟩ := hstep
  obtain ⟨u, hu, hsearching, -⟩ := handle_searching h hallowed
  rw [hu _ (Nat.le_refl _)] at hhandle
  cases hhandle
  exact hsearching

theorem run_searching {before : ℕ} (h : Searching transportMtu M before s)
    (hrun : Relation.ReflTransGen (Step transportMtu M) s t) : Searching transportMtu M before t := by
  induction hrun with
  | refl => exact h
  | tail _ hstep ih => exact hstep.searching ih

theorem exists_decides (hpending : s.probePending = true) :
    ∃ turn, Allowed M s turn ∧ s.Decides turn = true := by
  by_cases hpath : s.probeSize ≤ M
  · refine ⟨⟨⟨true, .ipv4, 0, fun _ => 0, fun _ _ => true⟩, .reply s.probeId s.probeSize⟩,
      ⟨⟨rfl, fun _ _ _ => rfl⟩, fun _ => hpath⟩, ?_⟩
    simp [Decides, answers, hpending]
  refine ⟨⟨⟨true, .ipv4, s.probeSentAt + pmtudProbeTimeout, fun _ => 0, fun _ _ => true⟩, .timer⟩,
    ⟨⟨rfl, fun _ _ _ => rfl⟩, fun _ => Nat.lt_of_not_le hpath⟩, ?_⟩
  simp [Decides, expired, hpending]

/-- On a path that carries datagrams up to `M` bytes the search keeps its interval, sends no more
probes than there are sizes, and ends with the path MTU: every turn returns, and either leaves the
search alone or decides the pending probe and shrinks the interval. -/
theorem pmtud_finds_path_mtu (transportMtu M : ℕ) (link : Link) (hlink : link.Carries M)
    (before : Pmtud) :
    ∃ start, (∀ depth, callDepth transportMtu ≤ depth →
        restartPmtud transportMtu link depth before = some start) ∧
      ∀ s, Relation.ReflTransGen (Step transportMtu M) start s →
        (minTransportMtu ≤ s.knownGood ∧ s.activeTransportMtu = s.knownGood ∧
          s.knownGood ≤ upperBound transportMtu ∧ (s.knownBad = 0 ∨ s.knownGood < s.knownBad) ∧
          (s.probePending = true → s.knownGood < s.probeSize ∧
            (s.knownBad ≠ 0 → s.probeSize < s.knownBad))) ∧
        s.probesSent ≤ before.probesSent + upperBound transportMtu ∧
        (∀ turn, Allowed M s turn → ∃ t,
          (∀ depth, callDepth transportMtu ≤ depth → handle transportMtu depth turn s = some t) ∧
          if s.Decides turn then remaining transportMtu t < remaining transportMtu s else t = s) ∧
        (s.probePending = true → ∃ turn, Allowed M s turn ∧ s.Decides turn = true) ∧
        (s.probePending = false →
          s.activeTransportMtu = min (max M minTransportMtu) (upperBound transportMtu)) := by
  obtain ⟨start, hstart, hsearching⟩ := restartPmtud_searching hlink before
  refine ⟨start, hstart, fun s hrun => ?_⟩
  have h := run_searching hsearching hrun
  refine ⟨⟨h.bounded.good_ge, h.bounded.active_eq, h.bounded.good_le, ?_, fun hpending => ?_⟩,
    h.probesSent_le, fun turn hallowed => ?_, exists_decides, fun hidle => ?_⟩
  · exact h.bounded.bad.imp_right And.left
  · obtain ⟨hgood, hlimit⟩ := h.settled.pending hpending
    refine ⟨hgood, fun hbad => ?_⟩
    rw [limit, if_neg hbad] at hlimit
    exact hlimit
  · obtain ⟨t, ht, -, hdecides⟩ := handle_searching h hallowed
    exact ⟨t, ht, hdecides⟩
  · rcases h.settled with hpending | hdone
    · rw [hidle] at hpending
      cases hpending.1
    · exact h.bounded.complete_eq hdone.2

def narrowLink : Link := ⟨true, .ipv4, 0, fun _ => 7, fun _ size => size ≤ 700⟩

-- The sizes 1400, 950 and 725 fail on the spot, and 612 is the probe that waits.
example : (restartPmtud 1400 narrowLink (callDepth 1400) {}).map
    (fun s => (s.probeSize, s.knownBad, s.probesSent)) = some (612, 725, 4) := by
  decide +kernel

theorem pmtud_finds_path_mtu_narrow : ∃ start,
    (∀ depth, callDepth 1400 ≤ depth → restartPmtud 1400 narrowLink depth {} = some start) ∧
      start.probesSent ≤ 1500 := by
  obtain ⟨start, hstart, hrun⟩ := pmtud_finds_path_mtu 1400 700 narrowLink
    ⟨rfl, fun _ _ hsize => decide_eq_true hsize⟩ {}
  exact ⟨start, hstart, (hrun start .refl).2.1⟩

end Pmtud

end Tuntom
