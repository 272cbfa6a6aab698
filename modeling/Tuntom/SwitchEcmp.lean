import Tuntom.SwitchRuleset

/-! The streaming rendezvous selection of `switch_ecmp.hpp`. -/
namespace Tuntom

/-- The labels and the payload of a `SwitchFrameView`. -/
structure SwitchFrame where
  labels : Labels
  payload : Bytes
  deriving DecidableEq, Repr

/-- The keyed hashes of the selection: `ecmp_flow_hash`, `ecmp_port_identity` and the score. -/
structure EcmpHash where
  flow : SwitchFrame → UInt64
  identity : Bytes → UInt64
  score : UInt64 → UInt64 → UInt64

structure EcmpSelector where
  count : ℕ := 0
  flow : UInt64 := 0
  identity : UInt64 := 0
  score : UInt64 := 0
  name : Bytes := []
  deriving DecidableEq, Repr

namespace EcmpSelector

variable (H : EcmpHash) (frame : SwitchFrame)

/-- One call of `consider`: whether the new member becomes the winner. -/
def consider (s : EcmpSelector) (identity : UInt64) (name : Bytes) : Bool × EcmpSelector :=
  let s := { s with count := s.count + 1 }
  if s.count = 1 then (true, { s with identity := identity, name := name })
  else
    let s := if s.count = 2 then
        { s with flow := H.flow frame, score := H.score (H.flow frame) s.identity } else s
    let candidate := H.score s.flow identity
    if candidate < s.score ∨ (candidate = s.score ∧ ¬ name < s.name) then (false, s)
    else (true, { s with score := candidate, name := name })

def multipath (s : EcmpSelector) : Bool := 1 < s.count

/-- The loop that offers every member of a list and remembers the last winner. -/
def offerAll {α : Type} (name : α → Bytes) : List α → Option α → EcmpSelector →
    Option α × EcmpSelector
  | [], winner, s => (winner, s)
  | member :: rest, winner, s =>
    let considered := s.consider H frame (H.identity (name member)) (name member)
    offerAll name rest (if considered.1 then some member else winner) considered.2

def choose {α : Type} (name : α → Bytes) (members : List α) : Option α × Bool :=
  let (winner, s) := offerAll H frame name members none {}
  (winner, s.multipath)

variable {H frame} {α : Type} {name : α → Bytes}

theorem consider_first (identity : UInt64) (n : Bytes) :
    (({} : EcmpSelector).consider H frame identity n).1 = true := rfl

variable {a : α} {members : List α} {s : EcmpSelector}

theorem offerAll_mem {winner : Option α} (h : (offerAll H frame name members winner s).1 = some a) :
    winner = some a ∨ a ∈ members := by
  induction members generalizing winner s with
  | nil => exact .inl h
  | cons member rest ih =>
    rcases ih h with hw | hrest
    · rcases Bool.eq_false_or_eq_true
          (s.consider H frame (H.identity (name member)) (name member)).1 with hwon | hlost
      · rw [hwon, if_pos rfl] at hw
        exact .inr (Option.some.inj hw ▸ List.mem_cons_self)
      · rw [hlost, if_neg Bool.false_ne_true] at hw
        exact .inl hw
    · exact .inr (List.mem_cons_of_mem _ hrest)

theorem offerAll_isSome {winner : Option α} (h : winner.isSome) :
    (offerAll H frame name members winner s).1.isSome := by
  induction members generalizing winner s with
  | nil => exact h
  | cons member rest ih =>
    refine ih ?_
    split
    · rfl
    · exact h

theorem choose_mem (h : (choose H frame name members).1 = some a) : a ∈ members := by
  rcases offerAll_mem h with hnone | hmem
  · cases hnone
  · exact hmem

theorem choose_eq_none : (choose H frame name members).1 = none ↔ members = [] := by
  cases members with
  | nil => exact ⟨fun _ => rfl, fun _ => rfl⟩
  | cons member rest =>
    have hsome : (choose H frame name (member :: rest)).1.isSome :=
      offerAll_isSome (by rw [consider_first]; rfl)
    constructor
    · intro hnone
      rw [hnone] at hsome
      cases hsome
    · intro hnil
      cases hnil

/-! The order in which the members are offered. -/

variable (H frame) in
def memberScore (n : Bytes) : UInt64 := H.score (H.flow frame) (H.identity n)

variable (H frame) in
def Beats (a b : Bytes) : Prop :=
  memberScore H frame b < memberScore H frame a ∨
    memberScore H frame a = memberScore H frame b ∧ a < b

instance : DecidableRel (Beats H frame) := fun _ _ => inferInstanceAs (Decidable (_ ∨ _))

theorem Beats.irrefl (a : Bytes) : ¬Beats H frame a a := by
  rintro (h | h)
  · exact UInt64.lt_irrefl _ h
  · exact List.lt_irrefl _ h.2

theorem Beats.trans {a b c : Bytes} (hab : Beats H frame a b) (hbc : Beats H frame b c) :
    Beats H frame a c := by
  rcases hab with hab | ⟨hab, hname⟩ <;> rcases hbc with hbc | ⟨hbc, hname'⟩
  · exact .inl (UInt64.lt_trans hbc hab)
  · exact .inl (hbc ▸ hab)
  · exact .inl (hab ▸ hbc)
  · exact .inr ⟨hab.trans hbc, List.lt_trans hname hname'⟩

theorem Beats.total {a b : Bytes} (hne : a ≠ b) (h : ¬Beats H frame a b) : Beats H frame b a := by
  rw [Beats, not_or, UInt64.not_lt] at h
  rcases UInt64.lt_or_eq_of_le h.1 with hlt | heq
  · exact .inl hlt
  · have hname : ¬a < b := fun hlt => h.2 ⟨heq, hlt⟩
    exact .inr ⟨heq.symm, Std.lt_of_le_of_ne hname hne.symm⟩

/-- What the selector remembers of the member that leads; its score waits for a second member. -/
def Leads (H : EcmpHash) (frame : SwitchFrame) (s : EcmpSelector) (n : Bytes) : Prop :=
  s.name = n ∧ (s.count = 1 ∧ s.identity = H.identity n ∨
    1 < s.count ∧ s.flow = H.flow frame ∧ s.score = memberScore H frame n)

/-- With a second member the selector scores the leader, if it has not done so, and compares. -/
theorem Leads.consider_eq {n : Bytes} (h : Leads H frame s n) (m : Bytes) :
    ∃ t : EcmpSelector, t.name = n ∧ 1 < t.count ∧ t.flow = H.flow frame ∧
      t.score = memberScore H frame n ∧
      s.consider H frame (H.identity m) m =
        if memberScore H frame m < memberScore H frame n ∨
            memberScore H frame m = memberScore H frame n ∧ ¬m < n then (false, t)
        else (true, { t with score := memberScore H frame m, name := m }) := by
  obtain ⟨rfl, ⟨hcount, hid⟩ | ⟨hcount, hflow, hscore⟩⟩ := h
  · refine ⟨{ s with count := s.count + 1, flow := H.flow frame,
                     score := memberScore H frame s.name }, rfl, ?_, rfl, rfl, ?_⟩
    · show 1 < s.count + 1
      omega
    · simp only [EcmpSelector.consider, hcount, hid, memberScore]
      rfl
  refine ⟨{ s with count := s.count + 1 }, rfl, Nat.lt_succ_of_lt hcount, hflow, hscore, ?_⟩
  have hfirst : ¬s.count + 1 = 1 := by omega
  have hsecond : ¬s.count + 1 = 2 := by omega
  simp only [EcmpSelector.consider, if_neg hfirst, if_neg hsecond, hflow, hscore, memberScore]

theorem beats_iff {m n : Bytes} : Beats H frame m n ↔
    ¬(memberScore H frame m < memberScore H frame n ∨
      memberScore H frame m = memberScore H frame n ∧ ¬m < n) := by
  rw [not_or, not_and, not_not, UInt64.not_lt, Beats]
  constructor
  · rintro (hlt | ⟨heq, hname⟩)
    · exact ⟨UInt64.le_of_lt hlt, fun heq => absurd (heq ▸ hlt) (UInt64.lt_irrefl _)⟩
    · exact ⟨heq ▸ UInt64.le_refl _, fun _ => hname⟩
  · rintro ⟨hle, hname⟩
    rcases UInt64.lt_or_eq_of_le hle with hlt | heq
    · exact .inl hlt
    · exact .inr ⟨heq.symm, hname heq.symm⟩

theorem Leads.consider {n : Bytes} (h : Leads H frame s n) (m : Bytes) :
    (s.consider H frame (H.identity m) m).1 = decide (Beats H frame m n) ∧
      Leads H frame (s.consider H frame (H.identity m) m).2 (if Beats H frame m n then m else n) := by
  obtain ⟨t, hname, hcount, hflow, hscore, heq⟩ := h.consider_eq m
  rw [heq]
  by_cases hbeats : Beats H frame m n
  · rw [if_neg (beats_iff.mp hbeats), if_pos hbeats]
    exact ⟨(decide_eq_true hbeats).symm, rfl, .inr ⟨hcount, hflow, rfl⟩⟩
  · rw [if_pos (not_not.mp (mt beats_iff.mpr hbeats)), if_neg hbeats]
    exact ⟨(decide_eq_false hbeats).symm, hname, .inr ⟨hcount, hflow, hscore⟩⟩

theorem offerAll_eq {w : α} (h : Leads H frame s (name w)) :
    (offerAll H frame name members (some w) s).1 =
      members.foldl (List.argAux fun a b => Beats H frame (name a) (name b)) (some w) := by
  induction members generalizing w s with
  | nil => rfl
  | cons member rest ih =>
    obtain ⟨hwon, hleads⟩ := h.consider (name member)
    rw [offerAll, List.foldl_cons, List.argAux]
    simp only [hwon, decide_eq_true_eq]
    split
    next hbeats =>
      rw [if_pos hbeats] at hleads
      exact ih hleads
    next hbeats =>
    rw [if_neg hbeats] at hleads
    exact ih hleads

theorem choose_eq (members : List α) : (choose H frame name members).1 =
    members.foldl (List.argAux fun a b => Beats H frame (name a) (name b)) none := by
  cases members with
  | nil => rfl
  | cons member rest => exact offerAll_eq ⟨rfl, .inl ⟨rfl, rfl⟩⟩

variable (H frame name) in
/-- The member of the largest score and, among equal scores, of the smallest name. -/
def Wins (members : List α) (a : α) : Prop :=
  a ∈ members ∧ ∀ b ∈ members, b ≠ a → Beats H frame (name a) (name b)

theorem Wins.unique {b : α} (ha : Wins H frame name members a) (hb : Wins H frame name members b) :
    a = b := by
  by_contra hne
  exact Beats.irrefl _ ((ha.2 b hb.1 fun h => hne h.symm).trans (hb.2 a ha.1 hne))

theorem choose_wins (hnames : (members.map name).Nodup)
    (h : (choose H frame name members).1 = some a) : Wins H frame name members a := by
  refine ⟨choose_mem h, fun b hb hne => Beats.total ?_ ?_⟩
  · exact fun heq => hne (List.inj_on_of_nodup_map hnames hb (choose_mem h) heq)
  · rw [choose_eq] at h
    exact List.not_of_mem_foldl_argAux (fun a b => Beats H frame (name a) (name b))
      ⟨fun _ => Beats.irrefl _⟩ ⟨fun _ _ _ => Beats.trans⟩ hb h

theorem choose_iff (hnames : (members.map name).Nodup) :
    (choose H frame name members).1 = some a ↔ Wins H frame name members a := by
  refine ⟨choose_wins hnames, fun hwins => ?_⟩
  cases hchoose : (choose H frame name members).1 with
  | none =>
    have hmem := hwins.1
    rw [choose_eq_none.mp hchoose] at hmem
    cases hmem
  | some b => rw [(choose_wins hnames hchoose).unique hwins]

theorem choose_perm {others : List α} (hnames : (members.map name).Nodup)
    (hperm : others.Perm members) :
    (choose H frame name others).1 = (choose H frame name members).1 := by
  have hothers : (others.map name).Nodup := (hperm.map name).nodup_iff.mpr hnames
  refine Option.ext fun a => ?_
  rw [choose_iff hothers, choose_iff hnames, Wins, Wins]
  simp only [hperm.mem_iff]

theorem choose_remove {front back : List α} {b : α}
    (hnames : ((front ++ b :: back).map name).Nodup) (hne : b ≠ a)
    (h : (choose H frame name (front ++ b :: back)).1 = some a) :
    (choose H frame name (front ++ back)).1 = some a := by
  have hsub : (front ++ back).Sublist (front ++ b :: back) :=
    (List.Sublist.refl front).append (List.sublist_cons_self b back)
  obtain ⟨hmem, hbest⟩ := choose_wins hnames h
  refine (choose_iff (hnames.sublist (hsub.map name))).mpr
    ⟨?_, fun c hc => hbest c (hsub.mem hc)⟩
  rcases List.mem_append.mp hmem with hfront | hback
  · exact List.mem_append_left _ hfront
  · exact List.mem_append_right _ ((List.mem_cons.mp hback).resolve_left hne.symm)

theorem choose_add {front back : List α} {b : α} (hnames : ((front ++ b :: back).map name).Nodup) :
    (choose H frame name (front ++ b :: back)).1 = (choose H frame name (front ++ back)).1 ∨
      (choose H frame name (front ++ b :: back)).1 = some b := by
  cases h : (choose H frame name (front ++ b :: back)).1 with
  | none =>
    have hnil := congrArg List.length (choose_eq_none.mp h)
    simp at hnil
  | some a =>
    by_cases hne : b = a
    · exact .inr (congrArg some hne.symm)
    · exact .inl (choose_remove hnames hne h).symm

end EcmpSelector

end Tuntom
