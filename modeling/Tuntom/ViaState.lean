import Tuntom.ViaCodec

/-! Names of adapter ports (`via/registration.hpp`) and the chain ids that a switch gives
out over its lifetime (`via::State`). -/
namespace Tuntom.Via

/-! ### Registrations -/

def suffix : Bytes := ascii "~via:"

/-- The first place at which `text` occurs. -/
def findText (text name : Bytes) : Option ℕ :=
  (List.range (name.length + 1)).find? fun i => text.isPrefixOf (name.drop i)

def reserved (name : PortName) : Bool := (findText suffix name).isSome

structure Registration where
  attachment : Bytes
  instanceId : Bytes
  server : Bool := false
  deriving DecidableEq, Repr

def attachmentBytes : Bytes :=
  ascii "abcdefghijklmnopqrstuvwxyzABCDEFGHIJKLMNOPQRSTUVWXYZ0123456789_-."

def instanceBytes : Bytes := attachmentBytes ++ ascii "#"

def registration (name : PortName) : Option Registration := do
  let start ← findText suffix name
  let side := name[start + 5]?
  if start = 0 ∨ name.length ≤ start + 7 ∨ name[start + 6]? ≠ some 58 ∨
      (side ≠ some 99 ∧ side ≠ some 115) then none
  else
    let result : Registration :=
      { attachment := name.take start, instanceId := name.drop (start + 7)
        server := side == some 115 }
    if result.attachment.all attachmentBytes.contains &&
        result.instanceId.all instanceBytes.contains then some result
    else none

def attachmentMatches (service : ViaService) (r : Registration) : Bool :=
  routePortMatches (if r.server then service.server else service.client) r.attachment &&
    (service.instances.isEmpty || service.instances.contains r.instanceId)

/-! ### Chain ids -/

abbrev Generations := OrderedMap ℕ (OrderedMap Bytes UInt32)

def Generations.idOf (g : Generations) (rules : ℕ) (key : Bytes) : Option UInt32 :=
  (g.find? rules).bind fun ids => ids.find? key

structure Issued (next : UInt32) (g : Generations) : Prop where
  bounds : ∀ rules key id, g.idOf rules key = some id → 0 < id.toNat ∧ id.toNat ≤ next.toNat
  unique : ∀ rules key rules' key' id, g.idOf rules key = some id → g.idOf rules' key' = some id →
    rules = rules' ∧ key = key'

namespace Issued

theorem none : Issued 0 {} where
  bounds := (by intros; contradiction)
  unique := (by intros; contradiction)

theorem filter {next : UInt32} {g : Generations} (h : Issued next g) (keep : ℕ → Bool) :
    Issued next (OrderedMap.filter g fun rules _ => keep rules) := by
  have hsub : ∀ rules key id,
      Generations.idOf (OrderedMap.filter g fun rules _ => keep rules) rules key = some id →
        g.idOf rules key = some id := by
    intro rules key id hid
    obtain ⟨ids, hids, hkey⟩ := Option.bind_eq_some_iff.mp hid
    exact Option.bind_eq_some_iff.mpr ⟨ids, OrderedMap.find?_of_filter hids, hkey⟩
  exact
    { bounds := fun rules key id hid => h.bounds rules key id (hsub _ _ _ hid)
      unique := fun rules key rules' key' id hid hid' =>
        h.unique rules key rules' key' id (hsub _ _ _ hid) (hsub _ _ _ hid') }

theorem congr {next : UInt32} {g g' : Generations} (h : Issued next g)
    (heq : ∀ rules key, g'.idOf rules key = g.idOf rules key) : Issued next g' where
  bounds := fun rules key id hid => h.bounds rules key id (heq rules key ▸ hid)
  unique := fun rules key rules' key' id hid hid' =>
    h.unique rules key rules' key' id (heq rules key ▸ hid) (heq rules' key' ▸ hid')

end Issued

def Generations.idsOf (g : Generations) (rules : ℕ) : OrderedMap Bytes UInt32 :=
  (g.find? rules).getD {}

theorem Generations.find?_idsOf (g : Generations) (rules : ℕ) (key : Bytes) :
    (g.idsOf rules).find? key = g.idOf rules key := by
  rw [idsOf, idOf]
  cases g.find? rules <;> rfl

theorem Generations.idOf_insert (g : Generations) (rules : ℕ) (ids : OrderedMap Bytes UInt32)
    (rules' : ℕ) (key : Bytes) :
    Generations.idOf (OrderedMap.insert g rules ids) rules' key =
      if rules' = rules then ids.find? key else g.idOf rules' key := by
  rw [idOf, OrderedMap.find?_insert]
  split <;> rfl

theorem Generations.idOf_touched (g : Generations) (rules rules' : ℕ) (key : Bytes) :
    Generations.idOf (OrderedMap.insert g rules (g.idsOf rules)) rules' key = g.idOf rules' key := by
  rw [idOf_insert, find?_idsOf]
  split
  next h => rw [h]
  next => rfl

namespace Issued

theorem insert {next : UInt32} {g : Generations} (h : Issued next g) (hnext : next ≠ 4294967295)
    (rules : ℕ) (key : Bytes) :
    Issued (next + 1) (OrderedMap.insert g rules ((g.idsOf rules).insert key (next + 1))) := by
  have hsucc : (next + 1).toNat = next.toNat + 1 := by
    have hlt : next.toNat < 4294967295 := by
      have hle := next.toNat_lt
      have hne : next.toNat ≠ 4294967295 := fun heq => hnext (UInt32.toNat_inj.mp heq)
      omega
    rw [UInt32.toNat_add]
    change (next.toNat + 1) % 2 ^ 32 = _
    omega
  have hid : ∀ rules' key' id,
      Generations.idOf (OrderedMap.insert g rules ((g.idsOf rules).insert key (next + 1))) rules' key' =
        some id → rules' = rules ∧ key' = key ∧ id = next + 1 ∨ g.idOf rules' key' = some id := by
    intro rules' key' id hsome
    rw [Generations.idOf_insert, OrderedMap.find?_insert, Generations.find?_idsOf] at hsome
    split at hsome
    next hr =>
      subst hr
      split at hsome
      next hk => exact .inl ⟨rfl, hk, (Option.some.inj hsome).symm⟩
      next => exact .inr hsome
    next => exact .inr hsome
  constructor
  · intro rules' key' id hsome
    rcases hid _ _ _ hsome with ⟨-, -, rfl⟩ | hold
    · omega
    · have hbounds := h.bounds _ _ _ hold
      omega
  · intro rules₁ key₁ rules₂ key₂ id h₁ h₂
    rcases hid _ _ _ h₁ with ⟨rfl, rfl, rfl⟩ | hold₁ <;> rcases hid _ _ _ h₂ with ⟨rfl, rfl, heq⟩ | hold₂
    · exact ⟨rfl, rfl⟩
    · have hbounds := h.bounds _ _ _ hold₂
      omega
    · have hbounds := h.bounds _ _ _ hold₁
      rw [heq] at hbounds
      omega
    · exact h.unique _ _ _ _ _ hold₁ hold₂

end Issued

/-- The control-plane state of a switch: its cookie and the ids given out so far, by
ruleset object and by chain key. -/
structure State where
  cookie : UInt32
  next : UInt32 := 0
  generations : Generations := {}
  cookie_lettered : lettered cookie
  issued : Issued next generations

namespace State

def maintain (s : State) (expired : ℕ → Bool) : State :=
  { s with
    generations := OrderedMap.filter s.generations fun rules _ => !expired rules
    issued := s.issued.filter _ }

def identify (s : State) (rules : ℕ) (key : Bytes) : State × Except Bytes UInt32 :=
  let ids := s.generations.idsOf rules
  -- `generations[rules]` makes an entry for a new ruleset
  let touched : State :=
    { s with
      generations := OrderedMap.insert s.generations rules ids
      issued := s.issued.congr (s.generations.idOf_touched rules) }
  match ids.find? key with
  | some id => (touched, .ok id)
  | none =>
    if h : s.next = 4294967295 then (touched, .error (ascii "VIA chain IDs exhausted"))
    else
      ({ s with
          next := s.next + 1
          generations := OrderedMap.insert s.generations rules (ids.insert key (s.next + 1))
          issued := s.issued.insert h rules key }, .ok (s.next + 1))

theorem identify_ok {s s' : State} {rules : ℕ} {key : Bytes} {id : UInt32}
    (h : s.identify rules key = (s', .ok id)) :
    s'.generations.idOf rules key = some id ∧
      ∀ r k i, s.generations.idOf r k = some i → s'.generations.idOf r k = some i := by
  rw [identify] at h
  split at h
  next i hfound =>
    cases h
    constructor
    · rw [Generations.idOf_touched, ← Generations.find?_idsOf, hfound]
    · intro r k i hi
      rw [Generations.idOf_touched, hi]
  next hnew =>
  split at h
  next => cases h
  next =>
  cases h
  constructor
  · rw [Generations.idOf_insert, if_pos rfl, OrderedMap.find?_insert, if_pos rfl]
  · intro r k i hi
    rw [Generations.idOf_insert]
    split
    next hr =>
      subst hr
      rw [OrderedMap.find?_insert, Generations.find?_idsOf]
      split
      next hk =>
        subst hk
        rw [Generations.find?_idsOf, hi] at hnew
        cases hnew
      next => exact hi
    next => exact hi

end State

end Tuntom.Via
