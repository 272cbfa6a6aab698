import Tuntom.ControlFrame
import Tuntom.OrderedMap

/-! Authority proofs on control frames, from `control_auth.hpp`: challenges, the
sessions that grow out of them, and the replay window of each. -/
namespace Tuntom.Control
open BigEndian

/-- `std::map` keeps byte arrays in the order of their bytes, which for arrays of
one length is the order of the numbers they spell. -/
instance (n : ℕ) : LT (Block n) := ⟨fun a b => value a.toList < value b.toList⟩

instance (n : ℕ) : DecidableLT (Block n) :=
  fun a b => inferInstanceAs (Decidable (value a.toList < value b.toList))

def millisecond : Time := 1000000

abbrev AuthorityKey := Block 32

structure Grant where
  pub : AuthorityKey := zeroBlock 32
  caps : UInt64 := 0
  levels : Vector UInt64 64 := Vector.replicate 64 0
  deriving DecidableEq, Repr

def Grant.allows (g : Grant) (requested level : UInt64) : Bool :=
  g.caps &&& requested == requested &&
    (List.finRange 64).all fun i =>
      requested &&& (1 <<< UInt64.ofNat i.val) == 0 || level ≤ g.levels.get i

structure SigningKey where
  secret : Block 32
  grant : Grant
  deriving DecidableEq, Repr

structure AuthConfig where
  trusted : OrderedMap AuthorityKey Grant := {}
  signing : List SigningKey := []
  authority : AuthorityKey := zeroBlock 32
  caps : UInt64 := 0
  level : UInt64 := 0
  allowTrusted : Bool := false
  allowAll : Bool := false
  deriving DecidableEq, Repr

def AuthConfig.required (c : AuthConfig) : Bool := c.allowTrusted
def AuthConfig.enabled (c : AuthConfig) : Bool := c.allowTrusted || c.allowAll

structure Challenge where
  n : AuthorityKey := zeroBlock 32
  authority : AuthorityKey := zeroBlock 32
  caps : UInt64 := 0
  level : UInt64 := 0
  deriving DecidableEq, Repr

namespace Challenge

def encode (c : Challenge) : Bytes :=
  c.n.toList ++ c.authority.toList ++ storeBe64 c.caps ++ storeBe64 c.level

def decode (b : Bytes) : Option Challenge :=
  if b.length ≠ challengeSize then none
  else if block 32 (field b 0 32) = zeroBlock 32 then none
  else some
    { n := block 32 (field b 0 32)
      authority := block 32 (field b 32 32)
      caps := loadBe64 b 64
      level := loadBe64 b 72 }

end Challenge

structure Window where
  high : UInt64 := 0
  bits : UInt64 := 0
  deriving DecidableEq, Repr

/-- `Window::accept`; none when the number is refused. -/
def Window.accept (w : Window) (seq : UInt64) : Option Window :=
  if seq = 0 then none
  else if w.high < seq then
    let d := seq - w.high
    some { high := seq, bits := if 64 ≤ d then 1 else (w.bits <<< d) ||| 1 }
  else
    let d := w.high - seq
    if 64 ≤ d ∨ w.bits &&& (1 <<< d) ≠ 0 then none
    else some { w with bits := w.bits ||| (1 <<< d) }

structure AuthSession where
  challenge : Challenge := {}
  secret : Block 32 := zeroBlock 32
  key : Key := zeroBlock 16
  authority : AuthorityKey := zeroBlock 32
  request : Id := zeroBlock 16
  expires : Time := 0
  rx : Window := {}
  tx : UInt64 := 0
  bound : Bool := false
  deriving DecidableEq, Repr

def AuthSession.bind (s : AuthSession) (authority : AuthorityKey) (request : Id) : AuthSession :=
  { s with bound := true, authority, request, secret := zeroBlock 32 }

structure Auth where
  config : AuthConfig := {}
  origin : Id := zeroBlock 16
  incoming : OrderedMap AuthorityKey AuthSession := {}
  outgoing : OrderedMap Id AuthSession := {}
  responding : OrderedMap Id AuthorityKey := {}
  nextChallenge : Time := 0
  deriving DecidableEq, Repr

namespace Auth

def lifetime : Time := 120 * second

def sequence (proof : Bytes) : UInt64 := loadBe64 proof 64

variable (P : Primitives)

/-- `derive`: the key of a session between a challenge and an authority. -/
def derive (secret peer : Block 32) (challenge : Challenge) (authority : AuthorityKey) (origin : Id) :
    Option Key :=
  (shared P secret peer).map fun dh =>
    P.mac (block 16 (dh.toList.take 16)) 0
      (ascii "TUNTOM-CONTROL-KDF-v1" ++ [0] ++ dh.toList ++ challenge.encode ++ authority.toList ++
        origin.toList)

def tag (key : Key) (message proof : Bytes) (reply : Bool) : Tag :=
  P.mac key 0
    (ascii "TUNTOM-CONTROL-MAC-v1" ++ [0] ++ [if reply then 1 else 0] ++ proof.take 72 ++ message)

/-- `check`: the session with its window moved on, if the proof is good. -/
def check (s : AuthSession) (message proof : Bytes) (reply : Bool) : Option AuthSession :=
  if proof.length ≠ proofSize then none
  else if (tag P s.key message proof reply).toList ≠ field proof 72 16 then none
  else (s.rx.accept (sequence proof)).map fun rx => { s with rx }

/-- `sign`: no proof once the counter is used up. -/
def sign (s : AuthSession) (message : Bytes) (reply : Bool) : AuthSession × Bytes :=
  if s.tx = 18446744073709551615 then (s, [])
  else
    let front := s.challenge.n.toList ++ s.authority.toList ++ storeBe64 (s.tx + 1)
    ({ s with tx := s.tx + 1 }, front ++ (tag P s.key message front reply).toList)

def required (a : Auth) : Bool := a.config.required
def enabled (a : Auth) : Bool := a.config.enabled
variable (a : Auth)

def debugAll : Bool := a.config.allowAll
def signing (a : Auth) : Bool := !a.config.signing.isEmpty

def reset : Auth :=
  { a with incoming := {}, outgoing := {}, responding := {}, nextChallenge := 0 }

def releaseOutgoing (id : Id) : Auth := { a with outgoing := a.outgoing.erase id }

def retire (id : Id) : Auth :=
  { a with
    responding := a.responding.erase id
    incoming := a.incoming.filter fun _ s => s.request ≠ id }

def forget (id : Id) : Auth := (a.releaseOutgoing id).retire id

def tick (now : Time) : Auth :=
  let incoming := a.incoming.filter fun _ s => now < s.expires
  { a with
    incoming
    outgoing := a.outgoing.filter fun _ s => now < s.expires
    responding := a.responding.filter fun _ n => incoming.contains n }

def freshChallenge (secret : Block 32) (caps : UInt64) : Challenge :=
  if a.required then
    { n := P.publicKey secret
      authority := a.config.authority
      caps := if a.config.authority = zeroBlock 32 then caps ||| a.config.caps else 0
      level := if a.config.authority = zeroBlock 32 then a.config.level else 0 }
  else { n := P.publicKey secret }

/-- `challenge`; `random` is what the entropy source gives. -/
def challenge (a : Auth) (request : Id) (caps : UInt64) (now : Time) (random : Option (Block 32)) :
    Auth × Bytes :=
  let a := a.tick now
  if request = zeroBlock 16 ∨ a.config.enabled = false ∨ now < a.nextChallenge ∨
      32 ≤ a.incoming.size then (a, [])
  else
    let a := { a with nextChallenge := now + 20 * millisecond }
    match random with
    | none => (a, [])
    | some secret =>
      if a.incoming.contains (P.publicKey secret) then (a, [])
      else
        let c := a.freshChallenge P secret caps
        let s : AuthSession := { challenge := c, secret, request, expires := now + lifetime }
        ({ a with incoming := a.incoming.insert c.n s }, c.encode)

/-- The signing keys in order; the first one the challenge asks for answers it. -/
def answerWith (a : Auth) (request : Id) (challenge : Challenge) (now : Time) :
    List SigningKey → Auth × Bool
  | [] => (a, false)
  | key :: rest =>
    let skip := if challenge.authority ≠ zeroBlock 32 then key.grant.pub ≠ challenge.authority
      else key.grant.allows challenge.caps challenge.level = false
    if skip then a.answerWith request challenge now rest
    else
      match derive P key.secret challenge.n challenge key.grant.pub a.origin with
      | none => (a, false)
      | some k =>
        if 16 ≤ a.outgoing.size ∧ a.outgoing.contains request = false then (a, false)
        else
          let s : AuthSession :=
            { challenge, key := k, authority := key.grant.pub, request, expires := now + lifetime }
          ({ a with outgoing := a.outgoing.insert request s }, true)

/-- `accept_challenge`. A challenge already answered does not reset the counters. -/
def acceptChallenge (request : Id) (bytes : Bytes) (now : Time) : Auth × Bool :=
  if a.enabled = false ∨ request = zeroBlock 16 then (a, false)
  else
    let a := a.tick now
    match Challenge.decode bytes with
    | none => (a, false)
    | some challenge =>
      match a.outgoing.find? request with
      | some old =>
        if old.challenge.n = challenge.n then (a, false)
        else a.answerWith P request challenge now a.config.signing
      | none => a.answerWith P request challenge now a.config.signing

def protect (request : Id) (message : Bytes) (reply : Bool) : Auth × Bytes :=
  if a.enabled = false then (a, [])
  else if reply then
    match a.responding.find? request with
    | none => (a, [])
    | some n =>
      match a.incoming.find? n with
      | none => (a, [])
      | some s =>
        let (s, proof) := sign P s message true
        ({ a with incoming := a.incoming.insert n s }, proof)
  else
    match a.outgoing.find? request with
    | none => (a, [])
    | some s =>
      let (s, proof) := sign P s message false
      ({ a with outgoing := a.outgoing.insert request s }, proof)

def verifyReply (request : Id) (message proof : Bytes) : Auth × Bool :=
  if a.enabled = false then (a, false)
  else
    match a.outgoing.find? request with
    | none => (a, false)
    | some s =>
      if proof.length ≠ proofSize then (a, false)
      else if field proof 0 32 ≠ s.challenge.n.toList ∨ field proof 32 32 ≠ s.authority.toList then
        (a, false)
      else
        match check P s message proof true with
        | none => (a, false)
        | some s => ({ a with outgoing := a.outgoing.insert request s }, true)

def grants (challenge : Challenge) (authority : AuthorityKey) (caps : UInt64) : Bool :=
  match a.config.trusted.find? authority with
  | none => false
  | some grant =>
    if challenge.authority ≠ zeroBlock 32 ∧ challenge.authority ≠ authority then false
    else if challenge.authority = zeroBlock 32 ∧
        grant.allows challenge.caps challenge.level = false then false
    else grant.allows (caps ||| a.config.caps) a.config.level

/-- The session with the key a proof of `authority` is checked under: a bound
session keeps its key, an unbound one derives it at every attempt. -/
def keyed (s : AuthSession) (authority : AuthorityKey) : Option AuthSession :=
  if s.bound then if s.authority = authority then some s else none
  else (derive P s.secret authority s.challenge authority a.origin).map fun key => { s with key }

/-- `verify`: the authority that made the proof, when it is good. -/
def verify (request : Id) (message proof : Bytes) (caps : UInt64) :
    Auth × Option AuthorityKey :=
  if a.config.enabled = false ∨ proof.length ≠ proofSize then (a, none)
  else
    let n := block 32 (field proof 0 32)
    let authority := block 32 (field proof 32 32)
    match a.incoming.find? n with
    | none => (a, none)
    | some s =>
      if s.request ≠ zeroBlock 16 ∧ s.request ≠ request then (a, none)
      else if a.required = true ∧ a.grants s.challenge authority caps = false then (a, none)
      else
        match a.keyed P s authority with
        | none => (a, none)
        | some s =>
          match check P s message proof false with
          -- a key derived for a proof that fails stays in the session
          | none => ({ a with incoming := a.incoming.insert n s }, none)
          | some s =>
            let incoming := a.incoming.insert n (s.bind authority request)
            ({ a with
                incoming := incoming.filter fun m t => m = n || t.request ≠ request
                responding := a.responding.insert request n }, some authority)

end Auth

end Tuntom.Control
