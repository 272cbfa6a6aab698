import Tuntom.ControlAuth

/-! The transactions of `remote_control.hpp`: one object both submits requests and
executes the requests of its peer. -/
namespace Tuntom.Control

structure Incoming where
  request : ControlRequest := {}
  total : ℕ := 0
  state : State := .receiving
  response : Bytes := []
  started : Time := 0
  progress : Time := 0
  acknowledged : Bool := false
  cheap : Bool := false
  order : ℕ := 0
  principal : AuthorityKey := zeroBlock 32
  deriving DecidableEq, Repr

structure Result where
  exit : ℕ := 1
  body : Bytes := []
  deriving DecidableEq, Repr

structure Outgoing where
  request : ControlRequest := {}
  last : Frame := {}
  sent : ℕ := 0
  total : ℕ := 0
  response : Bytes := []
  state : State := .receiving
  known : Bool := false
  seen : Bool := false
  finishing : Bool := false
  queryOnly : Bool := false
  retries : ℕ := 5
  attempts : ℕ := 0
  wait : Time := 250 * millisecond
  next : Time := 0
  completed : Time := 0
  result : Option Result := none
  deriving DecidableEq, Repr

inductive Effect
  /-- A frame passed authentication; `proof` is what it carried. -/
  | accepted (frame : Frame) (proof : Bytes) (principal : AuthorityKey)
  /-- `admit` takes `size` off its account `reserved`. -/
  | discounted (reserved size : ℕ)
  /-- The admission callback gave `answer`. -/
  | admission (id : Id) (request : ControlRequest) (answer : Bool)
  /-- The executor was called; no response stands for a failed allocation. -/
  | execute (id : Id) (request : ControlRequest) (response : Option ControlResponse)
  | submitted (id : Id) (request : ControlRequest)
  | send (bytes : Bytes)
  deriving DecidableEq, Repr

/-- What the surroundings answer during one call. -/
structure Handlers where
  admission : Option (Id → ControlRequest → Bool) := none
  execute : ControlRequest → Option ControlResponse := fun _ => some {}
  random : Option (Block 32) := none

structure RemoteControl where
  incoming : OrderedMap Id Incoming := {}
  outgoing : OrderedMap Id Outgoing := {}
  order : ℕ := 0
  chunk : ℕ := 512
  access : ControlAccess := {}
  auth : Auth := {}
  enabled : Bool := false
  challengesTx : ℕ := 0
  deriving DecidableEq, Repr

def Incoming.terminal (r : Incoming) : Bool := r.state.terminal

variable (r : Incoming)

def Incoming.exclusive : Bool := !r.cheap && !r.terminal

def Incoming.stored : ℕ := r.response.length + r.request.body.length

/-- The bytes `admit` puts on the account of an entry. -/
def Incoming.reserved : ℕ :=
  if r.terminal then r.stored else controlMaxBody + r.total

/-- `terminal`: the end of a transaction. -/
def Incoming.conclude (state : State) (body : Bytes) (order : ℕ) : Incoming :=
  { r with state, response := body, order }

def Incoming.take (f : Frame) (now : Time) : Except Bytes Incoming :=
  if r.request.command ≠ f.command ∨ r.total ≠ f.total.toNat then
    .error (ascii "request ID conflicts with another request")
  else if r.total < f.offset.toNat ∨ r.total - f.offset.toNat < f.data.length then
    .error (ascii "invalid block bounds")
  else if f.offset.toNat < r.request.body.length then
    if r.request.body.length - f.offset.toNat < f.data.length ∨
        field r.request.body f.offset.toNat f.data.length ≠ f.data then
      .error (ascii "request ID conflicts with another body")
    else .ok r
  else if f.offset.toNat = r.request.body.length ∧ r.state = .receiving then
    .ok { r with
      request := { r.request with body := r.request.body ++ f.data }
      progress := if f.data = [] then r.progress else now }
  else .ok r

def Incoming.complete : Prop :=
  r.state = .receiving ∧ r.request.body.length = r.total

instance (r : Incoming) : Decidable r.complete := inferInstanceAs (Decidable (_ ∧ _))

def bounded (response : ControlResponse) : ControlResponse :=
  if controlMaxBody < response.body.length then
    { success := false
      body := ascii "control response exceeds 1 MiB; operation may already have completed\n" }
  else response

def outcome (response : ControlResponse) : State :=
  if response.rejected then .rejected else if response.success then .succeeded else .failed

/-- The record after the executor; a failed allocation leaves it failed and empty. -/
def Incoming.executed (response : Option ControlResponse) (order : ℕ) : Incoming :=
  match response with
  | none => r.conclude .failed [] order
  | some response => r.conclude (outcome (bounded response)) (bounded response).body order

/-- The frame `respond` builds. -/
def Incoming.answer (id : Id) (chunk offset : ℕ) (kind : Kind) : Frame :=
  if r.terminal then
    let offset := min offset r.response.length
    { kind, id
      state := r.state
      total := UInt32.ofNat r.response.length
      offset := UInt32.ofNat offset
      data := if kind = .reply then field r.response offset chunk else [] }
  else { kind, id, state := r.state, offset := UInt32.ofNat r.request.body.length }

/-- The record `refuse` answers with and does not keep. -/
def refusal (why : Bytes) : Incoming := { state := .rejected, response := why ++ ascii "\n" }

def exitCode : State → ℕ
  | .succeeded => 0
  | .rejected => 255
  | _ => 1

def hex (id : Id) : Bytes :=
  let digit : ℕ → UInt8 := fun d => UInt8.ofNat (if d < 10 then 48 + d else 87 + d)
  id.toList.flatMap fun b => [digit (b.toNat / 16), digit (b.toNat % 16)]

/-- The frame `send_next` sends. -/
def Outgoing.frame (r : Outgoing) (id : Id) (chunk : ℕ) (retry : Bool) : Frame :=
  if r.finishing then
    { id, kind := .finish, state := r.state, total := UInt32.ofNat r.response.length }
  else if retry || r.known then
    { id, kind := .status, offset := UInt32.ofNat r.response.length }
  else
    -- the first frame of a request without a body comes here too
    { id, kind := .put
      command := r.request.command
      offset := UInt32.ofNat r.sent
      total := UInt32.ofNat r.request.body.length
      data := field r.request.body r.sent chunk }

def Outgoing.fail (r : Outgoing) (why : Bytes) (now : Time) : Outgoing :=
  { r with result := some { exit := 1, body := why }, completed := now }

/-- What a reply makes of a request that is not finishing yet: the record, and
whether the next frame follows. -/
def Outgoing.replied (r : Outgoing) (f : Frame) (now : Time) : Outgoing × Bool :=
  if f.state = .notFound then
    if r.seen || r.known then
      (r.fail (ascii "remote request no longer available (peer restarted or history evicted)\n") now,
        false)
    else ({ r with sent := 0 }, true)
  else
    let r := { r with seen := true }
    if r.queryOnly ∧ f.state.terminal = false then ({ r with state := f.state }, false)
    else if f.state = .receiving then
      if r.request.body.length < f.offset.toNat ∨ f.offset.toNat < r.sent then (r, false)
      else
        ({ r with
          attempts := if r.sent < f.offset.toNat then 0 else r.attempts
          sent := f.offset.toNat
          known := f.offset.toNat == r.request.body.length }, true)
    else
      let r := { r with known := true }
      if f.state.terminal = false then ({ r with state := f.state }, false)
      else if controlMaxBody < f.total.toNat ∨ f.offset.toNat ≠ r.response.length ∨
          f.total.toNat - min f.total.toNat f.offset.toNat < f.data.length then (r, false)
      else if r.response ≠ [] ∧ (r.state ≠ f.state ∨ r.total ≠ f.total.toNat) then (r, false)
      else
        ({ r with
          state := f.state
          total := f.total.toNat
          response := r.response ++ f.data
          attempts := if f.data = [] then r.attempts else 0
          finishing := (r.response ++ f.data).length == f.total.toNat }, true)

def Outgoing.confirm (r : Outgoing) (now : Time) : Outgoing :=
  { r with
    result := some { exit := exitCode r.state, body := r.response }
    response := []
    request := { r.request with body := [] }
    completed := now }

/-- The account of `admit_outgoing` for one request. -/
def Outgoing.reserved (r : Outgoing) : ℕ :=
  match r.result with
  | none => 2 * controlMaxBody
  | some result => r.request.body.length + r.response.length + result.body.length

def earliest {β α : Type} [LT α] [DecidableLT α] (mark : β → Option α) :
    List (Id × β) → Option (Id × β)
  | [] => none
  | e :: rest =>
    match mark e.2, earliest mark rest with
    | none, best => best
    | some _, none => some e
    | some m, some best =>
      match mark best.2 with
      | some n => if n < m then some best else some e
      | none => some e

namespace RemoteControl

def history : ℕ := 128
def activeLimit : ℕ := 8
def memoryLimit : ℕ := 16 * controlMaxBody

/-! ### Admission -/

variable (P : Primitives) (rc : RemoteControl) (f : Frame)

def slotBusy : Bool := rc.incoming.values.any Incoming.exclusive

def evictable (r : Incoming) : Option ℕ := if r.acknowledged then some r.order else none

/-- The eviction loop of `admit`; every turn drops an entry, so a turn for each
entry and one more are enough. -/
def makeRoom : ℕ → RemoteControl → ℕ → RemoteControl × List Effect × Bool
  | 0, rc, _ => (rc, [], false)
  | turns + 1, rc, reserved =>
    if history ≤ rc.incoming.size ∨ memoryLimit < reserved + 2 * controlMaxBody then
      match earliest evictable rc.incoming.entries with
      | none => (rc, [], false)
      | some (id, r) =>
        let rest := makeRoom turns
          { rc with incoming := rc.incoming.erase id, auth := rc.auth.forget id }
          (reserved - r.stored)
        (rest.1, .discounted reserved r.stored :: rest.2.1, rest.2.2)
    else (rc, [], true)

/-- `admit`. -/
def admitIncoming : RemoteControl × List Effect × Bool :=
  if activeLimit ≤ (rc.incoming.values.filter fun r => !r.terminal).length then (rc, [], false)
  else makeRoom (rc.incoming.size + 1) rc (rc.incoming.total Incoming.reserved)

/-- The eviction loop of `admit_outgoing`. -/
def makeOutgoingRoom : ℕ → RemoteControl → ℕ → RemoteControl × Bool
  | 0, rc, _ => (rc, false)
  | turns + 1, rc, reserved =>
    if history ≤ rc.outgoing.size ∨ memoryLimit < reserved + 2 * controlMaxBody then
      match earliest (fun r : Outgoing => r.result.map fun _ => r.completed) rc.outgoing.entries with
      | none => (rc, false)
      | some (id, r) =>
        makeOutgoingRoom turns { rc with outgoing := rc.outgoing.erase id } (reserved - r.reserved)
    else (rc, true)

/-- `admit_outgoing`; false where the source throws. -/
def admitOutgoing : RemoteControl × Bool :=
  if activeLimit ≤ (rc.outgoing.values.filter fun r => r.result.isNone).length then (rc, false)
  else makeOutgoingRoom (rc.outgoing.size + 1) rc (rc.outgoing.total Outgoing.reserved)

/-! ### Sending -/

def updateOutgoing (id : Id) (change : Outgoing → Outgoing) : RemoteControl :=
  match rc.outgoing.find? id with
  | none => rc
  | some r => { rc with outgoing := rc.outgoing.insert id (change r) }

/-- The last frame of a request is kept for a repetition under a new proof. -/
def remember : RemoteControl :=
  if f.kind.answers then rc else rc.updateOutgoing f.id fun r => { r with last := f }

def emit : RemoteControl × List Effect :=
  if rc.enabled = false then (rc, [])
  else if f.kind = .challenge then
    ({ rc with challengesTx := rc.challengesTx + 1 }, f.encode.toList.map .send)
  else
    let rc := rc.remember f
    let signed := rc.auth.protect P f.id f.bytes f.kind.answers
    ({ rc with auth := signed.1 }, { f with auth := signed.2 }.encode.toList.map .send)

def respond (id : Id) (r : Incoming) (offset : ℕ) (kind : Kind) :
    RemoteControl × List Effect :=
  rc.emit P (r.answer id rc.chunk offset kind)

def refuse (id : Id) (why : Bytes) : RemoteControl × List Effect :=
  rc.respond P id (refusal why) 0 .reply

def notFound (rc : RemoteControl) (id : Id) : RemoteControl × List Effect :=
  rc.emit P { id, kind := .reply, state := .notFound }

def sendNext (id : Id) (now : Time) (retry : Bool) :
    RemoteControl × List Effect :=
  match rc.outgoing.find? id with
  | none => (rc, [])
  | some r =>
    let sent := rc.emit P (r.frame id rc.chunk retry)
    (sent.1.updateOutgoing id fun r => { r with next := now + r.wait }, sent.2)

/-! ### Receiving -/

def receiveAnswer (now : Time) : RemoteControl × List Effect :=
  match rc.outgoing.find? f.id with
  | none => (rc, [])
  | some r =>
    if r.result.isSome then (rc, [])
    else if f.kind = .confirmed then
      if r.finishing = false ∨ f.state ≠ r.state ∨ f.total.toNat ≠ r.response.length then (rc, [])
      else
        ({ rc with
            outgoing := rc.outgoing.insert f.id (r.confirm now)
            auth := rc.auth.releaseOutgoing f.id }, [])
    else if r.finishing then (rc, [])
    else
      let replied := r.replied f now
      let rc := { rc with outgoing := rc.outgoing.insert f.id replied.1 }
      if replied.2 then rc.sendNext P f.id now false else (rc, [])

def receiveQuery : RemoteControl × List Effect :=
  match rc.incoming.find? f.id with
  | none =>
    -- capacity refusals have no record and are confirmed without one
    if f.kind = .finish ∧ f.state = .rejected then
      rc.emit P { id := f.id, kind := .confirmed, state := .rejected, total := f.total }
    else rc.notFound P f.id
  | some r =>
    if f.kind = .finish ∧ r.terminal ∧ f.state = r.state ∧ f.total.toNat = r.response.length then
      let r := { r with acknowledged := true }
      let sent := { rc with incoming := rc.incoming.insert f.id r }.respond P f.id r 0 .confirmed
      ({ sent.1 with auth := sent.1.auth.retire f.id }, sent.2)
    else rc.respond P f.id r f.offset.toNat .reply

/-- The first check a new request fails, with what the admission callback was asked. -/
def objection (op : ControlOperation) (h : Handlers) :
    Option Bytes × List Effect :=
  let busy := if !op.cheap && rc.slotBusy then some (ascii "remote control busy") else none
  if f.total.toNat ≠ op.length ∨ controlMaxBody < f.total.toNat then
    (some (ascii "invalid request length"), [])
  else if !rc.auth.required && !rc.access.allows op.permission then
    (some (ascii "control access denied"), [])
  else
    match h.admission with
    | none => (busy, [])
    | some ask =>
      let asked := Effect.admission f.id ⟨f.command, []⟩ (ask f.id ⟨f.command, []⟩)
      if ask f.id ⟨f.command, []⟩ then (busy, [asked])
      else (some (ascii "remote control busy"), [asked])

def opened (principal : AuthorityKey) (now : Time) (h : Handlers) :
    Incoming × List Effect :=
  let r : Incoming :=
    { principal, request := ⟨f.command, []⟩, total := f.total.toNat, started := now, progress := now }
  let rejected (r : Incoming) (why : Bytes) := r.conclude .rejected (why ++ ascii "\n") (rc.order + 1)
  match ControlDispatcher.parse f.command with
  | .error why => (rejected r why, [])
  | .ok op =>
    let r := { r with cheap := op.cheap }
    match rc.objection f op h with
    | (none, effects) => (r, effects)
    | (some why, effects) => (rejected r why, effects)

def store (id : Id) (r : Incoming) : RemoteControl :=
  { rc with incoming := rc.incoming.insert id r }

def storeEnded (id : Id) (r : Incoming) : RemoteControl :=
  { rc with incoming := rc.incoming.insert id r, order := rc.order + 1 }

def upload (r : Incoming) (now : Time) (h : Handlers) :
    RemoteControl × List Effect :=
  match r.take f now with
  | .error why => rc.refuse P f.id why
  | .ok r =>
    if r.complete then
      let response := h.execute r.request
      let done := r.executed response (rc.order + 1)
      let ran := Effect.execute f.id r.request response
      match response with
      | none => (rc.storeEnded f.id done, [ran])
      | some _ =>
        let sent := (rc.storeEnded f.id done).respond P f.id done 0 .reply
        (sent.1, ran :: sent.2)
    else (rc.store f.id r).respond P f.id r 0 .reply

def receivePut (principal : AuthorityKey) (now : Time)
    (h : Handlers) : RemoteControl × List Effect :=
  match rc.incoming.find? f.id with
  | some r => rc.upload P f r now h
  | none =>
    if f.offset ≠ 0 then rc.notFound P f.id
    else
      let room := rc.admitIncoming
      if room.2.2 = false then
        let sent := room.1.refuse P f.id (ascii "remote control busy")
        (sent.1, room.2.1 ++ sent.2)
      else
        let entry := room.1.opened f principal now h
        let rc := if entry.1.terminal then room.1.storeEnded f.id entry.1 else room.1.store f.id entry.1
        let sent := rc.upload P f entry.1 now h
        (sent.1, room.2.1 ++ entry.2 ++ sent.2)

def capability : UInt64 :=
  let command :=
    if f.kind = .put then f.command
    else (rc.incoming.find? f.id).elim [] fun r => r.request.command
  match ControlDispatcher.parse command with
  | .ok op => op.permission.bits
  | .error _ => ControlPermission.read.bits

def demand (now : Time) (h : Handlers) :
    RemoteControl × List Effect :=
  let made := rc.auth.challenge P f.id (rc.capability f) now h.random
  let rc := { rc with auth := made.1 }
  if made.2 = [] then (rc, []) else rc.emit P { kind := .challenge, id := f.id, data := made.2 }

inductive Verdict
  | principal (rc : RemoteControl) (key : AuthorityKey)
  | refused (rc : RemoteControl)
  | unproven (rc : RemoteControl)

def authenticate (proof : Bytes) : Verdict :=
  if f.kind.answers then
    -- an authority never falls back to an answer without a proof
    if rc.auth.signing ∨ proof ≠ [] then
      let verified := rc.auth.verifyReply P f.id f.bytes proof
      let rc := { rc with auth := verified.1 }
      if verified.2 then .principal rc (zeroBlock 32) else .refused rc
    else .principal rc (zeroBlock 32)
  else if rc.auth.required ∨ (rc.auth.debugAll ∧ proof ≠ []) then
    let verified := rc.auth.verify P f.id f.bytes proof (rc.capability f)
    let rc := { rc with auth := verified.1 }
    match verified.2 with
    | none => .unproven rc
    | some key =>
      if (rc.incoming.find? f.id).all fun r => r.principal = key then .principal rc key
      else .refused rc
  else if proof ≠ [] then .refused rc
  else .principal rc (zeroBlock 32)

def handle (principal : AuthorityKey) (now : Time) (h : Handlers) :
    RemoteControl × List Effect :=
  match f.kind with
  | .put => rc.receivePut P f principal now h
  | .status | .finish => rc.receiveQuery P f
  | .reply | .confirmed => rc.receiveAnswer P f now
  | .challenge => (rc, [])

def receiveChallenge (now : Time) : RemoteControl × List Effect :=
  match rc.outgoing.find? f.id with
  | none => (rc, [])
  | some r =>
    if r.result.isSome then (rc, [])
    else
      let taken := rc.auth.acceptChallenge P f.id f.data now
      let rc := { rc with auth := taken.1 }
      if taken.2 then
        let sent := rc.emit P r.last
        (sent.1, .accepted f [] (zeroBlock 32) :: sent.2)
      else (rc, [])

def receive (bytes : Bytes) (now : Time) (h : Handlers) :
    RemoteControl × List Effect :=
  if rc.enabled = false then (rc, [])
  else
    match Frame.decode bytes with
    | none => (rc, [])
    | some f =>
      let rc := { rc with auth := rc.auth.tick now }
      if f.kind = .challenge then rc.receiveChallenge P f now
      else
        let plain := { f with auth := [] }
        match rc.authenticate P plain f.auth with
        | .refused rc => (rc, [])
        | .unproven rc => rc.demand P plain now h
        | .principal rc key =>
          let sent := rc.handle P plain key now h
          (sent.1, .accepted plain f.auth key :: sent.2)

/-! ### Timers and sessions -/

/-- Ends the upload of `id`, if it is one that is `due`. -/
def expire (rc : RemoteControl) (id : Id) (due : Incoming → Bool) (keep : Bool) (text : Bytes) :
    RemoteControl :=
  match rc.incoming.find? id with
  | none => rc
  | some r =>
    if r.state = .receiving ∧ due r then
      let r := r.conclude .expired text (rc.order + 1)
      rc.storeEnded id (if keep then r else { r with request := { r.request with body := [] } })
    else rc

def timedOut (id : Id) (state : State) : Bytes :=
  ascii "request " ++ hex id ++ ascii " timed out; last state=" ++ state.name ++
    ascii "; operation may still complete\n"

/-- One request in the second loop of `tick`. -/
def tickOutgoing (id : Id) (now : Time) : RemoteControl × List Effect :=
  match rc.outgoing.find? id with
  | none => (rc, [])
  | some r =>
    if r.result.isSome then
      let rc := { rc with auth := rc.auth.releaseOutgoing id }
      if now - r.completed > 300 * second then
        ({ rc with outgoing := rc.outgoing.erase id }, [])
      else (rc, [])
    else if now < r.next then (rc, [])
    else
      let r' := { r with attempts := r.attempts + 1 }
      if r.retries ≤ r.attempts then
        ({ rc with outgoing := rc.outgoing.insert id (r'.fail (timedOut id r.state) now) }, [])
      else { rc with outgoing := rc.outgoing.insert id r' }.sendNext P id now true

def each (turn : RemoteControl → Id → RemoteControl × List Effect) (rc : RemoteControl) :
    List Id → RemoteControl × List Effect
  | [] => (rc, [])
  | id :: rest =>
    let first := turn rc id
    let others := each turn first.1 rest
    (others.1, first.2 ++ others.2)

def uploadDue (now : Time) (r : Incoming) : Bool :=
  now - r.progress ≥ 2 * second || now - r.started ≥ 10 * second

def tick (rc : RemoteControl) (now : Time) : RemoteControl × List Effect :=
  let rc := { rc with auth := rc.auth.tick now }
  let rc := (rc.incoming.entries.map Prod.fst).foldl (fun rc id =>
    rc.expire id (uploadDue now) false (ascii "request upload expired before execution\n")) rc
  rc.each (fun rc id => rc.tickOutgoing P id now) (rc.outgoing.entries.map Prod.fst)

def interrupt (id : Id) (now : Time) (r : Outgoing) : Outgoing :=
  if r.result.isSome then r
  else
    r.fail (ascii "request " ++ hex id ++
      ascii " interrupted by session change; query status before retrying\n") now

def sessionChanged (now : Time) : RemoteControl :=
  let rc := { rc with auth := rc.auth.reset }
  let rc := (rc.outgoing.entries.map Prod.fst).foldl (fun rc id =>
    rc.updateOutgoing id (interrupt id now)) rc
  (rc.incoming.entries.map Prod.fst).foldl (fun rc id =>
    rc.expire id (fun _ => true) true (ascii "request upload interrupted by session change\n")) rc

/-! ### Submitting -/

/-- `submit` under an identity that the caller chose or `new_id` drew. Where the
source throws nothing is submitted. -/
def submit (id : Id) (request : ControlRequest) (retries : ℕ) (wait now : Time) :
    RemoteControl × List Effect :=
  if rc.enabled = false ∨ (rc.auth.required ∧ rc.auth.signing = false) then (rc, [])
  else
    let room := rc.admitOutgoing
    if room.2 = false then (room.1, [])
    else
      match ControlDispatcher.parse request.command with
      | .error _ => (room.1, [])
      | .ok op =>
        if 256 < request.command.length ∨ request.body.length ≠ op.length ∨
            room.1.outgoing.contains id then (room.1, [])
        else
          let r : Outgoing := { request, retries, wait }
          let sent := { room.1 with outgoing := room.1.outgoing.insert id r }.sendNext P id now false
          (sent.1, .submitted id request :: sent.2)

def query (id : Id) (retries : ℕ) (wait now : Time) :
    RemoteControl × List Effect :=
  if rc.enabled = false ∨ (rc.auth.required ∧ rc.auth.signing = false) then (rc, [])
  else if (rc.outgoing.find? id).any fun r => r.result.all fun result => result.exit ≠ 1 then (rc, [])
  else
    let room := { rc with outgoing := rc.outgoing.erase id }.admitOutgoing
    if room.2 = false then (room.1, [])
    else
      let r : Outgoing := { known := true, seen := true, queryOnly := true, retries, wait }
      { room.1 with outgoing := room.1.outgoing.insert id r }.sendNext P id now true

def release (id : Id) : RemoteControl :=
  { rc with outgoing := rc.outgoing.erase id, auth := rc.auth.forget id }

def payloadLimit (bytes : ℕ) : RemoteControl :=
  { rc with chunk := if 288 + proofSize < bytes then bytes - 288 - proofSize else 1 }

end RemoteControl

inductive Call
  | receive (bytes : Bytes) (now : Time) (handlers : Handlers)
  | tick (now : Time)
  | sessionChanged (now : Time)
  | submit (id : Id) (request : ControlRequest) (retries : ℕ) (wait now : Time)
  | query (id : Id) (retries : ℕ) (wait now : Time)
  | release (id : Id)
  | payloadLimit (bytes : ℕ)

def step (P : Primitives) (rc : RemoteControl) : Call → RemoteControl × List Effect
  | .receive bytes now h => rc.receive P bytes now h
  | .tick now => rc.tick P now
  | .sessionChanged now => (rc.sessionChanged now, [])
  | .submit id request retries wait now => rc.submit P id request retries wait now
  | .query id retries wait now => rc.query P id retries wait now
  | .release id => (rc.release id, [])
  | .payloadLimit bytes => (rc.payloadLimit bytes, [])

end Tuntom.Control
