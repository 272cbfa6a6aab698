import Tuntom.AuthHelper
import Tuntom.ExtensionCodec
import Tuntom.InfoCodec
import Tuntom.OrderedMap

/-! The reference policy helper: its configuration file, and the result it gives for a user
whose credentials another command has accepted. -/
namespace Tuntom.Gatekeeper
open List

/-! ### Configuration items -/

/-- The library calls that read text: `inet_pton`, and `stoul` in base 10 and `stoull` in base 0
with the number of characters they used. -/
structure Libc where
  pton4 : Bytes → Option (Block 4)
  pton6 : Bytes → Option (Block 16)
  stoul : Bytes → Option (ℕ × ℕ)
  stoull : Bytes → Option (UInt64 × ℕ)

inductive ConfigType
  | address4 | address6 | route4 | route6 | exclude4 | exclude6 | dns4 | dns6 | searchDomain | mtu
  deriving DecidableEq, Repr

def ConfigType.toUInt16 : ConfigType → UInt16
  | address4 => 1
  | address6 => 2
  | route4 => 3
  | route6 => 4
  | exclude4 => 5
  | exclude6 => 6
  | dns4 => 7
  | dns6 => 8
  | searchDomain => 9
  | mtu => 10

section Items

variable (libc : Libc)

def addressPrefix (text : Bytes) (maximum : ℕ) : Except Bytes (Bytes × ℕ) :=
  if 0x2f ∈ text then
    let address := text.takeWhile (· ≠ 0x2f)
    let size := text.drop (address.length + 1)
    match libc.stoul size with
    | none => .error (ascii "stoul")
    | some (n, used) =>
      if used ≠ size.length ∨ maximum < n then .error (ascii "invalid prefix: " ++ text)
      else .ok (address, n)
  else .error (ascii "address requires /prefix: " ++ text)

def network (type : ConfigType) (text : Bytes) : Except Bytes ConfigItem :=
  let v6 := type = .address6 ∨ type = .route6 ∨ type = .exclude6
  match addressPrefix libc text (if v6 then 128 else 32) with
  | .error message => .error message
  | .ok (address, size) =>
    match if v6 then (libc.pton6 address).map Vector.toList
        else (libc.pton4 address).map Vector.toList with
    | none => .error (ascii "invalid address: " ++ text)
    | some bytes =>
      .ok { type := type.toUInt16
            required := type = .address4 ∨ type = .address6
            value := bytes ++ [UInt8.ofNat size] }

def scalar (type : ConfigType) (text : Bytes) : Except Bytes ConfigItem :=
  let item (value : Bytes) : ConfigItem := { type := type.toUInt16, required := false, value }
  if type = .dns4 ∨ type = .dns6 then
    match if type = .dns4 then (libc.pton4 text).map Vector.toList
        else (libc.pton6 text).map Vector.toList with
    | none => .error (ascii "invalid DNS address: " ++ text)
    | some bytes => .ok (item bytes)
  else if type = .mtu then
    match libc.stoul text with
    | none => .error (ascii "stoul")
    | some (n, used) =>
      if used ≠ text.length ∨ n < 576 ∨ 65535 < n then .error (ascii "invalid MTU")
      else .ok (item (storeBe16 (UInt16.ofNat n)))
  else if text = [] ∨ 253 < text.length then .error (ascii "invalid search domain")
  else .ok (item text)

/-- The item of a user's key; `none` for a key that is not one of an item. -/
def itemOf (key value : Bytes) : Option (Except Bytes ConfigItem) :=
  if key = ascii "address4" then some (network libc .address4 value)
  else if key = ascii "address6" then some (network libc .address6 value)
  else if key = ascii "route4" then some (network libc .route4 value)
  else if key = ascii "route6" then some (network libc .route6 value)
  else if key = ascii "exclude4" then some (network libc .exclude4 value)
  else if key = ascii "exclude6" then some (network libc .exclude6 value)
  else if key = ascii "dns4" then some (scalar libc .dns4 value)
  else if key = ascii "dns6" then some (scalar libc .dns6 value)
  else if key = ascii "search-domain" then some (scalar libc .searchDomain value)
  else if key = ascii "mtu" then some (scalar libc .mtu value)
  else none

end Items

/-! ### The file -/

def trim (v : Bytes) : Bytes := Info.trimValue v

inductive Line
  | skip
  | users
  | user (name : Bytes)
  | invalidSection
  | setting (key value : Bytes)
  | missing
  deriving DecidableEq, Repr

def readLine (raw : Bytes) : Line :=
  let line := trim raw
  if line = [] ∨ line.head? = some 0x23 then .skip
  else if line.head? = some 0x5b ∧ line.getLast? = some 0x5d then
    let head := trim line.tail.dropLast
    if head = ascii "users" then .users
    else if head.take 5 ≠ ascii "user " ∨ trim (head.drop 5) = [] then .invalidSection
    else .user (trim (head.drop 5))
  else if 0x3d ∈ line then
    let key := line.takeWhile (· ≠ 0x3d)
    .setting (trim key) (trim (line.drop (key.length + 1)))
  else .missing

structure User where
  portId : Bytes := []
  label : UInt64 := 0
  config : AccessConfig := { id := 0, items := [] }
  deriving DecidableEq, Repr

def User.extend (u : User) (items : List ConfigItem) : User :=
  { u with config := { u.config with items := u.config.items ++ items } }

structure Policy where
  authCommand : Bytes := []
  authTimeout : ℕ := 10
  labelPrefix : Labels := []
  users : OrderedMap Bytes User := {}
  deriving DecidableEq, Repr

structure Loading where
  policy : Policy := {}
  user : Option Bytes := none
  usersSection : Bool := false
  number : ℕ := 0
  deriving DecidableEq, Repr

def commaParts (value : Bytes) : List Bytes :=
  if value.getLast? = some 0x2c ∨ value = [] then (value.splitOn 0x2c).dropLast
  else value.splitOn 0x2c

section Load

variable (libc : Libc)

def readLabels : Labels → List Bytes → Except Bytes Labels
  | labels, [] => .ok labels
  | labels, part :: rest =>
    match libc.stoull (trim part) with
    | none => .error (ascii "stoull")
    | some (label, used) =>
      if label = 0 ∨ used ≠ (trim part).length then .error (ascii "invalid label_prefix")
      else if maxStack ≤ (labels ++ [label]).length then
        .error (ascii "label_prefix leaves no room for user label")
      else readLabels (labels ++ [label]) rest

/-- A key of the `[users]` section. -/
def setUsers (policy : Policy) (key value : Bytes) : Except Bytes Policy :=
  if key ≠ ascii "label_prefix" ∨ policy.labelPrefix ≠ [] then
    .error (ascii "invalid [users] key: " ++ key)
  else do
    let labels ← readLabels libc [] (commaParts value)
    .ok { policy with labelPrefix := labels }

def setGlobal (policy : Policy) (key value : Bytes) : Except Bytes Policy :=
  if key = ascii "auth-command" then .ok { policy with authCommand := value }
  else if key = ascii "auth-timeout" then
    match libc.stoul value with
    | none => .error (ascii "stoul")
    | some (n, _) =>
      if n < 1 ∨ 60 < n then .error (ascii "auth-timeout outside 1..60")
      else .ok { policy with authTimeout := n }
  else .error (ascii "unknown global key: " ++ key)

def setUser (u : User) (key value : Bytes) : Except Bytes User :=
  if key = ascii "label" then
    match libc.stoull value with
    | none => .error (ascii "stoull")
    | some (label, used) =>
      if used ≠ value.length ∨ label = 0 then .error (ascii "invalid label") else .ok { u with label }
  else if key = ascii "port-id" then .ok { u with portId := value }
  else
    match itemOf libc key value with
    | none => .error (ascii "unknown user key: " ++ key)
    | some item => do
      let item ← item
      .ok (u.extend [item])

def step (before : Loading) (line : Line) : Except Bytes Loading :=
  let s := { before with number := before.number + 1 }
  match line with
  | .skip => .ok s
  | .users => .ok { s with user := none, usersSection := true }
  | .invalidSection => .error (ascii ("invalid section at line " ++ toString s.number))
  | .missing => .error (ascii ("missing = at line " ++ toString s.number))
  | .user name =>
    if s.policy.users.contains name then .error (ascii "duplicate user: " ++ name)
    else
      .ok { s with
        policy := { s.policy with users := s.policy.users.insert name {} }
        user := some name
        usersSection := false }
  | .setting key value =>
    if s.usersSection then do
      let policy ← setUsers libc s.policy key value
      .ok { s with policy }
    else
      match s.user with
      | none => do
        let policy ← setGlobal libc s.policy key value
        .ok { s with policy }
      | some name => do
        let u ← setUser libc ((s.policy.users.find? name).getD {}) key value
        .ok { s with policy := { s.policy with users := s.policy.users.insert name u } }

def finishUser (users : OrderedMap Bytes User) (entry : Bytes × User) :
    Except Bytes (OrderedMap Bytes User) :=
  let u := entry.2
  let portId := if u.portId = [] then entry.1 else u.portId
  if u.label = 0 then .error (ascii "label is required for user " ++ entry.1)
  else if 63 < portId.length then .error (ascii "port-id too long")
  else if u.config.items.all (fun item => item.type ≠ 1 ∧ item.type ≠ 2) then
    .error (ascii "address4 or address6 is required for user " ++ entry.1)
  else .ok (users.insert entry.1 { u with portId, config := { u.config with id := 1 } })

/-- `load` of the text of the file. -/
def load (text : Bytes) : Except Bytes Policy := do
  let s ← ((Info.lines text).map readLine).foldlM (step libc) {}
  if s.policy.authCommand = [] then .error (ascii "auth-command is required")
  else do
    let users ← s.policy.users.entries.foldlM finishUser s.policy.users
    .ok { s.policy with users }

end Load

/-! ### Verification -/

/-- `auth_helper::Verify`. -/
structure VerifyRequest where
  method : AuthMethod
  challengeId : UInt64
  username : Bytes
  peer : Bytes
  challenge : Bytes
  response : Bytes
  deriving DecidableEq, Repr

def VerifyRequest.wire (v : VerifyRequest) : Bytes :=
  encodeVerify v.method v.challengeId v.username v.peer v.challenge v.response

structure CommandResult where
  completed : Bool := false
  exitStatus : Option ℕ := none
  deriving DecidableEq, Repr

def CommandResult.succeeded (child : CommandResult) : Bool :=
  child.completed ∧ child.exitStatus = some 0

def maxFrame : ℕ := 64 * 1024

/-- `verify`, where `run` is given the command, its input and the seconds it may take. `none`
stands for the exception of `run`. -/
def verify (run : Bytes → Bytes → ℕ → CommandResult) (policy : Policy) (request : VerifyRequest) :
    Option HelperResult :=
  match policy.users.find? request.username with
  | none => some {}
  | some user =>
    if policy.authCommand = [] ∨ maxFrame < request.wire.length then none
    else if (run policy.authCommand request.wire policy.authTimeout).succeeded then
      some
        { status := .allow
          principal := request.username
          portId := user.portId
          ingressStack := policy.labelPrefix ++ [user.label]
          config := user.config.encode }
    else some {}

/-! ### What the file says of a user -/

section Items

variable (libc : Libc)

/-- The user whose section the line after `line` stands in. -/
def nextUser (current : Option Bytes) : Line → Option Bytes
  | .users => none
  | .user name => some name
  | _ => current

def itemAt (name : Bytes) (current : Option Bytes) : Line → List ConfigItem
  | .setting key value =>
    if current = some name then ((itemOf libc key value).bind Except.toOption).toList else []
  | _ => []

def userItems (name : Bytes) : Option Bytes → List Line → List ConfigItem
  | _, [] => []
  | current, line :: rest =>
    itemAt libc name current line ++ userItems name (nextUser current line) rest

end Items

theorem bind_eq_ok {ε α β : Type} {x : Except ε α} {f : α → Except ε β} {b : β}
    (h : (x >>= f) = .ok b) : ∃ a, x = .ok a ∧ f a = .ok b := by
  cases x with
  | error message => cases h
  | ok a => exact ⟨a, rfl, h⟩

def itemsOf (users : OrderedMap Bytes User) (name : Bytes) : List ConfigItem :=
  ((users.find? name).getD {}).config.items

theorem itemsOf_insert (users : OrderedMap Bytes User) (name : Bytes) (u : User) (other : Bytes) :
    itemsOf (users.insert name u) other = if other = name then u.config.items
      else itemsOf users other := by
  rw [itemsOf, OrderedMap.find?_insert]
  split <;> rfl

variable {libc : Libc}

theorem readLabels_length {labels result : Labels} {parts : List Bytes}
    (h : readLabels libc labels parts = .ok result) (hlabels : labels.length < maxStack) :
    result.length < maxStack := by
  induction parts generalizing labels with
  | nil =>
    obtain rfl := Except.ok.inj h
    exact hlabels
  | cons part rest ih =>
    rw [readLabels] at h
    split at h
    · cases h
    split at h
    · cases h
    split at h
    · cases h
    next hroom => exact ih h (Nat.not_le.mp hroom)

/-- What the loop keeps: a `[users]` section is of no user, and the labels leave room for one. -/
structure Loading.Inv (s : Loading) : Prop where
  apart : s.usersSection = true → s.user = none
  room : s.policy.labelPrefix.length < maxStack

theorem setUser_items {u v : User} {key value : Bytes} (h : setUser libc u key value = .ok v) :
    v.config.items = u.config.items ++ ((itemOf libc key value).bind Except.toOption).toList := by
  have hlabel : itemOf libc (ascii "label") value = none := by
    rw [itemOf]
    repeat rw [if_neg (by decide)]
  have hport : itemOf libc (ascii "port-id") value = none := by
    rw [itemOf]
    repeat rw [if_neg (by decide)]
  rw [setUser] at h
  split at h
  next hkey =>
    rw [hkey, hlabel]
    split at h
    · cases h
    split at h
    · cases h
    · obtain rfl := Except.ok.inj h
      simp
  next =>
  split at h
  next hkey =>
    obtain rfl := Except.ok.inj h
    rw [hkey, hport]
    simp
  next =>
  split at h
  · cases h
  next item hitem =>
  obtain ⟨value, rfl, hv⟩ := bind_eq_ok h
  obtain rfl := Except.ok.inj hv
  rw [hitem]
  rfl

theorem setUsers_spec {policy result : Policy} {key value : Bytes}
    (h : setUsers libc policy key value = .ok result) :
    result.users = policy.users ∧ result.labelPrefix.length < maxStack := by
  rw [setUsers] at h
  split at h
  · cases h
  obtain ⟨labels, hlabels, hresult⟩ := bind_eq_ok h
  obtain rfl := Except.ok.inj hresult
  exact ⟨rfl, readLabels_length hlabels (by decide)⟩

theorem setGlobal_spec {policy result : Policy} {key value : Bytes}
    (h : setGlobal libc policy key value = .ok result) :
    result.users = policy.users ∧ result.labelPrefix = policy.labelPrefix := by
  rw [setGlobal] at h
  split at h
  · obtain rfl := Except.ok.inj h
    exact ⟨rfl, rfl⟩
  split at h
  · split at h
    · cases h
    · split at h
      · cases h
      · obtain rfl := Except.ok.inj h
        exact ⟨rfl, rfl⟩
  · cases h

theorem step_spec {s t : Loading} {line : Line} (h : step libc s line = .ok t) (hs : s.Inv) :
    t.Inv ∧ t.user = nextUser s.user line ∧ ∀ name,
      itemsOf t.policy.users name =
        itemsOf s.policy.users name ++ itemAt libc name s.user line := by
  cases line with
  | skip =>
    obtain rfl := Except.ok.inj h
    exact ⟨⟨hs.apart, hs.room⟩, rfl, fun name => (append_nil _).symm⟩
  | users =>
    obtain rfl := Except.ok.inj h
    exact ⟨⟨fun _ => rfl, hs.room⟩, rfl, fun name => (append_nil _).symm⟩
  | invalidSection | missing => cases h
  | user new =>
    rw [step] at h
    split at h
    · cases h
    next hnew =>
    obtain rfl := Except.ok.inj h
    refine ⟨⟨by simp, hs.room⟩, rfl, fun name => ?_⟩
    have hempty : itemAt libc name s.user (.user new) = [] := rfl
    rw [hempty, append_nil, itemsOf_insert]
    split
    next heq =>
      have hnone : s.policy.users.find? new = none := by
        simpa [OrderedMap.contains] using hnew
      rw [heq, itemsOf, hnone]
      rfl
    next => rfl
  | setting key value =>
    rw [step] at h
    split at h
    next husers =>
      obtain ⟨policy, hpolicy, ht⟩ := bind_eq_ok h
      obtain rfl := Except.ok.inj ht
      obtain ⟨hkeep, hroom⟩ := setUsers_spec hpolicy
      refine ⟨⟨hs.apart, hroom⟩, rfl, fun name => ?_⟩
      have hnone : s.user = none := hs.apart husers
      rw [itemAt, hnone, if_neg (by simp), append_nil]
      exact congrArg (itemsOf · name) hkeep
    next husers =>
    split at h
    next hnone =>
      obtain ⟨policy, hpolicy, ht⟩ := bind_eq_ok h
      obtain rfl := Except.ok.inj ht
      obtain ⟨hkeep, hlabels⟩ := setGlobal_spec hpolicy
      refine ⟨⟨hs.apart, ?_⟩, rfl, fun name => ?_⟩
      · change policy.labelPrefix.length < maxStack
        rw [hlabels]
        exact hs.room
      · change s.user = none at hnone
        rw [itemAt, hnone, if_neg (by simp), append_nil]
        exact congrArg (itemsOf · name) hkeep
    next current hcurrent =>
    obtain ⟨u, hu, ht⟩ := bind_eq_ok h
    obtain rfl := Except.ok.inj ht
    refine ⟨⟨hs.apart, hs.room⟩, rfl, fun name => ?_⟩
    change s.user = some current at hcurrent
    rw [itemsOf_insert, itemAt, hcurrent]
    by_cases hname : name = current
    · rw [if_pos hname, if_pos (by rw [hname]), hname]
      exact setUser_items hu
    · rw [if_neg hname, if_neg (fun heq => hname (Option.some.inj heq).symm), append_nil]

theorem steps_spec {lines : List Line} {s t : Loading} (h : lines.foldlM (step libc) s = .ok t)
    (hs : s.Inv) : t.Inv ∧ ∀ name, itemsOf t.policy.users name =
      itemsOf s.policy.users name ++ userItems libc name s.user lines := by
  induction lines generalizing s with
  | nil =>
    obtain rfl := Except.ok.inj h
    exact ⟨hs, fun name => (append_nil _).symm⟩
  | cons line rest ih =>
    rw [foldlM_cons] at h
    obtain ⟨next, hnext, hrest⟩ := bind_eq_ok h
    obtain ⟨hinv, huser, hitems⟩ := step_spec hnext hs
    obtain ⟨ht, hall⟩ := ih hrest hinv
    refine ⟨ht, fun name => ?_⟩
    rw [hall, hitems, huser, userItems, append_assoc]

structure Finished (name : Bytes) (u v : User) : Prop where
  label : v.label = u.label ∧ u.label ≠ 0
  portId : v.portId = if u.portId = [] then name else u.portId
  short : v.portId.length ≤ 63
  config : v.config = { id := 1, items := u.config.items }

theorem finishUser_spec {users result : OrderedMap Bytes User} {entry : Bytes × User}
    (h : finishUser users entry = .ok result) :
    ∃ v, Finished entry.1 entry.2 v ∧ result = users.insert entry.1 v := by
  rw [finishUser] at h
  by_cases hlabel : entry.2.label = 0
  · rw [if_pos hlabel] at h
    cases h
  by_cases hlong : 63 < (if entry.2.portId = [] then entry.1 else entry.2.portId).length
  · rw [if_neg hlabel, if_pos hlong] at h
    cases h
  by_cases haddress : entry.2.config.items.all (fun item => item.type ≠ 1 ∧ item.type ≠ 2) = true
  · rw [if_neg hlabel, if_neg hlong, if_pos haddress] at h
    cases h
  rw [if_neg hlabel, if_neg hlong, if_neg haddress] at h
  obtain rfl := Except.ok.inj h
  refine ⟨_, ?_, rfl⟩
  exact ⟨⟨rfl, hlabel⟩, rfl, Nat.not_lt.mp hlong, rfl⟩

theorem finishUsers_spec {entries : List (Bytes × User)} {users result : OrderedMap Bytes User}
    (h : entries.foldlM finishUser users = .ok result) {name : Bytes} {v : User}
    (hv : result.find? name = some v) :
    (∃ u, (name, u) ∈ entries ∧ Finished name u v) ∨
      name ∉ entries.map Prod.fst ∧ users.find? name = some v := by
  induction entries generalizing users with
  | nil =>
    obtain rfl := Except.ok.inj h
    exact .inr ⟨not_mem_nil, hv⟩
  | cons entry rest ih =>
    rw [foldlM_cons] at h
    obtain ⟨next, hnext, hrest⟩ := bind_eq_ok h
    obtain ⟨w, hw, rfl⟩ := finishUser_spec hnext
    rcases ih hrest with ⟨u, hu, hfinished⟩ | ⟨hnot, hfind⟩
    · exact .inl ⟨u, mem_cons_of_mem _ hu, hfinished⟩
    rw [OrderedMap.find?_insert] at hfind
    split at hfind
    next heq =>
      obtain rfl := Option.some.inj hfind
      rw [heq]
      exact .inl ⟨entry.2, mem_cons_self, hw⟩
    next hne =>
    rw [map_cons, mem_cons, not_or]
    exact .inr ⟨⟨hne, hnot⟩, hfind⟩

theorem load_spec {text : Bytes} {policy : Policy} (h : load libc text = .ok policy) :
    policy.authCommand ≠ [] ∧ policy.labelPrefix.length < maxStack ∧
    ∀ name u, policy.users.find? name = some u → u.label ≠ 0 ∧ (name ≠ [] → u.portId ≠ []) ∧
      u.portId.length ≤ 63 ∧
      u.config = { id := 1, items := userItems libc name none ((Info.lines text).map readLine) } := by
  rw [load] at h
  obtain ⟨s, hs, h⟩ := bind_eq_ok h
  split at h
  · cases h
  next hcommand =>
  obtain ⟨users, husers, h⟩ := bind_eq_ok h
  obtain rfl := Except.ok.inj h
  obtain ⟨hinv, hitems⟩ := steps_spec hs ⟨by simp, by decide⟩
  refine ⟨hcommand, hinv.room, fun name v hv => ?_⟩
  rcases finishUsers_spec husers hv with ⟨u, hu, hfinished⟩ | ⟨hnot, hfind⟩
  · have hfind := OrderedMap.find?_eq_some_iff.mpr hu
    have hu := hitems name
    rw [itemsOf, hfind] at hu
    refine ⟨hfinished.label.1 ▸ hfinished.label.2, fun hname => ?_, hfinished.short, ?_⟩
    · rw [hfinished.portId]
      split
      · exact hname
      next hport => exact hport
    · rw [hfinished.config]
      exact congrArg (AccessConfig.mk 1) hu
  · exact absurd (mem_map.mpr ⟨_, OrderedMap.find?_eq_some_iff.mp hfind, rfl⟩) hnot

/-! ### Delivery -/

def configSize (items : List ConfigItem) : ℕ := 16 + (items.map fun i => 8 + i.value.length).sum

theorem length_wire (i : ConfigItem) : i.wire.length = 8 + i.value.length := by
  simp only [ConfigItem.wire, length_append, length_storeBe16]
  omega

theorem length_config (items : List ConfigItem) (front : Bytes) (hfront : front.length = 16) :
    (front ++ items.flatMap ConfigItem.wire).length = configSize items := by
  rw [configSize, length_append, length_flatMap, hfront]
  congr 2
  exact map_congr_left fun i _ => length_wire i

theorem value_le_configSize {items : List ConfigItem} {i : ConfigItem} (h : i ∈ items) :
    i.value.length ≤ configSize items := by
  have hle := single_le_sum (fun x _ => Nat.zero_le x) _
    (mem_map_of_mem (f := fun i : ConfigItem => 8 + i.value.length) h)
  rw [configSize]
  omega

theorem encode_ne_nil_iff (items : List ConfigItem) :
    AccessConfig.encode { id := 1, items } ≠ [] ↔ configSize items ≤ maxConfigSize := by
  have hid : ¬(1 : UInt64) = 0 := by decide
  rw [AccessConfig.encode, if_neg hid]
  generalize hfront : [extensionFormat, 0, 0, 0] ++ storeBe64 1 ++
    storeBe16 (UInt16.ofNat items.length) ++ storeBe16 0 = front
  have hlen : front.length = 16 := by
    simp only [← hfront, length_append, length_storeBe64, length_storeBe16]
    rfl
  constructor
  · intro h
    obtain ⟨-, -, hsize⟩ := AccessConfig.encodeItems_ne_nil h (by rw [hlen]; decide)
    rwa [length_config items front hlen] at hsize
  · intro hsize
    have hvalues : ∀ i ∈ items, i.value.length ≤ 65535 := by
      intro i hi
      have hle := value_le_configSize hi
      rw [maxConfigSize] at hsize
      omega
    rw [AccessConfig.encodeItems_of_le hvalues (by rwa [length_config items front hlen])]
    intro hnil
    rw [(append_eq_nil_iff.mp hnil).1] at hlen
    cases hlen

theorem length_encode_le (items : List ConfigItem) :
    (AccessConfig.encode { id := 1, items }).length ≤ maxConfigSize := by
  by_cases hnil : AccessConfig.encode { id := 1, items } = []
  · rw [hnil]
    exact Nat.zero_le _
  have hdecode := AccessConfig.decode_encode hnil
  rw [AccessConfig.decode] at hdecode
  split at hdecode
  · cases hdecode
  next hhead =>
  simp only [not_or] at hhead
  exact Nat.not_lt.mp hhead.2.1

theorem length_wire_le (v : VerifyRequest) : v.wire.length ≤ maxFrame := by
  rw [VerifyRequest.wire, encodeVerify, maxFrame]
  split
  · exact Nat.zero_le _
  next h =>
  simp only [not_or, Nat.not_lt] at h
  have htag : (ascii "TTA").length = 3 := rfl
  simp only [length_append, htag, length_cons, length_nil, length_storeBe64,
    length_storeBe32, length_storeBe16]
  omega

/-- The helper's result for a user is an answer that allows, with everything the policy and the
user's section say, as the listener reads it. -/
def Delivered (run : Bytes → Bytes → ℕ → CommandResult) (policy : Policy) (user : User)
    (request : VerifyRequest) (items : List ConfigItem) : Prop :=
  ∃ result, verify run policy request = some result ∧ result.status = .allow ∧
    result.principal = request.username ∧ result.portId = user.portId ∧
    result.ingressStack = policy.labelPrefix ++ [user.label] ∧
    result.ingressStack.length ≤ maxStack ∧
    result.encode ≠ [] ∧ HelperResult.decode result.encode = some result ∧
    (AccessConfig.decode result.config).map AccessConfig.items = some items

def User.allowed (user : User) (policy : Policy) (username : Bytes) : HelperResult where
  status := .allow
  principal := username
  portId := user.portId
  ingressStack := policy.labelPrefix ++ [user.label]
  config := user.config.encode

theorem verify_eq {policy : Policy} {user : User} {request : VerifyRequest}
    {run : Bytes → Bytes → ℕ → CommandResult} (hcommand : policy.authCommand ≠ [])
    (hfind : policy.users.find? request.username = some user)
    (hrun : (run policy.authCommand request.wire policy.authTimeout).succeeded = true) :
    verify run policy request = some (user.allowed policy request.username) := by
  rw [verify, hfind]
  dsimp only
  rw [if_neg, if_pos hrun, User.allowed]
  rw [not_or, Nat.not_lt]
  exact ⟨hcommand, length_wire_le request⟩

/-- A user of an accepted policy whose credentials are accepted is given a complete answer exactly
when the CONFIG message of the user's items fits. -/
theorem policy_delivered_iff {text : Bytes} {policy : Policy} {user : User}
    {request : VerifyRequest} {run : Bytes → Bytes → ℕ → CommandResult}
    (hload : load libc text = .ok policy)
    (hfind : policy.users.find? request.username = some user)
    (hname : request.username ≠ []) (hlong : request.username.length ≤ 255)
    (hrun : (run policy.authCommand request.wire policy.authTimeout).succeeded = true) :
    Delivered run policy user request
        (userItems libc request.username none ((Info.lines text).map readLine)) ↔
      configSize (userItems libc request.username none ((Info.lines text).map readLine)) ≤
        maxConfigSize := by
  obtain ⟨hcommand, hroom, husers⟩ := load_spec hload
  obtain ⟨hlabel, hport, hshort, hconfig⟩ := husers request.username user hfind
  generalize userItems libc request.username none ((Info.lines text).map readLine) = items
    at hconfig ⊢
  have hverify := verify_eq hcommand hfind hrun
  have hstack : (policy.labelPrefix ++ [user.label]).length ≤ maxStack := by
    rw [List.length_append, List.length_singleton]
    exact hroom
  rw [← encode_ne_nil_iff, ← hconfig]
  constructor
  · rintro ⟨result, hresult, -, -, -, -, -, -, -, hitems⟩ hnil
    rw [hverify] at hresult
    obtain rfl := Option.some.inj hresult
    rw [User.allowed, hnil] at hitems
    cases hitems
  · intro hne
    have hcomplete : (user.allowed policy request.username).complete = true := by
      simp [HelperResult.complete, User.allowed, hname, hport hname]
    have hsize : (user.allowed policy request.username).config.length ≤ maxConfigSize := by
      rw [User.allowed, hconfig]
      exact length_encode_le items
    obtain ⟨hencode, hdecode⟩ := HelperResult.decode_encode hlong hshort hstack hsize hcomplete
    refine ⟨_, hverify, rfl, rfl, rfl, rfl, hstack, hencode, hdecode, ?_⟩
    rw [User.allowed, AccessConfig.decode_encode hne, hconfig]
    rfl

/-! ### Samples -/

def decimal (text : Bytes) : Option ℕ :=
  if text ≠ [] ∧ text.all (fun c => 48 ≤ c ∧ c ≤ 57) then
    some (text.foldl (fun n c => n * 10 + (c.toNat - 48)) 0)
  else none

def decimalLibc : Libc where
  pton4 text :=
    match (text.splitOn 0x2e).map decimal with
    | [some a, some b, some c, some d] =>
      some (block 4 [UInt8.ofNat a, UInt8.ofNat b, UInt8.ofNat c, UInt8.ofNat d])
    | _ => none
  pton6 _ := none
  stoul text := (decimal text).map fun n => (n, text.length)
  stoull text := (decimal text).map fun n => (UInt64.ofNat n, text.length)

def sampleFile : Bytes :=
  ascii "auth-command=/bin/true\n[user a]\nlabel=1\naddress4=10.0.0.1/8\n"

def sampleRequest : VerifyRequest where
  method := .passwordChallenge
  challengeId := 1
  username := ascii "a"
  peer := []
  challenge := []
  response := []

def samplePolicy : Policy where
  authCommand := ascii "/bin/true"
  users := ({} : OrderedMap Bytes User).insert (ascii "a")
    { portId := ascii "a"
      label := 1
      config := { id := 1, items := [{ type := 1, required := true, value := [10, 0, 0, 1, 8] }] } }

theorem load_sampleFile : load decimalLibc sampleFile = .ok samplePolicy := by
  decide +kernel

theorem policy_delivered_iff_sample :
    Delivered (fun _ _ _ => { completed := true, exitStatus := some 0 }) samplePolicy
        { portId := ascii "a"
          label := 1
          config :=
            { id := 1, items := [{ type := 1, required := true, value := [10, 0, 0, 1, 8] }] } }
        sampleRequest
        (userItems decimalLibc (ascii "a") none ((Info.lines sampleFile).map readLine)) ↔
      configSize (userItems decimalLibc (ascii "a") none
        ((Info.lines sampleFile).map readLine)) ≤ maxConfigSize :=
  policy_delivered_iff load_sampleFile (by decide +kernel) (by decide +kernel) (by decide +kernel)
    (by decide +kernel)

def routeLine : Bytes := ascii "route4=10.0.0.0/8"

def routeItem : ConfigItem := { type := 3, required := false, value := [10, 0, 0, 0, 8] }

def routesFile (n : ℕ) : Bytes :=
  sampleFile ++ (List.replicate n (routeLine ++ [10])).flatten

theorem lines_routesFile (n : ℕ) :
    Info.lines (routesFile n) = Info.lines sampleFile ++ List.replicate n routeLine := by
  have hroutes : Info.lines (List.replicate n (routeLine ++ [10])).flatten =
      List.replicate n routeLine := by
    induction n with
    | zero => rfl
    | succ n ih =>
      rw [replicate_succ, flatten_cons, append_assoc, singleton_append,
        Info.lines_append (by decide +kernel), ih, replicate_succ]
  have hfile : sampleFile = ascii "auth-command=/bin/true" ++ 10 :: (ascii "[user a]" ++
      10 :: (ascii "label=1" ++ 10 :: (ascii "address4=10.0.0.1/8" ++ [10]))) := by decide +kernel
  rw [routesFile, hfile]
  simp only [append_assoc, cons_append, nil_append]
  rw [Info.lines_append (by decide +kernel), Info.lines_append (by decide +kernel),
    Info.lines_append (by decide +kernel), Info.lines_append (by decide +kernel), hroutes,
    Info.lines_append (by decide +kernel), Info.lines_append (by decide +kernel),
    Info.lines_append (by decide +kernel), Info.lines_append (by decide +kernel)]
  rfl

theorem entries_insert_only {users : OrderedMap Bytes User} {name : Bytes} {u : User}
    (h : users.entries = [(name, u)]) (v : User) : (users.insert name v).entries = [(name, v)] := by
  have hcontains : users.contains name = true := by
    simp [OrderedMap.contains, OrderedMap.find?, h]
  rw [OrderedMap.insert, dif_pos hcontains]
  simp [OrderedMap.assign, h]

theorem steps_routes (n : ℕ) {s : Loading} {u : User} (hsection : s.usersSection = false)
    (huser : s.user = some (ascii "a")) (hentries : s.policy.users.entries = [(ascii "a", u)]) :
    ∃ t, (List.replicate n (readLine routeLine)).foldlM (step decimalLibc) s = .ok t ∧
      t.policy.authCommand = s.policy.authCommand ∧
      t.policy.users.entries = [(ascii "a", u.extend (List.replicate n routeItem))] := by
  induction n generalizing s u with
  | zero =>
    refine ⟨s, rfl, rfl, ?_⟩
    rw [hentries, replicate_zero, User.extend, append_nil]
  | succ n ih =>
    have hline : readLine routeLine = .setting (ascii "route4") (ascii "10.0.0.0/8") := by
      decide +kernel
    have hset : setUser decimalLibc u (ascii "route4") (ascii "10.0.0.0/8") =
        .ok (u.extend [routeItem]) := by
      have hitem : itemOf decimalLibc (ascii "route4") (ascii "10.0.0.0/8") =
          some (.ok routeItem) := by decide +kernel
      rw [setUser, if_neg (by decide), if_neg (by decide), hitem]
      rfl
    have hfind : s.policy.users.find? (ascii "a") = some u := by
      rw [OrderedMap.find?_eq_some_iff, hentries]
      exact mem_singleton_self _
    obtain ⟨next, hstep, hnsection, hnuser, hncommand, hnusers⟩ : ∃ next,
        step decimalLibc s (readLine routeLine) = .ok next ∧ next.usersSection = false ∧
        next.user = some (ascii "a") ∧ next.policy.authCommand = s.policy.authCommand ∧
        next.policy.users = s.policy.users.insert (ascii "a") (u.extend [routeItem]) := by
      rw [hline, step]
      simp only [hsection, huser, hfind, Option.getD_some, hset]
      exact ⟨_, rfl, rfl, rfl, rfl, rfl⟩
    obtain ⟨t, ht, hcommand, hlast⟩ := ih hnsection hnuser
      (hnusers ▸ entries_insert_only hentries _)
    refine ⟨t, ?_, hcommand.trans hncommand, ?_⟩
    · rw [replicate_succ, foldlM_cons, hstep]
      exact ht
    · rw [hlast, replicate_succ]
      simp [User.extend]

def sampleUser : User where
  label := 1
  config := { id := 0, items := [{ type := 1, required := true, value := [10, 0, 0, 1, 8] }] }

def sampleLoading : Loading where
  policy :=
    { authCommand := ascii "/bin/true"
      users := ({} : OrderedMap Bytes User).insert (ascii "a") sampleUser }
  user := some (ascii "a")
  number := 4

def routesUser (n : ℕ) : User where
  portId := ascii "a"
  label := 1
  config := { id := 1, items := sampleUser.config.items ++ List.replicate n routeItem }

theorem load_routesFile (n : ℕ) :
    ∃ policy, load decimalLibc (routesFile n) = .ok policy ∧
      policy.authCommand = ascii "/bin/true" ∧
      policy.users.find? (ascii "a") = some (routesUser n) := by
  have hsample : ((Info.lines sampleFile).map readLine).foldlM (step decimalLibc) {} =
      .ok sampleLoading := by decide +kernel
  obtain ⟨t, ht, hcommand, hentries⟩ := @steps_routes n sampleLoading sampleUser rfl rfl
    (by decide +kernel)
  have hlines : ((Info.lines (routesFile n)).map readLine).foldlM (step decimalLibc) {} = .ok t := by
    rw [lines_routesFile, map_append, map_replicate, foldlM_append, hsample]
    exact ht
  have hne : t.policy.authCommand ≠ [] := by
    rw [hcommand]
    decide
  have hfinish : finishUser t.policy.users (ascii "a", sampleUser.extend
      (List.replicate n routeItem)) =
        .ok (t.policy.users.insert (ascii "a") (routesUser n)) := by
    rw [finishUser, if_neg (by simp [User.extend, sampleUser]),
      if_neg (by simp [User.extend, sampleUser, ascii]), if_neg (by simp [User.extend, sampleUser])]
    rfl
  refine ⟨{ t.policy with users := t.policy.users.insert (ascii "a") (routesUser n) }, ?_,
    hcommand, ?_⟩
  · rw [load, hlines]
    change (if t.policy.authCommand = [] then Except.error _ else _) = _
    rw [if_neg hne, hentries, foldlM_cons, hfinish]
    rfl
  · rw [OrderedMap.find?_insert, if_pos rfl]

theorem configSize_routesUser (n : ℕ) : configSize (routesUser n).config.items = 29 + n * 13 := by
  rw [configSize, routesUser, map_append, map_replicate, sum_append,
    sum_replicate, smul_eq_mul]
  change 16 + (13 + n * 13) = _
  omega

/-- With enough routes the answer still allows, but its configuration is empty. -/
theorem crowded_policy_undelivered :
    ∃ policy user, load decimalLibc (routesFile 1260) = .ok policy ∧
      policy.users.find? sampleRequest.username = some user ∧
      ¬Delivered (fun _ _ _ => { completed := true, exitStatus := some 0 }) policy user sampleRequest
        (userItems decimalLibc sampleRequest.username none
          ((Info.lines (routesFile 1260)).map readLine)) := by
  obtain ⟨policy, hload, hcommand, hfind⟩ := load_routesFile 1260
  refine ⟨policy, routesUser 1260, hload, hfind, ?_⟩
  rintro ⟨result, hresult, -, -, -, -, -, -, -, hitems⟩
  have hempty : (routesUser 1260).config.encode = [] := by
    by_contra hne
    have hsize := (encode_ne_nil_iff (routesUser 1260).config.items).mp hne
    rw [configSize_routesUser, maxConfigSize] at hsize
    omega
  rw [verify_eq (by rw [hcommand]; decide) hfind rfl] at hresult
  obtain rfl := Option.some.inj hresult
  rw [User.allowed, hempty] at hitems
  cases hitems

end Tuntom.Gatekeeper
