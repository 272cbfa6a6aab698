import Tuntom.Packet

/-! The commands of `control_dispatcher.hpp` and the body lengths of `control_protocol.hpp`. -/
namespace Tuntom.Control

def controlMaxBody : ℕ := 1024 * 1024

def digit? (c : UInt8) : Option ℕ :=
  if 48 ≤ c.toNat ∧ c.toNat ≤ 57 then some (c.toNat - 48) else none

/-- The digit loop of `control_length`. -/
def lengthFrom (maximum : ℕ) : ℕ → List ℕ → Except Bytes ℕ
  | value, [] => .ok value
  | value, digit :: rest =>
    if maximum < digit ∨ (maximum - digit) / 10 < value then
      .error (ascii "control body exceeds size limit")
    else lengthFrom maximum (value * 10 + digit) rest

def controlLength (text : Bytes) (maximum : ℕ) : Except Bytes ℕ :=
  match text.mapM digit? with
  | some (first :: rest) => lengthFrom maximum 0 (first :: rest)
  | _ => .error (ascii "invalid control length")

inductive ControlPermission
  | read | classifierValidate | classifierWrite | rulesValidate | rulesWrite | divertWrite
  deriving DecidableEq, Repr

def ControlPermission.bits : ControlPermission → UInt64
  | read => 1
  | classifierValidate => 2
  | classifierWrite => 4
  | rulesValidate => 8
  | rulesWrite => 16
  | divertWrite => 32

structure ControlAccess where
  permissions : UInt64 := 0
  deriving DecidableEq, Repr

def ControlAccess.all : ControlAccess := ⟨63⟩

def ControlAccess.allows (a : ControlAccess) (p : ControlPermission) : Bool :=
  a.permissions &&& p.bits != 0

structure ControlRequest where
  command : Bytes := []
  body : Bytes := []
  deriving DecidableEq, Repr

structure ControlResponse where
  success : Bool := true
  body : Bytes := []
  rejected : Bool := false
  deriving DecidableEq, Repr

structure ControlOperation where
  family : Bytes
  operation : Bytes
  length : ℕ := 0
  permission : ControlPermission := .read
  cheap : Bool := false
  mutation : Bool := false
  framed : Bool := true
  deriving DecidableEq, Repr

namespace ControlDispatcher

def trimmed (command : Bytes) : Bytes :=
  (command.reverse.dropWhile fun c => c == 10 || c == 13).reverse

def word (text : Bytes) : Option (Bytes × Bytes) :=
  if text.contains 32 then
    some (text.takeWhile (· != 32), (text.dropWhile (· != 32)).drop 1)
  else none

def loads (family operation : Bytes) : Bool :=
  operation == ascii "load" ||
    family == ascii "classifier" && (operation == ascii "load-flush" || operation == ascii "disable")

def grade (family operation : Bytes) (length : ℕ) : Except Bytes (ControlPermission × Bool) :=
  if operation = ascii "show" then
    if length ≠ 0 then .error (ascii "show has no body") else .ok (.read, false)
  else if family = ascii "divert" then
    if length ≠ 0 ∨ (operation ≠ ascii "enable" ∧ operation ≠ ascii "stop") then
      .error (ascii "expected divert enable|stop|show 0")
    else .ok (.divertWrite, true)
  else if operation = ascii "check" then
    .ok (if family = ascii "classifier" then .classifierValidate else .rulesValidate, false)
  else if loads family operation then
    if operation = ascii "disable" ∧ length ≠ 0 then .error (ascii "disable has no body")
    else .ok (if family = ascii "classifier" then .classifierWrite else .rulesWrite, true)
  else .error (ascii "unknown operation")

def parseWords (family operation count : Bytes) : Except Bytes ControlOperation := do
  let length ← controlLength count controlMaxBody
  if family ≠ ascii "classifier" ∧ family ≠ ascii "rules" ∧ family ≠ ascii "divert" then
    .error (ascii "unknown_command")
  else
    let (permission, mutation) ← grade family operation length
    .ok { family, operation, length, permission, mutation }

def parse (command : Bytes) : Except Bytes ControlOperation :=
  let command := trimmed command
  if command = ascii "show stats" then
    .ok { family := ascii "stats", operation := ascii "show", cheap := true, framed := false }
  else if command = ascii "show ports" then
    .ok { family := ascii "ports", operation := ascii "show" }
  else if command = ascii "show flows" then
    .ok { family := ascii "flows", operation := ascii "show" }
  else
    match word command with
    | none => .error (ascii "unknown_command")
    | some (family, rest) =>
      match word rest with
      | none => .error (ascii "unknown_command")
      | some (operation, count) => parseWords family operation count

end ControlDispatcher

theorem lengthFrom_le {maximum : ℕ} {digits : List ℕ} {value length : ℕ}
    (h : lengthFrom maximum value digits = .ok length) (hv : value ≤ maximum) :
    length ≤ maximum := by
  induction digits generalizing value with
  | nil =>
    cases h
    exact hv
  | cons digit rest ih =>
    rw [lengthFrom] at h
    split at h
    next => cases h
    next hok =>
    refine ih h ?_
    omega

theorem controlLength_le {text : Bytes} {maximum length : ℕ}
    (h : controlLength text maximum = .ok length) : length ≤ maximum := by
  rw [controlLength] at h
  split at h
  next => exact lengthFrom_le h (Nat.zero_le _)
  next => cases h

theorem lengthFrom_error {maximum : ℕ} {digits : List ℕ} {value : ℕ} {e : Bytes}
    (h : lengthFrom maximum value digits = .error e) : e.length ≤ 64 := by
  induction digits generalizing value with
  | nil => cases h
  | cons digit rest ih =>
    rw [lengthFrom] at h
    split at h
    next =>
      cases h
      decide
    next => exact ih h

theorem controlLength_error {text : Bytes} {maximum : ℕ} {e : Bytes}
    (h : controlLength text maximum = .error e) : e.length ≤ 64 := by
  rw [controlLength] at h
  split at h
  next => exact lengthFrom_error h
  next =>
  cases h
  decide

namespace ControlDispatcher

theorem grade_error {family operation : Bytes} {length : ℕ} {e : Bytes}
    (h : grade family operation length = .error e) : e.length ≤ 64 := by
  rw [grade] at h
  repeat' split at h
  all_goals cases h
  all_goals decide

theorem parseWords_length_le {family operation count : Bytes} {op : ControlOperation}
    (h : parseWords family operation count = .ok op) : op.length ≤ controlMaxBody := by
  rw [parseWords] at h
  rcases hlength : controlLength count controlMaxBody with e | length
  · rw [hlength] at h
    cases h
  have hle := controlLength_le hlength
  rw [hlength] at h
  simp only [bind, Except.bind] at h
  split at h
  · cases h
  split at h
  · cases h
  · cases h
    exact hle

theorem parseWords_error {family operation count e : Bytes}
    (h : parseWords family operation count = .error e) : e.length ≤ 64 := by
  rw [parseWords] at h
  rcases hlength : controlLength count controlMaxBody with e' | length
  · rw [hlength] at h
    cases h
    exact controlLength_error hlength
  rw [hlength] at h
  simp only [bind, Except.bind] at h
  split at h
  · cases h
    decide
  split at h
  next hgrade =>
    cases h
    exact grade_error hgrade
  next => cases h

theorem parse_length_le {command : Bytes} {op : ControlOperation} (h : parse command = .ok op) :
    op.length ≤ controlMaxBody := by
  rw [parse] at h
  split at h
  · cases h; exact Nat.zero_le _
  split at h
  · cases h; exact Nat.zero_le _
  split at h
  · cases h; exact Nat.zero_le _
  split at h
  · cases h
  split at h
  · cases h
  · exact parseWords_length_le h

theorem parse_error {command e : Bytes} (h : parse command = .error e) : e.length ≤ 64 := by
  rw [parse] at h
  split at h
  · cases h
  split at h
  · cases h
  split at h
  · cases h
  split at h
  · cases h; decide
  split at h
  · cases h; decide
  · exact parseWords_error h

end ControlDispatcher

end Tuntom.Control
