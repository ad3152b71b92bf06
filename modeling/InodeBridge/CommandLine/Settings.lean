import InodeBridge.CommandLine.Complaint
import InodeBridge.CommandLine.Similarity
import InodeBridge.Path
import InodeBridge.Text.Utf8

/-! # What a command line asks for

Settings hold the value of every parameter.  A value is checked when it is set.
-/
namespace InodeBridge.CommandLine

structure Settings where
  source : Path := ⟨[]⟩
  mount : Path := ⟨[]⟩
  debug : Bool := false
  readOnly : Bool := false
  attrTtl : UInt64 := 0
  entryTtl : UInt64 := 0
  renamePolicy : RenamePolicy := .move
  syncReads : Bool := false
  deriving DecidableEq, Repr

/-- Goes on reading the decimal digits of a number that fits a 64-bit word. -/
def readDigits : List Char → Nat → Except NumberDefect Nat
  | [], n => .ok n
  | c :: cs, n =>
    let next := 10 * n + (c.toNat - '0'.toNat)
    if !c.isDigit then .error .badDigit
    else if UInt64.size ≤ next then .error .tooLarge
    else readDigits cs next

/-- Reads a number that fits a 64-bit word; a plus sign may come before its digits. -/
def readNumber (text : String) : Except NumberDefect UInt64 :=
  match text.toList with
  | [] => .error .empty
  | ['+'] => .error .badDigit
  | '+' :: digits => (readDigits digits 0).map (·.toUInt64)
  | digits => (readDigits digits 0).map (·.toUInt64)

namespace Settings

def mountOptions (s : Settings) : MountOptions :=
  { MountOptions.withTtl (.ofMillis s.attrTtl) (.ofMillis s.entryTtl) with
    renamePolicy := s.renamePolicy
    asyncReads := !s.syncReads }

def checkNumber (p : Parameter) (value : Bytes) : Except Complaint UInt64 :=
  match Text.ofUtf8? value with
  | some text => (readNumber text).mapError (.notNumber p text)
  | none => .error .notText

def checkPath (p : Parameter) (value : Bytes) : Except Complaint Path :=
  if value.isEmpty then .error (.valueMissing p) else .ok ⟨value⟩

def checkPolicy (value : Bytes) : Except Complaint RenamePolicy :=
  let text := Text.ofUtf8Lossy value
  match policies.lookup text with
  | some (policy, _) => .ok policy
  | none =>
    if value.isEmpty then .error (.valueMissing .renamePolicy)
    else
      let similar := mostAlike? text Parameter.renamePolicy.choices
      .error (.notChoice .renamePolicy text similar)

/-- The settings after a parameter was given, with its value if it takes one. -/
def set (s : Settings) (p : Parameter) (value : Bytes) : Except Complaint Settings :=
  match p with
  | .source => (checkPath p value).map fun source => { s with source }
  | .mount => (checkPath p value).map fun mount => { s with mount }
  | .debug => .ok { s with debug := true }
  | .readOnly => .ok { s with readOnly := true }
  | .attrTtl => (checkNumber p value).map fun attrTtl => { s with attrTtl }
  | .entryTtl => (checkNumber p value).map fun entryTtl => { s with entryTtl }
  | .renamePolicy => (checkPolicy value).map fun renamePolicy => { s with renamePolicy }
  | .syncReads => .ok { s with syncReads := true }
  | .help | .version => .ok s

end Settings
end InodeBridge.CommandLine
