import InodeBridge.CommandLine.Settings

/-! # Reading a command line

Arguments are strings of bytes, read from left to right.  A value that stands apart from its
option, and a path, wait until the next parameter is met or the arguments end; only then are they
checked.  After two dashes all arguments are paths.
-/
namespace InodeBridge.CommandLine

/-- Why reading ends before the arguments do. -/
inductive Stop where
  | complaint (c : Complaint)
  | help (full : Bool)
  | version
  deriving DecidableEq, Repr

structure Reading where
  settings : Settings := {}
  /-- The parameters that were checked, in order. -/
  used : List Parameter := []
  /-- A parameter that waits, and its value if there is one yet. -/
  waiting : Option (Parameter × Option Bytes) := none
  deriving DecidableEq, Repr

namespace Reading

/-- Checks a parameter while none waits.  No parameter can be given twice. -/
def record (r : Reading) (p : Parameter) (value : Option Bytes) : Except Complaint Reading := do
  if p.takesValue && value.isNone then .error (.valueMissing p)
  else if r.used.contains p then .error (.repeated p)
  else
    let settings ← r.settings.set p (value.getD [])
    .ok { r with settings, used := r.used ++ [p] }

def settle (r : Reading) : Except Stop Reading :=
  match r.waiting with
  | none => .ok r
  | some (p, value) => ({ r with waiting := none }.record p value).mapError .complaint

def take (r : Reading) (p : Parameter) (value : Option Bytes) : Except Stop Reading := do
  ((← r.settle).record p value).mapError .complaint

/-- Lets a parameter wait, after the one before it is checked. -/
def await (r : Reading) (p : Parameter) (value : Option Bytes) : Except Stop Reading := do
  return { ← r.settle with waiting := some (p, value) }

def withParameter (ps : List Parameter) (p : Parameter) : List Parameter :=
  if ps.contains p then ps else ps ++ [p]

/-- The parameters used if the one that waits counts, whatever its value; one that is given twice
does not count at all. -/
def usedWithWaiting (r : Reading) : List Parameter :=
  match r.waiting with
  | some (p, some _) => if r.used.contains p then r.used.erase p else r.used ++ [p]
  | _ => r.used

/-- Reads a parameter without a value; the requests for text end the reading. -/
def readFlag (r : Reading) (p : Parameter) (long : Bool) : Except Stop Reading :=
  match p with
  | .help => do
    let _ ← r.settle
    .error (.help long)
  | .version => do
    let _ ← r.settle
    .error .version
  | _ => r.take p none

def unknownLong (r : Reading) (name : String) : Complaint :=
  let argument := "--" ++ name
  let used := r.usedWithWaiting
  match mostAlike? name (Parameter.all.filterMap Parameter.long?) with
  | some similar =>
    let used := (Parameter.ofLong? similar).elim used (withParameter used)
    .misspelled argument ("--" ++ similar) used
  | none => .unknownLong argument used

def readLong (r : Reading) (name : String) (attached : Option Bytes) : Except Stop Reading :=
  match Parameter.ofLong? name with
  | none => .error (.complaint (r.unknownLong name))
  | some p =>
    match p.takesValue, attached with
    | true, some value => r.take p (some value)
    | true, none => r.await p none
    | false, some value =>
      .error (.complaint (.valueUnneeded p (Text.ofUtf8Lossy value) r.used))
    | false, none => r.readFlag p true

/-- Reads letters that stand for parameters without values.  All that comes after a defect counts as
one letter. -/
def readLetters (r : Reading) : List (Option Char) → Except Stop Reading
  | [] => .ok r
  | none :: letters =>
    let shown := (none :: letters).map (·.getD '\ufffd')
    .error (.complaint (.unknownLetter ("-" ++ String.ofList shown)))
  | some letter :: letters =>
    match Parameter.ofShort? letter with
    | none => .error (.complaint (.unknownLetter ("-" ++ letter.toString)))
    | some p => do (← r.readFlag p false).readLetters letters

def pathCount (r : Reading) : Nat :=
  ((r.used ++ r.waiting.toList.map Prod.fst).filter Parameter.isPositional).length

def readPath (r : Reading) (argument : Bytes) : Except Stop Reading :=
  match Parameter.positionals[r.pathCount]? with
  | some p => r.await p (some argument)
  | none => .error (.complaint (.surplus (Text.ofUtf8Lossy argument)))

/-- The bytes of a dash and of an equals sign. -/
def dash : UInt8 := 0x2d
def equalsSign : UInt8 := 0x3d

/-- A long name and what is attached to it after the first equals sign. -/
def splitAttached (argument : Bytes) : String × Option Bytes :=
  match argument.span (· != equalsSign) with
  | (name, []) => (Text.ofUtf8Lossy name, none)
  | (name, _ :: value) => (Text.ofUtf8Lossy name, some value)

def readArgument (r : Reading) (argument : Bytes) : Except Stop Reading :=
  if argument.take 2 = [dash, dash] then
    let (name, attached) := splitAttached (argument.drop 2)
    r.readLong name attached
  else if argument.head? = some dash ∧ 1 < argument.length then
    r.readLetters (Text.readUtf8 .start argument.tail)
  else match r.waiting with
    | some (p, none) => .ok { r with waiting := some (p, some argument) }
    | _ => r.readPath argument

def readPaths (r : Reading) : List Bytes → Except Stop Reading
  | [] => .ok r
  | argument :: arguments => do (← r.readPath argument).readPaths arguments

def readArguments (r : Reading) : List Bytes → Except Stop Reading
  | [] => .ok r
  | argument :: arguments =>
    if argument = [dash, dash] then r.readPaths arguments
    else do (← r.readArgument argument).readArguments arguments

/-- The settings at the end; both paths must have been given. -/
def finish (r : Reading) : Except Stop Settings := do
  let r ← r.settle
  let missing := Parameter.positionals.filter fun p => !r.used.contains p
  if missing.isEmpty then .ok r.settings
  else .error (.complaint (.missing missing r.used))

end Reading

def readSettings (arguments : List Bytes) : Except Stop Settings := do
  (← Reading.readArguments {} arguments).finish

end InodeBridge.CommandLine
