import InodeBridge.MountOptions

/-! # What can be given on the command line

The program takes two paths, some options with a value and some without, and two requests for text.
The table here says how each is spelled and what it is for.
-/
namespace InodeBridge.CommandLine

/-- The name of the program and its version. -/
def programName : String := "pathmount"
def programVersion : String := "0.1.0"

inductive Parameter where
  | source
  | mount
  | debug
  | readOnly
  | attrTtl
  | entryTtl
  | renamePolicy
  | syncReads
  | help
  | version
  deriving DecidableEq, Repr

def policies : List (String × RenamePolicy × String) :=
  [("move", .move, "Renamed objects keep their inode"),
   ("rebind", .rebind, "The destination gets a fresh inode; the source inode goes stale")]

namespace Parameter

/-- All parameters, in the order in which help lists them. -/
def all : List Parameter :=
  [.source, .mount, .debug, .readOnly, .attrTtl, .entryTtl, .renamePolicy, .syncReads, .help,
   .version]

theorem mem_all (p : Parameter) : p ∈ all := by cases p <;> decide

/-- The spelling after two dashes; a parameter without is known by its place. -/
def long? : Parameter → Option String
  | .source | .mount => none
  | .debug => some "debug"
  | .readOnly => some "read-only"
  | .attrTtl => some "attr-ttl-ms"
  | .entryTtl => some "entry-ttl-ms"
  | .renamePolicy => some "rename-policy"
  | .syncReads => some "sync-reads"
  | .help => some "help"
  | .version => some "version"

def short? : Parameter → Option Char
  | .debug => some 'd'
  | .help => some 'h'
  | .version => some 'V'
  | _ => none

def valueName? : Parameter → Option String
  | .source => some "SOURCE"
  | .mount => some "MOUNT"
  | .attrTtl => some "ATTR_TTL_MS"
  | .entryTtl => some "ENTRY_TTL_MS"
  | .renamePolicy => some "RENAME_POLICY"
  | _ => none

def default? : Parameter → Option String
  | .attrTtl | .entryTtl => some "0"
  | .renamePolicy => some "move"
  | _ => none

def choices : Parameter → List String
  | .renamePolicy => policies.map (·.1)
  | _ => []

def takesValue (p : Parameter) : Bool := p.valueName?.isSome

/-- Whether a parameter asks for text instead of a mount. -/
def isRequest (p : Parameter) : Bool := p = .help || p = .version

/-- Whether a parameter is known by its place; such a parameter must be given. -/
def isPositional (p : Parameter) : Bool := p.long?.isNone

def positionals : List Parameter := all.filter isPositional

def ofLong? (name : String) : Option Parameter := all.find? fun p => p.long? == some name

def ofShort? (letter : Char) : Option Parameter := all.find? fun p => p.short? == some letter

def display (p : Parameter) : String :=
  match p.long?, p.valueName? with
  | some long, some value => "--" ++ long ++ " <" ++ value ++ ">"
  | some long, none => "--" ++ long
  | none, value => "<" ++ value.getD "" ++ ">"

def purpose : Parameter → String
  | .source => "Directory to expose"
  | .mount => "Mountpoint for the filesystem"
  | .debug => "Enable debug logging"
  | .readOnly => "Mount as read-only (default: read-write)"
  | .attrTtl => "Kernel attribute cache TTL in milliseconds"
  | .entryTtl => "Kernel entry cache TTL in milliseconds"
  | .renamePolicy => "How inodes follow a rename"
  | .syncReads => "Complete reads on the calling thread"
  | .help => "Print help"
  | .version => "Print version"

end Parameter

def usageLine (words : List String) : String :=
  String.intercalate " " (["Usage:", programName] ++ words)

/-- The call of the program with the options among the parameters that are known to be used. -/
def usage (used : List Parameter) : String :=
  let options := used.filter fun p => !p.isPositional
  let shown := if used.isEmpty then ["[OPTIONS]"] else options.map Parameter.display
  usageLine (shown ++ Parameter.positionals.map Parameter.display)

/-- The parameters that are no requests for text, as alternatives. -/
def alternatives : String :=
  let name (p : Parameter) : String :=
    if p.isPositional then p.valueName?.getD "" else p.display
  "<" ++ String.intercalate "|" ((Parameter.all.filter fun p => !p.isRequest).map name) ++ ">"

/-- The call of the program with one more parameter than those that are known to be used: alone if
it is the first one, and else as one of the alternatives. -/
def usageWith (used : List Parameter) (p : Parameter) : String :=
  if used.isEmpty then usage [p]
  else usageLine (if p.isRequest then [p.display, alternatives] else [alternatives])

end InodeBridge.CommandLine
