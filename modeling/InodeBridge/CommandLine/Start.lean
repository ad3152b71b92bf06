import InodeBridge.CommandLine.Help
import InodeBridge.CommandLine.Reading
import InodeBridge.Text.Utf8

/-! # Starting the program

Either the program knows what to mount where, or it ends at once: with a text that was asked for,
with a complaint about the command line, or because one of the paths leads to nothing it can use.
-/
namespace InodeBridge.CommandLine

structure Exit where
  code : UInt8
  output : String
  errors : String
  deriving DecidableEq, Repr

def Exit.failure (reason : String) : Exit := ⟨1, "", "Error: " ++ reason ++ "\n"⟩

def Stop.exit : Stop → Exit
  | .complaint c => ⟨2, "", c.message⟩
  | .help full => ⟨0, helpText full, ""⟩
  | .version => ⟨0, versionText, ""⟩

inductive Presence where
  | nothing
  | directory
  | other
  deriving DecidableEq, Repr

/-- Why some settings cannot be used. -/
def Settings.objection? (s : Settings) (look : Path → Presence) : Option String :=
  if look s.source ≠ .directory then
    some ("Source is not a directory: " ++ Text.ofUtf8Lossy s.source.bytes)
  else if look s.mount = .nothing then
    some ("Mountpoint does not exist: " ++ Text.ofUtf8Lossy s.mount.bytes)
  else none

def start (look : Path → Presence) (arguments : List Bytes) : Except Exit Settings :=
  match readSettings arguments with
  | .error stop => .error stop.exit
  | .ok settings =>
    match settings.objection? look with
    | some reason => .error (.failure reason)
    | none => .ok settings

end InodeBridge.CommandLine
