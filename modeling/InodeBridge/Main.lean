import InodeBridge.CommandLine.Start
import InodeBridge.Failure

/-! # The program

Reads the command line, looks its two paths up on the host, and ends with the texts and the code
that `start` gives.  There is no kernel device behind the program, so a mount that passes all checks
fails as on a host without the device.
-/
namespace InodeBridge.CommandLine

def lookOnHost (path : Path) : IO Presence := do
  try
    let found ← IO.FS.realPath (Text.ofUtf8Lossy path.bytes)
    if ← found.isDir then return .directory else return .other
  catch _ => return .nothing

def exitWith (settings : Settings) : IO Exit := do
  let source ← lookOnHost settings.source
  let mount ← lookOnHost settings.mount
  match settings.objection? fun p => if p = settings.source then source else mount with
  | some reason => return .failure reason
  | none =>
    let cause := StorageError.host Errno.noSystemCall
    return .failure ("Failed to mount filesystem: " ++ cause.message)

end InodeBridge.CommandLine

def main (arguments : List String) : IO UInt32 := do
  let exit ← match InodeBridge.CommandLine.readSettings (arguments.map .ofString) with
    | .error stop => pure stop.exit
    | .ok settings => InodeBridge.CommandLine.exitWith settings
  IO.print exit.output
  IO.eprint exit.errors
  return exit.code.toUInt32
