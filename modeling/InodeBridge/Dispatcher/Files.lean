import InodeBridge.Dispatcher.Handler

/-! # Requests about open files

A read is asked for and made in two steps: what is asked for holds the descriptor that the handle had
then, so that the call can be made later.
-/
namespace InodeBridge.Dispatcher

open Handler

/-- A read that was asked for through a handle. -/
structure PendingRead where
  handle : Handle
  /-- The descriptor of the handle when the read was asked for. -/
  fd : Descriptor
  offset : UInt64
  size : UInt32
  deriving DecidableEq, Repr

def PendingRead.call (read : PendingRead) : Storage.Call := .read read.fd read.offset read.size

/-- Opens a file for reading and writing, or only for reading if that fails. -/
def openInode (inode : Inode) : Handler Outcome := do
  let path ← resolve inode
  let (fd, mode) ← match ← attempt (.open path .readWrite) with
    | .ok fd => pure (fd, OpenMode.readWrite)
    | .error _ =>
      let fd ← performOr .openFailed (.open path .readOnly)
      pure (fd, OpenMode.readOnly)
  let handle ← withHandles (·.insert ⟨inode, fd, mode⟩)
  return .opened ⟨handle, 0⟩

/-- The read that a request asks for; the offset is checked first. -/
def readTarget (handle : Handle) (offset : Int64) (size : UInt32) : Handler PendingRead := do
  let offset ← position offset
  let file ← openFile handle
  return ⟨handle, file.fd, offset, size⟩

def readOutcome : Except StorageError Bytes → Outcome
  | .ok data => .data data
  | .error e => .error (RequestError.storage e).errno

/-- Reads from a handle and waits for the bytes. -/
def read (handle : Handle) (offset : Int64) (size : UInt32) : Handler Outcome := do
  let target ← readTarget handle offset size
  return readOutcome (← attempt target.call)

/-- Writes to a handle; the offset is checked first, and a handle for reading is refused. -/
def write (handle : Handle) (offset : Int64) (data : Bytes) : Handler Outcome := do
  let offset ← position offset
  let file ← openFile handle
  unless file.mode.isWritable do throw (.readOnlyHandle handle)
  let count : UInt64 ← perform (.write file.fd offset data)
  return .written (min count 0xffffffff).toUInt32

/-- Succeeds on a handle that is open, which is all that flushing and syncing ask for. -/
def checkHandle (handle : Handle) : Handler Outcome := do
  let _ ← openFile handle
  return .ok

def release (handle : Handle) : Handler Outcome := do
  if let some file ← withHandles (·.remove handle) then
    let _ ← attempt (.close file.fd)
  return .ok

/-- Closes some files, whatever the calls give. -/
def closeAll : List OpenFile → Handler Unit
  | [] => pure ()
  | file :: files => do
    let _ ← attempt (.close file.fd)
    closeAll files

def destroy : Handler Unit := do
  closeAll (← withHandles (·.drain))

/-- The capacity of the volume, or a constant one if storage gives none. -/
def statfs : Handler Outcome := do
  match ← attempt (.statfs (← get).inodes.root) with
  | .ok capacity => return .capacity capacity
  | .error _ => return .capacity .fallback

end InodeBridge.Dispatcher
