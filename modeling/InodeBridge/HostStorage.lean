import InodeBridge.HandleTable
import InodeBridge.Host.Files
import InodeBridge.Storage

/-! # A directory of a host as storage

The storage keeps a table of the files that are open.  It follows no link at the end of a path when
it describes or changes an object, lists names in order, and reads on until it has all the bytes
asked for or the file ends.
-/
namespace InodeBridge

open Storage (Call)
open Host (ObjectId Object)

/-- An open file of a host.  It can be read, and written if it was opened for that. -/
structure HostFile where
  object : ObjectId
  writable : Bool
  deriving DecidableEq, Repr

inductive Transfer where
  | interrupted
  | failed (errno : Errno)
  /-- One byte is moved, if there is one, and at most so many more. -/
  | oneAnd (more : Nat)
  deriving DecidableEq, Repr

/-- A host with the files that are open on it. -/
structure HostStorage where
  host : Host
  files : HandleTable HostFile
  /-- How the next attempts to read go; those after them move all there is. -/
  transfers : List Transfer

namespace HostStorage

def new (host : Host) : HostStorage := ⟨host, .new, []⟩

def ask {α : Type} (s : HostStorage) (answer : Except Errno α) :
    Except StorageError α × HostStorage :=
  (answer.mapError .host, s)

/-- Goes on with the host after a change, if it was made. -/
def change (s : HostStorage) : Except Errno Host → Except StorageError Unit × HostStorage
  | .ok host => (.ok (), { s with host })
  | .error e => (.error (.host e), s)

def register (s : HostStorage) (writable : Bool) :
    Except Errno (ObjectId × Host) → Except StorageError Descriptor × HostStorage
  | .ok (object, host) =>
    let (fd, files) := s.files.insert ⟨object, writable⟩
    (.ok fd, { s with host, files })
  | .error e => (.error (.host e), s)

def file (s : HostStorage) (fd : Descriptor) : Except Errno HostFile :=
  match s.files.get? fd with
  | some file => .ok file
  | none => .error Errno.badDescriptor

/-- What an object is, as a host says it.  Space is counted in blocks of 512 bytes. -/
def statOf (h : Host) (id : ObjectId) (o : Object) : Stat where
  kind := o.node.kind
  size := (lengthOf o).toUInt64
  blocks := ((lengthOf o + 511) / 512).toUInt64
  accessed := stamp o.accessed
  modified := stamp o.modified
  changed := stamp o.changed
  permissions := o.permissions
  links := (h.links id).toUInt32
  owner := o.owner
  device := match o.node with
    | .charDevice device | .blockDevice device => device
    | _ => 0
  blockSize := 4096
where
  lengthOf (o : Object) : Nat :=
    match o.node with
    | .file content => content.length
    | .symlink content => content.length
    | .directory .. => 4096
    | _ => 0
  stamp (t : Timestamp) : Timestamp := Timestamp.ofUnix t.toUnix.1 t.toUnix.2

def checkLength (size : UInt64) : Except StorageError Nat :=
  if size.toNat < Host.positionLimit then .ok size.toNat
  else .error (.described .invalidInput "out of range integral type conversion attempted")

def setLength (s : HostStorage) (file : HostFile) (size : UInt64) :
    Except StorageError Unit × HostStorage :=
  match checkLength size with
  | .ok length => s.change (s.host.resize file.object file.writable length)
  | .error e => (.error e, s)

/-- Reads on after some bytes, until a number of bytes is reached or no more come.  An interrupted
attempt is repeated. -/
def readOn (h : Host) (object : ObjectId) (offset size : Nat) :
    List Transfer → Bytes → Except Errno Bytes × List Transfer
  | transfers, filled =>
    if size ≤ filled.length then (.ok filled, transfers)
    else
      let attempt := h.pread object (offset + filled.length) (size - filled.length)
      match transfers, attempt with
      | .interrupted :: transfers, _ => readOn h object offset size transfers filled
      | .failed e :: transfers, _ => (.error e, transfers)
      | .oneAnd _ :: transfers, .error e => (.error e, transfers)
      | .oneAnd _ :: transfers, .ok [] => (.ok filled, transfers)
      | .oneAnd more :: transfers, .ok (b :: bs) =>
        readOn h object offset size transfers (filled ++ b :: bs.take more)
      | [], attempt => (attempt.map (filled ++ ·), [])

def read (s : HostStorage) (fd : Descriptor) (offset : UInt64) (size : UInt32) :
    Except StorageError Bytes × HostStorage :=
  match s.file fd with
  | .error e => (.error (.host e), s)
  | .ok file =>
    let (bytes, transfers) := readOn s.host file.object offset.toNat size.toNat s.transfers []
    (bytes.mapError .host, { s with transfers })

/-- Writes all bytes to an open file, and none of them nowhere. -/
def write (s : HostStorage) (fd : Descriptor) (offset : UInt64) (data : Bytes) :
    Except StorageError UInt64 × HostStorage :=
  match s.file fd with
  | .error e => (.error (.host e), s)
  | .ok file =>
    if data.isEmpty then (.ok 0, s)
    else match s.host.pwrite file.object file.writable offset.toNat data with
      | .ok host => (.ok data.length.toUInt64, { s with host })
      | .error e => (.error (.host e), s)

/-- Sets the permissions of an object that is not a link; links have none. -/
def chmod (h : Host) (path : Path) (mode : UInt32) : Except Errno Host := do
  let (_, object) ← h.lookup path
  match object.node with
  | .symlink _ => .error Errno.unsupported
  | _ => h.chmod path mode

/-- Sets both stamps at once: to a given instant, which is split for the host, or else to the one that
the host gives for the object. -/
def setTimesBy (split : Timestamp → FileTime) (h : Host) (path : Path)
    (accessed modified : Option Timestamp) : Except Errno Host := do
  let (_, object) ← h.lookup path
  h.setTimes path (timeFor object.accessed accessed) (timeFor object.modified modified)
where
  timeFor (stamp : Timestamp) (given : Option Timestamp) : FileTime :=
    given.elim (.ofUnix stamp.toUnix) split

def setTimes : Host → Path → Option Timestamp → Option Timestamp → Except Errno Host :=
  setTimesBy .ofTimestamp

/-- Cuts or extends the file at a path, which must not be a link. -/
def truncate (s : HostStorage) (path : Path) (size : UInt64) :
    Except StorageError Unit × HostStorage :=
  match s.host.openExisting path .keep true with
  | .ok object => s.setLength ⟨object, true⟩ size
  | .error e => (.error (.host e), s)

def close (s : HostStorage) (fd : Descriptor) : Except StorageError Unit × HostStorage :=
  match s.files.remove fd with
  | (some _, files) => (.ok (), { s with files })
  | (none, _) => (.error (.host Errno.badDescriptor), s)

def answer : (c : Call) → HostStorage → c.Result × HostStorage
  | .stat path, s => s.ask ((s.host.lookup path).map fun (id, o) => statOf s.host id o)
  | .chmod path mode, s => s.change (chmod s.host path mode)
  | .truncate path size, s => s.truncate path size
  | .truncateOpen fd size, s =>
    match s.file fd with
    | .ok file => s.setLength file size
    | .error e => (.error (.host e), s)
  | .setTimes path accessed modified, s => s.change (setTimes s.host path accessed modified)
  | .mkdir path mode, s => s.change (s.host.mkdir path mode)
  | .create path mode, s => s.register true (s.host.openOrCreate path mode)
  | .unlink path, s => s.change (s.host.unlink path)
  | .rmdir path, s => s.change (s.host.rmdir path)
  | .link source target, s => s.change (s.host.link source target)
  | .symlink content target, s => s.change (s.host.symlink content target)
  | .readlink path, s => s.ask (s.host.readlink path)
  | .rename source target, s => s.change (s.host.rename source target)
  | .open path mode, s =>
    let opened := s.host.openExisting path .follow mode.isWritable
    s.register mode.isWritable (opened.map (·, s.host))
  | .read fd offset size, s => s.read fd offset size
  | .write fd offset data, s => s.write fd offset data
  | .close fd, s => s.close fd
  | .readdir path, s => s.ask ((s.host.list path).map fun names => names.mergeSort Bytes.lexLE)
  | .statfs path, s =>
    s.ask ((s.host.statfs path).map fun c => { c with blockSize := c.fragmentSize })

def pathsOf : Call → List Path
  | .stat p | .chmod p _ | .truncate p _ | .setTimes p _ _ | .mkdir p _ | .create p _ | .unlink p
  | .rmdir p | .readlink p | .open p _ | .readdir p | .statfs p => [p]
  | .link p q | .symlink p q | .rename p q => [p, q]
  | .truncateOpen .. | .read .. | .write .. | .close _ => []

/-- Whether a host can read a path: a zero byte would end it. -/
def isReadable (path : Path) : Bool := !path.bytes.contains 0

def unreadable : Call → StorageError
  | .statfs _ => .host Errno.invalid
  | _ => .described .invalidInput "file name contained an unexpected NUL byte"

def serving (root : Path) : Storage HostStorage where
  root := root
  perform c s := if (pathsOf c).all isReadable then answer c s else (.error (unreadable c), s)

/-- The path under which to serve the directory to which a path leads. -/
def rootOf (h : Host) (path : Path) : Except StorageError Path :=
  if isReadable path then (h.canonicalDirectory path).mapError .host
  else .error (unreadable (.stat path))

end HostStorage
end InodeBridge
