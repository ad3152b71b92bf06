import InodeBridge.Host.Entries

/-! # Files and the attributes of objects

A file is opened by path and then used by its identity.  A position in a file, and the end of what
is read or written, must be below the limit of signed 64-bit numbers.
-/
namespace InodeBridge.Host

def positionLimit : Nat := 0x8000000000000000

def checkOpen (h : Host) (id : ObjectId) (writable : Bool) : Except Errno Unit :=
  match h.node? id with
  | some (.directory ..) => if writable then .error Errno.isDirectory else .ok ()
  | some (.symlink _) => .error Errno.linkLoop
  | some .socket => .error Errno.noDevice
  | _ => .ok ()

/-- Opens an object; a link that is kept at the end of the path cannot be opened. -/
def openExisting (h : Host) (path : Path) (atEnd : PathEnd) (writable : Bool) :
    Except Errno ObjectId := do
  let id ← h.find atEnd path
  h.checkOpen id writable
  .ok id

/-- Opens a file for writing; where the path, with all links followed, leads to no object yet, an
empty file is made first. -/
def openOrCreate (h : Host) (path : Path) (mode : UInt32) : Except Errno (ObjectId × Host) := do
  match ← h.locate .create path with
  | (.vacant directory name, _) =>
    .ok (h.add directory name (.file .empty) (h.permitted 0o7777 mode))
  | (.found id, _) =>
    h.checkOpen id true
    .ok (id, h)

/-- Whether an object has no positions. -/
def isStream (h : Host) (id : ObjectId) : Bool :=
  match h.node? id with
  | some .fifo | some .socket => true
  | _ => false

def checkPosition (h : Host) (id : ObjectId) (offset : Nat) : Except Errno Unit :=
  if positionLimit ≤ offset then .error Errno.invalid
  else if h.isStream id then .error Errno.noSeek
  else .ok ()

def pread (h : Host) (id : ObjectId) (offset size : Nat) : Except Errno Bytes := do
  h.checkPosition id offset
  if positionLimit ≤ offset + size then .error Errno.invalid
  else match h.node? id with
    | some (.file content) => .ok (content.read offset size)
    | some (.directory ..) => .error Errno.isDirectory
    | _ => .ok []

def pwrite (h : Host) (id : ObjectId) (writable : Bool) (offset : Nat) (data : Bytes) :
    Except Errno Host := do
  h.checkPosition id offset
  if !writable then .error Errno.badDescriptor
  else if positionLimit ≤ offset + data.length then .error Errno.invalid
  else .ok (h.alterContent id (·.write offset data))

def resize (h : Host) (id : ObjectId) (writable : Bool) (length : Nat) : Except Errno Host :=
  if positionLimit ≤ length || !writable || (h.content? id).isNone then .error Errno.invalid
  else .ok (h.alterContent id (·.resize length))

/-- Sets the permissions of an object, and of what a link leads to. -/
def chmod (h : Host) (path : Path) (mode : UInt32) : Except Errno Host := do
  let id ← h.find .follow path
  .ok (h.alter id fun o =>
    { o with permissions := (mode &&& 0o7777).toUInt16, changed := h.clock })

/-- Nanoseconds that stand for the present, and for the stamp that an object has. -/
def presentNanos : UInt32 := 0x3fffffff
def keptNanos : UInt32 := 0x3ffffffe

def areNanos (n : UInt32) : Bool :=
  n.toNat < nanosPerSecond || n = presentNanos || n = keptNanos

def restamped (h : Host) (t : FileTime) (stamp : Timestamp) : Timestamp :=
  if t.nanos = presentNanos then h.clock
  else if t.nanos = keptNanos then stamp
  else t.instant

/-- Sets the stamps of an object, and those of a link itself.  If both stay as they are, the path is
not looked at. -/
def setTimes (h : Host) (path : Path) (accessed modified : FileTime) : Except Errno Host :=
  if accessed.nanos = keptNanos && modified.nanos = keptNanos then .ok h
  else if !(areNanos accessed.nanos && areNanos modified.nanos) then .error Errno.invalid
  else do
    let id ← h.find .keep path
    .ok (h.alter id fun o => { o with
      accessed := h.restamped accessed o.accessed
      modified := h.restamped modified o.modified
      changed := h.clock })

/-- The object at a path, a link itself. -/
def lookup (h : Host) (path : Path) : Except Errno (ObjectId × Object) := do
  let id ← h.find .keep path
  match h.object? id with
  | some object => .ok (id, object)
  | none => .error Errno.noEntry

def readlink (h : Host) (path : Path) : Except Errno Path := do
  let id ← h.find .keep path
  match h.linkContent? id with
  | some content => .ok ⟨content⟩
  | none => .error Errno.invalid

/-- The names in a directory, in no order in particular. -/
def list (h : Host) (path : Path) : Except Errno (List Name) := do
  let id ← h.find .follow path
  match h.entries? id with
  | some entries => .ok (entries.entries.map Prod.fst)
  | none => .error Errno.notDirectory

def statfs (h : Host) (path : Path) : Except Errno Capacity := do
  let _ ← h.find .follow path
  .ok h.capacity

end InodeBridge.Host
