import InodeBridge.Kernel.Stamp
import InodeBridge.Request

/-! # Requests as the kernel sends them

The kernel sends the permissions that a process takes away beside the mode of a new object, stamps
that may say *now*, flags of a rename, and the size of its buffer for a listing.  All else is sent
as the dispatcher serves it, but for names that hold a zero byte.
-/
namespace InodeBridge.Kernel

structure AttributeChanges where
  mode : Option UInt32 := none
  uid : Option UInt32 := none
  gid : Option UInt32 := none
  size : Option UInt64 := none
  accessed : Option Stamp := none
  modified : Option Stamp := none
  handle : Option Handle := none
  deriving DecidableEq, Repr

def AttributeChanges.resolve (clock : Timestamp) (c : AttributeChanges) :
    InodeBridge.AttributeChanges where
  mode := c.mode
  uid := c.uid
  gid := c.gid
  size := c.size
  accessed := c.accessed.map (·.toTimestamp clock)
  modified := c.modified.map (·.toTimestamp clock)
  handle := c.handle

inductive Request where
  | mknod (parent : Inode) (name : Name) (mode umask device : UInt32)
  | mkdir (parent : Inode) (name : Name) (mode umask : UInt32)
  | create (parent : Inode) (name : Name) (mode umask : UInt32) (flags : Int32)
  | rename (parent : Inode) (name : Name) (newParent : Inode) (newName : Name) (flags : UInt32)
  | setattr (inode : Inode) (changes : AttributeChanges)
  /-- Lists a directory into a buffer of some bytes. -/
  | readdir (inode : Inode) (handle : Handle) (offset : Int64) (size : UInt32)
  | plain (request : InodeBridge.Request)
  deriving DecidableEq, Repr

namespace Request

/-- The bytes of records that are asked of the dispatcher for one listing. -/
def listingBudget : Nat := 4096

/-- The request to serve, or the number with which a request is refused that cannot be served: a
rename with flags. -/
def resolve (clock : Timestamp) : Request → Except Errno InodeBridge.Request
  | .mknod parent name mode umask device => .ok (.mknod parent name (mode &&& ~~~umask) device)
  | .mkdir parent name mode umask => .ok (.mkdir parent name (mode &&& ~~~umask))
  | .create parent name mode umask flags => .ok (.create parent name (mode &&& ~~~umask) flags)
  | .rename parent name newParent newName flags =>
    if flags = 0 then .ok (.rename parent name newParent newName) else .error Errno.invalid
  | .setattr inode changes => .ok (.setattr inode (changes.resolve clock))
  | .readdir inode handle offset _ => .ok (.readdir inode handle offset listingBudget)
  | .plain request => .ok request

end Request

/-! A name is sent with a zero byte behind it, and is received up to the first such byte; what
follows is taken for the next name, if there is to be one. -/

def receivedName (name : Bytes) : Bytes := name.takeWhile (· != 0)

def receivedNames (first second : Bytes) : Bytes × Bytes :=
  match first.span (· != 0) with
  | (name, []) => (name, receivedName second)
  | (name, _ :: rest) => (name, receivedName (rest ++ 0 :: second))

/-- What is received of a request that the dispatcher serves as it is sent. -/
def receivedPlain : InodeBridge.Request → InodeBridge.Request
  | .lookup parent name => .lookup parent (receivedName name)
  | .unlink parent name => .unlink parent (receivedName name)
  | .rmdir parent name => .rmdir parent (receivedName name)
  | .symlink parent name content =>
    let (name, content) := receivedNames name content.bytes
    .symlink parent name ⟨content⟩
  | .link inode newParent newName => .link inode newParent (receivedName newName)
  | request => request

/-- What is received of a request; only the names of entries matter, as extended attributes are not
served. -/
def Request.received : Request → Request
  | .mknod parent name mode umask device => .mknod parent (receivedName name) mode umask device
  | .mkdir parent name mode umask => .mkdir parent (receivedName name) mode umask
  | .create parent name mode umask flags => .create parent (receivedName name) mode umask flags
  | .rename parent name newParent newName flags =>
    let (name, newName) := receivedNames name newName
    .rename parent name newParent newName flags
  | .plain request => .plain (receivedPlain request)
  | request => request

end InodeBridge.Kernel
