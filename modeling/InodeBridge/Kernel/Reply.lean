import InodeBridge.Kernel.Request
import InodeBridge.Outcome

/-! # Replies as the kernel gets them

Each request is replied to in one form, by a call that is given what the outcome holds.  An outcome
that does not have this form becomes the number of its failure, or that of failed input and output
if it is none.  What the kernel gets is written from the call.
-/
namespace InodeBridge.Kernel

def typeNumber : FileKind → UInt32
  | .fifo => 1
  | .charDevice => 2
  | .directory => 4
  | .blockDevice => 6
  | .regular => 8
  | .symlink => 10
  | .socket => 12

/-- The attributes of an inode as they are sent: kind and permissions are one number. -/
structure WireAttributes where
  inode : Inode
  size : UInt64
  blocks : UInt64
  accessed : WireTime
  modified : WireTime
  changed : WireTime
  mode : UInt32
  links : UInt32
  owner : Owner
  device : UInt32
  blockSize : UInt32
  deriving DecidableEq, Repr

def WireAttributes.ofAttributes (a : Attributes) : WireAttributes where
  inode := a.inode
  size := a.size
  blocks := a.blocks
  accessed := .ofTimestamp a.accessed
  modified := .ofTimestamp a.modified
  changed := .ofTimestamp a.changed
  mode := typeNumber a.kind <<< 12 ||| a.permissions.toUInt32
  links := a.links
  owner := a.owner
  device := a.device
  blockSize := a.blockSize

structure WireEntry where
  attributes : WireAttributes
  generation : UInt64
  attrTtl : Duration
  entryTtl : Duration
  deriving DecidableEq, Repr

/-- How an object is sent that is given with one lifetime: it stands for both. -/
def WireEntry.sent (ttl : Duration) (attributes : Attributes) (generation : UInt64) :
    WireEntry where
  attributes := .ofAttributes attributes
  generation
  attrTtl := ttl
  entryTtl := ttl

inductive ReplyCall where
  | ok
  | error (errno : Errno)
  | entry (ttl : Duration) (attributes : Attributes) (generation : UInt64)
  | attributes (ttl : Duration) (attributes : Attributes)
  | opened (handle : Handle) (flags : UInt32)
  | created (ttl : Duration) (attributes : Attributes) (generation : UInt64) (handle : Handle)
    (flags : UInt32)
  | data (bytes : Bytes)
  /-- Replies with the records that were added. -/
  | directory (records : List DirectoryEntry)
  | written (count : UInt32)
  | capacity (capacity : Capacity)
  | xattrSize (size : UInt32)
  | block (number : UInt64)
  deriving DecidableEq, Repr

inductive Reply where
  | ok
  | error (errno : Errno)
  | entry (entry : WireEntry)
  | attributes (attributes : WireAttributes) (ttl : Duration)
  | opened (opened : OpenReply)
  | created (entry : WireEntry) (opened : OpenReply)
  | data (bytes : Bytes)
  | directory (entries : List DirectoryEntry)
  | written (count : UInt32)
  | capacity (capacity : Capacity)
  | xattrSize (size : UInt32)
  | block (number : UInt64)
  deriving DecidableEq, Repr

namespace Reply

def ofCall : ReplyCall → Reply
  | .ok => .ok
  | .error errno => .error errno
  | .entry ttl a generation => .entry (.sent ttl a generation)
  | .attributes ttl a => .attributes (.ofAttributes a) ttl
  | .opened handle flags => .opened ⟨handle, flags⟩
  | .created ttl a generation handle flags => .created (.sent ttl a generation) ⟨handle, flags⟩
  | .data bytes => .data bytes
  | .directory records => .directory records
  | .written count => .written count
  | .capacity c => .capacity c
  | .xattrSize size => .xattrSize size
  | .block number => .block number

def inode? : Reply → Option Inode
  | .entry e | .created e _ => some e.attributes.inode
  | .attributes a _ => some a.inode
  | _ => none

def handle? : Reply → Option Handle
  | .opened o | .created _ o => some o.handle
  | _ => none

end Reply

/-- The form of a reply; a listing must fit a buffer, and a lock is never granted. -/
inductive ReplyForm where
  | empty | entry | attributes | opened | created | data | written | capacity | xattr | block | lock
  | directory (size : Nat)
  deriving DecidableEq, Repr

namespace ReplyForm

/-- The form in which a request is replied to; some are not replied to. -/
def ofRequest? : InodeBridge.Request → Option ReplyForm
  | .forget .. | .batchForget _ | .destroy => none
  | .lookup .. | .mknod .. | .mkdir .. | .symlink .. | .link .. => some .entry
  | .getattr _ | .setattr .. => some .attributes
  | .readlink _ | .read .. => some .data
  | .create .. => some .created
  | .open .. | .opendir .. => some .opened
  | .write .. => some .written
  | .readdir _ _ _ budget => some (.directory budget)
  | .statfs _ => some .capacity
  | .getxattr .. | .listxattr .. => some .xattr
  | .getlk .. => some .lock
  | .bmap .. => some .block
  | .init | .unlink .. | .rmdir .. | .rename .. | .flush .. | .release .. | .fsync ..
  | .releasedir .. | .fsyncdir .. | .access .. | .setxattr .. | .removexattr .. | .setlk .. =>
    some .empty

/-- The call that passes an outcome of a form on.  Of an object with two lifetimes only that of its
name is given. -/
def success? : ReplyForm → Outcome → Option ReplyCall
  | .empty, .ok => some .ok
  | .entry, .entry e => some (.entry e.entryTtl e.attributes e.generation)
  | .attributes, .attributes a ttl => some (.attributes ttl a)
  | .opened, .opened o => some (.opened o.handle o.flags)
  | .created, .created e o =>
    some (.created e.entryTtl e.attributes e.generation o.handle o.flags)
  | .data, .data bytes => some (.data bytes)
  | .data, .linkContent path => some (.data path.bytes)
  | .written, .written count => some (.written count)
  | .capacity, .capacity c => some (.capacity c)
  | .xattr, .xattrSize size => some (.xattrSize size)
  | .xattr, .data bytes => some (.data bytes)
  | .block, .block number => some (.block number)
  | .directory size, .directory buffer =>
    some (.directory ((DirectoryBuffer.new size).fill buffer.entries).1.entries)
  | _, _ => none

def call (form : ReplyForm) (outcome : Outcome) : ReplyCall :=
  (form.success? outcome).getD (.error outcome.errno)

end ReplyForm

def Request.form? : Request → Option ReplyForm
  | .mknod .. | .mkdir .. => some .entry
  | .create .. => some .created
  | .rename .. => some .empty
  | .setattr .. => some .attributes
  | .readdir _ _ _ size => some (.directory size.toNat)
  | .plain request => ReplyForm.ofRequest? request

end InodeBridge.Kernel
