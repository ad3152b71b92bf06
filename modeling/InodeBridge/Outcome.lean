import InodeBridge.DirectoryBuffer
import InodeBridge.Errno

/-! # Answers to requests

The answer to a request is one outcome.  What is deliberately not implemented is kept apart from
what failed.
-/
namespace InodeBridge

inductive Unsupported where
  | mknod
  | setXattr
  | getXattr
  | listXattr
  | removeXattr
  | getLock
  | setLock
  deriving DecidableEq, Repr

namespace Unsupported

def all : List Unsupported :=
  [.mknod, .setXattr, .getXattr, .listXattr, .removeXattr, .getLock, .setLock]

theorem mem_all (u : Unsupported) : u ∈ all := by cases u <;> decide

/-- The number the kernel gets.  For locks it means that the kernel looks after them itself. -/
def errno : Unsupported → Errno
  | .mknod => Errno.noEntry
  | .setXattr | .getXattr | .listXattr | .removeXattr => Errno.unsupported
  | .getLock | .setLock => Errno.noSystemCall

def name : Unsupported → String
  | .mknod => "mknod"
  | .setXattr => "setxattr"
  | .getXattr => "getxattr"
  | .listXattr => "listxattr"
  | .removeXattr => "removexattr"
  | .getLock => "getlk"
  | .setLock => "setlk"

end Unsupported

/-- An object handed to the kernel, with how long to believe it. -/
structure EntryReply where
  attributes : Attributes
  generation : UInt64
  attrTtl : Duration
  entryTtl : Duration
  deriving DecidableEq, Repr

/-- An opened file: the handle to give in later requests. -/
structure OpenReply where
  handle : UInt64
  flags : UInt32
  deriving DecidableEq, Repr

inductive Outcome where
  /-- Success with nothing to tell. -/
  | ok
  | error (errno : Errno)
  | entry (entry : EntryReply)
  | attributes (attributes : Attributes) (ttl : Duration)
  | opened (opened : OpenReply)
  | created (entry : EntryReply) (opened : OpenReply)
  | data (bytes : Bytes)
  | directory (buffer : DirectoryBuffer)
  | written (count : UInt32)
  | linkContent (path : Path)
  | capacity (capacity : Capacity)
  | xattrSize (size : UInt32)
  | block (number : UInt64)
  | unsupported (operation : Unsupported)
  deriving DecidableEq, Repr

namespace Outcome

def errno? : Outcome → Option Errno
  | .error errno => some errno
  | .unsupported operation => some operation.errno
  | _ => none

/-- The object that an outcome describes. -/
def inode? : Outcome → Option Inode
  | .entry e | .created e _ => some e.attributes.inode
  | .attributes a _ => some a.inode
  | _ => none

/-- The inodes that an outcome tells, in order. -/
def inodes : Outcome → List Inode
  | .directory buffer => buffer.entries.map (·.inode)
  | o => o.inode?.toList

def handle? : Outcome → Option UInt64
  | .opened o | .created _ o => some o.handle
  | _ => none

/-- The number to send where the outcome has the wrong form. -/
def errno (o : Outcome) : Errno := o.errno?.getD Errno.inputOutput

end Outcome
end InodeBridge
