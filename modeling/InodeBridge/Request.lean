import InodeBridge.Storage

/-! # Requests

What the kernel asks of a filesystem, naming objects by inode and open files by handle.
-/
namespace InodeBridge

abbrev Handle := UInt64

/-- The attributes to change, those that are given. -/
structure AttributeChanges where
  mode : Option UInt32 := none
  uid : Option UInt32 := none
  gid : Option UInt32 := none
  size : Option UInt64 := none
  accessed : Option Timestamp := none
  modified : Option Timestamp := none
  /-- The open file through which the change was asked for. -/
  handle : Option Handle := none
  deriving DecidableEq, Repr

structure ByteRangeLock where
  owner : UInt64
  start : UInt64
  stop : UInt64
  type : Int32
  process : UInt32
  deriving DecidableEq, Repr

inductive Request where
  | init
  | lookup (parent : Inode) (name : Name)
  | forget (inode : Inode) (lookups : UInt64)
  | batchForget (nodes : List (Inode × UInt64))
  | getattr (inode : Inode)
  | setattr (inode : Inode) (changes : AttributeChanges)
  | readlink (inode : Inode)
  | mknod (parent : Inode) (name : Name) (mode device : UInt32)
  | mkdir (parent : Inode) (name : Name) (mode : UInt32)
  | create (parent : Inode) (name : Name) (mode : UInt32) (flags : Int32)
  | unlink (parent : Inode) (name : Name)
  | rmdir (parent : Inode) (name : Name)
  | symlink (parent : Inode) (name : Name) (content : Path)
  | rename (parent : Inode) (name : Name) (newParent : Inode) (newName : Name)
  | link (inode newParent : Inode) (newName : Name)
  | open (inode : Inode) (flags : Int32)
  | read (inode : Inode) (handle : Handle) (offset : Int64) (size : UInt32)
  | write (inode : Inode) (handle : Handle) (offset : Int64) (data : Bytes)
  | flush (inode : Inode) (handle : Handle) (owner : UInt64)
  | release (inode : Inode) (handle : Handle)
  | fsync (inode : Inode) (handle : Handle) (dataOnly : Bool)
  | opendir (inode : Inode) (flags : Int32)
  /-- Lists a directory from an offset on, in at most so many bytes of records. -/
  | readdir (inode : Inode) (handle : Handle) (offset : Int64) (budget : Nat)
  | releasedir (inode : Inode) (handle : Handle)
  | fsyncdir (inode : Inode) (handle : Handle) (dataOnly : Bool)
  | statfs (inode : Inode)
  | access (inode : Inode) (mask : Int32)
  | setxattr (inode : Inode) (name : Name) (value : Bytes) (flags : Int32) (position : UInt32)
  | getxattr (inode : Inode) (name : Name) (size : UInt32)
  | listxattr (inode : Inode) (size : UInt32)
  | removexattr (inode : Inode) (name : Name)
  | getlk (inode : Inode) (handle : Handle) (lock : ByteRangeLock)
  | setlk (inode : Inode) (handle : Handle) (lock : ByteRangeLock) (sleep : Bool)
  | bmap (inode : Inode) (blockSize : UInt32) (index : UInt64)
  | destroy
  deriving DecidableEq, Repr

end InodeBridge
