import InodeBridge.Time

/-! # Attributes of objects and of the volume

Storage describes an object without an inode number; the attributes sent to the kernel carry the
number under which the object is bound.
-/
namespace InodeBridge

/-- A number by which the kernel names an object. -/
abbrev Inode := UInt64

inductive FileKind where
  | directory
  | regular
  | symlink
  | fifo
  | charDevice
  | blockDevice
  | socket
  deriving DecidableEq, Repr

structure Owner where
  uid : UInt32
  gid : UInt32
  deriving DecidableEq, Repr

/-- What storage says of an object. -/
structure Stat where
  kind : FileKind
  size : UInt64
  blocks : UInt64
  accessed : Timestamp
  modified : Timestamp
  changed : Timestamp
  permissions : UInt16
  links : UInt32
  owner : Owner
  device : UInt32
  blockSize : UInt32
  deriving DecidableEq, Repr

/-- What the kernel is told of an object. -/
structure Attributes extends Stat where
  inode : Inode
  deriving DecidableEq, Repr

namespace Attributes

def ofStat (inode : Inode) (stat : Stat) : Attributes := { stat with inode }

def withOwner (a : Attributes) (owner : Owner) : Attributes :=
  { a with toStat := { a.toStat with owner } }

end Attributes

structure Capacity where
  blocks : UInt64
  freeBlocks : UInt64
  availableBlocks : UInt64
  files : UInt64
  freeFiles : UInt64
  blockSize : UInt32
  nameMax : UInt32
  fragmentSize : UInt32
  deriving DecidableEq, Repr

/-- The capacity reported where storage reports none. -/
def Capacity.fallback : Capacity where
  blocks := 1000000
  freeBlocks := 500000
  availableBlocks := 500000
  files := 1000000
  freeFiles := 500000
  blockSize := 4096
  nameMax := 255
  fragmentSize := 4096

end InodeBridge
