import InodeBridge.Attributes

/-! # Options of a mount

By default nothing is cached by the kernel, the generation is constant, and a renamed object keeps
its inode.
-/
namespace InodeBridge

/-- How inodes follow a rename. -/
inductive RenamePolicy where
  /-- The inodes at and below the source move to the destination. -/
  | move
  /-- The destination gets an inode of its own, and the source keeps the one it had. -/
  | rebind
  deriving DecidableEq, Repr

structure MountOptions where
  /-- How long attributes are valid. -/
  attrTtl : Duration := .zero
  /-- How long a name is valid. -/
  entryTtl : Duration := .zero
  generation : UInt64 := 1
  renamePolicy : RenamePolicy := .move
  /-- Reads whose operands are good are put aside for a worker, and answered when it has made them. -/
  asyncReads : Bool := true
  /-- The owner to report of all objects, in place of each object's own. -/
  owner : Option Owner := none
  deriving DecidableEq, Repr

namespace MountOptions

instance : Inhabited MountOptions := ⟨{}⟩

def withTtl (attrTtl entryTtl : Duration) : MountOptions := { attrTtl, entryTtl }

def attributes (options : MountOptions) (inode : Inode) (stat : Stat) : Attributes :=
  match options.owner with
  | some owner => (Attributes.ofStat inode stat).withOwner owner
  | none => Attributes.ofStat inode stat

end MountOptions
end InodeBridge
