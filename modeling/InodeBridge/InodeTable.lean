import InodeBridge.Attributes
import InodeBridge.Blake3
import InodeBridge.FiniteMap
import InodeBridge.Path

/-! # Inodes and the paths they stand for

The table maps inodes to paths and back.  An inode is derived from the spelling of its path, with a
salt that is raised until the number is free, so a path gets the same inode whenever nothing else
holds it.  Paths are told apart by location; the spelling is kept.

An entry counts the references that the kernel holds to it.  Forgetting them all drops the entry,
except for the root, which is always bound.
-/
namespace InodeBridge

/-- The inode of the directory that is served. -/
def rootInode : Inode := 1

abbrev Numbering := Path → UInt64 → Inode

/-- The numbering under a root: the hash of the spelling, and of the salt if it is not zero, under a
key derived from the root. -/
def Numbering.underRoot (root : Path) : Numbering :=
  let key := Blake3.deriveKey "pathfuse inode identifiers v1" root.bytes
  fun path salt =>
    let salted := if salt = 0 then path.bytes else path.bytes ++ Bytes.ofWord64 salt
    Blake3.firstWord64 (Blake3.keyedHash key salted)

namespace InodeTable

structure Entry where
  path : Path
  /-- The references that the kernel holds.  A count in 64 bits gives the same: a request adds at most
  one, so fewer than `2 ^ 64` requests do not overflow it. -/
  lookups : Nat
  deriving DecidableEq, Repr

/-- The inode of a location, and how the location was spelled when it was bound. -/
structure Binding where
  spelling : Path
  inode : Inode
  deriving DecidableEq, Repr

end InodeTable

/-- The two directions of the mapping, with the root and the numbering they are for. -/
structure InodeTable where
  number : Numbering
  root : Path
  byInode : FiniteMap Inode InodeTable.Entry
  byLocation : FiniteMap Location InodeTable.Binding

namespace InodeTable

def withNumbering (number : Numbering) (root : Path) : InodeTable where
  number := number
  root := root
  byInode := FiniteMap.empty.insert rootInode ⟨root, 1⟩
  byLocation := FiniteMap.empty.insert root.components ⟨root, rootInode⟩

def new (root : Path) : InodeTable := withNumbering (Numbering.underRoot root) root

def size (t : InodeTable) : Nat := t.byInode.size

/-- Whether no inode is bound but the root. -/
def isEmpty (t : InodeTable) : Bool := t.size ≤ 1

def resolve? (t : InodeTable) (inode : Inode) : Option Path := (t.byInode.get? inode).map (·.path)

def lookups? (t : InodeTable) (inode : Inode) : Option Nat :=
  (t.byInode.get? inode).map (·.lookups)

def inodeOf? (t : InodeTable) (path : Path) : Option Inode :=
  (t.byLocation.get? path.components).map (·.inode)

/-- Whether a number can be given to a new path: it is neither zero nor the root's, and not held. -/
def isFree (t : InodeTable) (inode : Inode) : Bool :=
  rootInode < inode && !t.byInode.contains inode

/-- The first free number of a path, from a salt on, within as many salts as the fuel allows. -/
def freeFrom? (t : InodeTable) (path : Path) : Nat → UInt64 → Option Inode
  | 0, _ => none
  | fuel + 1, salt =>
    let candidate := t.number path salt
    if t.isFree candidate then some candidate else freeFrom? t path fuel (salt + 1)

def free? (t : InodeTable) (path : Path) : Option Inode := t.freeFrom? path UInt64.size 0

/-- Binds a path, with some references by the kernel, to the inode it has or to a free one.  Zero
stands for the inode if the path is unbound and none of its numbers is free. -/
def insert (t : InodeTable) (path : Path) (lookups : Nat) : Inode × InodeTable :=
  match t.inodeOf? path with
  | some inode =>
    (inode, { t with
      byInode := t.byInode.modify inode fun e => { e with lookups := e.lookups + lookups } })
  | none =>
    match t.free? path with
    | some inode =>
      (inode, { t with
        byInode := t.byInode.insert inode ⟨path, lookups⟩
        byLocation := t.byLocation.insert path.components ⟨path, inode⟩ })
    | none => (0, t)

/-- Binds a path without a reference by the kernel, as a listing does. -/
def bind (t : InodeTable) (path : Path) : Inode × InodeTable := t.insert path 0

/-- Binds a path with one more reference by the kernel, as each new entry handed to it does. -/
def bindLookup (t : InodeTable) (path : Path) : Inode × InodeTable := t.insert path 1

/-- Drops the location of a path if it is the given inode's. -/
def eraseLocation (t : InodeTable) (path : Path) (inode : Inode) : InodeTable :=
  if t.inodeOf? path = some inode then
    { t with byLocation := t.byLocation.erase path.components }
  else t

def unbind (t : InodeTable) (inode : Inode) : InodeTable :=
  if inode = rootInode then t
  else match t.byInode.get? inode with
    | none => t
    | some entry => { t with byInode := t.byInode.erase inode }.eraseLocation entry.path inode

/-- Drops the inode bound to a path, unless it is the root, and says which it was. -/
def unbindPath (t : InodeTable) (path : Path) : Option Inode × InodeTable :=
  match t.inodeOf? path with
  | none => (none, t)
  | some inode =>
    if inode = rootInode then (none, t)
    else (some inode, { t with
      byInode := t.byInode.erase inode
      byLocation := t.byLocation.erase path.components })

def renamedPath (source target path : Path) : Path :=
  match path.relativeTo? source with
  | some rest => if rest.bytes.isEmpty then target else target.join rest
  | none => path

/-- Moves one binding to where a rename takes it; an inode found there is dropped. -/
def relocate (source target : Path) (t : InodeTable) (moved : Location × Binding) : InodeTable :=
  let path := renamedPath source target moved.2.spelling
  let inode := moved.2.inode
  let others := t.byLocation.erase moved.1
  let previous := others.get? path.components
  let byInode := match previous with
    | some old => if old.inode = inode then t.byInode else t.byInode.erase old.inode
    | none => t.byInode
  { t with
    byLocation := others.insert path.components ⟨(previous.map (·.spelling)).getD path, inode⟩
    byInode := byInode.modify inode fun e => { e with path } }

/-- Moves some bindings one after the other, after the inode at the target has been dropped. -/
def renameVisiting (t : InodeTable) (source target : Path) (order : List (Location × Binding)) :
    InodeTable :=
  order.foldl (relocate source target) (t.unbindPath target).2

def bindingsWithin (t : InodeTable) (base : Path) : List (Location × Binding) :=
  t.byLocation.entries.filter fun e => base.components.isPrefixOf e.1

/-- Moves every inode at or below the source to the same place below the target, where whatever was
bound is dropped; gives the inode then bound to the target. -/
def rename (t : InodeTable) (source target : Path) : Option Inode × InodeTable :=
  if source.components = target.components then (t.inodeOf? target, t)
  else
    let cleared := (t.unbindPath target).2
    let moved := t.renameVisiting source target (cleared.bindingsWithin source)
    (moved.inodeOf? target, moved)

/-- Takes references of the kernel away; an inode without any is dropped, unless it is the root, and
the answer says whether it was. -/
def forget (t : InodeTable) (inode : Inode) (lookups : Nat) : Bool × InodeTable :=
  if inode = rootInode then (false, t)
  else match t.byInode.get? inode with
    | none => (false, t)
    | some entry =>
      let left := entry.lookups - lookups
      if 0 < left then
        (false, { t with byInode := t.byInode.insert inode { entry with lookups := left } })
      else (true, t.unbind inode)

end InodeTable
end InodeBridge
