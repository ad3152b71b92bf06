import InodeBridge.Dispatcher.Handler

/-! # Listing a directory

The records of a listing are the directory itself, the one above it, and the entries in the order of
storage.  They are counted from one, and each carries its count as the offset from which to go on.
Entries that cannot be described are left out, but counted.
-/
namespace InodeBridge.Dispatcher

open Handler

/-- The record at a position of a listing, counted from zero. -/
def record (position : Nat) (inode : Inode) (kind : FileKind) (name : Name) : DirectoryEntry where
  inode := inode
  offset := Int64.ofNat (min (position + 1) 0x7fffffffffffffff)
  kind := kind
  name := name

/-- Adds the records of some entries, given with their positions, while they fit.  Each entry is
described and bound, also the one that no longer fits. -/
def listEntries (directory : Path) :
    List (Name × Nat) → DirectoryBuffer → Handler DirectoryBuffer
  | [], buffer => pure buffer
  | (name, position) :: rest, buffer => do
    match ← attempt (.stat (directory.child name)) with
    | .error _ => listEntries directory rest buffer
    | .ok stat =>
      let inode ← withInodes (·.bind (directory.child name))
      match buffer.add? (record position inode stat.kind name) with
      | some buffer => listEntries directory rest buffer
      | none => pure buffer

def dotRecords (inode parent : Inode) : List DirectoryEntry :=
  [record 0 inode .directory Name.here, record 1 parent .directory Name.above]

def readdir (inode : Inode) (offset : Int64) (budget : Nat) : Handler Outcome := do
  let start := (← position offset).toNat
  let path ← resolve inode
  let names ← perform (.readdir path)
  let parent ← if inode = rootInode then pure rootInode else do
    let root := (← get).inodes.root
    withInodes (·.bind (parentWithin root path))
  let (buffer, allFit) := (DirectoryBuffer.new budget).fill ((dotRecords inode parent).drop start)
  unless allFit do return .directory buffer
  let entries := (names.zipIdx 2).drop (start - 2)
  return .directory (← listEntries path entries buffer)

end InodeBridge.Dispatcher
