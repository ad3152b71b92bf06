import InodeBridge.Attributes
import InodeBridge.Path

/-! # Listings within a budget of bytes

A listing is sent as records: a header of 24 bytes and the name, padded to a multiple of eight.  A
buffer takes records while they fit its budget.
-/
namespace InodeBridge

structure DirectoryEntry where
  inode : Inode
  /-- From where to go on to get the entry after this one. -/
  offset : Int64
  kind : FileKind
  name : Name
  deriving DecidableEq, Repr

def recordSize (name : Name) : Nat := (24 + name.length + 7) / 8 * 8

/-- Records, with the bytes they may take and those they do take. -/
structure DirectoryBuffer where
  budget : Nat
  used : Nat
  entries : List DirectoryEntry
  deriving DecidableEq, Repr

namespace DirectoryBuffer

def new (budget : Nat) : DirectoryBuffer := ⟨budget, 0, []⟩

/-- Adds a record at the end; none if it does not fit. -/
def add? (b : DirectoryBuffer) (e : DirectoryEntry) : Option DirectoryBuffer :=
  let used := b.used + recordSize e.name
  if b.budget < used then none else some { b with used, entries := b.entries ++ [e] }

/-- Whether nothing was added, which ends a listing. -/
def isEmpty (b : DirectoryBuffer) : Bool := b.entries.isEmpty

def size (b : DirectoryBuffer) : Nat := b.entries.length

/-- Adds records until one does not fit, and says whether all of them did. -/
def fill (b : DirectoryBuffer) : List DirectoryEntry → DirectoryBuffer × Bool
  | [] => (b, true)
  | e :: es =>
    match b.add? e with
    | some b => b.fill es
    | none => (b, false)

end DirectoryBuffer
end InodeBridge
