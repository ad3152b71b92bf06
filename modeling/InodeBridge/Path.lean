import InodeBridge.Bytes

/-! # Paths

A path is the string of bytes it was spelled with.  Its *components* are what the spelling means:
repeated separators and inner dots stand for nothing, so `/t/a`, `/t//a`, `/t/./a` and `/t/a/` have
the same components and share one *location*.  A leading dot and every `..` do count.

Spellings survive: a join keeps both spellings, and the part of a path below another one is spelled
as it was in the longer path.
-/
namespace InodeBridge

def slash : UInt8 := 0x2f

def fullStop : UInt8 := 0x2e

/-- The name of one directory entry, or a string of bytes offered as one. -/
abbrev Name := Bytes

namespace Name

/-- The name by which a directory refers to itself. -/
def here : Name := [fullStop]

/-- The name by which a directory refers to the one above it. -/
def above : Name := [fullStop, fullStop]

/-- Whether a name can be that of an entry: one component, and not a reference to a directory. -/
def isEntry (name : Name) : Bool :=
  !(name.isEmpty || name.contains slash || name == here || name == above)

end Name

inductive Component where
  | root
  | here
  | above
  | entry (name : Name)
  deriving DecidableEq, Repr

/-- The steps of a path; paths with equal steps are spellings of one location. -/
abbrev Location := List Component

structure Path where
  bytes : Bytes
  deriving DecidableEq, Repr

namespace Path

instance : Inhabited Path := ⟨⟨[]⟩⟩

def ofString (s : String) : Path := ⟨Bytes.ofString s⟩

/-- A spelling as its first byte, where that is a step of its own, and the rest: a separator is the
root, and a full stop that is alone or before a separator is the current directory. -/
def splitLead : Bytes → Bytes × Bytes
  | [] => ([], [])
  | b :: rest =>
    if b = slash then ([b], rest)
    else if b = fullStop ∧ (rest = [] ∨ rest.head? = some slash) then ([b], rest)
    else ([], b :: rest)

theorem splitLead_append (bs : Bytes) : (splitLead bs).1 ++ (splitLead bs).2 = bs := by
  cases bs with
  | nil => rfl
  | cons b rest =>
    simp only [splitLead]
    split
    · rfl
    · split <;> rfl

/-- The first byte of the spelling, if it is a step of its own. -/
def lead (p : Path) : Bytes := (splitLead p.bytes).1

/-- The pieces between the separators, after the leading step. -/
def pieces (p : Path) : List Bytes := (splitLead p.bytes).2.splitOn slash

def isBlank (piece : Bytes) : Bool := piece.isEmpty || piece == Name.here

def stepOf (piece : Bytes) : Option Component :=
  if isBlank piece then none
  else if piece = Name.above then some .above
  else some (.entry piece)

def leadStep (lead : Bytes) : List Component :=
  if lead = [slash] then [.root] else if lead = [] then [] else [.here]

def components (p : Path) : Location := leadStep p.lead ++ p.pieces.filterMap stepOf

def isAbsolute (p : Path) : Bool := p.bytes.head? == some slash

def trimEnd (pieces : List Bytes) : List Bytes :=
  (pieces.reverse.dropWhile isBlank).reverse

/-- The pieces after the first `n` that are not blank, without blanks around them. -/
def dropSteps : Nat → List Bytes → List Bytes
  | 0, pieces => trimEnd (pieces.dropWhile isBlank)
  | n + 1, pieces => dropSteps n (pieces.dropWhile isBlank).tail

/-- One path below another: an absolute path stands for itself, and any other is appended after a
separator, unless there is one already or nothing before it. -/
def join (p q : Path) : Path :=
  if q.isAbsolute then q
  else if p.bytes.isEmpty || p.bytes.getLast? == some slash then ⟨p.bytes ++ q.bytes⟩
  else ⟨p.bytes ++ slash :: q.bytes⟩

def child (p : Path) (name : Name) : Path := p.join ⟨name⟩

/-- The path without its last step; none if there is no step, or only the root. -/
def parent? (p : Path) : Option Path :=
  match trimEnd p.pieces with
  | [] => if p.lead = [fullStop] then some ⟨[]⟩ else none
  | piece :: pieces =>
    some ⟨p.lead ++ Bytes.joinWith slash (trimEnd (piece :: pieces).dropLast)⟩

def isWithin (p base : Path) : Bool := base.components.isPrefixOf p.components

/-- What a path adds to another one with whose steps it begins. -/
def relativeTo? (p base : Path) : Option Path :=
  if p.isWithin base then
    match base.components.length with
    | 0 => some ⟨p.lead ++ Bytes.joinWith slash (trimEnd p.pieces)⟩
    | n + 1 => some ⟨Bytes.joinWith slash (dropSteps (n + 1 - (leadStep p.lead).length) p.pieces)⟩
  else none

end Path
end InodeBridge
