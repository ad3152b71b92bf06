import InodeBridge.FiniteMap

/-! # Handles

A table hands out a number for each value put into it, counting upwards from one.  Zero is never
handed out, and neither is the number of a value that is still in the table.
-/
namespace InodeBridge

/-- Values under the numbers that were handed out for them. -/
structure HandleTable (ν : Type) where
  held : FiniteMap UInt64 ν
  /-- The first number to try for the next value. -/
  next : UInt64

namespace HandleTable

variable {ν : Type}

def new : HandleTable ν := ⟨FiniteMap.empty, 1⟩

instance : Inhabited (HandleTable ν) := ⟨new⟩

def size (t : HandleTable ν) : Nat := t.held.size

def isEmpty (t : HandleTable ν) : Bool := t.size == 0

def get? (t : HandleTable ν) (id : UInt64) : Option ν := t.held.get? id

def contains (t : HandleTable ν) (id : UInt64) : Bool := t.held.contains id

def isFree (t : HandleTable ν) (id : UInt64) : Bool := id != 0 && !t.contains id

/-- The first free number from one on, within as many numbers as the fuel allows. -/
def freeFrom? (t : HandleTable ν) : Nat → UInt64 → Option UInt64
  | 0, _ => none
  | fuel + 1, id => if t.isFree id then some id else freeFrom? t fuel (id + 1)

/-- The number for the next value: of one more numbers than are excluded, one is free. -/
def free? (t : HandleTable ν) : Option UInt64 := t.freeFrom? (t.size + 2) t.next

/-- Puts a value in and gives its number, or zero if all numbers are held. -/
def insert (t : HandleTable ν) (value : ν) : UInt64 × HandleTable ν :=
  match t.free? with
  | some id => (id, ⟨t.held.insert id value, id + 1⟩)
  | none => (0, t)

def remove (t : HandleTable ν) (id : UInt64) : Option ν × HandleTable ν :=
  (t.get? id, { t with held := t.held.erase id })

theorem remove_eq_of_get?_eq_none {t : HandleTable ν} {id : UInt64} (h : t.get? id = none) :
    t.remove id = (none, t) := by
  rw [remove, h, FiniteMap.erase_eq_self h]

def drain (t : HandleTable ν) : List ν × HandleTable ν :=
  (t.held.values, { t with held := FiniteMap.empty })

end HandleTable
end InodeBridge
