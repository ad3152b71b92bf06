import InodeBridge.Attributes
import InodeBridge.Failure

/-! # Storage calls and programs of them

Storage answers calls that name objects by path, or by a descriptor of an open file.  A program is
a computation that may make such calls and go on with the answers, whatever they are; run over a
storage it gives a result and leaves a trace of the calls made.
-/
namespace InodeBridge

abbrev Descriptor := UInt64

inductive OpenMode where
  | readOnly
  | readWrite
  deriving DecidableEq, Repr

def OpenMode.isWritable : OpenMode → Bool
  | .readOnly => false
  | .readWrite => true

namespace Storage

inductive Call where
  /-- Describes an object, a link and not what it leads to. -/
  | stat (path : Path)
  | chmod (path : Path) (mode : UInt32)
  | truncate (path : Path) (size : UInt64)
  | truncateOpen (fd : Descriptor) (size : UInt64)
  | setTimes (path : Path) (accessed modified : Option Timestamp)
  | mkdir (path : Path) (mode : UInt32)
  /-- Creates a file and opens it for reading and writing. -/
  | create (path : Path) (mode : UInt32)
  | unlink (path : Path)
  | rmdir (path : Path)
  | link (source target : Path)
  | symlink (content target : Path)
  | readlink (path : Path)
  | rename (source target : Path)
  | open (path : Path) (mode : OpenMode)
  /-- Reads up to a number of bytes; fewer mean the end of the file. -/
  | read (fd : Descriptor) (offset : UInt64) (size : UInt32)
  | write (fd : Descriptor) (offset : UInt64) (data : Bytes)
  | close (fd : Descriptor)
  /-- Lists the names in a directory, without those of itself and the one above. -/
  | readdir (path : Path)
  | statfs (path : Path)
  deriving DecidableEq, Repr

def Call.Answer : Call → Type
  | .stat _ => Stat
  | .create .. | .open .. => Descriptor
  | .read .. => Bytes
  | .write .. => UInt64
  | .readlink _ => Path
  | .readdir _ => List Name
  | .statfs _ => Capacity
  | _ => Unit

abbrev Call.Result (c : Call) : Type := Except StorageError c.Answer

structure Event where
  call : Call
  result : call.Result

end Storage

open Storage (Call Event)

/-- Something that serves a directory and answers calls, with a state of its own. -/
structure Storage (σ : Type) where
  /-- The directory that is served. -/
  root : Path
  perform : (c : Call) → σ → c.Result × σ

/-- A computation that makes calls to storage. -/
inductive Program (α : Type) where
  | done (result : α)
  | call (c : Call) (next : c.Result → Program α)

namespace Program

variable {α β σ : Type}

def bind : Program α → (α → Program β) → Program β
  | .done a, f => f a
  | .call c next, f => .call c fun r => (next r).bind f

instance : Monad Program where
  pure := .done
  bind := bind

def perform (c : Call) : Program c.Result := .call c .done

structure Run (σ α : Type) where
  result : α
  state : σ
  /-- The calls made, in order. -/
  trace : List Event

def run (s : Storage σ) : Program α → σ → Run σ α
  | .done a, state => ⟨a, state, []⟩
  | .call c next, state =>
    let (r, state) := s.perform c state
    let rest := (next r).run s state
    { rest with trace := ⟨c, r⟩ :: rest.trace }

@[simp] theorem bind_done (a : α) (f : α → Program β) : (Program.done a).bind f = f a := rfl

@[simp] theorem bind_call (c : Call) (next : c.Result → Program α) (f : α → Program β) :
    (Program.call c next).bind f = .call c fun r => (next r).bind f := rfl

theorem bind_done_right (p : Program α) : p.bind .done = p := by
  induction p with
  | done a => rfl
  | call c next ih => simp [ih]

theorem bind_assoc {γ : Type} (p : Program α) (f : α → Program β) (g : β → Program γ) :
    (p.bind f).bind g = p.bind fun a => (f a).bind g := by
  induction p with
  | done a => rfl
  | call c next ih => simp [ih]

instance : LawfulMonad Program :=
  LawfulMonad.mk' Program bind_done_right (fun _ _ => rfl) bind_assoc

end Program

end InodeBridge
