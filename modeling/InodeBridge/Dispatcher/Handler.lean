import InodeBridge.HandleTable
import InodeBridge.InodeTable
import InodeBridge.MountOptions
import InodeBridge.Outcome
import InodeBridge.Request

/-! # The state of a dispatcher and the steps of its handlers

A handler is a program of storage calls that may read and change the two tables and may fail.  What
it changed before it failed stays changed.
-/
namespace InodeBridge

open Storage (Call)

structure OpenFile where
  inode : Inode
  fd : Descriptor
  mode : OpenMode
  deriving DecidableEq, Repr

structure Dispatcher where
  options : MountOptions
  inodes : InodeTable
  handles : HandleTable OpenFile

namespace Dispatcher

/-- The state in which nothing is bound but the root and nothing is open, for any numbering. -/
def start (number : Numbering) (options : MountOptions) (root : Path) : Dispatcher where
  options := options
  inodes := .withNumbering number root
  handles := .new

def new (options : MountOptions) (root : Path) : Dispatcher :=
  start (Numbering.underRoot root) options root

abbrev Action := StateT Dispatcher Program

abbrev Handler := ExceptT RequestError Action

namespace Handler

/-- Makes a storage call and goes on with whatever it gives. -/
def attempt (c : Call) : Handler c.Result := ExceptT.lift (StateT.lift (Program.perform c))

def performOr (blame : StorageError → RequestError) (c : Call) : Handler c.Answer := do
  match ← attempt c with
  | .ok answer => pure answer
  | .error e => throw (blame e)

def perform (c : Call) : Handler c.Answer := performOr .storage c

def resolve (inode : Inode) : Handler Path := do
  match (← get).inodes.resolve? inode with
  | some path => pure path
  | none => throw (.unknownInode inode)

def withInodes {α : Type} (f : InodeTable → α × InodeTable) : Handler α :=
  modifyGet fun d =>
    let (a, inodes) := f d.inodes
    (a, { d with inodes })

def withHandles {α : Type} (f : HandleTable OpenFile → α × HandleTable OpenFile) : Handler α :=
  modifyGet fun d =>
    let (a, handles) := f d.handles
    (a, { d with handles })

/-- The path of an entry of a directory; the name is checked before the directory. -/
def childPath (parent : Inode) (name : Name) : Handler Path := do
  unless name.isEntry do throw (.badName name)
  return (← resolve parent).child name

def openFile (handle : Handle) : Handler OpenFile := do
  match (← get).handles.get? handle with
  | some file => pure file
  | none => throw (.unknownHandle handle)

def position (offset : Int64) : Handler UInt64 :=
  if offset < 0 then throw (.badOffset offset) else pure offset.toUInt64

/-- Describes what is at a path and binds the path for the kernel; a path that cannot be described
is not bound. -/
def bindEntry (path : Path) : Handler EntryReply := do
  let stat ← perform (.stat path)
  let inode ← withInodes (·.bindLookup path)
  let options := (← get).options
  return {
    attributes := options.attributes inode stat
    generation := options.generation
    attrTtl := options.attrTtl
    entryTtl := options.entryTtl }

def describe (inode : Inode) (path : Path) : Handler Attributes := do
  let stat ← perform (.stat path)
  return (← get).options.attributes inode stat

end Handler

/-- The directory above a path, never above the root. -/
def parentWithin (root path : Path) : Path :=
  match path.parent? with
  | some parent =>
    if path.components ≠ root.components ∧ parent.isWithin root then parent else root
  | none => root

end Dispatcher
end InodeBridge
