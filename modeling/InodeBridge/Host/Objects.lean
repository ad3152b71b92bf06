import InodeBridge.Attributes
import InodeBridge.FiniteMap
import InodeBridge.Host.Content
import InodeBridge.Path

/-! # The objects of a host

A host keeps objects that have an identity of their own.  Directories name objects, and one object
may have several names; it lives on without any while it is open.
-/
namespace InodeBridge

namespace Host

abbrev ObjectId := Nat

inductive Node where
  | file (content : Content)
  | directory (entries : FiniteMap Name ObjectId) (parent : ObjectId)
  | symlink (content : Bytes)
  | fifo
  | socket
  | charDevice (device : UInt32)
  | blockDevice (device : UInt32)

def Node.kind : Node → FileKind
  | .file _ => .regular
  | .directory .. => .directory
  | .symlink _ => .symlink
  | .fifo => .fifo
  | .socket => .socket
  | .charDevice _ => .charDevice
  | .blockDevice _ => .blockDevice

structure Object where
  node : Node
  permissions : UInt16
  owner : Owner
  accessed : Timestamp
  modified : Timestamp
  changed : Timestamp

end Host

open Host (ObjectId Node Object)

/-- The objects of a host and how it acts for one process: where paths start, the permissions it
takes away from new objects, their owner, the time it stamps on what it changes, and the capacity of
its volume. -/
structure Host where
  objects : FiniteMap ObjectId Object
  root : ObjectId
  workingDirectory : ObjectId
  nextObject : ObjectId
  umask : UInt16
  owner : Owner
  clock : Timestamp
  capacity : Capacity

namespace Host

def fresh (umask : UInt16) (clock : Timestamp) (capacity : Capacity) : Host where
  objects := FiniteMap.empty.insert 0
    ⟨.directory FiniteMap.empty 0, 0o755, ⟨0, 0⟩, clock, clock, clock⟩
  root := 0
  workingDirectory := 0
  nextObject := 1
  umask := umask
  owner := ⟨0, 0⟩
  clock := clock
  capacity := capacity

def object? (h : Host) (id : ObjectId) : Option Object := h.objects.get? id

def node? (h : Host) (id : ObjectId) : Option Node := (h.object? id).map (·.node)

def entries? (h : Host) (id : ObjectId) : Option (FiniteMap Name ObjectId) :=
  match h.node? id with
  | some (.directory entries _) => some entries
  | _ => none

def isDirectory (h : Host) (id : ObjectId) : Bool := (h.entries? id).isSome

def parent (h : Host) (id : ObjectId) : ObjectId :=
  match h.node? id with
  | some (.directory _ parent) => parent
  | _ => id

def entry? (h : Host) (directory : ObjectId) (name : Name) : Option ObjectId :=
  (h.entries? directory).bind (·.get? name)

def linkContent? (h : Host) (id : ObjectId) : Option Bytes :=
  match h.node? id with
  | some (.symlink content) => some content
  | _ => none

def content? (h : Host) (id : ObjectId) : Option Content :=
  match h.node? id with
  | some (.file content) => some content
  | _ => none

def alter (h : Host) (id : ObjectId) (f : Object → Object) : Host :=
  { h with objects := h.objects.modify id f }

def make (h : Host) (node : Node) (permissions : UInt16) : ObjectId × Host :=
  (h.nextObject, { h with
    objects := h.objects.insert h.nextObject
      ⟨node, permissions, h.owner, h.clock, h.clock, h.clock⟩
    nextObject := h.nextObject + 1 })

def alterEntries (h : Host) (directory : ObjectId)
    (f : FiniteMap Name ObjectId → FiniteMap Name ObjectId) : Host :=
  h.alter directory fun o =>
    match o.node with
    | .directory entries parent =>
      { o with node := .directory (f entries) parent, modified := h.clock, changed := h.clock }
    | _ => o

/-- Names an object in a directory; a directory is then below it. -/
def attach (h : Host) (directory : ObjectId) (name : Name) (id : ObjectId) : Host :=
  let named := h.alterEntries directory (·.insert name id)
  named.alter id fun o =>
    match o.node with
    | .directory entries _ => { o with node := .directory entries directory, changed := h.clock }
    | _ => { o with changed := h.clock }

def detach (h : Host) (directory : ObjectId) (name : Name) : Host :=
  h.alterEntries directory (·.erase name)

def alterContent (h : Host) (id : ObjectId) (f : Content → Content) : Host :=
  h.alter id fun o =>
    match o.node with
    | .file content =>
      { o with node := .file (f content), modified := h.clock, changed := h.clock }
    | _ => o

/-- The identities that the entries of all directories name, one for each entry. -/
def namedObjects (h : Host) : List ObjectId :=
  h.objects.entries.flatMap fun (_, object) =>
    match object.node with
    | .directory entries _ => entries.values
    | _ => []

/-- How many names an object has; a directory also counts itself and those just below it. -/
def links (h : Host) (id : ObjectId) : Nat :=
  match h.entries? id with
  | some entries => 2 + (entries.values.filter h.isDirectory).length
  | none => (h.namedObjects.filter (· == id)).length

end Host
end InodeBridge
