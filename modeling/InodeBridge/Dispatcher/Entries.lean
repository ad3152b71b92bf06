import InodeBridge.Dispatcher.Handler

/-! # Requests about directory entries and attributes -/
namespace InodeBridge.Dispatcher

open Handler

/-- The path that a name in a directory stands for; the names by which a directory refers to itself
and to the one above it are allowed. -/
def lookupPath (parent : Inode) (name : Name) : Handler Path := do
  if name = Name.here then resolve parent
  else if name = Name.above then
    let path ← resolve parent
    return parentWithin (← get).inodes.root path
  else childPath parent name

def lookup (parent : Inode) (name : Name) : Handler Outcome := do
  return .entry (← bindEntry (← lookupPath parent name))

def getattr (inode : Inode) : Handler Outcome := do
  let attributes ← describe inode (← resolve inode)
  return .attributes attributes (← get).options.attrTtl

/-- Changes the length of a file, through the handle if it is a writable one of that very inode. -/
def setSize (inode : Inode) (path : Path) (handle : Option Handle) (size : UInt64) :
    Handler Unit := do
  let file := handle.bind (← get).handles.get?
  match file.filter fun file => file.inode == inode && file.mode.isWritable with
  | some file => performOr .attributeChange (.truncateOpen file.fd size)
  | none => performOr .attributeChange (.truncate path size)

/-- Changes mode, length and times in this order; a change of owner is ignored. -/
def setattr (inode : Inode) (changes : AttributeChanges) : Handler Outcome := do
  let path ← resolve inode
  if let some mode := changes.mode then performOr .attributeChange (.chmod path mode)
  if let some size := changes.size then setSize inode path changes.handle size
  if changes.accessed.isSome || changes.modified.isSome then
    performOr .attributeChange (.setTimes path changes.accessed changes.modified)
  let attributes ← describe inode path
  return .attributes attributes (← get).options.attrTtl

def readlink (inode : Inode) : Handler Outcome := do
  let path ← resolve inode
  return .linkContent (← perform (.readlink path))

def mkdir (parent : Inode) (name : Name) (mode : UInt32) : Handler Outcome := do
  let path ← childPath parent name
  perform (.mkdir path mode)
  return .entry (← bindEntry path)

/-- Creates a file and opens it; the descriptor is closed again if the file cannot be described. -/
def create (parent : Inode) (name : Name) (mode : UInt32) : Handler Outcome := do
  let path ← childPath parent name
  let fd ← perform (.create path mode)
  let entry ← try bindEntry path catch e =>
    let _ ← attempt (.close fd)
    throw e
  let handle ← withHandles (·.insert ⟨entry.attributes.inode, fd, .readWrite⟩)
  return .created entry ⟨handle, 0⟩

def unlink (parent : Inode) (name : Name) : Handler Outcome := do
  let path ← childPath parent name
  perform (.unlink path)
  let _ ← withInodes (·.unbindPath path)
  return .ok

/-- Removes an empty directory; what is bound below it stays bound. -/
def rmdir (parent : Inode) (name : Name) : Handler Outcome := do
  let path ← childPath parent name
  perform (.rmdir path)
  let _ ← withInodes (·.unbindPath path)
  return .ok

def symlink (parent : Inode) (name : Name) (content : Path) : Handler Outcome := do
  let path ← childPath parent name
  perform (.symlink content path)
  return .entry (← bindEntry path)

/-- Renames an entry; the policy says what becomes of the inodes. -/
def rename (parent : Inode) (name : Name) (newParent : Inode) (newName : Name) :
    Handler Outcome := do
  let source ← childPath parent name
  let target ← childPath newParent newName
  perform (.rename source target)
  match (← get).options.renamePolicy with
  | .move =>
    let _ ← withInodes (·.rename source target)
  | .rebind =>
    let _ ← withInodes (·.unbindPath target)
    let _ ← withInodes (·.bind target)
  return .ok

def link (inode newParent : Inode) (newName : Name) : Handler Outcome := do
  let source ← resolve inode
  let target ← childPath newParent newName
  perform (.link source target)
  return .entry (← bindEntry target)

end InodeBridge.Dispatcher
