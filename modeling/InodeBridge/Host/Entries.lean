import InodeBridge.Host.Resolve

/-! # Making, moving and removing entries

Each operation gives the host after it, or the number of a failure, which leaves the host as it was.
The process takes some permissions away from the objects it makes.
-/
namespace InodeBridge.Host

/-- The permissions of a mode that a new object gets, of those that are allowed. -/
def permitted (h : Host) (allowed mode : UInt32) : UInt16 :=
  (mode &&& allowed).toUInt16 &&& ~~~h.umask

/-- The directory and the name for a new entry.  Only the path of a new directory may end in a
separator. -/
def vacancy (h : Host) (path : Path) (forDirectory : Bool) : Except Errno (ObjectId × Name) := do
  let p ← h.place path
  match p.last with
  | .entry name =>
    if (← h.findEntry p.directory name).isSome then .error Errno.alreadyExists
    else if p.endsInSlash && !forDirectory then .error Errno.noEntry
    else .ok (p.directory, name)
  | _ => .error Errno.alreadyExists

def add (h : Host) (directory : ObjectId) (name : Name) (node : Node) (permissions : UInt16) :
    ObjectId × Host :=
  let (id, made) := h.make node permissions
  (id, made.attach directory name id)

/-- The bit of a directory that passes its group on to what is made in it. -/
def passesGroup : UInt16 := 0o2000

def mkdir (h : Host) (path : Path) (mode : UInt32) : Except Errno Host := do
  let (directory, name) ← h.vacancy path true
  let inherited := (h.object? directory).elim 0 fun o => o.permissions &&& passesGroup
  .ok (h.add directory name (.directory .empty directory) (h.permitted 0o1777 mode ||| inherited)).2

def mknod (h : Host) (path : Path) (node : Node) (mode : UInt32) : Except Errno Host := do
  let (directory, name) ← h.vacancy path false
  .ok (h.add directory name node (h.permitted 0o7777 mode)).2

/-- Makes a link; its content is not looked at, but has the length of a path. -/
def symlink (h : Host) (content path : Path) : Except Errno Host := do
  if content.bytes.isEmpty then .error Errno.noEntry
  else if pathMax < content.bytes.length then .error Errno.nameTooLong
  else
    let (directory, name) ← h.vacancy path false
    .ok (h.add directory name (.symlink content.bytes) 0o777).2

/-- Gives an object that is not a directory one more name. -/
def link (h : Host) (source target : Path) : Except Errno Host := do
  let id ← h.find .keep source
  let (directory, name) ← h.vacancy target false
  if h.isDirectory id then .error Errno.notPermitted else .ok (h.attach directory name id)

def unlink (h : Host) (path : Path) : Except Errno Host := do
  let p ← h.place path
  match p.last with
  | .entry name =>
    match ← h.findEntry p.directory name with
    | none => .error Errno.noEntry
    | some id =>
      if h.isDirectory id then .error Errno.isDirectory
      else if p.endsInSlash then .error Errno.notDirectory
      else .ok (h.detach p.directory name)
  | _ => .error Errno.isDirectory

def rmdir (h : Host) (path : Path) : Except Errno Host := do
  let p ← h.place path
  match p.last with
  | .above => .error Errno.notEmpty
  | .here => .error Errno.invalid
  | .none => .error Errno.busy
  | .entry name =>
    match ← h.findEntry p.directory name with
    | none => .error Errno.noEntry
    | some id =>
      match h.entries? id with
      | none => .error Errno.notDirectory
      | some entries =>
        if entries.size = 0 then .ok (h.detach p.directory name) else .error Errno.notEmpty

/-- Whether an object can take the place of another one: a directory that of an empty directory, and
any other that of one that is not a directory. -/
def checkReplaces (h : Host) (moved replaced : ObjectId) : Except Errno Unit :=
  match h.isDirectory moved, h.entries? replaced with
  | true, none => .error Errno.notDirectory
  | false, some _ => .error Errno.isDirectory
  | true, some entries => if entries.size = 0 then .ok () else .error Errno.notEmpty
  | false, none => .ok ()

/-- Moves an object from one name to another.  A directory does not get below itself, and two names
of one object stay as they are. -/
def rename (h : Host) (source target : Path) : Except Errno Host := do
  let old ← h.place source
  let new ← h.place target
  match old.last, new.last with
  | .entry oldName, .entry newName =>
    match ← h.findEntry old.directory oldName with
    | none => .error Errno.noEntry
    | some moved =>
      let replaced ← h.findEntry new.directory newName
      let renamed := (h.detach old.directory oldName).attach new.directory newName moved
      if !h.isDirectory moved && (old.endsInSlash || new.endsInSlash) then
        .error Errno.notDirectory
      else if h.isAtOrAbove moved new.directory then .error Errno.invalid
      else match replaced with
        | none => .ok renamed
        | some replaced =>
          if h.isAtOrAbove replaced old.directory then .error Errno.notEmpty
          else if replaced = moved then .ok h
          else
            h.checkReplaces moved replaced
            .ok renamed
  | _, _ => .error Errno.busy

end InodeBridge.Host
