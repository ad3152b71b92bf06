import InodeBridge.Errno
import InodeBridge.Host.Objects

/-! # From paths to objects

A host takes a path apart at its separators and goes from directory to directory.  A link on the way
leads on to its content, at most forty times for one path.  The last step may lead to an entry that
is not there; a path that ends in a separator must lead to a directory.  Who walks along a path says
what to do at its end.
-/
namespace InodeBridge.Host

/-- The most bytes of a name, of a path, and the most links on the way. -/
def nameMax : Nat := 255
def pathMax : Nat := 4095
def linkMax : Nat := 40

/-- Where a path leads: to an object, or to a name that a directory does not have. -/
inductive Spot where
  | found (id : ObjectId)
  | vacant (directory : ObjectId) (name : Name)
  deriving DecidableEq, Repr

structure Route where
  start : ObjectId
  names : List Name
  endsInSlash : Bool

/-- The route of a path that starts in a directory unless it starts at the root. -/
def route (h : Host) (directory : ObjectId) (path : Bytes) : Route where
  start := if path.head? = some slash then h.root else directory
  names := (path.splitOn slash).filter fun name => !name.isEmpty
  endsInSlash := path.getLast? = some slash

inductive PathEnd where
  /-- A link is not followed, unless a separator comes after it. -/
  | keep
  | follow
  /-- A link is followed, and the last name must be one that a file can have. -/
  | create
  deriving DecidableEq, Repr

abbrev LookUp := ObjectId → Name → Except Errno (Option ObjectId)

def findEntry (h : Host) : LookUp := fun directory name =>
  if nameMax < name.length then .error Errno.nameTooLong else .ok (h.entry? directory name)

/-- How a walk goes on at a link in a directory, given its content and the names after it. -/
abbrev Follow := ObjectId → Bytes → List Name → Bool → Except Errno (Spot × Bool)

/-- Walks along some names.  Gives where the walk ends, and whether a separator came after that. -/
def walkWith (h : Host) (lookUp : LookUp) (follow : Follow) (atEnd : PathEnd)
    (endsInSlash : Bool) : ObjectId → List Name → Except Errno (Spot × Bool)
  | current, [] => .ok (.found current, endsInSlash)
  | current, name :: rest =>
    if !h.isDirectory current then .error Errno.notDirectory
    else if name = Name.here then walkWith h lookUp follow atEnd endsInSlash current rest
    else if name = Name.above then
      walkWith h lookUp follow atEnd endsInSlash (h.parent current) rest
    else if rest.isEmpty && atEnd = .create && endsInSlash then .error Errno.isDirectory
    else match lookUp current name with
      | .error e => .error e
      | .ok none =>
        if rest.isEmpty then .ok (.vacant current name, endsInSlash) else .error Errno.noEntry
      | .ok (some id) =>
        match h.linkContent? id with
        | some content =>
          if rest.isEmpty && atEnd = .keep && !endsInSlash then .ok (.found id, endsInSlash)
          else follow current content rest endsInSlash
        | none => walkWith h lookUp follow atEnd endsInSlash id rest

def walk (h : Host) (lookUp : LookUp) (atEnd : PathEnd) : Nat → Bool → ObjectId → List Name →
    Except Errno (Spot × Bool)
  | 0, endsInSlash => walkWith h lookUp (fun _ _ _ _ => .error Errno.linkLoop) atEnd endsInSlash
  | links + 1, endsInSlash =>
    let follow : Follow := fun directory content rest endsInSlash =>
      let r := h.route directory content
      let endsInSlash := endsInSlash || (rest.isEmpty && r.endsInSlash)
      walk h lookUp atEnd links endsInSlash r.start (r.names ++ rest)
    walkWith h lookUp follow atEnd endsInSlash

/-- The route of a path given by the process; an empty path leads nowhere. -/
def routeOf (h : Host) (path : Path) : Except Errno Route :=
  if path.bytes.isEmpty then .error Errno.noEntry
  else if pathMax < path.bytes.length then .error Errno.nameTooLong
  else .ok (h.route h.workingDirectory path.bytes)

def locate (h : Host) (atEnd : PathEnd) (path : Path) : Except Errno (Spot × Bool) := do
  let r ← h.routeOf path
  h.walk h.findEntry atEnd linkMax r.endsInSlash r.start r.names

def find (h : Host) (atEnd : PathEnd) (path : Path) : Except Errno ObjectId := do
  match ← h.locate atEnd path with
  | (.vacant .., _) => .error Errno.noEntry
  | (.found id, endsInSlash) =>
    if endsInSlash && !h.isDirectory id then .error Errno.notDirectory else .ok id

inductive LastStep where
  | none
  | here
  | above
  | entry (name : Name)
  deriving DecidableEq, Repr

structure Place where
  directory : ObjectId
  last : LastStep
  endsInSlash : Bool

/-- The directory in which the last step of a path is made, and that step. -/
def place (h : Host) (path : Path) : Except Errno Place := do
  let r ← h.routeOf path
  match r.names.getLast? with
  | none => .ok ⟨r.start, .none, r.endsInSlash⟩
  | some name =>
    match ← h.walk h.findEntry .follow linkMax false r.start r.names.dropLast with
    | (.vacant .., _) => .error Errno.noEntry
    | (.found directory, _) =>
      if !h.isDirectory directory then .error Errno.notDirectory
      else
        let last : LastStep :=
          if name = Name.here then .here else if name = Name.above then .above else .entry name
        .ok ⟨directory, last, r.endsInSlash⟩

/-- Whether a way up from a directory, of at most so many steps, meets another one. -/
def climbMeets (h : Host) (directory : ObjectId) : Nat → ObjectId → Bool
  | 0, id => id == directory
  | steps + 1, id => id == directory || (id != h.root && climbMeets h directory steps (h.parent id))

def isAtOrAbove (h : Host) (upper lower : ObjectId) : Bool :=
  h.climbMeets upper h.objects.size lower

/-- The names from the root to a directory, the last ones if they are more than so many. -/
def namesTo (h : Host) : Nat → ObjectId → List Name
  | 0, _ => []
  | steps + 1, id =>
    if id = h.root then []
    else
      let above := h.parent id
      match (h.entries? above).bind fun es => es.entries.find? fun e => e.2 == id with
      | some (name, _) => namesTo h steps above ++ [name]
      | none => []

def canonicalPath (h : Host) (directory : ObjectId) : Path :=
  ⟨slash :: Bytes.joinWith slash (h.namesTo h.objects.size directory)⟩

/-- The object that a name has in a directory, looked up by a path without links or dots. -/
def findByPath (h : Host) : LookUp := fun directory name =>
  if pathMax < ((h.canonicalPath directory).child name).bytes.length then
    .error Errno.nameTooLong
  else h.findEntry directory name

/-- The path without links or dots of the directory to which a path leads.  Each object on the way
is looked up by such a path, so a path of any length will do if these are not too long. -/
def canonicalDirectory (h : Host) (path : Path) : Except Errno Path := do
  let r := h.route h.workingDirectory path.bytes
  if path.bytes.isEmpty then .error Errno.noEntry
  else match ← h.walk h.findByPath .follow linkMax r.endsInSlash r.start r.names with
    | (.vacant .., _) => .error Errno.noEntry
    | (.found id, _) =>
      if h.isDirectory id then .ok (h.canonicalPath id) else .error Errno.notDirectory

end InodeBridge.Host
