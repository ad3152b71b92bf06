import InodeBridge.Host.Files

/-! # Building and clearing trees of objects

Operations of several steps with which the objects of a host are put in place.
-/
namespace InodeBridge.Host

/-- Writes a file that holds some bytes and nothing else. -/
def writeFile (h : Host) (path : Path) (data : Bytes) : Except Errno Host := do
  let (id, opened) ← h.openOrCreate path 0o666
  let cut ← opened.resize id true 0
  cut.pwrite id true 0 data

def wayTo : Nat → Path → List Path
  | 0, path => [path]
  | steps + 1, path => (path.parent?.elim [] (wayTo steps)) ++ [path]

def mkdirAll (h : Host) (path : Path) : Host :=
  (wayTo path.components.length path).foldl (fun h p => (h.mkdir p 0o777).toOption.getD h) h

/-- Takes all entries out of a directory and out of those at most so many levels below it. -/
def clear : Nat → ObjectId → Host → Host
  | 0, _, h => h
  | levels + 1, id, h =>
    ((h.entries? id).elim [] (·.values)).foldl (fun h below => clear levels below h)
      (h.alterEntries id fun _ => .empty)

def removeAll (h : Host) (path : Path) : Except Errno Host := do
  let p ← h.place path
  match p.last with
  | .entry name =>
    match ← h.findEntry p.directory name with
    | some id => .ok ((clear h.objects.size id h).detach p.directory name)
    | none => .error Errno.noEntry
  | _ => .error Errno.invalid

end InodeBridge.Host
