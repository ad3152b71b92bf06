import InodeBridge.Proofs.Dispatcher.Listing

/-! # What serving a request can look like

A request whose operands are bad is refused before any call.  Any other makes its calls one after
the other, and a failure among them ends it: what it changes in the tables it changes after the last
call that can fail it.  `Conduct` says this of all requests, with the calls, the answer and the
tables.
-/
namespace InodeBridge

open Storage (Call Event)

theorem OpenMode.isWritable_iff {mode : OpenMode} :
    mode.isWritable = true ↔ mode = .readWrite := by
  cases mode <;> decide

def faultOf {α : Type} : Except RequestError α → Option RequestError
  | .ok _ => none
  | .error e => some e

namespace Storage

/-- The path of the entry that a call makes, without opening it. -/
def Call.made? : Call → Option Path
  | .mkdir path _ | .symlink _ path | .link _ path => some path
  | _ => none

def Call.removed? : Call → Option Path
  | .unlink path | .rmdir path => some path
  | _ => none

/-- Calls made one after the other, until one fails. -/
inductive Tries : List Call → List Event → Option StorageError → Prop
  | done : Tries [] [] none
  | next {c : Call} {answer : c.Answer} {calls : List Call} {events : List Event}
    {failure : Option StorageError} (rest : Tries calls events failure) :
    Tries (c :: calls) (⟨c, .ok answer⟩ :: events) failure
  | fails {c : Call} {calls : List Call} (e : StorageError) :
    Tries (c :: calls) [⟨c, .error e⟩] (some e)

theorem Tries.call_mem {calls : List Call} {events : List Event} {failure : Option StorageError}
    (h : Tries calls events failure) : ∀ event ∈ events, event.call ∈ calls := by
  induction h with
  | done => simp
  | next _ ih =>
    rintro event (_ | ⟨_, hevent⟩)
    · exact List.mem_cons_self
    · exact List.mem_cons_of_mem _ (ih event hevent)
  | fails => simp

/-- A failure is one of a call that was made. -/
theorem Tries.events_ne_nil {calls : List Call} {events : List Event} {e : StorageError}
    (h : Tries calls events (some e)) : events ≠ [] := by
  cases h <;> exact List.cons_ne_nil _ _

end Storage

open Storage (Tries)

def Request.forgotten : Request → List (Inode × UInt64)
  | .forget inode lookups => [(inode, lookups)]
  | .batchForget nodes => nodes
  | _ => []

/-- The answer to a request that needs no call, if nothing is wrong with its operands. -/
def Request.settledBy? : Request → Option Outcome
  | .init | .flush .. | .fsync .. | .releasedir .. | .fsyncdir .. | .access .. => some .ok
  | .opendir .. => some (.opened ⟨0, 0⟩)
  | .mknod .. => some (.unsupported .mknod)
  | .setxattr .. => some (.unsupported .setXattr)
  | .getxattr .. => some (.unsupported .getXattr)
  | .listxattr .. => some (.unsupported .listXattr)
  | .removexattr .. => some (.unsupported .removeXattr)
  | .getlk .. => some (.unsupported .getLock)
  | .setlk .. => some (.unsupported .setLock)
  | .bmap .. => some (.block 0)
  | _ => none

namespace Dispatcher

/-- What is wrong with the operands of a request; they are checked in this order. -/
def fault? (d : Dispatcher) : Request → Option RequestError
  | .lookup parent name => faultOf (d.lookupOf parent name)
  | .getattr inode | .setattr inode _ | .readlink inode | .open inode _ | .opendir inode _ =>
    faultOf (d.pathOf inode)
  | .mkdir parent name _ | .create parent name _ _ | .unlink parent name | .rmdir parent name
  | .symlink parent name _ => faultOf (d.childOf parent name)
  | .rename parent name newParent newName =>
    (faultOf (d.childOf parent name)).or (faultOf (d.childOf newParent newName))
  | .link inode newParent newName =>
    (faultOf (d.pathOf inode)).or (faultOf (d.childOf newParent newName))
  | .read _ handle offset _ => (faultOf (positionOf offset)).or (faultOf (d.fileOf handle))
  | .write _ handle offset _ =>
    (faultOf (positionOf offset)).or ((faultOf (d.fileOf handle)).or
      (((d.handles.get? handle).filter fun file => !file.mode.isWritable).map
        fun _ => .readOnlyHandle handle))
  | .flush _ handle _ | .fsync _ handle _ => faultOf (d.fileOf handle)
  | .readdir inode _ offset _ => (faultOf (positionOf offset)).or (faultOf (d.pathOf inode))
  | _ => none

theorem fault?_read (d : Dispatcher) (inode : Inode) (handle : Handle) (offset : Int64)
    (size : UInt32) :
    d.fault? (.read inode handle offset size) = faultOf (d.targetOf handle offset size) := by
  rw [fault?, targetOf]
  cases positionOf offset with
  | error e => rfl
  | ok position => cases d.fileOf handle <;> rfl

/-- The call with which a request begins once its operands were checked, if its failure fails the
request as it is. -/
inductive Begins (d : Dispatcher) : Request → Call → Prop
  | lookup {parent : Inode} {name : Name} {path : Path}
    (named : d.lookupOf parent name = .ok path) : Begins d (.lookup parent name) (.stat path)
  | getattr {inode : Inode} {path : Path} (bound : d.inodes.resolve? inode = some path) :
    Begins d (.getattr inode) (.stat path)
  | readlink {inode : Inode} {path : Path} (bound : d.inodes.resolve? inode = some path) :
    Begins d (.readlink inode) (.readlink path)
  | mkdir {parent : Inode} {name : Name} {mode : UInt32} {path : Path}
    (named : d.childOf parent name = .ok path) :
    Begins d (.mkdir parent name mode) (.mkdir path mode)
  | create {parent : Inode} {name : Name} {mode : UInt32} {flags : Int32} {path : Path}
    (named : d.childOf parent name = .ok path) :
    Begins d (.create parent name mode flags) (.create path mode)
  | unlink {parent : Inode} {name : Name} {path : Path}
    (named : d.childOf parent name = .ok path) : Begins d (.unlink parent name) (.unlink path)
  | rmdir {parent : Inode} {name : Name} {path : Path}
    (named : d.childOf parent name = .ok path) : Begins d (.rmdir parent name) (.rmdir path)
  | symlink {parent : Inode} {name : Name} {content path : Path}
    (named : d.childOf parent name = .ok path) :
    Begins d (.symlink parent name content) (.symlink content path)
  | rename {parent newParent : Inode} {name newName : Name} {source target : Path}
    (named : d.childOf parent name = .ok source)
    (renamed : d.childOf newParent newName = .ok target) :
    Begins d (.rename parent name newParent newName) (.rename source target)
  | link {inode newParent : Inode} {newName : Name} {source target : Path}
    (bound : d.inodes.resolve? inode = some source)
    (named : d.childOf newParent newName = .ok target) :
    Begins d (.link inode newParent newName) (.link source target)
  | read {inode : Inode} {handle : Handle} {offset : Int64} {size : UInt32} {position : UInt64}
    {file : OpenFile} (placed : positionOf offset = .ok position)
    (held : d.handles.get? handle = some file) :
    Begins d (.read inode handle offset size) (.read file.fd position size)
  | write {inode : Inode} {handle : Handle} {offset : Int64} {data : Bytes} {position : UInt64}
    {file : OpenFile} (placed : positionOf offset = .ok position)
    (held : d.handles.get? handle = some file) (writable : file.mode.isWritable = true) :
    Begins d (.write inode handle offset data) (.write file.fd position data)
  | readdir {inode : Inode} {handle : Handle} {offset : Int64} {budget : Nat} {position : UInt64}
    {path : Path} (placed : positionOf offset = .ok position)
    (bound : d.inodes.resolve? inode = some path) :
    Begins d (.readdir inode handle offset budget) (.readdir path)

/-- The open file through which the length of an inode is changed: the one that was named, if it is
a writable one of that very inode. -/
def sizedThrough? (d : Dispatcher) (inode : Inode) (handle : Option Handle) : Option OpenFile :=
  (handle.bind d.handles.get?).filter fun file => file.inode == inode && file.mode.isWritable

/-- It is the one that was named, if that is held, writable, and of the inode. -/
theorem sizedThrough?_eq_some_iff {d : Dispatcher} {inode : Inode} {handle : Option Handle}
    {file : OpenFile} :
    d.sizedThrough? inode handle = some file ↔ ∃ h, handle = some h ∧
      d.handles.get? h = some file ∧ file.inode = inode ∧ file.mode = .readWrite := by
  rw [sizedThrough?, Option.filter_eq_some_iff, Option.bind_eq_some_iff, Bool.and_eq_true, beq_iff_eq,
    OpenMode.isWritable_iff]
  constructor
  · rintro ⟨⟨h, hhandle, held⟩, hinode, hmode⟩
    exact ⟨h, hhandle, held, hinode, hmode⟩
  · rintro ⟨h, hhandle, held, hinode, hmode⟩
    exact ⟨⟨h, hhandle, held⟩, hinode, hmode⟩

def changeCalls (d : Dispatcher) (inode : Inode) (path : Path) (changes : AttributeChanges) :
    List Call :=
  (changes.mode.map fun mode => .chmod path mode).toList ++
    (changes.size.map fun size =>
      match d.sizedThrough? inode changes.handle with
      | some file => .truncateOpen file.fd size
      | none => .truncate path size).toList ++
    if changes.accessed.isSome || changes.modified.isSome then
      [.setTimes path changes.accessed changes.modified]
    else []

/-- Attributes are changed at the path of the inode or through an open file. -/
theorem mem_changeCalls {d : Dispatcher} {inode : Inode} {path : Path} {changes : AttributeChanges}
    {c : Call} (h : c ∈ d.changeCalls inode path changes) :
    (∃ mode, c = .chmod path mode) ∨
      (∃ file size, d.sizedThrough? inode changes.handle = some file ∧
        c = .truncateOpen file.fd size) ∨
      (∃ size, c = .truncate path size) ∨
        ∃ accessed modified, c = .setTimes path accessed modified := by
  rcases List.mem_append.1 h with h | h
  · rcases List.mem_append.1 h with h | h
    · obtain ⟨mode, _, rfl⟩ := by simpa using h
      exact .inl ⟨mode, rfl⟩
    · obtain ⟨size, _, rfl⟩ := by simpa using h
      split
      next file hthrough => exact .inr (.inl ⟨file, size, hthrough, rfl⟩)
      next => exact .inr (.inr (.inl ⟨size, rfl⟩))
  · split at h
    · exact .inr (.inr (.inr ⟨_, _, List.mem_singleton.1 h⟩))
    · simp at h

theorem exists_close_of_mem {files : List OpenFile} {events : List Event}
    (closes : events.map (·.call) = files.map fun file => .close file.fd) :
    ∀ event ∈ events, ∃ fd, event.call = .close fd := by
  intro event hevent
  have hcall := List.mem_map_of_mem (f := (·.call)) hevent
  rw [closes] at hcall
  obtain ⟨file, _, hfile⟩ := List.mem_map.1 hcall
  exact ⟨file.fd, hfile.symm⟩

/-- What serving a request can look like: the calls made with what they gave, the answer, and the
state after it. -/
inductive Conduct (d : Dispatcher) : Request → List Event → Option Outcome → Dispatcher → Prop
  /-- An operand is bad. -/
  | refused {req : Request} {e : RequestError} (bad : d.fault? req = some e) :
    Conduct d req [] (some (.error e.errno)) d
  /-- No call is needed. -/
  | settled {req : Request} {out : Outcome} (good : d.fault? req = none)
    (settles : req.settledBy? = some out) : Conduct d req [] (some out) d
  /-- The first call fails. -/
  | failed {req : Request} {c : Call} (begins : Begins d req c) (e : StorageError) :
    Conduct d req [⟨c, .error e⟩] (some (.error e.errno)) d
  | found {parent : Inode} {name : Name} {path : Path} (named : d.lookupOf parent name = .ok path)
    (stat : Stat) :
    Conduct d (.lookup parent name) [⟨.stat path, .ok stat⟩]
      (some (.entry (d.entryReply path stat))) (d.handing path)
  | described {inode : Inode} {path : Path} (bound : d.inodes.resolve? inode = some path)
    (stat : Stat) :
    Conduct d (.getattr inode) [⟨.stat path, .ok stat⟩]
      (some (.attributes (d.options.attributes inode stat) d.options.attrTtl)) d
  /-- A change of attributes is rejected. -/
  | rejected {inode : Inode} {changes : AttributeChanges} {path : Path} {events : List Event}
    {e : StorageError} (bound : d.inodes.resolve? inode = some path)
    (tries : Tries (d.changeCalls inode path changes) events (some e)) :
    Conduct d (.setattr inode changes) events
      (some (.error (RequestError.attributeChange e).errno)) d
  | changed {inode : Inode} {changes : AttributeChanges} {path : Path} {events : List Event}
    (bound : d.inodes.resolve? inode = some path)
    (tries : Tries (d.changeCalls inode path changes) events none) (stat : Stat) :
    Conduct d (.setattr inode changes) (events ++ [⟨.stat path, .ok stat⟩])
      (some (.attributes (d.options.attributes inode stat) d.options.attrTtl)) d
  /-- Attributes were changed, but cannot be told. -/
  | untold {inode : Inode} {changes : AttributeChanges} {path : Path} {events : List Event}
    (bound : d.inodes.resolve? inode = some path)
    (tries : Tries (d.changeCalls inode path changes) events none) (e : StorageError) :
    Conduct d (.setattr inode changes) (events ++ [⟨.stat path, .error e⟩])
      (some (.error e.errno)) d
  | followed {inode : Inode} {path : Path} (bound : d.inodes.resolve? inode = some path)
    (content : Path) :
    Conduct d (.readlink inode) [⟨.readlink path, .ok content⟩] (some (.linkContent content)) d
  | made {req : Request} {c : Call} {path : Path} (begins : Begins d req c)
    (makes : c.made? = some path) (answer : c.Answer) (stat : Stat) :
    Conduct d req [⟨c, .ok answer⟩, ⟨.stat path, .ok stat⟩]
      (some (.entry (d.entryReply path stat))) (d.handing path)
  /-- What was made cannot be described. -/
  | unseen {req : Request} {c : Call} {path : Path} (begins : Begins d req c)
    (makes : c.made? = some path) (answer : c.Answer) (e : StorageError) :
    Conduct d req [⟨c, .ok answer⟩, ⟨.stat path, .error e⟩] (some (.error e.errno)) d
  | created {parent : Inode} {name : Name} {mode : UInt32} {flags : Int32} {path : Path}
    {file : OpenFile} (named : d.childOf parent name = .ok path) (stat : Stat)
    (inode : file.inode = (d.entryReply path stat).attributes.inode)
    (writable : file.mode = .readWrite) :
    Conduct d (.create parent name mode flags)
      [⟨.create path mode, .ok file.fd⟩, ⟨.stat path, .ok stat⟩]
      (some (.created (d.entryReply path stat) ⟨(d.handles.insert file).1, 0⟩))
      { d.handing path with handles := (d.handles.insert file).2 }
  /-- What was created cannot be described, and is closed again. -/
  | abandoned {parent : Inode} {name : Name} {mode : UInt32} {flags : Int32} {path : Path}
    (named : d.childOf parent name = .ok path) (fd : Descriptor) (e : StorageError)
    (result : (Call.close fd).Result) :
    Conduct d (.create parent name mode flags)
      [⟨.create path mode, .ok fd⟩, ⟨.stat path, .error e⟩, ⟨.close fd, result⟩]
      (some (.error e.errno)) d
  | removed {req : Request} {c : Call} {path : Path} (begins : Begins d req c)
    (removes : c.removed? = some path) (answer : c.Answer) :
    Conduct d req [⟨c, .ok answer⟩] (some .ok) { d with inodes := (d.inodes.unbindPath path).2 }
  | moved {parent newParent : Inode} {name newName : Name} {source target : Path}
    (policy : d.options.renamePolicy = .move) (named : d.childOf parent name = .ok source)
    (renamed : d.childOf newParent newName = .ok target) :
    Conduct d (.rename parent name newParent newName) [⟨.rename source target, .ok ()⟩] (some .ok)
      { d with inodes := (d.inodes.rename source target).2 }
  | rebound {parent newParent : Inode} {name newName : Name} {source target : Path}
    (policy : d.options.renamePolicy = .rebind) (named : d.childOf parent name = .ok source)
    (renamed : d.childOf newParent newName = .ok target) :
    Conduct d (.rename parent name newParent newName) [⟨.rename source target, .ok ()⟩] (some .ok)
      { d with inodes := ((d.inodes.unbindPath target).2.bind target).2 }
  | opened {inode : Inode} {flags : Int32} {path : Path} {file : OpenFile}
    (bound : d.inodes.resolve? inode = some path) (opens : file.inode = inode)
    (writable : file.mode = .readWrite) :
    Conduct d (.open inode flags) [⟨.open path .readWrite, .ok file.fd⟩]
      (some (.opened ⟨(d.handles.insert file).1, 0⟩))
      { d with handles := (d.handles.insert file).2 }
  /-- The file could not be opened for writing. -/
  | openedToRead {inode : Inode} {flags : Int32} {path : Path} {file : OpenFile}
    (bound : d.inodes.resolve? inode = some path) (opens : file.inode = inode)
    (unwritable : file.mode = .readOnly) (e : StorageError) :
    Conduct d (.open inode flags)
      [⟨.open path .readWrite, .error e⟩, ⟨.open path .readOnly, .ok file.fd⟩]
      (some (.opened ⟨(d.handles.insert file).1, 0⟩))
      { d with handles := (d.handles.insert file).2 }
  | unopened {inode : Inode} {flags : Int32} {path : Path}
    (bound : d.inodes.resolve? inode = some path) (e e' : StorageError) :
    Conduct d (.open inode flags)
      [⟨.open path .readWrite, .error e⟩, ⟨.open path .readOnly, .error e'⟩]
      (some (.error (RequestError.openFailed e').errno)) d
  | fetched {inode : Inode} {handle : Handle} {offset : Int64} {size : UInt32} {position : UInt64}
    {file : OpenFile} (placed : positionOf offset = .ok position)
    (held : d.handles.get? handle = some file) (data : Bytes) :
    Conduct d (.read inode handle offset size) [⟨.read file.fd position size, .ok data⟩]
      (some (.data data)) d
  | stored {inode : Inode} {handle : Handle} {offset : Int64} {data : Bytes} {position : UInt64}
    {file : OpenFile} (placed : positionOf offset = .ok position)
    (held : d.handles.get? handle = some file) (writable : file.mode.isWritable = true)
    (count : UInt64) :
    Conduct d (.write inode handle offset data) [⟨.write file.fd position data, .ok count⟩]
      (some (.written (min count 0xffffffff).toUInt32)) d
  | released {inode : Inode} {handle : Handle} {file : OpenFile}
    (held : d.handles.get? handle = some file) (result : (Call.close file.fd).Result) :
    Conduct d (.release inode handle) [⟨.close file.fd, result⟩] (some .ok)
      { d with handles := (d.handles.remove handle).2 }
  /-- There is nothing to release. -/
  | unheld {inode : Inode} {handle : Handle} (unheld : d.handles.get? handle = none) :
    Conduct d (.release inode handle) [] (some .ok) d
  | listed {inode : Inode} {handle : Handle} {offset : Int64} {budget : Nat} {position : UInt64}
    {path : Path} {names bound : List Name} {rest : List Event} {buffer : DirectoryBuffer}
    (placed : positionOf offset = .ok position) (resolves : d.inodes.resolve? inode = some path)
    (listing : ListingFrom inode path d.inodes names position.toNat budget rest bound buffer) :
    Conduct d (.readdir inode handle offset budget) (⟨.readdir path, .ok names⟩ :: rest)
      (some (.directory buffer))
      { d with inodes := bindingAll path bound (bindingAbove inode path d.inodes).2 }
  | measured {inode : Inode} (result : (Call.statfs d.inodes.root).Result) :
    Conduct d (.statfs inode) [⟨.statfs d.inodes.root, result⟩]
      (some (.capacity (result.toOption.getD .fallback))) d
  | forgot {inode : Inode} {lookups : UInt64} :
    Conduct d (.forget inode lookups) [] none
      { d with inodes := forgetAll [(inode, lookups)] d.inodes }
  | forgotAll {nodes : List (Inode × UInt64)} :
    Conduct d (.batchForget nodes) [] none { d with inodes := forgetAll nodes d.inodes }
  | destroyed {events : List Event}
    (closes : events.map (·.call) = d.handles.held.values.map fun file => .close file.fd) :
    Conduct d .destroy events none { d with handles := d.handles.drain.2 }

section Refusal

variable {d d' : Dispatcher} {req : Request} {events : List Event} {out : Option Outcome}

theorem faultOf_eq_none {α : Type} {value : Except RequestError α} {a : α} (h : value = .ok a) :
    faultOf value = none := by
  rw [h, faultOf]

theorem Begins.fault?_eq_none {c : Call} (h : Begins d req c) : d.fault? req = none := by
  cases h with
  | lookup named | mkdir named | create named | unlink named | rmdir named | symlink named =>
    exact faultOf_eq_none named
  | getattr bound | readlink bound => exact faultOf_eq_none (pathOf_eq_ok_iff.2 bound)
  | rename named renamed => simp [fault?, faultOf_eq_none named, faultOf_eq_none renamed]
  | link bound named =>
    simp [fault?, faultOf_eq_none (pathOf_eq_ok_iff.2 bound), faultOf_eq_none named]
  | read placed held =>
    simp [fault?, faultOf_eq_none placed, faultOf_eq_none (fileOf_eq_ok_iff.2 held)]
  | write placed held writable =>
    simp [fault?, faultOf_eq_none placed, faultOf_eq_none (fileOf_eq_ok_iff.2 held), held, writable]
  | readdir placed bound =>
    simp [fault?, faultOf_eq_none placed, faultOf_eq_none (pathOf_eq_ok_iff.2 bound)]

/-- A request with a bad operand is refused: it makes no call and changes nothing. -/
theorem Conduct.refused_of_fault? (h : Conduct d req events out d') {e : RequestError}
    (bad : d.fault? req = some e) : events = [] ∧ out = some (.error e.errno) ∧ d' = d := by
  have hgood : d.fault? req ≠ none := by simp [bad]
  cases h with
  | refused bad' =>
    obtain rfl := Option.some.inj (bad.symm.trans bad')
    exact ⟨rfl, rfl, rfl⟩
  | settled good => exact absurd good hgood
  | failed begins | made begins | unseen begins | removed begins =>
    exact absurd begins.fault?_eq_none hgood
  | found named => exact absurd (faultOf_eq_none named) hgood
  | described bound => exact absurd (Begins.getattr bound).fault?_eq_none hgood
  | rejected bound | changed bound | untold bound | opened bound | openedToRead bound
  | unopened bound =>
    exact absurd (faultOf_eq_none (pathOf_eq_ok_iff.2 bound)) hgood
  | followed bound => exact absurd (Begins.readlink bound).fault?_eq_none hgood
  | created named | abandoned named => exact absurd (faultOf_eq_none named) hgood
  | moved _ named renamed | rebound _ named renamed =>
    exact absurd (Begins.rename named renamed).fault?_eq_none hgood
  | fetched placed held => exact absurd (Begins.read placed held).fault?_eq_none hgood
  | stored placed held writable =>
    exact absurd (Begins.write placed held writable).fault?_eq_none hgood
  | listed placed resolves => exact absurd (Begins.readdir placed resolves).fault?_eq_none hgood
  | released | unheld | measured | forgot | forgotAll | destroyed => cases bad

end Refusal

end Dispatcher
end InodeBridge
