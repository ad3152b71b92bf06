import InodeBridge.Proofs.Dispatcher.Behaviour

/-! # The steps of handlers, one after the other

What a handler does is read off its text: each step either fails, and the handler with it, or hands its
result to the rest.  Operands are read off the state without a call.
-/
namespace InodeBridge.Dispatcher

open Storage (Call Event)

/-- The path of an inode, or why there is none. -/
def pathOf (d : Dispatcher) (inode : Inode) : Except RequestError Path :=
  match d.inodes.resolve? inode with
  | some path => .ok path
  | none => .error (.unknownInode inode)

def childOf (d : Dispatcher) (parent : Inode) (name : Name) : Except RequestError Path :=
  if name.isEntry then (d.pathOf parent).map (·.child name) else .error (.badName name)

def lookupOf (d : Dispatcher) (parent : Inode) (name : Name) : Except RequestError Path :=
  if name = Name.here then d.pathOf parent
  else if name = Name.above then (d.pathOf parent).map (parentWithin d.inodes.root)
  else d.childOf parent name

def fileOf (d : Dispatcher) (handle : Handle) : Except RequestError OpenFile :=
  match d.handles.get? handle with
  | some file => .ok file
  | none => .error (.unknownHandle handle)

def positionOf (offset : Int64) : Except RequestError UInt64 :=
  if offset < 0 then .error (.badOffset offset) else .ok offset.toUInt64

def targetOf (d : Dispatcher) (handle : Handle) (offset : Int64) (size : UInt32) :
    Except RequestError PendingRead := do
  let position ← positionOf offset
  let file ← d.fileOf handle
  return ⟨handle, file.fd, position, size⟩

theorem pathOf_eq_ok_iff {d : Dispatcher} {inode : Inode} {path : Path} :
    d.pathOf inode = .ok path ↔ d.inodes.resolve? inode = some path := by
  unfold pathOf
  split <;> simp_all

theorem fileOf_eq_ok_iff {d : Dispatcher} {handle : Handle} {file : OpenFile} :
    d.fileOf handle = .ok file ↔ d.handles.get? handle = some file := by
  unfold fileOf
  split <;> simp_all

theorem targetOf_eq_ok_iff {d : Dispatcher} {handle : Handle} {offset : Int64} {size : UInt32}
    {target : PendingRead} :
    d.targetOf handle offset size = .ok target ↔ ∃ position file,
      positionOf offset = .ok position ∧ d.handles.get? handle = some file ∧
        target = ⟨handle, file.fd, position, size⟩ := by
  unfold targetOf fileOf
  cases positionOf offset with
  | error e => simp [bind, Except.bind]
  | ok position =>
    cases d.handles.get? handle <;> simp [bind, Except.bind, pure, Except.pure, eq_comm]

theorem childOf_eq_ok_iff {d : Dispatcher} {parent : Inode} {name : Name} {path : Path} :
    d.childOf parent name = .ok path ↔
      name.isEntry = true ∧ ∃ p, d.inodes.resolve? parent = some p ∧ path = p.child name := by
  unfold childOf
  split
  next h =>
    cases hp : d.pathOf parent with
    | error e =>
      have hnone : ∀ p, d.inodes.resolve? parent ≠ some p := fun p h' => by
        simp [pathOf_eq_ok_iff.2 h'] at hp
      simp [Except.map, hnone]
    | ok p =>
      have hsome := pathOf_eq_ok_iff.1 hp
      simp [Except.map, h, hsome, eq_comm]
  next h => simp [h]

def entryReply (d : Dispatcher) (path : Path) (stat : Stat) : EntryReply where
  attributes := d.options.attributes (d.inodes.bindLookup path).1 stat
  generation := d.options.generation
  attrTtl := d.options.attrTtl
  entryTtl := d.options.entryTtl

def handing (d : Dispatcher) (path : Path) : Dispatcher :=
  { d with inodes := (d.inodes.bindLookup path).2 }

namespace Handler

variable {α β : Type} {d d' : Dispatcher} {events : List Event} {r : Except RequestError β}

/-- A step that only reads the state. -/
def Reads (m : Handler α) (value : Dispatcher → Except RequestError α) : Prop :=
  ∀ d, m.run.run d = .done (value d, d)

theorem Reads.does_iff {m : Handler α} {value : Dispatcher → Except RequestError α}
    (h : m.Reads value) {r : Except RequestError α} :
    m.Does d events r d' ↔ events = [] ∧ r = value d ∧ d' = d := by
  simp [Does, Action.Does, h d, Program.Yields]

theorem Reads.does_bind_iff {m : Handler α} {value : Dispatcher → Except RequestError α}
    (h : m.Reads value) {f : α → Handler β} :
    (m >>= f).Does d events r d' ↔
      (∃ e, value d = .error e ∧ events = [] ∧ r = .error e ∧ d' = d) ∨
        ∃ a, value d = .ok a ∧ (f a).Does d events r d' := by
  rw [does_bind]
  simp only [h.does_iff]
  constructor
  · rintro (⟨e, rfl, rfl, he, rfl⟩ | ⟨a, _, _, rest, rfl, ⟨rfl, ha, rfl⟩, hf⟩)
    · exact .inl ⟨e, he.symm, rfl, rfl, rfl⟩
    · exact .inr ⟨a, ha.symm, hf⟩
  · rintro (⟨e, he, rfl, rfl, rfl⟩ | ⟨a, ha, hf⟩)
    · exact .inl ⟨e, rfl, rfl, he.symm, rfl⟩
    · exact .inr ⟨a, [], d, events, rfl, ⟨rfl, ha.symm, rfl⟩, hf⟩

theorem reads_get : (get : Handler Dispatcher).Reads .ok := fun _ => rfl

theorem reads_pure (a : α) : (pure a : Handler α).Reads fun _ => .ok a := fun _ => rfl

theorem Reads.run_bind_ok {m : Handler α} {value : Dispatcher → Except RequestError α}
    {f : α → Handler β} {a : α} (h : m.Reads value) (ha : value d = .ok a) :
    (m >>= f).run.run d = (f a).run.run d := by
  have hrun : (m >>= f).run.run d =
      (m.run.run d).bind fun p => (ExceptT.bindCont f p.1 : Action _).run p.2 := rfl
  rw [hrun, h d, ha]
  rfl

theorem Reads.bind {m : Handler α} {value : Dispatcher → Except RequestError α} {f : α → Handler β}
    {values : α → Dispatcher → Except RequestError β} (h : m.Reads value)
    (hf : ∀ a, (f a).Reads (values a)) : (m >>= f).Reads fun d => value d >>= (values · d) := by
  intro d
  change _ = Program.done (value d >>= fun a => values a d, d)
  cases hv : value d with
  | error e =>
    change (m.run.run d).bind _ = _
    rw [h d, hv]
    rfl
  | ok a => exact (h.run_bind_ok hv).trans (hf a d)

theorem does_get_bind {f : Dispatcher → Handler β} :
    (get >>= f).Does d events r d' ↔ (f d).Does d events r d' := by
  rw [reads_get.does_bind_iff]
  simp

theorem reads_resolve (inode : Inode) : (resolve inode).Reads (·.pathOf inode) := by
  intro d
  change (match d.inodes.resolve? inode with
    | some path => pure path
    | none => throw (.unknownInode inode) : Handler Path).run.run d = .done (d.pathOf inode, d)
  rw [pathOf]
  cases d.inodes.resolve? inode <;> rfl

/-- A step that only reads, and then computes. -/
theorem Reads.bind_pure {m : Handler α} {value : Dispatcher → Except RequestError α}
    (h : m.Reads value) (f : Dispatcher → α → β) :
    (m >>= fun a => get >>= fun d => pure (f d a)).Reads fun d => (value d).map (f d) := by
  intro d
  have hrun : (m >>= fun a => get >>= fun d => pure (f d a)).run.run d =
      (m.run.run d).bind fun p =>
        (ExceptT.bindCont (fun a => get >>= fun d => pure (f d a)) p.1 : Action _).run p.2 := rfl
  rw [hrun, h d]
  cases hv : value d <;> simp only [hv] <;> rfl

theorem reads_childPath (parent : Inode) (name : Name) :
    (childPath parent name).Reads (·.childOf parent name) := by
  intro d
  change _ = Program.done (d.childOf parent name, d)
  rw [childOf]
  by_cases hn : name.isEntry = true
  · rw [if_pos hn]
    refine Eq.trans ?_ ((reads_resolve parent).bind_pure (fun _ p => p.child name) d)
    rw [childPath, if_pos hn]
    rfl
  · rw [if_neg hn, childPath, if_neg hn]
    rfl

theorem reads_openFile (handle : Handle) : (openFile handle).Reads (·.fileOf handle) := by
  intro d
  change (match d.handles.get? handle with
    | some file => pure file
    | none => throw (.unknownHandle handle) : Handler OpenFile).run.run d =
      .done (d.fileOf handle, d)
  rw [fileOf]
  cases d.handles.get? handle <;> rfl

theorem reads_position (offset : Int64) :
    (position offset).Reads fun _ => positionOf offset := by
  intro d
  change _ = Program.done (positionOf offset, d)
  rw [position, positionOf]
  split <;> rfl

theorem reads_readTarget (handle : Handle) (offset : Int64) (size : UInt32) :
    (readTarget handle offset size).Reads (·.targetOf handle offset size) :=
  (reads_position offset).bind fun _ => (reads_openFile handle).bind fun _ => reads_pure _

theorem reads_lookupPath (parent : Inode) (name : Name) :
    (lookupPath parent name).Reads (·.lookupOf parent name) := by
  intro d
  change _ = Program.done (d.lookupOf parent name, d)
  rw [lookupPath, lookupOf]
  split
  · exact reads_resolve parent d
  · split
    · exact (reads_resolve parent).bind_pure (fun d => parentWithin d.inodes.root) d
    · exact reads_childPath parent name d

theorem does_attempt_bind {c : Call} {f : c.Result → Handler β} :
    (attempt c >>= f).Does d events r d' ↔
      ∃ result rest, events = ⟨c, result⟩ :: rest ∧ (f result).Does d rest r d' := by
  rw [does_bind]
  simp only [does_attempt]
  constructor
  · rintro (⟨e, _, result, _, h, _⟩ | ⟨a, _, _, rest, rfl, ⟨result, rfl, h, rfl⟩, hf⟩)
    · simp at h
    · obtain rfl : a = result := Except.ok.inj h
      exact ⟨a, rest, rfl, hf⟩
  · rintro ⟨result, rest, rfl, hf⟩
    exact .inr ⟨result, _, d, rest, rfl, ⟨result, rfl, rfl, rfl⟩, hf⟩

/-- A call that must not fail ends the handler, or its answer goes to the rest. -/
theorem does_performOr_bind {blame : StorageError → RequestError} {c : Call}
    {f : c.Answer → Handler β} :
    (performOr blame c >>= f).Does d events r d' ↔
      (∃ e, events = [⟨c, .error e⟩] ∧ r = .error (blame e) ∧ d' = d) ∨
        ∃ answer rest, events = ⟨c, .ok answer⟩ :: rest ∧ (f answer).Does d rest r d' := by
  rw [performOr, bind_assoc, does_attempt_bind]
  constructor
  · rintro ⟨result, rest, rfl, hf⟩
    cases result with
    | error e =>
      rw [show (throw (blame e) >>= f : Handler β) = throw (blame e) from rfl, does_throw] at hf
      obtain ⟨rfl, hr, hd⟩ := hf
      exact .inl ⟨e, rfl, hr, hd⟩
    | ok a =>
      rw [pure_bind] at hf
      exact .inr ⟨a, rest, rfl, hf⟩
  · rintro (⟨e, rfl, rfl, rfl⟩ | ⟨a, rest, rfl, hf⟩)
    · refine ⟨.error e, [], rfl, ?_⟩
      rw [show (throw (blame e) >>= f : Handler β) = throw (blame e) from rfl]
      simp
    · exact ⟨.ok a, rest, rfl, by rw [pure_bind]; exact hf⟩

theorem does_perform_bind {c : Call} {f : c.Answer → Handler β} :
    (perform c >>= f).Does d events r d' ↔
      (∃ e, events = [⟨c, .error e⟩] ∧ r = .error (.storage e) ∧ d' = d) ∨
        ∃ answer rest, events = ⟨c, .ok answer⟩ :: rest ∧ (f answer).Does d rest r d' :=
  does_performOr_bind

theorem does_withInodes_bind {g : InodeTable → α × InodeTable} {f : α → Handler β} :
    (withInodes g >>= f).Does d events r d' ↔
      (f (g d.inodes).1).Does { d with inodes := (g d.inodes).2 } events r d' := by
  rw [does_bind]
  simp only [does_withInodes]
  constructor
  · rintro (⟨e, _, _, h, _⟩ | ⟨a, _, _, rest, rfl, ⟨rfl, h, rfl⟩, hf⟩)
    · simp at h
    · exact Except.ok.inj h ▸ hf
  · exact fun hf => .inr ⟨_, [], _, events, rfl, ⟨rfl, rfl, rfl⟩, hf⟩

theorem does_withHandles_bind {g : HandleTable OpenFile → α × HandleTable OpenFile}
    {f : α → Handler β} :
    (withHandles g >>= f).Does d events r d' ↔
      (f (g d.handles).1).Does { d with handles := (g d.handles).2 } events r d' := by
  rw [does_bind]
  simp only [does_withHandles]
  constructor
  · rintro (⟨e, _, _, h, _⟩ | ⟨a, _, _, rest, rfl, ⟨rfl, h, rfl⟩, hf⟩)
    · simp at h
    · exact Except.ok.inj h ▸ hf
  · exact fun hf => .inr ⟨_, [], _, events, rfl, ⟨rfl, rfl, rfl⟩, hf⟩

theorem does_bindEntry_bind {path : Path} {f : EntryReply → Handler β} :
    (bindEntry path >>= f).Does d events r d' ↔
      (∃ e, events = [⟨.stat path, .error e⟩] ∧ r = .error (.storage e) ∧ d' = d) ∨
        ∃ stat rest, events = ⟨.stat path, .ok stat⟩ :: rest ∧
          (f (d.entryReply path stat)).Does (d.handing path) rest r d' := by
  rw [bindEntry, bind_assoc, does_perform_bind]
  simp only [bind_assoc, pure_bind, does_withInodes_bind, does_get_bind]
  simp [entryReply, handing]

theorem does_bindEntry {path : Path} {r : Except RequestError EntryReply} :
    (bindEntry path).Does d events r d' ↔
      (∃ e, events = [⟨.stat path, .error e⟩] ∧ r = .error (.storage e) ∧ d' = d) ∨
        ∃ stat, events = [⟨.stat path, .ok stat⟩] ∧ r = .ok (d.entryReply path stat) ∧
          d' = d.handing path := by
  rw [← bind_pure (bindEntry path), does_bindEntry_bind]
  simp only [does_pure]
  refine or_congr_right (exists_congr fun stat => ?_)
  constructor
  · rintro ⟨_, rfl, rfl, hr, hd⟩
    exact ⟨rfl, hr, hd⟩
  · rintro ⟨rfl, hr, hd⟩
    exact ⟨[], rfl, rfl, hr, hd⟩

end Handler
end InodeBridge.Dispatcher
