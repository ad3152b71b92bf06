import InodeBridge.Proofs.Dispatcher.Conduct

/-! # Serving a request, step by step

Each handler is taken apart in the order of its text; every way in which it can end is one of those in
which serving its request can.
-/
namespace InodeBridge

open Storage (Call Event Tries)

namespace Dispatcher

def answerOf : Except RequestError Outcome → Outcome
  | .ok outcome => outcome
  | .error e => .error e.errno

theorem run_answer (m : Handler Outcome) (d : Dispatcher) :
    (answer m).run d = (m.run.run d).bind fun p => .done (some (answerOf p.1), p.2) := by
  change (m.run.run d).bind _ = _
  congr 1
  funext ⟨r, mid⟩
  cases r <;> rfl

theorem does_answer {m : Handler Outcome} {d d' : Dispatcher} {events : List Event}
    {out : Option Outcome} :
    Action.Does (answer m) d events out d' ↔
      ∃ r, m.Does d events r d' ∧ out = some (answerOf r) := by
  rw [Action.Does, run_answer, Program.yields_bind]
  constructor
  · rintro ⟨first, rest, ⟨r, mid⟩, rfl, hm, hout⟩
    obtain ⟨rfl, hb⟩ := hout
    cases hb
    exact ⟨r, by simpa [Handler.Does, Action.Does] using hm, rfl⟩
  · rintro ⟨r, hm, rfl⟩
    exact ⟨events, [], (r, d'), by simp, hm, rfl, rfl⟩

namespace Handler

/-- Whatever a handler does in a state, serving a request can look like it. -/
def Conducts (m : Handler Outcome) (req : Request) (d : Dispatcher) : Prop :=
  ∀ events r d', m.Does d events r d' → Conduct d req events (some (answerOf r)) d'

variable {d d' : Dispatcher} {events : List Event} {req : Request}

theorem conducts_pure {outcome : Outcome} (good : d.fault? req = none)
    (settles : req.settledBy? = some outcome) :
    (pure outcome : Handler Outcome).Conducts req d := by
  intro events r d' h
  obtain ⟨rfl, rfl, rfl⟩ := does_pure.1 h
  exact .settled good settles

theorem conducts_throw {e : RequestError} (bad : d.fault? req = some e) :
    (throw e : Handler Outcome).Conducts req d := by
  intro events r d' h
  obtain ⟨rfl, rfl, rfl⟩ := does_throw.1 h
  exact .refused bad

/-- A handler that begins with an operand is refused if that is bad, and goes on with it if not. -/
theorem conducts_reading {α : Type} {m : Handler α} {operand : Dispatcher → Except RequestError α}
    {f : α → Handler Outcome} (hm : m.Reads operand)
    (bad : ∀ e, operand d = .error e → d.fault? req = some e)
    (good : ∀ a, operand d = .ok a → (f a).Conducts req d) : (m >>= f).Conducts req d := by
  intro events r d' h
  rcases hm.does_bind_iff.1 h with ⟨e, he, rfl, rfl, rfl⟩ | ⟨a, ha, h⟩
  · exact .refused (bad e he)
  · exact good a ha events r d' h

theorem lookup_conducts (parent : Inode) (name : Name) :
    (lookup parent name).Conducts (.lookup parent name) d := by
  rw [lookup]
  apply conducts_reading (reads_lookupPath parent name)
  · intro e he
    simp [fault?, he, faultOf]
  · intro path hpath events r d' h
    rcases does_bindEntry_bind.1 h with ⟨e, rfl, rfl, rfl⟩ | ⟨stat, rest, rfl, hrest⟩
    · exact .failed (.lookup hpath) e
    · obtain ⟨rfl, rfl, rfl⟩ := does_pure.1 hrest
      exact .found hpath stat

theorem does_describe {inode : Inode} {path : Path} {r : Except RequestError Attributes} :
    (describe inode path).Does d events r d' ↔
      ∃ result, events = [⟨.stat path, result⟩] ∧
        r = (result.mapError .storage).map (d.options.attributes inode) ∧ d' = d := by
  rw [describe, does_perform_bind]
  simp only [does_get_bind, does_pure]
  constructor
  · rintro (⟨e, rfl, rfl, rfl⟩ | ⟨stat, rest, rfl, rfl, rfl, rfl⟩)
    · exact ⟨.error e, rfl, rfl, rfl⟩
    · exact ⟨.ok stat, rfl, rfl, rfl⟩
  · rintro ⟨result, rfl, rfl, rfl⟩
    cases result with
    | error e => exact .inl ⟨e, rfl, rfl, rfl⟩
    | ok stat => exact .inr ⟨stat, [], rfl, rfl, rfl, rfl⟩

theorem does_tell {inode : Inode} {path : Path} {r : Except RequestError Outcome}
    (h : (do
      let attributes ← describe inode path
      return .attributes attributes (← get).options.attrTtl : Handler Outcome).Does d events r d') :
    d' = d ∧ ((∃ e, events = [⟨.stat path, .error e⟩] ∧ r = .error (.storage e)) ∨
      ∃ stat, events = [⟨.stat path, .ok stat⟩] ∧
        r = .ok (.attributes (d.options.attributes inode stat) d.options.attrTtl)) := by
  rcases does_bind.1 h with ⟨e, rfl, hfail⟩ | ⟨a, first, mid, rest, rfl, hfirst, hrest⟩
  · obtain ⟨result, rfl, hr, rfl⟩ := does_describe.1 hfail
    cases result with
    | error e' =>
      cases hr
      exact ⟨rfl, .inl ⟨e', rfl, rfl⟩⟩
    | ok stat => cases hr
  · obtain ⟨result, rfl, hr, rfl⟩ := does_describe.1 hfirst
    cases result with
    | error e' => cases hr
    | ok stat =>
      cases hr
      rw [does_get_bind] at hrest
      obtain ⟨rfl, rfl, rfl⟩ := does_pure.1 hrest
      exact ⟨rfl, .inr ⟨stat, rfl, rfl⟩⟩

theorem getattr_conducts (inode : Inode) : (getattr inode).Conducts (.getattr inode) d := by
  rw [getattr]
  apply conducts_reading (reads_resolve inode)
  · intro e he
    simp [fault?, he, faultOf]
  · intro path hpath events r d' h
    obtain ⟨rfl, ⟨e, rfl, rfl⟩ | ⟨stat, rfl, rfl⟩⟩ := does_tell h
    · exact .failed (.getattr (pathOf_eq_ok_iff.1 hpath)) e
    · exact .described (pathOf_eq_ok_iff.1 hpath) stat

section Changes

/-- Tries some changes, and tells the attributes if none of them is rejected. -/
def Changes (d : Dispatcher) (inode : Inode) (path : Path) (m : Handler Outcome)
    (calls : List Call) : Prop :=
  ∀ events r d', m.Does d events r d' → d' = d ∧
    ((∃ e, Tries calls events (some e) ∧ r = .error (.attributeChange e)) ∨
      ∃ tried, Tries calls tried none ∧
        ((∃ e, events = tried ++ [⟨.stat path, .error e⟩] ∧ r = .error (.storage e)) ∨
          ∃ stat, events = tried ++ [⟨.stat path, .ok stat⟩] ∧
            r = .ok (.attributes (d.options.attributes inode stat) d.options.attrTtl)))

variable {inode : Inode} {path : Path} {m : Handler Outcome} {calls : List Call}

theorem changes_tell : Changes d inode path (do
    let attributes ← describe inode path
    return .attributes attributes (← get).options.attrTtl) [] := by
  intro events r d' h
  obtain ⟨rfl, htold⟩ := does_tell h
  exact ⟨rfl, .inr ⟨[], .done, htold⟩⟩

theorem Changes.cons (hm : Changes d inode path m calls) (c : Call) :
    Changes d inode path (performOr .attributeChange c >>= fun _ => m) (c :: calls) := by
  intro events r d' h
  rcases does_performOr_bind.1 h with ⟨e, rfl, rfl, rfl⟩ | ⟨answer, rest, rfl, hrest⟩
  · exact ⟨rfl, .inl ⟨e, .fails e, rfl⟩⟩
  · obtain ⟨rfl, ⟨e, htries, rfl⟩ | ⟨tried, htries, hend⟩⟩ := hm _ _ _ hrest
    · exact ⟨rfl, .inl ⟨e, .next htries, rfl⟩⟩
    · refine ⟨rfl, .inr ⟨⟨c, .ok answer⟩ :: tried, .next htries, ?_⟩⟩
      rcases hend with ⟨e, rfl, rfl⟩ | ⟨stat, rfl, rfl⟩
      · exact .inl ⟨e, rfl, rfl⟩
      · exact .inr ⟨stat, rfl, rfl⟩

theorem Changes.setSize (hm : Changes d inode path m calls) (handle : Option Handle)
    (size : UInt64) :
    Changes d inode path (Dispatcher.setSize inode path handle size >>= fun _ => m)
      ((match d.sizedThrough? inode handle with
        | some file => .truncateOpen file.fd size
        | none => .truncate path size) :: calls) := by
  intro events r d' h
  rw [Dispatcher.setSize, bind_assoc, does_get_bind] at h
  apply hm.cons
  change ((match d.sizedThrough? inode handle with
    | some file => performOr .attributeChange (.truncateOpen file.fd size)
    | none => performOr .attributeChange (.truncate path size) : Handler Unit) >>= fun _ => m).Does
      d events r d' at h
  cases hfile : d.sizedThrough? inode handle with
  | some file =>
    rw [hfile] at h
    exact h
  | none =>
    rw [hfile] at h
    exact h

theorem setattr_conducts (inode : Inode) (changes : AttributeChanges) :
    (setattr inode changes).Conducts (.setattr inode changes) d := by
  rw [setattr]
  apply conducts_reading (reads_resolve inode)
  · intro e he
    simp [fault?, he, faultOf]
  intro path hpath events r d' h
  have hbound := pathOf_eq_ok_iff.1 hpath
  obtain ⟨mode, uid, gid, size, accessed, modified, handle⟩ := changes
  -- from the last change to the first
  have htimes : Changes d inode path (if (accessed.isSome || modified.isSome) = true then do
        performOr .attributeChange (.setTimes path accessed modified)
        let attributes ← describe inode path
        return .attributes attributes (← get).options.attrTtl
      else do
        let attributes ← describe inode path
        return .attributes attributes (← get).options.attrTtl)
      (if accessed.isSome || modified.isSome then [.setTimes path accessed modified] else []) := by
    split
    · exact changes_tell.cons _
    · exact changes_tell
  suffices hall : Changes d inode path _ (d.changeCalls inode path
      ⟨mode, uid, gid, size, accessed, modified, handle⟩) by
    obtain ⟨rfl, ⟨e, htries, rfl⟩ | ⟨tried, htries, ⟨e, rfl, rfl⟩ | ⟨stat, rfl, rfl⟩⟩⟩ :=
      hall _ _ _ h
    · exact .rejected hbound htries
    · exact .untold hbound htries e
    · exact .changed hbound htries stat
  cases mode with
  | none =>
    cases size with
    | none => exact htimes
    | some size => exact htimes.setSize handle size
  | some mode =>
    cases size with
    | none => exact htimes.cons _
    | some size => exact (htimes.setSize handle size).cons _

end Changes

theorem readlink_conducts (inode : Inode) : (readlink inode).Conducts (.readlink inode) d := by
  rw [readlink]
  apply conducts_reading (reads_resolve inode)
  · intro e he
    simp [fault?, he, faultOf]
  · intro path hpath events r d' h
    have hbound := pathOf_eq_ok_iff.1 hpath
    rcases does_perform_bind.1 h with ⟨e, rfl, rfl, rfl⟩ | ⟨content, rest, rfl, hrest⟩
    · exact .failed (.readlink hbound) e
    · obtain ⟨rfl, rfl, rfl⟩ := does_pure.1 hrest
      exact .followed hbound content

theorem conducts_making {c : Call} {path : Path} (begins : Begins d req c)
    (makes : c.made? = some path) :
    (do let _ ← perform c; return .entry (← bindEntry path) : Handler Outcome).Conducts req d := by
  intro events r d' h
  rcases does_perform_bind.1 h with ⟨e, rfl, rfl, rfl⟩ | ⟨answer, rest, rfl, hmade⟩
  · exact .failed begins e
  · rcases does_bindEntry_bind.1 hmade with ⟨e, rfl, rfl, rfl⟩ | ⟨stat, rest, rfl, hrest⟩
    · exact .unseen begins makes answer e
    · obtain ⟨rfl, rfl, rfl⟩ := does_pure.1 hrest
      exact .made begins makes answer stat

theorem mkdir_conducts (parent : Inode) (name : Name) (mode : UInt32) :
    (mkdir parent name mode).Conducts (.mkdir parent name mode) d := by
  rw [mkdir]
  apply conducts_reading (reads_childPath parent name)
  · intro e he
    simp [fault?, he, faultOf]
  · intro path hpath
    exact conducts_making (.mkdir hpath) rfl

theorem symlink_conducts (parent : Inode) (name : Name) (content : Path) :
    (symlink parent name content).Conducts (.symlink parent name content) d := by
  rw [symlink]
  apply conducts_reading (reads_childPath parent name)
  · intro e he
    simp [fault?, he, faultOf]
  · intro path hpath
    exact conducts_making (.symlink hpath) rfl

theorem link_conducts (inode newParent : Inode) (newName : Name) :
    (link inode newParent newName).Conducts (.link inode newParent newName) d := by
  rw [link]
  apply conducts_reading (reads_resolve inode)
  · intro e he
    simp [fault?, he, faultOf]
  intro source hsource
  apply conducts_reading (reads_childPath newParent newName)
  · intro e he
    simp [fault?, hsource, he, faultOf]
  · intro path hpath
    exact conducts_making (.link (pathOf_eq_ok_iff.1 hsource) hpath) rfl

/-- What cannot be described after it was created is closed, and the failure is passed on. -/
theorem does_bindOrClose {path : Path} {fd : Descriptor} {r : Except RequestError EntryReply} :
    (tryCatch (bindEntry path) fun e => do
      let _ ← attempt (.close fd)
      throw e : Handler EntryReply).Does d events r d' ↔
      (∃ e result, events = [⟨.stat path, .error e⟩, ⟨.close fd, result⟩] ∧
        r = .error (.storage e) ∧ d' = d) ∨
      ∃ stat, events = [⟨.stat path, .ok stat⟩] ∧ r = .ok (d.entryReply path stat) ∧
        d' = d.handing path := by
  simp only [does_tryCatch, does_bindEntry, does_attempt_bind, does_throw]
  constructor
  · rintro (⟨a, rfl, ⟨e, _, h, _⟩ | ⟨stat, rfl, h, rfl⟩⟩ |
      ⟨e, _, mid, _, rfl, ⟨e', rfl, h, rfl⟩ | ⟨stat, _, h, _⟩, result, _, rfl, rfl, rfl, rfl⟩)
    · cases h
    · cases h
      exact .inr ⟨stat, rfl, rfl, rfl⟩
    · cases h
      exact .inl ⟨e', result, rfl, rfl, rfl⟩
    · cases h
  · rintro (⟨e, result, rfl, rfl, rfl⟩ | ⟨stat, rfl, rfl, rfl⟩)
    · exact .inr ⟨_, _, d', _, rfl, .inl ⟨e, rfl, rfl, rfl⟩, result, [], rfl, rfl, rfl, rfl⟩
    · exact .inl ⟨_, rfl, .inr ⟨stat, rfl, rfl, rfl⟩⟩

theorem create_conducts (parent : Inode) (name : Name) (mode : UInt32) (flags : Int32) :
    (create parent name mode).Conducts (.create parent name mode flags) d := by
  rw [create]
  apply conducts_reading (reads_childPath parent name)
  · intro e he
    simp [fault?, he, faultOf]
  intro path hpath events r d' h
  rcases does_perform_bind.1 h with ⟨e, rfl, rfl, rfl⟩ | ⟨fd, rest, rfl, hrest⟩
  · exact .failed (.create hpath) e
  rcases does_bind.1 hrest with ⟨e, rfl, hfail⟩ | ⟨entry, first, mid, rest, rfl, hentry, hrest⟩
  · rcases does_bindOrClose.1 hfail with ⟨e', result, rfl, he, rfl⟩ | ⟨_, _, he, _⟩
    · cases he
      exact .abandoned hpath fd e' result
    · cases he
  · rcases does_bindOrClose.1 hentry with ⟨_, _, _, he, _⟩ | ⟨stat, rfl, he, rfl⟩
    · cases he
    · cases he
      replace hrest := does_withHandles_bind.1 hrest
      obtain ⟨rfl, rfl, rfl⟩ := does_pure.1 hrest
      exact @Conduct.created d parent name mode flags path ⟨_, fd, .readWrite⟩ hpath stat rfl rfl

theorem conducts_removing {c : Call} {path : Path} (begins : Begins d req c)
    (removes : c.removed? = some path) :
    (do
      let _ ← perform c
      let _ ← withInodes (·.unbindPath path)
      return .ok : Handler Outcome).Conducts req d := by
  intro events r d' h
  rcases does_perform_bind.1 h with ⟨e, rfl, rfl, rfl⟩ | ⟨answer, rest, rfl, hrest⟩
  · exact .failed begins e
  · replace hrest := does_withInodes_bind.1 hrest
    obtain ⟨rfl, rfl, rfl⟩ := does_pure.1 hrest
    exact .removed begins removes answer

theorem unlink_conducts (parent : Inode) (name : Name) :
    (unlink parent name).Conducts (.unlink parent name) d := by
  rw [unlink]
  apply conducts_reading (reads_childPath parent name)
  · intro e he
    simp [fault?, he, faultOf]
  · intro path hpath
    exact conducts_removing (.unlink hpath) rfl

theorem rmdir_conducts (parent : Inode) (name : Name) :
    (rmdir parent name).Conducts (.rmdir parent name) d := by
  rw [rmdir]
  apply conducts_reading (reads_childPath parent name)
  · intro e he
    simp [fault?, he, faultOf]
  · intro path hpath
    exact conducts_removing (.rmdir hpath) rfl

theorem rename_conducts (parent : Inode) (name : Name) (newParent : Inode) (newName : Name) :
    (rename parent name newParent newName).Conducts (.rename parent name newParent newName) d := by
  rw [rename]
  apply conducts_reading (reads_childPath parent name)
  · intro e he
    simp [fault?, he, faultOf]
  intro source hsource
  apply conducts_reading (reads_childPath newParent newName)
  · intro e he
    simp [fault?, hsource, he, faultOf]
  intro target htarget events r d' h
  rcases does_perform_bind.1 h with ⟨e, rfl, rfl, rfl⟩ | ⟨_, rest, rfl, hrest⟩
  · exact .failed (.rename hsource htarget) e
  rw [does_get_bind] at hrest
  cases hpolicy : d.options.renamePolicy with
  | move =>
    simp only [hpolicy] at hrest
    replace hrest := does_withInodes_bind.1 hrest
    obtain ⟨rfl, rfl, rfl⟩ := does_pure.1 hrest
    exact .moved hpolicy hsource htarget
  | rebind =>
    simp only [hpolicy] at hrest
    replace hrest := does_withInodes_bind.1 hrest
    replace hrest := does_withInodes_bind.1 hrest
    obtain ⟨rfl, rfl, rfl⟩ := does_pure.1 hrest
    exact .rebound hpolicy hsource htarget

theorem openInode_conducts (inode : Inode) (flags : Int32) :
    (openInode inode).Conducts (.open inode flags) d := by
  rw [openInode]
  apply conducts_reading (reads_resolve inode)
  · intro e he
    simp [fault?, he, faultOf]
  intro path hpath events r d' h
  have hbound := pathOf_eq_ok_iff.1 hpath
  obtain ⟨result, rest, rfl, hrest⟩ := does_attempt_bind.1 h
  cases result with
  | ok fd =>
    simp only [pure_bind] at hrest
    replace hrest := does_withHandles_bind.1 hrest
    obtain ⟨rfl, rfl, rfl⟩ := does_pure.1 hrest
    exact @Conduct.opened d inode flags path ⟨inode, fd, .readWrite⟩ hbound rfl rfl
  | error e =>
    simp only [pure_bind] at hrest
    rcases does_performOr_bind.1 hrest with ⟨e', rfl, rfl, rfl⟩ | ⟨fd, rest', rfl, hopened⟩
    · exact .unopened hbound e e'
    · replace hopened := does_withHandles_bind.1 hopened
      obtain ⟨rfl, rfl, rfl⟩ := does_pure.1 hopened
      exact @Conduct.openedToRead d inode flags path ⟨inode, fd, .readOnly⟩ hbound rfl rfl e

theorem read_conducts (inode : Inode) (handle : Handle) (offset : Int64) (size : UInt32) :
    (read handle offset size).Conducts (.read inode handle offset size) d := by
  rw [read]
  apply conducts_reading (reads_readTarget handle offset size)
  · intro e he
    exact (d.fault?_read inode handle offset size).trans (congrArg faultOf he)
  intro target htarget events r d' h
  obtain ⟨position, file, hposition, hheld, rfl⟩ := targetOf_eq_ok_iff.1 htarget
  obtain ⟨result, rest, rfl, hrest⟩ := does_attempt_bind.1 h
  obtain ⟨rfl, rfl, rfl⟩ := does_pure.1 hrest
  cases result with
  | error e => exact .failed (.read hposition hheld) e
  | ok data => exact .fetched hposition hheld data

theorem write_conducts (inode : Inode) (handle : Handle) (offset : Int64) (data : Bytes) :
    (write handle offset data).Conducts (.write inode handle offset data) d := by
  rw [write]
  apply conducts_reading (reads_position offset)
  · intro e he
    simp [fault?, he, faultOf]
  intro position hposition
  apply conducts_reading (reads_openFile handle)
  · intro e he
    simp [fault?, hposition, he, faultOf]
  intro file hfile
  have hheld := fileOf_eq_ok_iff.1 hfile
  cases hmode : file.mode.isWritable with
  | false =>
    rw [if_neg Bool.false_ne_true]
    apply conducts_throw
    simp [fault?, hposition, hfile, faultOf, hheld, hmode]
  | true =>
    rw [if_pos rfl]
    intro events r d' h
    rcases does_perform_bind.1 h with ⟨e, rfl, rfl, rfl⟩ | ⟨count, rest, rfl, hrest⟩
    · exact .failed (.write hposition hheld hmode) e
    · obtain ⟨rfl, rfl, rfl⟩ := does_pure.1 hrest
      exact .stored hposition hheld hmode count

theorem checkHandle_conducts {handle : Handle}
    (checks : d.fault? req = faultOf (d.fileOf handle)) (settles : req.settledBy? = some .ok) :
    (checkHandle handle).Conducts req d := by
  rw [checkHandle]
  apply conducts_reading (reads_openFile handle)
  · intro e he
    rw [checks, he, faultOf]
  · intro file hfile
    exact conducts_pure (by rw [checks, hfile, faultOf]) settles

theorem opendir_conducts (inode : Inode) (flags : Int32) :
    (resolve inode >>= fun _ => pure (.opened ⟨0, 0⟩)).Conducts (.opendir inode flags) d := by
  apply conducts_reading (reads_resolve inode)
  · intro e he
    simp [fault?, he, faultOf]
  · intro path hpath
    exact conducts_pure (by simp [fault?, hpath, faultOf]) rfl

theorem release_conducts (inode : Inode) (handle : Handle) :
    (release handle).Conducts (.release inode handle) d := by
  intro events r d' h
  replace h := does_withHandles_bind.1 h
  cases hfile : d.handles.get? handle with
  | some file =>
    simp only [HandleTable.remove, hfile] at h
    obtain ⟨result, rest, rfl, hrest⟩ := does_attempt_bind.1 h
    obtain ⟨rfl, rfl, rfl⟩ := does_pure.1 hrest
    exact .released hfile result
  | none =>
    rw [HandleTable.remove_eq_of_get?_eq_none hfile] at h
    obtain ⟨rfl, rfl, rfl⟩ := does_pure.1 h
    exact .unheld hfile

theorem statfs_conducts (inode : Inode) : statfs.Conducts (.statfs inode) d := by
  intro events r d' h
  rw [statfs, does_get_bind] at h
  obtain ⟨result, rest, rfl, hrest⟩ := does_attempt_bind.1 h
  cases result with
  | ok capacity =>
    obtain ⟨rfl, rfl, rfl⟩ := does_pure.1 hrest
    exact .measured (.ok capacity)
  | error e =>
    obtain ⟨rfl, rfl, rfl⟩ := does_pure.1 hrest
    exact .measured (.error e)

theorem readdir_conducts (inode : Inode) (handle : Handle) (offset : Int64) (budget : Nat) :
    (readdir inode offset budget).Conducts (.readdir inode handle offset budget) d := by
  intro events r d' h
  obtain ⟨e, he, rfl, rfl, rfl⟩ | ⟨start, path, hstart, hpath, ⟨e, rfl, rfl, rfl⟩ |
    ⟨names, rest, bound, buffer, rfl, hlisting, rfl, rfl⟩⟩ := does_readdir h
  · apply Conduct.refused
    cases hstart : positionOf offset with
    | error e' =>
      rw [hstart] at he
      cases he
      simp [fault?, hstart, faultOf]
    | ok start =>
      rw [hstart] at he
      change d'.pathOf inode = .error e at he
      simp [fault?, hstart, he, faultOf]
  · exact .failed (.readdir hstart hpath) e
  · exact .listed hstart hpath hlisting

theorem does_closeAll {files : List OpenFile} {r : Except RequestError Unit}
    (h : (closeAll files).Does d events r d') :
    events.map (·.call) = files.map (fun file => .close file.fd) ∧ d' = d := by
  induction files generalizing events with
  | nil =>
    obtain ⟨rfl, _, rfl⟩ := does_pure.1 h
    exact ⟨rfl, rfl⟩
  | cons file files ih =>
    obtain ⟨result, rest, rfl, hrest⟩ := does_attempt_bind.1 h
    obtain ⟨hcalls, rfl⟩ := ih hrest
    exact ⟨by rw [List.map_cons, List.map_cons, hcalls], rfl⟩

end Handler

theorem serve_conduct {d d' : Dispatcher} {req : Request} {events : List Event}
    {out : Option Outcome} (h : Action.Does (serve req) d events out d') :
    Conduct d req events out d' := by
  have hanswer {m : Handler Outcome} (hm : m.Conducts req d)
      (h : Action.Does (answer m) d events out d') : Conduct d req events out d' := by
    obtain ⟨r, hdoes, rfl⟩ := does_answer.1 h
    exact hm events r d' hdoes
  cases req with
  | lookup parent name => exact hanswer (Handler.lookup_conducts parent name) h
  | forget inode lookups =>
    obtain ⟨rfl, hd⟩ := h
    cases hd
    exact .forgot
  | batchForget nodes =>
    obtain ⟨rfl, hd⟩ := h
    cases hd
    exact .forgotAll
  | getattr inode => exact hanswer (Handler.getattr_conducts inode) h
  | setattr inode changes => exact hanswer (Handler.setattr_conducts inode changes) h
  | readlink inode => exact hanswer (Handler.readlink_conducts inode) h
  | mkdir parent name mode => exact hanswer (Handler.mkdir_conducts parent name mode) h
  | create parent name mode flags =>
    exact hanswer (Handler.create_conducts parent name mode flags) h
  | unlink parent name => exact hanswer (Handler.unlink_conducts parent name) h
  | rmdir parent name => exact hanswer (Handler.rmdir_conducts parent name) h
  | symlink parent name content => exact hanswer (Handler.symlink_conducts parent name content) h
  | rename parent name newParent newName =>
    exact hanswer (Handler.rename_conducts parent name newParent newName) h
  | link inode newParent newName => exact hanswer (Handler.link_conducts inode newParent newName) h
  | «open» inode flags => exact hanswer (Handler.openInode_conducts inode flags) h
  | read inode handle offset size =>
    exact hanswer (Handler.read_conducts inode handle offset size) h
  | write inode handle offset data =>
    exact hanswer (Handler.write_conducts inode handle offset data) h
  | flush _ handle _ | fsync _ handle _ =>
    exact hanswer (Handler.checkHandle_conducts rfl rfl) h
  | release inode handle => exact hanswer (Handler.release_conducts inode handle) h
  | opendir inode flags => exact hanswer (Handler.opendir_conducts inode flags) h
  | readdir inode handle offset budget =>
    exact hanswer (Handler.readdir_conducts inode handle offset budget) h
  | statfs inode => exact hanswer (Handler.statfs_conducts inode) h
  | destroy =>
    obtain ⟨first, rest, ⟨r, mid⟩, rfl, hdestroy, hend⟩ := Program.yields_bind.1 h
    obtain ⟨rfl, hb⟩ := hend
    cases hb
    rw [List.append_nil]
    obtain ⟨hcloses, rfl⟩ := Handler.does_closeAll (Handler.does_withHandles_bind.1 hdestroy)
    exact .destroyed hcloses
  | _ => exact hanswer (Handler.conducts_pure rfl rfl) h

end Dispatcher
end InodeBridge
