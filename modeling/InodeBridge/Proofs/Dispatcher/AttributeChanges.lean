import InodeBridge.HostStorage
import InodeBridge.Proofs.Dispatcher.Effect
import InodeBridge.Proofs.Dispatcher.Runs
import InodeBridge.Storage.Variants

/-! # Changes of attributes

A request to change attributes makes its calls in a fixed order, until one fails: mode, length, times,
and then the description that is answered.  The length is changed through an open file only if that
was opened for writing on the very inode, and at the path of the inode otherwise.
-/
namespace InodeBridge

open Storage (Call Event Tries)

namespace Dispatcher

variable {d d' : Dispatcher} {inode : Inode} {path : Path} {changes : AttributeChanges}
  {events : List Event} {out : Option Outcome}

/-- The answer once the changes were made: the attributes that storage describes, but perhaps for the
owner, or why it does not describe them. -/
def describedAnswer (options : MountOptions) (inode : Inode) :
    Except StorageError Stat → Outcome
  | .ok stat =>
    .attributes ⟨{ stat with owner := options.owner.getD stat.owner }, inode⟩ options.attrTtl
  | .error e => .error e.errno

/-- A request to change attributes tries the changes in order.  If all are made it describes the
inode, and answers with that; if one fails it ends, and the reason is not told. -/
theorem Conduct.changes_attributes (h : Conduct d (.setattr inode changes) events out d')
    (bound : d.inodes.resolve? inode = some path) :
    d' = d ∧ ∃ tried failure, Tries (d.changeCalls inode path changes) tried failure ∧
      match failure with
      | some _ => events = tried ∧ out = some (.error Errno.inputOutput)
      | none => ∃ result, events = tried ++ [⟨.stat path, result⟩] ∧
          out = some (describedAnswer d.options inode result) := by
  have hgood : d.fault? (.setattr inode changes) = none :=
    faultOf_eq_none (pathOf_eq_ok_iff.2 bound)
  cases h with
  | refused bad =>
    rw [hgood] at bad
    cases bad
  | settled _ settles => cases settles
  | failed begins | made begins | unseen begins | removed begins => cases begins
  | rejected bound' tries =>
    obtain rfl := Option.some.inj (bound'.symm.trans bound)
    exact ⟨rfl, _, _, tries, rfl, rfl⟩
  | changed bound' tries stat =>
    obtain rfl := Option.some.inj (bound'.symm.trans bound)
    exact ⟨rfl, _, _, tries, .ok stat, rfl, by rw [attributes_eq]; rfl⟩
  | untold bound' tries e =>
    obtain rfl := Option.some.inj (bound'.symm.trans bound)
    exact ⟨rfl, _, _, tries, .error e, rfl, rfl⟩

/-- A length is changed through no other open file than the one that was named, and only if it is held,
writable, and of the inode. -/
theorem Conduct.sizes_through (h : Conduct d (.setattr inode changes) events out d')
    (bound : d.inodes.resolve? inode = some path) {event : Event} (hevent : event ∈ events)
    {fd : Descriptor} {size : UInt64} (hcall : event.call = .truncateOpen fd size) :
    ∃ handle, changes.handle = some handle ∧
      d.handles.get? handle = some ⟨inode, fd, .readWrite⟩ := by
  obtain ⟨_, tried, failure, htries, hend⟩ := h.changes_attributes bound
  have hmem : event ∈ tried := by
    cases failure with
    | some e => rwa [hend.1] at hevent
    | none =>
      obtain ⟨result, rfl, _⟩ := hend
      rcases List.mem_append.1 hevent with htried | hlast
      · exact htried
      · rw [List.mem_singleton.1 hlast] at hcall
        cases hcall
  obtain ⟨_, heq⟩ | ⟨⟨_, _, _⟩, _, hthrough, heq⟩ | ⟨_, heq⟩ | ⟨_, _, heq⟩ :=
    mem_changeCalls (htries.call_mem event hmem)
  all_goals rw [hcall] at heq; cases heq
  obtain ⟨handle, hhandle, held, rfl, rfl⟩ := sizedThrough?_eq_some_iff.1 hthrough
  exact ⟨handle, hhandle, held⟩

/-- Attributes of an inode are changed by the calls that were asked for, in order and up to the first
that fails, through an open file only if it is a writable one of the inode.  A change of owner is no
call. -/
theorem attributes_changed_in_order {σ : Type} (s : Storage σ) (d : Dispatcher) (state : σ)
    (inode : Inode) (path : Path) (changes : AttributeChanges)
    (bound : d.inodes.resolve? inode = some path) :
    let served := serveOver s d state (.setattr inode changes)
    s.Answers state served.1.events served.2 ∧
    served.1.after = d ∧
    (∃ tried failure, Tries (d.changeCalls inode path changes) tried failure ∧
      match failure with
      | some _ => served.1.events = tried ∧ served.1.outcome = some (.error Errno.inputOutput)
      | none => ∃ result, served.1.events = tried ++ [⟨.stat path, result⟩] ∧
          served.1.outcome = some (describedAnswer d.options inode result)) ∧
    (∀ file, d.sizedThrough? inode changes.handle = some file ↔ ∃ handle,
      changes.handle = some handle ∧ d.handles.get? handle = some file ∧ file.inode = inode ∧
        file.mode = .readWrite) ∧
    (∀ event ∈ served.1.events, ∀ fd size, event.call = .truncateOpen fd size → ∃ handle,
      changes.handle = some handle ∧ d.handles.get? handle = some ⟨inode, fd, .readWrite⟩) ∧
    ∀ uid gid,
      let other := serveOver s d state (.setattr inode { changes with uid, gid })
      other.1.events = served.1.events ∧ other.1.outcome = served.1.outcome ∧
        other.1.after = served.1.after ∧ other.2 = served.2 := by
  intro served
  have hconduct : Conduct d _ served.1.events served.1.outcome served.1.after :=
    serve_conduct (serveOver_possible s d state (.setattr inode changes))
  obtain ⟨hafter, htries⟩ := hconduct.changes_attributes bound
  exact ⟨serveOver_answers s d state _, hafter, htries, fun _ => sizedThrough?_eq_some_iff,
    fun _ hevent _ _ hcall => hconduct.sizes_through bound hevent hcall,
    fun _ _ => ⟨rfl, rfl, rfl, rfl⟩⟩

/-- A file that may no longer be written gets its length through the handle that created it; storage
then finds nothing to set the times of, which is told as a failure of input and output. -/
theorem length_changed_through_handle :
    let root : Path := ⟨[slash]⟩
    let path : Path := ⟨[slash, 0x61]⟩
    let storage := (HostStorage.serving root).withFailures fun
      | .setTimes .. => true
      | _ => false
    let state := (List.replicate 5 (some (.host Errno.noEntry)),
      HostStorage.new (Host.fresh 0 .epoch .fallback))
    let number : Numbering := fun _ salt => salt + 2
    let first := stateAfter storage (start number {} root) state [.create rootInode [0x61] 0o644 0]
    let changes : AttributeChanges :=
      { mode := some 0, uid := some 5, size := some 3, modified := some .epoch, handle := some 1 }
    let served := serveOver storage first.1 first.2 (.setattr 2 changes)
    first.1.inodes.resolve? 2 = some path ∧
    served.1.events.map (·.call) =
      [.chmod path 0, .truncateOpen 1 3, .setTimes path none (some .epoch)] ∧
    served.1.outcome = some (.error Errno.inputOutput) ∧ served.1.after = first.1 ∧
    ∃ handle, changes.handle = some handle ∧
      first.1.handles.get? handle = some ⟨2, 1, .readWrite⟩ := by
  intro root path storage state number first changes served
  have hbound : first.1.inodes.resolve? 2 = some path := by decide +kernel
  have hcalls : served.1.events.map (·.call) =
      [.chmod path 0, .truncateOpen 1 3, .setTimes path none (some .epoch)] := by decide +kernel
  obtain ⟨_, hafter, _, _, hthrough, _⟩ :=
    attributes_changed_in_order storage first.1 first.2 2 path changes hbound
  obtain ⟨event, hevent, hcall⟩ : ∃ event ∈ served.1.events, event.call = .truncateOpen 1 3 :=
    List.mem_map.1 (by rw [hcalls]; simp)
  exact ⟨hbound, hcalls, by decide +kernel, hafter, hthrough event hevent 1 3 hcall⟩

end Dispatcher
end InodeBridge
