import InodeBridge.Proofs.Dispatcher.AttributeChanges
import InodeBridge.Proofs.Dispatcher.LiveHandles

/-! # Handles as the gate to open files

Requests about an open file name a handle.  While the handle lives they go to storage with the
descriptor that storage gave when the file was opened, whatever happened to the name of the file
since; writing is refused if the file could only be opened for reading.  Without a live handle they
fail, but for a release, and none of them reaches storage.
-/
namespace InodeBridge

open Storage (Call Event Tries HandsOutFresh)

def Request.transfers : Request → Bool
  | .read .. | .write .. => true
  | _ => false

/-- If calls are tried one after the other, a call among them is made unless one before it fails. -/
theorem Storage.Tries.reaches {first rest : List Call} {c : Call} {events : List Event}
    {failure : Option StorageError} (h : Tries (first ++ c :: rest) events failure) :
    (∃ result, ⟨c, result⟩ ∈ events) ∨ ∃ e, failure = some e ∧ Tries first events (some e) := by
  induction first generalizing events with
  | nil =>
    cases h with
    | next => exact .inl ⟨_, List.mem_cons_self⟩
    | fails => exact .inl ⟨_, List.mem_cons_self⟩
  | cons first others ih =>
    cases h with
    | next later =>
      rcases ih later with ⟨result, hmem⟩ | ⟨e, rfl, hfails⟩
      · exact .inl ⟨result, List.mem_cons_of_mem _ hmem⟩
      · exact .inr ⟨e, rfl, .next hfails⟩
    | fails e => exact .inr ⟨e, rfl, .fails e⟩

namespace Dispatcher

variable {d d' : Dispatcher} {req : Request} {events : List Event} {out : Option Outcome}
  {inode : Inode} {path : Path} {handle : Handle} {offset : Int64} {file : OpenFile}

section Requests

theorem positionOf_of_nonneg (h : 0 ≤ offset) : positionOf offset = .ok offset.toUInt64 := by
  rw [positionOf, if_neg (Int64.not_lt.2 h)]

theorem Begins.unique {c c' : Call} (h : Begins d req c) (h' : Begins d req c') : c' = c := by
  cases h <;> cases h' <;> simp_all

theorem Conduct.transfers (h : Conduct d req events out d') (moves : req.transfers = true) {c : Call}
    (begins : Begins d req c) : ∃ result, events = [⟨c, result⟩] := by
  cases h with
  | refused bad => cases bad.symm.trans begins.fault?_eq_none
  | settled _ settles =>
    cases begins with
    | read | write => cases settles
    | _ => cases moves
  | failed begins' e =>
    obtain rfl := begins.unique begins'
    exact ⟨_, rfl⟩
  | fetched placed held =>
    obtain rfl := begins.unique (.read placed held)
    exact ⟨_, rfl⟩
  | stored placed held writable =>
    obtain rfl := begins.unique (.write placed held writable)
    exact ⟨_, rfl⟩
  | made begins' makes | unseen begins' makes =>
    cases begins' with
    | read | write => cases makes
    | _ => cases moves
  | removed begins' removes =>
    cases begins' with
    | read | write => cases removes
    | _ => cases moves
  | _ => cases moves

theorem changeCalls_through {changes : AttributeChanges} {size : UInt64}
    (hthrough : d.sizedThrough? inode changes.handle = some file) (hsize : changes.size = some size) :
    d.changeCalls inode path changes =
      (changes.mode.map fun mode => .chmod path mode).toList ++ .truncateOpen file.fd size ::
        (if changes.accessed.isSome || changes.modified.isSome then
          [.setTimes path changes.accessed changes.modified] else []) := by
  simp [changeCalls, hsize, hthrough]

/-- The length of an open file is changed, and that of nothing else. -/
def Resizes (events : List Event) (fd : Descriptor) (size : UInt64) : Prop :=
  (∃ result, ⟨.truncateOpen fd size, result⟩ ∈ events) ∧
    ∀ event ∈ events, (∀ p n, event.call ≠ .truncate p n) ∧
      ∀ fd' n, event.call = .truncateOpen fd' n → fd' = fd ∧ n = size

theorem Resizes.append {fd : Descriptor} {size : UInt64} (h : Resizes events fd size)
    {rest : List Event} (hrest : ∀ event ∈ rest, event.call = .stat path) :
    Resizes (events ++ rest) fd size := by
  obtain ⟨⟨result, hmem⟩, honly⟩ := h
  refine ⟨⟨result, List.mem_append_left _ hmem⟩, List.forall_mem_append.2 ⟨honly, ?_⟩⟩
  intro event hevent
  simp [hrest event hevent]

/-- A change of the length through an open file comes after one of the mode, and before one of the
times. -/
theorem resizes_of_tries {mode : Option UInt32} {fd : Descriptor} {size : UInt64}
    {accessed modified : Option Timestamp} {failure : Option StorageError}
    (h : Tries ((mode.map fun mode => .chmod path mode).toList ++ .truncateOpen fd size ::
      (if accessed.isSome || modified.isSome then [.setTimes path accessed modified] else []))
      events failure) :
    Resizes events fd size ∨
      ∃ m e, mode = some m ∧ failure = some e ∧ events = [⟨.chmod path m, .error e⟩] := by
  rcases h.reaches with ⟨result, hmem⟩ | ⟨e, rfl, hfails⟩
  · refine .inl ⟨⟨result, hmem⟩, fun event hevent => ?_⟩
    have hcall := h.call_mem event hevent
    rw [List.mem_append, List.mem_cons] at hcall
    rcases hcall with hmode | hcall | htimes
    · obtain ⟨m, _, hcall⟩ := by simpa using hmode
      simp [← hcall]
    · simp [hcall, eq_comm]
    · split at htimes
      · simp [List.mem_singleton.1 htimes]
      · cases htimes
  · cases mode with
    | none => cases hfails
    | some m =>
      cases hfails with
      | next later => cases later
      | fails => exact .inr ⟨m, e, rfl, rfl, rfl⟩

/-- A new length that is accepted for an open file goes through its descriptor, unless the mode was to
be changed first and could not be. -/
theorem Conduct.sizes {changes : AttributeChanges} {size : UInt64}
    (h : Conduct d (.setattr inode changes) events out d')
    (bound : d.inodes.resolve? inode = some path) (hsize : changes.size = some size)
    (hthrough : d.sizedThrough? inode changes.handle = some file) :
    Resizes events file.fd size ∨
      ∃ mode e, changes.mode = some mode ∧ events = [⟨.chmod path mode, .error e⟩] := by
  obtain ⟨_, tried, failure, htries, hend⟩ := h.changes_attributes bound
  rw [changeCalls_through hthrough hsize] at htries
  rcases resizes_of_tries htries with hresizes | ⟨mode, e, hmode, rfl, rfl⟩
  · cases failure with
    | some e =>
      obtain ⟨rfl, _⟩ := hend
      exact .inl hresizes
    | none =>
      obtain ⟨result, rfl, _⟩ := hend
      have hstat : ∀ event ∈ [(⟨.stat path, result⟩ : Event)], event.call = .stat path := by simp
      exact .inl (hresizes.append hstat)
  · exact .inr ⟨mode, e, hmode, hend.1⟩

/-- Flushing and syncing make no call, and succeed on a handle that is held. -/
theorem Conduct.checks (h : Conduct d req events out d')
    (checks : d.fault? req = faultOf (d.fileOf handle)) (settles : req.settledBy? = some .ok)
    (held : d.handles.get? handle = some file) : events = [] ∧ out = some .ok := by
  rw [faultOf_eq_none (fileOf_eq_ok_iff.2 held)] at checks
  have hbegins {c : Call} (begins : Begins d req c) : False := by
    cases begins <;> cases settles
  cases h with
  | refused bad => cases bad.symm.trans checks
  | settled _ settles' =>
    cases settles.symm.trans settles'
    exact ⟨rfl, rfl⟩
  | failed begins | made begins | unseen begins | removed begins => exact (hbegins begins).elim
  | _ => cases settles

/-- Releasing closes the descriptor of a handle that is held, and succeeds on any. -/
theorem Conduct.releases (h : Conduct d (.release inode handle) events out d') :
    out = some .ok ∧ match d.handles.get? handle with
      | some file => ∃ result, events = [⟨.close file.fd, result⟩]
      | none => events = [] := by
  cases h with
  | refused bad => cases bad
  | settled _ settles => cases settles
  | failed begins | made begins | unseen begins | removed begins => cases begins
  | released held result =>
    rw [held]
    exact ⟨rfl, result, rfl⟩
  | unheld hnone =>
    rw [hnone]
    exact ⟨rfl, rfl⟩

end Requests

/-- Requests about a handle that holds a file go through its descriptor, but for writing if the file was
opened for reading. -/
structure Service.Honours (q : Service) (handle : Handle) (file : OpenFile) : Prop where
  read : ∀ inode offset size, q.request = .read inode handle offset size → 0 ≤ offset →
    ∃ result, q.events = [⟨.read file.fd offset.toUInt64 size, result⟩]
  write : ∀ inode offset data, q.request = .write inode handle offset data → 0 ≤ offset →
    file.mode = .readWrite → ∃ result, q.events = [⟨.write file.fd offset.toUInt64 data, result⟩]
  refuses_write : ∀ inode offset data, q.request = .write inode handle offset data → 0 ≤ offset →
    file.mode = .readOnly → q.events = [] ∧ q.outcome = some (.error Errno.badDescriptor)
  resize : ∀ changes size path, q.request = .setattr file.inode changes →
    changes.handle = some handle → changes.size = some size → file.mode = .readWrite →
    q.before.inodes.resolve? file.inode = some path → Resizes q.events file.fd size ∨
      ∃ mode e, changes.mode = some mode ∧ q.events = [⟨.chmod path mode, .error e⟩]
  flush : ∀ inode owner, q.request = .flush inode handle owner →
    q.events = [] ∧ q.outcome = some .ok
  fsync : ∀ inode dataOnly, q.request = .fsync inode handle dataOnly →
    q.events = [] ∧ q.outcome = some .ok
  release : ∀ inode, q.request = .release inode handle →
    q.outcome = some .ok ∧ ∃ result, q.events = [⟨.close file.fd, result⟩]

/-- Requests about a handle that holds no file make no call, and fail, but for a release. -/
structure Service.Rejects (q : Service) (handle : Handle) : Prop where
  read : ∀ inode offset size, q.request = .read inode handle offset size → 0 ≤ offset →
    q.events = [] ∧ q.outcome = some (.error Errno.inputOutput)
  write : ∀ inode offset data, q.request = .write inode handle offset data → 0 ≤ offset →
    q.events = [] ∧ q.outcome = some (.error Errno.inputOutput)
  flush : ∀ inode owner, q.request = .flush inode handle owner →
    q.events = [] ∧ q.outcome = some (.error Errno.inputOutput)
  fsync : ∀ inode dataOnly, q.request = .fsync inode handle dataOnly →
    q.events = [] ∧ q.outcome = some (.error Errno.inputOutput)
  release : ∀ inode, q.request = .release inode handle → q.events = [] ∧ q.outcome = some .ok

/-- Reading and writing before the start of a file is refused, whatever the handle. -/
structure Service.ChecksOffset (q : Service) : Prop where
  read : ∀ inode handle offset size, q.request = .read inode handle offset size → offset < 0 →
    q.events = [] ∧ q.outcome = some (.error Errno.invalid)
  write : ∀ inode handle offset data, q.request = .write inode handle offset data → offset < 0 →
    q.events = [] ∧ q.outcome = some (.error Errno.invalid)

/-- Opening what is at a path for reading and writing, and only for reading if that fails; with the
descriptor and the mode that was granted. -/
inductive Opening (path : Path) : List Event → Option (Descriptor × OpenMode) → Prop
  | toWrite (fd : Descriptor) :
    Opening path [⟨.open path .readWrite, .ok fd⟩] (some (fd, .readWrite))
  | toRead (e : StorageError) (fd : Descriptor) :
    Opening path [⟨.open path .readWrite, .error e⟩, ⟨.open path .readOnly, .ok fd⟩]
      (some (fd, .readOnly))
  | refused (e e' : StorageError) :
    Opening path [⟨.open path .readWrite, .error e⟩, ⟨.open path .readOnly, .error e'⟩] none

/-- A file that is opened is held in the mode that was granted; the request fails if none was. -/
structure Service.OpensAsGranted (q : Service) : Prop where
  bound : ∀ inode flags path, q.request = .open inode flags →
    q.before.inodes.resolve? inode = some path → ∃ granted, Opening path q.events granted ∧
      match granted with
      | some (fd, mode) => ∃ handle, q.outcome = some (.opened ⟨handle, 0⟩) ∧
          q.after.handles.get? handle = some ⟨inode, fd, mode⟩
      | none => q.outcome = some (.error Errno.inputOutput)
  unbound : ∀ inode flags, q.request = .open inode flags → q.before.inodes.resolve? inode = none →
    q.events = [] ∧ q.outcome = some (.error Errno.noEntry)

section Services

variable {q : Service}

theorem Conduct.honours (h : Conduct q.before q.request q.events q.outcome q.after)
    (held : q.before.handles.get? handle = some file) : q.Honours handle file := by
  obtain ⟨before, request, events, outcome, after⟩ := q
  have hfile := fileOf_eq_ok_iff.2 held
  constructor
  · rintro inode offset size rfl hoffset
    exact h.transfers rfl (.read (positionOf_of_nonneg hoffset) held)
  · rintro inode offset data rfl hoffset hmode
    exact h.transfers rfl
      (.write (positionOf_of_nonneg hoffset) held (OpenMode.isWritable_iff.2 hmode))
  · rintro inode offset data rfl hoffset hmode
    have hfault : before.fault? (.write inode handle offset data) = some (.readOnlyHandle handle) := by
      simp [fault?, positionOf_of_nonneg hoffset, hfile, faultOf, held, hmode, OpenMode.isWritable]
    obtain ⟨hevents, hout, _⟩ := h.refused_of_fault? hfault
    exact ⟨hevents, hout⟩
  · rintro changes size path rfl hhandle hsize hmode hbound
    exact h.sizes hbound hsize (sizedThrough?_eq_some_iff.2 ⟨handle, hhandle, held, rfl, hmode⟩)
  · rintro inode owner rfl
    exact h.checks rfl rfl held
  · rintro inode dataOnly rfl
    exact h.checks rfl rfl held
  · rintro inode rfl
    have hreleases := h.releases
    rw [held] at hreleases
    exact hreleases

theorem Conduct.rejects (h : Conduct q.before q.request q.events q.outcome q.after)
    (unheld : q.before.handles.get? handle = none) : q.Rejects handle := by
  obtain ⟨before, request, events, outcome, after⟩ := q
  have hfile : before.fileOf handle = .error (.unknownHandle handle) := by
    rw [fileOf, unheld]
  have hrefused (hfault : before.fault? request = some (.unknownHandle handle)) :
      events = [] ∧ outcome = some (.error Errno.inputOutput) := by
    obtain ⟨hevents, hout, _⟩ := h.refused_of_fault? hfault
    exact ⟨hevents, hout⟩
  constructor
  · rintro inode offset size rfl hoffset
    exact hrefused (by simp [fault?, positionOf_of_nonneg hoffset, hfile, faultOf])
  · rintro inode offset data rfl hoffset
    exact hrefused (by simp [fault?, positionOf_of_nonneg hoffset, hfile, faultOf])
  · rintro inode owner rfl
    exact hrefused (by simp [fault?, hfile, faultOf])
  · rintro inode dataOnly rfl
    exact hrefused (by simp [fault?, hfile, faultOf])
  · rintro inode rfl
    have hreleases := h.releases
    rw [unheld] at hreleases
    exact hreleases.symm

theorem Conduct.checksOffset (h : Conduct q.before q.request q.events q.outcome q.after) :
    q.ChecksOffset := by
  obtain ⟨before, request, events, outcome, after⟩ := q
  have hrefused (offset : Int64) (hfault : before.fault? request = some (.badOffset offset)) :
      events = [] ∧ outcome = some (.error Errno.invalid) := by
    obtain ⟨hevents, hout, _⟩ := h.refused_of_fault? hfault
    exact ⟨hevents, hout⟩
  constructor
  · rintro inode handle offset size rfl hoffset
    exact hrefused offset (by simp [fault?, positionOf, hoffset, faultOf])
  · rintro inode handle offset data rfl hoffset
    exact hrefused offset (by simp [fault?, positionOf, hoffset, faultOf])

/-- A file that was opened is held under the number that was issued for it, if that is not zero. -/
theorem Conduct.opensAsGranted (h : Conduct q.before q.request q.events q.outcome q.after)
    (numbered : q.issued? ≠ some 0) : q.OpensAsGranted := by
  obtain ⟨before, request, events, outcome, after⟩ := q
  constructor
  · rintro inode flags path rfl hbound
    have hpath {other : Path} (hother : before.inodes.resolve? inode = some other) : other = path :=
      Option.some.inj (hother.symm.trans hbound)
    change Conduct before _ events outcome after at h
    cases h with
    | refused bad => cases bad.symm.trans (faultOf_eq_none (pathOf_eq_ok_iff.2 hbound))
    | settled _ settles => cases settles
    | failed begins | made begins | unseen begins | removed begins => cases begins
    | @opened _ _ _ file bound hinode hmode =>
      obtain rfl := hpath bound
      obtain ⟨_, fd, _⟩ := file
      cases hinode
      cases hmode
      exact ⟨_, .toWrite fd, _, rfl, HandleTable.get?_insert_self fun hzero =>
        numbered (congrArg some hzero)⟩
    | @openedToRead _ _ _ file bound hinode hmode e =>
      obtain rfl := hpath bound
      obtain ⟨_, fd, _⟩ := file
      cases hinode
      cases hmode
      exact ⟨_, .toRead e fd, _, rfl, HandleTable.get?_insert_self fun hzero =>
        numbered (congrArg some hzero)⟩
    | unopened bound e e' =>
      obtain rfl := hpath bound
      exact ⟨_, .refused e e', rfl⟩
  · rintro inode flags rfl hunbound
    have hfault : before.fault? (.open inode flags) = some (.unknownInode inode) := by
      rw [fault?, pathOf, hunbound, faultOf]
    obtain ⟨hevents, hout, _⟩ := h.refused_of_fault? hfault
    exact ⟨hevents, hout⟩

end Services
section Runs

variable {σ : Type} {s : Storage σ} {d d' : Dispatcher} {state state' : σ}
  {before rest : List Service} {q : Service}

theorem Service.ends_of_issued {r : Service} (h : r.issued? ≠ some 0) : r.Ends := by
  intro hopens hzero
  apply h
  rw [Service.issued?, Dispatcher.issued?, if_pos hopens, hzero]

/-- While storage hands out no descriptor that is open, none is held twice when a request begins. -/
theorem RunsOver.nodup_before (h : RunsOver s d state (before ++ q :: rest) d' state')
    (hempty : d.handles.descriptors = 0) (hends : ∀ r ∈ before, r.Ends)
    (hfresh : HandsOutFresh (before.flatMap (·.events))) : q.before.handles.descriptors.Nodup := by
  obtain ⟨mid, midState, hbefore, hrest⟩ := h.of_append
  have hbalance := hbefore.balance hends
  rw [hempty, zero_add] at hbalance
  cases hrest with
  | cons reorders serves later =>
    obtain ⟨_, rfl, _⟩ := of_serveOver serves
    rw [reorders.descriptors]
    exact hfresh.nodup hbalance

end Runs

/-- In a run that issues fewer handles than there are numbers: from the reply that issues a handle
until that is released, or all are, requests about it go to storage with the descriptor that was
opened for it; at any other time they are rejected, and no number is issued twice.  Storage is asked
to change an open file only through a handle that lives and was opened for writing, and if it hands
out no descriptor that is open, no other handle that lives has the same one.  Files are opened in the
mode that is granted. -/
theorem handles_gate_open_files {σ : Type} (s : Storage σ) (number : Numbering)
    (options : MountOptions) (root : Path) (state state' : σ) (hist : List Service) (d : Dispatcher)
    (hrun : RunsOver s (start number options root) state hist d state')
    (room : issues hist < UInt64.size) :
    ∀ before q rest, hist = before ++ q :: rest →
      (∀ handle file, Live before handle file → q.Honours handle file) ∧
      (∀ handle, (∀ file, ¬ Live before handle file) → q.Rejects handle) ∧
      (∀ handle, q.issued? = some handle → handle ≠ 0 ∧ (∃ file, q.Issues handle file) ∧
        ∀ later ∈ rest, later.issued? ≠ some handle) ∧
      (∀ event ∈ q.events, ∀ fd, event.call.altersOpen = true → event.call.descriptor? = some fd →
        ∃ handle inode, Live before handle ⟨inode, fd, .readWrite⟩ ∧
          (HandsOutFresh (before.flatMap (·.events)) → ∀ other file, Live before other file →
            file.fd = fd → other = handle)) ∧
      q.ChecksOffset ∧ q.OpensAsGranted := by
  rintro before q rest rfl
  have htracks : Tracks [] (start number options root).handles := tracks_new
  obtain ⟨hthen, hconduct, hroom⟩ := hrun.tracks_before htracks room
  have hnumbered := hrun.issued_ne_zero htracks room
  refine ⟨fun handle file hlive => hconduct.honours ((hthen.live handle file).2 hlive), ?_, ?_, ?_,
    hconduct.checksOffset, hconduct.opensAsGranted (hnumbered q (by simp))⟩
  · intro handle hdead
    have hunheld : q.before.handles.get? handle = none :=
      Option.eq_none_iff_forall_ne_some.2 fun file held => hdead file ((hthen.live _ _).1 held)
    exact hconduct.rejects hunheld
  · intro handle hissued
    refine ⟨?_, ((hthen.serve hconduct hroom).1 handle hissued).2,
      hrun.issued_once htracks room hissued⟩
    rintro rfl
    exact hnumbered q (by simp) hissued
  · intro event hevent fd halters hfd
    have hcloses : event.closed? = none := by
      obtain ⟨c, result⟩ := event
      cases c <;> first | rfl | cases halters
    obtain ⟨⟨handle, file, held, rfl, hmode⟩, _⟩ := hconduct.goesThrough hevent hfd hcloses
    obtain ⟨inode, fd, mode⟩ := file
    obtain rfl : mode = .readWrite := hmode halters
    refine ⟨handle, inode, (hthen.live _ _).1 held, fun hfresh other file hlive hsame => ?_⟩
    have hends : ∀ r ∈ before, r.Ends := fun r hr =>
      Service.ends_of_issued (hnumbered r (List.mem_append_left _ hr))
    have hnodup := hrun.nodup_before rfl hends hfresh
    exact HandleTable.handle_eq_of_nodup hnodup held ((hthen.live _ _).2 hlive) hsame

/-- A file is created, opened once more while storage does not let it be written, and removed.  The
handle that created it still writes to it; the other one does not. -/
theorem removed_file_is_written :
    let root : Path := ⟨[slash]⟩
    let storage := (HostStorage.serving root).withFailures fun
      | .open _ .readWrite => true
      | _ => false
    let state := (List.replicate 3 (some (.host Errno.inputOutput)),
      HostStorage.new (Host.fresh 0 .epoch .fallback))
    let first := start (fun _ salt => salt + 2) {} root
    let requests : List Request :=
      [.create rootInode [0x61] 0o644 0, .open 2 0, .unlink rootInode [0x61]]
    let before := serveAll storage first state requests
    let met := stateAfter storage first state requests
    let writing (handle : Handle) := (serveOver storage met.1 met.2 (.write 2 handle 0 [7])).1
    (∀ handle, issues (before ++ [writing handle]) < UInt64.size) ∧
    Live before 1 ⟨2, 1, .readWrite⟩ ∧
    (∃ result, (writing 1).events = [⟨.write 1 0 [7], result⟩]) ∧
    Live before 2 ⟨2, 2, .readOnly⟩ ∧
    (writing 2).events = [] ∧ (writing 2).outcome = some (.error Errno.badDescriptor) := by
  intro root storage state first requests before met writing
  have hissues : issues before = 2 := by decide +kernel
  have hroom : ∀ handle, issues (before ++ [writing handle]) < UInt64.size := by
    intro handle
    have hnone : (writing handle).issued? = none := rfl
    rw [issues_append, hissues, issues_singleton_none hnone]
    decide
  have htracks : Tracks ([] ++ before) met.1.handles :=
    (runsOver_serveAll storage first state requests).tracks tracks_new (by
      rw [List.nil_append, hissues]
      decide)
  have hlive : Live before 1 ⟨2, 1, .readWrite⟩ := (htracks.live _ _).1 (by decide +kernel)
  have hlive' : Live before 2 ⟨2, 2, .readOnly⟩ := (htracks.live _ _).1 (by decide +kernel)
  have hrun (handle : Handle) := (runsOver_serveAll storage first state requests).append
    (runsOver_serveAll storage met.1 met.2 [.write 2 handle 0 [7]])
  have hgate (handle : Handle) := handles_gate_open_files storage (fun _ salt => salt + 2) {} root
    state _ _ _ (hrun handle) (hroom handle) before (writing handle) [] rfl
  exact ⟨hroom, hlive, ((hgate 1).1 1 _ hlive).write 2 0 [7] rfl (by decide) rfl, hlive',
    ((hgate 2).1 2 _ hlive').refuses_write 2 0 [7] rfl (by decide) rfl⟩

end Dispatcher
end InodeBridge
