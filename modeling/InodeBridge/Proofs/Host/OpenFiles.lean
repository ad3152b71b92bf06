import InodeBridge.Proofs.Dispatcher.Descriptors
import InodeBridge.Proofs.HandleTable.Issuing

/-! # Open files of a host

A host is not alone: between two calls others may change it in any way, and a call to it may fail for
any reason.  The table of open files takes no part in that.  A call puts the file it opened into the
table, takes the one it closes out, or leaves the table as it is; so the descriptors in the table are
those that were handed out and not given back.
-/
namespace InodeBridge

open Storage (Call Event openedIn closedIn)

def Storage.Call.descriptor? : Call → Option Descriptor
  | .truncateOpen fd _ | .read fd .. | .write fd .. | .close fd => some fd
  | _ => none

/-- What comes between two calls to a host. -/
structure Disturbance where
  /-- What others do to the host. -/
  host : Host → Host
  /-- How the next attempts to read go. -/
  transfers : List Transfer
  /-- Why the host fails the call, if it does. -/
  failure : Option StorageError

namespace HostStorage

/-- What the next call meets: the storage after the disturbance before it. -/
def met (state : List Disturbance × HostStorage) : HostStorage :=
  match state.1.head? with
  | some disturbance =>
    { state.2 with
      host := disturbance.host state.2.host
      transfers := disturbance.transfers }
  | none => state.2

/-- Whether a call is passed on to the host.  A file is closed whatever the host says, and a
descriptor under which there is no file is turned away before. -/
def passesOn (s : HostStorage) : Call → Bool
  | .close _ => false
  | .truncateOpen fd _ | .read fd .. | .write fd .. => s.files.contains fd
  | _ => true

/-- The storage that serves a directory of a host, each call to which may meet a disturbance. -/
def disturbed (root : Path) : Storage (List Disturbance × HostStorage) where
  root := root
  perform c state :=
    match (state.1.head?.bind (·.failure)).filter fun _ => (met state).passesOn c with
    | some e => (.error e, (state.1.tail, met state))
    | none =>
      let (r, next) := (serving root).perform c (met state)
      (r, (state.1.tail, next))

def opens? (s : HostStorage) : Call → Option HostFile
  | .create path mode =>
    (s.host.openOrCreate path mode).toOption.map fun opened => ⟨opened.1, true⟩
  | .open path mode =>
    (s.host.openExisting path .follow mode.isWritable).toOption.map (⟨·, mode.isWritable⟩)
  | _ => none

/-- What a call does to the table of open files. -/
inductive Turns (s : HostStorage) : Event → HandleTable HostFile → Prop
  | opens {event : Event} {file : HostFile} (opened : s.opens? event.call = some file)
    (handsOut : event.opened? = some (s.files.insert file).1) :
    Turns s event (s.files.insert file).2
  | closes {fd : Descriptor} {file : HostFile} (held : s.files.get? fd = some file) :
    Turns s ⟨.close fd, .ok ()⟩ (s.files.remove fd).2
  /-- There is no file to close. -/
  | unheld {fd : Descriptor} (e : StorageError) (missing : s.files.get? fd = none) :
    Turns s ⟨.close fd, .error e⟩ s.files
  | keeps {event : Event} (opens : event.opened? = none) (closes : event.closed? = none) :
    Turns s event s.files

section Step

variable {s : HostStorage}

@[simp] theorem files_met (state : List Disturbance × HostStorage) :
    (met state).files = state.2.files := by
  unfold met
  split <;> rfl

@[simp] theorem files_change (r : Except Errno Host) : (s.change r).2.files = s.files := by
  cases r <;> rfl

@[simp] theorem files_setLength (file : HostFile) (size : UInt64) :
    (s.setLength file size).2.files = s.files := by
  unfold setLength
  split
  · exact files_change _
  · rfl

/-- A call by which no descriptor goes either way leaves the open files alone. -/
theorem files_answer {c : Call} (h : c.turnsOver = false) : (answer c s).2.files = s.files := by
  cases c with
  | create | «open» | close => cases h
  | stat | readlink | readdir | statfs => rfl
  | chmod | setTimes | mkdir | symlink | link | unlink | rmdir | rename => exact files_change _
  | truncate path size =>
    simp only [answer, truncate]
    split
    · exact files_setLength _ _
    · rfl
  | truncateOpen fd size =>
    simp only [answer]
    split
    · exact files_setLength _ _
    · rfl
  | read fd offset size =>
    simp only [answer, read]
    split <;> rfl
  | write fd offset data =>
    simp only [answer, write]
    split
    · rfl
    · split
      · rfl
      · split <;> rfl

/-- A call that fails hands nothing out, and only a close call gives something back. -/
theorem turns_of_failure {c : Call} (e : StorageError) (h : c.closed? = none) :
    s.Turns ⟨c, .error e⟩ s.files :=
  .keeps (Event.opened?_error c e) h

theorem turns_answer (c : Call) : s.Turns ⟨c, (answer c s).1⟩ (answer c s).2.files := by
  cases hturns : c.turnsOver with
  | false =>
    rw [files_answer hturns]
    exact .keeps (Event.opened?_eq_none hturns) (Event.closed?_eq_none hturns)
  | true =>
    cases c with
    | create path mode =>
      cases hopen : s.host.openOrCreate path mode with
      | error e =>
        simp only [answer, hopen, register]
        exact turns_of_failure _ rfl
      | ok opened =>
        simp only [answer, hopen, register]
        exact .opens (by simp [opens?, hopen, Except.toOption]) rfl
    | «open» path mode =>
      cases hopen : s.host.openExisting path .follow mode.isWritable with
      | error e =>
        simp only [answer, hopen, Except.map, register]
        exact turns_of_failure _ rfl
      | ok object =>
        simp only [answer, hopen, Except.map, register]
        exact .opens (by simp [opens?, hopen, Except.toOption]) rfl
    | close fd =>
      cases hheld : s.files.get? fd with
      | none =>
        simp only [answer, close, HandleTable.remove_eq_of_get?_eq_none hheld]
        exact .unheld _ hheld
      | some file =>
        have hremove : s.files.remove fd = (some file, (s.files.remove fd).2) :=
          Prod.ext hheld rfl
        simp only [answer, close]
        rw [hremove]
        exact .closes hheld
    | _ => cases hturns

theorem turns_serving (root : Path) (c : Call) :
    s.Turns ⟨c, ((serving root).perform c s).1⟩ ((serving root).perform c s).2.files := by
  simp only [serving]
  split
  next => exact turns_answer c
  next hpaths =>
    apply turns_of_failure
    cases c <;> first | rfl | exact absurd rfl hpaths

variable {files : HandleTable HostFile} {event : Event}

/-- What was held or handed out is held or was given back after the call, if a file that is closed is
there and a number is left for one that is opened. -/
theorem Turns.balance (h : s.Turns event files)
    (hclosed : closedIn [event] ≤ s.files.keys + openedIn [event])
    (hroom : s.files.size + (openedIn [event]).card < UInt64.size) :
    s.files.keys + openedIn [event] = files.keys + closedIn [event] := by
  cases h with
  | opens opened handsOut =>
    rw [Storage.openedIn_singleton handsOut, Multiset.card_singleton] at hroom
    have hcloses : event.closed? = none := by
      obtain ⟨c, result⟩ := event
      cases c <;> first | rfl | cases opened
    rw [Storage.openedIn_singleton handsOut, Storage.closedIn_singleton_none hcloses,
      HandleTable.keys_insert (HandleTable.insert_ne_zero hroom), add_zero, add_comm,
      Multiset.singleton_add]
  | @closes fd file held =>
    have hcloses : closedIn [⟨.close fd, .ok ()⟩] = {fd} := rfl
    have hopens : openedIn [⟨.close fd, .ok ()⟩] = 0 := rfl
    rw [hcloses, hopens, HandleTable.keys_remove held, add_zero, add_comm,
      Multiset.singleton_add]
  | @unheld fd e missing =>
    have hopens : openedIn [⟨.close fd, .error e⟩] = 0 := rfl
    rw [hopens, add_zero] at hclosed
    have hmem : fd ∈ s.files.keys := Multiset.singleton_le.1 hclosed
    rw [HandleTable.mem_keys_iff, missing] at hmem
    cases hmem
  | keeps opens closes =>
    rw [Storage.openedIn_singleton_none opens, Storage.closedIn_singleton_none closes]

/-- The open files are values of a table of handles, which hands out the descriptors. -/
theorem Turns.issues {turns : List (HandleTable.Event HostFile)} (h : s.Turns event files)
    (hrun : HandleTable.Run turns s.files)
    (hroom : s.files.size + (openedIn [event]).card < UInt64.size) :
    ∃ turns', HandleTable.Run turns' files ∧
      HandleTable.issued turns' = HandleTable.issued turns ++ event.opened?.toList := by
  cases h with
  | @opens _ file _ handsOut =>
    rw [Storage.openedIn_singleton handsOut, Multiset.card_singleton] at hroom
    have hnumber : (s.files.insert file).1 ≠ 0 := HandleTable.insert_ne_zero hroom
    have hputs := HandleTable.puts_insert file ⟨_, hnumber, HandleTable.get?_insert_fst hnumber⟩
    refine ⟨_, hrun.next (.inserted hputs), ?_⟩
    rw [HandleTable.issued_append, handsOut]
    rfl
  | closes => exact ⟨_, hrun.next (.removed _ _), HandleTable.issued_append ..⟩
  | unheld => exact ⟨turns, hrun, (List.append_nil _).symm⟩
  | keeps opens => exact ⟨turns, hrun, by rw [opens, Option.toList_none, List.append_nil]⟩

/-- A file that is there after a call was there before it, or the call opened it. -/
theorem Turns.of_held (h : s.Turns event files)
    (hroom : s.files.size + (openedIn [event]).card < UInt64.size) {fd : Descriptor}
    {file : HostFile} (held : files.get? fd = some file) :
    s.files.get? fd = some file ∨
      event.opened? = some fd ∧ s.opens? event.call = some file := by
  cases h with
  | opens opened handsOut =>
    rw [Storage.openedIn_singleton handsOut, Multiset.card_singleton] at hroom
    rw [HandleTable.get?_insert (HandleTable.insert_ne_zero hroom)] at held
    split at held
    next hnew =>
      obtain rfl := Option.some.inj held
      exact .inr ⟨hnew ▸ handsOut, opened⟩
    next => exact .inl held
  | closes =>
    rw [HandleTable.get?_remove] at held
    split at held
    · cases held
    · exact .inl held
  | unheld => exact .inl held
  | keeps => exact .inl held

theorem Turns.close_ok {fd : Descriptor} {result : (Call.close fd).Result}
    (h : s.Turns ⟨.close fd, result⟩ files) (held : (s.files.get? fd).isSome) :
    result = .ok () := by
  cases h with
  | opens _ handsOut => cases handsOut
  | closes => rfl
  | unheld _ missing => simp [missing] at held
  | keeps _ closes => cases closes

end Step

section Calls

variable {root : Path} {first state state' : List Disturbance × HostStorage} {event : Event}
  {events : List Event} {fd : Descriptor}

/-- Whatever comes between, a call does no more to the open files than it does on its own. -/
theorem turns_perform
    (h : (disturbed root).perform event.call state = (event.result, state')) :
    (met state).Turns event state'.2.files := by
  obtain ⟨c, result⟩ := event
  simp only [disturbed] at h
  split at h
  next e hfails =>
    obtain ⟨rfl, rfl⟩ := Prod.mk.inj h
    have hpasses := (Option.filter_eq_some_iff.1 hfails).2
    apply turns_of_failure
    cases c <;> first | rfl | cases hpasses
  next =>
    obtain ⟨rfl, rfl⟩ := Prod.mk.inj h
    exact turns_serving root c

/-- A call among some events opened a file under a descriptor. -/
def OpenedBy (root : Path) (first : List Disturbance × HostStorage) (events : List Event)
    (event : Event) (fd : Descriptor) (file : HostFile) : Prop :=
  ∃ before later mid, events = before ++ event :: later ∧
    (disturbed root).Answers first before mid ∧ event.opened? = some fd ∧
      (met mid).opens? event.call = some file

theorem OpenedBy.mem {file : HostFile} (h : OpenedBy root first events event fd file) :
    event ∈ events := by
  obtain ⟨before, later, _, rfl, _⟩ := h
  exact List.mem_append_right _ List.mem_cons_self

theorem OpenedBy.opened?_eq {file : HostFile} (h : OpenedBy root first events event fd file) :
    event.opened? = some fd := by
  obtain ⟨_, _, _, _, _, hopened, _⟩ := h
  exact hopened

/-- After some events that begin with no file open, the open files are those that were opened and not
closed, and their descriptors were handed out by counting. -/
structure Accounts (root : Path) (first : List Disturbance × HostStorage) (events : List Event)
    (state : List Disturbance × HostStorage) : Prop where
  answers : (disturbed root).Answers first events state
  balance : state.2.files.keys + closedIn events = openedIn events
  issued : ∃ turns, HandleTable.Run turns state.2.files ∧
    HandleTable.issued turns = events.filterMap Event.opened?
  origin : ∀ fd file, state.2.files.get? fd = some file →
    ∃ event, OpenedBy root first events event fd file

theorem accounts_new (root : Path) (disturbances : List Disturbance) (host : Host) :
    Accounts root (disturbances, new host) [] (disturbances, new host) where
  answers := rfl
  balance := rfl
  issued := ⟨[], .start, rfl⟩
  origin := nofun

namespace Accounts

theorem size_le (h : Accounts root first events state) :
    state.2.files.size ≤ (openedIn events).card := by
  rw [← HandleTable.card_keys, ← h.balance, Multiset.card_add]
  exact Nat.le_add_right _ _

theorem nodup (h : Accounts root first events state)
    (hroom : (openedIn events).card < UInt64.size) : (openedIn events).Nodup := by
  obtain ⟨turns, hrun, hissued⟩ := h.issued
  rw [openedIn, ← hissued, Multiset.coe_card] at hroom
  rw [openedIn, ← hissued, (hrun.counts hroom).issued_eq]
  exact Multiset.coe_nodup.2 (HandleTable.nodup_numbers hroom)

/-- Under a descriptor there is a file from the call that hands it out to the one that gives it back. -/
theorem get?_isSome_iff (h : Accounts root first events state)
    (hroom : (openedIn events).card < UInt64.size) :
    (state.2.files.get? fd).isSome ↔ fd ∈ openedIn events ∧ fd ∉ closedIn events := by
  have hcount := congrArg (Multiset.count fd) h.balance
  have honce := Multiset.nodup_iff_count_le_one.1 (h.nodup hroom) fd
  rw [Multiset.count_add] at hcount
  rw [← HandleTable.mem_keys_iff, ← Multiset.count_pos, ← Multiset.count_pos, ← Multiset.count_eq_zero]
  omega

/-- A call keeps the accounts, if a file that it closes is there and a number is left for one that it
opens. -/
theorem next (h : Accounts root first events state)
    (hcall : (disturbed root).perform event.call state = (event.result, state'))
    (hclosed : closedIn [event] ≤ state.2.files.keys + openedIn [event])
    (hroom : (openedIn (events ++ [event])).card < UInt64.size) :
    state.2.files.keys + openedIn [event] = state'.2.files.keys + closedIn [event] ∧
      Accounts root first (events ++ [event]) state' := by
  have hturns := turns_perform hcall
  rw [Storage.openedIn_append, Multiset.card_add] at hroom
  have hsize : (met state).files.size + (openedIn [event]).card < UInt64.size := by
    rw [files_met]
    exact (Nat.add_le_add_right h.size_le _).trans_lt hroom
  have hkeys := hturns.balance (by rwa [files_met]) hsize
  rw [files_met] at hkeys
  refine ⟨hkeys, ?_, ?_, ?_, fun fd file hheld => ?_⟩
  · exact Storage.answers_append.2 ⟨state, h.answers, state', hcall, rfl⟩
  · rw [Storage.closedIn_append, Storage.openedIn_append, add_comm (closedIn events), ← add_assoc,
      ← hkeys, add_right_comm, h.balance]
  · obtain ⟨turns, hrun, hissued⟩ := h.issued
    obtain ⟨turns', hrun', hissued'⟩ := hturns.issues (by rwa [files_met]) hsize
    refine ⟨turns', hrun', ?_⟩
    rw [hissued', hissued, List.filterMap_append]
    cases hopened : event.opened? <;> simp [hopened]
  · rcases hturns.of_held hsize hheld with hold | ⟨hopened, hopens⟩
    · rw [files_met] at hold
      obtain ⟨event', before, later, mid, hevents, hrest⟩ := h.origin fd file hold
      exact ⟨event', before, later ++ [event], mid, by rw [hevents]; simp, hrest⟩
    · exact ⟨event, events, [], state, rfl, h.answers, hopened, hopens⟩

end Accounts

theorem read_of_missing {offset : UInt64} {size : UInt32} {result : (Call.read fd offset size).Result}
    (h : (disturbed root).perform (.read fd offset size) state = (result, state'))
    (hmissing : state.2.files.get? fd = none) : result = .error (.host Errno.badDescriptor) := by
  have hpasses : (met state).passesOn (.read fd offset size) = false := by
    rw [passesOn, HandleTable.contains, FiniteMap.contains_eq_false_iff, files_met]
    exact hmissing
  have hfile : (met state).file fd = .error Errno.badDescriptor := by
    rw [file, files_met, hmissing]
  have hanswer : (serving root).perform (.read fd offset size) (met state) =
      (.error (.host Errno.badDescriptor), met state) := by
    change (met state).read fd offset size = _
    rw [read, hfile]
    rfl
  simp only [disturbed] at h
  split at h
  next hfails =>
    have hpassed := (Option.filter_eq_some_iff.1 hfails).2
    rw [hpasses] at hpassed
    cases hpassed
  next =>
    exact (Prod.mk.inj h).1.symm.trans (congrArg Prod.fst hanswer)

end Calls

end HostStorage
end InodeBridge
