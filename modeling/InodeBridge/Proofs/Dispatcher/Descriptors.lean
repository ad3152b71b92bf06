import InodeBridge.HostStorage
import InodeBridge.Proofs.Dispatcher.Reordering
import InodeBridge.Proofs.HandleTable
import InodeBridge.Storage.Variants

/-! # Where descriptors go

Storage hands a descriptor out with the answer to a create or open call and gets it back with a
close call, whatever it answers to that.  In between a handle holds it, unless the request that
opened the file fails: then it is closed before the request ends.  So at any time the descriptors
that were handed out are those that are held and those that were closed, each as often as it was
handed out.
-/
namespace InodeBridge

namespace Storage

def Call.turnsOver : Call → Bool
  | .create .. | .open .. | .close _ => true
  | _ => false

def Event.opened? : Event → Option Descriptor
  | ⟨.create .., .ok fd⟩ | ⟨.open .., .ok fd⟩ => some fd
  | _ => none

def Call.closed? : Call → Option Descriptor
  | .close fd => some fd
  | _ => none

/-- The descriptor that was given back, whatever the call gave. -/
def Event.closed? (event : Event) : Option Descriptor := event.call.closed?

def openedIn (events : List Event) : Multiset Descriptor := ↑(events.filterMap Event.opened?)

def closedIn (events : List Event) : Multiset Descriptor := ↑(events.filterMap Event.closed?)

theorem closedIn_eq (events : List Event) :
    closedIn events = ↑((events.map (·.call)).filterMap Call.closed?) := by
  rw [List.filterMap_map]
  rfl

/-- Storage hands out no descriptor that is still open: each was given back as often as it was
handed out before. -/
def HandsOutFresh (events : List Event) : Prop :=
  ∀ n (h : n < events.length), ∀ fd ∈ events[n].opened?,
    (openedIn (events.take n)).count fd ≤ (closedIn (events.take n)).count fd

-- at each event only the descriptor that was handed out is tried, not all there are
instance (events : List Event) : Decidable (HandsOutFresh events) :=
  @Nat.decidableBallLT events.length _ fun n _ => Option.decidableForallMem events[n].opened?

section Events

variable {event : Event} {events : List Event}

theorem Event.opened?_eq_none (h : event.call.turnsOver = false) : event.opened? = none := by
  obtain ⟨c, result⟩ := event
  cases c <;> first | rfl | cases h

theorem Event.closed?_eq_none (h : event.call.turnsOver = false) : event.closed? = none := by
  obtain ⟨c, result⟩ := event
  cases c <;> first | rfl | cases h

theorem Event.opened?_of_closed? {fd : Descriptor} (h : event.closed? = some fd) :
    event.opened? = none := by
  obtain ⟨c, result⟩ := event
  cases c <;> first | rfl | cases h

@[simp] theorem Event.opened?_error (c : Call) (e : StorageError) :
    opened? ⟨c, .error e⟩ = none := by
  cases c <;> rfl

@[simp] theorem openedIn_nil : openedIn [] = 0 := rfl

@[simp] theorem closedIn_nil : closedIn [] = 0 := rfl

@[simp] theorem openedIn_append (first rest : List Event) :
    openedIn (first ++ rest) = openedIn first + openedIn rest := by
  simp [openedIn, List.filterMap_append]

@[simp] theorem closedIn_append (first rest : List Event) :
    closedIn (first ++ rest) = closedIn first + closedIn rest := by
  simp [closedIn, List.filterMap_append]

theorem openedIn_cons (event : Event) (events : List Event) :
    openedIn (event :: events) = openedIn [event] + openedIn events :=
  openedIn_append [event] events

theorem closedIn_cons (event : Event) (events : List Event) :
    closedIn (event :: events) = closedIn [event] + closedIn events :=
  closedIn_append [event] events

theorem mem_openedIn_iff {fd : Descriptor} :
    fd ∈ openedIn events ↔ ∃ event ∈ events, event.opened? = some fd := by
  simp [openedIn]

theorem openedIn_eq_zero (h : ∀ event ∈ events, event.opened? = none) : openedIn events = 0 := by
  rw [openedIn, List.filterMap_eq_nil_iff.2 h]
  rfl

theorem closedIn_eq_zero (h : ∀ event ∈ events, event.closed? = none) : closedIn events = 0 := by
  rw [closedIn, List.filterMap_eq_nil_iff.2 h]
  rfl

theorem openedIn_singleton_none (h : event.opened? = none) : openedIn [event] = 0 :=
  openedIn_eq_zero (List.forall_mem_singleton.2 h)

theorem closedIn_singleton_none (h : event.closed? = none) : closedIn [event] = 0 :=
  closedIn_eq_zero (List.forall_mem_singleton.2 h)

theorem openedIn_singleton {fd : Descriptor} (h : event.opened? = some fd) :
    openedIn [event] = {fd} := by
  simp [openedIn, h]

theorem closedIn_singleton {fd : Descriptor} (h : event.closed? = some fd) :
    closedIn [event] = {fd} := by
  simp [closedIn, h]

theorem closedIn_le_of_sublist {part : List Event} (h : part.Sublist events) :
    closedIn part ≤ closedIn events :=
  Multiset.coe_le.2 (h.filterMap _).subperm

theorem closedIn_le_of_prefix {part : List Event} (h : part <+: events) :
    closedIn part ≤ closedIn events := closedIn_le_of_sublist h.sublist

/-- Where no descriptor is handed out twice, the call that handed it out is known by it. -/
theorem eq_of_opened? {event' : Event} {fd : Descriptor} (honce : (openedIn events).Nodup)
    (hevent : event ∈ events) (hevent' : event' ∈ events) (hopens : event.opened? = some fd)
    (hopens' : event'.opened? = some fd) : event = event' := by
  obtain ⟨first, rest, rfl⟩ := List.append_of_mem hevent
  rw [openedIn_append, openedIn_cons, openedIn_singleton hopens, add_left_comm,
    Multiset.singleton_add, Multiset.nodup_cons, Multiset.mem_add, not_or] at honce
  rcases List.mem_append.1 hevent' with hfirst | hrest
  · exact absurd (mem_openedIn_iff.2 ⟨event', hfirst, hopens'⟩) honce.1.1
  · rcases List.mem_cons.1 hrest with rfl | hrest
    · rfl
    · exact absurd (mem_openedIn_iff.2 ⟨event', hrest, hopens'⟩) honce.1.2

/-- While storage hands out no descriptor that is open, none is open twice. -/
theorem HandsOutFresh.count_le (h : HandsOutFresh events) (fd : Descriptor)
    {n : Nat} (hn : n ≤ events.length) :
    (openedIn (events.take n)).count fd ≤ (closedIn (events.take n)).count fd + 1 := by
  induction n with
  | zero => simp
  | succ n ih =>
    have hlt : n < events.length := hn
    rw [← List.take_append_getElem hlt, openedIn_append, closedIn_append, Multiset.count_add,
      Multiset.count_add]
    -- when the descriptor is handed out it is not open, and nothing else adds one
    by_cases hopens : events[n].opened? = some fd
    · have hfresh := h n hlt fd hopens
      rw [openedIn_singleton hopens, Multiset.count_singleton_self]
      omega
    · have hnone : (openedIn [events[n]]).count fd = 0 := by
        cases hevent : events[n].opened? with
        | none => rw [openedIn_singleton_none hevent, Multiset.count_zero]
        | some fd' =>
          rw [openedIn_singleton hevent, Multiset.count_singleton, if_neg]
          rintro rfl
          exact hopens hevent
      have := ih (Nat.le_of_lt hlt)
      omega

/-- What is held of descriptors that were fresh when they were handed out is held once. -/
theorem HandsOutFresh.nodup (h : HandsOutFresh events) {held : Multiset Descriptor}
    (hbalance : openedIn events = held + closedIn events) : held.Nodup := by
  rw [Multiset.nodup_iff_count_le_one]
  intro fd
  have hle := h.count_le fd le_rfl
  rw [List.take_length, hbalance, Multiset.count_add] at hle
  omega

/-- Between two close calls for a descriptor it is handed out again, if it was fresh whenever it was
handed out and is never given back more often than that. -/
theorem HandsOutFresh.mem_openedIn (h : HandsOutFresh events)
    (hclosed : ∀ part, part <+: events → closedIn part ≤ openedIn part) {fd : Descriptor}
    {result result' : (Call.close fd).Result} {first between rest : List Event}
    (hsplit : events = first ++ ⟨.close fd, result⟩ :: between ++ ⟨.close fd, result'⟩ :: rest) :
    fd ∈ openedIn between := by
  let again := first ++ ⟨.close fd, result⟩ :: between ++ [⟨.close fd, result'⟩]
  -- up to the second close call the descriptor was given back no more often than handed out
  have hagain : (closedIn again).count fd ≤ (openedIn again).count fd :=
    Multiset.count_le_of_le fd (hclosed again ⟨rest, by simp [again, hsplit]⟩)
  -- up to the first one it was handed out at most once more than given back
  have hfirst : (openedIn first).count fd ≤ (closedIn first).count fd + 1 := by
    have hle := h.count_le fd (n := first.length) (by rw [hsplit]; simp)
    rwa [hsplit, List.append_assoc, List.take_left] at hle
  have hclose (result : (Call.close fd).Result) :
      openedIn [⟨.close fd, result⟩] = 0 ∧ closedIn [⟨.close fd, result⟩] = {fd} := ⟨rfl, rfl⟩
  simp only [again, openedIn_append, closedIn_append, openedIn_cons _ between,
    closedIn_cons _ between, hclose, Multiset.count_add, Multiset.count_singleton_self,
    Multiset.count_zero] at hagain
  exact Multiset.count_pos.1 (by omega)

end Events

end Storage

open Storage (Call Event Tries openedIn closedIn HandsOutFresh)

def Request.opensFile : Request → Bool
  | .create .. | .open .. => true
  | _ => false

def HandleTable.descriptors (t : HandleTable OpenFile) : Multiset Descriptor :=
  ↑(t.held.values.map (·.fd))

theorem HandleTable.descriptors_insert {t : HandleTable OpenFile} {file : OpenFile}
    (h : (t.insert file).1 ≠ 0) : (t.insert file).2.descriptors = file.fd ::ₘ t.descriptors := by
  rw [descriptors, values_insert h]
  rfl

theorem HandleTable.card_descriptors (t : HandleTable OpenFile) : t.descriptors.card = t.size := by
  simp [descriptors, size, FiniteMap.size, FiniteMap.values]

theorem HandleTable.descriptors_remove {t : HandleTable OpenFile} {handle : Handle}
    {file : OpenFile} (h : t.get? handle = some file) :
    t.descriptors = file.fd ::ₘ (t.remove handle).2.descriptors :=
  Multiset.coe_eq_coe.2 ((values_remove h).map _)

theorem HandleTable.mem_descriptors {t : HandleTable OpenFile} {handle : Handle}
    {file : OpenFile} (h : t.get? handle = some file) : file.fd ∈ t.descriptors := by
  rw [descriptors_remove h]
  exact Multiset.mem_cons_self _ _

/-- Where no descriptor is held twice, a handle is known by its descriptor. -/
theorem HandleTable.handle_eq_of_nodup {t : HandleTable OpenFile} (h : t.descriptors.Nodup)
    {handle other : Handle} {file file' : OpenFile} (held : t.get? handle = some file)
    (held' : t.get? other = some file') (hfd : file'.fd = file.fd) : other = handle := by
  by_contra hne
  rw [descriptors_remove held, Multiset.nodup_cons] at h
  have hother : (t.remove handle).2.get? other = some file' := by
    rw [get?_remove, if_neg hne, held']
  exact h.1 (hfd ▸ mem_descriptors hother)

namespace Dispatcher

/-- Whether serving a request came to its end: while all numbers are held, the search for one for
another file does not, and zero stands for what it would find. -/
def Service.Ends (r : Service) : Prop :=
  r.request.opensFile = true → r.outcome.bind Outcome.handle? ≠ some 0

instance (r : Service) : Decidable r.Ends :=
  inferInstanceAs (Decidable (r.request.opensFile = true → _))

/-- What a request does to the table of handles, with the descriptors that its calls turn over. -/
inductive Handling (d : Dispatcher) : Request → List Event → Option Outcome → HandleTable OpenFile →
    Prop
  /-- What was opened is closed again. -/
  | kept {req : Request} {events : List Event} {out : Option Outcome}
    (untold : req.opensFile = true → out.bind Outcome.handle? = none)
    (paired : ∀ part, part <+: events → closedIn part ≤ openedIn part)
    (balanced : openedIn events = closedIn events) : Handling d req events out d.handles
  /-- A file was opened and put in. -/
  | put {req : Request} {events : List Event} {out : Option Outcome} {file : OpenFile}
    (asked : req.opensFile = true) (opens : openedIn events = {file.fd})
    (closes : closedIn events = 0)
    (told : out.bind Outcome.handle? = some (d.handles.insert file).1) :
    Handling d req events out (d.handles.insert file).2
  /-- A file was taken out and closed. -/
  | taken {inode : Inode} {events : List Event} {handle : Handle} {file : OpenFile}
    (held : d.handles.get? handle = some file) (opens : openedIn events = 0)
    (closes : closedIn events = {file.fd}) :
    Handling d (.release inode handle) events (some .ok) (d.handles.remove handle).2
  /-- All files were taken out and closed. -/
  | drained {events : List Event} (opens : openedIn events = 0)
    (closes : closedIn events = d.handles.descriptors) :
    Handling d .destroy events none d.handles.drain.2

section Step

variable {d d' : Dispatcher} {req : Request} {events : List Event} {out : Option Outcome}

theorem Handling.of_idle (untold : req.opensFile = true → out.bind Outcome.handle? = none)
    (h : ∀ event ∈ events, event.opened? = none ∧ event.closed? = none) :
    Handling d req events out d.handles := by
  have hopened : ∀ part, part <+: events → openedIn part = 0 := fun part hpart =>
    Storage.openedIn_eq_zero fun event hevent => (h event (hpart.subset hevent)).1
  have hclosed : ∀ part, part <+: events → closedIn part = 0 := fun part hpart =>
    Storage.closedIn_eq_zero fun event hevent => (h event (hpart.subset hevent)).2
  refine .kept untold (fun part hpart => ?_) ?_
  · rw [hclosed part hpart]
    exact Multiset.zero_le _
  · rw [hopened _ List.prefix_rfl, hclosed _ List.prefix_rfl]

theorem idle_of_turnsOver (event : Event) (h : event.call.turnsOver = false) :
    event.opened? = none ∧ event.closed? = none :=
  ⟨event.opened?_eq_none h, event.closed?_eq_none h⟩

theorem Begins.closed?_eq_none {c : Call} (begins : Begins d req c) (result : c.Result) :
    Event.closed? ⟨c, result⟩ = none := by
  cases begins <;> rfl

theorem Begins.turnsOver {c : Call} {path : Path} (_ : Begins d req c)
    (makes : c.made? = some path ∨ c.removed? = some path) : c.turnsOver = false := by
  cases c <;> first | rfl | simp [Call.made?, Call.removed?] at makes

theorem turnsOver_of_mem_changeCalls {inode : Inode} {path : Path} {changes : AttributeChanges}
    {c : Call} (h : c ∈ d.changeCalls inode path changes) : c.turnsOver = false := by
  obtain ⟨_, rfl⟩ | ⟨_, _, _, rfl⟩ | ⟨_, rfl⟩ | ⟨_, _, rfl⟩ := mem_changeCalls h <;> rfl

theorem untold_of_settledBy? {outcome : Outcome} (settles : req.settledBy? = some outcome) :
    req.opensFile = false := by
  cases req <;> first | rfl | cases settles

theorem Conduct.handling (h : Conduct d req events out d') :
    Handling d req events out d'.handles := by
  cases h with
  | settled good settles => exact .of_idle (by simp [untold_of_settledBy? settles]) (by simp)
  | refused | unheld | forgot | forgotAll => exact .of_idle (fun _ => rfl) (by simp)
  | failed begins e => exact .of_idle (fun _ => rfl) (by simp [begins.closed?_eq_none])
  | found | described | followed | fetched | stored | moved | rebound | measured =>
    exact .of_idle (by simp [Request.opensFile])
      (by simp [Event.opened?, Event.closed?, Call.closed?])
  | rejected bound tries =>
    exact .of_idle (fun _ => rfl) fun event hevent =>
      idle_of_turnsOver event (turnsOver_of_mem_changeCalls (tries.call_mem event hevent))
  | changed bound tries | untold bound tries =>
    refine .of_idle (fun _ => rfl) (List.forall_mem_append.2 ⟨fun event hevent => ?_, ?_⟩)
    · exact idle_of_turnsOver event (turnsOver_of_mem_changeCalls (tries.call_mem event hevent))
    · simp [Event.opened?, Event.closed?, Call.closed?]
  | made begins makes answer | unseen begins makes answer =>
    have hidle := idle_of_turnsOver ⟨_, .ok answer⟩ (begins.turnsOver (.inl makes))
    refine .of_idle (fun _ => rfl) (List.forall_mem_cons.2 ⟨hidle, ?_⟩)
    simp [Event.opened?, Event.closed?, Call.closed?]
  | removed begins removes answer =>
    have hidle := idle_of_turnsOver ⟨_, .ok answer⟩ (begins.turnsOver (.inr removes))
    exact .of_idle (fun _ => rfl) (List.forall_mem_singleton.2 hidle)
  | created | opened | openedToRead => exact .put rfl rfl rfl rfl
  | abandoned named fd e result =>
    refine .kept (fun _ => rfl) (fun part hpart => ?_) rfl
    -- the close call comes last
    obtain rfl | ⟨_, rfl, hafter⟩ := List.prefix_cons_iff.1 hpart
    · exact Multiset.zero_le _
    obtain rfl | ⟨_, rfl, hlast⟩ := List.prefix_cons_iff.1 hafter
    · exact Multiset.zero_le _
    obtain rfl | ⟨_, rfl, hnil⟩ := List.prefix_cons_iff.1 hlast
    · exact Multiset.zero_le _
    · obtain rfl := List.prefix_nil.1 hnil
      exact le_rfl
  | unopened => exact .of_idle (fun _ => rfl) (by simp [Event.closed?, Call.closed?])
  | released held result => exact .taken held rfl rfl
  | listed _ _ listing =>
    refine .of_idle (fun _ => rfl) (List.forall_mem_cons.2 ⟨⟨rfl, rfl⟩, fun event hevent => ?_⟩)
    obtain ⟨_, _, hpath⟩ := listing.stats event hevent
    exact idle_of_turnsOver event (by rw [hpath]; rfl)
  | destroyed closes =>
    refine .drained (Storage.openedIn_eq_zero fun event hevent => ?_) ?_
    · obtain ⟨fd, hfd⟩ := exists_close_of_mem closes event hevent
      exact event.opened?_of_closed? (show event.closed? = some fd by rw [Event.closed?, hfd]; rfl)
    · rw [Storage.closedIn_eq, closes, List.filterMap_map]
      exact congrArg _ (congrFun List.filterMap_eq_map _)

variable {handles : HandleTable OpenFile}

/-- What was held or handed out is held or was given back after the request. -/
theorem Handling.balance (h : Handling d req events out handles)
    (ends : req.opensFile = true → out.bind Outcome.handle? ≠ some 0) :
    d.handles.descriptors + openedIn events = handles.descriptors + closedIn events := by
  cases h with
  | kept _ _ balanced => rw [balanced]
  | @put _ _ _ file asked opens closes told =>
    have hnumber : (d.handles.insert file).1 ≠ 0 := fun hzero => ends asked (hzero ▸ told)
    rw [opens, closes, HandleTable.descriptors_insert hnumber, add_zero, add_comm,
      Multiset.singleton_add]
  | taken held opens closes =>
    rw [opens, closes, HandleTable.descriptors_remove held, add_zero, add_comm,
      Multiset.singleton_add]
  | drained opens closes =>
    rw [opens, closes, add_zero]
    exact (zero_add _).symm

/-- At no time during a request is more given back than was held or handed out. -/
theorem Handling.closed_le (h : Handling d req events out handles) {part : List Event}
    (hpart : part <+: events) : closedIn part ≤ d.handles.descriptors + openedIn part := by
  have hle := Storage.closedIn_le_of_prefix hpart
  cases h with
  | kept _ paired => exact (paired part hpart).trans (Multiset.le_add_left _ _)
  | put _ _ closes =>
    rw [closes] at hle
    exact hle.trans (Multiset.zero_le _)
  | @taken _ _ _ file held _ closes =>
    have hheld : {file.fd} ≤ d.handles.descriptors :=
      Multiset.singleton_le.2 (HandleTable.mem_descriptors held)
    exact ((closes ▸ hle).trans hheld).trans (Multiset.le_add_right _ _)
  | drained _ closes => exact (closes ▸ hle).trans (Multiset.le_add_right _ _)

theorem Handling.size_le (h : Handling d req events out handles) :
    handles.size ≤ d.handles.size + 1 := by
  cases h with
  | kept => exact Nat.le_succ _
  | put => exact HandleTable.size_insert_le
  | taken => exact (HandleTable.size_remove_le _).trans (Nat.le_succ _)
  | drained => exact Nat.zero_le _

/-- While not all numbers are held, every request that opens a file comes to its end. -/
theorem Handling.ends (h : Handling d req events out handles)
    (hsize : openedIn events ≠ 0 → d.handles.size + 1 < UInt64.size)
    (asked : req.opensFile = true) : out.bind Outcome.handle? ≠ some 0 := by
  cases h with
  | kept untold => simp [untold asked]
  | put _ opens _ told =>
    rw [told]
    intro hzero
    have hopens : openedIn events ≠ 0 := opens ▸ Multiset.singleton_ne_zero _
    exact HandleTable.insert_ne_zero (hsize hopens) (Option.some.inj hzero)
  | taken => simp [Outcome.handle?]
  | drained => simp

theorem Conduct.eq_of_failed (h : Conduct d req events out d')
    (hfailed : (out.bind Outcome.errno?).isSome) : d' = d := by
  cases h <;> first | rfl | simp [Outcome.errno?] at hfailed

theorem Handling.of_failed (h : Handling d req events out handles)
    (hfailed : (out.bind Outcome.errno?).isSome) :
    openedIn events = closedIn events ∧
      ∀ part, part <+: events → closedIn part ≤ openedIn part := by
  cases h with
  | kept _ paired balanced => exact ⟨balanced, paired⟩
  | put _ _ _ told =>
    cases out with
    | none => cases told
    | some outcome => cases outcome <;> first | cases told | cases hfailed
  | taken => simp [Outcome.errno?] at hfailed
  | drained => cases hfailed

end Step

/-- Whatever storage gives, a request that is answered with a failure, or with that it is not
supported, leaves the tables as they were, and closes every descriptor that it got as often as it
got it and not before. -/
theorem failed_request_changes_nothing {σ : Type} (s : Storage σ) (d : Dispatcher) (state : σ)
    (request : Request)
    (hfailed : ((serveOver s d state request).1.outcome.bind Outcome.errno?).isSome) :
    let served := (serveOver s d state request).1
    served.after = d ∧ openedIn served.events = closedIn served.events ∧
      ∀ part, part <+: served.events → closedIn part ≤ openedIn part := by
  intro served
  have h : Conduct d request served.events served.outcome served.after :=
    serve_conduct (serveOver_possible s d state request)
  exact ⟨h.eq_of_failed hfailed, h.handling.of_failed hfailed⟩

/-- A file that was created but cannot be described is closed again. -/
theorem undescribed_file_is_closed :
    let root : Path := ⟨[slash]⟩
    let storage := (HostStorage.serving root).withFailures fun
      | .stat _ => true
      | _ => false
    let state := (List.replicate 2 (some (.host Errno.inputOutput)),
      HostStorage.new (Host.fresh 0 .epoch .fallback))
    let d := start (fun _ salt => salt + 2) {} root
    let served := (serveOver storage d state (.create rootInode [0x61] 0o644 0)).1
    (served.outcome.bind Outcome.errno?).isSome ∧ served.after = d ∧
      openedIn served.events = {1} ∧ closedIn served.events = {1} := by
  intro root storage state d served
  have hfailed : (served.outcome.bind Outcome.errno?).isSome := by decide +kernel
  have hopened : openedIn served.events = {1} := by decide +kernel
  obtain ⟨hafter, hbalanced, _⟩ := failed_request_changes_nothing storage d state
    (.create rootInode [0x61] 0o644 0) hfailed
  exact ⟨hfailed, hafter, hopened, hbalanced ▸ hopened⟩

section Runs

variable {σ : Type} {s : Storage σ} {d d' : Dispatcher} {state state' : σ} {hist : List Service}

theorem Reorders.descriptors {d mid : Dispatcher} (h : d.Reorders mid) :
    mid.handles.descriptors = d.handles.descriptors :=
  Multiset.coe_eq_coe.2 ((h.held.map _).map _)

theorem RunsOver.balance (h : RunsOver s d state hist d' state') (hends : ∀ r ∈ hist, r.Ends) :
    d.handles.descriptors + openedIn (hist.flatMap (·.events)) =
      d'.handles.descriptors + closedIn (hist.flatMap (·.events)) := by
  induction h with
  | nil => rfl
  | @cons d mid d' state next state' request r hist reorders serves _ ih =>
    obtain ⟨hpossible, rfl, _⟩ := of_serveOver serves
    obtain ⟨hend, hrest⟩ := List.forall_mem_cons.1 hends
    have hstep := (serve_conduct hpossible).handling.balance hend
    rw [reorders.descriptors] at hstep
    rw [List.flatMap_cons, Storage.openedIn_append, Storage.closedIn_append, ← add_assoc, hstep,
      add_right_comm, ih hrest, add_right_comm, add_assoc]

theorem RunsOver.closed_le (h : RunsOver s d state hist d' state') (hends : ∀ r ∈ hist, r.Ends)
    {part : List Event} (hpart : part <+: hist.flatMap (·.events)) :
    closedIn part ≤ d.handles.descriptors + openedIn part := by
  induction h generalizing part with
  | nil =>
    obtain rfl := List.prefix_nil.1 hpart
    exact Multiset.zero_le _
  | @cons d mid d' state next state' request r hist reorders serves _ ih =>
    obtain ⟨hpossible, rfl, _⟩ := of_serveOver serves
    obtain ⟨hend, hlaterEnds⟩ := List.forall_mem_cons.1 hends
    have hhandling := (serve_conduct hpossible).handling
    obtain ⟨rest, hrest⟩ := hpart
    rw [List.flatMap_cons] at hrest
    rw [← reorders.descriptors]
    -- the part ends within this request or after it
    rcases List.append_eq_append_iff.1 hrest with ⟨within, hwithin, _⟩ | ⟨later, rfl, hlater⟩
    · exact hhandling.closed_le ⟨within, hwithin.symm⟩
    · rw [Storage.closedIn_append, Storage.openedIn_append, ← add_assoc, hhandling.balance hend,
        add_right_comm, add_comm]
      exact Multiset.add_le_add_right (ih hlaterEnds ⟨rest, hlater.symm⟩)

/-- In a run of fewer requests than there are numbers, every request comes to its end. -/
theorem RunsOver.ends (h : RunsOver s d state hist d' state')
    (hlength : d.handles.size + hist.length < UInt64.size) : ∀ r ∈ hist, r.Ends := by
  induction h with
  | nil => simp
  | @cons d mid d' state next state' request r hist reorders serves _ ih =>
    obtain ⟨hpossible, rfl, _⟩ := of_serveOver serves
    have hhandling := (serve_conduct hpossible).handling
    have hsize : r.before.handles.size = d.handles.size := reorders.held.length_eq
    have hle := hhandling.size_le
    rw [List.length_cons] at hlength
    refine List.forall_mem_cons.2 ⟨hhandling.ends fun _ => by omega, ih (by omega)⟩

theorem Service.Possible.empties {r : Service} (h : r.Possible) (hreq : r.request = .destroy)
    (handle : Handle) : r.after.handles.get? handle = none := by
  obtain ⟨before, request, events, outcome, after⟩ := r
  cases hreq
  have hconduct : Conduct before .destroy events outcome after := serve_conduct h
  cases hconduct with
  | refused bad => simp [fault?] at bad
  | settled _ settles => cases settles
  | failed begins | made begins | unseen begins | removed begins => cases begins
  | destroyed => rfl

end Runs

/-- Over any storage, any of whose calls may fail, the descriptors that were handed out in a run are
those that the live handles hold and those that were given back.  If storage hands out none that is
still open, then no two handles hold the same one, and none is given back again before it was handed
out again.  After a shutdown no handle is live. -/
theorem descriptors_held_or_closed {σ : Type} (s : Storage σ) (number : Numbering)
    (options : MountOptions) (root : Path) (state state' : σ) (hist : List Service) (d : Dispatcher)
    (hrun : RunsOver s (start number options root) state hist d state')
    (hends : ∀ r ∈ hist, r.Ends) :
    let events := hist.flatMap (·.events)
    openedIn events = d.handles.descriptors + closedIn events ∧
      (HandsOutFresh events → d.handles.descriptors.Nodup ∧
        ∀ fd result result' first between rest,
          events = first ++ ⟨.close fd, result⟩ :: between ++ ⟨.close fd, result'⟩ :: rest →
            fd ∈ openedIn between) ∧
      ∀ r ∈ hist, r.request = .destroy → ∀ handle, r.after.handles.get? handle = none := by
  intro events
  have hstart : (start number options root).handles.descriptors = 0 := rfl
  have hbalance : openedIn events = d.handles.descriptors + closedIn events := by
    rw [← hrun.balance hends, hstart, zero_add]
  have hclosed : ∀ part, part <+: events → closedIn part ≤ openedIn part := by
    intro part hpart
    have hle := hrun.closed_le hends hpart
    rwa [hstart, zero_add] at hle
  refine ⟨hbalance, fun hfresh => ⟨hfresh.nodup hbalance, ?_⟩, fun r hr =>
    (hrun.possible r hr).empties⟩
  intro fd result result' first between rest hsplit
  exact hfresh.mem_openedIn hclosed hsplit

/-- A file is opened twice, another one cannot be described after it was created, a handle is
released twice, the first time with a failure, and all are closed before the file is opened once
more. -/
theorem descriptors_of_failing_calls :
    let root : Path := ⟨[slash]⟩
    let storage := (HostStorage.serving root).withFailures fun _ => true
    let failure := some (StorageError.host Errno.inputOutput)
    let state := ([none, none, none, none, failure, none, failure],
      HostStorage.new (Host.fresh 0 .epoch .fallback))
    let requests : List Request := [.create rootInode [0x61] 0o644 0, .open 2 0,
      .create rootInode [0x62] 0o644 0, .release 2 1, .release 2 1, .destroy, .open 2 0]
    let first := start (fun _ salt => salt + 2) {} root
    let hist := serveAll storage first state requests
    let d := (stateAfter storage first state requests).1
    let events := hist.flatMap (·.events)
    (∀ r ∈ hist, r.Ends) ∧ HandsOutFresh events ∧ openedIn events = {1, 2, 3, 4} ∧
      closedIn events = {1, 2, 3} ∧ openedIn events = d.handles.descriptors + closedIn events ∧
      d.handles.descriptors.Nodup := by
  intro root storage failure state requests first hist d events
  have hrun := runsOver_serveAll storage first state requests
  have hends : ∀ r ∈ hist, r.Ends := hrun.ends (by decide +kernel)
  have hfresh : HandsOutFresh events := by decide +kernel
  obtain ⟨hbalance, hdistinct, _⟩ := descriptors_held_or_closed storage (fun _ salt => salt + 2) {}
    root state _ hist d hrun hends
  exact ⟨hends, hfresh, by decide +kernel, by decide +kernel, hbalance, (hdistinct hfresh).1⟩

end Dispatcher
end InodeBridge
