import InodeBridge.Proofs.Dispatcher.Moments
import InodeBridge.Proofs.Host.OpenFiles

/-! # Handles and the open files of a host

A handle holds a descriptor of storage, and storage has a file under each descriptor.  The two tables
number their entries each on its own, and requests keep them together: what is taken out of one is
closed in the other, and a file that no handle gets is closed before the request ends.  So over a host
that others may change, and that may fail any call, each handle has a file of its own, and each open
file a handle.
-/
namespace InodeBridge

open Storage (Call Event Tries openedIn closedIn)

def Request.endsHandle (handle : Handle) : Request → Bool
  | .release _ released => released == handle
  | .destroy => true
  | _ => false

theorem Request.endsHandle_release {inode : Inode} {released handle : Handle} :
    (Request.release inode released).endsHandle handle = (released == handle) := rfl

def Storage.Call.altersOpen : Call → Bool
  | .write .. | .truncateOpen .. => true
  | _ => false

namespace Dispatcher

open HostStorage (disturbed met Accounts OpenedBy)

section Step

variable {d d' : Dispatcher} {req : Request} {events : List Event} {out : Option Outcome}
  {handles : HandleTable OpenFile} {handle : Handle} {file : OpenFile}

/-- A call goes through a handle that holds its descriptor, and for writing if it changes the file. -/
def GoesThrough (d : Dispatcher) (c : Call) (fd : Descriptor) : Prop :=
  ∃ handle file, d.handles.get? handle = some file ∧ file.fd = fd ∧
    (c.altersOpen = true → file.mode = .readWrite)

theorem GoesThrough.mem_descriptors {c : Call} {fd : Descriptor} (h : d.GoesThrough c fd) :
    fd ∈ d.handles.descriptors := by
  obtain ⟨_, _, held, rfl, _⟩ := h
  exact HandleTable.mem_descriptors held

theorem Begins.goesThrough {c : Call} {fd : Descriptor} (begins : Begins d req c)
    (hfd : c.descriptor? = some fd) : d.GoesThrough c fd := by
  cases begins with
  | read _ held =>
    obtain rfl := Option.some.inj hfd
    exact ⟨_, _, held, rfl, nofun⟩
  | write _ held writable =>
    obtain rfl := Option.some.inj hfd
    exact ⟨_, _, held, rfl, fun _ => OpenMode.isWritable_iff.1 writable⟩
  | _ => cases hfd

theorem goesThrough_of_mem_changeCalls {inode : Inode} {path : Path} {changes : AttributeChanges}
    {c : Call} {fd : Descriptor} (h : c ∈ d.changeCalls inode path changes)
    (hfd : c.descriptor? = some fd) : d.GoesThrough c fd := by
  obtain ⟨_, rfl⟩ | ⟨file, _, hthrough, rfl⟩ | ⟨_, rfl⟩ | ⟨_, _, rfl⟩ := mem_changeCalls h
  · cases hfd
  · obtain rfl := Option.some.inj hfd
    obtain ⟨handle, _, held, _, hmode⟩ := sizedThrough?_eq_some_iff.1 hthrough
    exact ⟨handle, file, held, rfl, fun _ => hmode⟩
  · cases hfd
  · cases hfd

theorem descriptor?_eq_none {c : Call} {path : Path}
    (h : c.made? = some path ∨ c.removed? = some path) : c.descriptor? = none := by
  cases c <;> first | rfl | simp [Call.made?, Call.removed?] at h

theorem closedIn_of_tries {inode : Inode} {path : Path} {changes : AttributeChanges}
    {failure : Option StorageError} (tries : Tries (d.changeCalls inode path changes) events failure) :
    closedIn events = 0 :=
  Storage.closedIn_eq_zero fun event hevent =>
    (idle_of_turnsOver event (turnsOver_of_mem_changeCalls (tries.call_mem event hevent))).2

/-- A call that names a descriptor, but does not give it back, goes through a handle, and none is given
back by a request with such a call. -/
theorem Conduct.goesThrough (h : Conduct d req events out d') {event : Event}
    {fd : Descriptor} (hevent : event ∈ events) (hfd : event.call.descriptor? = some fd)
    (hcloses : event.closed? = none) : d.GoesThrough event.call fd ∧ closedIn events = 0 := by
  cases h with
  | refused | settled | unheld | forgot | forgotAll => cases hevent
  | failed begins e =>
    obtain rfl := List.mem_singleton.1 hevent
    exact ⟨begins.goesThrough hfd, Storage.closedIn_singleton_none hcloses⟩
  | fetched _ held =>
    obtain rfl := List.mem_singleton.1 hevent
    obtain rfl := Option.some.inj hfd
    exact ⟨⟨_, _, held, rfl, nofun⟩, rfl⟩
  | stored _ held writable =>
    obtain rfl := List.mem_singleton.1 hevent
    obtain rfl := Option.some.inj hfd
    exact ⟨⟨_, _, held, rfl, fun _ => OpenMode.isWritable_iff.1 writable⟩, rfl⟩
  | rejected bound tries =>
    exact ⟨goesThrough_of_mem_changeCalls (tries.call_mem event hevent) hfd,
      closedIn_of_tries tries⟩
  | changed bound tries | untold bound tries =>
    rcases List.mem_append.1 hevent with hevent | hevent
    · refine ⟨goesThrough_of_mem_changeCalls (tries.call_mem event hevent) hfd, ?_⟩
      rw [Storage.closedIn_append, closedIn_of_tries tries]
      rfl
    · obtain rfl := List.mem_singleton.1 hevent
      cases hfd
  | made _ makes | unseen _ makes =>
    rcases List.mem_cons.1 hevent with rfl | hevent
    · rw [descriptor?_eq_none (.inl makes)] at hfd
      cases hfd
    · obtain rfl := List.mem_singleton.1 hevent
      cases hfd
  | removed _ removes =>
    obtain rfl := List.mem_singleton.1 hevent
    rw [descriptor?_eq_none (.inr removes)] at hfd
    cases hfd
  | released =>
    obtain rfl := List.mem_singleton.1 hevent
    cases hcloses
  | listed _ _ listing =>
    rcases List.mem_cons.1 hevent with rfl | hevent
    · cases hfd
    · obtain ⟨_, _, hpath⟩ := listing.stats event hevent
      rw [hpath] at hfd
      cases hfd
  | destroyed closes =>
    obtain ⟨_, hcall⟩ := exists_close_of_mem closes event hevent
    rw [Event.closed?, hcall] at hcloses
    cases hcloses
  | abandoned =>
    simp only [List.mem_cons, List.not_mem_nil, or_false] at hevent
    rcases hevent with rfl | rfl | rfl
    · cases hfd
    · cases hfd
    · cases hcloses
  | found | described | followed | created | moved | rebound | opened | openedToRead | unopened
  | measured =>
    simp only [List.mem_cons, List.not_mem_nil, or_false] at hevent
    rcases hevent with rfl | rfl <;> cases hfd

theorem closed?_of_descriptor? {event : Event} {fd fd' : Descriptor}
    (hfd : event.call.descriptor? = some fd) (hcloses : event.closed? = some fd') : fd' = fd := by
  obtain ⟨c, result⟩ := event
  cases c with
  | close => exact Option.some.inj (hcloses.symm.trans hfd)
  | _ => cases hcloses

/-- A descriptor that is named in a call was held or handed out before, and not given back. -/
theorem Conduct.named_le (h : Conduct d req events out d') {first rest : List Event}
    {event : Event} {fd : Descriptor} (hsplit : events = first ++ event :: rest)
    (hfd : event.call.descriptor? = some fd) :
    closedIn first + {fd} ≤ d.handles.descriptors + openedIn first := by
  subst hsplit
  cases hcloses : event.closed? with
  | some fd' =>
    obtain rfl := closed?_of_descriptor? hfd hcloses
    have hpart : first ++ [event] <+: first ++ event :: rest := ⟨rest, by simp⟩
    have hle := h.handling.closed_le hpart
    have hopens := Storage.openedIn_singleton_none (Event.opened?_of_closed? hcloses)
    rwa [Storage.closedIn_append, Storage.openedIn_append, Storage.closedIn_singleton hcloses, hopens,
      add_zero] at hle
  | none =>
    obtain ⟨hthrough, hnone⟩ := h.goesThrough (by simp) hfd hcloses
    rw [Storage.closedIn_append, add_eq_zero] at hnone
    rw [hnone.1, zero_add]
    exact (Multiset.singleton_le.2 hthrough.mem_descriptors).trans (Multiset.le_add_right _ _)

theorem Begins.endsHandle {c : Call} (begins : Begins d req c) (handle : Handle) :
    req.endsHandle handle = false := by
  cases begins <;> rfl

theorem endsHandle_of_fault? {e : RequestError} (bad : d.fault? req = some e) (handle : Handle) :
    req.endsHandle handle = false := by
  cases req with
  | release | destroy => cases bad
  | _ => rfl

theorem endsHandle_of_settledBy? {outcome : Outcome} (settles : req.settledBy? = some outcome)
    (handle : Handle) : req.endsHandle handle = false := by
  cases req with
  | release | destroy => cases settles
  | _ => rfl

theorem Conduct.gives_back (h : Conduct d req events out d')
    (held : d.handles.get? handle = some file) (ends : req.endsHandle handle = true) :
    file.fd ∈ closedIn events := by
  cases h with
  | released held' =>
    obtain rfl := beq_iff_eq.1 ends
    cases held'.symm.trans held
    exact Multiset.mem_singleton_self _
  | unheld hnone =>
    obtain rfl := beq_iff_eq.1 ends
    rw [hnone] at held
    cases held
  | destroyed closes =>
    have hcloses : closedIn events = d.handles.descriptors := by
      rw [Storage.closedIn_eq, closes, List.filterMap_map]
      exact congrArg _ (congrFun List.filterMap_eq_map _)
    rw [hcloses]
    exact HandleTable.mem_descriptors held
  | refused bad => cases (endsHandle_of_fault? bad handle).symm.trans ends
  | settled _ settles => cases (endsHandle_of_settledBy? settles handle).symm.trans ends
  | failed begins | made begins | unseen begins | removed begins =>
    cases (begins.endsHandle handle).symm.trans ends
  | _ => cases ends

/-- A handle keeps its file through a request that does not end its life, and what the request gives
back at any time it can take from the others. -/
theorem Handling.keeps (h : Handling d req events out handles)
    (held : d.handles.get? handle = some file) (hends : req.endsHandle handle = false) :
    handles.get? handle = some file ∧ ∀ part, part <+: events →
      closedIn part ≤ (d.handles.remove handle).2.descriptors + openedIn part := by
  cases h with
  | kept _ paired =>
    exact ⟨held, fun part hpart => (paired part hpart).trans (Multiset.le_add_left _ _)⟩
  | put _ _ closes =>
    refine ⟨HandleTable.get?_insert_of_held held, fun part hpart => ?_⟩
    exact (closes ▸ Storage.closedIn_le_of_prefix hpart).trans (Multiset.zero_le _)
  | @taken _ _ other file' held' opens closes =>
    have hne : other ≠ handle := beq_eq_false_iff_ne.1 hends
    have hother : (d.handles.remove handle).2.get? other = some file' := by
      rw [HandleTable.get?_remove, if_neg hne, held']
    have hmem := Multiset.singleton_le.2 (HandleTable.mem_descriptors hother)
    refine ⟨by rw [HandleTable.get?_remove, if_neg hne.symm, held], fun part hpart => ?_⟩
    have hle := closes ▸ Storage.closedIn_le_of_prefix hpart
    exact (hle.trans hmem).trans (Multiset.le_add_right _ _)
  | drained => cases hends

/-- A request opens a file for a handle: the handle holds a descriptor that was handed out, and none
is given back. -/
theorem Handling.opens (h : Handling d req events out handles) (asked : req.opensFile = true)
    (told : out.bind Outcome.handle? = some handle) (hnumber : handle ≠ 0) :
    ∃ file, handles.get? handle = some file ∧ openedIn events = {file.fd} ∧
      closedIn events = 0 := by
  cases h with
  | kept untold =>
    rw [untold asked] at told
    cases told
  | @put _ _ _ file _ opens closes told' =>
    obtain rfl := Option.some.inj (told'.symm.trans told)
    exact ⟨file, HandleTable.get?_insert_self hnumber, opens, closes⟩
  | taken => cases asked
  | drained => cases asked

end Step

section Runs

variable {σ : Type} {s : Storage σ} {m m' : Mounted σ} {hist : List Moment} {handle : Handle}
  {file : OpenFile}

namespace Mounted

theorem Runs.keeps (h : Runs s m hist m') (idle : m.serving = none)
    (held : m.dispatcher.handles.get? handle = some file)
    (hends : ∀ request ∈ hist.filterMap Moment.taken?, request.endsHandle handle = false) :
    m'.dispatcher.handles.get? handle = some file ∧
      ∀ u, m'.serving = some u → u.request.endsHandle handle = false := by
  have hidle : ∀ u, m.serving = some u → u.request.endsHandle handle = false := by simp [idle]
  refine h.invariant (P := fun hist m' =>
    (∀ request ∈ hist.filterMap Moment.taken?, request.endsHandle handle = false) →
      m'.dispatcher.handles.get? handle = some file ∧
        ∀ u, m'.serving = some u → u.request.endsHandle handle = false)
    (fun _ => ⟨held, hidle⟩) ?_ ?_ hends
  · intro hist moment mid next hrun ih hstep hends
    rw [List.filterMap_append] at hends
    obtain ⟨hheld, hserving⟩ := ih fun request hreq => hends request (List.mem_append_left _ hreq)
    cases hstep with
    | taken =>
      refine ⟨hheld, fun u hu => ?_⟩
      cases hu
      exact hends _ (List.mem_append_right _ (List.mem_singleton_self _))
    | deferred => exact ⟨hheld, hserving⟩
    | called serving =>
      have hmade := hserving _ serving
      refine ⟨hheld, fun u hu => ?_⟩
      cases hu
      exact hmade
    | answered serving =>
      have hhandling := ((hrun.traced idle).conduct serving).handling
      exact ⟨(hhandling.keeps hheld (hserving _ serving)).1, by simp⟩
    | fetched => exact ⟨hheld, hserving⟩
  · intro hist mid d _ ih _ reorders hends
    obtain ⟨hheld, hserving⟩ := ih hends
    exact ⟨(FiniteMap.get?_eq_of_perm reorders.held handle).trans hheld, hserving⟩

/-- When a request that ends the life of a handle was answered, the descriptor was given back. -/
theorem Runs.gives_back (h : Runs s m hist m') (idle : m.serving = none)
    (held : m.dispatcher.handles.get? handle = some file) {r : Service} (hr : .answered r ∈ hist)
    (ends : r.request.endsHandle handle = true) : file.fd ∈ closedIn (eventsIn hist) := by
  have hall : file.fd ∈ closedIn (eventsIn hist) ∨ m'.dispatcher.handles.get? handle = some file ∧
      ∀ r, .answered r ∈ hist → r.request.endsHandle handle = false := by
    refine h.invariant (P := fun hist m' => file.fd ∈ closedIn (eventsIn hist) ∨
      m'.dispatcher.handles.get? handle = some file ∧
        ∀ r, .answered r ∈ hist → r.request.endsHandle handle = false)
      (.inr ⟨held, by simp⟩) ?_ ?_
    · intro hist moment mid next hrun ih hstep
      rw [eventsIn_concat, Storage.closedIn_append, Multiset.mem_add]
      rcases ih with hclosed | ⟨hheld, hlives⟩
      · exact .inl (.inl hclosed)
      cases hstep with
      | @answered request events outcome after serving =>
        have htraced := hrun.traced idle
        have hconduct := htraced.conduct serving
        cases hend : request.endsHandle handle with
        | true =>
          have hevents := made_of_serving serving ▸ htraced.made
          have hclosed := hconduct.gives_back hheld hend
          exact .inl (.inl (Multiset.mem_of_le (Storage.closedIn_le_of_sublist hevents) hclosed))
        | false =>
          refine .inr ⟨(hconduct.handling.keeps hheld hend).1, fun r hr => ?_⟩
          rcases List.mem_append.1 hr with hr | hr
          · exact hlives r hr
          · cases List.mem_singleton.1 hr
            exact hend
      | taken | deferred | called | fetched =>
        exact .inr ⟨hheld, by simpa using hlives⟩
    · rintro hist mid d - (hclosed | ⟨hheld, hlives⟩) - reorders
      · exact .inl hclosed
      · exact .inr ⟨(FiniteMap.get?_eq_of_perm reorders.held handle).trans hheld, hlives⟩
  refine hall.resolve_right fun ⟨_, hlives⟩ => ?_
  rw [hlives r hr] at ends
  cases ends

end Mounted
end Runs

section Host

variable {root : Path} {first : List Disturbance × HostStorage} {hist : List Moment} {moment : Moment}
  {m m' : Mounted (List Disturbance × HostStorage)} {handle : Handle} {file : OpenFile}

theorem card_openedIn_le (before rest : List Moment) :
    (openedIn (eventsIn before)).card ≤ (openedIn (eventsIn (before ++ rest))).card := by
  rw [eventsIn_append, Storage.openedIn_append, Multiset.card_add]
  exact Nat.le_add_right _ _

def FindsFile (root : Path) (first : List Disturbance × HostStorage) (events : List Event)
    (fd : Descriptor) : Prop :=
  ∃ mid, (disturbed root).Answers first events mid ∧ ((met mid).files.get? fd).isSome

namespace Mounted

/-- The open files are those of the handles before the request that is being served, with what that has
opened and without what it has closed. -/
structure Balanced (root : Path) (first : List Disturbance × HostStorage) (hist : List Moment)
    (m : Mounted (List Disturbance × HostStorage)) : Prop where
  traced : Traced hist m
  accounts : Accounts root first (eventsIn hist) m.storage
  held : m.storage.2.files.keys + closedIn m.made =
    m.dispatcher.handles.descriptors + openedIn m.made

namespace Balanced

theorem descriptors_eq (h : Balanced root first hist m) (idle : m.serving = none) :
    m.dispatcher.handles.descriptors = m.storage.2.files.keys := by
  have hheld := h.held
  rw [made_of_idle idle, Storage.closedIn_nil, Storage.openedIn_nil, add_zero,
    add_zero] at hheld
  exact hheld.symm

theorem closed_le (h : Balanced root first hist m) {request : Request} {events : List Event}
    {c : Call} {next : c.Result → Program (Option Outcome × Dispatcher)}
    (serving : m.serving = some ⟨request, events, .call c next⟩) (result : c.Result) :
    closedIn [⟨c, result⟩] ≤ m.storage.2.files.keys + openedIn [⟨c, result⟩] := by
  obtain ⟨more, _, hyields⟩ := (next result).exists_yields
  have hconduct := serve_conduct (h.traced.completes serving ⟨result, more, rfl, hyields⟩)
  have hmade : events ++ [⟨c, result⟩] <+: events ++ ⟨c, result⟩ :: more := ⟨more, by simp⟩
  have hle := hconduct.handling.closed_le hmade
  have hheld := h.held
  rw [made_of_serving serving] at hheld
  rw [Storage.closedIn_append, Storage.openedIn_append, ← add_assoc, ← hheld, add_right_comm,
    add_comm] at hle
  exact le_of_add_le_add_right hle

theorem named (h : Balanced root first hist m) {request : Request} {events : List Event} {c : Call}
    {next : c.Result → Program (Option Outcome × Dispatcher)} {fd : Descriptor}
    (serving : m.serving = some ⟨request, events, .call c next⟩) (hfd : c.descriptor? = some fd) :
    (m.storage.2.files.get? fd).isSome := by
  obtain ⟨_, _, hyields⟩ := (Program.call c next).exists_yields
  have hconduct := serve_conduct (h.traced.completes serving hyields)
  obtain ⟨answer, rest, rfl, _⟩ := hyields
  have hnames : (⟨c, answer⟩ : Event).call.descriptor? = some fd := hfd
  have hle := hconduct.named_le rfl hnames
  have hheld := h.held
  rw [made_of_serving serving] at hheld
  rw [← hheld, add_comm] at hle
  exact HandleTable.mem_keys_iff.1 (Multiset.singleton_le.1 (le_of_add_le_add_right hle))

theorem finds (h : Balanced root first hist m) (held : m.dispatcher.handles.get? handle = some file)
    (hends : ∀ u, m.serving = some u → u.request.endsHandle handle = false) :
    (m.storage.2.files.get? file.fd).isSome := by
  have hothers : closedIn m.made ≤
      (m.dispatcher.handles.remove handle).2.descriptors + openedIn m.made := by
    cases hserving : m.serving with
    | none =>
      rw [made_of_idle hserving]
      exact Multiset.zero_le _
    | some u =>
      obtain ⟨more, _, _, hconduct⟩ := h.traced.exists_conduct hserving
      rw [made_of_serving hserving]
      exact (hconduct.handling.keeps held (hends u hserving)).2 _ ⟨more, rfl⟩
  -- what the request has closed is taken from the others
  obtain ⟨left, hleft⟩ := Multiset.le_iff_exists_add.1 hothers
  have hheld := h.held
  rw [HandleTable.descriptors_remove held, Multiset.cons_add, hleft, add_comm, ← Multiset.add_cons]
    at hheld
  rw [← HandleTable.mem_keys_iff, add_left_cancel hheld]
  exact Multiset.mem_cons_self _ _

/-- While numbers are left, a request that opens a file finds one for its handle. -/
theorem ends (h : Balanced root first hist m)
    (hroom : (openedIn (eventsIn hist)).card < UInt64.size) {request : Request} {events : List Event}
    {outcome : Option Outcome} {after : Dispatcher}
    (serving : m.serving = some ⟨request, events, .done (outcome, after)⟩)
    (asked : request.opensFile = true) : outcome.bind Outcome.handle? ≠ some 0 := by
  refine (h.traced.conduct serving).handling.ends (fun hopens => ?_) asked
  have hmade := made_of_serving serving
  have hclosed := Multiset.card_le_card (Storage.closedIn_le_of_sublist (hmade ▸ h.traced.made))
  have hheld := congrArg Multiset.card h.held
  have hbalance := congrArg Multiset.card h.accounts.balance
  have hpos := Multiset.card_pos.2 hopens
  rw [hmade, Multiset.card_add, Multiset.card_add, HandleTable.card_descriptors] at hheld
  rw [Multiset.card_add] at hbalance
  omega

theorem next (h : Balanced root first hist m) (hstep : m.Steps (disturbed root) moment m')
    (hroom : (openedIn (eventsIn (hist ++ [moment]))).card < UInt64.size) :
    Balanced root first (hist ++ [moment]) m' := by
  refine ⟨h.traced.next hstep, ?_, ?_⟩
  all_goals rw [eventsIn_concat] at *
  · cases hstep with
    | taken | deferred | answered =>
      rw [Moment.events, List.append_nil]
      exact h.accounts
    | called serving performs => exact (h.accounts.next performs (h.closed_le serving _) hroom).2
    | fetched _ performs => exact (h.accounts.next performs (Multiset.zero_le _) hroom).2
  · have hheld := h.held
    cases hstep with
    | taken idle =>
      change m.storage.2.files.keys + 0 = m.dispatcher.handles.descriptors + 0
      rw [h.descriptors_eq idle]
    | deferred => exact hheld
    | @called request events c result storage next serving performs =>
      have hkeys := (h.accounts.next performs (h.closed_le serving _) hroom).1
      rw [made_of_serving serving] at hheld
      calc storage.2.files.keys + closedIn (events ++ [⟨c, result⟩])
          = storage.2.files.keys + closedIn [⟨c, result⟩] + closedIn events := by
            rw [Storage.closedIn_append, add_comm (closedIn events), add_assoc]
        _ = m.storage.2.files.keys + closedIn events + openedIn [⟨c, result⟩] := by
            rw [← hkeys, add_right_comm]
        _ = m.dispatcher.handles.descriptors + openedIn (events ++ [⟨c, result⟩]) := by
            rw [hheld, Storage.openedIn_append, add_assoc]
    | @answered request events outcome after serving =>
      rw [Moment.events, List.append_nil] at hroom
      have hbalance := (h.traced.conduct serving).handling.balance (h.ends hroom serving)
      rw [made_of_serving serving, hbalance] at hheld
      change m.storage.2.files.keys + 0 = after.handles.descriptors + 0
      rw [add_right_cancel hheld]
    | @fetched index read result storage _ performs =>
      have hkeys := (h.accounts.next performs (Multiset.zero_le _) hroom).1
      change m.storage.2.files.keys + 0 = storage.2.files.keys + 0 at hkeys
      rw [add_zero, add_zero] at hkeys
      exact hkeys ▸ hheld

end Balanced

theorem balanced_idle (number : Numbering) (options : MountOptions) (root : Path)
    (disturbances : List Disturbance) (host : Host) :
    Balanced root (disturbances, HostStorage.new host) []
      (idle (start number options root) (disturbances, HostStorage.new host)) where
  traced := (Runs.start (s := disturbed root)).traced rfl
  accounts := HostStorage.accounts_new root disturbances host
  held := rfl

theorem Runs.balanced (h : Runs (disturbed root) m hist m') (idle : m.serving = none)
    (hnew : Balanced root first [] m) (hroom : (openedIn (eventsIn hist)).card < UInt64.size) :
    Balanced root first hist m' := by
  refine h.invariant (P := fun hist m' => (openedIn (eventsIn hist)).card < UInt64.size →
    Balanced root first hist m') (fun _ => hnew) ?_ ?_ hroom
  · intro hist moment mid next _ ih hstep hroom
    exact (ih ((card_openedIn_le hist [moment]).trans_lt hroom)).next hstep hroom
  · intro hist mid d hrun ih idle' reorders hroom
    have hheld := (ih hroom).held
    rw [← reorders.descriptors] at hheld
    exact ⟨(hrun.reordered idle' reorders).traced idle, (ih hroom).accounts, hheld⟩

/-- A handle that a request was answered with keeps the file that this request opened. -/
theorem Runs.keeps_opened {before rest : List Moment} {r : Service}
    (h : Runs (disturbed root) m (before ++ .answered r :: rest) m') (idle : m.serving = none)
    (hnew : Balanced root first [] m)
    (hroom : (openedIn (eventsIn (before ++ .answered r :: rest))).card < UInt64.size)
    (asked : r.request.opensFile = true) (told : r.outcome.bind Outcome.handle? = some handle)
    (hends : ∀ request ∈ rest.filterMap Moment.taken?, request.endsHandle handle = false) :
    ∃ file hostFile, m'.dispatcher.handles.get? handle = some file ∧
      m'.storage.2.files.get? file.fd = some hostFile ∧ ∃ event ∈ r.events,
        OpenedBy root first (eventsIn (before ++ .answered r :: rest)) event file.fd hostFile := by
  have hlast := h.balanced idle hnew hroom
  have hevents := (hlast.traced.answered r (by simp)).2
  obtain ⟨mid, next, hbefore, hstep, hrest⟩ := h.of_moment
  have hbeforeRoom := (card_openedIn_le before (.answered r :: rest)).trans_lt hroom
  have hmid := hbefore.balanced idle hnew hbeforeRoom
  cases hstep with
  | @answered request events outcome after serving =>
    have hnumber : handle ≠ 0 := by
      rintro rfl
      exact hmid.ends hbeforeRoom serving asked told
    obtain ⟨file, held, hopens, _⟩ :=
      (hmid.traced.conduct serving).handling.opens asked told hnumber
    obtain ⟨hheld, hserving⟩ := hrest.keeps rfl held hends
    obtain ⟨hostFile, hfile⟩ := Option.isSome_iff_exists.1 (hlast.finds hheld hserving)
    obtain ⟨event, hopened⟩ := hlast.accounts.origin file.fd hostFile hfile
    refine ⟨file, hostFile, hheld, hfile, event, ?_, hopened⟩
    -- the descriptor is handed out once, so the call that opened the file is one of the request
    have hmem : file.fd ∈ openedIn events := hopens ▸ Multiset.mem_singleton_self _
    obtain ⟨opening, hopening, hfd⟩ := Storage.mem_openedIn_iff.1 hmem
    rwa [← Storage.eq_of_opened? (hlast.accounts.nodup hroom) (hevents.subset hopening) hopened.mem
      hfd hopened.opened?_eq]

/-- A call of a request finds a file under the descriptor that it names, and closes it if it is to. -/
theorem Runs.called_finds {before rest : List Moment} {event : Event} {fd : Descriptor}
    (h : Runs (disturbed root) m (before ++ .called event :: rest) m') (idle : m.serving = none)
    (hnew : Balanced root first [] m)
    (hroom : (openedIn (eventsIn (before ++ .called event :: rest))).card < UInt64.size)
    (hfd : event.call.descriptor? = some fd) :
    FindsFile root first (eventsIn before) fd ∧
      ∀ result, event = ⟨.close fd, result⟩ → result = .ok () := by
  obtain ⟨mid, next, hbefore, hstep, _⟩ := h.of_moment
  have hmid := hbefore.balanced idle hnew ((card_openedIn_le before _).trans_lt hroom)
  cases hstep with
  | called serving performs =>
    have hheld := hmid.named serving hfd
    rw [← HostStorage.files_met] at hheld
    refine ⟨⟨mid.storage, hmid.accounts.answers, hheld⟩, fun result heq => ?_⟩
    cases heq
    exact (HostStorage.turns_perform performs).close_ok hheld

/-- What was put aside holds the descriptor of a handle until a request that ends the life of the handle
gives it back. -/
theorem Runs.deferred_closed {asked between : List Moment} {read : PendingRead}
    (h : Runs (disturbed root) m (asked ++ .deferred read :: between) m') (idle : m.serving = none)
    (hnew : Balanced root first [] m)
    (hroom : (openedIn (eventsIn (asked ++ .deferred read :: between))).card < UInt64.size) :
    read.fd ∈ openedIn (eventsIn (asked ++ .deferred read :: between)) ∧
    ((∀ request ∈ between.filterMap Moment.taken?, request.endsHandle read.handle = false) →
      read.fd ∉ closedIn (eventsIn (asked ++ .deferred read :: between))) ∧
    ∀ r, .answered r ∈ between → r.request.endsHandle read.handle = true →
      read.fd ∈ closedIn (eventsIn (asked ++ .deferred read :: between)) := by
  have hlast := h.balanced idle hnew hroom
  obtain ⟨mid, next, hbefore, hstep, hrest⟩ := h.of_moment
  have hmid := hbefore.balanced idle hnew ((card_openedIn_le asked _).trans_lt hroom)
  cases hstep with
  | deferred hidle defers =>
    obtain ⟨file, hheld, hfd⟩ := held_of_deferred? defers
    rw [hfd]
    refine ⟨?_, fun hends => ?_, fun r hr ends => ?_⟩
    · have hfile := hmid.finds hheld (by simp [hidle])
      have hopened :=
        ((hmid.accounts.get?_isSome_iff ((card_openedIn_le asked _).trans_lt hroom)).1 hfile).1
      rw [eventsIn_append, Storage.openedIn_append]
      exact Multiset.mem_add.2 (.inl hopened)
    · obtain ⟨hkept, hserving⟩ := hrest.keeps hidle hheld hends
      exact ((hlast.accounts.get?_isSome_iff hroom).1 (hlast.finds hkept hserving)).2
    · have hclosed := hrest.gives_back hidle hheld hr ends
      rw [List.append_cons, eventsIn_append, Storage.closedIn_append]
      exact Multiset.mem_add.2 (.inr hclosed)

/-- A worker finds the file of a read if its descriptor was not given back, and otherwise its call
fails. -/
theorem Runs.fetched_finds {before rest : List Moment} {read : PendingRead}
    {result : Except StorageError Bytes}
    (h : Runs (disturbed root) m (before ++ .fetched read result :: rest) m')
    (idle : m.serving = none) (hnew : Balanced root first [] m)
    (hroom : (openedIn (eventsIn (before ++ .fetched read result :: rest))).card < UInt64.size)
    (hopened : read.fd ∈ openedIn (eventsIn before)) :
    (read.fd ∉ closedIn (eventsIn before) → FindsFile root first (eventsIn before) read.fd) ∧
      (read.fd ∈ closedIn (eventsIn before) → result = .error (.host Errno.badDescriptor)) := by
  obtain ⟨mid, next, hbefore, hstep, _⟩ := h.of_moment
  have hbeforeRoom := (card_openedIn_le before _).trans_lt hroom
  have hmid := hbefore.balanced idle hnew hbeforeRoom
  have hfound : (mid.storage.2.files.get? read.fd).isSome ↔
      read.fd ∈ openedIn (eventsIn before) ∧ read.fd ∉ closedIn (eventsIn before) :=
    hmid.accounts.get?_isSome_iff hbeforeRoom
  cases hstep with
  | fetched _ performs =>
    refine ⟨fun hkept => ?_, fun hclosed => ?_⟩
    · refine ⟨mid.storage, hmid.accounts.answers, ?_⟩
      rw [HostStorage.files_met]
      exact hfound.2 ⟨hopened, hkept⟩
    · refine HostStorage.read_of_missing performs ?_
      rw [← Option.not_isSome_iff_eq_none, hfound]
      exact fun hfile => hfile.2 hclosed

end Mounted
end Host

/-- Whatever others do to the host, whichever calls to it fail, and whenever workers make the reads that
were put aside, while fewer files are opened than there are numbers: no descriptor is handed out twice,
and between two requests the live handles hold different descriptors, those under which files are open.
A handle keeps the file that was opened for it until a request is taken that releases it or all.  Every
call of a request that names a descriptor finds a file under it, and no close call fails.  So does the
call of a worker unless the descriptor was closed since the read was asked for, by a request that
released the handle or all; then it fails, as there is no such file. -/
theorem handles_match_open_files (number : Numbering) (options : MountOptions) (root : Path)
    (host : Host) (disturbances : List Disturbance) (hist : List Moment)
    (m : Mounted (List Disturbance × HostStorage))
    (hrun : Mounted.Runs (disturbed root)
      (.idle (start number options root) (disturbances, HostStorage.new host)) hist m)
    (hopens : (openedIn (eventsIn hist)).card < UInt64.size) :
    let first := (disturbances, HostStorage.new host)
    (openedIn (eventsIn hist)).Nodup ∧
    (m.serving = none → m.dispatcher.handles.descriptors.Nodup ∧
      (∀ fd, fd ∈ m.dispatcher.handles.descriptors ↔ (m.storage.2.files.get? fd).isSome) ∧
      m.storage.2.files.size = m.dispatcher.handles.size) ∧
    (∀ before r rest handle, hist = before ++ .answered r :: rest → r.request.opensFile = true →
      r.outcome.bind Outcome.handle? = some handle →
      (∀ request ∈ rest.filterMap Moment.taken?, request.endsHandle handle = false) →
        ∃ file hostFile, m.dispatcher.handles.get? handle = some file ∧
          m.storage.2.files.get? file.fd = some hostFile ∧ ∃ event ∈ r.events,
            OpenedBy root first (eventsIn hist) event file.fd hostFile) ∧
    (∀ before event rest fd, hist = before ++ .called event :: rest →
      event.call.descriptor? = some fd → FindsFile root first (eventsIn before) fd ∧
        ∀ result, event = ⟨.close fd, result⟩ → result = .ok ()) ∧
    ∀ before read result rest, hist = before ++ .fetched read result :: rest →
      options.asyncReads = true ∧ .deferred read ∈ before ∧
      (read.fd ∉ closedIn (eventsIn before) → FindsFile root first (eventsIn before) read.fd) ∧
      (read.fd ∈ closedIn (eventsIn before) → result = .error (.host Errno.badDescriptor)) ∧
      ∀ asked between, before = asked ++ .deferred read :: between →
        ((∀ request ∈ between.filterMap Moment.taken?, request.endsHandle read.handle = false) →
          read.fd ∉ closedIn (eventsIn before)) ∧
        ∀ r, .answered r ∈ between → r.request.endsHandle read.handle = true →
          read.fd ∈ closedIn (eventsIn before) := by
  intro first
  have hnew := Mounted.balanced_idle number options root disturbances host
  have hlast := hrun.balanced rfl hnew hopens
  refine ⟨hlast.accounts.nodup hopens, fun idle => ?_, ?_, ?_, ?_⟩
  · have hmatch := hlast.descriptors_eq idle
    refine ⟨hmatch ▸ HandleTable.nodup_keys, fun fd => hmatch ▸ HandleTable.mem_keys_iff, ?_⟩
    rw [← HandleTable.card_keys, ← hmatch, HandleTable.card_descriptors]
  · rintro before r rest handle rfl
    exact hrun.keeps_opened rfl hnew hopens
  · rintro before event rest fd rfl
    exact hrun.called_finds rfl hnew hopens
  · rintro before read result rest rfl
    obtain ⟨mid, next, hbefore, hstep, hrest⟩ := hrun.of_moment
    have hroom := (card_openedIn_le before (.fetched read result :: rest)).trans_lt hopens
    have hasked : .deferred read ∈ before := by
      cases hstep with
      | fetched waits =>
        exact (hbefore.deferred_of_waits rfl).1 read (List.mem_of_getElem? waits)
    obtain ⟨asked, between, hsplit⟩ := List.append_of_mem hasked
    have hdeferred := (hsplit ▸ hbefore).deferred_closed rfl hnew (hsplit ▸ hroom)
    have hfetched := hrun.fetched_finds rfl hnew hopens (hsplit ▸ hdeferred.1)
    refine ⟨hbefore.async_of_deferred rfl hasked, hasked, hfetched.1, hfetched.2, ?_⟩
    rintro asked between rfl
    exact (hbefore.deferred_closed rfl hnew hroom).2

/-- An open file is removed behind the back of its handle, and one of the same name takes its place;
another file cannot be described after it was created, a failing host is asked to close one, and the
new file is opened to be read.  The first handle keeps the file that was removed.  A worker makes one
read in the middle of a release and another one after it, too late for its handle. -/
theorem handle_keeps_removed_file :
    let root : Path := ⟨[slash]⟩
    let path : Path := ⟨[slash, 0x61]⟩
    let calm : Disturbance := ⟨id, [], none⟩
    let failure : Disturbance := ⟨id, [.interrupted], some (.host Errno.inputOutput)⟩
    let removal : Disturbance := ⟨fun host => (host.unlink path).toOption.getD host, [], none⟩
    let disturbances := [calm, calm, removal, calm, calm, failure, failure, calm, failure, failure,
      failure]
    let host := Host.fresh 0 .epoch .fallback
    let created : List Act := [.take (.create rootInode [0x61] 0o644 0), .proceed, .proceed, .proceed]
    let acts : List Act := created ++ created ++
      [.take (.create rootInode [0x62] 0o644 0), .proceed, .proceed, .proceed, .proceed,
        .take (.read 2 1 0 10), .take (.read 2 2 0 10), .take (.release 2 2), .fetch 0, .proceed,
        .proceed, .fetch 0, .take (.open 2 0), .proceed, .proceed, .proceed]
    let first := Mounted.idle (start (fun _ salt => salt + 2) {} root)
      (disturbances, HostStorage.new host)
    let hist := (first.actAll (disturbed root) acts).1
    let m := (first.actAll (disturbed root) acts).2
    (openedIn (eventsIn hist)).card < UInt64.size ∧ m.serving.isNone ∧
      m.dispatcher.handles.descriptors.Nodup ∧ m.storage.2.files.size = m.dispatcher.handles.size ∧
      m.dispatcher.handles.descriptors = {1, 4} ∧ m.storage.2.files.get? 4 = some ⟨2, false⟩ ∧
      m.storage.2.files.get? 1 = some ⟨1, true⟩ ∧
      (∃ file hostFile, m.dispatcher.handles.get? 1 = some file ∧
        m.storage.2.files.get? file.fd = some hostFile) ∧
      hist.filterMap Moment.fetched? = [(⟨1, 1, 0, 10⟩, .ok []),
        (⟨2, 2, 0, 10⟩, .error (.host Errno.badDescriptor))] := by
  intro root path calm failure removal disturbances host created acts first hist m
  have hopens : (openedIn (eventsIn hist)).card < UInt64.size := by decide +kernel
  have hidle : m.serving = none := Option.isNone_iff_eq_none.1 (by decide +kernel)
  obtain ⟨_, hmatch, hlives, _⟩ := handles_match_open_files (fun _ salt => salt + 2) {} root host
    disturbances hist m (Mounted.runs_actAll (disturbed root) first acts) hopens
  obtain ⟨hnodup, _, hsize⟩ := hmatch hidle
  -- the request that was answered with the first handle
  have hanswered : ∃ r ∈ hist.filterMap Moment.service?, r.request.opensFile = true ∧
      r.outcome.bind Outcome.handle? = some 1 := by decide +kernel
  have hkept : ∀ request ∈ hist.filterMap Moment.taken?, request.endsHandle 1 = false := by
    decide +kernel
  obtain ⟨r, hservice, asked, told⟩ := hanswered
  obtain ⟨moment, hmoment, hr⟩ := List.mem_filterMap.1 hservice
  obtain ⟨before, rest, hsplit⟩ := List.append_of_mem hmoment
  cases moment <;> cases hr
  obtain ⟨file, hostFile, held, hfile, _⟩ := hlives before _ rest 1 hsplit asked told
    fun request hrequest => hkept request (by
      rw [hsplit, List.filterMap_append]
      exact List.mem_append_right _ hrequest)
  exact ⟨hopens, by rw [hidle]; rfl, hnodup, hsize, by decide +kernel, by decide +kernel,
    by decide +kernel, ⟨file, hostFile, held, hfile⟩, by decide +kernel⟩

/-- A read is put aside, and the handle is released before a worker makes it. -/
theorem late_read_finds_no_file :
    let root : Path := ⟨[slash]⟩
    let state : List Disturbance × HostStorage :=
      ([], HostStorage.new (Host.fresh 0 .epoch .fallback))
    let acts : List Act := [.take (.create rootInode [0x61] 0o644 0), .proceed, .proceed, .proceed,
      .take (.read 2 1 0 10), .take (.release 2 1), .proceed, .proceed, .fetch 0]
    let first := Mounted.idle (start (fun _ salt => salt + 2) {} root) state
    let hist := (first.actAll (disturbed root) acts).1
    let m := (first.actAll (disturbed root) acts).2
    Mounted.Runs (disturbed root) first hist m ∧ (openedIn (eventsIn hist)).card < UInt64.size ∧
      m.storage.2.files.get? 1 = none ∧
      hist.filterMap Moment.fetched? = [(⟨1, 1, 0, 10⟩, .error (.host Errno.badDescriptor))] ∧
      (hist.filterMap Moment.outcome?).getLast? = some (some (.error Errno.badDescriptor)) := by
  intro root state acts first hist m
  exact ⟨Mounted.runs_actAll (disturbed root) first acts, by decide +kernel, by decide +kernel,
    by decide +kernel, by decide +kernel⟩

end Dispatcher
end InodeBridge
