import InodeBridge.Proofs.Dispatcher.Effect
import InodeBridge.Proofs.Host.Answers
import InodeBridge.Proofs.Host.Moving
import InodeBridge.Storage.Variants

/-! # Calls to a host that may fail

A call to a host either fails and leaves it as it is, or does what the operation does; a storage made to
fail at will adds more failures and nothing else.  While no call takes a name away, the host grows, and
what was described on the way is there in the end.
-/
namespace InodeBridge

open Storage (Call Event)

namespace HostStorage

variable {root : Path} {s s' : HostStorage}

theorem grows_change {r : Except Errno Host} (h : ∀ host, r = .ok host → s.host.Grows host) :
    s.host.Grows (s.change r).2.host := by
  cases r with
  | ok host => exact h host rfl
  | error e => exact .refl _

theorem grows_register {writable : Bool} {r : Except Errno (Host.ObjectId × Host)}
    (h : ∀ id host, r = .ok (id, host) → s.host.Grows host) :
    s.host.Grows (s.register writable r).2.host := by
  cases r with
  | ok opened => exact h opened.1 opened.2 rfl
  | error e => exact .refl _

theorem grows_setLength (file : HostFile) (size : UInt64) :
    s.host.Grows (s.setLength file size).2.host := by
  unfold setLength
  split
  · exact grows_change fun host hr => Host.grows_resize hr
  · exact .refl _

theorem grows_answer (ht : s.host.IsTree) {c : Call}
    (calm : Event.removes ⟨c, (answer c s).1⟩ = false) : s.host.Grows (answer c s).2.host := by
  have hremoving : ∀ {r : Except Errno Host}, (s.change r).1.toBool = false →
      s.host.Grows (s.change r).2.host := by
    intro r hr
    cases r with
    | ok host => simp [change, Except.toBool] at hr
    | error e => exact .refl _
  cases c with
  | stat | readlink | readdir | statfs => exact .refl _
  | unlink path => exact hremoving calm
  | rmdir path => exact hremoving calm
  | rename source target => exact hremoving calm
  | chmod path mode =>
    apply grows_change
    intro host hc
    obtain ⟨⟨id, object⟩, _, hc⟩ := bind_eq_ok.1 hc
    dsimp only at hc
    split at hc
    · simp at hc
    · exact Host.grows_chmod hc
  | setTimes path accessed modified =>
    apply grows_change
    intro host hs
    obtain ⟨⟨id, object⟩, _, hs⟩ := bind_eq_ok.1 hs
    exact Host.grows_setTimes hs
  | mkdir path mode => exact grows_change fun host hm => Host.grows_mkdir ht hm
  | symlink content target => exact grows_change fun host hs => Host.grows_symlink ht hs
  | link source target => exact grows_change fun host hl => Host.grows_link ht hl
  | create path mode => exact grows_register fun id host ho => Host.grows_openOrCreate ht ho
  | «open» path mode =>
    apply grows_register
    intro id host ho
    cases hopen : s.host.openExisting path .follow mode.isWritable with
    | error e => simp [hopen, Except.map] at ho
    | ok x =>
      simp only [hopen, Except.map, Except.ok.injEq, Prod.mk.injEq] at ho
      exact ho.2 ▸ .refl _
  | truncate path size =>
    simp only [answer, truncate]
    split
    · exact grows_setLength _ _
    · exact .refl _
  | truncateOpen fd size =>
    simp only [answer]
    split
    · exact grows_setLength _ _
    · exact .refl _
  | read fd offset size =>
    simp only [answer, read]
    split <;> exact .refl _
  | write fd offset data =>
    simp only [answer, write]
    split
    · exact .refl _
    · split
      · exact .refl _
      · split
        next hw => exact Host.grows_pwrite hw
        · exact .refl _
  | close fd =>
    simp only [answer, close]
    split <;> exact .refl _

/-- A call at paths that can be read does what the operation of the host does. -/
theorem serving_perform (root : Path) {c : Call} (hpaths : (pathsOf c).all isReadable = true)
    (s : HostStorage) : (serving root).perform c s = answer c s :=
  if_pos hpaths

/-- A call that succeeds has paths that can be read, and does what the operation of the host does. -/
theorem serving_eq_ok {c : Call} {a : c.Answer}
    (h : (serving root).perform c s = (.ok a, s')) :
    (pathsOf c).all isReadable = true ∧ answer c s = (.ok a, s') := by
  by_cases hpaths : (pathsOf c).all isReadable = true
  · exact ⟨hpaths, (serving_perform root hpaths s).symm.trans h⟩
  · have hrefused : (serving root).perform c s = (.error (unreadable c), s) := if_neg hpaths
    rw [h] at hrefused
    cases hrefused

/-- The storage that serves a directory of a host and may also fail any call. -/
abbrev failing (root : Path) : Storage (List (Option StorageError) × HostStorage) :=
  (serving root).withFailures fun _ => true

variable {state state' : List (Option StorageError) × HostStorage}

theorem failing_cases (root : Path) (c : Call) (state : List (Option StorageError) × HostStorage) :
    (∃ e, ((failing root).perform c state).1 = .error e ∧
        ((failing root).perform c state).2.2 = state.2) ∨
      ((failing root).perform c state).1 = (answer c state.2).1 ∧
        ((failing root).perform c state).2.2 = (answer c state.2).2 := by
  simp only [failing, Storage.withFailures]
  split
  next e _ => exact .inl ⟨e, rfl, rfl⟩
  · simp only [serving]
    split
    · exact .inr ⟨rfl, rfl⟩
    · exact .inl ⟨_, rfl, rfl⟩

theorem grows_perform {c : Call} {r : c.Result} (ht : state.2.host.IsTree)
    (h : (failing root).perform c state = (r, state'))
    (calm : Event.removes ⟨c, r⟩ = false) : state.2.host.Grows state'.2.host := by
  rcases failing_cases root c state with ⟨e, _, hstate⟩ | ⟨hr, hstate⟩
  · rw [h] at hstate
    rw [hstate]
    exact .refl _
  · rw [h] at hr hstate
    rw [hstate]
    exact grows_answer ht (hr ▸ calm)

theorem answer_of_perform {c : Call} {a : c.Answer}
    (h : (failing root).perform c state = (.ok a, state')) :
    answer c state.2 = (.ok a, state'.2) := by
  rcases failing_cases root c state with ⟨e, he, _⟩ | ⟨hr, hstate⟩
  · rw [h] at he
    simp at he
  · rw [h] at hr hstate
    exact Prod.ext hr.symm hstate.symm

/-- A single call that did not fail does what the operation of the host does. -/
theorem answer_of_answers {c : Call} {a : c.Answer}
    (h : (failing root).Answers state [⟨c, .ok a⟩] state') :
    answer c state.2 = (.ok a, state'.2) := by
  obtain ⟨mid, hcall, hstate⟩ := h
  obtain rfl : state' = mid := hstate
  exact answer_of_perform hcall

theorem grows_answers {events : List Event} (ht : state.2.host.IsTree)
    (h : (failing root).Answers state events state')
    (calm : ∀ event ∈ events, event.removes = false) : state.2.host.Grows state'.2.host := by
  induction events generalizing state with
  | nil =>
    obtain rfl : state' = state := h
    exact .refl _
  | cons event events ih =>
    obtain ⟨mid, hcall, hrest⟩ := h
    have hfirst := grows_perform ht hcall (calm event (by simp))
    exact hfirst.trans (ih (hfirst.tree ht) hrest fun e he => calm e (List.mem_cons_of_mem _ he))

/-- The state in which a call was made, and how the host grew before and after it. -/
theorem grows_around {events : List Event} {event : Event} (ht : state.2.host.IsTree)
    (h : (failing root).Answers state events state')
    (calm : ∀ event ∈ events, event.removes = false) (hevent : event ∈ events) :
    ∃ mid mid', state.2.host.Grows mid.2.host ∧
      (failing root).perform event.call mid = (event.result, mid') ∧
      mid.2.host.Grows mid'.2.host ∧ mid'.2.host.Grows state'.2.host := by
  obtain ⟨first, rest, rfl⟩ := List.append_of_mem hevent
  obtain ⟨mid, hfirst, mid', hcall, hrest⟩ := Storage.answers_append.1 h
  have hmid := grows_answers ht hfirst fun e he => calm e (List.mem_append_left _ he)
  have hmid' := grows_perform (hmid.tree ht) hcall (calm event hevent)
  refine ⟨mid, mid', hmid, hcall, hmid', grows_answers (hmid'.tree (hmid.tree ht)) hrest fun e he => ?_⟩
  exact calm e (List.mem_append_right _ (List.mem_cons_of_mem _ he))

theorem objectAt?_of_stat {events : List Event} {path : Path} {name : Name} {stat : Stat}
    {d : Host.ObjectId} (ht : state.2.host.IsTree) (h : (failing root).Answers state events state')
    (calm : ∀ event ∈ events, event.removes = false)
    (hobject : state.2.host.objectAt? path = some d) (hlink : state.2.host.linkContent? d = none)
    (hname : name.isEntry = true) (hstat : ⟨.stat (path.child name), .ok stat⟩ ∈ events) :
    (state'.2.host.objectAt? (path.child name)).isSome := by
  obtain ⟨mid, mid', hmid, hcall, hmid', hrest⟩ := grows_around ht h calm hstat
  obtain ⟨_, found, object, hlookup, _⟩ := stat_eq_ok (answer_of_perform hcall)
  have hd := ht.exists_of_objectOf? hobject
  have hfind := Host.find_child (hmid.objectOf? hobject) ((hmid.link_kept hd).trans hlink) hname
    (Host.find_of_lookup hlookup)
  have hat := (Host.objectOf?_child (hmid.objectOf? hobject) hname).trans hfind
  rw [Host.objectAt?, hrest.objectOf? (hmid'.objectOf? hat)]
  rfl

theorem isEntry_of_readdir {events : List Event} {path : Path} {names : List Name} {name : Name}
    (ht : state.2.host.IsTree) (h : (failing root).Answers state events state')
    (calm : ∀ event ∈ events, event.removes = false)
    (hlists : ⟨.readdir path, .ok names⟩ ∈ events) (hmem : name ∈ names) :
    name.isEntry = true := by
  obtain ⟨mid, mid', hmid, hcall, _, _⟩ := grows_around ht h calm hlists
  obtain ⟨_, d, entries, hentries, rfl⟩ := readdir_eq_ok (answer_of_perform hcall)
  rw [List.mem_mergeSort] at hmem
  obtain ⟨⟨name, id⟩, hentry, rfl⟩ := List.mem_map.1 hmem
  have he : mid.2.host.entry? d name = some id := by
    rw [Host.entry?, hentries]
    exact (FiniteMap.get?_eq_some_iff _ _ _).2 hentry
  exact (hmid.tree ht).name_isEntry he

end HostStorage

end InodeBridge
