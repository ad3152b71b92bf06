import InodeBridge.Proofs.Dispatcher.AttributeChanges
import InodeBridge.Proofs.Host.Attributes

/-! # What a change of attributes reaches

A request to change attributes goes by the path of the inode, unless it changes the length through an open
file.  Then no call of it reaches through a link at the end of that path, however many it makes before
one fails: the object that the path names is the only one that changes, and a link is given new
stamps at most.
-/
namespace InodeBridge

open Storage (Call Event Tries)
open HostStorage (attributesAt? failing serving ChangesOnlyAt isReadable)

variable {root path : Path} {state state' : List (Option StorageError) × HostStorage}
  {id : Host.ObjectId} {o : Host.Object} {c : Call} {events : List Event}

/-- Calls that change attributes at a path or describe an object change no other object. -/
theorem HostStorage.ChangesOnlyAt.answers
    (hcalls : ∀ event ∈ events,
      attributesAt? event.call = some path ∨ ∃ p, event.call = .stat p)
    (h : (failing root).Answers state events state') : ChangesOnlyAt path state.2 state'.2 := by
  induction events generalizing state with
  | nil =>
    obtain rfl : state' = state := h
    exact .refl path state'.2
  | cons event events ih =>
    obtain ⟨mid, hcall, hrest⟩ := h
    have hmid : mid = ((failing root).perform event.call state).2 := by rw [hcall]
    refine .trans ?_ (ih (fun e he => hcalls e (List.mem_cons_of_mem _ he)) hrest)
    rw [hmid]
    rcases hcalls event List.mem_cons_self with hat | ⟨p, hstat⟩
    · exact .perform hat state
    · rw [hstat]
      rcases failing_cases root (.stat p) state with ⟨_, _, hsame⟩ | ⟨_, hsame⟩
      all_goals
        rw [hsame]
        exact .refl path state.2

/-- A call that sets the mode or the length of a link fails and changes nothing. -/
theorem HostStorage.perform_link (root : Path)
    (hlookup : state.2.host.lookup path = .ok (id, o))
    (hlink : o.node.kind = .symlink)
    (hc : (∃ mode, c = .chmod path mode) ∨ ∃ size, c = .truncate path size) :
    (∃ e, ((failing root).perform c state).1 = .error e) ∧
      ((failing root).perform c state).2.2 = state.2 := by
  obtain ⟨hchmod, htruncate, _⟩ := HostStorage.answer_link hlookup hlink
  rcases failing_cases root c state with ⟨e, he, hsame⟩ | ⟨he, hsame⟩
  · exact ⟨⟨e, he⟩, hsame⟩
  · rcases hc with ⟨mode, rfl⟩ | ⟨size, rfl⟩
    · rw [he, hsame, hchmod]
      exact ⟨⟨_, rfl⟩, rfl⟩
    · rw [he, hsame, htruncate]
      exact ⟨⟨_, rfl⟩, rfl⟩

namespace Dispatcher

variable {d d' : Dispatcher} {inode : Inode} {changes : AttributeChanges} {out : Option Outcome}

/-- Without an open file for it, a length is set at the path as the mode and the times are. -/
theorem attributesAt?_of_mem_changeCalls (unsized : d.sizedThrough? inode changes.handle = none)
    (hc : c ∈ d.changeCalls inode path changes) : attributesAt? c = some path := by
  rcases mem_changeCalls hc with ⟨_, rfl⟩ | ⟨_, _, hthrough, _⟩ | ⟨_, rfl⟩ | ⟨_, _, rfl⟩
  · rfl
  · rw [unsized] at hthrough
    cases hthrough
  · rfl
  · rfl

theorem changeCalls_eq_cons (path : Path)
    (unsized : d.sizedThrough? inode changes.handle = none)
    (hasked : changes.mode.isSome ∨ changes.size.isSome) :
    ∃ c rest, d.changeCalls inode path changes = c :: rest ∧
      ((∃ mode, c = .chmod path mode) ∨ ∃ size, c = .truncate path size) := by
  cases hmode : changes.mode with
  | some mode =>
    rw [changeCalls, hmode]
    exact ⟨_, _, rfl, .inl ⟨mode, rfl⟩⟩
  | none =>
    rw [hmode, Option.isSome_none, Bool.false_eq_true, false_or] at hasked
    obtain ⟨size, hsize⟩ := Option.isSome_iff_exists.1 hasked
    rw [changeCalls, hmode, hsize]
    simp only [unsized]
    exact ⟨_, _, rfl, .inr ⟨size, rfl⟩⟩

/-- A request to change attributes changes no other object than the one its path names. -/
theorem Conduct.changes_only_at (h : Conduct d (.setattr inode changes) events out d')
    (bound : d.inodes.resolve? inode = some path)
    (unsized : d.sizedThrough? inode changes.handle = none)
    (hanswers : (failing root).Answers state events state') :
    ChangesOnlyAt path state.2 state'.2 := by
  obtain ⟨_, tried, failure, htries, hend⟩ := h.changes_attributes bound
  have htried : ∀ event ∈ tried, attributesAt? event.call = some path := fun event hevent =>
    attributesAt?_of_mem_changeCalls unsized (htries.call_mem event hevent)
  refine .answers (fun event hevent => ?_) hanswers
  cases failure with
  | some e => exact .inl (htried event (hend.1 ▸ hevent))
  | none =>
    obtain ⟨result, rfl, _⟩ := hend
    rcases List.mem_append.1 hevent with hevent | hevent
    · exact .inl (htried event hevent)
    · rw [List.mem_singleton.1 hevent]
      exact .inr ⟨path, rfl⟩

/-- A request to set the mode or the length of a link fails at its first call. -/
theorem Conduct.refuses_link (h : Conduct d (.setattr inode changes) events out d')
    (bound : d.inodes.resolve? inode = some path)
    (unsized : d.sizedThrough? inode changes.handle = none)
    (hanswers : (failing root).Answers state events state')
    (hlookup : state.2.host.lookup path = .ok (id, o)) (hlink : o.node.kind = .symlink)
    (hasked : changes.mode.isSome ∨ changes.size.isSome) :
    out = some (.error Errno.inputOutput) ∧ state'.2 = state.2 := by
  obtain ⟨_, tried, failure, htries, hend⟩ := h.changes_attributes bound
  obtain ⟨c, rest, hcalls, hc⟩ := changeCalls_eq_cons path unsized hasked
  obtain ⟨⟨e, he⟩, hsame⟩ := HostStorage.perform_link root hlookup hlink hc
  rw [hcalls] at htries
  cases htries with
  | @next _ answer =>
    obtain ⟨more, rfl⟩ : ∃ more, events = ⟨c, .ok answer⟩ :: more := by
      cases failure with
      | some _ => exact ⟨_, hend.1⟩
      | none =>
        obtain ⟨_, hevents, _⟩ := hend
        exact ⟨_, hevents⟩
    obtain ⟨mid, hcall, _⟩ := hanswers
    rw [hcall] at he
    cases he
  | fails =>
    obtain ⟨rfl, rfl⟩ := hend
    obtain ⟨mid, hcall, rfl⟩ := hanswers
    rw [hcall] at hsame
    exact ⟨rfl, hsame⟩

/-- A call that changes attributes at a path, and so a request that changes them without an open file
for the length, changes no object of the host other than the one that the path names with a link at its
end kept.  If that is a link, then mode and length are refused with nothing changed, and times are set
as the link's own stamps. -/
theorem attributes_change_at_path_only (root : Path) :
    (∀ c path state, attributesAt? c = some path →
      ChangesOnlyAt path state.2 ((failing root).perform c state).2.2) ∧
    (∀ (s : HostStorage) path id o, isReadable path = true → s.host.lookup path = .ok (id, o) →
      o.node.kind = .symlink →
      (∀ mode, (serving root).perform (.chmod path mode) s =
        (.error (.host Errno.unsupported), s)) ∧
      (∀ size, (serving root).perform (.truncate path size) s =
        (.error (.host Errno.linkLoop), s)) ∧
      ∀ accessed modified, (serving root).perform (.setTimes path accessed modified) s =
        (.ok (), { s with host := s.host.alter id fun o => { o with
          accessed := accessed.getD o.accessed
          modified := modified.getD o.modified
          changed := s.host.clock } })) ∧
    ∀ d state inode changes, d.sizedThrough? inode changes.handle = none →
      let served := serveOver (failing root) d state (.setattr inode changes)
      (d.inodes.resolve? inode = none → served.2 = state) ∧
      ∀ path, d.inodes.resolve? inode = some path →
        ChangesOnlyAt path state.2 served.2.2 ∧
        ∀ id o, state.2.host.lookup path = .ok (id, o) → o.node.kind = .symlink →
          (changes.mode.isSome ∨ changes.size.isSome) →
          served.1.outcome = some (.error Errno.inputOutput) ∧ served.2.2 = state.2 := by
  refine ⟨fun c path state hat => .perform hat state, ?_, ?_⟩
  · intro s path id o hreadable hlookup hlink
    have hperform : ∀ c, HostStorage.pathsOf c = [path] →
        (serving root).perform c s = HostStorage.answer c s := by
      intro c hpaths
      apply HostStorage.serving_perform
      simp [hpaths, hreadable]
    obtain ⟨hchmod, htruncate, htimes⟩ := HostStorage.answer_link hlookup hlink
    refine ⟨fun mode => ?_, fun size => ?_, fun accessed modified => ?_⟩
    · rw [hperform _ rfl, hchmod]
    · rw [hperform _ rfl, htruncate]
    · rw [hperform _ rfl, htimes]
  · intro d state inode changes unsized served
    have hconduct : Conduct d _ served.1.events served.1.outcome served.1.after :=
      serve_conduct (serveOver_possible (failing root) d state (.setattr inode changes))
    have hanswers := serveOver_answers (failing root) d state (.setattr inode changes)
    refine ⟨fun unbound => ?_, fun path bound =>
      ⟨hconduct.changes_only_at bound unsized hanswers, fun id o hlookup hlink hasked =>
        hconduct.refuses_link bound unsized hanswers hlookup hlink hasked⟩⟩
    have hbad : d.fault? (.setattr inode changes) = some (.unknownInode inode) := by
      rw [fault?, pathOf, unbound]
      rfl
    have hevents := (hconduct.refused_of_fault? hbad).1
    rw [show (serveOver (failing root) d state (.setattr inode changes)).1.events = [] from hevents]
      at hanswers
    exact hanswers

/-- A link to a file: its mode is not set, and setting its times leaves the file as it is. -/
theorem link_restamped_apart_from_target :
    let root : Path := ⟨[slash]⟩
    let path : Path := ⟨[slash, 0x6c]⟩
    let state := ([], HostStorage.new (Host.fresh 0 .epoch .fallback))
    let number : Numbering := fun _ salt => salt + 2
    let requests : List Request :=
      [.create rootInode [0x74] 0o644 0, .symlink rootInode [0x6c] ⟨[0x74]⟩]
    let first := stateAfter (failing root) (start number {} root) state requests
    let stamp : AttributeChanges := { modified := some ⟨5, 0⟩ }
    let refused := serveOver (failing root) first.1 first.2 (.setattr 3 { stamp with mode := some 0 })
    let stamped := serveOver (failing root) first.1 first.2 (.setattr 3 stamp)
    first.1.inodes.resolve? 3 = some path ∧
    refused.1.outcome = some (.error Errno.inputOutput) ∧ refused.2.2 = first.2.2 ∧
    stamped.2.2.host.find .follow path = .ok 1 ∧
    stamped.2.2.host.object? 1 = first.2.2.host.object? 1 ∧
    ((stamped.2.2.host.object? 2).map (·.modified)) = some ⟨5, 0⟩ := by
  intro root path state number requests first stamp refused stamped
  have hbound : first.1.inodes.resolve? 3 = some path := by decide +kernel
  have hlookup : (first.2.2.host.lookup path).toOption.any (·.2.node.kind == .symlink) = true := by
    decide +kernel
  have hfind : first.2.2.host.find .keep path = .ok 2 := by decide +kernel
  have htarget : stamped.2.2.host.find .follow path = .ok 1 := by decide +kernel
  have hstamp : (stamped.2.2.host.object? 2).map (·.modified) = some ⟨5, 0⟩ := by decide +kernel
  clear_value first
  obtain ⟨id, o, hobject, hlink⟩ :
      ∃ id o, first.2.2.host.lookup path = .ok (id, o) ∧ o.node.kind = .symlink := by
    cases h : first.2.2.host.lookup path with
    | ok found =>
      rw [h] at hlookup
      exact ⟨found.1, found.2, rfl, beq_iff_eq.1 hlookup⟩
    | error e =>
      rw [h] at hlookup
      cases hlookup
  obtain ⟨_, _, hrequests⟩ := attributes_change_at_path_only root
  obtain ⟨hout, hsame⟩ := ((hrequests first.1 first.2 3 { stamp with mode := some 0 } rfl).2 path
    hbound).2 id o hobject hlink (.inl rfl)
  have honly := ((hrequests first.1 first.2 3 stamp rfl).2 path hbound).1
  refine ⟨hbound, hout, hsame, htarget, honly.others 1 ?_, hstamp⟩
  rw [hfind]
  decide

end Dispatcher
end InodeBridge
