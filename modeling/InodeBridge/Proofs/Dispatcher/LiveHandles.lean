import InodeBridge.Proofs.Dispatcher.OpenFiles

/-! # The lives of handles

A handle lives from the reply that issues it until it is released, or all are.  While fewer files are
opened than there are numbers, each reply issues the next number, and what the table holds under a
number is the file that was opened for it, as long as the handle lives.
-/
namespace InodeBridge.Dispatcher

open Storage (Call Event)

/-- A request is answered with a new handle, for a file that storage opened: under the descriptor that
it gave, and in the mode that it granted. -/
inductive Issues (handle : Handle) : Request → List Event → Option Outcome → OpenFile → Prop
  | opened {inode : Inode} {flags : Int32} {path : Path} {fd : Descriptor} :
    Issues handle (.open inode flags) [⟨.open path .readWrite, .ok fd⟩] (some (.opened ⟨handle, 0⟩))
      ⟨inode, fd, .readWrite⟩
  | openedToRead {inode : Inode} {flags : Int32} {path : Path} {e : StorageError} {fd : Descriptor} :
    Issues handle (.open inode flags)
      [⟨.open path .readWrite, .error e⟩, ⟨.open path .readOnly, .ok fd⟩]
      (some (.opened ⟨handle, 0⟩)) ⟨inode, fd, .readOnly⟩
  | created {parent : Inode} {name : Name} {mode : UInt32} {flags : Int32} {path : Path}
    {fd : Descriptor} {stat : Stat} {entry : EntryReply} :
    Issues handle (.create parent name mode flags)
      [⟨.create path mode, .ok fd⟩, ⟨.stat path, .ok stat⟩]
      (some (.created entry ⟨handle, 0⟩)) ⟨entry.attributes.inode, fd, .readWrite⟩

def issued? (req : Request) (out : Option Outcome) : Option Handle :=
  if req.opensFile then out.bind Outcome.handle? else none

theorem Issues.issued? {handle : Handle} {req : Request} {events : List Event} {out : Option Outcome}
    {file : OpenFile} (h : Issues handle req events out file) : issued? req out = some handle := by
  cases h <;> rfl

def Service.Issues (r : Service) (handle : Handle) (file : OpenFile) : Prop :=
  Dispatcher.Issues handle r.request r.events r.outcome file

def Service.issued? (r : Service) : Option Handle := Dispatcher.issued? r.request r.outcome

/-- A handle was issued for a file, and nothing ended its life since. -/
def Live (hist : List Service) (handle : Handle) (file : OpenFile) : Prop :=
  ∃ before r rest, hist = before ++ r :: rest ∧ r.Issues handle file ∧
    ∀ later ∈ rest, later.request.endsHandle handle = false

def issues (hist : List Service) : Nat := hist.countP (·.issued?.isSome)

section History

variable {hist : List Service} {r : Service} {handle : Handle} {file : OpenFile}

@[simp] theorem issues_nil : issues [] = 0 := rfl

@[simp] theorem issues_append (first rest : List Service) :
    issues (first ++ rest) = issues first + issues rest := List.countP_append

theorem issues_singleton_none (h : r.issued? = none) : issues [r] = 0 := by
  simp [issues, h]

theorem issues_singleton_some (h : r.issued? = some handle) : issues [r] = 1 := by
  simp [issues, h]

theorem not_live_nil : ¬ Live [] handle file := by
  rintro ⟨before, r, rest, h, _⟩
  simp at h

theorem Live.exists_issued (h : Live hist handle file) : ∃ r ∈ hist, r.issued? = some handle := by
  obtain ⟨before, r, rest, rfl, hissues, _⟩ := h
  exact ⟨r, by simp, Issues.issued? hissues⟩

/-- After one more request, those handles live that it issues, and those that lived and that it does
not end. -/
theorem live_concat_iff : Live (hist ++ [r]) handle file ↔
    r.Issues handle file ∨ Live hist handle file ∧ r.request.endsHandle handle = false := by
  constructor
  · rintro ⟨before, r', rest, hsplit, hissues, hkeeps⟩
    rcases List.eq_nil_or_concat' rest with rfl | ⟨rest, last, rfl⟩
    · obtain ⟨_, hlast⟩ := List.append_inj' hsplit rfl
      cases hlast
      exact .inl hissues
    · rw [← List.cons_append, ← List.append_assoc] at hsplit
      obtain ⟨rfl, hlast⟩ := List.append_inj' hsplit rfl
      cases hlast
      obtain ⟨hrest, hend⟩ := List.forall_mem_append.1 hkeeps
      exact .inr ⟨⟨before, r', rest, rfl, hissues, hrest⟩, hend r (List.mem_singleton_self r)⟩
  · rintro (hissues | ⟨⟨before, r', rest, rfl, hissues, hkeeps⟩, hend⟩)
    · exact ⟨hist, r, [], rfl, hissues, by simp⟩
    · refine ⟨before, r', rest ++ [r], by simp, hissues, ?_⟩
      exact List.forall_mem_append.2 ⟨hkeeps, by simpa using hend⟩

end History

section Step

variable {d d' : Dispatcher} {req : Request} {events : List Event} {out : Option Outcome}
  {hist : List Service} {t : HandleTable OpenFile} {handle : Handle} {file : OpenFile}

theorem issued?_eq_none (h : out.bind Outcome.handle? = none) : issued? req out = none := by
  rw [issued?, h, ite_self]

/-- A request issues the number under which the table then holds the file that was opened, or it issues
none, and at most ends the lives of some. -/
theorem Conduct.issues_or_ends (h : Conduct d req events out d') :
    (∃ file, Issues (d.handles.insert file).1 req events out file ∧
      d'.handles = (d.handles.insert file).2) ∨
    (issued? req out = none ∧ d'.handles.next = d.handles.next ∧ ∀ handle,
      d'.handles.get? handle = if req.endsHandle handle then none else d.handles.get? handle) := by
  have hkept (hnone : issued? req out = none) (hhandles : d'.handles = d.handles)
      (hnever : ∀ handle, req.endsHandle handle = false) :
      issued? req out = none ∧ d'.handles.next = d.handles.next ∧ ∀ handle,
        d'.handles.get? handle = if req.endsHandle handle then none else d.handles.get? handle :=
    ⟨hnone, by rw [hhandles], fun handle => by rw [hnever, hhandles, if_neg Bool.false_ne_true]⟩
  cases h with
  | refused bad => exact .inr (hkept (issued?_eq_none rfl) rfl (endsHandle_of_fault? bad))
  | settled _ settles =>
    refine .inr (hkept ?_ rfl (endsHandle_of_settledBy? settles))
    rw [issued?, untold_of_settledBy? settles, if_neg Bool.false_ne_true]
  | failed begins | made begins | unseen begins | removed begins =>
    exact .inr (hkept (issued?_eq_none rfl) rfl begins.endsHandle)
  | @created _ _ _ _ _ file _ _ hinode hmode =>
    obtain ⟨inode, fd, mode⟩ := file
    cases hinode
    cases hmode
    exact .inl ⟨_, .created, rfl⟩
  | @opened _ _ _ file _ hinode hmode =>
    obtain ⟨inode, fd, mode⟩ := file
    cases hinode
    cases hmode
    exact .inl ⟨_, .opened, rfl⟩
  | @openedToRead _ _ _ file _ hinode hmode =>
    obtain ⟨inode, fd, mode⟩ := file
    cases hinode
    cases hmode
    exact .inl ⟨_, .openedToRead, rfl⟩
  | @released _ released =>
    refine .inr ⟨issued?_eq_none rfl, rfl, fun handle => ?_⟩
    rw [HandleTable.get?_remove, Request.endsHandle_release]
    by_cases hended : handle = released
    · rw [if_pos hended, if_pos (beq_iff_eq.2 hended.symm)]
    · rw [if_neg hended, if_neg (mt beq_iff_eq.1 (Ne.symm hended))]
  | @unheld _ released hnone =>
    refine .inr ⟨issued?_eq_none rfl, rfl, fun handle => ?_⟩
    rw [Request.endsHandle_release]
    by_cases hended : released = handle
    · rw [if_pos (beq_iff_eq.2 hended), ← hended, hnone]
    · rw [if_neg (mt beq_iff_eq.1 hended)]
  | destroyed => exact .inr ⟨issued?_eq_none rfl, rfl, fun _ => rfl⟩
  | _ => exact .inr (hkept (issued?_eq_none rfl) rfl fun _ => rfl)

/-- The table holds the files of the handles that live, and the numbers that were issued are those from
one on. -/
structure Tracks (hist : List Service) (t : HandleTable OpenFile) : Prop where
  next : t.next = UInt64.ofNat (issues hist + 1)
  live : ∀ handle file, t.get? handle = some file ↔ Live hist handle file
  numbered : ∀ r ∈ hist, ∀ handle, r.issued? = some handle →
    handle ≠ 0 ∧ handle.toNat ≤ issues hist

theorem tracks_new : Tracks [] (.new : HandleTable OpenFile) where
  next := rfl
  live _ _ := ⟨nofun, fun h => absurd h not_live_nil⟩
  numbered := by simp

theorem Tracks.reorders (h : Tracks hist d.handles) {mid : Dispatcher} (hr : d.Reorders mid) :
    Tracks hist mid.handles where
  next := hr.next.trans h.next
  live handle file := by
    rw [← h.live handle file]
    exact Eq.congr_left (FiniteMap.get?_eq_of_perm hr.held handle)
  numbered := h.numbered

theorem Tracks.toNat_next (h : Tracks hist t) (room : issues hist + 1 < UInt64.size) :
    t.next.toNat = issues hist + 1 := by
  rw [h.next, UInt64.toNat_ofNat_of_lt' room]

theorem Tracks.isFree_next (h : Tracks hist t) (room : issues hist + 1 < UInt64.size) :
    t.isFree t.next = true := by
  refine HandleTable.isFree_next h.next (fun handle file held => ?_) room
  obtain ⟨r, hr, hissued⟩ := ((h.live _ _).1 held).exists_issued
  exact (h.numbered r hr _ hissued).2

theorem Issues.unique {file' : OpenFile} (h : Issues handle req events out file)
    (h' : Issues handle req events out file') : file' = file := by
  cases h <;> cases h' <;> rfl

theorem Issues.endsHandle {other : Handle} (h : Issues other req events out file) (handle : Handle) :
    req.endsHandle handle = false := by
  cases h <;> rfl

variable {r : Service}

theorem Tracks.of_issues (h : Tracks hist r.before.handles) (room : issues hist + 1 < UInt64.size)
    (hissues : r.Issues (r.before.handles.insert file).1 file)
    (hafter : r.after.handles = (r.before.handles.insert file).2) :
    r.issued? = some r.before.handles.next ∧ Tracks (hist ++ [r]) r.after.handles := by
  rw [HandleTable.insert_eq_of_isFree (h.isFree_next room)] at hissues hafter
  obtain ⟨hnonzero, hunheld⟩ := HandleTable.isFree_iff.1 (h.isFree_next room)
  have hissued : r.issued? = some r.before.handles.next := Issues.issued? hissues
  have hone := issues_singleton_some hissued
  have hget (handle : Handle) : r.after.handles.get? handle =
      if handle = r.before.handles.next then some file else r.before.handles.get? handle := by
    rw [hafter]
    exact FiniteMap.get?_insert _ _ _ _
  refine ⟨hissued, ?_, fun handle file' => ?_, ?_⟩
  · rw [hafter, h.next, issues_append, hone, UInt64.ofNat_add (issues hist + 1)]
    rfl
  · rw [hget, live_concat_iff]
    by_cases hnew : handle = r.before.handles.next
    · subst hnew
      rw [if_pos rfl, ← h.live, hunheld]
      constructor
      · intro heq
        obtain rfl := Option.some.inj heq
        exact .inl hissues
      · rintro (hissues' | ⟨hheld, _⟩)
        · rw [Issues.unique hissues hissues']
        · cases hheld
    · have hother : ¬ r.Issues handle file' := fun hissues' =>
        hnew (Option.some.inj ((Issues.issued? hissues').symm.trans hissued))
      rw [if_neg hnew, h.live, or_iff_right hother, Issues.endsHandle hissues, and_iff_left rfl]
  · rw [issues_append, hone]
    refine List.forall_mem_append.2 ⟨fun r' hr' handle hhandle => ?_, fun r' hr' handle hhandle => ?_⟩
    · obtain ⟨hne, hle⟩ := h.numbered r' hr' handle hhandle
      exact ⟨hne, by omega⟩
    · obtain rfl := List.mem_singleton.1 hr'
      obtain rfl := Option.some.inj (hissued.symm.trans hhandle)
      exact ⟨hnonzero, (h.toNat_next room).le⟩

/-- A request that issues no handle takes out of the table those whose lives it ends. -/
theorem Tracks.of_ends (h : Tracks hist r.before.handles) (hissued : r.issued? = none)
    (hnext : r.after.handles.next = r.before.handles.next)
    (hget : ∀ handle, r.after.handles.get? handle =
      if r.request.endsHandle handle then none else r.before.handles.get? handle) :
    Tracks (hist ++ [r]) r.after.handles := by
  have hissues : issues (hist ++ [r]) = issues hist := by
    rw [issues_append, issues_singleton_none hissued, add_zero]
  refine ⟨?_, fun handle file => ?_, ?_⟩
  · rw [hnext, h.next, hissues]
  · have hother : ¬ r.Issues handle file := fun hissues' => by
      cases hissued.symm.trans (Issues.issued? hissues')
    rw [hget, live_concat_iff, or_iff_right hother, ← h.live]
    cases hend : r.request.endsHandle handle <;> simp
  · rw [hissues]
    refine List.forall_mem_append.2 ⟨h.numbered, fun r' hr' handle hhandle => ?_⟩
    rw [List.mem_singleton.1 hr', hissued] at hhandle
    cases hhandle

/-- The next request keeps track of the handles, and issues the next number if it issues one. -/
theorem Tracks.serve (h : Tracks hist r.before.handles)
    (hconduct : Conduct r.before r.request r.events r.outcome r.after)
    (room : issues (hist ++ [r]) < UInt64.size) :
    (∀ handle, r.issued? = some handle → handle.toNat = issues hist + 1 ∧
      ∃ file, r.Issues handle file) ∧ Tracks (hist ++ [r]) r.after.handles := by
  rw [issues_append] at room
  rcases hconduct.issues_or_ends with ⟨file, hissues, hafter⟩ | ⟨hnone, hnext, hget⟩
  · rw [issues_singleton_some (Issues.issued? hissues : r.issued? = some _)] at room
    obtain ⟨hissued, htracks⟩ := h.of_issues room hissues hafter
    refine ⟨fun handle hhandle => ?_, htracks⟩
    obtain rfl := Option.some.inj (hissued.symm.trans hhandle)
    rw [HandleTable.insert_eq_of_isFree (h.isFree_next room)] at hissues
    exact ⟨h.toNat_next room, file, hissues⟩
  · refine ⟨fun handle hhandle => ?_, h.of_ends hnone hnext hget⟩
    cases hnone.symm.trans hhandle

end Step

section Runs

variable {σ : Type} {s : Storage σ} {d d' : Dispatcher} {state state' : σ}
  {past hist : List Service}

theorem RunsOver.tracks (h : RunsOver s d state hist d' state') (htracks : Tracks past d.handles)
    (room : issues (past ++ hist) < UInt64.size) : Tracks (past ++ hist) d'.handles := by
  induction h generalizing past with
  | nil =>
    rw [List.append_nil]
    exact htracks
  | @cons d mid d' state next state' request r hist reorders serves later ih =>
    obtain ⟨hpossible, rfl, _⟩ := of_serveOver serves
    rw [List.append_cons] at room ⊢
    have hfirst : issues (past ++ [r]) < UInt64.size := by
      rw [issues_append] at room
      omega
    exact ih ((htracks.reorders reorders).serve (serve_conduct hpossible) hfirst).2 room

variable {before rest : List Service} {q : Service} {handle : Handle}

/-- When a request of a run begins, the table holds the files of the handles that live then. -/
theorem RunsOver.tracks_before (h : RunsOver s d state (before ++ q :: rest) d' state')
    (htracks : Tracks [] d.handles) (room : issues (before ++ q :: rest) < UInt64.size) :
    Tracks before q.before.handles ∧
      Conduct q.before q.request q.events q.outcome q.after ∧
      issues (before ++ [q]) < UInt64.size := by
  rw [List.append_cons, issues_append] at room
  obtain ⟨mid, midState, hbefore, hrest⟩ := h.of_append
  cases hrest with
  | cons reorders serves later =>
    obtain ⟨hpossible, rfl, _⟩ := of_serveOver serves
    have hmid : Tracks ([] ++ before) mid.handles := hbefore.tracks htracks (by
      rw [issues_append] at room
      rw [List.nil_append]
      omega)
    exact ⟨hmid.reorders reorders, serve_conduct hpossible, by omega⟩

theorem RunsOver.issued_ne_zero (h : RunsOver s d state hist d' state')
    (htracks : Tracks [] d.handles) (room : issues hist < UInt64.size) :
    ∀ r ∈ hist, r.issued? ≠ some 0 := fun r hr hissued =>
  ((h.tracks htracks room).numbered r hr 0 hissued).1 rfl

theorem RunsOver.issued_once (h : RunsOver s d state (before ++ q :: rest) d' state')
    (htracks : Tracks [] d.handles) (room : issues (before ++ q :: rest) < UInt64.size)
    (hissued : q.issued? = some handle) : ∀ later ∈ rest, later.issued? ≠ some handle := by
  intro later hlater hagain
  obtain ⟨between, after, rfl⟩ := List.append_of_mem hlater
  rw [← List.cons_append, ← List.append_assoc] at h room
  obtain ⟨hthen, hconduct, hroom⟩ := h.tracks_before htracks room
  have hnumber := ((hthen.serve hconduct hroom).1 handle hagain).1
  have hle := (hthen.numbered q (by simp) handle hissued).2
  omega

end Runs
end InodeBridge.Dispatcher
