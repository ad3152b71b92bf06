import InodeBridge.HostStorage
import InodeBridge.Proofs.Dispatcher.References
import InodeBridge.Proofs.Dispatcher.Reordering
import Mathlib.Data.List.Induction

/-! # When an inode that the kernel knows resolves

Over a whole run, the references counted for an inode are the most by which, over some last stretch of
the run in which its path was not taken away, more of them were handed out than returned.
-/
namespace InodeBridge.Dispatcher

open Storage (Call Event)

def totalHanded (i : Inode) (hist : List Service) : Nat := (hist.map (·.handed i)).sum

def totalReturned (i : Inode) (hist : List Service) : Nat := (hist.map (·.returned i)).sum

section Totals

variable (i : Inode)

@[simp] theorem totalHanded_nil : totalHanded i [] = 0 := rfl

@[simp] theorem totalReturned_nil : totalReturned i [] = 0 := rfl

@[simp] theorem totalHanded_append (first rest : List Service) :
    totalHanded i (first ++ rest) = totalHanded i first + totalHanded i rest := by
  simp [totalHanded]

@[simp] theorem totalReturned_append (first rest : List Service) :
    totalReturned i (first ++ rest) = totalReturned i first + totalReturned i rest := by
  simp [totalReturned]

@[simp] theorem totalHanded_singleton (r : Service) : totalHanded i [r] = r.handed i := by
  simp [totalHanded]

@[simp] theorem totalReturned_singleton (r : Service) : totalReturned i [r] = r.returned i := by
  simp [totalReturned]

end Totals

variable {d d' : Dispatcher} {hist : List Service} {r : Service} {i : Inode}

theorem Service.Possible.consistent (h : r.Possible) (hc : r.before.inodes.Consistent)
    (hrenames : r.RenamesApart) : r.after.inodes.Consistent := by
  obtain ⟨before, request, events, outcome, after⟩ := r
  obtain ⟨_, heffect⟩ := serve_effect h
  dsimp only at heffect hc ⊢
  generalize after.inodes = t at heffect ⊢
  cases heffect with
  | quiet => exact hc
  | handed => exact hc.insert _ 1
  | listed => exact consistent_bindingAll (consistent_bindingAbove hc _ _) _ _
  | forgot => exact consistent_forgetAll hc _
  | unlinked => exact hc.unbindPath _
  | rmdired => exact hc.unbindPath _
  | moved policy => exact hc.rename (hrenames policy _ _ (List.mem_singleton_self _))
  | rebound => exact (hc.unbindPath _).insert _ 0

theorem History.consistent (h : History d hist d') (hc : d.inodes.Consistent)
    (hrenames : ∀ r ∈ hist, r.RenamesApart) : d'.inodes.Consistent :=
  h.invariant (P := fun d => d.inodes.Consistent) hc fun r hr possible hbefore =>
    possible.consistent hbefore (hrenames r hr)

theorem History.last (h : History d (hist ++ [r]) d') :
    History d hist r.before ∧ r.Possible ∧ r.after = d' := by
  obtain ⟨mid, hfirst, hlast⟩ := append_iff.1 h
  obtain ⟨possible, rfl, rfl⟩ := history_singleton_iff.1 hlast
  exact ⟨hfirst, possible, rfl⟩

/-- Stretches at the end of a list are empty or reach into the list before its last element. -/
theorem exists_stretch_append_singleton {α : Type} {l : List α} {a : α}
    {P : List α → Prop} :
    (∃ old recent, l ++ [a] = old ++ recent ∧ P recent) ↔
      P [] ∨ ∃ old recent, l = old ++ recent ∧ P (recent ++ [a]) := by
  constructor
  · rintro ⟨old, recent, heq, hP⟩
    rcases List.eq_nil_or_concat' recent with rfl | ⟨recent, last, rfl⟩
    · exact .inl hP
    · rw [← List.append_assoc] at heq
      obtain ⟨rfl, hlast⟩ := List.append_inj' heq rfl
      cases hlast
      exact .inr ⟨old, recent, rfl, hP⟩
  · rintro (hP | ⟨old, recent, rfl, hP⟩)
    · exact ⟨l ++ [a], [], by simp, hP⟩
    · exact ⟨old, recent ++ [a], by simp, hP⟩

/-- The references counted for an inode exceed a number exactly if, over some last stretch in which
its path was not taken away, those handed out exceed those returned by more than that number. -/
theorem History.lt_held_iff (h : History d hist d') (hc : d.inodes.Consistent)
    (hzero : d.inodes.held i = 0) (hrenames : ∀ r ∈ hist, r.RenamesApart) (hi : i ≠ 0)
    (hroot : i ≠ rootInode) (k : Nat) :
    k < d'.inodes.held i ↔ ∃ old recent, hist = old ++ recent ∧
      (∀ r ∈ recent, ¬ r.Takes i) ∧ totalReturned i recent + k < totalHanded i recent := by
  induction hist using List.reverseRecOn generalizing d' k with
  | nil =>
    cases h
    constructor
    · intro hk
      omega
    · rintro ⟨old, recent, heq, _, hk⟩
      obtain ⟨rfl, rfl⟩ := List.append_eq_nil_iff.1 heq.symm
      simp at hk
  | append_singleton hist r ih =>
    obtain ⟨hfirst, possible, rfl⟩ := h.last
    have hbefore := fun r hr => hrenames r (List.mem_append_left _ hr)
    have haccounts := possible.accounts (hfirst.consistent hc hbefore) (hrenames r (by simp)) hi hroot
    rw [exists_stretch_append_singleton]
    by_cases htakes : r.Takes i
    · rw [haccounts.taken htakes]
      constructor
      · intro hk
        omega
      · rintro (⟨_, hk⟩ | ⟨old, recent, _, hspared, _⟩)
        · simp at hk
        · exact absurd htakes (hspared r (by simp))
    · rw [haccounts.counted htakes]
      -- what the last service returns beyond what it hands out must be held before it
      by_cases hmore : k + r.returned i < r.handed i
      · refine ⟨fun _ => .inr ⟨hist, [], by simp, ?_⟩, fun _ => by omega⟩
        exact ⟨by simpa using htakes, by simp; omega⟩
      · have hbound : k < r.before.inodes.held i + r.handed i - r.returned i ↔
            k + r.returned i - r.handed i < r.before.inodes.held i := by omega
        rw [hbound, ih hfirst hbefore]
        constructor
        · rintro ⟨old, recent, rfl, hspared, hk⟩
          refine .inr ⟨old, recent, rfl, fun r' hr' => ?_, by simp; omega⟩
          rcases List.mem_append.1 hr' with hr' | hr'
          · exact hspared r' hr'
          · exact List.mem_singleton.1 hr' ▸ htakes
        · rintro (⟨_, hk⟩ | ⟨old, recent, rfl, hspared, hk⟩)
          · simp at hk
          · simp only [totalReturned_append, totalHanded_append, totalReturned_singleton,
              totalHanded_singleton] at hk
            exact ⟨old, recent, rfl, fun r' hr' => hspared r' (List.mem_append_left _ hr'), by omega⟩

/-- An inode is bound with references, or without any since it was listed and neither taken away nor
returned. -/
theorem History.bound_iff (h : History d hist d') (hc : d.inodes.Consistent)
    (hunbound : (d.inodes.lookups? i) = none) (hrenames : ∀ r ∈ hist, r.RenamesApart) (hi : i ≠ 0)
    (hroot : i ≠ rootInode) :
    (d'.inodes.lookups? i).isSome ↔ 0 < d'.inodes.held i ∨
      ∃ old r recent, hist = old ++ r :: recent ∧ r.Lists i ∧
        ∀ r' ∈ recent, ¬ r'.Takes i ∧ i ∉ r'.request.forgotten.map Prod.fst := by
  induction hist using List.reverseRecOn generalizing d' with
  | nil =>
    cases h
    simp [InodeTable.held, hunbound]
  | append_singleton hist r ih =>
    obtain ⟨hfirst, possible, rfl⟩ := h.last
    have hbefore := fun r hr => hrenames r (List.mem_append_left _ hr)
    have haccounts := possible.accounts (hfirst.consistent hc hbefore) (hrenames r (by simp)) hi hroot
    constructor
    · intro hbound
      by_cases hheld : r.after.inodes.held i = 0
      · right
        rcases haccounts.unreferenced hbound hheld with hlists | ⟨htakes, hkeeps, hbound'⟩
        · exact ⟨hist, r, [], rfl, hlists, by simp⟩
        · have hnone : r.returned i = 0 := returnedIn_of_not_mem hkeeps
          have hcounted := haccounts.counted htakes
          obtain hpos | ⟨old, listed, recent, rfl, hlists, hspared⟩ :=
            (ih hfirst hbefore).1 hbound'
          · omega
          · refine ⟨old, listed, recent ++ [r], by simp, hlists, fun r' hr' => ?_⟩
            rcases List.mem_append.1 hr' with hr' | hr'
            · exact hspared r' hr'
            · exact List.mem_singleton.1 hr' ▸ ⟨htakes, hkeeps⟩
      · exact .inl (by omega)
    · rintro (hheld | ⟨old, listed, recent, heq, hlists, hspared⟩)
      · rw [InodeTable.held] at hheld
        cases hl : r.after.inodes.lookups? i <;> simp_all
      · rcases List.eq_nil_or_concat' recent with rfl | ⟨recent, last, rfl⟩
        · obtain ⟨_, hlast⟩ := List.append_inj' heq rfl
          obtain rfl : r = listed := by simpa using hlast
          rw [← InodeTable.resolve?_isSome]
          exact hlists.2
        · rw [← List.cons_append, ← List.append_assoc] at heq
          obtain ⟨rfl, hlast⟩ := List.append_inj' heq rfl
          obtain rfl : r = last := by simpa using hlast
          obtain ⟨htakes, hkeeps⟩ := hspared r (by simp)
          refine haccounts.kept htakes hkeeps ((ih hfirst hbefore).2 (.inr ?_))
          exact ⟨old, listed, recent, rfl, hlists, fun r' hr' =>
            hspared r' (List.mem_append_left _ hr')⟩

theorem Service.Possible.request_of_renames (h : r.Possible) {source target : Path}
    (hr : r.Renames source target) :
    ∃ parent name newParent newName, r.request = .rename parent name newParent newName := by
  obtain ⟨before, request, events, outcome, after⟩ := r
  obtain ⟨_, heffect⟩ := serve_effect h
  dsimp only at heffect
  generalize after.inodes = t at heffect
  have calm : ∀ event : Event, event = ⟨.rename source target, .ok ()⟩ → event.removes = true := by
    rintro _ rfl
    rfl
  cases heffect with
  | moved | rebound => exact ⟨_, _, _, _, rfl⟩
  | quiet _ hcalm | handed _ hcalm | listed _ hcalm => simpa [calm] using hcalm _ hr
  | forgot | unlinked | rmdired => simp [Service.Renames] at hr

theorem renamesApart_of_forall_ne {σ : Type} {s : Storage σ} {state : σ} {requests : List Request}
    (h : ∀ parent name newParent newName,
      Request.rename parent name newParent newName ∉ requests) :
    ∀ r ∈ serveAll s d state requests, r.RenamesApart := by
  intro r hr _ source target hrenames
  obtain ⟨parent, name, newParent, newName, hrequest⟩ :=
    (possible_of_mem_serveAll hr).request_of_renames hrenames
  have hmem := List.mem_map_of_mem (f := (·.request)) hr
  rw [map_request_serveAll, hrequest] at hmem
  exact absurd hmem (h parent name newParent newName)

/-- Over a storage that renames only between paths that are equal or apart, renames are so. -/
theorem RunsOver.renamesApart {σ : Type} {s : Storage σ} {state state' : σ}
    (h : RunsOver s d state hist d' state')
    (haccepts : ∀ source target met, (s.perform (.rename source target) met).1 = .ok () →
      source.Renamable target) : ∀ r ∈ hist, r.RenamesApart := by
  intro r hr _ source target hrenames
  obtain ⟨met, hmet⟩ := h.answers.perform_of_mem _ (List.mem_flatMap.2 ⟨r, hr, hrenames⟩)
  exact haccepts source target met hmet

theorem start_lookups? (number : Numbering) (options : MountOptions) (root : Path)
    (hroot : i ≠ rootInode) : (start number options root).inodes.lookups? i = none := by
  simp [start, InodeTable.withNumbering, InodeTable.lookups?, FiniteMap.get?_insert, hroot]

/-- After any requests over any storage, an inode resolves exactly if, over some last stretch of the
run in which its path was not taken away, more references to it were handed out than returned, or if
it was listed and neither taken away nor returned since.  So one with references outstanding resolves
if those from before its path was last taken away had all been returned by then. -/
theorem resolves_iff_references_outstanding {σ : Type} (s : Storage σ) (number : Numbering)
    (options : MountOptions) (root : Path) (state : σ) (requests : List Request) (i : Inode)
    (hi : i ≠ 0) (hroot : i ≠ rootInode)
    (hrenames : ∀ r ∈ serveAll s (start number options root) state requests, r.RenamesApart) :
    let hist := serveAll s (start number options root) state requests
    let d := (stateAfter s (start number options root) state requests).1
    ((d.inodes.resolve? i).isSome ↔
      (∃ old recent, hist = old ++ recent ∧ (∀ r ∈ recent, ¬ r.Takes i) ∧
        totalReturned i recent < totalHanded i recent) ∨
      ∃ old r recent, hist = old ++ r :: recent ∧ r.Lists i ∧
        ∀ r' ∈ recent, ¬ r'.Takes i ∧ i ∉ r'.request.forgotten.map Prod.fst) ∧
    ∀ old recent, hist = old ++ recent → (∀ r ∈ recent, ¬ r.Takes i) →
      totalHanded i old ≤ totalReturned i old → totalReturned i hist < totalHanded i hist →
      (d.inodes.resolve? i).isSome := by
  intro hist d
  have h : History (start number options root) hist d := history_serveAll s _ state requests
  have hc : (start number options root).inodes.Consistent :=
    InodeTable.consistent_withNumbering number root
  have hnone := start_lookups? number options root hroot
  have hzero : (start number options root).inodes.held i = 0 := by
    rw [InodeTable.held, hnone]
    rfl
  have hiff : (d.inodes.resolve? i).isSome ↔
      (∃ old recent, hist = old ++ recent ∧ (∀ r ∈ recent, ¬ r.Takes i) ∧
        totalReturned i recent < totalHanded i recent) ∨
      ∃ old r recent, hist = old ++ r :: recent ∧ r.Lists i ∧
        ∀ r' ∈ recent, ¬ r'.Takes i ∧ i ∉ r'.request.forgotten.map Prod.fst := by
    rw [InodeTable.resolve?_isSome, h.bound_iff hc hnone hrenames hi hroot,
      h.lt_held_iff hc hzero hrenames hi hroot]
    rfl
  refine ⟨hiff, fun old recent heq hspared hold houtstanding => hiff.2 (.inl ?_)⟩
  refine ⟨old, recent, heq, hspared, ?_⟩
  rw [heq, totalReturned_append, totalHanded_append] at houtstanding
  omega

/-- A file is created, removed and created again under the same number; returning the reference from
before the removal then drops the inode, though one of its two references is outstanding. -/
theorem late_return_drops_inode :
    let root : Path := ⟨[slash]⟩
    let storage := HostStorage.serving root
    let state := HostStorage.new (Host.fresh 0 .epoch .fallback)
    let requests : List Request := [.create 1 [0x61] 0o644 0, .unlink 1 [0x61],
      .create 1 [0x61] 0o644 0, .forget 2 1]
    let number : Numbering := fun _ salt => salt + 2
    let hist := serveAll storage (start number {} root) state requests
    (∀ r ∈ hist, r.RenamesApart) ∧ totalHanded 2 hist = 2 ∧ totalReturned 2 hist = 1 ∧
      ¬ ∃ old recent, hist = old ++ recent ∧ (∀ r ∈ recent, ¬ r.Takes 2) ∧
        totalReturned 2 recent < totalHanded 2 recent := by
  intro root storage state requests number hist
  have hrenames : ∀ r ∈ hist, r.RenamesApart := renamesApart_of_forall_ne (by simp [requests])
  have hgone : (((stateAfter storage (start number {} root) state requests).1).inodes.resolve?
      2).isSome = false := by decide +kernel
  refine ⟨hrenames, by decide +kernel, by decide +kernel, fun hstretch => ?_⟩
  have hresolves := (resolves_iff_references_outstanding storage number {} root state requests 2
    (by decide) (by decide) hrenames).1.2 (.inl hstretch)
  rw [hgone] at hresolves
  exact Bool.false_ne_true hresolves

end InodeBridge.Dispatcher
