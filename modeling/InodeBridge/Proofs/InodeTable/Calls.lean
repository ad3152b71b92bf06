import InodeBridge.Proofs.InodeTable.Renaming

/-! # Sequences of calls on an inode table

Each call on a table is one step, whoever makes it.  A rename may visit the bindings it moves in any
order; all other calls have one result.  After any sequence of calls in which renames are between
renamable paths, the two maps are inverse to each other.
-/
namespace InodeBridge.InodeTable

inductive Call where
  | bind (path : Path)
  | bindLookup (path : Path)
  | unbind (inode : Inode)
  | unbindPath (path : Path)
  | forget (inode : Inode) (lookups : Nat)
  | rename (source target : Path)
  deriving DecidableEq, Repr

def Call.perform : Call → InodeTable → InodeTable
  | .bind path, t => (t.bind path).2
  | .bindLookup path, t => (t.bindLookup path).2
  | .unbind inode, t => t.unbind inode
  | .unbindPath path, t => (t.unbindPath path).2
  | .forget inode lookups, t => (t.forget inode lookups).2
  | .rename source target, t => (t.rename source target).2

/-- Whether a call can lead from a table to another one: a rename may visit what it moves in any
order. -/
inductive Call.Makes : Call → InodeTable → InodeTable → Prop
  | bind (path : Path) (t : InodeTable) : Makes (.bind path) t (t.bind path).2
  | bindLookup (path : Path) (t : InodeTable) : Makes (.bindLookup path) t (t.bindLookup path).2
  | unbind (inode : Inode) (t : InodeTable) : Makes (.unbind inode) t (t.unbind inode)
  | unbindPath (path : Path) (t : InodeTable) : Makes (.unbindPath path) t (t.unbindPath path).2
  | forget (inode : Inode) (lookups : Nat) (t : InodeTable) :
    Makes (.forget inode lookups) t (t.forget inode lookups).2
  | renameSame {source target : Path} (t : InodeTable)
    (same : source.components = target.components) : Makes (.rename source target) t t
  | rename {source target : Path} (t : InodeTable)
    (differ : source.components ≠ target.components) (order : List (Location × Binding))
    (visits : order.Perm ((t.unbindPath target).2.bindingsWithin source)) :
    Makes (.rename source target) t (t.renameVisiting source target order)

theorem Call.makes_perform (c : Call) (t : InodeTable) : c.Makes t (c.perform t) := by
  cases c with
  | bind path => exact .bind path t
  | bindLookup path => exact .bindLookup path t
  | unbind inode => exact .unbind inode t
  | unbindPath path => exact .unbindPath path t
  | forget inode lookups => exact .forget inode lookups t
  | rename source target =>
    by_cases hc : source.components = target.components
    · rw [perform, InodeTable.rename, if_pos hc]
      exact .renameSame t hc
    · rw [perform, InodeTable.rename, if_neg hc]
      exact .rename t hc _ (List.Perm.refl _)

/-- Whether some calls, one after the other, can lead from a table to another one. -/
inductive Run : InodeTable → List Call → InodeTable → Prop
  | nil (t : InodeTable) : Run t [] t
  | cons {t mid t' : InodeTable} {c : Call} {calls : List Call} (step : c.Makes t mid)
    (rest : Run mid calls t') : Run t (c :: calls) t'

theorem run_perform (calls : List Call) (t : InodeTable) :
    Run t calls (calls.foldl (fun t c => c.perform t) t) := by
  induction calls generalizing t with
  | nil => exact .nil t
  | cons c calls ih => exact .cons (c.makes_perform t) (ih (c.perform t))

/-- Renames are between paths that a host renames; all other calls may have any arguments. -/
def Call.Admissible : Call → Prop
  | .rename source target => source.Renamable target
  | _ => True

instance : DecidablePred Call.Admissible
  | .rename source target => inferInstanceAs (Decidable (source.Renamable target))
  | .bind _ | .bindLookup _ | .unbind _ | .unbindPath _ | .forget _ _ => isTrue trivial

theorem Consistent.makes {t t' : InodeTable} {c : Call} (h : t.Consistent) (hc : c.Admissible)
    (hstep : c.Makes t t') : t'.Consistent := by
  cases hstep with
  | bind path => exact h.insert path 0
  | bindLookup path => exact h.insert path 1
  | unbind inode => exact h.unbind inode
  | unbindPath path => exact h.unbindPath path
  | forget inode lookups => exact h.forget inode lookups
  | renameSame => exact h
  | rename t hdiffer order hvisits =>
    exact h.renameVisiting (Or.resolve_left hc hdiffer) hvisits

theorem Consistent.run {t t' : InodeTable} {calls : List Call} (h : t.Consistent)
    (hcalls : ∀ c ∈ calls, c.Admissible) (hrun : Run t calls t') : t'.Consistent := by
  induction hrun with
  | nil => exact h
  | @cons t mid t' c calls hstep _ ih =>
    exact ih (h.makes (hcalls c (by simp)) hstep) fun c' hc' => hcalls c' (List.mem_cons_of_mem c hc')

/-- After any calls on the table of a root, its two maps are inverse to each other: no two inodes
share a path and no two paths an inode, each finds the other, and zero is bound to nothing. -/
theorem maps_inverse_after_run (number : Numbering) (root : Path) (calls : List Call)
    (t : InodeTable) (hcalls : ∀ c ∈ calls, c.Admissible)
    (hrun : Run (withNumbering number root) calls t) :
    (∀ i p, (∃ q, t.resolve? i = some q ∧ q.components = p.components) ↔ t.inodeOf? p = some i) ∧
    (∀ i j p q, t.resolve? i = some p → t.resolve? j = some q → p.components = q.components →
      i = j) ∧
    (∀ i p q, t.inodeOf? p = some i → t.inodeOf? q = some i → p.components = q.components) ∧
    (∀ i p, t.resolve? i = some p → t.inodeOf? p = some i) ∧
    (∀ i p, t.inodeOf? p = some i → ∃ q, t.resolve? i = some q ∧ q.components = p.components) ∧
    t.resolve? 0 = none ∧ ∀ p, t.inodeOf? p ≠ some 0 := by
  have h : t.Consistent := (consistent_withNumbering number root).run hcalls hrun
  have hiff : ∀ i p,
      (∃ q, t.resolve? i = some q ∧ q.components = p.components) ↔ t.inodeOf? p = some i := by
    intro i p
    rw [h.inodeOf?_iff]
    constructor
    · rintro ⟨q, hq, hc⟩
      obtain ⟨e, he, rfl⟩ := resolve?_eq_some_iff.1 hq
      exact ⟨e, he, hc⟩
    · rintro ⟨e, he, hc⟩
      exact ⟨e.path, resolve?_eq_some_iff.2 ⟨e, he, rfl⟩, hc⟩
  have hback : ∀ i p, t.resolve? i = some p → t.inodeOf? p = some i :=
    fun i p hp => (hiff i p).1 ⟨p, hp, rfl⟩
  have hzero : t.resolve? 0 = none := by rw [resolve?, h.zero_unbound]; rfl
  refine ⟨hiff, ?_, ?_, hback, fun i p => (hiff i p).2, hzero, ?_⟩
  · intro i j p q hp hq hc
    have hi := hback i p hp
    rw [inodeOf?_congr hc, hback j q hq] at hi
    exact (Option.some.inj hi).symm
  · intro i p q hp hq
    obtain ⟨p', hp', hcp⟩ := (hiff i p).2 hp
    obtain ⟨q', hq', hcq⟩ := (hiff i q).2 hq
    rw [hp'] at hq'
    rw [← hcp, ← hcq, Option.some.inj hq']
  · intro p hp
    obtain ⟨q, hq, _⟩ := (hiff 0 p).2 hp
    simp [hzero] at hq

/-- A directory moved over one that holds an entry of the same name: the inodes below follow. -/
theorem maps_inverse_after_move_over :
    let root : Path := ⟨[slash, 0x74]⟩
    let a := root.child [0x61]
    let b := root.child [0x62]
    let calls : List Call := [.bindLookup a, .bindLookup (a.child [0x78]), .bind b,
      .bindLookup (b.child [0x78]), .rename a b, .forget 2 1, .bind a]
    let t := calls.foldl (fun t c => c.perform t) (withNumbering (fun _ salt => salt + 1) root)
    (∀ c ∈ calls, c.Admissible) ∧ t.resolve? 3 = some (b.child [0x78]) ∧
      t.inodeOf? (b.child [0x78]) = some 3 := by
  intro root a b calls t
  have hcalls : ∀ c ∈ calls, c.Admissible := by decide
  have hresolve : t.resolve? 3 = some (b.child [0x78]) := by decide +kernel
  have h := maps_inverse_after_run (fun _ salt => salt + 1) root calls t hcalls (run_perform calls _)
  exact ⟨hcalls, hresolve, h.2.2.2.1 3 _ hresolve⟩

end InodeBridge.InodeTable
