import InodeBridge.Proofs.Path.Joining

/-! # The two directions of an inode table agree

A table is consistent if its two maps are inverse to each other.  Each operation that binds, drops or
counts keeps a table consistent; renames have a module of their own.
-/
namespace InodeBridge.InodeTable

variable {t : InodeTable}

/-- The two maps are inverse, and a location is kept under its own steps. -/
structure Inverse (t : InodeTable) : Prop where
  binding_of_entry : ∀ {i e}, t.byInode.get? i = some e →
    ∃ b, t.byLocation.get? e.path.components = some b ∧ b.inode = i
  entry_of_binding : ∀ {l b}, t.byLocation.get? l = some b →
    ∃ e, t.byInode.get? b.inode = some e ∧ e.path.components = l
  spelling_components : ∀ {l b}, t.byLocation.get? l = some b → b.spelling.components = l

structure Consistent (t : InodeTable) : Prop extends t.Inverse where
  zero_unbound : t.byInode.get? 0 = none

theorem resolve?_eq_some_iff {i : Inode} {p : Path} :
    t.resolve? i = some p ↔ ∃ e, t.byInode.get? i = some e ∧ e.path = p := by
  simp [resolve?]

theorem inodeOf?_eq_some_iff {i : Inode} {p : Path} :
    t.inodeOf? p = some i ↔ ∃ b, t.byLocation.get? p.components = some b ∧ b.inode = i := by
  simp [inodeOf?]

/-- Paths of one location have one inode. -/
theorem inodeOf?_congr {p q : Path} (h : p.components = q.components) :
    t.inodeOf? p = t.inodeOf? q := by
  rw [inodeOf?, inodeOf?, h]

namespace Inverse

theorem inodeOf?_path (h : t.Inverse) {i : Inode} {e : Entry} (he : t.byInode.get? i = some e) :
    t.inodeOf? e.path = some i :=
  inodeOf?_eq_some_iff.2 (h.binding_of_entry he)

theorem inodeOf?_of_resolve? (h : t.Inverse) {i : Inode} {p : Path}
    (hp : t.resolve? i = some p) : t.inodeOf? p = some i := by
  obtain ⟨e, he, rfl⟩ := resolve?_eq_some_iff.1 hp
  exact h.inodeOf?_path he

theorem inode_unique (h : t.Inverse) {i j : Inode} {p q : Path}
    (hp : t.resolve? i = some p) (hq : t.resolve? j = some q) (hc : p.components = q.components) :
    i = j := by
  have hi := h.inodeOf?_of_resolve? hp
  rw [inodeOf?_congr hc, h.inodeOf?_of_resolve? hq] at hi
  exact (Option.some.inj hi).symm

theorem inodeOf?_iff (h : t.Inverse) {i : Inode} {p : Path} :
    t.inodeOf? p = some i ↔
      ∃ e, t.byInode.get? i = some e ∧ e.path.components = p.components := by
  constructor
  · intro hp
    obtain ⟨b, hb, rfl⟩ := inodeOf?_eq_some_iff.1 hp
    exact h.entry_of_binding hb
  · rintro ⟨e, he, hc⟩
    rw [← inodeOf?_congr hc]
    exact h.inodeOf?_path he

theorem inodeOf?_iff_of_entry (h : t.Inverse) {i : Inode} {e : Entry} {p : Path}
    (he : t.byInode.get? i = some e) :
    t.inodeOf? p = some i ↔ e.path.components = p.components := by
  rw [h.inodeOf?_iff, he]
  simp

theorem location_unique (h : t.Inverse) {l l' : Location} {b b' : Binding}
    (hb : t.byLocation.get? l = some b) (hb' : t.byLocation.get? l' = some b')
    (hi : b.inode = b'.inode) : l = l' := by
  obtain ⟨e, he, rfl⟩ := h.entry_of_binding hb
  obtain ⟨e', he', rfl⟩ := h.entry_of_binding hb'
  rw [hi, he'] at he
  rw [Option.some.inj he]

theorem drop (h : t.Inverse) {l : Location} {b : Binding}
    (hb : t.byLocation.get? l = some b) :
    { t with
      byInode := t.byInode.erase b.inode
      byLocation := t.byLocation.erase l }.Inverse where
  binding_of_entry {i e} he := by
    simp only [FiniteMap.get?_erase] at he ⊢
    split at he
    · simp at he
    next hi =>
      obtain ⟨b', hb', hi'⟩ := h.binding_of_entry he
      refine ⟨b', ?_, hi'⟩
      rw [if_neg, hb']
      rintro rfl
      rw [hb] at hb'
      exact hi (by rw [← hi', ← Option.some.inj hb'])
  entry_of_binding {l' b'} hb' := by
    simp only [FiniteMap.get?_erase] at hb' ⊢
    split at hb'
    · simp at hb'
    next hl =>
      obtain ⟨e, he, hc⟩ := h.entry_of_binding hb'
      refine ⟨e, ?_, hc⟩
      rw [if_neg fun hi => hl (h.location_unique hb' hb hi), he]
  spelling_components {l' b'} hb' := by
    simp only [FiniteMap.get?_erase] at hb'
    split at hb'
    · simp at hb'
    · exact h.spelling_components hb'

end Inverse

namespace Consistent

theorem of_paths_eq (h : t.Consistent) {m : FiniteMap Inode Entry}
    (hm : ∀ i, (m.get? i).map (·.path) = (t.byInode.get? i).map (·.path)) :
    { t with byInode := m }.Consistent where
  binding_of_entry {i e} he := by
    have hi := hm i
    rw [show m.get? i = some e from he] at hi
    obtain ⟨e', he', hpath⟩ := Option.map_eq_some_iff.1 hi.symm
    rw [show e.path = e'.path from hpath.symm]
    exact h.binding_of_entry he'
  entry_of_binding {l b} hb := by
    obtain ⟨e, he, rfl⟩ := h.entry_of_binding hb
    have hi := hm b.inode
    rw [he] at hi
    obtain ⟨e', he', hpath⟩ := Option.map_eq_some_iff.1 hi
    exact ⟨e', he', by rw [hpath]⟩
  spelling_components hb := h.spelling_components hb
  zero_unbound := by
    have hi := hm 0
    rw [h.zero_unbound] at hi
    simpa using hi

theorem drop (h : t.Consistent) {l : Location} {b : Binding}
    (hb : t.byLocation.get? l = some b) :
    { t with
      byInode := t.byInode.erase b.inode
      byLocation := t.byLocation.erase l }.Consistent where
  toInverse := h.toInverse.drop hb
  zero_unbound := by
    simp [FiniteMap.get?_erase, h.zero_unbound]

/-- Binding a free location to a free inode keeps a table consistent. -/
theorem bindNew (h : t.Consistent) {path : Path} {inode : Inode} (lookups : Nat)
    (hp : t.inodeOf? path = none) (hi : t.byInode.get? inode = none) (h0 : inode ≠ 0) :
    { t with
      byInode := t.byInode.insert inode ⟨path, lookups⟩
      byLocation := t.byLocation.insert path.components ⟨path, inode⟩ }.Consistent where
  binding_of_entry {i e} he := by
    simp only [FiniteMap.get?_insert] at he ⊢
    split at he
    next hin =>
      cases he
      exact ⟨_, if_pos rfl, hin.symm⟩
    next hin =>
      obtain ⟨b, hb, hbi⟩ := h.binding_of_entry he
      refine ⟨b, ?_, hbi⟩
      rw [if_neg, hb]
      intro hc
      rw [inodeOf?, ← hc, hb] at hp
      simp at hp
  entry_of_binding {l b} hb := by
    simp only [FiniteMap.get?_insert] at hb ⊢
    split at hb
    next hl =>
      cases hb
      exact ⟨_, if_pos rfl, hl.symm⟩
    next hl =>
      obtain ⟨e, he, hc⟩ := h.entry_of_binding hb
      refine ⟨e, ?_, hc⟩
      rw [if_neg, he]
      intro hbi
      rw [hbi, hi] at he
      simp at he
  spelling_components {l b} hb := by
    simp only [FiniteMap.get?_insert] at hb
    split at hb
    next hl =>
      cases hb
      exact hl.symm
    · exact h.spelling_components hb
  zero_unbound := by
    simp [FiniteMap.get?_insert, h0.symm, h.zero_unbound]

end Consistent

theorem consistent_withNumbering (number : Numbering) (root : Path) :
    (withNumbering number root).Consistent where
  binding_of_entry {i e} he := by
    simp only [withNumbering, FiniteMap.get?_insert, FiniteMap.get?_empty] at he ⊢
    split at he
    next hi =>
      cases he
      exact ⟨_, if_pos rfl, hi.symm⟩
    · simp at he
  entry_of_binding {l b} hb := by
    simp only [withNumbering, FiniteMap.get?_insert, FiniteMap.get?_empty] at hb ⊢
    split at hb
    next hl =>
      cases hb
      exact ⟨_, if_pos rfl, hl.symm⟩
    · simp at hb
  spelling_components {l b} hb := by
    simp only [withNumbering, FiniteMap.get?_insert, FiniteMap.get?_empty] at hb
    split at hb
    next hl =>
      cases hb
      exact hl.symm
    · simp at hb
  zero_unbound := by
    simp [withNumbering, FiniteMap.get?_insert, rootInode]

theorem isFree_iff {i : Inode} :
    t.isFree i = true ↔ rootInode < i ∧ t.byInode.get? i = none := by
  simp [isFree, FiniteMap.contains_eq_false_iff]

theorem isFree_of_freeFrom? {path : Path} {fuel : Nat} {salt : UInt64} {i : Inode}
    (h : t.freeFrom? path fuel salt = some i) : t.isFree i = true := by
  induction fuel generalizing salt with
  | zero => simp [freeFrom?] at h
  | succ fuel ih =>
    simp only [freeFrom?] at h
    split at h
    next hfree => exact Option.some.inj h ▸ hfree
    next => exact ih h

theorem isFree_of_free? {path : Path} {i : Inode} (h : t.free? path = some i) :
    rootInode < i ∧ t.byInode.get? i = none :=
  isFree_iff.1 (isFree_of_freeFrom? h)

theorem ne_zero_of_rootInode_lt {i : Inode} (h : rootInode < i) : i ≠ 0 := by
  rintro rfl
  simp [rootInode] at h

theorem Consistent.insert (h : t.Consistent) (path : Path) (lookups : Nat) :
    (t.insert path lookups).2.Consistent := by
  unfold InodeTable.insert
  split
  next inode hp =>
    apply h.of_paths_eq
    intro i
    rw [FiniteMap.get?_modify]
    split
    next hi => simp [hi, Function.comp_def]
    · rfl
  next hp =>
    split
    next inode hfree =>
      have hi := isFree_of_free? hfree
      exact h.bindNew lookups hp hi.2 (ne_zero_of_rootInode_lt hi.1)
    · exact h

theorem get?_byInode_unbindPath (path : Path) (j : Inode) :
    (t.unbindPath path).2.byInode.get? j =
      if t.inodeOf? path = some j ∧ j ≠ rootInode then none else t.byInode.get? j := by
  unfold unbindPath
  split
  next hp => simp [hp]
  next inode hp =>
    by_cases hroot : inode = rootInode
    · rw [if_pos hroot, if_neg]
      rintro ⟨hj, hne⟩
      rw [hp] at hj
      exact hne (Option.some.inj hj ▸ hroot)
    · rw [if_neg hroot, FiniteMap.get?_erase, hp]
      by_cases hj : j = inode
      · rw [if_pos hj, if_pos ⟨by rw [hj], hj ▸ hroot⟩]
      · rw [if_neg hj, if_neg fun h => hj (Option.some.inj h.1).symm]

theorem Inverse.unbindPath (h : t.Inverse) (path : Path) :
    (t.unbindPath path).2.Inverse := by
  unfold InodeTable.unbindPath
  split
  · exact h
  next inode hp =>
    split
    · exact h
    · obtain ⟨b, hb, rfl⟩ := inodeOf?_eq_some_iff.1 hp
      exact h.drop hb

theorem Consistent.unbindPath (h : t.Consistent) (path : Path) :
    (t.unbindPath path).2.Consistent where
  toInverse := h.toInverse.unbindPath path
  zero_unbound := by rw [get?_byInode_unbindPath, h.zero_unbound, ite_self]

theorem Consistent.unbind_eq (h : t.Consistent) {inode : Inode} {e : Entry}
    (hroot : inode ≠ rootInode) (he : t.byInode.get? inode = some e) :
    t.unbind inode = { t with
      byInode := t.byInode.erase inode
      byLocation := t.byLocation.erase e.path.components } := by
  have hp := h.inodeOf?_path he
  rw [InodeTable.unbind, if_neg hroot, he]
  simp only [eraseLocation]
  rw [if_pos]
  exact hp

theorem Consistent.unbind (h : t.Consistent) (inode : Inode) : (t.unbind inode).Consistent := by
  by_cases hroot : inode = rootInode
  · simpa [InodeTable.unbind, hroot] using h
  · cases he : t.byInode.get? inode with
    | none => simpa [InodeTable.unbind, hroot, he] using h
    | some e =>
      obtain ⟨b, hb, rfl⟩ := h.binding_of_entry he
      rw [h.unbind_eq hroot he]
      exact h.drop hb

theorem Consistent.forget (h : t.Consistent) (inode : Inode) (lookups : Nat) :
    (t.forget inode lookups).2.Consistent := by
  unfold InodeTable.forget
  split
  · exact h
  · split
    · exact h
    next e he =>
      dsimp only
      split
      · apply h.of_paths_eq
        intro i
        rw [FiniteMap.get?_insert]
        split
        next hi => simp [hi, he]
        · rfl
      · exact h.unbind inode

end InodeBridge.InodeTable
