import InodeBridge.Proofs.InodeTable.Consistency
import InodeBridge.Proofs.Path.Within

/-! # A table keeps to its root

All paths that a table binds have the steps of its root first, and the root's own inode keeps the root's
path.  Every operation keeps this, also a rename between nested paths, after which the two maps of a
table need not agree any more.
-/
namespace InodeBridge

namespace InodeTable

variable {t : InodeTable} {root path source target : Path}

/-- What is bound is within the root, and the root's inode is bound to the root and to no other
location. -/
structure Confined (t : InodeTable) (root : Path) : Prop where
  root_eq : t.root = root
  root_entry : t.resolve? rootInode = some root
  root_binding : t.inodeOf? root = some rootInode
  entry_within : ∀ {i e}, t.byInode.get? i = some e → e.path.Within root
  spelling_components : ∀ {l b}, t.byLocation.get? l = some b → b.spelling.components = l
  binding_within : ∀ {l b}, t.byLocation.get? l = some b → b.spelling.Within root
  root_alone : ∀ {l b}, t.byLocation.get? l = some b → b.inode = rootInode → l = root.components

theorem confined_withNumbering (number : Numbering) (root : Path) :
    (withNumbering number root).Confined root where
  root_eq := rfl
  root_entry := by simp [resolve?, withNumbering]
  root_binding := by simp [inodeOf?, withNumbering]
  entry_within {i e} he := by
    simp only [withNumbering, FiniteMap.get?_insert, FiniteMap.get?_empty] at he
    split at he
    · cases he
      exact Path.within_refl _
    · cases he
  spelling_components hb := (consistent_withNumbering number root).spelling_components hb
  binding_within {l b} hb := by
    simp only [withNumbering, FiniteMap.get?_insert, FiniteMap.get?_empty] at hb
    split at hb
    · cases hb
      exact Path.within_refl _
    · cases hb
  root_alone {l b} hb _ := by
    simp only [withNumbering, FiniteMap.get?_insert, FiniteMap.get?_empty] at hb
    split at hb
    next hl => exact hl
    · cases hb

namespace Confined

theorem within_of_resolve? (h : t.Confined root) {i : Inode} (hp : t.resolve? i = some path) :
    path.Within root := by
  obtain ⟨e, he, rfl⟩ := resolve?_eq_some_iff.1 hp
  exact h.entry_within he

theorem within_of_inodeOf? (h : t.Confined root) {i : Inode} (hp : t.inodeOf? path = some i) :
    path.Within root := by
  obtain ⟨b, hb, rfl⟩ := inodeOf?_eq_some_iff.1 hp
  have hwithin := h.binding_within hb
  rwa [Path.Within, h.spelling_components hb] at hwithin

theorem inodeOf?_eq_root_iff (h : t.Confined root) :
    t.inodeOf? path = some rootInode ↔ path.components = root.components := by
  constructor
  · intro hp
    obtain ⟨b, hb, hroot⟩ := inodeOf?_eq_some_iff.1 hp
    exact h.root_alone hb hroot
  · intro hc
    rw [inodeOf?_congr hc]
    exact h.root_binding

/-- A table stays confined if what is the root's is kept, and all else that is there was there
before or is within the root. -/
theorem update (h : t.Confined root) {m : FiniteMap Inode Entry} {n : FiniteMap Location Binding}
    (hroot : (m.get? rootInode).map (·.path) = t.resolve? rootInode)
    (hbinding : n.get? root.components = t.byLocation.get? root.components)
    (hm : ∀ i e, m.get? i = some e → e.path.Within root)
    (hn : ∀ l b, n.get? l = some b → t.byLocation.get? l = some b ∨
      b.spelling.components = l ∧ b.spelling.Within root ∧ b.inode ≠ rootInode) :
    { t with byInode := m, byLocation := n }.Confined root where
  root_eq := h.root_eq
  root_entry := hroot.trans h.root_entry
  root_binding := by
    rw [inodeOf?]
    change (n.get? root.components).map _ = _
    rw [hbinding]
    exact h.root_binding
  entry_within he := hm _ _ he
  spelling_components hb := (hn _ _ hb).elim h.spelling_components And.left
  binding_within hb := (hn _ _ hb).elim h.binding_within fun hnew => hnew.2.1
  root_alone hb hi := (hn _ _ hb).elim (h.root_alone · hi) fun hnew => absurd hi hnew.2.2

theorem insert (h : t.Confined root) (hpath : path.Within root) (lookups : Nat) :
    (t.insert path lookups).2.Confined root := by
  unfold InodeTable.insert
  split
  next inode hp =>
    apply h.update
    · rw [FiniteMap.get?_modify, resolve?]
      split
      next hi => simp [hi, Function.comp_def]
      · rfl
    · rfl
    · intro i e he
      rw [FiniteMap.get?_modify] at he
      split at he
      · obtain ⟨e', he', rfl⟩ := Option.map_eq_some_iff.1 he
        exact (h.entry_within he' :)
      · exact h.entry_within he
    · exact fun l b hb => .inl hb
  next hp =>
    split
    next inode hfree =>
      have hne : inode ≠ rootInode := (UInt64.ne_of_lt (isFree_of_free? hfree).1).symm
      apply h.update
      · rw [FiniteMap.get?_insert, if_neg hne.symm, resolve?]
      · rw [FiniteMap.get?_insert, if_neg]
        intro hc
        rw [inodeOf?_congr hc.symm, h.root_binding] at hp
        cases hp
      · intro i e he
        rw [FiniteMap.get?_insert] at he
        split at he
        · cases he
          exact hpath
        · exact h.entry_within he
      · intro l b hb
        rw [FiniteMap.get?_insert] at hb
        split at hb
        next hl =>
          cases hb
          exact .inr ⟨hl.symm, hpath, hne⟩
        · exact .inl hb
    next => exact h

theorem eraseInode (h : t.Confined root) {inode : Inode} (hne : inode ≠ rootInode) :
    { t with byInode := t.byInode.erase inode }.Confined root := by
  apply h.update
  · rw [FiniteMap.get?_erase, if_neg hne.symm, resolve?]
  · rfl
  · intro i e he
    rw [FiniteMap.get?_erase] at he
    split at he
    · cases he
    · exact h.entry_within he
  · exact fun l b hb => .inl hb

theorem eraseLocation (h : t.Confined root) {l : Location} (hl : l ≠ root.components) :
    { t with byLocation := t.byLocation.erase l }.Confined root := by
  apply h.update
  · rfl
  · rw [FiniteMap.get?_erase, if_neg hl.symm]
  · exact fun i e he => h.entry_within he
  · intro l' b hb
    rw [FiniteMap.get?_erase] at hb
    split at hb
    · cases hb
    · exact .inl hb

theorem components_ne_root (h : t.Confined root) {inode : Inode} (hne : inode ≠ rootInode)
    (hp : t.inodeOf? path = some inode) : path.components ≠ root.components := by
  intro hc
  rw [h.inodeOf?_eq_root_iff.2 hc] at hp
  exact hne (Option.some.inj hp).symm

theorem unbindPath (h : t.Confined root) (path : Path) : (t.unbindPath path).2.Confined root := by
  unfold InodeTable.unbindPath
  split
  · exact h
  next inode hp =>
    split
    · exact h
    next hne => exact (h.eraseInode hne).eraseLocation (h.components_ne_root hne hp)

theorem unbind (h : t.Confined root) (inode : Inode) : (t.unbind inode).Confined root := by
  unfold InodeTable.unbind
  split
  · exact h
  next hne =>
    split
    · exact h
    next e he =>
      unfold InodeTable.eraseLocation
      split
      next hp => exact (h.eraseInode hne).eraseLocation (h.components_ne_root hne hp)
      · exact h.eraseInode hne

theorem forget (h : t.Confined root) (inode : Inode) (lookups : Nat) :
    (t.forget inode lookups).2.Confined root := by
  unfold InodeTable.forget
  split
  · exact h
  · split
    · exact h
    next e he =>
      dsimp only
      split
      · apply h.update
        · rw [FiniteMap.get?_insert, resolve?]
          split
          next hi => simp [hi, he]
          · rfl
        · rfl
        · intro i e' he'
          rw [FiniteMap.get?_insert] at he'
          split at he'
          · cases he'
            exact (h.entry_within he :)
          · exact h.entry_within he'
        · exact fun l b hb => .inl hb
      · exact h.unbind inode

/-- A binding that a rename takes along: it is at its source or below, and not the root's. -/
structure Movable (root source : Path) (m : Location × Binding) : Prop where
  within : source.components <+: m.1
  spelling_components : m.2.spelling.components = m.1
  inode_ne : m.2.inode ≠ rootInode

/-- Binding an inode that is not the root's to a path below the root keeps a table confined. -/
theorem move (h : t.Confined root) {inode : Inode} (hne : inode ≠ rootInode)
    (hpath : path.Below root) {spelling : Path}
    (hspelling : spelling.components = path.components) :
    { t with
      byInode := t.byInode.modify inode fun e => { e with path }
      byLocation := t.byLocation.insert path.components ⟨spelling, inode⟩ }.Confined root := by
  apply h.update
  · rw [FiniteMap.get?_modify, if_neg hne.symm, resolve?]
  · rw [FiniteMap.get?_insert, if_neg hpath.2.symm]
  · intro i e he
    rw [FiniteMap.get?_modify] at he
    split at he
    · obtain ⟨e', _, rfl⟩ := Option.map_eq_some_iff.1 he
      exact hpath.1
    · exact h.entry_within he
  · intro l b hb
    rw [FiniteMap.get?_insert] at hb
    split at hb
    next hl =>
      cases hb
      refine .inr ⟨hspelling.trans hl.symm, ?_, hne⟩
      rw [Path.Within, hspelling]
      exact hpath.1
    · exact .inl hb

/-- A step of a rename keeps a table confined, also when its binding has been displaced
meanwhile. -/
theorem relocate (h : t.Confined root) (hs : source.Below root) (ht : target.Below root)
    {m : Location × Binding} (hm : Movable root source m) :
    (InodeTable.relocate source target t m).Confined root := by
  have hcomponents : (renamedPath source target m.2.spelling).components = _ :=
    Path.components_renamedPath hs.components_ne_nil (hm.spelling_components ▸ hm.within)
  have hlanding : (renamedPath source target m.2.spelling).Below root := by
    refine Path.Within.below ?_ ht
    rw [Path.Within, hcomponents]
    exact List.prefix_append _ _
  have hmoved : m.2.spelling.Below root := Path.Within.below (by
    rw [Path.Within, hm.spelling_components]
    exact hm.within) hs
  have hothers := h.eraseLocation (hm.spelling_components ▸ hmoved.2)
  unfold InodeTable.relocate
  dsimp only
  -- the landing may be bound, to the same inode or to another one, but not to the root's
  cases hprevious : (t.byLocation.erase m.1).get?
      (renamedPath source target m.2.spelling).components with
  | none => exact hothers.move hm.inode_ne hlanding rfl
  | some old =>
    have hspelling : old.spelling.components = _ := hothers.spelling_components hprevious
    dsimp only
    split
    · exact hothers.move hm.inode_ne hlanding hspelling
    · have hne : old.inode ≠ rootInode := fun hroot =>
        hlanding.2 (hothers.root_alone hprevious hroot)
      exact (hothers.eraseInode hne).move hm.inode_ne hlanding hspelling

theorem foldl_relocate (h : t.Confined root) (hs : source.Below root) (ht : target.Below root)
    {order : List (Location × Binding)} (horder : ∀ m ∈ order, Movable root source m) :
    (order.foldl (InodeTable.relocate source target) t).Confined root := by
  induction order generalizing t with
  | nil => exact h
  | cons m order ih =>
    obtain ⟨hm, hrest⟩ := List.forall_mem_cons.1 horder
    exact ih (h.relocate hs ht hm) hrest

theorem movable_of_mem_bindingsWithin (h : t.Confined root) (hs : source.Below root)
    {m : Location × Binding} (hm : m ∈ t.bindingsWithin source) : Movable root source m := by
  rw [bindingsWithin, List.mem_filter, ← FiniteMap.get?_eq_some_iff] at hm
  obtain ⟨hb, hwithin⟩ := hm
  have hwithin := List.isPrefixOf_iff_prefix.1 hwithin
  have hmoved : m.2.spelling.Below root := Path.Within.below (by
    rw [Path.Within, h.spelling_components hb]
    exact hwithin) hs
  exact {
    within := hwithin
    spelling_components := h.spelling_components hb
    inode_ne := fun hroot =>
      hmoved.2 ((h.spelling_components hb).trans (h.root_alone hb hroot)) }

theorem rename (h : t.Confined root) (hs : source.Below root) (ht : target.Below root) :
    (t.rename source target).2.Confined root := by
  have hcleared := h.unbindPath target
  unfold InodeTable.rename
  split
  · exact h
  · exact hcleared.foldl_relocate hs ht fun m hm => hcleared.movable_of_mem_bindingsWithin hs hm

end Confined
end InodeTable
end InodeBridge
