import InodeBridge.Proofs.InodeTable.Entries

/-! # References held to an inode

What each operation does to the references that are counted for an inode other than the root: handing
it out adds one, forgetting takes some away, and dropping its path drops them all.
-/
namespace InodeBridge.InodeTable

variable {t : InodeTable} {i : Inode}

def held (t : InodeTable) (i : Inode) : Nat := (t.lookups? i).getD 0

theorem resolve?_isSome (t : InodeTable) (i : Inode) :
    (t.resolve? i).isSome = (t.lookups? i).isSome := by
  simp [resolve?, lookups?]

/-- Binding a path adds its references to those of the inode it gives, and to no other. -/
theorem lookups?_insert (h : t.Consistent) (hi : i ≠ 0) (path : Path) (n : Nat) :
    (t.insert path n).2.lookups? i =
      if (t.insert path n).1 = i then some (t.held i + n) else t.lookups? i := by
  rw [lookups?, get?_byInode_insert h hi]
  split
  · cases he : t.byInode.get? i <;> simp [held, lookups?, he]
  · rfl

theorem lookups?_unbindPath (hroot : i ≠ rootInode) (path : Path) :
    (t.unbindPath path).2.lookups? i =
      if t.inodeOf? path = some i then none else t.lookups? i := by
  rw [lookups?, get?_byInode_unbindPath]
  by_cases hp : t.inodeOf? path = some i
  · simp [hp, hroot]
  · simp [hp, lookups?]

/-- Forgetting takes references away, and drops an inode that has none left. -/
theorem lookups?_forget (hroot : i ≠ rootInode) (n : Nat) :
    (t.forget i n).2.lookups? i =
      if 0 < t.held i - n then some (t.held i - n) else none := by
  rw [lookups?, get?_byInode_forget, if_pos ⟨rfl, hroot⟩]
  cases he : t.byInode.get? i with
  | none => simp [held, lookups?, he]
  | some e =>
    have hheld : t.held i = e.lookups := by simp [held, lookups?, he]
    rw [hheld, Option.bind_some, Entry.less]
    by_cases hleft : e.lookups - n = 0
    · rw [if_pos hleft, if_neg (by omega), Option.map_none]
    · rw [if_neg hleft, if_pos (by omega), Option.map_some]

theorem lookups?_forget_of_ne {j : Inode} (hj : i ≠ j) (n : Nat) :
    (t.forget j n).2.lookups? i = t.lookups? i := by
  rw [lookups?, get?_byInode_forget, if_neg fun h => hj h.1, lookups?]

/-- Whether a rename drops an inode: what is bound at its target or where it takes something. -/
def Displaces (t : InodeTable) (source target : Path) (i : Inode) : Prop :=
  source.components ≠ target.components ∧
    ∃ p, t.resolve? i = some p ∧ t.Displaced source target p.components

section Rename

variable {source target : Path}

theorem lookups?_rename_of_displaces (h : t.Consistent) (hrenamable : source.Renamable target)
    (hroot : i ≠ rootInode) (hd : t.Displaces source target i) :
    (t.rename source target).2.lookups? i = none := by
  obtain ⟨hne, p, hp, hdisplaced⟩ := hd
  obtain ⟨e, he, rfl⟩ := resolve?_eq_some_iff.1 hp
  rw [rename, if_neg hne, lookups?, get?_renameVisiting_of_displaced h.toInverse (hrenamable.resolve_left hne)
    (List.Perm.refl _) he hroot hdisplaced]
  rfl

theorem lookups?_rename_of_not_displaces (h : t.Consistent)
    (hrenamable : source.Renamable target) (hd : ¬ t.Displaces source target i) :
    (t.rename source target).2.lookups? i = t.lookups? i := by
  by_cases hc : source.components = target.components
  · rw [rename, if_pos hc]
  have hapart := hrenamable.resolve_left hc
  rw [rename, if_neg hc, lookups?, lookups?]
  cases he : t.byInode.get? i with
  | none => rw [get?_renameVisiting_of_none h.toInverse hapart (List.Perm.refl _) he]
  | some e =>
    by_cases hw : source.components <+: e.path.components
    · obtain ⟨b, _, hmoved⟩ := get?_renameVisiting_of_within h.toInverse hapart (List.Perm.refl _) he hw
      rw [hmoved]
      rfl
    · rw [get?_renameVisiting_of_kept h.toInverse hapart (List.Perm.refl _) he hw]
      exact fun hdisplaced => hd ⟨hc, e.path, resolve?_eq_some_iff.2 ⟨e, he, rfl⟩, hdisplaced⟩

end Rename

theorem Consistent.rename (h : t.Consistent) {source target : Path}
    (hrenamable : source.Renamable target) : (t.rename source target).2.Consistent := by
  by_cases hc : source.components = target.components
  · rwa [InodeTable.rename, if_pos hc]
  · rw [InodeTable.rename, if_neg hc]
    exact h.renameVisiting (hrenamable.resolve_left hc) (List.Perm.refl _)

end InodeBridge.InodeTable
