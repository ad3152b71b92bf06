import InodeBridge.Proofs.InodeTable.References

/-! # What inodes resolve to after a change of the table

A change either binds some paths and keeps what is bound, or drops some inodes and keeps the others.
A rename takes the paths at and below its source to its target and drops what was bound there.
-/
namespace InodeBridge.InodeTable

variable {t t' : InodeTable} {i : Inode} {p : Path}

/-- What is bound stays bound to its path, and some paths may be bound anew. -/
structure Binds (t t' : InodeTable) (new : Path → Prop) : Prop where
  root_eq : t'.root = t.root
  consistent : t.Consistent → t'.Consistent
  kept : ∀ {i p}, t.resolve? i = some p → t'.resolve? i = some p
  fresh : ∀ {i p}, t'.resolve? i = some p → t.resolve? i = some p ∨ new p

theorem Binds.refl (t : InodeTable) (new : Path → Prop) : t.Binds t new :=
  ⟨rfl, fun h => h, fun h => h, .inl⟩

theorem Binds.trans {mid : InodeTable} {new : Path → Prop} (first : t.Binds mid new)
    (rest : mid.Binds t' new) : t.Binds t' new where
  root_eq := rest.root_eq.trans first.root_eq
  consistent h := rest.consistent (first.consistent h)
  kept h := rest.kept (first.kept h)
  fresh h := (rest.fresh h).elim first.fresh .inr

@[simp] theorem root_insert (t : InodeTable) (path : Path) (lookups : Nat) :
    (t.insert path lookups).2.root = t.root := by
  unfold insert
  split
  · rfl
  · split <;> rfl

/-- Binding leaves the paths as they are, or binds a path to an inode that was free. -/
theorem insert_cases (t : InodeTable) (path : Path) (lookups : Nat) :
    (∀ i, (t.insert path lookups).2.resolve? i = t.resolve? i) ∨
      ∃ inode, t.resolve? inode = none ∧
        ∀ i, (t.insert path lookups).2.resolve? i =
          if i = inode then some path else t.resolve? i := by
  cases hp : t.inodeOf? path with
  | some inode =>
    refine .inl fun i => ?_
    rw [resolve?, get?_byInode_insert_of_bound hp]
    split
    · rw [Option.map_map]
      rfl
    · rfl
  | none =>
    simp only [resolve?, get?_byInode_insert_of_unbound hp]
    cases hfree : t.free? path with
    | some inode =>
      refine .inr ⟨inode, by rw [(isFree_of_free? hfree).2, Option.map_none], fun i => ?_⟩
      by_cases hi : i = inode
      · rw [if_pos (by rw [hi]), if_pos hi, Option.map_some]
      · rw [if_neg (by simpa using Ne.symm hi), if_neg hi]
    | none => exact .inl fun i => by rw [if_neg (by simp)]

theorem binds_insert {new : Path → Prop} {path : Path} (lookups : Nat) (h : new path) :
    t.Binds (t.insert path lookups).2 new := by
  have hroot := root_insert t path lookups
  obtain hsame | ⟨inode, hfree, hbound⟩ := insert_cases t path lookups
  · exact ⟨hroot, fun hc => hc.insert path lookups, fun {i p} hp => (hsame i).trans hp,
      fun {i p} hp => .inl ((hsame i).symm.trans hp)⟩
  · refine ⟨hroot, fun hc => hc.insert path lookups, fun {i p} hp => ?_, fun {i p} hp => ?_⟩
    · rw [hbound, if_neg, hp]
      rintro rfl
      simp [hfree] at hp
    · rw [hbound] at hp
      split at hp
      · exact .inr (Option.some.inj hp ▸ h)
      · exact .inl hp

/-- Some inodes are dropped, the root is not, and the others stay bound to their paths. -/
structure Drops (t t' : InodeTable) : Prop where
  root_eq : t'.root = t.root
  consistent : t.Consistent → t'.Consistent
  dropped : ∀ {i p}, t'.resolve? i = some p → t.resolve? i = some p
  root_kept : t'.resolve? rootInode = t.resolve? rootInode

theorem Drops.refl (t : InodeTable) : t.Drops t := ⟨rfl, fun h => h, fun h => h, rfl⟩

theorem Drops.trans {mid : InodeTable} (first : t.Drops mid) (rest : mid.Drops t') : t.Drops t' where
  root_eq := rest.root_eq.trans first.root_eq
  consistent h := rest.consistent (first.consistent h)
  dropped h := first.dropped (rest.dropped h)
  root_kept := rest.root_kept.trans first.root_kept

theorem drops_unbindPath (t : InodeTable) (path : Path) : t.Drops (t.unbindPath path).2 := by
  refine ⟨?_, fun h => h.unbindPath path, fun {i p} hp => ?_, ?_⟩
  · unfold unbindPath
    split
    · rfl
    · split <;> rfl
  · rw [resolve?, get?_byInode_unbindPath] at hp
    split at hp
    · simp at hp
    · exact hp
  · rw [resolve?, get?_byInode_unbindPath, if_neg (by simp)]
    rfl

/-- The path that was unbound is no longer that of any inode but the root. -/
theorem components_ne_of_unbindPath (h : t.Consistent) {path : Path}
    (hp : (t.unbindPath path).2.resolve? i = some p) (hroot : i ≠ rootInode) :
    p.components ≠ path.components := by
  intro hc
  rw [resolve?, get?_byInode_unbindPath] at hp
  split at hp
  · simp at hp
  next hat =>
    obtain ⟨e, he, rfl⟩ := resolve?_eq_some_iff.1 hp
    exact hat ⟨(h.inodeOf?_iff_of_entry he).2 hc, hroot⟩

theorem drops_unbind (t : InodeTable) (inode : Inode) : t.Drops (t.unbind inode) := by
  refine ⟨?_, fun h => h.unbind inode, fun {i p} hp => ?_, ?_⟩
  · unfold unbind
    split
    · rfl
    · split
      · rfl
      · unfold eraseLocation
        split <;> rfl
  · rw [resolve?, get?_byInode_unbind] at hp
    split at hp
    · simp at hp
    · exact hp
  · rw [resolve?, get?_byInode_unbind, if_neg]
    · rfl
    · rintro ⟨rfl, hne⟩
      exact hne rfl

theorem drops_forget (t : InodeTable) (inode : Inode) (lookups : Nat) :
    t.Drops (t.forget inode lookups).2 := by
  refine ⟨?_, fun h => h.forget inode lookups, fun {i p} hp => ?_, ?_⟩
  · unfold forget
    split
    · rfl
    · split
      · rfl
      · dsimp only
        split
        · rfl
        · exact (drops_unbind t inode).root_eq
  · obtain ⟨e, he, rfl⟩ := resolve?_eq_some_iff.1 hp
    rw [get?_byInode_forget] at he
    split at he
    · obtain ⟨before, hbefore, hless⟩ := Option.bind_eq_some_iff.1 he
      exact resolve?_eq_some_iff.2 ⟨before, hbefore, (Entry.path_of_less hless).symm⟩
    · exact resolve?_eq_some_iff.2 ⟨e, he, rfl⟩
  · rw [resolve?, get?_byInode_forget, if_neg fun h => h.2 h.1.symm, resolve?]

theorem root_rename (t : InodeTable) (source target : Path) :
    (t.rename source target).2.root = t.root := by
  have hfold : ∀ (order : List (Location × Binding)) (t : InodeTable),
      (order.foldl (relocate source target) t).root = t.root := by
    intro order
    induction order with
    | nil => exact fun _ => rfl
    | cons m order ih => exact fun t => ih (relocate source target t m)
  unfold rename
  split
  · rfl
  · exact (hfold _ _).trans (drops_unbindPath t target).root_eq

/-- After a rename an inode is bound to where its path was taken, or to the path that it had. -/
theorem resolve?_of_rename (h : t.Consistent) {source target : Path}
    (hapart : source.Apart target)
    (hroot : ∀ q, t.resolve? rootInode = some q → ¬ target.components <+: q.components)
    (hp : (t.rename source target).2.resolve? i = some p) :
    ∃ q, t.resolve? i = some q ∧
      ((∃ steps, q.components = source.components ++ steps ∧
          p.components = target.components ++ steps) ∨
        (¬ source.components <+: q.components ∧ q.components ≠ target.components ∧ p = q)) := by
  have hne : source.components ≠ target.components := fun heq => hapart.1 (heq ▸ List.prefix_rfl)
  rw [rename, if_neg hne] at hp
  cases he : t.byInode.get? i with
  | none =>
    rw [resolve?, get?_renameVisiting_of_none h.toInverse hapart (List.Perm.refl _) he] at hp
    simp at hp
  | some e =>
    have hq : t.resolve? i = some e.path := resolve?_eq_some_iff.2 ⟨e, he, rfl⟩
    refine ⟨e.path, hq, ?_⟩
    by_cases hw : source.components <+: e.path.components
    · obtain ⟨b, hb, hmoved⟩ := get?_renameVisiting_of_within h.toInverse hapart (List.Perm.refl _) he hw
      rw [resolve?, hmoved] at hp
      obtain rfl := Option.some.inj hp
      obtain ⟨steps, hsteps⟩ := hw
      refine .inl ⟨steps, hsteps.symm, ?_⟩
      rw [components_moved h.toInverse hapart hb ⟨steps, hsteps⟩, landing, ← hsteps, List.drop_left]
    · by_cases hd : t.Displaced source target e.path.components
      · have hi : i ≠ rootInode := by
          rintro rfl
          exact hroot _ hq hd.prefix
        rw [resolve?, get?_renameVisiting_of_displaced h.toInverse hapart (List.Perm.refl _) he hi hd] at hp
        simp at hp
      · rw [resolve?, get?_renameVisiting_of_kept h.toInverse hapart (List.Perm.refl _) he hw hd] at hp
        exact .inr ⟨hw, fun heq => hd (.inl heq), (Option.some.inj hp).symm⟩

theorem root_kept_of_rename (h : t.Consistent) {source target path : Path}
    (hapart : source.Apart target) (hroot : t.resolve? rootInode = some path)
    (hs : ¬ source.components <+: path.components) (ht : ¬ target.components <+: path.components) :
    (t.rename source target).2.resolve? rootInode = some path := by
  have hne : source.components ≠ target.components := fun heq => hapart.1 (heq ▸ List.prefix_rfl)
  obtain ⟨e, he, rfl⟩ := resolve?_eq_some_iff.1 hroot
  rw [rename, if_neg hne]
  refine resolve?_eq_some_iff.2 ⟨e, ?_, rfl⟩
  exact get?_renameVisiting_of_kept h.toInverse hapart (List.Perm.refl _) he hs fun hd => ht hd.prefix

end InodeBridge.InodeTable
