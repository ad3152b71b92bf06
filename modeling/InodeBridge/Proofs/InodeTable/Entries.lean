import InodeBridge.Proofs.InodeTable.Calls
import InodeBridge.Proofs.Path.Within

/-! # What becomes of the entry of an inode

Each operation read at one inode: its path and the references counted for it before and after.
-/
namespace InodeBridge.InodeTable

variable {t t' : InodeTable} {i : Inode} {e : Entry} {path source target : Path}

/-- What is left of an entry when references are taken away: nothing if no reference is left. -/
def Entry.less (e : Entry) (n : Nat) : Option Entry :=
  if e.lookups - n = 0 then none else some { e with lookups := e.lookups - n }

theorem Entry.path_of_less {e' : Entry} {n : Nat} (h : e.less n = some e') : e'.path = e.path := by
  unfold less at h
  split at h
  · cases h
  · cases h
    rfl

theorem get?_byInode_insert_of_bound {inode : Inode} (hp : t.inodeOf? path = some inode) (n : Nat)
    (i : Inode) :
    (t.insert path n).2.byInode.get? i =
      if i = inode then (t.byInode.get? i).map fun e => { e with lookups := e.lookups + n }
      else t.byInode.get? i := by
  simp only [insert, hp, FiniteMap.get?_modify]
  by_cases hi : i = inode
  · rw [if_pos hi, if_pos hi, hi]
  · rw [if_neg hi, if_neg hi]

theorem get?_byInode_insert_of_unbound (hp : t.inodeOf? path = none) (n : Nat) (i : Inode) :
    (t.insert path n).2.byInode.get? i =
      if t.free? path = some i then some ⟨path, n⟩ else t.byInode.get? i := by
  cases hfree : t.free? path with
  | some inode => simp only [insert, hp, hfree, FiniteMap.get?_insert, Option.some.injEq, eq_comm]
  | none => simp [insert, hp, hfree]

/-- Binding a path counts the references for the inode it gives, and changes no other entry. -/
theorem get?_byInode_insert (h : t.Consistent) (hi : i ≠ 0) (path : Path) (n : Nat) :
    (t.insert path n).2.byInode.get? i =
      if (t.insert path n).1 = i then
        match t.byInode.get? i with
        | some e => some { e with lookups := e.lookups + n }
        | none => some ⟨path, n⟩
      else t.byInode.get? i := by
  cases hp : t.inodeOf? path with
  | some inode =>
    obtain ⟨e, he, _⟩ := h.inodeOf?_iff.1 hp
    have hgiven : (t.insert path n).1 = inode := by simp only [insert, hp]
    rw [get?_byInode_insert_of_bound hp, hgiven]
    by_cases hin : inode = i
    · subst hin
      simp [he]
    · rw [if_neg (Ne.symm hin), if_neg hin]
  | none =>
    rw [get?_byInode_insert_of_unbound hp]
    cases hfree : t.free? path with
    | some inode =>
      have hgiven : (t.insert path n).1 = inode := by simp only [insert, hp, hfree]
      rw [hgiven]
      by_cases hin : inode = i
      · subst hin
        simp [(isFree_of_free? hfree).2]
      · rw [if_neg (by simpa using hin), if_neg hin]
    | none =>
      have hgiven : (t.insert path n).1 = 0 := by simp only [insert, hp, hfree]
      rw [hgiven, if_neg (by simp), if_neg hi.symm]

/-- The inode that a path is bound to has no entry before if the path was unbound, and otherwise one
with a path of the same location. -/
theorem insert_fst (h : t.Consistent) (path : Path) (n : Nat) (hi : (t.insert path n).1 ≠ 0) :
    match t.byInode.get? (t.insert path n).1 with
    | some e => e.path.components = path.components
    | none => t.inodeOf? path = none := by
  unfold insert at hi ⊢
  cases hp : t.inodeOf? path with
  | some inode =>
    obtain ⟨e, he, hc⟩ := h.inodeOf?_iff.1 hp
    simpa [he] using hc
  | none =>
    cases hfree : t.free? path with
    | some inode => simp [(isFree_of_free? hfree).2]
    | none => simp [hp, hfree] at hi

theorem inodeOf?_insert_of_some (path : Path) (n : Nat) {p : Path} (hi : t.inodeOf? p = some i) :
    (t.insert path n).2.inodeOf? p = some i := by
  unfold insert
  split
  · exact hi
  next hp =>
    split
    · have hapart : p.components ≠ path.components := by
        intro hc
        rw [inodeOf?_congr hc, hp] at hi
        cases hi
      rw [inodeOf?, FiniteMap.get?_insert, if_neg hapart]
      exact hi
    · exact hi

@[simp] theorem number_insert (t : InodeTable) (path : Path) (lookups : Nat) :
    (t.insert path lookups).2.number = t.number := by
  unfold insert
  split
  · rfl
  · split <;> rfl

theorem get?_byInode_unbind (t : InodeTable) (i j : Inode) :
    (t.unbind i).byInode.get? j =
      if j = i ∧ i ≠ rootInode then none else t.byInode.get? j := by
  unfold unbind
  split
  next hroot => simp [hroot]
  next hroot =>
    split
    next he =>
      by_cases hj : j = i
      · simp [hj, he]
      · simp [hj]
    next e he =>
      have herase : ({ t with byInode := t.byInode.erase i }.eraseLocation e.path i).byInode =
          t.byInode.erase i := by
        unfold eraseLocation
        split <;> rfl
      rw [herase, FiniteMap.get?_erase]
      by_cases hj : j = i <;> simp [hj, hroot]

/-- Forgetting takes references from the entry of one inode, unless it is the root. -/
theorem get?_byInode_forget (t : InodeTable) (i j : Inode) (n : Nat) :
    (t.forget j n).2.byInode.get? i =
      if i = j ∧ j ≠ rootInode then (t.byInode.get? i).bind (·.less n) else t.byInode.get? i := by
  unfold forget
  by_cases hroot : j = rootInode
  · rw [if_pos hroot, if_neg fun h => h.2 hroot]
  rw [if_neg hroot]
  by_cases hj : i = j
  · subst hj
    rw [if_pos ⟨rfl, hroot⟩]
    cases he : t.byInode.get? i with
    | none => exact he
    | some e =>
      dsimp only [Option.bind_some, Entry.less]
      by_cases hleft : e.lookups - n = 0
      · rw [if_neg (by omega), if_pos hleft, get?_byInode_unbind, if_pos ⟨rfl, hroot⟩]
      · rw [if_pos (by omega), if_neg hleft, FiniteMap.get?_insert_self]
  · rw [if_neg fun h => hj h.1]
    split
    · rfl
    · dsimp only
      split
      · rw [FiniteMap.get?_insert, if_neg hj]
      · rw [get?_byInode_unbind, if_neg fun h => hj h.1]

/-- Some free paths are bound without a reference, and all that was bound stays as it was. -/
structure Lists (t t' : InodeTable) (new : Path → Prop) : Prop where
  number_eq : t'.number = t.number
  kept : ∀ {i e}, t.byInode.get? i = some e → t'.byInode.get? i = some e
  fresh : ∀ {i e}, t'.byInode.get? i = some e → t.byInode.get? i = some e ∨
    ∃ path, new path ∧ t.inodeOf? path = none ∧ e = ⟨path, 0⟩
  located : ∀ {path i}, t.inodeOf? path = some i → t'.inodeOf? path = some i

theorem Lists.refl (t : InodeTable) (new : Path → Prop) : t.Lists t new := ⟨rfl, id, .inl, id⟩

theorem Lists.unbound {new : Path → Prop} (h : t.Lists t' new) (hp : t'.inodeOf? path = none) :
    t.inodeOf? path = none := by
  rw [Option.eq_none_iff_forall_ne_some]
  intro i hi
  rw [h.located hi] at hp
  cases hp

theorem Lists.trans {mid : InodeTable} {new : Path → Prop} (first : t.Lists mid new)
    (rest : mid.Lists t' new) : t.Lists t' new where
  number_eq := rest.number_eq.trans first.number_eq
  kept h := rest.kept (first.kept h)
  fresh h := by
    rcases rest.fresh h with hmid | ⟨path, hnew, hunbound, rfl⟩
    · exact first.fresh hmid
    · exact .inr ⟨path, hnew, first.unbound hunbound, rfl⟩
  located h := rest.located (first.located h)

theorem lists_bind {new : Path → Prop} (hnew : new path) : t.Lists (t.bind path).2 new where
  number_eq := number_insert t path 0
  kept {i e} he := by
    rw [InodeTable.bind]
    cases hp : t.inodeOf? path with
    | some inode => rw [get?_byInode_insert_of_bound hp, he, Option.map_some, Nat.add_zero, ite_self]
    | none =>
      rw [get?_byInode_insert_of_unbound hp, if_neg, he]
      intro hfree
      rw [(isFree_of_free? hfree).2] at he
      cases he
  fresh {i e} he := by
    rw [InodeTable.bind] at he
    cases hp : t.inodeOf? path with
    | some inode =>
      simp only [get?_byInode_insert_of_bound hp, Nat.add_zero, Option.map_id', ite_self] at he
      exact .inl he
    | none =>
      rw [get?_byInode_insert_of_unbound hp] at he
      split at he
      · exact .inr ⟨path, hnew, hp, (Option.some.inj he).symm⟩
      · exact .inl he
  located := inodeOf?_insert_of_some path 0

theorem lists_bind_any (t : InodeTable) (path : Path) : t.Lists (t.bind path).2 fun _ => True :=
  lists_bind trivial

/-- Whether a rename drops what is bound to a path: the renamed object gets the path, or something
below the renamed object does. -/
def Overwrites (t : InodeTable) (source target path : Path) : Prop :=
  path.components = target.components ∨
    ∃ j p steps, t.resolve? j = some p ∧ p.components = source.components ++ steps ∧
      path.components = target.components ++ steps

theorem displaced_iff_overwrites (h : t.Inverse) {path : Path} :
    t.Displaced source target path.components ↔ t.Overwrites source target path := by
  refine or_congr_right ?_
  constructor
  · rintro ⟨l, b, hb, ⟨steps, rfl⟩, hl⟩
    obtain ⟨e, he, hc⟩ := h.entry_of_binding hb
    rw [landing, List.drop_left] at hl
    exact ⟨b.inode, e.path, steps, resolve?_eq_some_iff.2 ⟨e, he, rfl⟩, hc, hl⟩
  · rintro ⟨j, p, steps, hp, hc, hl⟩
    obtain ⟨e, he, rfl⟩ := resolve?_eq_some_iff.1 hp
    obtain ⟨b, hb, _⟩ := h.binding_of_entry he
    refine ⟨e.path.components, b, hb, ⟨steps, hc.symm⟩, ?_⟩
    rw [landing, hc, List.drop_left, hl]

section Rename

theorem rename_carries (h : t.Inverse) (hrenamable : source.Renamable target)
    (he : t.byInode.get? i = some e) {steps : Location}
    (hsteps : e.path.components = source.components ++ steps) :
    ∃ path : Path, path.components = target.components ++ steps ∧
      (t.rename source target).2.byInode.get? i = some { e with path } := by
  by_cases hc : source.components = target.components
  · rw [rename, if_pos hc]
    exact ⟨e.path, hc ▸ hsteps, he⟩
  · have hapart := hrenamable.resolve_left hc
    have hw : source.components <+: e.path.components := ⟨steps, hsteps.symm⟩
    obtain ⟨b, hb, hmoved⟩ := get?_renameVisiting_of_within h hapart (List.Perm.refl _) he hw
    rw [rename, if_neg hc]
    refine ⟨_, ?_, hmoved⟩
    rw [components_moved h hapart hb hw, landing, hsteps, List.drop_left]

/-- A rename drops what it overwrites, unless it is the root or carried along itself. -/
theorem rename_drops (h : t.Inverse) (hrenamable : source.Renamable target)
    (hroot : i ≠ rootInode) (he : t.byInode.get? i = some e) (hw : ¬ e.path.Within source)
    (hover : t.Overwrites source target e.path) :
    (t.rename source target).2.byInode.get? i = none := by
  have hdisplaced := (displaced_iff_overwrites h).2 hover
  have hc : source.components ≠ target.components := fun hc => hw (by
    rw [Path.Within, hc]
    exact hdisplaced.prefix)
  rw [rename, if_neg hc]
  exact get?_renameVisiting_of_displaced h (hrenamable.resolve_left hc) (List.Perm.refl _) he hroot
    hdisplaced

theorem rename_keeps (h : t.Inverse) (hrenamable : source.Renamable target)
    (he : t.byInode.get? i = some e) (hw : ¬ e.path.Within source)
    (hover : ¬ t.Overwrites source target e.path) :
    (t.rename source target).2.byInode.get? i = some e := by
  by_cases hc : source.components = target.components
  · rwa [rename, if_pos hc]
  · rw [rename, if_neg hc]
    exact get?_renameVisiting_of_kept h (hrenamable.resolve_left hc) (List.Perm.refl _) he hw
      (mt (displaced_iff_overwrites h).1 hover)

theorem rename_binds_none (h : t.Inverse) (hrenamable : source.Renamable target)
    (he : t.byInode.get? i = none) : (t.rename source target).2.byInode.get? i = none := by
  by_cases hc : source.components = target.components
  · rwa [rename, if_pos hc]
  · rw [rename, if_neg hc]
    exact get?_renameVisiting_of_none h (hrenamable.resolve_left hc) (List.Perm.refl _) he

end Rename

end InodeBridge.InodeTable
