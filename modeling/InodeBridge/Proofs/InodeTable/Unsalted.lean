import InodeBridge.Proofs.InodeTable.Resolving
import InodeBridge.Proofs.Path.Descent
import Mathlib.Data.Set.Function

/-! # Tables that never need a salt

As long as the numbers of the paths that are bound are different ones without a salt, and not those that
are reserved, each path gets its number without one.  A table that binds only what is gone down to from
its root has one spelling for each location, so the number depends on the location alone.
-/
namespace InodeBridge

/-- Without a salt, the paths of a set have different numbers, and none that is reserved. -/
structure Numbering.Separates (number : Numbering) (paths : Set Path) : Prop where
  injective : paths.InjOn fun path => number path 0
  unreserved : ∀ path ∈ paths, rootInode < number path 0

theorem Numbering.Separates.mono {number : Numbering} {paths paths' : Set Path}
    (h : number.Separates paths') (hsubset : paths ⊆ paths') : number.Separates paths where
  injective := h.injective.mono hsubset
  unreserved path hpath := h.unreserved path (hsubset hpath)

namespace InodeTable

variable {t t' : InodeTable} {number : Numbering} {root path : Path} {paths : Set Path}

def BindsIn (t : InodeTable) (root : Path) (paths : Set Path) : Prop :=
  ∀ i p, t.resolve? i = some p → p.components ≠ root.components → p ∈ paths

@[simp] theorem number_unbindPath (t : InodeTable) (path : Path) :
    (t.unbindPath path).2.number = t.number := by
  unfold unbindPath
  split
  · rfl
  · split <;> rfl

@[simp] theorem number_forget (t : InodeTable) (inode : Inode) (lookups : Nat) :
    (t.forget inode lookups).2.number = t.number := by
  unfold forget unbind eraseLocation
  split
  · rfl
  · split
    · rfl
    · dsimp only
      split
      · rfl
      · repeat' split
        all_goals rfl

/-- What is bound was gone down to from the root, and has its number without a salt. -/
structure Unsalted (t : InodeTable) (number : Numbering) (root : Path) : Prop where
  number_eq : t.number = number
  root_eq : t.root = root
  consistent : t.Consistent
  root_bound : t.resolve? rootInode = some root
  descends : ∀ {i p}, t.resolve? i = some p → p.DescendsFrom root
  inode_eq : ∀ {i p}, t.resolve? i = some p → i ≠ rootInode → i = number p 0

theorem unsalted_withNumbering (number : Numbering) (root : Path) :
    (withNumbering number root).Unsalted number root := by
  have hresolve : ∀ i, (withNumbering number root).resolve? i =
      if i = rootInode then some root else none := by
    intro i
    rw [resolve?, withNumbering]
    dsimp only
    rw [FiniteMap.get?_insert]
    split <;> simp
  refine ⟨rfl, rfl, consistent_withNumbering number root, by simp [hresolve], ?_, ?_⟩
  · intro i p hp
    rw [hresolve] at hp
    split at hp
    · cases hp
      exact Path.descendsFrom_refl root
    · cases hp
  · intro i p hp hne
    rw [hresolve, if_neg hne] at hp
    cases hp

namespace Unsalted

theorem components_ne (h : t.Unsalted number root) {i : Inode} {p : Path}
    (hp : t.resolve? i = some p) (hne : i ≠ rootInode) : p.components ≠ root.components := fun hc =>
  hne (h.consistent.inode_unique hp h.root_bound hc)

theorem drops (h : t.Unsalted number root) (hdrops : t.Drops t') (hnumber : t'.number = t.number) :
    t'.Unsalted number root where
  number_eq := hnumber.trans h.number_eq
  root_eq := hdrops.root_eq.trans h.root_eq
  consistent := hdrops.consistent h.consistent
  root_bound := hdrops.root_kept.trans h.root_bound
  descends hp := h.descends (hdrops.dropped hp)
  inode_eq hp := h.inode_eq (hdrops.dropped hp)

/-- A path that is not bound gets its number without a salt, if it gets one. -/
theorem free?_eq (h : t.Unsalted number root) (hseparates : number.Separates paths)
    (hbinds : t.BindsIn root paths) (hpath : path ∈ paths) (hunbound : t.inodeOf? path = none) :
    t.free? path = some (number path 0) := by
  have hfree : t.isFree (number path 0) = true := by
    rw [isFree_iff]
    refine ⟨hseparates.unreserved path hpath, ?_⟩
    rw [Option.eq_none_iff_forall_ne_some]
    intro e he
    have hp : t.resolve? (number path 0) = some e.path := resolve?_eq_some_iff.2 ⟨e, he, rfl⟩
    have hne : number path 0 ≠ rootInode := (UInt64.ne_of_lt (hseparates.unreserved path hpath)).symm
    have hsame : e.path = path :=
      hseparates.injective (hbinds _ _ hp (h.components_ne hp hne)) hpath (h.inode_eq hp hne).symm
    rw [← hsame, h.consistent.inodeOf?_of_resolve? hp] at hunbound
    cases hunbound
  rw [free?, show UInt64.size = (UInt64.size - 1) + 1 from rfl, freeFrom?, h.number_eq, if_pos hfree]

/-- Binding what was gone down to from the root keeps a table without salts, if its paths have different
numbers afterwards. -/
theorem insert (h : t.Unsalted number root) (hseparates : number.Separates paths)
    (hpath : path.DescendsFrom root ∨ path.components = root.components) (lookups : Nat)
    (hbinds : (t.insert path lookups).2.BindsIn root paths) :
    (t.insert path lookups).2.Unsalted number root := by
  have hconsistent := h.consistent.insert path lookups
  have hnumber := number_insert t path lookups
  have hroot := root_insert t path lookups
  obtain hsame | ⟨inode, hfresh, hbound⟩ := insert_cases t path lookups
  · exact {
      number_eq := hnumber.trans h.number_eq
      root_eq := hroot.trans h.root_eq
      consistent := hconsistent
      root_bound := (hsame _).trans h.root_bound
      descends := fun hp => h.descends ((hsame _).symm.trans hp)
      inode_eq := fun hp => h.inode_eq ((hsame _).symm.trans hp) }
  -- the path is bound anew, so it is not the root and was not bound before
  have hnew : (t.insert path lookups).2.resolve? inode = some path := by rw [hbound, if_pos rfl]
  have hkept : ∀ {i p}, t.resolve? i = some p → i ≠ inode ∧
      (t.insert path lookups).2.resolve? i = some p := by
    intro i p hp
    have hne : i ≠ inode := by
      rintro rfl
      rw [hfresh] at hp
      cases hp
    exact ⟨hne, by rw [hbound, if_neg hne, hp]⟩
  have hapart : ∀ {i p}, t.resolve? i = some p → p.components ≠ path.components := fun hp hc =>
    (hkept hp).1 (hconsistent.inode_unique (hkept hp).2 hnew hc)
  have hne := (hapart h.root_bound).symm
  have hunbound : t.inodeOf? path = none := by
    rw [Option.eq_none_iff_forall_ne_some]
    intro j hj
    obtain ⟨e, he, hc⟩ := h.consistent.inodeOf?_iff.1 hj
    exact hapart (resolve?_eq_some_iff.2 ⟨e, he, rfl⟩) hc
  have hfree := h.free?_eq hseparates (fun i p hp => hbinds i p (hkept hp).2) (hbinds _ _ hnew hne)
    hunbound
  have hinode : inode = number path 0 := by
    have hat : (t.insert path lookups).2.resolve? (number path 0) = some path := by
      simp [InodeTable.insert, hunbound, hfree, resolve?]
    exact hconsistent.inode_unique hnew hat rfl
  refine ⟨hnumber.trans h.number_eq, hroot.trans h.root_eq, hconsistent, (hkept h.root_bound).2, ?_, ?_⟩
  · intro i p hp
    rw [hbound] at hp
    split at hp
    · cases hp
      exact hpath.resolve_right hne
    · exact h.descends hp
  · intro i p hp hi
    rw [hbound] at hp
    split at hp
    next heq =>
      cases hp
      exact heq.trans hinode
    · exact h.inode_eq hp hi

/-- The inode of a path other than the root is the number of its spelling. -/
theorem exists_spelling (h : t.Unsalted number root) {i : Inode} (hi : t.inodeOf? path = some i)
    (hne : path.components ≠ root.components) :
    ∃ p, t.resolve? i = some p ∧ p.components = path.components ∧ i = number p 0 := by
  obtain ⟨e, he, hc⟩ := h.consistent.inodeOf?_iff.1 hi
  have hp : t.resolve? i = some e.path := resolve?_eq_some_iff.2 ⟨e, he, rfl⟩
  refine ⟨e.path, hp, hc, h.inode_eq hp ?_⟩
  rintro rfl
  rw [h.root_bound] at hp
  rw [Option.some.inj hp] at hne
  exact hne hc.symm

end Unsalted
end InodeTable
end InodeBridge
