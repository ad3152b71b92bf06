import InodeBridge.Proofs.InodeTable.Entries
import Mathlib.Order.WellFounded

/-! # Probing for a free number

An unbound path gets its number under the first salt that makes one free.  The search ends there however
many rounds it may make, so the number depends on the table only through the numbers it holds.
-/
namespace InodeBridge.InodeTable

variable {t t' : InodeTable} {path : Path} {inode : Inode} {salt : UInt64}

/-- Under this salt, and none below, the number of a path is above the root's and not held. -/
structure FirstFree (t : InodeTable) (path : Path) (salt : UInt64) : Prop where
  above_root : rootInode < t.number path salt
  unheld : t.resolve? (t.number path salt) = none
  least : ∀ s < salt, rootInode < t.number path s → t.resolve? (t.number path s) ≠ none

theorem resolve?_eq_none_iff : t.resolve? inode = none ↔ t.byInode.get? inode = none := by
  rw [resolve?, Option.map_eq_none_iff]

theorem exists_firstFree (hfree : ∃ salt, rootInode < t.number path salt ∧
    t.resolve? (t.number path salt) = none) : ∃ salt, t.FirstFree path salt := by
  obtain ⟨salt, ⟨habove, hunheld⟩, hleast⟩ := (measure UInt64.toNat).wf.has_min
    {s | rootInode < t.number path s ∧ t.resolve? (t.number path s) = none} hfree
  refine ⟨salt, habove, hunheld, ?_⟩
  intro s hs hroot hnone
  exact hleast s ⟨hroot, hnone⟩ (UInt64.lt_iff_toNat_lt.1 hs)

namespace FirstFree

theorem isFree (h : t.FirstFree path salt) : t.isFree (t.number path salt) = true :=
  isFree_iff.2 ⟨h.above_root, resolve?_eq_none_iff.1 h.unheld⟩

theorem isFree_below (h : t.FirstFree path salt) {s : UInt64} (hs : s < salt) :
    t.isFree (t.number path s) = false := by
  rw [Bool.eq_false_iff]
  intro hfree
  have := isFree_iff.1 hfree
  exact h.least s hs this.1 (resolve?_eq_none_iff.2 this.2)

theorem unique (h : t.FirstFree path salt) {salt' : UInt64} (h' : t.FirstFree path salt') :
    salt = salt' := by
  apply UInt64.le_antisymm <;> rw [← UInt64.not_lt]
  · exact fun hlt => h.least salt' hlt h'.above_root h'.unheld
  · exact fun hlt => h'.least salt hlt h.above_root h.unheld

/-- From any salt up to the first free one, the search ends at that one, in as many rounds as it
takes to count up to it. -/
theorem freeFrom?_eq (h : t.FirstFree path salt) {start : UInt64} (hstart : start ≤ salt)
    (rounds : Nat) :
    t.freeFrom? path rounds start =
      if salt.toNat - start.toNat < rounds then some (t.number path salt) else none := by
  induction rounds generalizing start with
  | zero => rfl
  | succ rounds ih =>
    rw [freeFrom?]
    by_cases heq : start = salt
    · rw [heq, if_pos h.isFree, if_pos (by omega)]
    · have hlt : start < salt := UInt64.lt_of_le_of_ne hstart heq
      have hnat : start.toNat < salt.toNat := UInt64.lt_iff_toNat_lt.1 hlt
      have hnext : (start + 1).toNat = start.toNat + 1 := by
        have hsize := salt.toNat_lt
        rw [UInt64.toNat_add, UInt64.toNat_one, Nat.mod_eq_of_lt (by omega)]
      rw [if_neg (by simp [h.isFree_below hlt]), ih (UInt64.le_iff_toNat_le.2 (by omega)), hnext]
      congr 1
      exact propext (by omega)

theorem free?_eq (h : t.FirstFree path salt) : t.free? path = some (t.number path salt) := by
  have hsize := salt.toNat_lt
  rw [free?, h.freeFrom?_eq (UInt64.le_iff_toNat_le.2 (Nat.zero_le _)), if_pos]
  simpa using hsize

end FirstFree

theorem exists_firstFree_of_free? (h : t.free? path = some inode) :
    ∃ salt, t.FirstFree path salt ∧ t.number path salt = inode := by
  obtain ⟨salt, hsalt⟩ : ∃ salt, t.number path salt = inode := by
    rw [free?] at h
    generalize UInt64.size = fuel at h
    generalize (0 : UInt64) = start at h
    induction fuel generalizing start with
    | zero => cases h
    | succ fuel ih =>
      rw [freeFrom?] at h
      split at h
      · exact ⟨start, Option.some.inj h⟩
      · exact ih _ h
  have hfree := isFree_of_free? h
  have hfrees : rootInode < t.number path salt ∧ t.resolve? (t.number path salt) = none := by
    rw [hsalt]
    exact ⟨hfree.1, resolve?_eq_none_iff.2 hfree.2⟩
  obtain ⟨first, hfirst⟩ := exists_firstFree ⟨salt, hfrees⟩
  exact ⟨first, hfirst, Option.some.inj (hfirst.free?_eq.symm.trans h)⟩

def Spent (t : InodeTable) (path : Path) : Prop :=
  ∀ salt, rootInode < t.number path salt → t.resolve? (t.number path salt) ≠ none

theorem spent_of_free?_eq_none (h : t.free? path = none) : t.Spent path := by
  intro salt habove hunheld
  obtain ⟨first, hfirst⟩ := exists_firstFree ⟨salt, habove, hunheld⟩
  rw [hfirst.free?_eq] at h
  cases h

theorem Lists.spent {new : Path → Prop} (h : t.Lists t' new) (hspent : t.Spent path) :
    t'.Spent path := by
  intro salt habove
  rw [h.number_eq] at habove ⊢
  obtain ⟨p, hp⟩ := Option.ne_none_iff_exists'.1 (hspent salt habove)
  obtain ⟨e, he, _⟩ := resolve?_eq_some_iff.1 hp
  rw [resolve?, h.kept he]
  exact Option.some_ne_none _

/-- Whether a change of a table gives a path an inode: the one that it is bound to afterwards, or zero
if it was unbound and every number it could get is held. -/
def Gives (t t' : InodeTable) (path : Path) (inode : Inode) : Prop :=
  t'.inodeOf? path = some inode ∨ inode = 0 ∧ t.inodeOf? path = none ∧ t'.Spent path

theorem gives_insert (t : InodeTable) (path : Path) (n : Nat) :
    t.Gives (t.insert path n).2 path (t.insert path n).1 := by
  cases hp : t.inodeOf? path with
  | some inode =>
    refine .inl ((inodeOf?_insert_of_some path n hp).trans ?_)
    simp only [InodeTable.insert, hp]
  | none =>
    cases hfree : t.free? path with
    | some inode =>
      simp only [InodeTable.insert, hp, hfree]
      exact .inl (by rw [inodeOf?, FiniteMap.get?_insert_self, Option.map_some])
    | none =>
      simp only [InodeTable.insert, hp, hfree]
      exact .inr ⟨rfl, hp, spent_of_free?_eq_none hfree⟩

theorem inodeOf?_insert_self {n : Nat} (h : (t.insert path n).1 ≠ 0) :
    (t.insert path n).2.inodeOf? path = some (t.insert path n).1 :=
  (gives_insert t path n).resolve_right fun hzero => h hzero.1

theorem Gives.before_lists {mid : InodeTable} {new : Path → Prop} (h : t.Gives mid path inode)
    (hlists : mid.Lists t' new) : t.Gives t' path inode :=
  h.imp hlists.located fun ⟨hzero, hunbound, hspent⟩ => ⟨hzero, hunbound, hlists.spent hspent⟩

theorem Gives.after_lists {mid : InodeTable} {new : Path → Prop} (h : mid.Gives t' path inode)
    (hlists : t.Lists mid new) : t.Gives t' path inode :=
  h.imp id fun ⟨hzero, hunbound, hspent⟩ => ⟨hzero, hlists.unbound hunbound, hspent⟩

/-- A path enters a table under a number that is its own, with some references, and the rest of the
table stays as it was. -/
structure Enters (t : InodeTable) (path : Path) (inode : Inode) (lookups : Nat)
    (result : Inode × InodeTable) : Prop where
  answer : result.1 = inode
  unreserved : inode ≠ 0 ∧ inode ≠ rootInode
  unshared : ∀ other, t.inodeOf? other ≠ some inode
  entry : result.2.byInode.get? inode = some ⟨path, lookups⟩
  location : result.2.byLocation.get? path.components = some ⟨path, inode⟩
  private_after : ∀ other, result.2.inodeOf? other = some inode ↔ other.components = path.components
  entries_kept : ∀ i e, t.byInode.get? i = some e → result.2.byInode.get? i = some e
  locations_kept : ∀ l b, t.byLocation.get? l = some b → result.2.byLocation.get? l = some b
  entries_only : ∀ i ≠ inode, result.2.byInode.get? i = t.byInode.get? i
  locations_only : ∀ l ≠ path.components, result.2.byLocation.get? l = t.byLocation.get? l

/-- The inode of a path is given again, with some more references, and the rest of the table stays as it
was. -/
structure Recounts (t : InodeTable) (path : Path) (inode : Inode) (lookups : Nat)
    (result : Inode × InodeTable) : Prop where
  answer : result.1 = inode
  entry : ∃ e, t.byInode.get? inode = some e ∧ e.path.components = path.components ∧
    result.2.byInode.get? inode = some { e with lookups := e.lookups + lookups }
  entries_kept : ∀ i ≠ inode, result.2.byInode.get? i = t.byInode.get? i
  locations_kept : result.2.byLocation = t.byLocation

theorem FirstFree.enters (h : t.Consistent) (hunbound : t.inodeOf? path = none)
    (hfirst : t.FirstFree path salt) (lookups : Nat) :
    t.Enters path (t.number path salt) lookups (t.insert path lookups) := by
  have hafter := h.insert path lookups
  have hnone := resolve?_eq_none_iff.1 hfirst.unheld
  have hlocation : t.byLocation.get? path.components = none := Option.map_eq_none_iff.1 hunbound
  rw [InodeTable.insert, hunbound, hfirst.free?_eq] at hafter ⊢
  exact {
    answer := rfl
    unreserved := ⟨ne_zero_of_rootInode_lt hfirst.above_root,
      (UInt64.ne_of_lt hfirst.above_root).symm⟩
    unshared := by
      intro other hother
      obtain ⟨e, he, _⟩ := h.inodeOf?_iff.1 hother
      rw [hnone] at he
      cases he
    entry := FiniteMap.get?_insert_self ..
    location := FiniteMap.get?_insert_self ..
    private_after := by
      intro other
      rw [hafter.inodeOf?_iff_of_entry (FiniteMap.get?_insert_self ..), eq_comm]
    entries_kept := by
      intro i e he
      rw [FiniteMap.get?_insert, if_neg, he]
      rintro rfl
      rw [hnone] at he
      cases he
    locations_kept := by
      intro l b hb
      rw [FiniteMap.get?_insert, if_neg, hb]
      rintro rfl
      rw [hlocation] at hb
      cases hb
    entries_only := fun i hi => by rw [FiniteMap.get?_insert, if_neg hi]
    locations_only := fun l hl => by rw [FiniteMap.get?_insert, if_neg hl] }

theorem Consistent.recounts (h : t.Consistent) (hbound : t.inodeOf? path = some inode)
    (lookups : Nat) : t.Recounts path inode lookups (t.insert path lookups) := by
  obtain ⟨e, he, hc⟩ := h.inodeOf?_iff.1 hbound
  rw [InodeTable.insert, hbound]
  refine ⟨rfl, ⟨e, he, hc, ?_⟩, fun i hi => ?_, rfl⟩
  · rw [FiniteMap.get?_modify, if_pos rfl, he, Option.map_some]
  · rw [FiniteMap.get?_modify, if_neg hi]

/-- An unbound path with a free number enters the table under its first free number, at the end of a
search of so many rounds; a bound path, however it is spelled, is given the inode it has. -/
theorem bind_probes (h : t.Consistent) (path : Path) :
    (t.inodeOf? path = none →
      (∃ salt, rootInode < t.number path salt ∧ t.resolve? (t.number path salt) = none) →
      ∃ salt, t.FirstFree path salt ∧
        (∀ rounds, t.freeFrom? path rounds 0 =
          if salt.toNat < rounds then some (t.number path salt) else none) ∧
        t.Enters path (t.number path salt) 0 (t.bind path) ∧
        t.Enters path (t.number path salt) 1 (t.bindLookup path)) ∧
    (∀ inode, t.inodeOf? path = some inode →
      t.Recounts path inode 0 (t.bind path) ∧ t.Recounts path inode 1 (t.bindLookup path)) := by
  constructor
  · intro hunbound hfree
    obtain ⟨salt, hfirst⟩ := exists_firstFree hfree
    refine ⟨salt, hfirst, ?_, hfirst.enters h hunbound 0, hfirst.enters h hunbound 1⟩
    exact hfirst.freeFrom?_eq (UInt64.le_iff_toNat_le.2 (Nat.zero_le _))
  · exact fun inode hbound => ⟨h.recounts hbound 0, h.recounts hbound 1⟩

/-- Of two entries, one is renamed and keeps its number, so that its old path gets the number after. -/
theorem bind_probes_past_moved :
    let root : Path := ⟨[slash, 0x74]⟩
    let a := root.child [0x61]
    let b := root.child [0x62]
    let c := root.child [0x63]
    let calls : List Call := [.bindLookup a, .bind b, .rename a c]
    let t := calls.foldl (fun t c => c.perform t) (withNumbering (fun _ salt => salt) root)
    t.Consistent ∧ t.inodeOf? a = none ∧
      (rootInode < t.number a 4 ∧ t.resolve? (t.number a 4) = none) ∧
      t.inodeOf? c = some 2 ∧
      t.FirstFree a 4 ∧ t.Enters a 4 1 (t.bindLookup a) ∧ t.Recounts c 2 1 (t.bindLookup c) := by
  intro root a b c calls t
  have h : t.Consistent := by
    refine Consistent.run (consistent_withNumbering _ root) ?_ (run_perform calls _)
    decide
  have hunbound : t.inodeOf? a = none := by decide +kernel
  have hfree : rootInode < t.number a 4 ∧ t.resolve? (t.number a 4) = none := by decide +kernel
  have hmoved : t.inodeOf? c = some 2 := by decide +kernel
  obtain ⟨salt, hfirst, _, _, henters⟩ := (bind_probes h a).1 hunbound ⟨4, hfree⟩
  have hleast : t.FirstFree a 4 := by
    refine ⟨hfree.1, hfree.2, ?_⟩
    intro s hs
    obtain rfl | rfl | rfl | rfl : s = 0 ∨ s = 1 ∨ s = 2 ∨ s = 3 := by
      rw [UInt64.lt_iff_toNat_lt] at hs
      simp only [← UInt64.toNat_inj, UInt64.reduceToNat] at hs ⊢
      omega
    all_goals decide +kernel
  have hfour : t.number a salt = 4 := by
    rw [hfirst.unique hleast]
    decide +kernel
  rw [hfour] at henters
  exact ⟨h, hunbound, hfree, hmoved, hleast, henters, ((bind_probes h c).2 2 hmoved).2⟩

end InodeBridge.InodeTable
