import InodeBridge.HandleTable
import Mathlib.Data.List.Nodup
import Mathlib.Data.List.Perm.Subperm
import Mathlib.Data.Multiset.Basic

/-! # Values under handles

What the operations of a table of handles do to the values it holds and to the numbers under which it
holds them: a value that is put in under a free number joins them, and one that is taken out leaves them.
-/
namespace InodeBridge

namespace FiniteMap

variable {κ ν : Type} [DecidableEq κ] {m : FiniteMap κ ν} {k : κ} {v : ν}

theorem values_insert (h : m.get? k = none) : (m.insert k v).values = v :: m.values := by
  change v :: (m.erase k).values = v :: m.values
  rw [erase_eq_self h]

theorem keys_insert (h : m.get? k = none) :
    (m.insert k v).entries.map Prod.fst = k :: m.entries.map Prod.fst := by
  change k :: (m.erase k).entries.map Prod.fst = _
  rw [erase_eq_self h]

theorem mem_keys_iff : k ∈ m.entries.map Prod.fst ↔ (m.get? k).isSome := by
  rw [Option.isSome_iff_exists, List.mem_map]
  constructor
  · rintro ⟨⟨_, v⟩, hentry, rfl⟩
    exact ⟨v, (m.get?_eq_some_iff _ v).2 hentry⟩
  · rintro ⟨v, hv⟩
    exact ⟨(k, v), (m.get?_eq_some_iff k v).1 hv, rfl⟩

theorem entries_perm_erase (h : m.get? k = some v) :
    m.entries.Perm ((k, v) :: (m.erase k).entries) := by
  obtain ⟨first, rest, hsplit⟩ := List.append_of_mem ((m.get?_eq_some_iff k v).1 h)
  have hnodup := m.keys_nodup
  rw [hsplit, List.map_append, List.map_cons, List.nodup_append] at hnodup
  have hothers : ∀ e ∈ first ++ rest, e.1 ≠ k := by
    rintro e he rfl
    rcases List.mem_append.1 he with he | he
    · exact hnodup.2.2 _ (List.mem_map_of_mem he) _ List.mem_cons_self rfl
    · exact (List.nodup_cons.1 hnodup.2.1).1 (List.mem_map.2 ⟨e, he, rfl⟩)
  have herase : (m.erase k).entries = first ++ rest := by
    change m.entries.filter _ = _
    rw [hsplit, List.filter_append, List.filter_cons_of_neg (by simp), ← List.filter_append]
    exact List.filter_eq_self.2 fun e he => by simpa using hothers e he
  rw [herase, hsplit]
  exact List.perm_middle

theorem values_perm_erase (h : m.get? k = some v) : m.values.Perm (v :: (m.erase k).values) :=
  (entries_perm_erase h).map Prod.snd

end FiniteMap

namespace HandleTable

variable {ν : Type} {t : HandleTable ν} {value : ν}

theorem isFree_iff {id : UInt64} : t.isFree id = true ↔ id ≠ 0 ∧ t.get? id = none := by
  rw [isFree, Bool.and_eq_true, bne_iff_ne, Bool.not_eq_true', contains,
    FiniteMap.contains_eq_false_iff, get?]

/-- The search for a free number finds none only if all those it tries are taken. -/
theorem freeFrom?_eq_none_iff {fuel : Nat} {id : UInt64} :
    t.freeFrom? fuel id = none ↔ ∀ n < fuel, t.isFree (id + UInt64.ofNat n) = false := by
  induction fuel generalizing id with
  | zero => simp [freeFrom?]
  | succ fuel ih =>
    have hshift (n : Nat) : id + 1 + UInt64.ofNat n = id + UInt64.ofNat (n + 1) := by
      rw [UInt64.ofNat_add, UInt64.add_assoc, UInt64.add_comm 1]
      rfl
    rw [freeFrom?]
    split
    next hfree =>
      refine ⟨by simp, fun h => ?_⟩
      have := h 0 (Nat.succ_pos _)
      simp [hfree] at this
    next hfree =>
      simp only [ih, hshift]
      constructor
      · intro h n hn
        cases n with
        | zero => simpa using hfree
        | succ n => exact h n (by omega)
      · exact fun h n hn => h (n + 1) (by omega)

theorem isFree_of_freeFrom? {fuel : Nat} {id free : UInt64} (h : t.freeFrom? fuel id = some free) :
    t.isFree free = true := by
  induction fuel generalizing id with
  | zero => simp [freeFrom?] at h
  | succ fuel ih =>
    rw [freeFrom?] at h
    split at h
    next hfree =>
      cases h
      exact hfree
    next => exact ih h

/-- Numbers that follow each other are different, while they do not come round. -/
theorem nodup_following (id : UInt64) {count : Nat} (h : count ≤ UInt64.size) :
    ((List.range count).map fun n => id + UInt64.ofNat n).Nodup := by
  refine List.Nodup.map_on ?_ List.nodup_range
  intro m hm n hn hmn
  have := congrArg UInt64.toNat ((UInt64.add_right_inj _).1 hmn)
  rw [List.mem_range] at hm hn
  rwa [UInt64.toNat_ofNat_of_lt' (by omega), UInt64.toNat_ofNat_of_lt' (by omega)] at this

theorem free?_isSome (h : t.size + 1 < UInt64.size) : t.free?.isSome := by
  rw [Option.isSome_iff_ne_none]
  intro hnone
  have htaken := freeFrom?_eq_none_iff.1 hnone
  -- the numbers tried are more than those that are not free
  have hsub : ((List.range (t.size + 2)).map fun n => t.next + UInt64.ofNat n) ⊆
      0 :: t.held.entries.map Prod.fst := by
    intro id hid
    obtain ⟨n, hn, rfl⟩ := List.mem_map.1 hid
    have hnot := htaken n (List.mem_range.1 hn)
    rw [Bool.eq_false_iff, ne_eq, isFree_iff, not_and_or, not_not] at hnot
    rcases hnot with hzero | hheld
    · exact List.mem_cons.2 (.inl hzero)
    · exact List.mem_cons_of_mem _ (FiniteMap.mem_keys_iff.2 (Option.isSome_iff_ne_none.2 hheld))
  have hlength := ((nodup_following t.next h).subperm hsub).length_le
  simp only [List.length_map, List.length_range, List.length_cons] at hlength
  exact absurd hlength (by rw [size, FiniteMap.size]; omega)

/-- While any number is free, one is found: the search comes past all numbers, or past more of them than
are not free. -/
theorem free?_isSome_of_isFree {id : UInt64} (h : t.isFree id = true) : t.free?.isSome := by
  by_cases hroom : t.size + 1 < UInt64.size
  · exact free?_isSome hroom
  · rw [Option.isSome_iff_ne_none]
    intro hnone
    have hbound := (id - t.next).toNat_lt
    have htaken := freeFrom?_eq_none_iff.1 hnone (id - t.next).toNat (by
      simp only [UInt64.size] at hroom
      omega)
    rw [UInt64.ofNat_toNat, UInt64.add_comm, UInt64.sub_add_cancel, h] at htaken
    cases htaken

/-- The number of a value that is put in is zero only if no number is free. -/
theorem insert_eq_zero_iff : (t.insert value).1 = 0 ↔ t.free? = none := by
  rw [insert]
  split
  next free hfree =>
    have hne : free ≠ 0 := (isFree_iff.1 (isFree_of_freeFrom? hfree)).1
    simp [hfree, hne]
  next hnone => simp [hnone]

theorem insert_ne_zero (h : t.size + 1 < UInt64.size) : (t.insert value).1 ≠ 0 := by
  intro hzero
  have hfree := free?_isSome h
  rw [insert_eq_zero_iff.1 hzero] at hfree
  cases hfree

theorem insert_eq_of_isFree (h : t.isFree t.next = true) :
    t.insert value = (t.next, ⟨t.held.insert t.next value, t.next + 1⟩) := by
  have hfree : t.free? = some t.next := by
    rw [free?, freeFrom?, if_pos h]
  rw [insert, hfree]

/-- While only counted numbers are held and one more can be counted, that one is free. -/
theorem isFree_next {count : Nat} (hnext : t.next = UInt64.ofNat (count + 1))
    (hheld : ∀ id value, t.get? id = some value → id.toNat ≤ count)
    (room : count + 1 < UInt64.size) : t.isFree t.next = true := by
  have hnumber : t.next.toNat = count + 1 := by rw [hnext, UInt64.toNat_ofNat_of_lt' room]
  refine isFree_iff.2 ⟨?_, ?_⟩
  · intro hzero
    rw [hzero] at hnumber
    cases hnumber
  · rw [Option.eq_none_iff_forall_ne_some]
    intro value hvalue
    have hle := hheld t.next value hvalue
    omega

theorem get?_insert_fst (h : (t.insert value).1 ≠ 0) : t.get? (t.insert value).1 = none := by
  obtain ⟨free, hfree⟩ := Option.ne_none_iff_exists'.1 (mt insert_eq_zero_iff.2 h)
  rw [insert, hfree]
  exact (isFree_iff.1 (isFree_of_freeFrom? hfree)).2

/-- A value that is put in is had under its number, and the others under theirs. -/
theorem get?_insert (h : (t.insert value).1 ≠ 0) (id : UInt64) :
    (t.insert value).2.get? id = if id = (t.insert value).1 then some value else t.get? id := by
  obtain ⟨free, hfree⟩ := Option.ne_none_iff_exists'.1 (mt insert_eq_zero_iff.2 h)
  rw [insert, hfree]
  exact FiniteMap.get?_insert t.held free id value

theorem get?_insert_self (h : (t.insert value).1 ≠ 0) :
    (t.insert value).2.get? (t.insert value).1 = some value := by
  rw [get?_insert h, if_pos rfl]

theorem get?_insert_of_held {id : UInt64} {kept : ν} (held : t.get? id = some kept) :
    (t.insert value).2.get? id = some kept := by
  by_cases h : (t.insert value).1 = 0
  · rw [insert, insert_eq_zero_iff.1 h]
    exact held
  · have hne : id ≠ (t.insert value).1 := by
      rintro rfl
      rw [get?_insert_fst h] at held
      cases held
    rw [get?_insert h, if_neg hne, held]

theorem values_insert (h : (t.insert value).1 ≠ 0) :
    (t.insert value).2.held.values = value :: t.held.values := by
  have hnone := get?_insert_fst h
  obtain ⟨free, hfree⟩ := Option.ne_none_iff_exists'.1 (mt insert_eq_zero_iff.2 h)
  rw [insert, hfree] at hnone ⊢
  exact FiniteMap.values_insert hnone

theorem values_remove {id : UInt64} (h : t.get? id = some value) :
    t.held.values.Perm (value :: (t.remove id).2.held.values) :=
  FiniteMap.values_perm_erase h

def keys (t : HandleTable ν) : Multiset UInt64 := ↑(t.held.entries.map Prod.fst)

@[simp] theorem keys_new : (new : HandleTable ν).keys = 0 := rfl

theorem card_keys : t.keys.card = t.size := List.length_map _

theorem nodup_keys : t.keys.Nodup := t.held.keys_nodup

theorem mem_keys_iff {id : UInt64} : id ∈ t.keys ↔ (t.get? id).isSome := FiniteMap.mem_keys_iff

theorem keys_insert (h : (t.insert value).1 ≠ 0) :
    (t.insert value).2.keys = (t.insert value).1 ::ₘ t.keys := by
  have hnone := get?_insert_fst h
  obtain ⟨free, hfree⟩ := Option.ne_none_iff_exists'.1 (mt insert_eq_zero_iff.2 h)
  rw [insert, hfree] at hnone ⊢
  exact congrArg _ (FiniteMap.keys_insert hnone)

theorem keys_remove {id : UInt64} (h : t.get? id = some value) :
    t.keys = id ::ₘ (t.remove id).2.keys :=
  Multiset.coe_eq_coe.2 ((FiniteMap.entries_perm_erase h).map Prod.fst)

theorem get?_remove (id other : UInt64) :
    (t.remove id).2.get? other = if other = id then none else t.get? other :=
  FiniteMap.get?_erase t.held id other

theorem size_insert_le : (t.insert value).2.size ≤ t.size + 1 := by
  by_cases h : (t.insert value).1 = 0
  · rw [insert, insert_eq_zero_iff.1 h]
    exact Nat.le_succ _
  · have := congrArg List.length (values_insert h)
    simp only [FiniteMap.values, List.length_map, List.length_cons] at this
    exact Nat.le_of_eq this

theorem size_remove_le (id : UInt64) : (t.remove id).2.size ≤ t.size :=
  List.filter_sublist.length_le

end HandleTable
end InodeBridge
