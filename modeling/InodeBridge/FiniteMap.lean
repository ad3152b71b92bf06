/-! # Finite maps

A map with finitely many keys, kept as a list of entries in which no key occurs twice.  What a map
holds is read with `get?`; the lemmas here say what each operation does to `get?`.
-/
namespace InodeBridge

/-- A map from keys to values with finitely many entries. -/
structure FiniteMap (κ ν : Type) where
  entries : List (κ × ν)
  keys_nodup : (entries.map Prod.fst).Nodup

namespace FiniteMap

variable {κ ν : Type}

def empty : FiniteMap κ ν := ⟨[], by simp⟩

instance : Inhabited (FiniteMap κ ν) := ⟨empty⟩

def size (m : FiniteMap κ ν) : Nat := m.entries.length

def values (m : FiniteMap κ ν) : List ν := m.entries.map Prod.snd

variable [DecidableEq κ]

def get? (m : FiniteMap κ ν) (k : κ) : Option ν :=
  (m.entries.find? fun e => decide (e.1 = k)).map Prod.snd

def contains (m : FiniteMap κ ν) (k : κ) : Bool := (m.get? k).isSome

def erase (m : FiniteMap κ ν) (k : κ) : FiniteMap κ ν where
  entries := m.entries.filter fun e => !decide (e.1 = k)
  keys_nodup := (List.filter_sublist.map Prod.fst).nodup m.keys_nodup

def insert (m : FiniteMap κ ν) (k : κ) (v : ν) : FiniteMap κ ν where
  entries := (k, v) :: (m.erase k).entries
  keys_nodup := by
    rw [List.map_cons, List.nodup_cons]
    refine ⟨?_, (m.erase k).keys_nodup⟩
    simp [erase]

/-- The map in which the value of a key, if it has one, is changed. -/
def modify (m : FiniteMap κ ν) (k : κ) (f : ν → ν) : FiniteMap κ ν :=
  match m.get? k with
  | some v => m.insert k (f v)
  | none => m

@[simp] theorem get?_empty (k : κ) : (empty : FiniteMap κ ν).get? k = none := rfl

theorem find?_filter_ne (l : List (κ × ν)) {k k' : κ} (h : k' ≠ k) :
    (l.filter fun e => !decide (e.1 = k)).find? (fun e => decide (e.1 = k')) =
      l.find? fun e => decide (e.1 = k') := by
  induction l with
  | nil => rfl
  | cons e l ih =>
    by_cases he : e.1 = k
    · have : e.1 ≠ k' := fun h' => h (h'.symm.trans he)
      simp [he, ih, h.symm]
    · simp [he, List.find?_cons, ih]

@[simp] theorem get?_erase_self (m : FiniteMap κ ν) (k : κ) : (m.erase k).get? k = none := by
  simp [get?, erase, List.find?_eq_none]

theorem get?_erase (m : FiniteMap κ ν) (k k' : κ) :
    (m.erase k).get? k' = if k' = k then none else m.get? k' := by
  split
  next h => subst h; simp
  next h => simp only [get?, erase, find?_filter_ne m.entries h]

@[simp] theorem get?_insert_self (m : FiniteMap κ ν) (k : κ) (v : ν) :
    (m.insert k v).get? k = some v := by
  simp [get?, insert]

theorem get?_insert (m : FiniteMap κ ν) (k k' : κ) (v : ν) :
    (m.insert k v).get? k' = if k' = k then some v else m.get? k' := by
  split
  next h => subst h; simp
  next h =>
    have := get?_erase m k k'
    rw [if_neg h] at this
    rw [← this]
    simp [get?, insert, Ne.symm h]

theorem get?_modify (m : FiniteMap κ ν) (k k' : κ) (f : ν → ν) :
    (m.modify k f).get? k' = if k' = k then (m.get? k).map f else m.get? k' := by
  unfold modify
  split
  next v h => simp [get?_insert, h]
  next h =>
    by_cases hk : k' = k
    · simp [hk, h]
    · simp [hk]

theorem get?_eq_some_iff (m : FiniteMap κ ν) (k : κ) (v : ν) :
    m.get? k = some v ↔ (k, v) ∈ m.entries := by
  have key : ∀ {l : List (κ × ν)}, (l.map Prod.fst).Nodup →
      ((l.find? fun e => decide (e.1 = k)).map Prod.snd = some v ↔ (k, v) ∈ l) := by
    intro l hl
    induction l with
    | nil => simp
    | cons e l ih =>
      rw [List.map_cons, List.nodup_cons] at hl
      by_cases he : e.1 = k
      · subst he
        have hout : (e.1, v) ∉ l := fun h => hl.1 (List.mem_map.2 ⟨_, h, rfl⟩)
        simp [hout, Prod.ext_iff, eq_comm]
      · have hne : (k, v) ≠ e := fun h => he (h ▸ rfl)
        simp [he, ih hl.2, hne]
  exact key m.keys_nodup

theorem get?_eq_of_perm {m n : FiniteMap κ ν} (h : m.entries.Perm n.entries) (k : κ) :
    m.get? k = n.get? k :=
  Option.ext fun v => by rw [get?_eq_some_iff, get?_eq_some_iff, h.mem_iff]

theorem erase_eq_self {m : FiniteMap κ ν} {k : κ} (h : m.get? k = none) : m.erase k = m := by
  obtain ⟨entries, nodup⟩ := m
  simp only [erase, mk.injEq, List.filter_eq_self]
  intro e he
  have hne : e.1 ≠ k := fun hk => by
    have := (get?_eq_some_iff ⟨entries, nodup⟩ k e.2).2 (hk ▸ he)
    simp [h] at this
  simp [hne]

theorem contains_iff (m : FiniteMap κ ν) (k : κ) : m.contains k = true ↔ ∃ v, m.get? k = some v :=
  Option.isSome_iff_exists

theorem contains_eq_false_iff (m : FiniteMap κ ν) (k : κ) :
    m.contains k = false ↔ m.get? k = none := by
  simp [contains]

end FiniteMap
end InodeBridge
