import InodeBridge.Host.Resolve
import Mathlib.Data.List.Induction
import Mathlib.Data.List.Nodup
import Mathlib.Data.List.Perm.Subperm

/-! # Trees of directories

A host is a tree if every directory but the root has one name in one directory, which is its parent,
and the root has none.  Files may have many names, and objects may have lost theirs.  A location is
read step by step from the root, and no link on the way is followed; what is at a location is then an
object, and a directory is at one location only.
-/
namespace InodeBridge.Host

def step? (h : Host) (id : ObjectId) : Component → Option ObjectId
  | .entry name => h.entry? id name
  | _ => none

def below? (h : Host) (id : ObjectId) (steps : Location) : Option ObjectId := steps.foldlM h.step? id

def objectOf? (h : Host) : Location → Option ObjectId
  | .root :: steps => h.below? h.root steps
  | _ => none

/-- The object that a path names, links not followed. -/
def objectAt? (h : Host) (path : Path) : Option ObjectId := h.objectOf? path.components

/-- Whether the objects of a host form one tree of directories. -/
structure IsTree (h : Host) : Prop where
  root_directory : h.isDirectory h.root = true
  root_unnamed : ∀ {d name}, h.entry? d name ≠ some h.root
  working_exists : (h.object? h.workingDirectory).isSome
  named_exists : ∀ {d name id}, h.entry? d name = some id → (h.object? id).isSome
  parent_exists : ∀ {id}, (h.object? id).isSome → (h.object? (h.parent id)).isSome
  name_isEntry : ∀ {d name id}, h.entry? d name = some id → name.isEntry = true
  parent_eq : ∀ {d name id}, h.entry? d name = some id → h.isDirectory id = true → h.parent id = d
  name_unique : ∀ {d name name' id}, h.entry? d name = some id → h.entry? d name' = some id →
    h.isDirectory id = true → name = name'
  exists_below : ∀ {id}, (h.object? id).isSome → id < h.nextObject

variable {h : Host} {id id' : ObjectId} {steps steps' : Location} {location : Location}

theorem below?_append (h : Host) (id : ObjectId) (steps steps' : Location) :
    h.below? id (steps ++ steps') = (h.below? id steps).bind (h.below? · steps') := by
  rw [below?, List.foldlM_append]
  rfl

theorem below?_cons (h : Host) (id : ObjectId) (c : Component) (steps : Location) :
    h.below? id (c :: steps) = (h.step? id c).bind (h.below? · steps) := by
  rw [below?, List.foldlM_cons]
  rfl

theorem below?_concat (h : Host) (id : ObjectId) (steps : Location) (c : Component) :
    h.below? id (steps ++ [c]) = (h.below? id steps).bind (h.step? · c) := by
  rw [below?_append]
  congr 1
  funext mid
  rw [below?_cons]
  exact Option.bind_fun_some _

theorem objectOf?_append (h : Host) (hne : location ≠ []) (steps : Location) :
    h.objectOf? (location ++ steps) = (h.objectOf? location).bind (h.below? · steps) := by
  cases location with
  | nil => exact absurd rfl hne
  | cons c rest =>
    cases c with
    | root => exact below?_append h h.root rest steps
    | _ => rfl

theorem objectOf?_concat_entry (h : Host) (location : Location) (name : Name) :
    h.objectOf? (location ++ [.entry name]) = (h.objectOf? location).bind (h.entry? · name) := by
  cases location with
  | nil => rfl
  | cons c rest =>
    cases c with
    | root => exact below?_concat h h.root rest (.entry name)
    | _ => rfl

theorem ne_nil_of_objectOf? (hs : h.objectOf? location = some id) : location ≠ [] := by
  rintro rfl
  simp [objectOf?] at hs

theorem components_of_objectAt? {path : Path} (hs : h.objectAt? path = some id) :
    ∃ steps, path.components = .root :: steps := by
  rw [objectAt?] at hs
  cases hc : path.components with
  | nil => simp [hc, objectOf?] at hs
  | cons c steps => cases c <;> simp_all [objectOf?]

theorem objectOf?_of_prefix (hne : location ≠ []) {below : Location} (hpre : location <+: below)
    (hsome : (h.objectOf? below).isSome) : (h.objectOf? location).isSome := by
  obtain ⟨steps, rfl⟩ := hpre
  rw [objectOf?_append h hne] at hsome
  exact Option.isSome_of_isSome_bind hsome

theorem isDirectory_of_entry {d : ObjectId} {name : Name} (he : h.entry? d name = some id) :
    h.isDirectory d = true := by
  obtain ⟨entries, hentries, _⟩ := Option.bind_eq_some_iff.1 he
  rw [isDirectory, hentries]
  rfl

theorem exists_of_isDirectory (hd : h.isDirectory id = true) : (h.object? id).isSome := by
  rw [isDirectory, entries?, node?] at hd
  cases ho : h.object? id with
  | none => simp [ho] at hd
  | some o => rfl

theorem step?_eq_some {c : Component} (hs : h.step? id c = some id') :
    ∃ name, c = .entry name ∧ h.entry? id name = some id' := by
  cases c with
  | entry name => exact ⟨name, rfl, hs⟩
  | _ => simp [step?] at hs

theorem below?_concat_eq_some {c : Component} (hs : h.below? id (steps ++ [c]) = some id') :
    ∃ d name, c = .entry name ∧ h.below? id steps = some d ∧ h.entry? d name = some id' := by
  rw [below?_concat] at hs
  obtain ⟨d, hd, hc⟩ := Option.bind_eq_some_iff.1 hs
  obtain ⟨name, rfl, he⟩ := step?_eq_some hc
  exact ⟨d, name, rfl, hd, he⟩

namespace IsTree

theorem root_exists (ht : h.IsTree) : (h.object? h.root).isSome :=
  exists_of_isDirectory ht.root_directory

theorem exists_of_below? (ht : h.IsTree) (hid : (h.object? id).isSome)
    (hs : h.below? id steps = some id') : (h.object? id').isSome := by
  cases steps using List.reverseRecOn with
  | nil =>
    obtain rfl : id = id' := Option.some.inj hs
    exact hid
  | append_singleton steps c =>
    obtain ⟨_, _, _, _, he⟩ := below?_concat_eq_some hs
    exact ht.named_exists he

theorem exists_of_objectOf? (ht : h.IsTree) (hs : h.objectOf? location = some id) :
    (h.object? id).isSome := by
  cases location with
  | nil => simp [objectOf?] at hs
  | cons c steps =>
    cases c with
    | root => exact ht.exists_of_below? ht.root_exists hs
    | _ => simp [objectOf?] at hs

/-- Different steps from the root do not lead to one directory. -/
theorem steps_unique (ht : h.IsTree) (hid : h.isDirectory id = true)
    (hs : h.below? h.root steps = some id) (hs' : h.below? h.root steps' = some id) :
    steps = steps' := by
  induction steps using List.reverseRecOn generalizing steps' id with
  | nil =>
    obtain rfl : h.root = id := Option.some.inj hs
    cases steps' using List.reverseRecOn with
    | nil => rfl
    | append_singleton steps' c =>
      obtain ⟨_, _, _, _, he⟩ := below?_concat_eq_some hs'
      exact absurd he ht.root_unnamed
  | append_singleton steps c ih =>
    obtain ⟨d, name, rfl, hd, he⟩ := below?_concat_eq_some hs
    cases steps' using List.reverseRecOn with
    | nil =>
      obtain rfl : h.root = id := Option.some.inj hs'
      exact absurd he ht.root_unnamed
    | append_singleton steps' c' =>
      obtain ⟨d', name', rfl, hd', he'⟩ := below?_concat_eq_some hs'
      obtain rfl : d = d' := (ht.parent_eq he hid).symm.trans (ht.parent_eq he' hid)
      rw [ih (isDirectory_of_entry he) hd hd', ht.name_unique he he' hid]

theorem location_unique (ht : h.IsTree) (hid : h.isDirectory id = true) {location' : Location}
    (hl : h.objectOf? location = some id) (hl' : h.objectOf? location' = some id) :
    location = location' := by
  cases location with
  | nil => simp [objectOf?] at hl
  | cons c steps =>
    cases location' with
    | nil => simp [objectOf?] at hl'
    | cons c' steps' =>
      cases c <;> cases c' <;> simp only [objectOf?, reduceCtorEq] at hl hl'
      rw [ht.steps_unique hid hl hl']

end IsTree

theorem mem_keys_of_object? (hid : (h.object? id).isSome) : id ∈ h.objects.entries.map Prod.fst := by
  obtain ⟨o, ho⟩ := Option.isSome_iff_exists.1 hid
  exact List.mem_map.2 ⟨(id, o), (FiniteMap.get?_eq_some_iff _ _ _).1 ho, rfl⟩

theorem isDirectory_of_take (hid : h.isDirectory id = true)
    (hs : h.below? h.root steps = some id) (n : Nat) :
    ∃ d, h.below? h.root (steps.take n) = some d ∧ h.isDirectory d = true := by
  rw [← List.take_append_drop n steps, below?_append] at hs
  obtain ⟨d, hd, hrest⟩ := Option.bind_eq_some_iff.1 hs
  refine ⟨d, hd, ?_⟩
  cases hdrop : steps.drop n with
  | nil =>
    rw [hdrop] at hrest
    obtain rfl : d = id := Option.some.inj hrest
    exact hid
  | cons c rest =>
    rw [hdrop, below?_cons] at hrest
    obtain ⟨mid, hmid, _⟩ := Option.bind_eq_some_iff.1 hrest
    obtain ⟨name, _, he⟩ := step?_eq_some hmid
    exact isDirectory_of_entry he

/-- Steps that lead to a directory are fewer than there are objects, as no object is met twice. -/
theorem IsTree.length_lt_size (ht : h.IsTree) (hid : h.isDirectory id = true)
    (hs : h.below? h.root steps = some id) : steps.length < h.objects.size := by
  let met := (List.range (steps.length + 1)).map fun n => h.below? h.root (steps.take n)
  have hnodup : met.Nodup := by
    refine List.Nodup.map_on (fun n hn n' hn' heq => ?_) List.nodup_range
    obtain ⟨d, hd, hdir⟩ := isDirectory_of_take hid hs n
    have htake := ht.steps_unique hdir hd (heq ▸ hd)
    have hlen := congrArg List.length htake
    rw [List.length_take, List.length_take] at hlen
    rw [List.mem_range] at hn hn'
    omega
  have hsubset : met ⊆ (h.objects.entries.map Prod.fst).map some := by
    intro x hx
    obtain ⟨n, _, rfl⟩ := List.mem_map.1 hx
    obtain ⟨d, hd, _⟩ := isDirectory_of_take hid hs n
    refine List.mem_map.2 ⟨d, mem_keys_of_object? (ht.exists_of_below? ht.root_exists hd), hd.symm⟩
  have hle := (hnodup.subperm hsubset).length_le
  simp only [met, List.length_map, List.length_range] at hle
  exact hle

theorem IsTree.climbMeets_of_below? (ht : h.IsTree) {upper lower : ObjectId}
    (hlower : h.isDirectory lower = true) (hs : h.below? upper steps = some lower) {fuel : Nat}
    (hfuel : steps.length ≤ fuel) : h.climbMeets upper fuel lower = true := by
  induction steps using List.reverseRecOn generalizing lower fuel with
  | nil =>
    obtain rfl : upper = lower := Option.some.inj hs
    cases fuel <;> simp [climbMeets]
  | append_singleton steps c ih =>
    obtain ⟨d, name, rfl, hd, he⟩ := below?_concat_eq_some hs
    rw [List.length_append, List.length_singleton] at hfuel
    obtain ⟨fuel, rfl⟩ := Nat.exists_eq_add_one_of_ne_zero (show fuel ≠ 0 by omega)
    have hroot : lower ≠ h.root := by
      rintro rfl
      exact ht.root_unnamed he
    have habove := ih (isDirectory_of_entry he) hd (show steps.length ≤ fuel by omega)
    simp [climbMeets, hroot, ht.parent_eq he hlower, habove]

theorem IsTree.isAtOrAbove_of_prefix (ht : h.IsTree) {upper lower : ObjectId} {below : Location}
    (hpre : location <+: below) (hupper : h.objectOf? location = some upper)
    (hs : h.objectOf? below = some lower) (hlower : h.isDirectory lower = true) :
    h.isAtOrAbove upper lower = true := by
  obtain ⟨steps', rfl⟩ := hpre
  have hbelow : h.below? upper steps' = some lower := by
    rw [objectOf?_append h (ne_nil_of_objectOf? hupper), hupper] at hs
    exact hs
  cases location with
  | nil => simp [objectOf?] at hupper
  | cons c steps =>
    cases c with
    | root =>
      have hsize : (steps ++ steps').length < h.objects.size := ht.length_lt_size hlower hs
      rw [List.length_append] at hsize
      exact ht.climbMeets_of_below? hlower hbelow (by omega)
    | _ => simp [objectOf?] at hupper

theorem isTree_fresh (umask : UInt16) (clock : Timestamp) (capacity : Capacity) :
    (fresh umask clock capacity).IsTree := by
  have hnode : ∀ id, (fresh umask clock capacity).node? id =
      if id = 0 then some (.directory .empty 0) else none := by
    intro id
    rw [node?, object?, fresh, FiniteMap.get?_insert]
    split <;> rfl
  have hentry : ∀ d name, entry? (fresh umask clock capacity) d name = none := by
    intro d name
    rw [Host.entry?, entries?, hnode]
    by_cases hd : d = 0 <;> simp [hd]
  have hobject : ∀ id, ((fresh umask clock capacity).object? id).isSome → id = 0 := by
    intro id hid
    have hsome : ((fresh umask clock capacity).node? id).isSome := by
      rw [node?, Option.isSome_map]
      exact hid
    rw [hnode] at hsome
    by_cases hd : id = 0
    · exact hd
    · simp [hd] at hsome
  exact {
    root_directory := rfl
    root_unnamed := by simp [hentry]
    working_exists := rfl
    named_exists := by simp [hentry]
    parent_exists := by
      intro id hid
      obtain rfl := hobject id hid
      rfl
    name_isEntry := by simp [hentry]
    parent_eq := by simp [hentry]
    name_unique := by simp [hentry]
    exists_below := by
      intro id hid
      obtain rfl := hobject id hid
      exact Nat.one_pos }

end InodeBridge.Host
