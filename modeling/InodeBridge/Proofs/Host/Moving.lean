import InodeBridge.Proofs.Host.Changes
import InodeBridge.Proofs.Host.Walking

/-! # Removing and renaming entries

Removing an entry leaves every location that does not lead through it as it is, and below it there was
nothing.  Renaming takes what is at and below the source to the target, below which there was nothing,
and leaves the rest; it is refused if one of the two is below the other.
-/
namespace InodeBridge.Host

variable {h h' : Host} {d d' id : ObjectId} {name name' : Name} {location : Location}

theorem below?_congr {steps : Location}
    (hsame : ∀ pre name rest, steps = pre ++ .entry name :: rest → ∀ d, h.below? id pre = some d →
      h'.entry? d name = h.entry? d name) : h'.below? id steps = h.below? id steps := by
  induction steps using List.reverseRecOn with
  | nil => rfl
  | append_singleton steps c ih =>
    have heq := ih fun pre name rest hsteps => hsame pre name (rest ++ [c]) (by simp [hsteps])
    rw [below?_concat, below?_concat, heq]
    cases hd : h.below? id steps with
    | none => rfl
    | some d =>
      cases c with
      | entry name => exact hsame steps name [] rfl d hd
      | _ => rfl

theorem objectOf?_congr (hroot : h'.root = h.root)
    (hsame : ∀ pre name rest, location = pre ++ .entry name :: rest → ∀ d, h.objectOf? pre = some d →
      h'.entry? d name = h.entry? d name) : h'.objectOf? location = h.objectOf? location := by
  cases location with
  | nil => rfl
  | cons c steps =>
    cases c with
    | root =>
      rw [objectOf?, hroot]
      refine below?_congr fun pre name rest hsteps d hd => ?_
      exact hsame (.root :: pre) name rest (by rw [hsteps]; rfl) d hd
    | _ => rfl

theorem objectOf?_append_eq_none (hat : h.objectOf? location = some id)
    (hempty : ∀ name, h.entry? id name = none) {steps : Location} (hne : steps ≠ []) :
    h.objectOf? (location ++ steps) = none := by
  rw [objectOf?_append h (ne_nil_of_objectOf? hat), hat, Option.bind_some]
  cases steps with
  | nil => exact absurd rfl hne
  | cons c steps =>
    rw [below?_cons]
    cases c with
    | entry name => rw [step?, hempty name]; rfl
    | _ => rfl

theorem entry?_eq_none_of_entries? (h : Host) (he : h.entries? id = none) (name : Name) :
    h.entry? id name = none := by
  rw [Host.entry?, he]
  rfl

theorem entry?_eq_none_of_size {entries : FiniteMap Name ObjectId} (he : h.entries? id = some entries)
    (hsize : entries.size = 0) (name : Name) : h.entry? id name = none := by
  have hnil : entries.entries = [] := List.length_eq_zero_iff.1 hsize
  rw [Host.entry?, he, Option.bind_some, FiniteMap.get?, hnil]
  rfl

/-- An entry is gone, below which there was nothing, and the rest is as it was. -/
structure Removes (h h' : Host) (location : Location) : Prop where
  nothing_below : ∀ steps, steps ≠ [] → h.objectOf? (location ++ steps) = none
  elsewhere : ∀ other, ¬ location <+: other → h'.objectOf? other = h.objectOf? other
  tree : h'.IsTree

/-- What was at and below the source is at and below the target, below which there was nothing, and the
rest is as it was. -/
structure Moves (h h' : Host) (source target : Location) : Prop where
  source_apart : ¬ source <+: target
  target_apart : ¬ target <+: source
  nothing_below : ∀ steps, steps ≠ [] → h.objectOf? (target ++ steps) = none
  along : ∀ steps, h'.objectOf? (target ++ steps) = h.objectOf? (source ++ steps)
  elsewhere : ∀ other, ¬ source <+: other → ¬ target <+: other →
    h'.objectOf? other = h.objectOf? other
  tree : h'.IsTree

theorem removes_detach (ht : h.IsTree) (hd : h.objectOf? location = some d)
    (he : h.entry? d name = some id) (hempty : ∀ name, h.entry? id name = none) :
    h.Removes (h.detach d name) (location ++ [.entry name]) where
  nothing_below steps hne := by
    refine objectOf?_append_eq_none ?_ hempty hne
    rw [objectOf?_concat_entry, hd]
    exact he
  elsewhere other hpre := by
    refine objectOf?_congr rfl fun pre name' rest hother x hx => ?_
    rw [entry?_detach, if_neg]
    rintro ⟨rfl, rfl⟩
    obtain rfl := ht.location_unique (isDirectory_of_entry he) hd hx
    exact hpre ⟨rest, by simp [hother]⟩
  tree := ht.detach d name

section Rename

variable {source target : Location} {moved : ObjectId}

def relocated (h : Host) (d : ObjectId) (name : Name) (d' : ObjectId) (name' : Name)
    (moved : ObjectId) : Host :=
  (h.detach d name).attach d' name' moved

theorem entry?_relocated (hd' : h.isDirectory d' = true) (x : ObjectId) (n : Name) :
    entry? (h.relocated d name d' name' moved) x n =
      if x = d' ∧ n = name' then some moved
      else if x = d ∧ n = name then none else h.entry? x n := by
  rw [relocated, entry?_attach (isDirectory_detach.trans hd'), entry?_detach]

theorem IsTree.relocated (ht : h.IsTree) (he : h.entry? d name = some moved)
    (hd' : h.isDirectory d' = true) (hname' : name'.isEntry = true) :
    (h.relocated d name d' name' moved).IsTree := by
  refine (ht.detach d name).attach (isDirectory_detach.trans hd') hname' ?_ ?_ ?_
  · exact object?_detach_isSome.trans (ht.named_exists he)
  · rintro rfl
    exact ht.root_unnamed he
  · intro x n hx hdir
    rw [isDirectory_detach] at hdir
    rw [entry?_detach] at hx
    split at hx
    · simp at hx
    next hat =>
      obtain rfl : d = x := (ht.parent_eq he hdir).symm.trans (ht.parent_eq hx hdir)
      exact absurd ⟨rfl, ht.name_unique hx he hdir⟩ hat

section Frame

variable (ht : h.IsTree) (hd : h.objectOf? source = some d) (he : h.entry? d name = some moved)
  (hd' : h.objectOf? target = some d') (hdir' : h.isDirectory d' = true)

include ht hd he hd' hdir'

theorem objectOf?_relocated {other : Location} (hs : ¬ source ++ [.entry name] <+: other)
    (ht' : ¬ target ++ [.entry name'] <+: other) :
    (h.relocated d name d' name' moved).objectOf? other = h.objectOf? other := by
  refine objectOf?_congr rfl fun pre n rest hother x hx => ?_
  rw [entry?_relocated hdir', if_neg, if_neg]
  · rintro ⟨rfl, rfl⟩
    obtain rfl := ht.location_unique (isDirectory_of_entry he) hd hx
    exact hs ⟨rest, by simp [hother]⟩
  · rintro ⟨rfl, rfl⟩
    obtain rfl := ht.location_unique hdir' hd' hx
    exact ht' ⟨rest, by simp [hother]⟩

theorem below?_relocated (hsource : ¬ source ++ [.entry name] <+: target) (steps : Location) :
    (h.relocated d name d' name' moved).below? moved steps = h.below? moved steps := by
  refine below?_congr fun pre n rest _ x hx => ?_
  have hat : h.objectOf? (source ++ [.entry name] ++ pre) = some x := by
    rw [objectOf?_append h (by simp), objectOf?_concat_entry, hd, Option.bind_some, he]
    exact hx
  rw [entry?_relocated hdir', if_neg, if_neg]
  · rintro ⟨rfl, rfl⟩
    have := congrArg List.length (ht.location_unique (isDirectory_of_entry he) hd hat)
    simp only [List.length_append, List.length_singleton] at this
    omega
  · rintro ⟨rfl, rfl⟩
    exact hsource ⟨pre, ht.location_unique hdir' hat hd'⟩

theorem moves_relocated (hname' : name'.isEntry = true)
    (hsource : ¬ source ++ [.entry name] <+: target ++ [.entry name'])
    (htarget : ¬ target ++ [.entry name'] <+: source ++ [.entry name])
    (hempty : ∀ replaced, h.entry? d' name' = some replaced → ∀ n, h.entry? replaced n = none) :
    h.Moves (h.relocated d name d' name' moved) (source ++ [.entry name])
      (target ++ [.entry name']) where
  source_apart := hsource
  target_apart := htarget
  nothing_below steps hne := by
    cases he' : h.entry? d' name' with
    | some replaced =>
      refine objectOf?_append_eq_none ?_ (hempty replaced he') hne
      rw [objectOf?_concat_entry, hd']
      exact he'
    | none =>
      rw [objectOf?_append h (by simp), objectOf?_concat_entry, hd', Option.bind_some, he']
      rfl
  along steps := by
    have hsource' : ¬ source ++ [.entry name] <+: target := fun hpre =>
      hsource (hpre.trans (List.prefix_append _ _))
    have htarget' : ¬ target ++ [.entry name'] <+: target := fun hpre => by
      have := hpre.length_le
      rw [List.length_append, List.length_singleton] at this
      omega
    have hkept := objectOf?_relocated ht hd he hd' hdir' hsource' htarget'
    rw [objectOf?_append _ (by simp), objectOf?_concat_entry, hkept, hd', Option.bind_some,
      entry?_relocated hdir', if_pos ⟨rfl, rfl⟩, Option.bind_some,
      below?_relocated ht hd he hd' hdir' hsource', objectOf?_append h (by simp),
      objectOf?_concat_entry, hd, Option.bind_some, he]
    rfl
  elsewhere _ hs ht' := objectOf?_relocated ht hd he hd' hdir' hs ht'
  tree := ht.relocated he hdir' hname'

end Frame

/-- Two names of one object that is no directory: all is already as if one had been moved. -/
theorem moves_refl (ht : h.IsTree) {source target : Location}
    (hsource : h.objectOf? source = some moved) (htarget : h.objectOf? target = some moved)
    (hs : ¬ source <+: target) (ht' : ¬ target <+: source) : h.Moves h source target where
  source_apart := hs
  target_apart := ht'
  nothing_below steps hne := by
    refine objectOf?_append_eq_none htarget (fun n => ?_) hne
    cases he : h.entry? moved n with
    | none => rfl
    | some x =>
      exact absurd (ht.location_unique (isDirectory_of_entry he) hsource htarget)
        fun heq => hs (heq ▸ List.prefix_rfl)
  along steps := by
    rw [objectOf?_append h (ne_nil_of_objectOf? htarget), htarget,
      objectOf?_append h (ne_nil_of_objectOf? hsource), hsource]
  elsewhere _ _ _ := rfl
  tree := ht

end Rename

section Operations

variable {path path' : Path}

theorem objectOf?_child (hobject : h.objectAt? path = some d) (hname : name.isEntry = true) :
    h.objectOf? (path.child name).components = h.entry? d name := by
  rw [Path.components_child path hname, objectOf?_concat_entry,
    show h.objectOf? path.components = some d from hobject]
  rfl

section Removing

variable (ht : h.IsTree) (hobject : h.objectAt? path = some d) (hlink : h.linkContent? d = none)
  (hname : name.isEntry = true)

include ht hobject hlink hname

theorem removes_unlink (hu : h.unlink (path.child name) = .ok h') :
    h.Removes h' (path.child name).components := by
  obtain ⟨p, hp, hu⟩ := bind_eq_ok.1 hu
  obtain ⟨hd, rfl⟩ := place_child hobject hlink hname hp
  obtain ⟨found, hfind, hu⟩ := bind_eq_ok.1 hu
  cases found with
  | none => simp at hu
  | some id =>
    dsimp only at hu
    split at hu
    · simp at hu
    next hfile =>
      obtain rfl := Except.ok.inj hu
      rw [Path.components_child path hname]
      apply removes_detach ht hobject (findEntry_eq_ok hfind)
      intro n
      refine h.entry?_eq_none_of_entries? ?_ n
      simpa [isDirectory] using hfile

theorem removes_rmdir (hr : h.rmdir (path.child name) = .ok h') :
    h.Removes h' (path.child name).components := by
  obtain ⟨p, hp, hr⟩ := bind_eq_ok.1 hr
  obtain ⟨hd, rfl⟩ := place_child hobject hlink hname hp
  obtain ⟨found, hfind, hr⟩ := bind_eq_ok.1 hr
  cases found with
  | none => simp at hr
  | some id =>
    dsimp only at hr
    split at hr
    · simp at hr
    next entries hentries =>
      split at hr
      next hsize =>
        obtain rfl := Except.ok.inj hr
        rw [Path.components_child path hname]
        exact removes_detach ht hobject (findEntry_eq_ok hfind)
          (entry?_eq_none_of_size hentries hsize)
      · simp at hr

end Removing

theorem entry?_eq_none_of_checkReplaces {moved replaced : ObjectId}
    (hc : h.checkReplaces moved replaced = .ok ()) (n : Name) : h.entry? replaced n = none := by
  unfold checkReplaces at hc
  split at hc
  · simp at hc
  · simp at hc
  next entries _ hentries =>
    split at hc
    next hsize => exact entry?_eq_none_of_size hentries hsize n
    · simp at hc
  next hentries => exact h.entry?_eq_none_of_entries? hentries n

/-- What is not above the directory of another entry is not above that entry. -/
theorem not_prefix_of_isAtOrAbove (ht : h.IsTree) {upper : ObjectId} {below : Location}
    (hupper : h.objectOf? location = some upper) (hbelow : h.objectOf? below = some d)
    (hd : h.isDirectory d = true) (hup : ¬ h.isAtOrAbove upper d = true)
    (hne : location ≠ below ++ [.entry name]) : ¬ location <+: below ++ [.entry name] := by
  intro hpre
  rcases List.prefix_concat_iff.1 hpre with heq | hpre
  · exact hne heq
  · exact hup (ht.isAtOrAbove_of_prefix hpre hupper hbelow hd)

section Renaming

variable (hobject : h.objectAt? path = some d) (hlink : h.linkContent? d = none)
  (hname : name.isEntry = true) (hobject' : h.objectAt? path' = some d')
  (hlink' : h.linkContent? d' = none) (hname' : name'.isEntry = true)

include hobject hlink hname hobject' hlink' hname'

/-- A rename between entries of directories at paths without links puts the entry into the other
directory, in the place of an object without entries if there is one, or finds the object there. -/
theorem rename_cases (hr : h.rename (path.child name) (path'.child name') = .ok h') :
    h.isDirectory d = true ∧ h.isDirectory d' = true ∧ ∃ moved, h.entry? d name = some moved ∧
      ¬ h.isAtOrAbove moved d' = true ∧
      ((h.entry? d' name' = none ∧ h' = h.relocated d name d' name' moved) ∨
        ∃ replaced, h.entry? d' name' = some replaced ∧ ¬ h.isAtOrAbove replaced d = true ∧
          ((replaced = moved ∧ h' = h) ∨
            (replaced ≠ moved ∧ (∀ n, h.entry? replaced n = none) ∧
              h' = h.relocated d name d' name' moved))) := by
  obtain ⟨old, hold, hr⟩ := bind_eq_ok.1 hr
  obtain ⟨hd, rfl⟩ := place_child hobject hlink hname hold
  obtain ⟨new, hnew, hr⟩ := bind_eq_ok.1 hr
  obtain ⟨hd', rfl⟩ := place_child hobject' hlink' hname' hnew
  obtain ⟨found, hfind, hr⟩ := bind_eq_ok.1 hr
  cases found with
  | none => simp at hr
  | some moved =>
    dsimp only at hr
    obtain ⟨replaced, hfind', hr⟩ := bind_eq_ok.1 hr
    split at hr
    · simp at hr
    split at hr
    · simp at hr
    next hup =>
    refine ⟨hd, hd', moved, findEntry_eq_ok hfind, hup, ?_⟩
    cases replaced with
    | none => exact .inl ⟨findEntry_eq_ok hfind', (Except.ok.inj hr).symm⟩
    | some replaced =>
      dsimp only at hr
      split at hr
      · simp at hr
      next hup' =>
      refine .inr ⟨replaced, findEntry_eq_ok hfind', hup', ?_⟩
      split at hr
      next heq => exact .inl ⟨heq, (Except.ok.inj hr).symm⟩
      next hne =>
        obtain ⟨_, hcheck, hr⟩ := bind_eq_ok.1 hr
        exact .inr ⟨hne, entry?_eq_none_of_checkReplaces hcheck, (Except.ok.inj hr).symm⟩

/-- A rename between entries of directories at paths without links does nothing if these are one
entry, and otherwise moves what is at the source. -/
theorem moves_rename (ht : h.IsTree) (hr : h.rename (path.child name) (path'.child name') = .ok h') :
    ((path.child name).components = (path'.child name').components ∧ h' = h) ∨
      h.Moves h' (path.child name).components (path'.child name').components := by
  obtain ⟨hd, hd', moved, he, hup, hcases⟩ :=
    rename_cases hobject hlink hname hobject' hlink' hname' hr
  have hsource := (objectOf?_child hobject hname).trans he
  have htarget := objectOf?_child hobject' hname'
  rw [Path.components_child path hname, Path.components_child path' hname'] at *
  by_cases hne : path.components ++ [.entry name] = path'.components ++ [.entry name']
  · refine .inl ⟨hne, ?_⟩
    rw [← htarget, ← hne, hsource] at hcases
    rcases hcases with ⟨hnone, _⟩ | ⟨replaced, hreplaced, _, ⟨_, rfl⟩ | ⟨hother, _⟩⟩
    · simp at hnone
    · rfl
    · exact absurd (Option.some.inj hreplaced).symm hother
  have hs := not_prefix_of_isAtOrAbove ht hsource hobject' hd' hup hne
  right
  rcases hcases with ⟨hnone, rfl⟩ | ⟨replaced, hreplaced, hup', hcases⟩
  · refine moves_relocated ht hobject he hobject' hd' hname' hs (fun hpre => ?_) (by simp [hnone])
    have := objectOf?_of_prefix (by simp) hpre (by rw [hsource]; rfl)
    simp [htarget, hnone] at this
  have ht' := not_prefix_of_isAtOrAbove ht (htarget.trans hreplaced) hobject hd hup' (Ne.symm hne)
  rcases hcases with ⟨rfl, rfl⟩ | ⟨_, hempty, rfl⟩
  · exact moves_refl ht hsource (htarget.trans hreplaced) hs ht'
  · apply moves_relocated ht hobject he hobject' hd' hname' hs ht'
    intro other hother
    rw [hreplaced] at hother
    obtain rfl := Option.some.inj hother
    exact hempty

end Renaming

end Operations

end InodeBridge.Host
