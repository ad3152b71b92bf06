import InodeBridge.Host.Entries
import InodeBridge.Proofs.Host.Tree

/-! # What changes of a host do to its tree

A host grows if its names stay and new ones may come.  Changing the content or the stamps of an object
is no more than that, and so is naming an object anew.  Whatever is named or taken out in a directory,
what does not lead through that name stays where it is.
-/
namespace InodeBridge.Host

/-- A host that keeps its names and its links, and may have more of them. -/
structure Grows (h h' : Host) : Prop where
  root_eq : h'.root = h.root
  kept : ∀ {d name id}, h.entry? d name = some id → h'.entry? d name = some id
  exists_kept : ∀ {id}, (h.object? id).isSome → (h'.object? id).isSome
  link_kept : ∀ {id}, (h.object? id).isSome → h'.linkContent? id = h.linkContent? id
  tree : h.IsTree → h'.IsTree

variable {h h' : Host} {id x : ObjectId} {steps : Location} {location : Location}

theorem Grows.refl (h : Host) : h.Grows h :=
  ⟨rfl, fun he => he, fun he => he, fun _ => rfl, fun ht => ht⟩

theorem Grows.trans {mid : Host} (first : h.Grows mid) (rest : mid.Grows h') : h.Grows h' where
  root_eq := rest.root_eq.trans first.root_eq
  kept he := rest.kept (first.kept he)
  exists_kept he := rest.exists_kept (first.exists_kept he)
  link_kept he := (rest.link_kept (first.exists_kept he)).trans (first.link_kept he)
  tree ht := rest.tree (first.tree ht)

theorem Grows.below? (hg : h.Grows h') (hs : h.below? id steps = some x) :
    h'.below? id steps = some x := by
  induction steps generalizing id with
  | nil => exact hs
  | cons c steps ih =>
    rw [below?_cons] at hs ⊢
    obtain ⟨mid, hmid, hrest⟩ := Option.bind_eq_some_iff.1 hs
    obtain ⟨name, rfl, he⟩ := step?_eq_some hmid
    rw [step?, hg.kept he]
    exact ih hrest

theorem Grows.objectOf? (hg : h.Grows h') (hs : h.objectOf? location = some id) :
    h'.objectOf? location = some id := by
  cases location with
  | nil => exact hs
  | cons c steps =>
    cases c with
    | root =>
      rw [Host.objectOf?, hg.root_eq]
      exact hg.below? hs
    | _ => exact hs

def Node.outline : Node → Node
  | .file _ => .file .empty
  | n => n

/-- A directory with other entries and another parent; any other object as it is. -/
def Node.redirect (f : FiniteMap Name ObjectId → FiniteMap Name ObjectId)
    (g : ObjectId → ObjectId) : Node → Node
  | .directory entries parent => .directory (f entries) (g parent)
  | n => n

theorem object?_alter (h : Host) (f : Object → Object) :
    (h.alter id f).object? x = (h.object? x).map fun o => if x = id then f o else o := by
  rw [object?, alter, FiniteMap.get?_modify]
  by_cases hx : x = id
  · subst hx
    simp [object?]
  · simp [hx, object?]

theorem node?_alter (h : Host) {f : Object → Object} {g : Node → Node}
    (hf : ∀ o, (f o).node = g o.node) :
    (h.alter id f).node? x = (h.node? x).map fun n => if x = id then g n else n := by
  rw [node?, object?_alter, node?, Option.map_map, Option.map_map]
  congr 1
  funext o
  by_cases hx : x = id <;> simp [hx, hf]

theorem node?_isSome (h : Host) (id : ObjectId) : (h.node? id).isSome = (h.object? id).isSome := by
  simp [node?]

theorem node?_of_content? {content : Content} (hc : h.content? id = some content) :
    h.node? id = some (.file content) := by
  rw [content?] at hc
  split at hc
  next hnode =>
    obtain rfl := Option.some.inj hc
    exact hnode
  · cases hc

section Redirect

variable {f : FiniteMap Name ObjectId → FiniteMap Name ObjectId} {g : ObjectId → ObjectId}

theorem entries?_of_redirect (hx : h'.node? x = (h.node? x).map (Node.redirect f g)) :
    h'.entries? x = (h.entries? x).map f := by
  rw [entries?, entries?, hx]
  cases h.node? x with
  | none => rfl
  | some n => cases n <;> rfl

theorem parent_of_redirect (hx : h'.node? x = (h.node? x).map (Node.redirect f g)) :
    h'.parent x = if h.isDirectory x then g (h.parent x) else h.parent x := by
  rw [parent, parent, isDirectory, entries?, hx]
  cases h.node? x with
  | none => rfl
  | some n => cases n <;> rfl

theorem linkContent?_of_redirect (hx : h'.node? x = (h.node? x).map (Node.redirect f g)) :
    h'.linkContent? x = h.linkContent? x := by
  rw [linkContent?, linkContent?, hx]
  cases h.node? x with
  | none => rfl
  | some n => cases n <;> rfl

end Redirect

section Outline

variable (hx : (h'.node? x).map Node.outline = (h.node? x).map Node.outline)

include hx

theorem entries?_of_outline : h'.entries? x = h.entries? x := by
  have key : ∀ h : Host, h.entries? x = ((h.node? x).map Node.outline).bind fun
      | .directory entries _ => some entries
      | _ => none := by
    intro h
    rw [entries?]
    rcases h.node? x with _ | n
    · rfl
    · cases n <;> rfl
  rw [key, key, hx]

theorem parent_of_outline : h'.parent x = h.parent x := by
  have key : ∀ h : Host, h.parent x = (((h.node? x).map Node.outline).bind fun
      | .directory _ parent => some parent
      | _ => none).getD x := by
    intro h
    rw [parent]
    rcases h.node? x with _ | n
    · rfl
    · cases n <;> rfl
  rw [key, key, hx]

theorem linkContent?_of_outline : h'.linkContent? x = h.linkContent? x := by
  rw [linkContent?, linkContent?]
  cases hn : h.node? x with
  | none =>
    rw [hn] at hx
    rw [Option.map_eq_none_iff.1 hx]
  | some n =>
    rw [hn] at hx
    obtain ⟨n', hn', houtline⟩ := Option.map_eq_some_iff.1 hx
    rw [hn']
    cases n <;> cases n' <;> cases houtline <;> rfl

end Outline

theorem grows_of_outline (hroot : h'.root = h.root) (hnext : h'.nextObject = h.nextObject)
    (hworking : h'.workingDirectory = h.workingDirectory)
    (hnode : ∀ id, (h'.node? id).map Node.outline = (h.node? id).map Node.outline) :
    h.Grows h' := by
  have hentry : h'.entry? = h.entry? := by
    funext d name
    rw [Host.entry?, entry?, entries?_of_outline (hnode d)]
  have hdirectory : h'.isDirectory = h.isDirectory := by
    funext d
    rw [isDirectory, isDirectory, entries?_of_outline (hnode d)]
  have hparent : h'.parent = h.parent := funext fun d => parent_of_outline (hnode d)
  have hexists : ∀ id, (h'.object? id).isSome = (h.object? id).isSome := by
    intro id
    have := congrArg Option.isSome (hnode id)
    simpa [node?_isSome] using this
  refine ⟨hroot, fun he => hentry ▸ he, fun he => hexists _ ▸ he,
    fun _ => linkContent?_of_outline (hnode _), fun ht => ?_⟩
  constructor
  · rw [hdirectory, hroot]
    exact ht.root_directory
  · rw [hentry, hroot]
    exact ht.root_unnamed
  · rw [hexists, hworking]
    exact ht.working_exists
  · simp only [hentry, hexists]
    exact ht.named_exists
  · simp only [hexists, hparent]
    exact ht.parent_exists
  · rw [hentry]
    exact ht.name_isEntry
  · rw [hentry, hdirectory, hparent]
    exact ht.parent_eq
  · rw [hentry, hdirectory]
    exact ht.name_unique
  · simp only [hexists, hnext]
    exact ht.exists_below

theorem outline_alter (h : Host) (id x : ObjectId) {f : Object → Object}
    (hf : ∀ o, (f o).node.outline = o.node.outline) :
    ((h.alter id f).node? x).map Node.outline = (h.node? x).map Node.outline := by
  rw [node?, object?_alter, node?, Option.map_map, Option.map_map, Option.map_map]
  congr 1
  funext o
  by_cases hx : x = id <;> simp [hx, hf]

/-- Changing an object in a way that does not show in its outline leaves the tree as it is. -/
theorem grows_alter (h : Host) (id : ObjectId) {f : Object → Object}
    (hf : ∀ o, (f o).node.outline = o.node.outline) : h.Grows (h.alter id f) :=
  grows_of_outline rfl rfl rfl fun x => outline_alter h id x hf

theorem grows_alterContent (h : Host) (id : ObjectId) (f : Content → Content) :
    h.Grows (h.alterContent id f) := by
  apply grows_alter h id
  intro o
  split
  next hnode => rw [hnode]; rfl
  · rfl

section Entries

variable {d directory : ObjectId} {name name' : Name}

theorem node?_alterEntries (h : Host) (f : FiniteMap Name ObjectId → FiniteMap Name ObjectId) :
    (h.alterEntries directory f).node? x =
      (h.node? x).map (Node.redirect (fun es => if x = directory then f es else es) fun p => p) := by
  unfold alterEntries
  refine (node?_alter h (g := Node.redirect f fun p => p) fun o => ?_).trans ?_
  · split
    next hn => rw [hn]; rfl
    next hn => cases hnode : o.node <;> simp_all [Node.redirect]
  · congr 1
    funext n
    by_cases hx : x = directory
    · simp [hx]
    · cases n <;> simp [hx, Node.redirect]

theorem node?_attach (h : Host) :
    (h.attach directory name id).node? x = (h.node? x).map
      (Node.redirect (fun es => if x = directory then es.insert name id else es)
        fun p => if x = id then directory else p) := by
  unfold attach
  refine (node?_alter _ (g := Node.redirect (fun es => es) fun _ => directory) fun o => ?_).trans ?_
  · split
    next hn => rw [hn]; rfl
    next hn => cases hnode : o.node <;> simp_all [Node.redirect]
  · rw [node?_alterEntries, Option.map_map]
    congr 1
    funext n
    by_cases hx : x = id <;> cases n <;> simp [hx, Node.redirect]

theorem entry?_attach (hd : h.isDirectory directory = true) :
    entry? (h.attach directory name id) d name' =
      if d = directory ∧ name' = name then some id else h.entry? d name' := by
  rw [Host.entry?, entries?_of_redirect (node?_attach h), entry?]
  by_cases hx : d = directory
  · subst hx
    obtain ⟨entries, hentries⟩ := Option.isSome_iff_exists.1 hd
    simp [hentries, FiniteMap.get?_insert]
  · cases h.entries? d <;> simp [hx]

theorem isDirectory_attach : (h.attach directory name id).isDirectory x = h.isDirectory x := by
  rw [isDirectory, entries?_of_redirect (node?_attach h), Option.isSome_map]
  rfl

theorem parent_attach :
    (h.attach directory name id).parent x =
      if h.isDirectory x ∧ x = id then directory else h.parent x := by
  rw [parent_of_redirect (node?_attach h)]
  by_cases hx : h.isDirectory x <;> simp [hx]

theorem object?_attach_isSome :
    ((h.attach directory name id).object? x).isSome = (h.object? x).isSome := by
  rw [← node?_isSome, node?_attach, Option.isSome_map, node?_isSome]

theorem entry?_detach :
    entry? (h.detach directory name) d name' =
      if d = directory ∧ name' = name then none else h.entry? d name' := by
  rw [Host.entry?, detach, entries?_of_redirect (node?_alterEntries h _), entry?]
  by_cases hx : d = directory
  · subst hx
    cases h.entries? d <;> simp [FiniteMap.get?_erase]
  · cases h.entries? d <;> simp [hx]

theorem isDirectory_detach : (h.detach directory name).isDirectory x = h.isDirectory x := by
  rw [isDirectory, detach, entries?_of_redirect (node?_alterEntries h _), Option.isSome_map]
  rfl

theorem parent_detach : (h.detach directory name).parent x = h.parent x := by
  rw [detach, parent_of_redirect (node?_alterEntries h _), ite_self]

theorem object?_detach_isSome :
    ((h.detach directory name).object? x).isSome = (h.object? x).isSome := by
  rw [← node?_isSome, detach, node?_alterEntries, Option.isSome_map, node?_isSome]

theorem IsTree.detach (ht : h.IsTree) (directory : ObjectId) (name : Name) :
    (h.detach directory name).IsTree := by
  have hentry : ∀ {d name' x}, entry? (h.detach directory name) d name' = some x →
      h.entry? d name' = some x := by
    intro d name' x he
    rw [entry?_detach] at he
    split at he
    · simp at he
    · exact he
  exact {
    root_directory := isDirectory_detach.trans ht.root_directory
    root_unnamed := fun he => ht.root_unnamed (hentry he)
    working_exists := object?_detach_isSome.trans ht.working_exists
    named_exists := fun he => object?_detach_isSome.trans (ht.named_exists (hentry he))
    parent_exists := fun he => by
      rw [object?_detach_isSome] at he ⊢
      rw [parent_detach]
      exact ht.parent_exists he
    name_isEntry := fun he => ht.name_isEntry (hentry he)
    parent_eq := fun he hdir => by
      rw [isDirectory_detach] at hdir
      rw [parent_detach]
      exact ht.parent_eq (hentry he) hdir
    name_unique := fun he he' hdir => ht.name_unique (hentry he) (hentry he')
      (by rwa [isDirectory_detach] at hdir)
    exists_below := fun he => ht.exists_below (by rwa [object?_detach_isSome] at he) }

/-- Naming an object in a directory leaves a tree, if no other name leads to it or it is no
directory. -/
theorem IsTree.attach (ht : h.IsTree) (hd : h.isDirectory directory = true)
    (hname : name.isEntry = true) (hid : (h.object? id).isSome) (hroot : id ≠ h.root)
    (honly : ∀ d name', h.entry? d name' = some id → h.isDirectory id = true →
      d = directory ∧ name' = name) : (h.attach directory name id).IsTree := by
  have hentry : ∀ {d name' x}, entry? (h.attach directory name id) d name' = some x →
      (d = directory ∧ name' = name ∧ x = id) ∨
        (¬ (d = directory ∧ name' = name) ∧ h.entry? d name' = some x) := by
    intro d name' x he
    rw [entry?_attach hd] at he
    split at he
    next hat => exact .inl ⟨hat.1, hat.2, (Option.some.inj he).symm⟩
    next hat => exact .inr ⟨hat, he⟩
  constructor
  · exact isDirectory_attach.trans ht.root_directory
  · intro d name' he
    rcases hentry he with ⟨_, _, hx⟩ | ⟨_, hold⟩
    · exact hroot hx.symm
    · exact ht.root_unnamed hold
  · exact object?_attach_isSome.trans ht.working_exists
  · intro d name' x he
    rw [object?_attach_isSome]
    rcases hentry he with ⟨_, _, rfl⟩ | ⟨_, hold⟩
    · exact hid
    · exact ht.named_exists hold
  · intro x hx
    rw [object?_attach_isSome] at hx ⊢
    rw [parent_attach]
    split
    · exact exists_of_isDirectory hd
    · exact ht.parent_exists hx
  · intro d name' x he
    rcases hentry he with ⟨_, rfl, _⟩ | ⟨_, hold⟩
    · exact hname
    · exact ht.name_isEntry hold
  · intro d name' x he hdir
    rw [isDirectory_attach] at hdir
    rw [parent_attach]
    rcases hentry he with ⟨rfl, _, rfl⟩ | ⟨hat, hold⟩
    · rw [if_pos ⟨hdir, rfl⟩]
    · rw [if_neg, ht.parent_eq hold hdir]
      rintro ⟨_, rfl⟩
      exact hat (honly d name' hold hdir)
  · intro d name' name'' x he he' hdir
    rw [isDirectory_attach] at hdir
    rcases hentry he with ⟨rfl, rfl, rfl⟩ | ⟨hat, hold⟩
    · rcases hentry he' with ⟨_, rfl, _⟩ | ⟨hat', hold'⟩
      · rfl
      · exact absurd (honly _ _ hold' hdir) hat'
    · rcases hentry he' with ⟨rfl, rfl, rfl⟩ | ⟨_, hold'⟩
      · exact absurd (honly _ _ hold hdir) hat
      · exact ht.name_unique hold hold' hdir
  · intro x he
    rw [object?_attach_isSome] at he
    exact ht.exists_below he

theorem grows_attach (hd : h.isDirectory directory = true) (hfree : h.entry? directory name = none)
    (hname : name.isEntry = true) (hid : (h.object? id).isSome)
    (hnamed : h.IsTree → id ≠ h.root ∧
      ∀ d name', h.entry? d name' = some id → h.isDirectory id = false) :
    h.Grows (h.attach directory name id) where
  root_eq := rfl
  kept he := by
    rw [entry?_attach hd, if_neg, he]
    rintro ⟨rfl, rfl⟩
    simp [hfree] at he
  exists_kept he := by rwa [object?_attach_isSome]
  link_kept _ := linkContent?_of_redirect (node?_attach h)
  tree ht := by
    obtain ⟨hroot, hfile⟩ := hnamed ht
    apply ht.attach hd hname hid hroot
    intro d name' he hdir
    rw [hfile d name' he] at hdir
    simp at hdir

end Entries

section Make

variable {node : Node} {permissions : UInt16}

theorem node?_make (h : Host) (node : Node) (permissions : UInt16) (x : ObjectId) :
    (h.make node permissions).2.node? x = if x = h.nextObject then some node else h.node? x := by
  rw [node?, object?, make, FiniteMap.get?_insert]
  split
  · rfl
  · rfl

theorem node?_nextObject (ht : h.IsTree) : h.node? h.nextObject = none := by
  rw [← Option.not_isSome_iff_eq_none, node?_isSome]
  exact fun he => Nat.lt_irrefl _ (ht.exists_below he)

theorem node?_make_of_exists (ht : h.IsTree) (permissions : UInt16) (hx : (h.object? x).isSome) :
    (h.make node permissions).2.node? x = h.node? x := by
  rw [node?_make, if_neg]
  rintro rfl
  rw [← node?_isSome, node?_nextObject ht] at hx
  simp at hx

theorem entry?_make (ht : h.IsTree) (permissions : UInt16)
    (hnode : ∀ entries parent, node = .directory entries parent → entries = .empty)
    (d : ObjectId) (name : Name) :
    entry? (h.make node permissions).2 d name = h.entry? d name := by
  rw [Host.entry?, entries?, node?_make, entry?, entries?]
  by_cases hd : d = h.nextObject
  · subst hd
    rw [if_pos rfl, node?_nextObject ht]
    cases node with
    | directory entries parent => simp [hnode entries parent rfl]
    | _ => rfl
  · rw [if_neg hd]

theorem object?_make_isSome :
    ((h.make node permissions).2.object? x).isSome =
      (decide (x = h.nextObject) || (h.object? x).isSome) := by
  rw [← node?_isSome, node?_make, ← node?_isSome]
  by_cases hx : x = h.nextObject <;> simp [hx]

theorem isDirectory_make_of_exists (ht : h.IsTree) (hx : (h.object? x).isSome) :
    (h.make node permissions).2.isDirectory x = h.isDirectory x := by
  rw [isDirectory, entries?, node?_make_of_exists ht permissions hx]
  rfl

/-- The directory above the new object is the one given with it, or the object itself. -/
theorem exists_parent_make
    (hnode : ∀ entries parent, node = .directory entries parent → (h.object? parent).isSome) :
    ((h.make node permissions).2.object?
      ((h.make node permissions).2.parent h.nextObject)).isSome := by
  rw [object?_make_isSome, parent, node?_make, if_pos rfl]
  cases node with
  | directory entries parent => simp [hnode entries parent rfl]
  | _ => simp

theorem IsTree.make (ht : h.IsTree) (permissions : UInt16)
    (hnode : ∀ entries parent, node = .directory entries parent →
      entries = .empty ∧ (h.object? parent).isSome) : (h.make node permissions).2.IsTree := by
  have hentry := entry?_make ht permissions fun entries parent heq => (hnode entries parent heq).1
  have hobject : ∀ {x}, (h.object? x).isSome → ((h.make node permissions).2.object? x).isSome := by
    intro x hx
    simp [object?_make_isSome, hx]
  have hdirectory : ∀ {x}, (h.object? x).isSome →
      (h.make node permissions).2.isDirectory x = true → h.isDirectory x = true := by
    intro x hx hdir
    rwa [isDirectory_make_of_exists ht hx] at hdir
  constructor
  · exact (isDirectory_make_of_exists ht ht.root_exists).trans ht.root_directory
  · simp only [hentry]
    exact ht.root_unnamed
  · exact hobject ht.working_exists
  · simp only [hentry]
    exact fun he => hobject (ht.named_exists he)
  · intro x hx
    by_cases hnew : x = h.nextObject
    · rw [hnew]
      exact exists_parent_make fun entries parent heq => (hnode entries parent heq).2
    · have hold : (h.object? x).isSome := by simpa [object?_make_isSome, hnew] using hx
      rw [parent, node?_make, if_neg hnew]
      exact hobject (ht.parent_exists hold)
  · simp only [hentry]
    exact ht.name_isEntry
  · simp only [hentry]
    intro d name x he hdir
    have hx := ht.named_exists he
    rw [parent, node?_make_of_exists ht permissions hx]
    exact ht.parent_eq he (hdirectory hx hdir)
  · simp only [hentry]
    exact fun he he' hdir => ht.name_unique he he' (hdirectory (ht.named_exists he) hdir)
  · intro x he
    change x < h.nextObject + 1
    by_cases hnew : x = h.nextObject
    · exact hnew ▸ Nat.lt_succ_self _
    · have hold : (h.object? x).isSome := by simpa [object?_make_isSome, hnew] using he
      exact Nat.lt_succ_of_lt (ht.exists_below hold)

theorem grows_make (ht : h.IsTree) (permissions : UInt16)
    (hnode : ∀ entries parent, node = .directory entries parent →
      entries = .empty ∧ (h.object? parent).isSome) :
    h.Grows (h.make node permissions).2 where
  root_eq := rfl
  kept he := by
    rw [entry?_make ht permissions fun entries parent heq => (hnode entries parent heq).1]
    exact he
  exists_kept he := by simp [object?_make_isSome, he]
  link_kept he := by
    rw [linkContent?, node?_make_of_exists ht permissions he]
    rfl
  tree _ := ht.make permissions hnode

theorem grows_add (ht : h.IsTree) {directory : ObjectId} {name : Name} (permissions : UInt16)
    (hd : h.isDirectory directory = true) (hfree : h.entry? directory name = none)
    (hname : name.isEntry = true)
    (hnode : ∀ entries parent, node = .directory entries parent →
      entries = .empty ∧ (h.object? parent).isSome) :
    h.Grows (h.add directory name node permissions).2 := by
  have hmake := grows_make ht permissions hnode
  have hentry := entry?_make ht permissions fun entries parent heq => (hnode entries parent heq).1
  have hnone : (h.object? h.nextObject).isSome = false := by
    rw [← node?_isSome, node?_nextObject ht]
    rfl
  have hd' : (h.make node permissions).2.isDirectory directory = true :=
    (isDirectory_make_of_exists ht (exists_of_isDirectory hd)).trans hd
  refine hmake.trans (grows_attach hd' ((hentry _ _).trans hfree) hname ?_ fun _ => ⟨?_, ?_⟩)
  · rw [object?_make_isSome]
    exact Bool.or_eq_true_iff.2 (.inl (decide_eq_true rfl))
  · intro heq
    change h.nextObject = h.root at heq
    rw [heq, ht.root_exists] at hnone
    simp at hnone
  · intro d name' he
    rw [hentry] at he
    change h.entry? d name' = some h.nextObject at he
    rw [ht.named_exists he] at hnone
    simp at hnone

end Make

end InodeBridge.Host
