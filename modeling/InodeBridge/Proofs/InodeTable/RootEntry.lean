import InodeBridge.Proofs.InodeTable.Calls
import InodeBridge.Proofs.InodeTable.Resolving

/-! # The entry of the root

The root is bound to its inode when a table is made.  Binding, unbinding and forgetting never take this
away; a rename does if it moves the root's binding to another place, or another binding to the place of
the root.  That is the only way, whatever calls came before, renames between nested paths among them.
-/
namespace InodeBridge.InodeTable

variable {t t' : InodeTable} {root path source target : Path}

/-- The root's inode stands for the root, and the root is bound to it. -/
structure Seated (t : InodeTable) (root : Path) : Prop where
  entry : ∃ p, t.resolve? rootInode = some p ∧ p.components = root.components
  binding : t.inodeOf? root = some rootInode

abbrev goal (source target : Path) (m : Location × Binding) : Location :=
  (renamedPath source target m.2.spelling).components

/-- Whether a call moves the root's binding away, or another one to the place of the root. -/
def Call.unseats (root : Path) : Call → InodeTable → Bool
  | .rename source target, t =>
    source.components != target.components &&
      ((t.unbindPath target).2.bindingsWithin source).any fun m =>
        (m.1 == root.components) != (goal source target m == root.components)
  | _, _ => false

/-- Whether a call is no rename from or to the root or what is above it. -/
def Call.sparesRoot (root : Path) : Call → Bool
  | .rename source target =>
    source.components == target.components ||
      !source.components.isPrefixOf root.components && !target.components.isPrefixOf root.components
  | _ => true

inductive Steps : InodeTable → List (Call × InodeTable) → Prop
  | nil (t : InodeTable) : Steps t []
  | cons {t t' : InodeTable} {c : Call} {steps : List (Call × InodeTable)} (step : c.Makes t t')
    (rest : Steps t' steps) : Steps t ((c, t') :: steps)

def anyUnseats (root : Path) : InodeTable → List (Call × InodeTable) → Bool
  | _, [] => false
  | t, (c, t') :: steps => c.unseats root t || anyUnseats root t' steps

/-- The root is seated, no other location is bound to its inode, and a location is kept under its own
steps. -/
structure Rooted (t : InodeTable) (root : Path) : Prop extends t.Seated root where
  alone : ∀ {l b}, t.byLocation.get? l = some b → b.inode = rootInode → l = root.components
  spelling_components : ∀ {l b}, t.byLocation.get? l = some b → b.spelling.components = l

theorem rooted_withNumbering (number : Numbering) (root : Path) :
    (withNumbering number root).Rooted root where
  entry := ⟨root, by simp [resolve?, withNumbering], rfl⟩
  binding := by simp [inodeOf?, withNumbering]
  alone {l b} hb _ := by
    simp only [withNumbering, FiniteMap.get?_insert, FiniteMap.get?_empty] at hb
    split at hb
    next hl => exact hl
    · cases hb
  spelling_components := (consistent_withNumbering number root).spelling_components

namespace Rooted

/-- What keeps the root's entry and binding, and binds nothing else to its inode. -/
theorem of_kept (h : t.Rooted root)
    (hentry : ∀ {p}, t.resolve? rootInode = some p → t'.resolve? rootInode = some p)
    (hbinding : t'.byLocation.get? root.components = t.byLocation.get? root.components)
    (hothers : ∀ {l b}, t'.byLocation.get? l = some b →
      t.byLocation.get? l = some b ∨ b.spelling.components = l ∧ b.inode ≠ rootInode) :
    t'.Rooted root where
  entry := by
    obtain ⟨p, hp, hc⟩ := h.entry
    exact ⟨p, hentry hp, hc⟩
  binding := by
    rw [inodeOf?, hbinding]
    exact h.binding
  alone hb hi := (hothers hb).elim (h.alone · hi) fun hnew => absurd hi hnew.2
  spelling_components hb := (hothers hb).elim h.spelling_components And.left

theorem inode_eq_iff (h : t.Rooted root) {l : Location} {b : Binding}
    (hb : t.byLocation.get? l = some b) : b.inode = rootInode ↔ l = root.components := by
  constructor
  · exact h.alone hb
  · rintro rfl
    have hroot := h.binding
    rw [inodeOf?, hb] at hroot
    exact Option.some.inj hroot

theorem insert (h : t.Rooted root) (path : Path) (lookups : Nat) :
    (t.insert path lookups).2.Rooted root := by
  have hbinds : t.Binds (t.insert path lookups).2 fun _ => True := binds_insert lookups trivial
  apply h.of_kept hbinds.kept
  · unfold InodeTable.insert
    split
    · rfl
    next hp =>
      split
      · rw [FiniteMap.get?_insert, if_neg]
        intro hc
        rw [inodeOf?_congr hc.symm, h.binding] at hp
        cases hp
      · rfl
  · intro l b hb
    unfold InodeTable.insert at hb
    split at hb
    · exact .inl hb
    · split at hb
      next inode hfree =>
        rw [FiniteMap.get?_insert] at hb
        split at hb
        next hl =>
          cases hb
          exact .inr ⟨hl.symm, (UInt64.ne_of_lt (isFree_of_free? hfree).1).symm⟩
        · exact .inl hb
      · exact .inl hb

end Rooted

/-- Some locations lose their bindings, but none that is bound to the root's inode. -/
def Unlocates (t t' : InodeTable) : Prop :=
  ∀ l, t'.byLocation.get? l = t.byLocation.get? l ∨
    t'.byLocation.get? l = none ∧ (t.byLocation.get? l).map (·.inode) ≠ some rootInode

theorem Rooted.of_unlocates (h : t.Rooted root) (hdrops : t.Drops t') (hlocates : t.Unlocates t') :
    t'.Rooted root := by
  apply h.of_kept
  · intro p hp
    rw [hdrops.root_kept, hp]
  · rcases hlocates root.components with heq | ⟨_, hne⟩
    · exact heq
    · exact absurd h.binding hne
  · intro l b hb
    rcases hlocates l with heq | ⟨hnone, _⟩
    · exact .inl (heq ▸ hb)
    · rw [hnone] at hb
      cases hb

theorem Unlocates.refl (t : InodeTable) : t.Unlocates t := fun _ => .inl rfl

theorem unlocates_of_erase {byInode : FiniteMap Inode Entry} {inode : Inode}
    (hpath : t.inodeOf? path = some inode) (hne : inode ≠ rootInode) :
    t.Unlocates { t with byInode, byLocation := t.byLocation.erase path.components } := by
  intro l
  rw [FiniteMap.get?_erase]
  split
  next hl =>
    refine .inr ⟨rfl, ?_⟩
    rw [hl]
    intro hroot
    exact hne (Option.some.inj (hpath.symm.trans hroot))
  · exact .inl rfl

theorem unlocates_unbindPath (t : InodeTable) (path : Path) : t.Unlocates (t.unbindPath path).2 := by
  unfold unbindPath
  split
  · exact .refl t
  next inode hp =>
    split
    · exact .refl t
    next hne => exact unlocates_of_erase hp hne

theorem unlocates_unbind (t : InodeTable) (inode : Inode) : t.Unlocates (t.unbind inode) := by
  unfold unbind
  split
  · exact .refl t
  next hne =>
    split
    · exact .refl t
    next entry he =>
      unfold eraseLocation
      split
      next hp => exact unlocates_of_erase hp hne
      · exact fun _ => .inl rfl

theorem unlocates_forget (t : InodeTable) (inode : Inode) (lookups : Nat) :
    t.Unlocates (t.forget inode lookups).2 := by
  unfold forget
  split
  · exact .refl t
  · split
    · exact .refl t
    · dsimp only
      split
      · exact fun _ => .inl rfl
      · exact unlocates_unbind t inode

section Relocate

variable {m : Location × Binding} {order : List (Location × Binding)}

theorem inode_relocate_goal :
    ((relocate source target t m).byLocation.get? (goal source target m)).map (·.inode) =
      some m.2.inode := by
  rw [get?_byLocation_relocate (l := m.1) (b := m.2), if_pos rfl]
  rfl

theorem get?_byLocation_relocate_of_ne {l : Location} (hgoal : l ≠ goal source target m)
    (hl : l ≠ m.1) : (relocate source target t m).byLocation.get? l = t.byLocation.get? l := by
  rw [get?_byLocation_relocate (l := m.1) (b := m.2), if_neg hgoal, if_neg hl]

/-- A step that moves an inode that is not the root's keeps or drops the root's entry; it drops it if
it finds the root's inode where it lands. -/
theorem get?_root_relocate (hm : m.2.inode ≠ rootInode) :
    (relocate source target t m).byInode.get? rootInode =
      if ((t.byLocation.erase m.1).get? (goal source target m)).map (·.inode) = some rootInode
      then none else t.byInode.get? rootInode := by
  rw [get?_byInode_relocate_eq (l := m.1) (b := m.2), if_neg (Ne.symm hm)]

theorem resolve?_root_relocate (hm : m.2.inode = rootInode) :
    (relocate source target t m).resolve? rootInode =
      (t.resolve? rootInode).map fun _ => renamedPath source target m.2.spelling := by
  rw [resolve?, get?_byInode_relocate_eq (l := m.1) (b := m.2), if_pos hm.symm, resolve?]
  cases t.byInode.get? rootInode <;> rfl

/-- Where a step leaves a binding: it was there, or it is the one that was moved. -/
theorem of_get?_relocate
    (hspelling : ∀ {l b}, t.byLocation.get? l = some b → b.spelling.components = l) {l : Location}
    {b : Binding} (hb : (relocate source target t m).byLocation.get? l = some b) :
    t.byLocation.get? l = some b ∨
      l = goal source target m ∧ b.spelling.components = l ∧ b.inode = m.2.inode := by
  rw [get?_byLocation_relocate (l := m.1) (b := m.2)] at hb
  split at hb
  next hl =>
    cases hb
    refine .inr ⟨hl, ?_, rfl⟩
    -- the spelling is that of the binding it replaces, if it replaces one
    cases hprevious : (t.byLocation.erase m.1).get? l with
    | none => exact hl.symm
    | some old =>
      rw [FiniteMap.get?_erase] at hprevious
      split at hprevious
      · cases hprevious
      · have hspelled := hspelling hprevious
        simpa using hspelled
  · split at hb
    · cases hb
    · exact .inl hb

/-- The root stays bound to its inode over a step that moves the root to itself, or something else
elsewhere. -/
theorem inodeOf?_root_relocate (h : t.inodeOf? root = some rootInode)
    (hm : m.2.inode = rootInode ↔ m.1 = root.components)
    (hgoal : m.1 = root.components ↔ goal source target m = root.components) :
    (relocate source target t m).inodeOf? root = some rootInode := by
  by_cases hroot : m.1 = root.components
  · rw [inodeOf?, ← hgoal.1 hroot, inode_relocate_goal, hm.2 hroot]
  · have hlands := mt hgoal.2 hroot
    rw [inodeOf?, get?_byLocation_relocate_of_ne (Ne.symm hlands) (Ne.symm hroot)]
    exact h

/-- A step seats the root again if it moves the root to itself, or something else elsewhere. -/
theorem Rooted.relocate (h : t.Rooted root) (hm : m.2.inode = rootInode ↔ m.1 = root.components)
    (hgoal : m.1 = root.components ↔ goal source target m = root.components) :
    (InodeTable.relocate source target t m).Rooted root := by
  by_cases hroot : m.1 = root.components
  · have hlands := hgoal.1 hroot
    have hinode := hm.2 hroot
    obtain ⟨p, hp, _⟩ := h.entry
    refine ⟨⟨⟨_, ?_, hlands⟩, inodeOf?_root_relocate h.binding hm hgoal⟩, ?_, ?_⟩
    · rw [resolve?_root_relocate hinode, hp]
      rfl
    · intro l b hb hi
      rcases of_get?_relocate h.spelling_components hb with hb | ⟨hl, _⟩
      · exact h.alone hb hi
      · rw [hl, hlands]
    · intro l b hb
      rcases of_get?_relocate h.spelling_components hb with hb | ⟨_, hspelled, _⟩
      · exact h.spelling_components hb
      · exact hspelled
  · have hlands := mt hgoal.2 hroot
    have hinode := mt hm.1 hroot
    apply h.of_kept
    · intro p hp
      rw [resolve?, get?_root_relocate hinode, if_neg, ← resolve?, hp]
      rw [FiniteMap.get?_erase]
      split
      · intro hnone
        cases hnone
      · intro hfound
        obtain ⟨b, hb, hi⟩ := Option.map_eq_some_iff.1 hfound
        exact hlands (h.alone hb hi)
    · exact get?_byLocation_relocate_of_ne (Ne.symm hlands) (Ne.symm hroot)
    · intro l b hb
      rcases of_get?_relocate h.spelling_components hb with hb | ⟨_, hspelled, hi⟩
      · exact .inl hb
      · exact .inr ⟨hspelled, hi ▸ hinode⟩

theorem Rooted.foldl_relocate (h : t.Rooted root)
    (horder : ∀ m ∈ order, (m.2.inode = rootInode ↔ m.1 = root.components) ∧
      (m.1 = root.components ↔ goal source target m = root.components)) :
    (order.foldl (InodeTable.relocate source target) t).Rooted root := by
  induction order generalizing t with
  | nil => exact h
  | cons m order ih =>
    obtain ⟨⟨hm, hgoal⟩, hrest⟩ := List.forall_mem_cons.1 horder
    exact ih (h.relocate hm hgoal) hrest

def Astray (t : InodeTable) (root : Path) : Prop :=
  ∀ p, t.resolve? rootInode = some p → p.components ≠ root.components

theorem astray_relocate (h : m.2.inode = rootInode ∨ t.Astray root)
    (hgoal : m.2.inode = rootInode → goal source target m ≠ root.components) :
    (relocate source target t m).Astray root := by
  intro p hp
  by_cases hm : m.2.inode = rootInode
  · rw [resolve?_root_relocate hm] at hp
    obtain ⟨_, _, rfl⟩ := Option.map_eq_some_iff.1 hp
    exact hgoal hm
  · rw [resolve?, get?_root_relocate hm] at hp
    split at hp
    · cases hp
    · exact h.resolve_left hm p hp

/-- Once its own binding is moved away, the root's inode never stands for the root again. -/
theorem astray_foldl (h : (∃ m ∈ order, m.2.inode = rootInode) ∨ t.Astray root)
    (hgoal : ∀ m ∈ order, m.2.inode = rootInode → goal source target m ≠ root.components) :
    (order.foldl (relocate source target) t).Astray root := by
  induction order generalizing t with
  | nil => exact h.resolve_left (by simp)
  | cons m order ih =>
    obtain ⟨hm, hrest⟩ := List.forall_mem_cons.1 hgoal
    refine ih ?_ hrest
    rcases h with ⟨m', hmem, hroot⟩ | hastray
    · rcases List.mem_cons.1 hmem with rfl | hlater
      · exact .inr (astray_relocate (.inl hroot) hm)
      · exact .inl ⟨m', hlater, hroot⟩
    · exact .inr (astray_relocate (.inr hastray) hm)

theorem root_dropped_relocate (h : t.byInode.get? rootInode = none) :
    (relocate source target t m).byInode.get? rootInode = none := by
  by_cases hm : m.2.inode = rootInode
  · have hresolve : (relocate source target t m).resolve? rootInode = none := by
      rw [resolve?_root_relocate hm, resolve?, h]
      rfl
    exact Option.map_eq_none_iff.1 hresolve
  · rw [get?_root_relocate hm, h, ite_self]

/-- Where another binding lands on the root, the root's inode is dropped: up to then the root is bound
to it, and once dropped it stays so. -/
theorem root_dropped_foldl
    (h : t.byInode.get? rootInode = none ∨ t.inodeOf? root = some rootInode)
    (horder : ∀ m ∈ order, (m.2.inode = rootInode ↔ m.1 = root.components) ∧
      (m.1 = root.components → goal source target m = root.components))
    (hlands : t.byInode.get? rootInode = none ∨
      ∃ m ∈ order, m.1 ≠ root.components ∧ goal source target m = root.components) :
    (order.foldl (relocate source target) t).byInode.get? rootInode = none := by
  induction order generalizing t with
  | nil => exact hlands.resolve_right (by simp)
  | cons m order ih =>
    obtain ⟨⟨hm, hgoal⟩, hrest⟩ := List.forall_mem_cons.1 horder
    by_cases hdropped : t.byInode.get? rootInode = none
    · have hnone : (relocate source target t m).byInode.get? rootInode = none :=
        root_dropped_relocate hdropped
      exact ih (.inl hnone) hrest (.inl hnone)
    have hbound := h.resolve_left hdropped
    by_cases hfirst : m.1 ≠ root.components ∧ goal source target m = root.components
    · have hnone : (relocate source target t m).byInode.get? rootInode = none := by
        rw [get?_root_relocate (mt hm.1 hfirst.1), if_pos]
        rw [hfirst.2, FiniteMap.get?_erase, if_neg (Ne.symm hfirst.1)]
        exact hbound
      exact ih (.inl hnone) hrest (.inl hnone)
    · have hstays : m.1 = root.components ↔ goal source target m = root.components := by
        constructor
        · exact hgoal
        · intro hat
          apply Decidable.byContradiction
          exact fun hroot => hfirst ⟨hroot, hat⟩
      have hkept := inodeOf?_root_relocate hbound hm hstays
      refine ih (.inr hkept) hrest (.inr ?_)
      obtain ⟨m', hmem, hm'⟩ := hlands.resolve_left hdropped
      rcases List.mem_cons.1 hmem with rfl | hlater
      · exact absurd hm' hfirst
      · exact ⟨m', hlater, hm'⟩

end Relocate

theorem Call.unseats_rename_iff (differ : source.components ≠ target.components) :
    (Call.rename source target).unseats root t = true ↔
      ∃ m ∈ (t.unbindPath target).2.bindingsWithin source,
        ¬ (m.1 = root.components ↔ goal source target m = root.components) := by
  have hmoves : ∀ m : Location × Binding,
      ((m.1 == root.components) != (goal source target m == root.components)) = true ↔
        ¬ (m.1 = root.components ↔ goal source target m = root.components) := by
    intro m
    rw [bne_iff_ne, ne_eq, Bool.eq_iff_iff, beq_iff_eq, beq_iff_eq]
  rw [unseats, Bool.and_eq_true, bne_iff_ne, and_iff_right differ, List.any_eq_true]
  exact exists_congr fun m => and_congr_right fun _ => hmoves m

/-- Whatever order a rename visits its bindings in, it unseats the root exactly if it takes the root
elsewhere or something else to the root. -/
theorem Rooted.renameVisiting (h : t.Rooted root) {order : List (Location × Binding)}
    (hvisits : order.Perm ((t.unbindPath target).2.bindingsWithin source)) :
    ((∀ m ∈ order, (m.1 = root.components ↔ goal source target m = root.components)) →
      (t.renameVisiting source target order).Rooted root) ∧
    ((∃ m ∈ order, ¬ (m.1 = root.components ↔ goal source target m = root.components)) →
      ¬ (t.renameVisiting source target order).Seated root) := by
  have hcleared := h.of_unlocates (drops_unbindPath t target) (unlocates_unbindPath t target)
  have hinode : ∀ m ∈ order, (m.2.inode = rootInode ↔ m.1 = root.components) := fun m hm =>
    hcleared.inode_eq_iff (mem_bindingsWithin.1 (hvisits.mem_iff.1 hm)).1
  constructor
  · exact fun hstays => hcleared.foldl_relocate fun m hm => ⟨hinode m hm, hstays m hm⟩
  rintro ⟨m, hm, hmoved⟩ hseated
  obtain ⟨p, hp, hc⟩ := hseated.entry
  by_cases haway : ∃ m ∈ order, m.1 = root.components ∧ goal source target m ≠ root.components
  · -- the root's own binding is moved away, and it is the only one of its inode
    obtain ⟨m', hm', hroot, hgoal⟩ := haway
    have hastray : (t.renameVisiting source target order).Astray root := by
      apply astray_foldl (.inl ⟨m', hm', (hinode m' hm').2 hroot⟩)
      intro m'' hm'' hi
      have hat' := (mem_bindingsWithin.1 (hvisits.mem_iff.1 hm')).1
      have hat'' := (mem_bindingsWithin.1 (hvisits.mem_iff.1 hm'')).1
      rw [(hinode m'' hm'').1 hi, ← hroot, hat'] at hat''
      rwa [goal, ← Option.some.inj hat'']
    exact hastray p hp hc
  · -- the root's own binding stays, and another one lands on it
    have hkept : ∀ m ∈ order, m.1 = root.components → goal source target m = root.components := by
      intro m' hm' hroot
      apply Decidable.byContradiction
      exact fun hgoal => haway ⟨m', hm', hroot, hgoal⟩
    have hlands : m.1 ≠ root.components ∧ goal source target m = root.components := by
      have hm := hkept m hm
      grind
    have hdropped := root_dropped_foldl (.inr hcleared.binding)
      (fun m' hm' => ⟨hinode m' hm', hkept m' hm'⟩) (.inr ⟨m, hm, hlands⟩)
    rw [resolve?, InodeTable.renameVisiting, hdropped] at hp
    cases hp

theorem Rooted.makes {c : Call} (h : t.Rooted root) (hstep : c.Makes t t') :
    (c.unseats root t = false → t'.Rooted root) ∧
      (c.unseats root t = true → ¬ t'.Seated root) := by
  cases hstep with
  | bind path => exact ⟨fun _ => h.insert path 0, fun hno => nomatch hno⟩
  | bindLookup path => exact ⟨fun _ => h.insert path 1, fun hno => nomatch hno⟩
  | unbind inode =>
    exact ⟨fun _ => h.of_unlocates (drops_unbind t inode) (unlocates_unbind t inode),
      fun hno => nomatch hno⟩
  | unbindPath path =>
    exact ⟨fun _ => h.of_unlocates (drops_unbindPath t path) (unlocates_unbindPath t path),
      fun hno => nomatch hno⟩
  | forget inode lookups =>
    exact ⟨fun _ => h.of_unlocates (drops_forget t inode lookups) (unlocates_forget t inode lookups),
      fun hno => nomatch hno⟩
  | renameSame _ same => exact ⟨fun _ => h, fun hno => by simp [Call.unseats, same] at hno⟩
  | rename _ differ order visits =>
    obtain ⟨hkeeps, hloses⟩ := h.renameVisiting visits
    constructor
    · intro hno
      apply hkeeps
      intro m hm
      apply Decidable.byContradiction
      intro hmoved
      have hyes := (Call.unseats_rename_iff differ).2 ⟨m, visits.mem_iff.1 hm, hmoved⟩
      rw [hyes] at hno
      cases hno
    · intro hyes
      obtain ⟨m, hm, hmoved⟩ := (Call.unseats_rename_iff differ).1 hyes
      exact hloses ⟨m, visits.mem_iff.2 hm, hmoved⟩

/-- A rename that is neither from nor to the root or what is above it does not unseat it. -/
theorem Rooted.unseats_of_sparesRoot {c : Call} (h : t.Rooted root) (hspares : c.sparesRoot root = true) :
    c.unseats root t = false := by
  cases c with
  | rename source target =>
    rw [Bool.eq_false_iff]
    intro hyes
    by_cases differ : source.components = target.components
    · simp [Call.unseats, differ] at hyes
    obtain ⟨m, hm, hmoved⟩ := (Call.unseats_rename_iff differ).1 hyes
    have hspared : ¬ source.components <+: root.components ∧
        ¬ target.components <+: root.components := by
      simpa [Call.sparesRoot, differ, ← List.isPrefixOf_iff_prefix] using hspares
    have hcleared := h.of_unlocates (drops_unbindPath t target) (unlocates_unbindPath t target)
    obtain ⟨hb, hwithin⟩ := mem_bindingsWithin.1 hm
    apply hmoved
    constructor
    · intro hroot
      exact absurd (hroot ▸ hwithin) hspared.1
    · intro hgoal
      have hne : source.components ≠ [] := fun hnil => hspared.1 (hnil ▸ List.nil_prefix)
      rw [goal, Path.components_renamedPath hne (hcleared.spelling_components hb ▸ hwithin)] at hgoal
      exact absurd (hgoal ▸ List.prefix_append _ _) hspared.2
  | _ => rfl

theorem Rooted.seated_iff {steps : List (Call × InodeTable)} (h : t.Rooted root)
    (hsteps : Steps t steps) :
    (∀ step ∈ steps, step.2.Seated root) ↔ anyUnseats root t steps = false := by
  induction hsteps with
  | nil => simp [anyUnseats]
  | @cons t t' c steps step rest ih =>
    obtain ⟨hkeeps, hloses⟩ := h.makes step
    rw [List.forall_mem_cons, anyUnseats, Bool.or_eq_false_iff]
    constructor
    · rintro ⟨hfirst, hlater⟩
      have hno : c.unseats root t = false := Bool.eq_false_iff.2 fun hyes => hloses hyes hfirst
      exact ⟨hno, (ih (hkeeps hno)).1 hlater⟩
    · rintro ⟨hno, hlater⟩
      exact ⟨(hkeeps hno).toSeated, (ih (hkeeps hno)).2 hlater⟩

theorem Rooted.anyUnseats_of_sparesRoot {steps : List (Call × InodeTable)} (h : t.Rooted root)
    (hsteps : Steps t steps) (hspares : ∀ step ∈ steps, step.1.sparesRoot root = true) :
    anyUnseats root t steps = false := by
  induction hsteps with
  | nil => rfl
  | @cons t t' c steps step rest ih =>
    obtain ⟨hfirst, hlater⟩ := List.forall_mem_cons.1 hspares
    have hno := h.unseats_of_sparesRoot hfirst
    rw [anyUnseats, hno, ih ((h.makes step).1 hno) hlater, Bool.or_false]

/-- Over any calls on the table of a root, its inode stands for the root and the root is bound to it
after each of them, exactly if none of them was a rename that moved the root's binding to another place
or another binding to the root's; and none is if no rename is from or to the root or what is above
it. -/
theorem root_seated_iff (number : Numbering) (root : Path) (steps : List (Call × InodeTable))
    (hsteps : Steps (withNumbering number root) steps) :
    ((∀ step ∈ steps, step.2.Seated root) ↔
        anyUnseats root (withNumbering number root) steps = false) ∧
      ((∀ step ∈ steps, step.1.sparesRoot root = true) → ∀ step ∈ steps, step.2.Seated root) := by
  have h := rooted_withNumbering number root
  have hiff := h.seated_iff hsteps
  exact ⟨hiff, fun hspares => hiff.2 (h.anyUnseats_of_sparesRoot hsteps hspares)⟩

/-- The steps of performing some calls, each rename in the order of the table's entries. -/
def performed : List Call → InodeTable → List (Call × InodeTable)
  | [], _ => []
  | c :: calls, t => (c, c.perform t) :: performed calls (c.perform t)

theorem steps_performed (calls : List Call) (t : InodeTable) : Steps t (performed calls t) := by
  induction calls generalizing t with
  | nil => exact .nil t
  | cons c calls ih => exact .cons (c.makes_perform t) (ih (c.perform t))

/-- Renaming an entry of the root to the root drops the root's inode: what is bound to its target is
spared by a rename if it is the root, but what it finds where it lands is not. -/
theorem rename_to_root_unseats :
    let root : Path := ⟨[slash, 0x72]⟩
    let a := root.child [0x61]
    let start := withNumbering (fun _ salt => salt + 2) root
    let steps := performed [.bind a, .bind (a.child [0x62]), .rename a root] start
    Steps start steps ∧ anyUnseats root start steps = true ∧
      ¬ (∀ step ∈ steps, step.2.Seated root) ∧
      steps.map (fun step => (step.2.resolve? rootInode, step.2.inodeOf? root)) =
        [(some root, some 1), (some root, some 1), (none, some 2)] := by
  intro root a start steps
  have hsteps : Steps start steps := steps_performed _ start
  have hunseats : anyUnseats root start steps = true := by decide +kernel
  have hiff := (root_seated_iff (fun _ salt => salt + 2) root steps hsteps).1
  refine ⟨hsteps, hunseats, fun hseated => ?_, by decide +kernel⟩
  have hno := hiff.1 hseated
  rw [hunseats] at hno
  cases hno

end InodeBridge.InodeTable
