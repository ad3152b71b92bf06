import InodeBridge.Proofs.InodeTable.Consistency

/-! # Renames keep the two directions together

A rename drops what is bound at its target and then moves the bindings at and below its source, one
after the other and in any order.  Where neither path is below the other, what it moves never lands on
what it still has to move, so each step keeps the table consistent.
-/
namespace InodeBridge

def Path.Apart (p q : Path) : Prop :=
  ¬ p.components <+: q.components ∧ ¬ q.components <+: p.components

/-- The paths between which objects are renamed: those of one location, and paths apart. -/
def Path.Renamable (source target : Path) : Prop :=
  source.components = target.components ∨ source.Apart target

instance (p q : Path) : Decidable (p.Apart q) := inferInstanceAs (Decidable (_ ∧ _))

instance (p q : Path) : Decidable (p.Renamable q) := inferInstanceAs (Decidable (_ ∨ _))

theorem Path.Apart.components_ne_nil {p q : Path} (h : p.Apart q) : p.components ≠ [] :=
  fun hp => h.1 (hp ▸ List.nil_prefix)

theorem Path.Apart.not_prefix {p q : Path} (h : p.Apart q) {l : Location}
    (hp : p.components <+: l) : ¬ q.components <+: l := fun hq =>
  (List.prefix_or_prefix_of_prefix hp hq).elim h.1 h.2

namespace InodeTable

variable {t : InodeTable} {source target : Path}

/-- What a rename still has to move: bindings of the table at or below its source, each one once. -/
structure Pending (t : InodeTable) (source : Path) (order : List (Location × Binding)) : Prop where
  bound : ∀ m ∈ order, t.byLocation.get? m.1 = some m.2
  within : ∀ m ∈ order, source.components <+: m.1
  nodup : (order.map Prod.fst).Nodup

def landing (source target : Path) (l : Location) : Location :=
  target.components ++ l.drop source.components.length

theorem prefix_landing (source target : Path) (l : Location) :
    target.components <+: landing source target l :=
  List.prefix_append _ _

theorem landing_injective {l l' : Location} (hl : source.components <+: l)
    (hl' : source.components <+: l') (h : landing source target l = landing source target l') :
    l = l' := by
  obtain ⟨s, rfl⟩ := hl
  obtain ⟨s', rfl⟩ := hl'
  simpa [landing] using h

/-- A moved binding lands where its location does, however it was spelled. -/
theorem components_moved (h : t.Inverse) (hapart : source.Apart target) {l : Location}
    {b : Binding} (hb : t.byLocation.get? l = some b) (hl : source.components <+: l) :
    (renamedPath source target b.spelling).components = landing source target l := by
  have hs := h.spelling_components hb
  rw [Path.components_renamedPath hapart.components_ne_nil (hs ▸ hl), hs, landing]

section Relocate

variable {l : Location} {b : Binding}

theorem get?_byLocation_relocate (x : Location) :
    (relocate source target t (l, b)).byLocation.get? x =
      if x = (renamedPath source target b.spelling).components then
        some ⟨(((t.byLocation.erase l).get? x).map (·.spelling)).getD
          (renamedPath source target b.spelling), b.inode⟩
      else if x = l then none else t.byLocation.get? x := by
  simp only [relocate, FiniteMap.get?_insert, FiniteMap.get?_erase]
  split
  next hx => rw [hx]
  · rfl

/-- A step moves its inode, drops the one it finds at another location, and leaves the others as they
are. -/
theorem get?_byInode_relocate_eq (j : Inode) :
    (relocate source target t (l, b)).byInode.get? j =
      if j = b.inode then
        (t.byInode.get? j).map fun e => { e with path := renamedPath source target b.spelling }
      else if ((t.byLocation.erase l).get?
          (renamedPath source target b.spelling).components).map (·.inode) = some j then none
      else t.byInode.get? j := by
  simp only [relocate, FiniteMap.get?_modify]
  cases (t.byLocation.erase l).get? (renamedPath source target b.spelling).components with
  | none =>
    split
    next hj => rw [hj]
    · rfl
  | some old =>
    simp only [Option.map_some, Option.some.injEq]
    by_cases hj : j = b.inode
    · rw [if_pos hj, if_pos hj, hj]
      split
      · rfl
      next hold => rw [FiniteMap.get?_erase, if_neg (Ne.symm hold)]
    · rw [if_neg hj, if_neg hj]
      split
      next hold => rw [if_neg fun hat => hj (hat.symm.trans hold)]
      next hold =>
        rw [FiniteMap.get?_erase]
        simp only [eq_comm]

/-- A step that moves a binding of the table drops the inode bound to where it lands, if it is another
one. -/
theorem get?_byInode_relocate (hb : t.byLocation.get? l = some b) (j : Inode) :
    (relocate source target t (l, b)).byInode.get? j =
      if j = b.inode then
        (t.byInode.get? j).map fun e => { e with path := renamedPath source target b.spelling }
      else if t.inodeOf? (renamedPath source target b.spelling) = some j then none
      else t.byInode.get? j := by
  rw [get?_byInode_relocate_eq]
  split
  · rfl
  next hj =>
    rw [inodeOf?, FiniteMap.get?_erase]
    split
    next hl =>
      rw [hl, hb]
      simp [Ne.symm hj]
    · rfl

theorem Inverse.relocate (h : t.Inverse) (hb : t.byLocation.get? l = some b) :
    (relocate source target t (l, b)).Inverse where
  binding_of_entry {i e} he := by
    rw [get?_byInode_relocate hb] at he
    split at he
    next hi =>
      obtain ⟨e', _, rfl⟩ := Option.map_eq_some_iff.1 he
      rw [get?_byLocation_relocate, if_pos rfl]
      exact ⟨_, rfl, hi.symm⟩
    next hi =>
      split at he
      · simp at he
      next hfound =>
        obtain ⟨b', hb', hbi⟩ := h.binding_of_entry he
        refine ⟨b', ?_, hbi⟩
        rw [get?_byLocation_relocate, if_neg, if_neg, hb']
        · intro hl
          rw [hl, hb] at hb'
          exact hi (by rw [← hbi, Option.some.inj hb'])
        · intro hl
          exact hfound (by rw [← inodeOf?_congr hl, h.inodeOf?_path he])
  entry_of_binding {x b'} hb' := by
    rw [get?_byLocation_relocate] at hb'
    split at hb'
    next hx =>
      cases hb'
      obtain ⟨e, he, _⟩ := h.entry_of_binding hb
      exact ⟨{ e with path := renamedPath source target b.spelling },
        by rw [get?_byInode_relocate hb, if_pos rfl, he]; rfl, hx.symm⟩
    next hx =>
      split at hb'
      · simp at hb'
      next hl =>
        obtain ⟨e, he, hc⟩ := h.entry_of_binding hb'
        refine ⟨e, ?_, hc⟩
        rw [get?_byInode_relocate hb, if_neg, if_neg, he]
        · rw [h.inodeOf?_iff_of_entry he, hc]
          exact hx
        · intro hi
          exact hl (h.location_unique hb' hb hi)
  spelling_components {x b'} hb' := by
    rw [get?_byLocation_relocate] at hb'
    split at hb'
    next hx =>
      cases hb'
      cases hprev : (t.byLocation.erase l).get? x with
      | none => exact hx.symm
      | some old =>
        rw [FiniteMap.get?_erase] at hprev
        split at hprev
        · simp at hprev
        · have := h.spelling_components hprev
          simpa using this
    next hx =>
      split at hb'
      · simp at hb'
      · exact h.spelling_components hb'

theorem Pending.relocate (h : t.Inverse) (hapart : source.Apart target)
    {m : Location × Binding} {order : List (Location × Binding)}
    (hp : t.Pending source (m :: order)) :
    (InodeTable.relocate source target t m).Pending source order where
  bound m' hm' := by
    have hm := hp.bound m (by simp)
    have hlands := components_moved h hapart hm (hp.within m (by simp))
    have hwithin := hp.within m' (List.mem_cons_of_mem m hm')
    rw [get?_byLocation_relocate, if_neg, if_neg, hp.bound m' (List.mem_cons_of_mem m hm')]
    · rintro heq
      exact (List.nodup_cons.1 hp.nodup).1 (heq ▸ List.mem_map_of_mem hm')
    · intro heq
      exact hapart.not_prefix hwithin (heq ▸ hlands ▸ prefix_landing source target m.1)
  within m' hm' := hp.within m' (List.mem_cons_of_mem m hm')
  nodup := (List.nodup_cons.1 hp.nodup).2

end Relocate

theorem Inverse.foldl_relocate (h : t.Inverse) (hapart : source.Apart target)
    {order : List (Location × Binding)} (hp : t.Pending source order) :
    (order.foldl (InodeTable.relocate source target) t).Inverse := by
  induction order generalizing t with
  | nil => exact h
  | cons m order ih =>
    exact ih (h.relocate (hp.bound m (by simp))) (hp.relocate h hapart)

theorem mem_bindingsWithin {m : Location × Binding} :
    m ∈ t.bindingsWithin source ↔
      t.byLocation.get? m.1 = some m.2 ∧ source.components <+: m.1 := by
  simp [bindingsWithin, FiniteMap.get?_eq_some_iff]

/-- In whatever order the bindings at and below the source are listed, they are pending. -/
theorem pending_of_perm {order : List (Location × Binding)}
    (h : order.Perm (t.bindingsWithin source)) : t.Pending source order where
  bound m hm := (mem_bindingsWithin.1 (h.mem_iff.1 hm)).1
  within m hm := (mem_bindingsWithin.1 (h.mem_iff.1 hm)).2
  nodup := by
    apply (h.map Prod.fst).nodup_iff.2
    exact (List.filter_sublist.map Prod.fst).nodup t.byLocation.keys_nodup

/-- A rename between paths apart keeps the maps of a table inverse, in whatever order it visits bindings. -/
theorem Inverse.renameVisiting (h : t.Inverse) (hapart : source.Apart target)
    {order : List (Location × Binding)}
    (horder : order.Perm ((t.unbindPath target).2.bindingsWithin source)) :
    (t.renameVisiting source target order).Inverse :=
  (h.unbindPath target).foldl_relocate hapart (pending_of_perm horder)

/-- What becomes of an inode when some bindings are moved: a moved one gets its new path, and one
that is found where another one lands is dropped. -/
def afterMoves (t : InodeTable) (source target : Path) (order : List (Location × Binding))
    (j : Inode) : Option Entry :=
  match order.find? fun m => m.2.inode = j with
  | some m =>
    (t.byInode.get? j).map fun e => { e with path := renamedPath source target m.2.spelling }
  | none =>
    if order.any fun m => t.inodeOf? (renamedPath source target m.2.spelling) = some j then none
    else t.byInode.get? j

theorem Pending.inodeOf?_relocate (h : t.Inverse) (hapart : source.Apart target)
    {m m' : Location × Binding} {order : List (Location × Binding)}
    (hp : t.Pending source (m :: order)) (hm' : m' ∈ order) :
    (InodeTable.relocate source target t m).inodeOf? (renamedPath source target m'.2.spelling) =
      t.inodeOf? (renamedPath source target m'.2.spelling) := by
  have hm := hp.bound m (by simp)
  have hb' := hp.bound m' (List.mem_cons_of_mem m hm')
  have hw := hp.within m (by simp)
  have hw' := hp.within m' (List.mem_cons_of_mem m hm')
  have hlands := components_moved h hapart hm hw
  have hlands' := components_moved h hapart hb' hw'
  rw [inodeOf?, inodeOf?, get?_byLocation_relocate, if_neg, if_neg]
  · intro heq
    exact hapart.not_prefix hw (heq ▸ hlands' ▸ prefix_landing source target m'.1)
  · intro heq
    rw [hlands, hlands'] at heq
    exact (List.nodup_cons.1 hp.nodup).1
      (landing_injective hw' hw heq ▸ List.mem_map_of_mem hm')

/-- What a rename finds where it lands is nothing that it still has to move. -/
theorem Pending.inode_ne (h : t.Inverse) (hapart : source.Apart target)
    {m m' : Location × Binding} {order : List (Location × Binding)} (hp : t.Pending source order)
    (hm : m ∈ order) (hm' : m' ∈ order) {j : Inode}
    (hat : t.inodeOf? (renamedPath source target m.2.spelling) = some j) : m'.2.inode ≠ j := by
  intro hj
  obtain ⟨b, hb, hbj⟩ := inodeOf?_eq_some_iff.1 hat
  have hl := h.location_unique hb (hp.bound m' hm') (hbj.trans hj.symm)
  rw [components_moved h hapart (hp.bound m hm) (hp.within m hm)] at hl
  exact hapart.not_prefix (hp.within m' hm') (hl ▸ prefix_landing source target m.1)

theorem get?_byInode_foldl_relocate (h : t.Inverse) (hapart : source.Apart target)
    {order : List (Location × Binding)} (hp : t.Pending source order) (j : Inode) :
    (order.foldl (relocate source target) t).byInode.get? j = t.afterMoves source target order j := by
  induction order generalizing t with
  | nil => rfl
  | cons m order ih =>
    have hm := hp.bound m (by simp)
    have hstep : (relocate source target t m).byInode.get? j = _ := get?_byInode_relocate hm j
    have hany : (order.any fun m' => (relocate source target t m).inodeOf?
          (renamedPath source target m'.2.spelling) = some j) =
        order.any fun m' => t.inodeOf? (renamedPath source target m'.2.spelling) = some j := by
      rw [Bool.eq_iff_iff, List.any_eq_true, List.any_eq_true]
      exact exists_congr fun m' => and_congr_right fun hm' => by
        rw [hp.inodeOf?_relocate h hapart hm']
    rw [List.foldl_cons, ih (h.relocate hm) (hp.relocate h hapart), afterMoves, afterMoves, hany,
      hstep]
    by_cases hj : m.2.inode = j
    · have hrest : ∀ m' ∈ order, m'.2.inode ≠ j := by
        intro m' hm' hj'
        have hb' := hp.bound m' (List.mem_cons_of_mem m hm')
        have hl := h.location_unique hb' hm (hj'.trans hj.symm)
        exact (List.nodup_cons.1 hp.nodup).1 (hl ▸ List.mem_map_of_mem hm')
      have hfree : (order.any fun m' =>
          t.inodeOf? (renamedPath source target m'.2.spelling) = some j) = false := by
        rw [List.any_eq_false]
        intro m' hm' hat
        exact hp.inode_ne h hapart (List.mem_cons_of_mem m hm') (by simp) (of_decide_eq_true hat) hj
      have hnone : order.find? (fun m' => m'.2.inode = j) = none := by
        simpa [List.find?_eq_none] using hrest
      simp [hnone, hfree, hj]
    · rw [List.find?_cons_of_neg (by simpa using hj), List.any_cons, if_neg (Ne.symm hj)]
      cases hfind : order.find? fun m' => m'.2.inode = j with
      | none =>
        by_cases hat : t.inodeOf? (renamedPath source target m.2.spelling) = some j
        · simp [hat]
        · simp only [hat, if_false, decide_false, Bool.false_or]
      | some m' =>
        have hm' := List.mem_of_find?_eq_some hfind
        have hj' : m'.2.inode = j := by simpa using List.find?_some hfind
        rw [if_neg]
        exact fun hat => hp.inode_ne h hapart (by simp) (List.mem_cons_of_mem m hm') hat hj'

/-- The locations whose inodes a rename drops: its target, and those below its target where it takes
something. -/
def Displaced (t : InodeTable) (source target : Path) (l : Location) : Prop :=
  l = target.components ∨
    ∃ l' b, t.byLocation.get? l' = some b ∧ source.components <+: l' ∧ l = landing source target l'

theorem Displaced.prefix {l : Location} (h : t.Displaced source target l) :
    target.components <+: l := by
  rcases h with rfl | ⟨l', b, _, _, rfl⟩
  · exact List.prefix_rfl
  · exact prefix_landing source target l'

theorem get?_byLocation_unbindPath {path : Path} {l : Location} (h : l ≠ path.components) :
    (t.unbindPath path).2.byLocation.get? l = t.byLocation.get? l := by
  unfold unbindPath
  split
  · rfl
  · split
    · rfl
    · rw [FiniteMap.get?_erase, if_neg h]

section Visiting

variable {order : List (Location × Binding)} {i : Inode} {e : Entry}

theorem get?_byInode_renameVisiting (h : t.Inverse) (hapart : source.Apart target)
    (horder : order.Perm ((t.unbindPath target).2.bindingsWithin source)) (j : Inode) :
    (t.renameVisiting source target order).byInode.get? j =
      (t.unbindPath target).2.afterMoves source target order j :=
  get?_byInode_foldl_relocate (h.unbindPath target) hapart (pending_of_perm horder) j

theorem mem_order_iff (hapart : source.Apart target)
    (horder : order.Perm ((t.unbindPath target).2.bindingsWithin source))
    {m : Location × Binding} :
    m ∈ order ↔ t.byLocation.get? m.1 = some m.2 ∧ source.components <+: m.1 := by
  rw [horder.mem_iff, mem_bindingsWithin]
  constructor
  all_goals
    rintro ⟨hb, hw⟩
    have hne : m.1 ≠ target.components := fun heq => hapart.1 (heq ▸ hw)
    rw [get?_byLocation_unbindPath hne] at *
    exact ⟨hb, hw⟩

theorem Pending.find?_inode (h : t.Inverse) {order : List (Location × Binding)}
    (hp : t.Pending source order) {m : Location × Binding} (hm : m ∈ order) :
    (order.find? fun m' => m'.2.inode = m.2.inode) = some m := by
  cases hf : order.find? fun m' => m'.2.inode = m.2.inode with
  | none => simpa using List.find?_eq_none.1 hf m hm
  | some m' =>
    have hb := hp.bound m hm
    have hb' := hp.bound m' (List.mem_of_find?_eq_some hf)
    have hl := h.location_unique hb' hb (by simpa using List.find?_some hf)
    rw [hl, hb] at hb'
    rw [Prod.ext hl (Option.some.inj hb').symm]

/-- An inode at or below the source follows the rename and keeps its references. -/
theorem get?_renameVisiting_of_within (h : t.Inverse) (hapart : source.Apart target)
    (horder : order.Perm ((t.unbindPath target).2.bindingsWithin source))
    (he : t.byInode.get? i = some e) (hw : source.components <+: e.path.components) :
    ∃ b, t.byLocation.get? e.path.components = some b ∧
      (t.renameVisiting source target order).byInode.get? i =
        some { e with path := renamedPath source target b.spelling } := by
  obtain ⟨b, hb, rfl⟩ := h.binding_of_entry he
  have hmem : (e.path.components, b) ∈ order := (mem_order_iff hapart horder).2 ⟨hb, hw⟩
  have hkept : (t.unbindPath target).2.byInode.get? b.inode = some e := by
    rw [get?_byInode_unbindPath, if_neg, he]
    rintro ⟨hat, _⟩
    rw [h.inodeOf?_iff_of_entry he] at hat
    exact hapart.1 (hat ▸ hw)
  refine ⟨b, hb, ?_⟩
  rw [get?_byInode_renameVisiting h hapart horder, afterMoves,
    (pending_of_perm horder).find?_inode (h.unbindPath target) hmem, hkept]
  rfl

theorem find?_inode_eq_none (h : t.Inverse) (hapart : source.Apart target)
    (horder : order.Perm ((t.unbindPath target).2.bindingsWithin source))
    (he : ∀ e, t.byInode.get? i = some e → ¬ source.components <+: e.path.components) :
    (order.find? fun m => m.2.inode = i) = none := by
  rw [List.find?_eq_none]
  intro m hm hi
  obtain ⟨hb, hw⟩ := (mem_order_iff hapart horder).1 hm
  obtain ⟨e, hme, hc⟩ := h.entry_of_binding hb
  rw [of_decide_eq_true hi] at hme
  exact he e hme (hc ▸ hw)

/-- Where a rename lands, it finds an inode if it displaces it, the target apart. -/
theorem any_landing_iff (h : t.Inverse) (hapart : source.Apart target)
    (horder : order.Perm ((t.unbindPath target).2.bindingsWithin source))
    (he : (t.unbindPath target).2.byInode.get? i = some e) :
    (order.any fun m =>
      (t.unbindPath target).2.inodeOf? (renamedPath source target m.2.spelling) = some i) = true ↔
      ∃ l b, t.byLocation.get? l = some b ∧ source.components <+: l ∧
        e.path.components = landing source target l := by
  rw [List.any_eq_true]
  constructor
  · rintro ⟨m, hm, hat⟩
    obtain ⟨hb, hw⟩ := (mem_order_iff hapart horder).1 hm
    have hc := ((h.unbindPath target).inodeOf?_iff_of_entry he).1 (of_decide_eq_true hat)
    rw [components_moved h hapart hb hw] at hc
    exact ⟨m.1, m.2, hb, hw, hc⟩
  · rintro ⟨l, b, hb, hw, hl⟩
    refine ⟨(l, b), (mem_order_iff hapart horder).2 ⟨hb, hw⟩, decide_eq_true ?_⟩
    rw [(h.unbindPath target).inodeOf?_iff_of_entry he, hl, components_moved h hapart hb hw]

/-- An inode that is neither at or below the source nor displaced stays as it is. -/
theorem get?_renameVisiting_of_kept (h : t.Inverse) (hapart : source.Apart target)
    (horder : order.Perm ((t.unbindPath target).2.bindingsWithin source))
    (he : t.byInode.get? i = some e) (hw : ¬ source.components <+: e.path.components)
    (hd : ¬ t.Displaced source target e.path.components) :
    (t.renameVisiting source target order).byInode.get? i = some e := by
  have hkept : (t.unbindPath target).2.byInode.get? i = some e := by
    rw [get?_byInode_unbindPath, if_neg, he]
    rintro ⟨hat, _⟩
    exact hd (.inl ((h.inodeOf?_iff_of_entry he).1 hat))
  have hfind := find?_inode_eq_none (i := i) h hapart horder fun e' he' => by
    rw [he] at he'
    exact Option.some.inj he' ▸ hw
  rw [get?_byInode_renameVisiting h hapart horder, afterMoves, hfind]
  dsimp only
  rw [if_neg, hkept]
  rw [any_landing_iff h hapart horder hkept]
  exact fun hl => hd (.inr hl)

theorem get?_renameVisiting_of_displaced (h : t.Inverse) (hapart : source.Apart target)
    (horder : order.Perm ((t.unbindPath target).2.bindingsWithin source))
    (he : t.byInode.get? i = some e) (hroot : i ≠ rootInode)
    (hd : t.Displaced source target e.path.components) :
    (t.renameVisiting source target order).byInode.get? i = none := by
  have hfind := find?_inode_eq_none (i := i) h hapart horder fun e' he' hw => by
    rw [he] at he'
    exact hapart.not_prefix (Option.some.inj he' ▸ hw) hd.prefix
  rw [get?_byInode_renameVisiting h hapart horder, afterMoves, hfind]
  dsimp only
  cases hkept : (t.unbindPath target).2.byInode.get? i with
  | none => split <;> rfl
  | some e' =>
    rw [get?_byInode_unbindPath] at hkept
    split at hkept
    · simp at hkept
    next hat =>
      rw [he] at hkept
      cases hkept
      have hne : e.path.components ≠ target.components := fun hc =>
        hat ⟨(h.inodeOf?_iff_of_entry he).2 hc, hroot⟩
      rw [if_pos]
      refine (any_landing_iff h hapart horder ?_).2 (hd.resolve_left hne)
      rw [get?_byInode_unbindPath, if_neg hat, he]

theorem get?_renameVisiting_of_none (h : t.Inverse) (hapart : source.Apart target)
    (horder : order.Perm ((t.unbindPath target).2.bindingsWithin source))
    (he : t.byInode.get? i = none) :
    (t.renameVisiting source target order).byInode.get? i = none := by
  have hnone : (t.unbindPath target).2.byInode.get? i = none := by
    rw [get?_byInode_unbindPath, he, ite_self]
  have hfind := find?_inode_eq_none (i := i) h hapart horder fun e' he' => by simp [he] at he'
  rw [get?_byInode_renameVisiting h hapart horder, afterMoves, hfind]
  simp [hnone]

/-- A rename between paths apart keeps a table consistent, in whatever order it visits bindings. -/
theorem Consistent.renameVisiting (h : t.Consistent) (hapart : source.Apart target)
    (horder : order.Perm ((t.unbindPath target).2.bindingsWithin source)) :
    (t.renameVisiting source target order).Consistent where
  toInverse := h.toInverse.renameVisiting hapart horder
  zero_unbound := get?_renameVisiting_of_none h.toInverse hapart horder h.zero_unbound

end Visiting

end InodeTable
end InodeBridge
