import InodeBridge.Proofs.InodeTable.Calls
import InodeBridge.Proofs.InodeTable.Entries

/-! # A rename moves one subtree

What a rename leaves does not depend on the order in which it visits bindings: each location is left
vacant if it is at or below the source, gets what lands on it if something does, and keeps its binding
otherwise.  So the inodes at and below the source are found at the same places below the target, those
that were bound there are gone, and all others stay.
-/
namespace InodeBridge.InodeTable

variable {t : InodeTable} {source target : Path} {order : List (Location × Binding)}

/-- Where a rename lands, it leaves its own inode, under the spelling that the location had, if it had
one. -/
def landed (t : InodeTable) (source target : Path) (m : Location × Binding) : Binding where
  spelling := ((t.byLocation.get? (landing source target m.1)).map (·.spelling)).getD
    (renamedPath source target m.2.spelling)
  inode := m.2.inode

section Fold

variable {l : Location} {m : Location × Binding}

/-- A location that is not visited, and on which nothing lands, keeps its binding. -/
theorem get?_byLocation_foldl_of_untouched (h : t.Inverse) (hapart : source.Apart target)
    (hp : t.Pending source order) (hvisited : ∀ m ∈ order, l ≠ m.1)
    (hlanding : ∀ m ∈ order, l ≠ landing source target m.1) :
    (order.foldl (relocate source target) t).byLocation.get? l = t.byLocation.get? l := by
  induction order generalizing t with
  | nil => rfl
  | cons m order ih =>
    obtain ⟨hfirst, hrest⟩ := List.forall_mem_cons.1 hvisited
    obtain ⟨hlands, hothers⟩ := List.forall_mem_cons.1 hlanding
    have hm := hp.bound m List.mem_cons_self
    have hgoal := components_moved h hapart hm (hp.within m List.mem_cons_self)
    rw [List.foldl_cons, ih (h.relocate hm) (hp.relocate h hapart) hrest hothers,
      get?_byLocation_relocate, hgoal, if_neg hlands, if_neg hfirst]

/-- What still has to be moved is elsewhere than what was moved, and so is where it lands. -/
theorem Pending.head_apart (hapart : source.Apart target) (hp : t.Pending source (m :: order))
    {m' : Location × Binding} (hm' : m' ∈ order) :
    m'.1 ≠ m.1 ∧ landing source target m'.1 ≠ landing source target m.1 ∧
      m.1 ≠ landing source target m'.1 ∧ landing source target m.1 ≠ m'.1 := by
  have hw := hp.within m List.mem_cons_self
  have hw' := hp.within m' (List.mem_cons_of_mem m hm')
  have hne : m'.1 ≠ m.1 := fun heq =>
    (List.nodup_cons.1 hp.nodup).1 (heq ▸ List.mem_map_of_mem hm')
  refine ⟨hne, fun heq => hne (landing_injective hw' hw heq), fun heq => ?_, fun heq => ?_⟩
  · exact hapart.not_prefix hw (heq ▸ prefix_landing source target m'.1)
  · exact hapart.not_prefix hw' (heq ▸ prefix_landing source target m.1)

theorem get?_byLocation_foldl_of_visited (h : t.Inverse) (hapart : source.Apart target)
    (hp : t.Pending source order) (hm : m ∈ order) :
    (order.foldl (relocate source target) t).byLocation.get? m.1 = none := by
  induction order generalizing t with
  | nil => cases hm
  | cons first order ih =>
    have hfirst := hp.bound first List.mem_cons_self
    have hstep : (relocate source target t first).Inverse := h.relocate hfirst
    rw [List.foldl_cons]
    rcases List.mem_cons.1 hm with rfl | hm
    · have hw := hp.within m List.mem_cons_self
      have hgoal := components_moved h hapart hfirst hw
      rw [get?_byLocation_foldl_of_untouched hstep hapart (hp.relocate h hapart)
        (fun m' hm' => (hp.head_apart hapart hm').1.symm)
        (fun m' hm' => (hp.head_apart hapart hm').2.2.1), get?_byLocation_relocate, if_neg,
        if_pos rfl]
      rw [hgoal]
      exact fun heq => hapart.not_prefix hw (heq ▸ prefix_landing source target m.1)
    · exact ih hstep (hp.relocate h hapart) hm

theorem get?_byLocation_foldl_of_landing (h : t.Inverse) (hapart : source.Apart target)
    (hp : t.Pending source order) (hm : m ∈ order) :
    (order.foldl (relocate source target) t).byLocation.get? (landing source target m.1) =
      some (t.landed source target m) := by
  induction order generalizing t with
  | nil => cases hm
  | cons first order ih =>
    have hfirst := hp.bound first List.mem_cons_self
    have hw := hp.within first List.mem_cons_self
    have hstep : (relocate source target t first).Inverse := h.relocate hfirst
    have hgoal := components_moved h hapart hfirst hw
    rw [List.foldl_cons]
    rcases List.mem_cons.1 hm with rfl | hm
    · have hne : landing source target m.1 ≠ m.1 := fun heq =>
        hapart.not_prefix hw (heq ▸ prefix_landing source target m.1)
      rw [get?_byLocation_foldl_of_untouched hstep hapart (hp.relocate h hapart)
        (fun m' hm' => (hp.head_apart hapart hm').2.2.2)
        (fun m' hm' => (hp.head_apart hapart hm').2.1.symm), get?_byLocation_relocate,
        if_pos hgoal.symm, FiniteMap.get?_erase, if_neg hne]
      rfl
    · -- the first step leaves alone what was where this binding lands
      have hlandings := (hp.head_apart hapart hm).2.1
      have hvacated : landing source target m.1 ≠ first.1 := fun heq =>
        hapart.not_prefix hw (heq ▸ prefix_landing source target m.1)
      rw [ih hstep (hp.relocate h hapart) hm, landed, landed, get?_byLocation_relocate, hgoal,
        if_neg hlandings, if_neg hvacated]

end Fold

section Visiting

variable {l : Location} {other : List (Location × Binding)}

theorem get?_byLocation_renameVisiting_of_within (h : t.Inverse) (hapart : source.Apart target)
    (horder : order.Perm ((t.unbindPath target).2.bindingsWithin source))
    (hl : source.components <+: l) :
    (t.renameVisiting source target order).byLocation.get? l = none := by
  have hcleared := h.unbindPath target
  have hp := pending_of_perm horder
  by_cases hvisited : ∃ m ∈ order, m.1 = l
  · obtain ⟨m, hm, rfl⟩ := hvisited
    exact get?_byLocation_foldl_of_visited hcleared hapart hp hm
  · have hunvisited : ∀ m ∈ order, l ≠ m.1 := fun m hm heq => hvisited ⟨m, hm, heq.symm⟩
    rw [renameVisiting, get?_byLocation_foldl_of_untouched hcleared hapart hp hunvisited
      fun m _ heq => hapart.not_prefix hl (heq ▸ prefix_landing source target m.1)]
    -- all that is bound there is visited
    rw [Option.eq_none_iff_forall_ne_some]
    exact fun b hb =>
      hunvisited (l, b) (horder.mem_iff.2 (mem_bindingsWithin.2 ⟨hb, hl⟩)) rfl

theorem inodeOf?_unbindPath_self {path : Path} (h : t.inodeOf? path ≠ some rootInode) :
    (t.unbindPath path).2.inodeOf? path = none := by
  unfold unbindPath
  split
  next hp => exact hp
  next inode hp =>
    have hne : inode ≠ rootInode := fun hroot => h (hroot ▸ hp)
    rw [if_neg hne, inodeOf?, FiniteMap.get?_erase_self]
    rfl

theorem inodeOf?_renameVisiting_target (h : t.Inverse) (hapart : source.Apart target)
    (horder : order.Perm ((t.unbindPath target).2.bindingsWithin source))
    (hroot : t.inodeOf? target ≠ some rootInode) :
    (t.renameVisiting source target order).inodeOf? target = t.inodeOf? source := by
  have hcleared := h.unbindPath target
  have hp := pending_of_perm horder
  have hlanding : landing source target source.components = target.components := by simp [landing]
  cases hsource : t.byLocation.get? source.components with
  | some b =>
    have hm : (source.components, b) ∈ order :=
      (mem_order_iff hapart horder).2 ⟨hsource, List.prefix_rfl⟩
    rw [inodeOf?, inodeOf?, hsource, ← hlanding, renameVisiting,
      get?_byLocation_foldl_of_landing hcleared hapart hp hm]
    rfl
  | none =>
    have hvisited : ∀ m ∈ order, target.components ≠ m.1 := fun m hm heq =>
      hapart.1 (heq ▸ hp.within m hm)
    have hlands : ∀ m ∈ order, target.components ≠ landing source target m.1 := by
      intro m hm heq
      have hw := hp.within m hm
      have hbound := ((mem_order_iff hapart horder).1 hm).1
      rw [← landing_injective List.prefix_rfl hw (hlanding.trans heq), hsource] at hbound
      cases hbound
    rw [inodeOf?, inodeOf?, hsource, renameVisiting,
      get?_byLocation_foldl_of_untouched hcleared hapart hp hvisited hlands]
    exact inodeOf?_unbindPath_self hroot

/-- Where bindings are found does not depend on the order in which a rename visits them. -/
theorem get?_byLocation_renameVisiting_eq (h : t.Inverse) (hapart : source.Apart target)
    (horder : order.Perm ((t.unbindPath target).2.bindingsWithin source)) (hother : other.Perm order)
    (l : Location) :
    (t.renameVisiting source target other).byLocation.get? l =
      (t.renameVisiting source target order).byLocation.get? l := by
  have hcleared := h.unbindPath target
  have hp := pending_of_perm horder
  have hp' := pending_of_perm (hother.trans horder)
  by_cases hvisited : ∃ m ∈ order, m.1 = l
  · obtain ⟨m, hm, rfl⟩ := hvisited
    rw [renameVisiting, renameVisiting, get?_byLocation_foldl_of_visited hcleared hapart hp hm,
      get?_byLocation_foldl_of_visited hcleared hapart hp' (hother.mem_iff.2 hm)]
  by_cases hlands : ∃ m ∈ order, landing source target m.1 = l
  · obtain ⟨m, hm, rfl⟩ := hlands
    rw [renameVisiting, renameVisiting, get?_byLocation_foldl_of_landing hcleared hapart hp hm,
      get?_byLocation_foldl_of_landing hcleared hapart hp' (hother.mem_iff.2 hm)]
  have hunvisited : ∀ m ∈ order, l ≠ m.1 := fun m hm heq => hvisited ⟨m, hm, heq.symm⟩
  have hspared : ∀ m ∈ order, l ≠ landing source target m.1 := fun m hm heq =>
    hlands ⟨m, hm, heq.symm⟩
  rw [renameVisiting, renameVisiting,
    get?_byLocation_foldl_of_untouched hcleared hapart hp hunvisited hspared,
    get?_byLocation_foldl_of_untouched hcleared hapart hp'
      (fun m hm => hunvisited m (hother.mem_iff.1 hm))
      fun m hm => hspared m (hother.mem_iff.1 hm)]

/-- What becomes of the inodes does not depend on the order in which a rename visits bindings. -/
theorem get?_byInode_renameVisiting_eq (h : t.Inverse) (hapart : source.Apart target)
    (horder : order.Perm ((t.unbindPath target).2.bindingsWithin source)) (hother : other.Perm order)
    (j : Inode) :
    (t.renameVisiting source target other).byInode.get? j =
      (t.renameVisiting source target order).byInode.get? j := by
  have hcleared := h.unbindPath target
  have hp' := pending_of_perm (hother.trans horder)
  rw [get?_byInode_renameVisiting h hapart horder,
    get?_byInode_renameVisiting h hapart (hother.trans horder), afterMoves, afterMoves,
    hother.any_eq]
  cases hfind : order.find? fun m => m.2.inode = j with
  | some m =>
    have hm := List.mem_of_find?_eq_some hfind
    obtain rfl : m.2.inode = j := by simpa using List.find?_some hfind
    rw [hp'.find?_inode hcleared (hother.mem_iff.2 hm)]
  | none =>
    have hnone : (other.find? fun m => m.2.inode = j) = none := by
      rw [List.find?_eq_none] at hfind ⊢
      exact fun m hm => hfind m (hother.mem_iff.1 hm)
    rw [hnone]

/-- What a rename leaves of a table: the inodes at and below the source are found at the same places
below the target with the references that they had, those that were bound there are gone, and all
others stay. -/
structure MovesSubtree (t after : InodeTable) (source target : Path) : Prop where
  inverse : after.Inverse
  carried : ∀ {i e steps}, t.byInode.get? i = some e →
    e.path.components = source.components ++ steps →
      ∃ path : Path, path.components = target.components ++ steps ∧
        after.byInode.get? i = some { e with path }
  displaced : ∀ {i p}, t.resolve? i = some p → t.Overwrites source target p →
    after.resolve? i = none ∧ ∀ q, after.inodeOf? q ≠ some i
  kept : ∀ {i e}, t.byInode.get? i = some e → ¬ e.path.Within source →
    ¬ t.Overwrites source target e.path → after.byInode.get? i = some e
  unbound : ∀ {i}, t.resolve? i = none → after.resolve? i = none
  vacated : ∀ {p}, p.Within source → after.inodeOf? p = none ∧ ∀ i, after.resolve? i ≠ some p

theorem movesSubtree_renameVisiting (h : t.Inverse) (hapart : source.Apart target)
    (horder : order.Perm ((t.unbindPath target).2.bindingsWithin source))
    (hbelow : ∀ root, t.resolve? rootInode = some root → target.Below root) :
    t.MovesSubtree (t.renameVisiting source target order) source target where
  inverse := h.renameVisiting hapart horder
  carried he hsteps := by
    have hw : source.components <+: _ := ⟨_, hsteps.symm⟩
    obtain ⟨b, hb, hmoved⟩ := get?_renameVisiting_of_within h hapart horder he hw
    refine ⟨_, ?_, hmoved⟩
    rw [components_moved h hapart hb hw, landing, hsteps, List.drop_left]
  displaced {i p} hp hover := by
    obtain ⟨e, he, rfl⟩ := resolve?_eq_some_iff.1 hp
    have hdisplaced := (displaced_iff_overwrites h).2 hover
    have hne : i ≠ rootInode := by
      rintro rfl
      obtain ⟨hwithin, hdiffers⟩ := hbelow _ hp
      exact hdiffers (List.IsPrefix.eq_of_length_le hdisplaced.prefix hwithin.length_le)
    have hnone := get?_renameVisiting_of_displaced h hapart horder he hne hdisplaced
    refine ⟨by rw [resolve?, hnone]; rfl, fun q hq => ?_⟩
    obtain ⟨e', he', _⟩ := (h.renameVisiting hapart horder).inodeOf?_iff.1 hq
    rw [hnone] at he'
    cases he'
  kept he hw hover :=
    get?_renameVisiting_of_kept h hapart horder he hw (mt (displaced_iff_overwrites h).1 hover)
  unbound hi := by
    rw [resolve?, get?_renameVisiting_of_none h hapart horder (Option.map_eq_none_iff.1 hi)]
    rfl
  vacated {p} hw := by
    have hnone : (t.renameVisiting source target order).inodeOf? p = none := by
      rw [inodeOf?, get?_byLocation_renameVisiting_of_within h hapart horder hw]
      rfl
    refine ⟨hnone, fun i hi => ?_⟩
    rw [(h.renameVisiting hapart horder).inodeOf?_of_resolve? hi] at hnone
    cases hnone

/-- A rename between paths apart visits the bindings in the order in which the table keeps them. -/
theorem rename_of_apart (hapart : source.Apart target) :
    let moved := t.renameVisiting source target ((t.unbindPath target).2.bindingsWithin source)
    t.rename source target = (moved.inodeOf? target, moved) := by
  rw [rename, if_neg]
  exact fun heq => hapart.1 (heq ▸ List.prefix_rfl)

end Visiting

/-- A path whose last common step has a longer name is not within the other one. -/
theorem not_within_of_longer_name {p : Path} {above rest : Location} {name letters : Name}
    (hsource : source.components = above ++ [.entry name]) (hletters : letters ≠ [])
    (hp : p.components = above ++ .entry (name ++ letters) :: rest) : ¬ p.Within source := by
  rw [Path.Within, hsource, hp, List.prefix_append_right_inj, List.cons_prefix_cons]
  rintro ⟨hname, _⟩
  exact hletters (List.self_eq_append_right.1 (Component.entry.inj hname))

/-- In a table whose maps are inverse to each other, a rename between two paths of which neither is at
or below the other moves the subtree of its source and nothing else, if its target is below the path of
the root's inode.  It answers the inode that was bound to the source, and does the same in whatever
order it visits bindings.  An entry whose name only begins like that of the source is not moved.  A
rename of a path to itself changes nothing. -/
theorem rename_moves_one_subtree (t : InodeTable) (source target : Path) (h : t.Inverse)
    (hbelow : ∀ root, t.resolve? rootInode = some root → target.Below root) :
    let after := (t.rename source target).2
    (source.components = target.components →
      t.rename source target = (t.inodeOf? source, t)) ∧
    (source.Apart target →
      t.MovesSubtree after source target ∧ (t.rename source target).1 = t.inodeOf? source ∧
      (∀ order, order.Perm ((t.unbindPath target).2.bindingsWithin source) →
        (∀ i, (t.renameVisiting source target order).byInode.get? i = after.byInode.get? i) ∧
          ∀ l, (t.renameVisiting source target order).byLocation.get? l =
            after.byLocation.get? l) ∧
      ∀ i e above name letters rest, source.components = above ++ [.entry name] → letters ≠ [] →
        t.byInode.get? i = some e →
        e.path.components = above ++ .entry (name ++ letters) :: rest →
        ¬ t.Overwrites source target e.path → after.byInode.get? i = some e) := by
  intro after
  refine ⟨fun hsame => ?_, fun hapart => ?_⟩
  · rw [rename, if_pos hsame, inodeOf?_congr hsame]
  have horder := List.Perm.refl ((t.unbindPath target).2.bindingsWithin source)
  have hrename := t.rename_of_apart hapart
  have hmoves := movesSubtree_renameVisiting h hapart horder hbelow
  have hanswer := inodeOf?_renameVisiting_target h hapart horder fun hroot => by
    obtain ⟨e, he, hc⟩ := h.inodeOf?_iff.1 hroot
    exact (hbelow _ (resolve?_eq_some_iff.2 ⟨e, he, rfl⟩)).2 hc.symm
  dsimp only [after]
  rw [hrename]
  refine ⟨hmoves, hanswer, fun order hother => ?_, ?_⟩
  · exact ⟨get?_byInode_renameVisiting_eq h hapart horder hother,
      get?_byLocation_renameVisiting_eq h hapart horder hother⟩
  · intro i e above name letters rest hsource hletters he hp hover
    exact hmoves.kept he (not_within_of_longer_name hsource hletters hp) hover

/-- A directory is moved over another one: the inodes of the directory and of an entry below it follow,
also if they are visited in the reverse order, what they land on is gone, and the entry that is only
in the other directory and one whose name begins like that of the directory stay. -/
theorem directory_moved_over_another :
    let root : Path := ⟨[slash, 0x74]⟩
    let a := root.child [0x61]
    let b := root.child [0x62]
    let other := root.child [0x61, 0x62]
    let calls : List Call := [.bindLookup a, .bindLookup (a.child [0x78]), .bind b,
      .bindLookup (b.child [0x78]), .bindLookup (b.child [0x79]), .bindLookup (other.child [0x78])]
    let t := calls.foldl (fun t c => c.perform t) (withNumbering (fun _ salt => salt + 1) root)
    let order := ((t.unbindPath b).2.bindingsWithin a).reverse
    let after := t.renameVisiting a b order
    t.Inverse ∧ a.Apart b ∧ (∀ p, t.resolve? rootInode = some p → b.Below p) ∧
      (t.rename a b).1 = some 2 ∧ after.byInode.get? 2 = some ⟨b, 1⟩ ∧
      after.byInode.get? 3 = some ⟨b.child [0x78], 1⟩ ∧
      after.resolve? 4 = none ∧ after.resolve? 5 = none ∧
      after.byInode.get? 6 = some ⟨b.child [0x79], 1⟩ ∧
      after.byInode.get? 7 = some ⟨other.child [0x78], 1⟩ := by
  intro root a b other calls t order after
  have ht : t.Consistent :=
    (consistent_withNumbering _ root).run (by decide) (run_perform calls _)
  have hroot : t.resolve? rootInode = some root := by decide +kernel
  have hbelow : ∀ p, t.resolve? rootInode = some p → b.Below p := by
    intro p hp
    rw [← Option.some.inj (hroot.symm.trans hp)]
    decide
  have hapart : a.Apart b := by decide
  obtain ⟨hmoves, hanswer, horders, hspares⟩ :=
    (rename_moves_one_subtree t a b ht.toInverse hbelow).2 hapart
  obtain ⟨hinodes, _⟩ := horders order (List.reverse_perm _)
  have hgone {i : Inode} {p : Path} (hp : t.resolve? i = some p) (hover : t.Overwrites a b p) :
      after.resolve? i = none := by
    rw [resolve?, hinodes]
    exact (hmoves.displaced hp hover).1
  have hspared : ¬ t.Overwrites a b (other.child [0x78]) := by
    intro hover
    have hdisplaced := (displaced_iff_overwrites ht.toInverse).2 hover
    exact absurd hdisplaced.prefix (by decide)
  have hsibling := hspares 7 ⟨other.child [0x78], 1⟩ root.components [0x61] [0x62] [.entry [0x78]]
    (by decide) (by decide) (by decide +kernel) (by decide) hspared
  refine ⟨ht.toInverse, hapart, hbelow, hanswer.trans (by decide +kernel),
    (hinodes 2).trans (by decide +kernel), (hinodes 3).trans (by decide +kernel),
    hgone (p := b) (by decide +kernel) (.inl rfl),
    hgone (p := b.child [0x78]) (by decide +kernel) ?_,
    (hinodes 6).trans (by decide +kernel), (hinodes 7).trans hsibling⟩
  exact .inr ⟨3, a.child [0x78], [.entry [0x78]], by decide +kernel, by decide, by decide⟩

end InodeBridge.InodeTable
