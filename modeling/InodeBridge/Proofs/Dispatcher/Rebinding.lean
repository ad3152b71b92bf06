import InodeBridge.HostStorage
import InodeBridge.Proofs.Dispatcher.ReferenceSafety
import InodeBridge.Proofs.InodeTable.Probing
import InodeBridge.Proofs.InodeTable.Subtree
import InodeBridge.Proofs.InodeTable.Unsalted

/-! # Renames that bind the destination anew

Under this policy a rename drops what is bound to the destination and binds that under its first free
number.  All other bindings stay, those below the two paths among them.  The source stays only if it is
not the destination as well: then its references are dropped, and its inode is given again only if no
other inode has taken the number.
-/
namespace InodeBridge

open Storage (Call Event)

namespace InodeTable

variable {t after : InodeTable} {path source target : Path} {i : Inode} {e : Entry} {salt : UInt64}

theorem get?_byLocation_bind {l : Location} (hl : l ≠ path.components) :
    (t.bind path).2.byLocation.get? l = t.byLocation.get? l := by
  unfold InodeTable.bind insert
  split
  · rfl
  · split
    · rw [FiniteMap.get?_insert, if_neg hl]
    · rfl

/-- All that is bound elsewhere than at the target stays, and nothing else is bound there; the target,
unless it is the root's, is bound without a reference under its first number that no other path has. -/
structure Rebinds (t : InodeTable) (target : Path) (after : InodeTable) : Prop where
  kept : ∀ i e, t.byInode.get? i = some e → e.path.components ≠ target.components →
    after.byInode.get? i = some e
  located : ∀ l ≠ target.components, after.byLocation.get? l = t.byLocation.get? l
  only : ∀ i e, after.byInode.get? i = some e → e.path.components ≠ target.components →
    t.byInode.get? i = some e
  rebound : t.inodeOf? target ≠ some rootInode → ∀ salt,
    (t.unbindPath target).2.FirstFree target salt →
      after.inodeOf? target = some (t.number target salt) ∧
      after.byInode.get? (t.number target salt) = some ⟨target, 0⟩

/-- Once what is bound to a path is dropped, the path enters the table under its first free number. -/
theorem Consistent.enters_unbound (h : t.Consistent) (hroot : t.inodeOf? target ≠ some rootInode)
    (hfirst : (t.unbindPath target).2.FirstFree target salt) :
    (t.unbindPath target).2.Enters target (t.number target salt) 0
      ((t.unbindPath target).2.bind target) := by
  have henters := hfirst.enters (h.unbindPath target) (inodeOf?_unbindPath_self hroot) 0
  rwa [number_unbindPath] at henters

theorem lists_bind_only (t : InodeTable) (path : Path) : t.Lists (t.bind path).2 (· = path) :=
  lists_bind rfl

theorem Consistent.rebinds (h : t.Consistent) (target : Path) :
    t.Rebinds target ((t.unbindPath target).2.bind target).2 where
  kept i e he hc := by
    apply (lists_bind_only _ target).kept
    rw [get?_byInode_unbindPath, if_neg, he]
    exact fun hat => hc ((h.inodeOf?_iff_of_entry he).1 hat.1)
  located l hl := by
    rw [get?_byLocation_bind hl, get?_byLocation_unbindPath hl]
  only i e he hc := by
    rcases (lists_bind_only _ target).fresh he with hat | ⟨path, rfl, _, rfl⟩
    · rw [get?_byInode_unbindPath] at hat
      split at hat
      · cases hat
      · exact hat
    · exact absurd rfl hc
  rebound hroot salt hfirst := by
    have henters := h.enters_unbound hroot hfirst
    exact ⟨(henters.private_after target).2 rfl, henters.entry⟩

/-- At the target itself, a binding and its references stay exactly if it is the root's, or if it has no
reference and its inode is the number that the target gets. -/
theorem Consistent.rebinds_same_iff (h : t.Consistent) (he : t.byInode.get? i = some e)
    (hc : e.path.components = target.components)
    (hafter : after = ((t.unbindPath target).2.bind target).2) :
    (after.inodeOf? target = some i ∧ after.lookups? i = some e.lookups) ↔
      i = rootInode ∨ (e.lookups = 0 ∧
        ∃ salt, (t.unbindPath target).2.FirstFree target salt ∧ t.number target salt = i) := by
  subst hafter
  have hat := (h.inodeOf?_iff_of_entry he).2 hc
  by_cases hroot : i = rootInode
  · subst hroot
    have hsame : (t.unbindPath target).2 = t := by simp [InodeTable.unbindPath, hat]
    rw [hsame]
    obtain ⟨e', he', _, hcounted⟩ := (h.recounts hat 0).entry
    obtain rfl := Option.some.inj (he.symm.trans he')
    refine iff_of_true ⟨?_, ?_⟩ (.inl rfl)
    · rw [inodeOf?, InodeTable.bind, (h.recounts hat 0).locations_kept]
      exact hat
    · rw [lookups?, InodeTable.bind, hcounted]
      rfl
  · have hroot' : t.inodeOf? target ≠ some rootInode := fun hr =>
      hroot (Option.some.inj (hat.symm.trans hr))
    constructor
    · rintro ⟨hbound, hcount⟩
      cases hfree : (t.unbindPath target).2.free? target with
      | none =>
        have hunbound := inodeOf?_unbindPath_self hroot'
        simp [InodeTable.bind, InodeTable.insert, hunbound, hfree] at hbound
      | some j =>
        obtain ⟨salt, hfirst, _⟩ := exists_firstFree_of_free? hfree
        have henters := h.enters_unbound hroot' hfirst
        have hnumber : t.number target salt = i :=
          Option.some.inj (((henters.private_after target).2 rfl).symm.trans hbound)
        rw [lookups?, ← hnumber, henters.entry] at hcount
        exact .inr ⟨(Option.some.inj hcount).symm, salt, hfirst, hnumber⟩
    · rintro (hr | ⟨hzero, salt, hfirst, rfl⟩)
      · exact absurd hr hroot
      · have henters := h.enters_unbound hroot' hfirst
        exact ⟨(henters.private_after target).2 rfl, by rw [lookups?, henters.entry, hzero]; rfl⟩

/-- The binding of a source and its references stay exactly if the source is not the target, or as much
as the target's do. -/
theorem Consistent.rebinds_source_iff (h : t.Consistent) (he : t.byInode.get? i = some e)
    (hc : e.path.components = source.components)
    (hafter : after = ((t.unbindPath target).2.bind target).2) :
    (after.inodeOf? source = some i ∧ after.lookups? i = some e.lookups) ↔
      source.components ≠ target.components ∨ i = rootInode ∨ (e.lookups = 0 ∧
        ∃ salt, (t.unbindPath target).2.FirstFree target salt ∧ t.number target salt = i) := by
  by_cases hsame : source.components = target.components
  · rw [inodeOf?_congr hsame, h.rebinds_same_iff he (hc.trans hsame) hafter]
    simp [hsame]
  · have hrebinds := h.rebinds target
    rw [← hafter] at hrebinds
    refine iff_of_true ⟨?_, ?_⟩ (.inl hsame)
    · rw [inodeOf?, hrebinds.located _ hsame]
      exact (h.inodeOf?_iff_of_entry he).2 hc
    · rw [lookups?, hrebinds.kept i e he (hc ▸ hsame)]
      rfl

end InodeTable

namespace Dispatcher

variable {d d' : Dispatcher} {parent newParent : Inode} {name newName : Name}
  {source target : Path} {events : List Event} {out : Option Outcome}

/-- A rename either fails or binds its target anew, and does nothing else to the state. -/
theorem Conduct.renames_rebinding
    (h : Conduct d (.rename parent name newParent newName) events out d')
    (policy : d.options.renamePolicy = .rebind) (named : d.childOf parent name = .ok source)
    (renamed : d.childOf newParent newName = .ok target) :
    (∃ e, events = [⟨.rename source target, .error e⟩]) ∨
      (out = some .ok ∧
        d' = { d with inodes := ((d.inodes.unbindPath target).2.bind target).2 }) := by
  have hgood := (Begins.rename named renamed).fault?_eq_none
  cases h with
  | refused bad =>
    rw [hgood] at bad
    cases bad
  | settled _ settles => cases settles
  | failed begins e =>
    cases begins with
    | rename named' renamed' =>
      obtain rfl := Except.ok.inj (named.symm.trans named')
      obtain rfl := Except.ok.inj (renamed.symm.trans renamed')
      exact .inl ⟨e, rfl⟩
  | made begins makes | unseen begins makes =>
    cases begins
    cases makes
  | removed begins removes =>
    cases begins
    cases removes
  | moved policy' =>
    rw [policy] at policy'
    cases policy'
  | rebound _ named' renamed' =>
    obtain rfl := Except.ok.inj (named.symm.trans named')
    obtain rfl := Except.ok.inj (renamed.symm.trans renamed')
    exact .inr ⟨rfl, rfl⟩

/-- Under the policy that rebinds, a rename that storage accepts leaves all bindings as they are but for
that of its target, which is bound under its first free number.  So it leaves the source as it is unless
the source is the target: then the references held to it are lost. -/
theorem rebind_keeps_source_iff {σ : Type} (s : Storage σ) (d : Dispatcher) (state : σ)
    (parent newParent : Inode) (name newName : Name) (source target : Path)
    (consistent : d.inodes.Consistent) (policy : d.options.renamePolicy = .rebind)
    (named : d.childOf parent name = .ok source)
    (renamed : d.childOf newParent newName = .ok target)
    (accepted : (s.perform (.rename source target) state).1 = .ok ()) :
    let served := (serveOver s d state (.rename parent name newParent newName)).1
    served.outcome = some .ok ∧
    served.after = { d with inodes := served.after.inodes } ∧
    d.inodes.Rebinds target served.after.inodes ∧
    ∀ i e, d.inodes.byInode.get? i = some e → e.path.components = source.components →
      ((served.after.inodes.inodeOf? source = some i ∧
          served.after.inodes.lookups? i = some e.lookups) ↔
        source.components ≠ target.components ∨ i = rootInode ∨ (e.lookups = 0 ∧
          ∃ salt, (d.inodes.unbindPath target).2.FirstFree target salt ∧
            d.inodes.number target salt = i)) := by
  intro served
  have hconduct : Conduct d _ served.events served.outcome served.after :=
    serve_conduct (serveOver_possible s d state _)
  rcases hconduct.renames_rebinding policy named renamed with ⟨e, hfails⟩ | ⟨hout, hafter⟩
  · have hanswers := serveOver_answers s d state (.rename parent name newParent newName)
    rw [show (serveOver s d state _).1.events = _ from hfails] at hanswers
    obtain ⟨_, hcall, _⟩ := hanswers
    rw [hcall] at accepted
    cases accepted
  · have hinodes : served.after.inodes = ((d.inodes.unbindPath target).2.bind target).2 := by
      rw [hafter]
    refine ⟨hout, by rw [hafter], ?_, ?_⟩
    · rw [hinodes]
      exact consistent.rebinds target
    · exact fun i e he hc => consistent.rebinds_source_iff he hc hinodes

/-- A file that the kernel holds twice is renamed to where it is: the host does nothing, but the
references are lost. -/
theorem rename_to_itself_loses_references :
    let root : Path := ⟨[slash]⟩
    let path : Path := ⟨[slash, 0x61]⟩
    let storage := HostStorage.serving root
    let state := HostStorage.new (Host.fresh 0 .epoch .fallback)
    let number : Numbering := fun _ salt => salt + 2
    let requests : List Request := [.create rootInode [0x61] 0o644 0, .lookup rootInode [0x61]]
    let first := stateAfter storage (start number { renamePolicy := .rebind } root) state requests
    let served := (serveOver storage first.1 first.2 (.rename rootInode [0x61] rootInode [0x61])).1
    first.1.options.renamePolicy = .rebind ∧
    first.1.childOf rootInode [0x61] = .ok path ∧
    (storage.perform (.rename path path) first.2).1 = .ok () ∧
    first.1.inodes.byInode.get? 2 = some ⟨path, 2⟩ ∧
    served.outcome = some .ok ∧
    ¬ (served.after.inodes.inodeOf? path = some 2 ∧ served.after.inodes.lookups? 2 = some 2) := by
  intro root path storage state number requests first served
  have hconsistent : first.1.inodes.Consistent :=
    (history_serveAll storage _ state requests).consistent
      (InodeTable.consistent_withNumbering number root)
      (renamesApart_of_forall_ne (by simp [requests]))
  have hpolicy : first.1.options.renamePolicy = .rebind := by decide +kernel
  have hroot : first.1.inodes.resolve? rootInode = some root := by decide +kernel
  have hnamed : first.1.childOf rootInode [0x61] = .ok path :=
    childOf_eq_ok_iff.2 ⟨by decide, root, hroot, by decide⟩
  have haccepted : (storage.perform (.rename path path) first.2).1 = .ok () := by
    have hok : (storage.perform (.rename path path) first.2).1.isOk = true := by decide +kernel
    cases hresult : (storage.perform (.rename path path) first.2).1 with
    | ok answer => rfl
    | error e =>
      rw [hresult] at hok
      cases hok
  have hentry : first.1.inodes.byInode.get? 2 = some ⟨path, 2⟩ := by decide +kernel
  obtain ⟨hout, _, _, hsource⟩ := rebind_keeps_source_iff storage first.1 first.2 rootInode rootInode
    [0x61] [0x61] path path hconsistent hpolicy hnamed hnamed haccepted
  refine ⟨hpolicy, hnamed, haccepted, hentry, hout, ?_⟩
  rw [hsource 2 ⟨path, 2⟩ hentry rfl]
  rintro (hdiffer | hroot | ⟨hzero, _⟩)
  · exact hdiffer rfl
  · cases hroot
  · cases hzero

end Dispatcher
end InodeBridge
