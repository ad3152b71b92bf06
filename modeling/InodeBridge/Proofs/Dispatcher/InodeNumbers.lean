import InodeBridge.Proofs.Dispatcher.Lives
import InodeBridge.Proofs.Dispatcher.ObjectStability
import InodeBridge.Proofs.InodeTable.Unsalted

/-! # Inode numbers do not depend on history

A dispatcher goes down from the paths that it has bound, by names of entries, and up again as far as the
root.  So all paths that it ever binds, but those that a rename takes along, are spelled as they are
reached from the root, and the number of each is that of its spelling.  Two dispatchers with one root
then agree on the inode of every path that both have bound, whatever each of them did before.
-/
namespace InodeBridge

open Storage (Call Event)

namespace Path

variable {p root : Path}

/-- Above what was gone down to is what was gone down through, or the root. -/
theorem DescendsFrom.parentWithin (h : p.DescendsFrom root) :
    (Dispatcher.parentWithin root p).DescendsFrom root ∨
      (Dispatcher.parentWithin root p).components = root.components := by
  obtain ⟨names, hnames, rfl⟩ := h
  unfold Dispatcher.parentWithin
  split
  next parent hparent =>
    split
    next hbelow =>
      obtain rfl | ⟨front, name, rfl⟩ := names.eq_nil_or_concat'
      · exact absurd rfl hbelow.1
      obtain ⟨hfront, hname⟩ := List.forall_mem_append.1 hnames
      rw [descend_concat, parent?_child _ (hname name (List.mem_singleton_self name))] at hparent
      obtain rfl := Option.some.inj hparent
      -- the root alone may have been spelled with blank pieces at the end
      obtain rfl | ⟨front, last, rfl⟩ := front.eq_nil_or_concat'
      · exact .inr root.components_trimmed
      · have htrimmed := (root.descend front).trimmed_child (hfront last (by simp))
        rw [← descend_concat] at htrimmed
        exact .inl ⟨_, hfront, htrimmed⟩
    next => exact .inr rfl
  next => exact .inr rfl

end Path

namespace Dispatcher

variable {d d' : Dispatcher} {t : InodeTable} {number : Numbering} {root path : Path}
  {paths : Set Path}

@[simp] theorem number_forgetAll (nodes : List (Inode × UInt64)) (t : InodeTable) :
    (forgetAll nodes t).number = t.number := by
  induction nodes generalizing t with
  | nil => rfl
  | cons node nodes ih => rw [forgetAll, ih, InodeTable.number_forget]

section Binding

variable (hseparates : number.Separates paths)
include hseparates

theorem unsalted_bindingAll {directory : Path} {names : List Name}
    (h : t.Unsalted number root) (hdirectory : directory.DescendsFrom root)
    (hnames : ∀ name ∈ names, name.isEntry = true)
    (hbinds : (bindingAll directory names t).BindsIn root paths) :
    (bindingAll directory names t).Unsalted number root := by
  induction names generalizing t with
  | nil => exact h
  | cons name names ih =>
    obtain ⟨hname, hrest⟩ := List.forall_mem_cons.1 hnames
    have hlater : (t.bind (directory.child name)).2.Binds
        (bindingAll directory names (t.bind (directory.child name)).2) fun _ => True :=
      binds_bindingAll _ fun _ _ => trivial
    refine ih ?_ hrest hbinds
    exact h.insert hseparates (.inl (hdirectory.child hname)) 0 fun i p hp =>
      hbinds i p (hlater.kept hp)

theorem unsalted_bindingAbove {directory : Path} (inode : Inode) (h : t.Unsalted number root)
    (hdirectory : directory.DescendsFrom root)
    (hbinds : (bindingAbove inode directory t).2.BindsIn root paths) :
    (bindingAbove inode directory t).2.Unsalted number root := by
  unfold bindingAbove at hbinds ⊢
  split at hbinds
  next hroot =>
    rw [if_pos hroot]
    exact h
  next hroot =>
    rw [if_neg hroot]
    exact h.insert hseparates (h.root_eq ▸ hdirectory.parentWithin) 0 hbinds

end Binding

theorem childOf_descends (h : d.inodes.Unsalted number root) {parent : Inode} {name : Name}
    (hpath : d.childOf parent name = .ok path) : path.DescendsFrom root := by
  obtain ⟨hname, p, hp, rfl⟩ := childOf_eq_ok_iff.1 hpath
  exact (h.descends hp).child hname

/-- What is handed to the kernel was gone down to from the root, or is the root. -/
theorem entryPath?_descends (h : d.inodes.Unsalted number root) {req : Request}
    (hasked : d.entryPath? req = some path) :
    path.DescendsFrom root ∨ path.components = root.components := by
  have hok {α : Type} {r : Except RequestError α} {a : α} (hr : r.toOption = some a) : r = .ok a := by
    cases r with
    | ok _ => exact congrArg _ (Option.some.inj hr)
    | error _ => cases hr
  cases req with
  | lookup parent name =>
    have hpath : d.lookupOf parent name = .ok path := hok hasked
    unfold lookupOf at hpath
    split at hpath
    · exact .inl (h.descends (pathOf_eq_ok_iff.1 hpath))
    · split at hpath
      · cases hparent : d.pathOf parent with
        | error e => simp [hparent, Except.map] at hpath
        | ok directory =>
          obtain rfl : parentWithin d.inodes.root directory = path := by
            simpa [hparent, Except.map] using hpath
          rw [h.root_eq]
          exact (h.descends (pathOf_eq_ok_iff.1 hparent)).parentWithin
      · exact .inl (childOf_descends h hpath)
  | mkdir | create | symlink | link => exact .inl (childOf_descends h (hok hasked))
  | _ => cases hasked

/-- Whether a request renamed something and took its inodes along. -/
def Service.carries (r : Service) : Bool :=
  match r.request with
  | .rename .. => r.before.options.renamePolicy == .move && r.outcome == some .ok
  | _ => false

/-- The paths bound at some time during a history, but for the root. -/
def everBound (root : Path) (hist : List Service) : Set Path :=
  {path | path.components ≠ root.components ∧
    ∃ r ∈ hist, ∃ i, r.after.inodes.resolve? i = some path}

/-- What a request does to the table needs no salt, if it takes no inodes along. -/
theorem Effect.unsalted {req : Request} {events : List Event} {out : Option Outcome}
    (h : Effect d req events out t) (hd : d.inodes.Unsalted number root)
    (hseparates : number.Separates paths) (hbinds : t.BindsIn root paths)
    (hnames : ∀ path (names : List Name), (⟨.readdir path, .ok names⟩ : Event) ∈ events →
      ∀ name ∈ names, name.isEntry = true)
    (hcarries : (⟨d, req, events, out, d'⟩ : Service).carries = false) :
    t.Unsalted number root := by
  cases h with
  | quiet => exact hd
  | handed asked => exact hd.insert hseparates (entryPath?_descends hd asked) 1 hbinds
  | @listed inode _ _ _ _ _ path names bound resolves _ lists described =>
    have hdirectory := hd.descends resolves
    have hlater : (bindingAbove inode path d.inodes).2.Binds
        (bindingAll path bound (bindingAbove inode path d.inodes).2) fun _ => True :=
      binds_bindingAll _ fun _ _ => trivial
    have habove := unsalted_bindingAbove hseparates inode hd hdirectory fun i p hp =>
      hbinds i p (hlater.kept hp)
    exact unsalted_bindingAll hseparates habove hdirectory
      (fun name hname => hnames _ _ lists name (described name hname).1) hbinds
  | forgot => exact hd.drops (drops_forgetAll _ _) (number_forgetAll _ _)
  | unlinked | rmdired =>
    exact hd.drops (InodeTable.drops_unbindPath _ _) (InodeTable.number_unbindPath _ _)
  | moved policy => simp [Service.carries, policy] at hcarries
  | @rebound _ _ _ _ _ target _ _ renamed =>
    have hcleared := hd.drops (InodeTable.drops_unbindPath _ target) (InodeTable.number_unbindPath _ _)
    exact hcleared.insert hseparates (.inl (childOf_descends hd renamed)) 0 hbinds

/-- After a run without renames that take inodes along, no number needed a salt. -/
theorem RunsOver.unsalted {σ : Type} {s : Storage σ} {options : MountOptions} {state state' : σ}
    {hist : List Service} (hrun : RunsOver s (start number options root) state hist d state')
    (hnames : ∀ path met (names : List Name), (s.perform (.readdir path) met).1 = .ok names →
      ∀ name ∈ names, name.isEntry = true)
    (hcarries : ∀ r ∈ hist, r.carries = false)
    (hseparates : number.Separates (everBound root hist)) : d.inodes.Unsalted number root := by
  refine (hrun.invariant (P := fun d => d.inodes.Unsalted number root)
    (InodeTable.unsalted_withNumbering number root) ?_ ?_).2
  · intro d mid hreorders hd
    have hresolve := hreorders.inodes.resolve?
    exact {
      number_eq := hreorders.inodes.number.trans hd.number_eq
      root_eq := hreorders.inodes.root.trans hd.root_eq
      consistent := hreorders.inodes.consistent hd.consistent
      root_bound := (hresolve _).trans hd.root_bound
      descends := fun hp => hd.descends ((hresolve _).symm.trans hp)
      inode_eq := fun hp => hd.inode_eq ((hresolve _).symm.trans hp) }
  · intro r hr hpossible hd
    refine (serve_effect hpossible).2.unsalted hd hseparates
      (fun i p hp hne => ⟨hne, r, hr, i, hp⟩) ?_ (hcarries r hr)
    intro path names hevent
    obtain ⟨met, hmet⟩ := hrun.answers.perform_of_mem _ (List.mem_flatMap.2 ⟨r, hr, hevent⟩)
    exact hnames path met names hmet

/-- Two dispatchers with one root serve any requests over any two storages that list nothing but names of
entries, and no rename takes inodes along.  If without a salt all paths that either of them ever binds,
but for the root, have different numbers and none that is reserved, then a path that both have bound
in the end, however they got there, has one inode and one spelling in both, and the inode is the number
of the spelling. -/
theorem inodes_independent_of_history {σ τ : Type} (s : Storage σ) (s' : Storage τ)
    (number : Numbering) (options options' : MountOptions) (root : Path) (start₁ end₁ : σ)
    (start₂ end₂ : τ) (hist hist' : List Service) (d d' : Dispatcher)
    (hrun : RunsOver s (start number options root) start₁ hist d end₁)
    (hrun' : RunsOver s' (start number options' root) start₂ hist' d' end₂)
    (hnames : ∀ path met (names : List Name), (s.perform (.readdir path) met).1 = .ok names →
      ∀ name ∈ names, name.isEntry = true)
    (hnames' : ∀ path met (names : List Name), (s'.perform (.readdir path) met).1 = .ok names →
      ∀ name ∈ names, name.isEntry = true)
    (hcarries : ∀ r ∈ hist ++ hist', r.carries = false)
    (hseparates : number.Separates (everBound root hist ∪ everBound root hist')) (path : Path)
    (i i' : Inode) (hpath : path.components ≠ root.components)
    (hi : d.inodes.inodeOf? path = some i) (hi' : d'.inodes.inodeOf? path = some i') :
    i = i' ∧ ∃ spelling : Path, spelling.components = path.components ∧
      d.inodes.resolve? i = some spelling ∧ d'.inodes.resolve? i' = some spelling ∧
      i = number spelling 0 := by
  obtain ⟨hcarries₁, hcarries₂⟩ := List.forall_mem_append.1 hcarries
  have h₁ := hrun.unsalted hnames hcarries₁ (hseparates.mono Set.subset_union_left)
  have h₂ := hrun'.unsalted hnames' hcarries₂ (hseparates.mono Set.subset_union_right)
  obtain ⟨p, hp, hc, hnumber⟩ := h₁.exists_spelling hi hpath
  obtain ⟨p', hp', hc', hnumber'⟩ := h₂.exists_spelling hi' hpath
  obtain ⟨names, hentries, rfl⟩ := h₁.descends hp
  obtain ⟨names', hentries', rfl⟩ := h₂.descends hp'
  have hspelling := Path.descend_eq_of_components hentries hentries' (hc.trans hc'.symm)
  rw [← hspelling] at hp' hnumber'
  exact ⟨hnumber.trans hnumber'.symm, _, hc, hp, hp', hnumber⟩

/-- One dispatcher looks entries up, forgets one and comes back to it from below; another one lists the
directory, and renames an entry under the other policy.  The root is spelled with two separators at its
end.  The entry has the same inode in both. -/
theorem listed_entry_has_looked_up_inode :
    let root : Path := ⟨[slash, 0x72, slash, slash]⟩
    let stat : Stat := ⟨.directory, 0, 0, .epoch, .epoch, .epoch, 0o755, 1, ⟨0, 0⟩, 0, 512⟩
    let storage (names : List Name) : Storage Unit := {
      root
      perform
        | .stat _, u => (.ok stat, u)
        | .rename _ _, u => (.ok (), u)
        | .readdir _, u => (.ok names, u)
        | _, u => (.error (.host Errno.inputOutput), u) }
    let number : Numbering := fun path salt => (path.bytes.map (·.toUInt64)).sum + salt
    let requests : List Request := [.lookup rootInode [0x61], .lookup 352 [0x62],
      .forget 352 1, .lookup 497 Name.above]
    let requests' : List Request := [.readdir rootInode 0 0 4096,
      .rename rootInode [0x63] rootInode [0x62], .readdir rootInode 0 0 4096]
    let options' : MountOptions := { renamePolicy := .rebind }
    let d := (stateAfter (storage []) (start number {} root) () requests).1
    let d' := (stateAfter (storage [[0x62], [0x61]]) (start number options' root) () requests').1
    let path : Path := ⟨[slash, 0x72, slash, 0x61]⟩
    d.inodes.inodeOf? path = some 352 ∧ d'.inodes.inodeOf? path = some 352 ∧
    ∃ spelling : Path, spelling.components = path.components ∧
      d.inodes.resolve? 352 = some spelling ∧ d'.inodes.resolve? 352 = some spelling ∧
      number spelling 0 = 352 := by
  intro root stat storage number requests requests' options' d d' path
  let hist := serveAll (storage []) (start number {} root) () requests
  let hist' := serveAll (storage [[0x62], [0x61]]) (start number options' root) () requests'
  have hlists : ∀ entries : List Name, (∀ name ∈ entries, name.isEntry = true) →
      ∀ path met (names : List Name), ((storage entries).perform (.readdir path) met).1 = .ok names →
        ∀ name ∈ names, name.isEntry = true := by
    intro entries hentries path met names h
    obtain rfl : entries = names := Except.ok.inj h
    exact hentries
  have hcarries : ∀ r ∈ hist ++ hist', r.carries = false := by decide +kernel
  let below : List Path := [root.child [0x61], root.child [0x62], (root.child [0x61]).child [0x62]]
  have hbound : ∀ r ∈ hist ++ hist', ∀ e ∈ r.after.inodes.byInode.entries,
      e.2.path.components ≠ root.components → e.2.path ∈ below := by
    decide +kernel
  have hever : everBound root hist ∪ everBound root hist' ⊆ {p | p ∈ below} := by
    have hin : ∀ r ∈ hist ++ hist', ∀ i p, r.after.inodes.resolve? i = some p →
        p.components ≠ root.components → p ∈ below := by
      intro r hr i p hp hne
      obtain ⟨e, he, rfl⟩ := InodeTable.resolve?_eq_some_iff.1 hp
      exact hbound r hr _ ((FiniteMap.get?_eq_some_iff _ _ _).1 he) hne
    rintro p (⟨hne, r, hr, i, hp⟩ | ⟨hne, r, hr, i, hp⟩)
    · exact hin r (List.mem_append_left _ hr) i p hp hne
    · exact hin r (List.mem_append_right _ hr) i p hp hne
  have hseparates : number.Separates {p | p ∈ below} := by
    refine ⟨fun p hp q hq hpq => ?_, ?_⟩
    · have hall : ∀ p ∈ below, ∀ q ∈ below, number p 0 = number q 0 → p = q := by decide +kernel
      exact hall p hp q hq hpq
    · change ∀ path ∈ below, rootInode < number path 0
      decide +kernel
  have hi : d.inodes.inodeOf? path = some 352 := by decide +kernel
  have hi' : d'.inodes.inodeOf? path = some 352 := by decide +kernel
  obtain ⟨_, spelling, hspelling, hp, hp', hnumber⟩ :=
    inodes_independent_of_history (storage []) (storage [[0x62], [0x61]]) number {} options' root ()
      _ () _ hist hist' d d' (runsOver_serveAll _ _ _ requests) (runsOver_serveAll _ _ _ requests')
      (hlists [] (by simp)) (hlists _ (by decide)) hcarries (hseparates.mono hever) path 352 352
      (by decide +kernel) hi hi'
  exact ⟨hi, hi', spelling, hspelling, hp, hp', hnumber.symm⟩

end Dispatcher
end InodeBridge
