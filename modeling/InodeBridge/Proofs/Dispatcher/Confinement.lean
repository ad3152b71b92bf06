import InodeBridge.Proofs.Dispatcher.Reordering
import InodeBridge.Proofs.InodeTable.Confinement

/-! # A dispatcher keeps to its root

The paths that a dispatcher hands to storage are those it has bound, those of their entries, and the
directories above them as far as the root.  All of them are within the root, whatever the kernel asks and
storage answers, as long as the names that storage lists are those of entries.
-/
namespace InodeBridge

open Storage (Call Event)

namespace Storage

/-- The paths that a call hands to storage; what a link is made to contain is not one of them. -/
def Call.paths : Call → List Path
  | .stat path | .chmod path _ | .truncate path _ | .setTimes path _ _ | .mkdir path _
  | .create path _ | .unlink path | .rmdir path | .symlink _ path | .readlink path | .open path _
  | .readdir path | .statfs path => [path]
  | .link source target | .rename source target => [source, target]
  | .truncateOpen .. | .read .. | .write .. | .close _ => []

def Call.entries : Call → List Path
  | .mkdir path _ | .create path _ | .unlink path | .rmdir path | .link _ path
  | .symlink _ path => [path]
  | .rename source target => [source, target]
  | _ => []

/-- All paths of a call are within a directory, and the entries it changes are below it. -/
structure Call.KeepsTo (root : Path) (c : Call) : Prop where
  within : ∀ path ∈ c.paths, path.Within root
  below : ∀ path ∈ c.entries, path.Below root

end Storage

theorem InodeTable.Reorders.confined {t u : InodeTable} {root : Path} (h : t.Reorders u)
    (ht : t.Confined root) : u.Confined root where
  root_eq := h.root.trans ht.root_eq
  root_entry := (h.resolve? _).trans ht.root_entry
  root_binding := (h.inodeOf? _).trans ht.root_binding
  entry_within he := ht.entry_within (h.get?_byInode _ ▸ he)
  spelling_components hb := ht.spelling_components (h.get?_byLocation _ ▸ hb)
  binding_within hb := ht.binding_within (h.get?_byLocation _ ▸ hb)
  root_alone hb := ht.root_alone (h.get?_byLocation _ ▸ hb)

namespace Dispatcher

variable {d d' : Dispatcher} {t : InodeTable} {root path : Path}

theorem parentWithin_within (root path : Path) : (parentWithin root path).Within root := by
  unfold parentWithin
  split
  · split
    next h => exact List.isPrefixOf_iff_prefix.1 h.2
    · exact Path.within_refl root
  · exact Path.within_refl root

theorem confined_forgetAll (nodes : List (Inode × UInt64)) (h : t.Confined root) :
    (forgetAll nodes t).Confined root := by
  induction nodes generalizing t with
  | nil => exact h
  | cons node nodes ih => exact ih (h.forget node.1 _)

theorem confined_bindingAll {directory : Path} {names : List Name}
    (hdirectory : directory.Within root) (hnames : ∀ name ∈ names, name.isEntry = true)
    (h : t.Confined root) : (bindingAll directory names t).Confined root := by
  induction names generalizing t with
  | nil => exact h
  | cons name names ih =>
    obtain ⟨hname, hrest⟩ := List.forall_mem_cons.1 hnames
    exact ih hrest (h.insert (hdirectory.child hname).1 0)

theorem confined_bindingAbove (inode : Inode) (directory : Path) (h : t.Confined root) :
    (bindingAbove inode directory t).2.Confined root := by
  unfold bindingAbove
  split
  · exact h
  · exact h.insert (h.root_eq ▸ parentWithin_within t.root directory) 0

theorem childOf_below {parent : Inode} {name : Name} (h : d.inodes.Confined root)
    (hpath : d.childOf parent name = .ok path) : path.Below root := by
  obtain ⟨hname, directory, hdirectory, rfl⟩ := childOf_eq_ok_iff.1 hpath
  exact (h.within_of_resolve? hdirectory).child hname

theorem lookupOf_within {parent : Inode} {name : Name} (h : d.inodes.Confined root)
    (hpath : d.lookupOf parent name = .ok path) : path.Within root := by
  unfold lookupOf at hpath
  split at hpath
  · exact h.within_of_resolve? (pathOf_eq_ok_iff.1 hpath)
  · split at hpath
    · cases hparent : d.pathOf parent with
      | error e => simp [hparent, Except.map] at hpath
      | ok directory =>
        obtain rfl : parentWithin d.inodes.root directory = path := by
          simpa [hparent, Except.map] using hpath
        exact h.root_eq ▸ parentWithin_within d.inodes.root directory
    · exact (childOf_below h hpath).1

section Step

variable {req : Request} {events : List Event} {out : Option Outcome}

theorem keepsTo_of_asking {c : Call} (hpaths : c.paths = [path]) (hentries : c.entries = [])
    (hpath : path.Within root) : c.KeepsTo root where
  within := by simpa [hpaths] using hpath
  below := by simp [hentries]

theorem keepsTo_of_changing {c : Call} (hpaths : c.paths = [path]) (hentries : c.entries = [path])
    (hpath : path.Below root) : c.KeepsTo root where
  within := by simpa [hpaths] using hpath.1
  below := by simpa [hentries] using hpath

theorem keepsTo_of_pathless {c : Call} (hpaths : c.paths = []) (hentries : c.entries = []) :
    c.KeepsTo root where
  within := by simp [hpaths]
  below := by simp [hentries]

theorem keepsTo_rename {source target : Path} (hsource : source.Below root)
    (htarget : target.Below root) : (Call.rename source target).KeepsTo root where
  within := by simpa [Call.paths] using ⟨hsource.1, htarget.1⟩
  below := by simpa [Call.entries] using ⟨hsource, htarget⟩

theorem Begins.keepsTo {c : Call} (begins : Begins d req c) (h : d.inodes.Confined root) :
    c.KeepsTo root := by
  cases begins with
  | lookup named => exact keepsTo_of_asking rfl rfl (lookupOf_within h named)
  | getattr bound | readlink bound | readdir _ bound =>
    exact keepsTo_of_asking rfl rfl (h.within_of_resolve? bound)
  | mkdir named | create named | unlink named | rmdir named | symlink named =>
    exact keepsTo_of_changing rfl rfl (childOf_below h named)
  | rename named renamed => exact keepsTo_rename (childOf_below h named) (childOf_below h renamed)
  | link bound named =>
    exact {
      within := by simpa [Call.paths] using ⟨h.within_of_resolve? bound, (childOf_below h named).1⟩
      below := by simpa [Call.entries] using childOf_below h named }
  | read | write => exact keepsTo_of_pathless rfl rfl

theorem Begins.below {c : Call} (begins : Begins d req c) (h : d.inodes.Confined root)
    (hpath : c.made? = some path ∨ c.removed? = some path) : path.Below root := by
  have hentries : path ∈ c.entries := by
    cases c <;> simp_all [Call.made?, Call.removed?, Call.entries]
  exact (begins.keepsTo h).below path hentries

theorem keepsTo_of_mem_changeCalls {inode : Inode} {changes : AttributeChanges} {c : Call}
    (h : c ∈ d.changeCalls inode path changes) (hpath : path.Within root) : c.KeepsTo root := by
  obtain ⟨_, rfl⟩ | ⟨_, _, _, rfl⟩ | ⟨_, rfl⟩ | ⟨_, _, rfl⟩ := mem_changeCalls h
  · exact keepsTo_of_asking rfl rfl hpath
  · exact keepsTo_of_pathless rfl rfl
  · exact keepsTo_of_asking rfl rfl hpath
  · exact keepsTo_of_asking rfl rfl hpath

/-- The paths of all calls made for a request are within the root, and so are those that are bound
afterwards. -/
theorem Conduct.confined (h : Conduct d req events out d') (hd : d.inodes.Confined root)
    (hnames : ∀ path (names : List Name), (⟨.readdir path, .ok names⟩ : Event) ∈ events →
      ∀ name ∈ names, name.isEntry = true) :
    (∀ event ∈ events, event.call.KeepsTo root) ∧ d'.inodes.Confined root := by
  have hstat {path : Path} (hpath : path.Within root) : (Call.stat path).KeepsTo root :=
    keepsTo_of_asking rfl rfl hpath
  have hopen {path : Path} (hpath : path.Within root) (mode : OpenMode) :
      (Call.open path mode).KeepsTo root :=
    keepsTo_of_asking rfl rfl hpath
  cases h with
  | refused | settled | unheld => exact ⟨by simp, hd⟩
  | failed begins => exact ⟨by simpa using begins.keepsTo hd, hd⟩
  | found named =>
    have hpath := lookupOf_within hd named
    exact ⟨by simpa using hstat hpath, hd.insert hpath 1⟩
  | described bound => exact ⟨by simpa using hstat (hd.within_of_resolve? bound), hd⟩
  | rejected bound tries =>
    exact ⟨fun event hevent => keepsTo_of_mem_changeCalls (tries.call_mem event hevent)
      (hd.within_of_resolve? bound), hd⟩
  | changed bound tries | untold bound tries =>
    have hpath := hd.within_of_resolve? bound
    refine ⟨List.forall_mem_append.2 ⟨fun event hevent => ?_, by simpa using hstat hpath⟩, hd⟩
    exact keepsTo_of_mem_changeCalls (tries.call_mem event hevent) hpath
  | followed bound =>
    exact ⟨by simpa using keepsTo_of_asking rfl rfl (hd.within_of_resolve? bound), hd⟩
  | made begins makes =>
    have hpath := begins.below hd (.inl makes)
    exact ⟨by simpa using ⟨begins.keepsTo hd, hstat hpath.1⟩, hd.insert hpath.1 1⟩
  | unseen begins makes =>
    have hpath := begins.below hd (.inl makes)
    exact ⟨by simpa using ⟨begins.keepsTo hd, hstat hpath.1⟩, hd⟩
  | created named =>
    have hpath := childOf_below hd named
    exact ⟨by simpa using ⟨keepsTo_of_changing rfl rfl hpath, hstat hpath.1⟩, hd.insert hpath.1 1⟩
  | abandoned named =>
    have hpath := childOf_below hd named
    refine ⟨?_, hd⟩
    simpa using ⟨keepsTo_of_changing rfl rfl hpath, hstat hpath.1, keepsTo_of_pathless rfl rfl⟩
  | removed begins => exact ⟨by simpa using begins.keepsTo hd, hd.unbindPath _⟩
  | moved _ named renamed =>
    have hsource := childOf_below hd named
    have htarget := childOf_below hd renamed
    exact ⟨by simpa using keepsTo_rename hsource htarget, hd.rename hsource htarget⟩
  | rebound _ named renamed =>
    have hsource := childOf_below hd named
    have htarget := childOf_below hd renamed
    exact ⟨by simpa using keepsTo_rename hsource htarget, (hd.unbindPath _).insert htarget.1 0⟩
  | opened bound | openedToRead bound | unopened bound =>
    exact ⟨by simp [hopen (hd.within_of_resolve? bound)], hd⟩
  | fetched | stored | released => exact ⟨by simpa using keepsTo_of_pathless rfl rfl, hd⟩
  | listed _ resolves listing =>
    have hpath := hd.within_of_resolve? resolves
    have hentries := hnames _ _ List.mem_cons_self
    refine ⟨List.forall_mem_cons.2 ⟨keepsTo_of_asking rfl rfl hpath, fun event hevent => ?_⟩, ?_⟩
    · obtain ⟨name, hname, hcall⟩ := listing.stats event hevent
      rw [hcall]
      exact hstat (hpath.child (hentries name hname)).1
    · refine confined_bindingAll hpath (fun name hname => ?_) (confined_bindingAbove _ _ hd)
      exact hentries name (listing.described name hname).1
  | measured =>
    exact ⟨by simpa using keepsTo_of_asking rfl rfl (hd.root_eq ▸ Path.within_refl _), hd⟩
  | forgot | forgotAll => exact ⟨by simp, confined_forgetAll _ hd⟩
  | destroyed closes =>
    refine ⟨fun event hevent => ?_, hd⟩
    obtain ⟨fd, hfd⟩ := exists_close_of_mem closes event hevent
    rw [hfd]
    exact keepsTo_of_pathless rfl rfl

end Step

/-- Over any storage that lists nothing but names of entries, all paths that are handed to it or
bound are within the root, those that are made, removed or renamed are below it, and the root's
inode stays bound to the root and to no other location. -/
theorem run_keeps_to_root {σ : Type} (s : Storage σ) (number : Numbering) (options : MountOptions)
    (root : Path) (state state' : σ) (hist : List Service) (d : Dispatcher)
    (hrun : RunsOver s (start number options root) state hist d state')
    (hnames : ∀ path met (names : List Name), (s.perform (.readdir path) met).1 = .ok names →
      ∀ name ∈ names, name.isEntry = true) :
    (∀ r ∈ hist, ∀ event ∈ r.events, (∀ path ∈ event.call.paths, path.Within root) ∧
      ∀ path ∈ event.call.entries, path.Below root) ∧
    (∀ i path, d.inodes.resolve? i = some path → path.Within root) ∧
    (∀ i path, d.inodes.inodeOf? path = some i → path.Within root) ∧
    d.inodes.resolve? rootInode = some root ∧
    ∀ path, d.inodes.inodeOf? path = some rootInode ↔ path.components = root.components := by
  have hlists : ∀ r ∈ hist, ∀ path (names : List Name),
      (⟨.readdir path, .ok names⟩ : Event) ∈ r.events → ∀ name ∈ names, name.isEntry = true := by
    intro r hr path names hevent
    obtain ⟨met, hmet⟩ :=
      hrun.answers.perform_of_mem _ (List.mem_flatMap.2 ⟨r, hr, hevent⟩)
    exact hnames path met names hmet
  obtain ⟨hbefore, hend⟩ := hrun.invariant (P := fun d => d.inodes.Confined root)
    (InodeTable.confined_withNumbering number root)
    (fun d mid hreorders hd => hreorders.inodes.confined hd)
    fun r hr hpossible hd => ((serve_conduct hpossible).confined hd (hlists r hr)).2
  refine ⟨fun r hr event hevent => ?_, fun i path => hend.within_of_resolve?,
    fun i path => hend.within_of_inodeOf?, hend.root_entry, fun path => hend.inodeOf?_eq_root_iff⟩
  have hkeeps := ((serve_conduct (hrun.possible r hr)).confined (hbefore r hr) (hlists r hr)).1
  exact ⟨(hkeeps event hevent).within, (hkeeps event hevent).below⟩

/-- A storage lets a directory be moved into itself; its inode then stands for a path below the one
that it had. -/
theorem moved_into_itself_keeps_to_root :
    let root : Path := ⟨[slash, 0x72]⟩
    let stat : Stat := ⟨.directory, 0, 0, .epoch, .epoch, .epoch, 0o755, 1, ⟨0, 0⟩, 0, 512⟩
    let storage : Storage Unit := {
      root
      perform
        | .stat _, u => (.ok stat, u)
        | .rename _ _, u => (.ok (), u)
        | .readdir _, u => (.ok [[0x62], [0x63]], u)
        | _, u => (.error (.host Errno.inputOutput), u) }
    let requests : List Request := [.lookup rootInode [0x61], .lookup 2 [0x62],
      .rename rootInode [0x61] 2 [0x62], .readdir 2 0 0 4096, .lookup rootInode Name.above]
    let number : Numbering := fun _ salt => salt + 2
    let hist := serveAll storage (start number {} root) () requests
    let d := (stateAfter storage (start number {} root) () requests).1
    (∀ path met (names : List Name), (storage.perform (.readdir path) met).1 = .ok names →
      ∀ name ∈ names, name.isEntry = true) ∧
    d.inodes.resolve? 2 = some ((root.child [0x61]).child [0x62]) ∧
    ((root.child [0x61]).child [0x62]).Within root ∧
    (∀ r ∈ hist, ∀ event ∈ r.events, ∀ path ∈ event.call.entries, path.Below root) ∧
    d.inodes.resolve? rootInode = some root := by
  intro root stat storage requests number hist d
  have hnames : ∀ path met (names : List Name),
      (storage.perform (.readdir path) met).1 = .ok names →
        ∀ name ∈ names, name.isEntry = true := by
    intro path met names h
    obtain rfl : ([[0x62], [0x63]] : List Name) = names := Except.ok.inj h
    decide
  have hmoved : d.inodes.resolve? 2 = some ((root.child [0x61]).child [0x62]) := by decide +kernel
  obtain ⟨hcalls, hbound, _, hroot, _⟩ := run_keeps_to_root storage number {} root () _ hist d
    (runsOver_serveAll storage (start number {} root) () requests) hnames
  exact ⟨hnames, hmoved, hbound 2 _ hmoved, fun r hr event hevent => (hcalls r hr event hevent).2,
    hroot⟩

end Dispatcher
end InodeBridge
