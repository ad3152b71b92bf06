import InodeBridge.Proofs.Dispatcher.Denotation
import InodeBridge.Proofs.Dispatcher.Runs

/-! # Inodes stand for one object each

A dispatcher that moves inodes along with renames serves a directory of a host which nobody else changes
and whose calls may fail.  As long as no link is used as a directory, every path that is bound names an
object, and no request makes a bound inode stand for another one.
-/
namespace InodeBridge

open Storage (Call Event)
open Host (ObjectId)

def Request.directories : Request → List Inode
  | .lookup parent _ | .mkdir parent _ _ | .create parent _ _ _ | .unlink parent _
  | .rmdir parent _ | .symlink parent _ _ | .link _ parent _ | .readdir parent _ _ _ => [parent]
  | .rename parent _ newParent _ => [parent, newParent]
  | _ => []

namespace Dispatcher

def entersLink (d : Dispatcher) (h : Host) (req : Request) : Bool :=
  req.directories.any fun inode =>
    ((d.inodes.resolve? inode).bind h.objectAt?).any fun id => (h.linkContent? id).isSome

def staysOffLinks (root : Path) : Dispatcher → List (Option StorageError) × HostStorage →
    List Request → Bool
  | _, _, [] => true
  | d, state, request :: requests =>
    let service := serveOver (HostStorage.failing root) d state request
    !d.entersLink state.2.host request && staysOffLinks root service.1.after service.2 requests

section Effects

variable {d : Dispatcher} {h : Host} {req : Request} {path p : Path} {id : ObjectId}

theorem linkContent?_of_entersLink (hlinks : d.entersLink h req = false) {inode : Inode}
    (hmem : inode ∈ req.directories) (hp : d.inodes.resolve? inode = some p)
    (hobject : h.objectAt? p = some id) : h.linkContent? id = none := by
  rw [entersLink, List.any_eq_false] at hlinks
  simpa [hp, hobject] using hlinks inode hmem

/-- The path above a path within the root is one, and what is there is above. -/
theorem parentWithin_prefix {root : Path} {steps : Location} (hp : p.components = .root :: steps)
    (hwithin : root.components <+: p.components) :
    root.components <+: (parentWithin root p).components ∧
      (parentWithin root p).components <+: p.components := by
  unfold parentWithin
  split
  next parent hparent =>
    split
    next habove =>
      refine ⟨List.isPrefixOf_iff_prefix.1 habove.2, ?_⟩
      rw [Path.components_of_parent? hp hparent]
      exact List.dropLast_prefix _
    · exact ⟨List.prefix_rfl, hwithin⟩
  · exact ⟨List.prefix_rfl, hwithin⟩

/-- What a request may bind: an entry of a directory, that directory or the one above it. -/
inductive Reachable (d : Dispatcher) (req : Request) : Path → Prop
  | entry {parent : Inode} {p : Path} {name : Name} (uses : parent ∈ req.directories)
    (bound : d.inodes.resolve? parent = some p) (named : name.isEntry = true) :
    Reachable d req (p.child name)
  | here {inode : Inode} {p : Path} (bound : d.inodes.resolve? inode = some p) : Reachable d req p
  | above {inode : Inode} {p : Path} (bound : d.inodes.resolve? inode = some p) :
    Reachable d req (parentWithin d.inodes.root p)

theorem reachable_of_childOf {parent : Inode} {name : Name} (uses : parent ∈ req.directories)
    (h : (d.childOf parent name).toOption = some path) : Reachable d req path := by
  cases hc : d.childOf parent name with
  | error e => simp [hc, Except.toOption] at h
  | ok q =>
    obtain rfl : q = path := by simpa [hc, Except.toOption] using h
    obtain ⟨hname, p, hp, rfl⟩ := childOf_eq_ok_iff.1 hc
    exact .entry uses hp hname

theorem reachable_of_entryPath? (h : d.entryPath? req = some path) : Reachable d req path := by
  cases req with
  | lookup parent name =>
    simp only [entryPath?, lookupOf] at h
    split at h
    · cases hp : d.pathOf parent with
      | error e => simp [hp, Except.toOption] at h
      | ok p =>
        obtain rfl : p = path := by simpa [hp, Except.toOption] using h
        exact .here (pathOf_eq_ok_iff.1 hp)
    split at h
    · cases hp : d.pathOf parent with
      | error e => simp [hp, Except.map, Except.toOption] at h
      | ok p =>
        obtain rfl : parentWithin d.inodes.root p = path := by
          simpa [hp, Except.map, Except.toOption] using h
        exact .above (pathOf_eq_ok_iff.1 hp)
    · exact reachable_of_childOf (by simp [Request.directories]) h
  | mkdir parent name mode | create parent name mode flags | symlink parent name content
  | link inode parent name => exact reachable_of_childOf (by simp [Request.directories]) h
  | _ => simp [entryPath?] at h

end Effects

section Steps

variable {root : Path} {d : Dispatcher} {req : Request} {events : List Event}
  {out : Option Outcome} {table : InodeTable} {path p : Path} {id : ObjectId}
  {state state' : List (Option StorageError) × HostStorage}

/-- A path between the root and a bound path names an object, also after the host has grown. -/
theorem Fits.of_prefix {t : InodeTable} {h h' : Host} (hf : Fits t h) (hg : h.Grows h')
    {inode : Inode} (hp : t.resolve? inode = some p) (hroot : t.root.components <+: path.components)
    (hpre : path.components <+: p.components) : (h'.objectAt? path).isSome := by
  obtain ⟨x, hx⟩ := Option.isSome_iff_exists.1 (hf.present hf.root_bound)
  have hne : path.components ≠ [] := by
    intro hnil
    rw [hnil] at hroot
    exact Host.ne_nil_of_objectOf? hx (List.prefix_nil.1 hroot)
  obtain ⟨y, hy⟩ := Option.isSome_iff_exists.1 (Host.objectOf?_of_prefix hne hpre (hf.present hp))
  rw [Host.objectAt?, hg.objectOf? hy]
  rfl

/-- The directory above a bound one names an object at or below the root, also after the host has
grown. -/
theorem Fits.of_above {t : InodeTable} {h h' : Host} (hf : Fits t h) (hg : h.Grows h')
    {inode : Inode} (hp : t.resolve? inode = some p) :
    t.root.components <+: (parentWithin t.root p).components ∧
      (h'.objectAt? (parentWithin t.root p)).isSome := by
  obtain ⟨x, hx⟩ := Option.isSome_iff_exists.1 (hf.present hp)
  obtain ⟨steps, hsteps⟩ := Host.components_of_objectAt? hx
  obtain ⟨hroot, hpre⟩ := parentWithin_prefix hsteps (hf.within hp)
  exact ⟨hroot, hf.of_prefix hg hp hroot hpre⟩

section Calm

variable (hf : Fits d.inodes state.2.host) (hlinks : d.entersLink state.2.host req = false)
  (hanswers : (HostStorage.failing root).Answers state events state')
  (calm : ∀ event ∈ events, event.removes = false)

include hf hlinks hanswers calm

/-- An entry of a bound directory names an object below the root, if it could be described. -/
theorem Fits.of_stat {parent : Inode} {name : Name} {stat : Stat}
    (uses : parent ∈ req.directories) (hp : d.inodes.resolve? parent = some p)
    (hname : name.isEntry = true) (hstat : ⟨.stat (p.child name), .ok stat⟩ ∈ events) :
    d.inodes.root.components <+: (p.child name).components ∧
      (state'.2.host.objectAt? (p.child name)).isSome := by
  obtain ⟨x, hx⟩ := Option.isSome_iff_exists.1 (hf.present hp)
  refine ⟨?_, HostStorage.objectAt?_of_stat hf.tree hanswers calm hx
    (linkContent?_of_entersLink hlinks uses hp hx) hname hstat⟩
  rw [Path.components_child p hname]
  exact (hf.within hp).trans (List.prefix_append _ _)

/-- What a request may bind names an object at or below the root, if it could be described. -/
theorem Fits.of_reachable (hpath : Reachable d req path) {stat : Stat}
    (hstat : ⟨.stat path, .ok stat⟩ ∈ events) :
    d.inodes.root.components <+: path.components ∧ (state'.2.host.objectAt? path).isSome := by
  have hgrows := HostStorage.grows_answers hf.tree hanswers calm
  cases hpath with
  | entry uses bound named => exact hf.of_stat hlinks hanswers calm uses bound named hstat
  | here bound =>
    exact ⟨hf.within bound, hf.of_prefix hgrows bound (hf.within bound) List.prefix_rfl⟩
  | above bound => exact hf.of_above hgrows bound

end Calm

theorem drops_forgetAll (nodes : List (Inode × UInt64)) (t : InodeTable) :
    t.Drops (forgetAll nodes t) := by
  induction nodes generalizing t with
  | nil => exact .refl t
  | cons node nodes ih => exact (InodeTable.drops_forget t node.1 _).trans (ih _)

theorem binds_bindingAll {new : Path → Prop} {directory : Path} {names : List Name} (t : InodeTable)
    (h : ∀ name ∈ names, new (directory.child name)) :
    t.Binds (bindingAll directory names t) new := by
  induction names generalizing t with
  | nil => exact .refl t new
  | cons name names ih =>
    exact (InodeTable.binds_insert 0 (h name (by simp))).trans
      (ih _ fun n hn => h n (List.mem_cons_of_mem _ hn))

theorem binds_bindingAbove {new : Path → Prop} {directory : Path} (inode : Inode) (t : InodeTable)
    (h : new (parentWithin t.root directory)) :
    t.Binds (bindingAbove inode directory t).2 new := by
  unfold bindingAbove
  split
  · exact .refl t new
  · exact InodeTable.binds_insert 0 h

theorem Fits.child_below {t : InodeTable} {h : Host} (hf : Fits t h) {inode : Inode} {name : Name}
    (hp : t.resolve? inode = some p) (hname : name.isEntry = true) :
    t.root.components <+: (p.child name).components ∧
      ¬ (p.child name).components <+: t.root.components := by
  rw [Path.components_child p hname]
  refine ⟨(hf.within hp).trans (List.prefix_append _ _), fun hpre => ?_⟩
  have hlen := hpre.length_le
  have hlen' := (hf.within hp).length_le
  rw [List.length_append, List.length_singleton] at hlen
  omega

/-- A request keeps that every path names an object, and the objects for which inodes stand. -/
theorem Fits.effect (hf : Fits d.inodes state.2.host) (hpolicy : d.options.renamePolicy = .move)
    (hlinks : d.entersLink state.2.host req = false)
    (hanswers : (HostStorage.failing root).Answers state events state')
    (heffect : Effect d req events out table) :
    Fits table state'.2.host ∧ Keeps d.inodes state.2.host table state'.2.host := by
  -- a directory that is used is one, and no link
  have hdirectory : ∀ {inode p}, inode ∈ req.directories → d.inodes.resolve? inode = some p →
      ∃ x, state.2.host.objectAt? p = some x ∧ state.2.host.linkContent? x = none := by
    intro inode p uses hp
    obtain ⟨x, hx⟩ := Option.isSome_iff_exists.1 (hf.present hp)
    exact ⟨x, hx, linkContent?_of_entersLink hlinks uses hp hx⟩
  cases heffect with
  | quiet _ calm =>
    exact hf.binds (HostStorage.grows_answers hf.tree hanswers calm)
      (.refl _ fun _ => False) (by simp)
  | @handed _ _ _ path stat asked calm described =>
    refine hf.binds (HostStorage.grows_answers hf.tree hanswers calm)
      (InodeTable.binds_insert 1 rfl : d.inodes.Binds _ (· = path)) ?_
    rintro _ rfl
    exact hf.of_reachable hlinks hanswers calm (reachable_of_entryPath? asked) described
  | @listed inode _ _ _ _ _ path names bound resolves calm lists described =>
    have hgrows := HostStorage.grows_answers hf.tree hanswers calm
    have habove : d.inodes.Binds (bindingAbove inode path d.inodes).2 fun p =>
        p = parentWithin d.inodes.root path ∨ ∃ name ∈ bound, p = path.child name :=
      binds_bindingAbove inode d.inodes (.inl rfl)
    refine hf.binds hgrows (habove.trans
      (binds_bindingAll _ fun name hname => .inr ⟨name, hname, rfl⟩)) ?_
    rintro _ (rfl | ⟨name, hname, rfl⟩)
    · exact hf.of_above hgrows resolves
    · obtain ⟨hmem, stat, hstat⟩ := described name hname
      exact hf.of_stat hlinks hanswers calm (by simp [Request.directories]) resolves
        (HostStorage.isEntry_of_readdir hf.tree hanswers calm lists hmem) hstat
  | forgot =>
    obtain rfl : state' = state := hanswers
    exact hf.drops (drops_forgetAll _ _) hf.tree fun _ _ _ => rfl
  | unlinked named =>
    obtain ⟨hname, p, hp, rfl⟩ := childOf_eq_ok_iff.1 named
    obtain ⟨x, hx, hlink⟩ := hdirectory (by simp [Request.directories]) hp
    have hcall := HostStorage.change_eq_ok (HostStorage.answer_of_answers hanswers)
    exact hf.removes (Host.removes_unlink hf.tree hx hlink hname hcall) (hf.child_below hp hname).2
  | rmdired named =>
    obtain ⟨hname, p, hp, rfl⟩ := childOf_eq_ok_iff.1 named
    obtain ⟨x, hx, hlink⟩ := hdirectory (by simp [Request.directories]) hp
    have hcall := HostStorage.change_eq_ok (HostStorage.answer_of_answers hanswers)
    exact hf.removes (Host.removes_rmdir hf.tree hx hlink hname hcall) (hf.child_below hp hname).2
  | moved policy named renamed =>
    obtain ⟨hname, p, hp, rfl⟩ := childOf_eq_ok_iff.1 named
    obtain ⟨hname', p', hp', rfl⟩ := childOf_eq_ok_iff.1 renamed
    obtain ⟨x, hx, hlink⟩ := hdirectory (by simp [Request.directories]) hp
    obtain ⟨x', hx', hlink'⟩ := hdirectory (by simp [Request.directories]) hp'
    have hcall := HostStorage.change_eq_ok (HostStorage.answer_of_answers hanswers)
    obtain ⟨heq, hhost⟩ | hmoves :=
      Host.moves_rename hx hlink hname hx' hlink' hname' hf.tree hcall
    · rw [InodeTable.rename, if_pos heq, hhost]
      exact hf.drops (.refl _) hf.tree fun _ _ _ => rfl
    · exact hf.moves hmoves (hf.child_below hp hname).2 (hf.child_below hp' hname').2
        (hf.child_below hp' hname').1
  | rebound policy => simp [hpolicy] at policy

end Steps

section Runs

variable {root : Path} {d : Dispatcher} {state : List (Option StorageError) × HostStorage}

theorem Fits.serveOver (root : Path) (hf : Fits d.inodes state.2.host)
    (hpolicy : d.options.renamePolicy = .move) {request : Request}
    (hlinks : d.entersLink state.2.host request = false) :
    let served := serveOver (HostStorage.failing root) d state request
    served.1.after.options.renamePolicy = .move ∧
      Fits served.1.after.inodes served.2.2.host ∧
      Keeps d.inodes state.2.host served.1.after.inodes served.2.2.host := by
  obtain ⟨hoptions, heffect⟩ :=
    serve_effect (serveOver_possible (HostStorage.failing root) d state request)
  have hanswers := serveOver_answers (HostStorage.failing root) d state request
  exact ⟨(congrArg _ hoptions).trans hpolicy, hf.effect hpolicy hlinks hanswers heffect⟩

/-- After a run without links as directories, one more request has the same to start from. -/
theorem Fits.stateAfter (d : Dispatcher) (state : List (Option StorageError) × HostStorage)
    (hf : Fits d.inodes state.2.host)
    (hpolicy : d.options.renamePolicy = .move) {requests : List Request} {request : Request}
    (hlinks : staysOffLinks root d state (requests ++ [request]) = true) :
    let reached := stateAfter (HostStorage.failing root) d state requests
    reached.1.options.renamePolicy = .move ∧ Fits reached.1.inodes reached.2.2.host ∧
      reached.1.entersLink reached.2.2.host request = false := by
  induction requests generalizing d state with
  | nil =>
    simp only [List.nil_append, staysOffLinks, Bool.and_true, Bool.not_eq_true'] at hlinks
    exact ⟨hpolicy, hf, hlinks⟩
  | cons first requests ih =>
    simp only [List.cons_append, staysOffLinks, Bool.and_eq_true, Bool.not_eq_true'] at hlinks
    obtain ⟨hpolicy', hf', _⟩ := hf.serveOver root hpolicy hlinks.1
    exact ih _ _ hf' hpolicy' hlinks.2

theorem fits_start (number : Numbering) {h : Host} (ht : h.IsTree)
    (hroot : (h.objectAt? root).isSome) : Fits (.withNumbering number root) h := by
  have hbound : ∀ {i p}, (InodeTable.withNumbering number root).resolve? i = some p →
      p = root := by
    intro i p hp
    rw [InodeTable.resolve?, InodeTable.withNumbering, FiniteMap.get?_insert] at hp
    split at hp
    · exact (Option.some.inj hp).symm
    · simp at hp
  exact {
    tree := ht
    consistent := InodeTable.consistent_withNumbering number root
    root_bound := by simp [InodeTable.resolve?, InodeTable.withNumbering]
    within := fun hp => hbound hp ▸ List.prefix_rfl
    present := fun hp => hbound hp ▸ hroot }

end Runs

/-- Over a directory of a host whose calls may fail, a dispatcher that moves inodes along with renames
serves any requests that do not use the inode of a link as a directory.  Then every path that is bound
names an object, and after one more request every inode that is bound before and after stands for the
object for which it stood. -/
theorem bound_inodes_keep_objects (number : Numbering) (options : MountOptions) (root : Path)
    (s : HostStorage) (failures : List (Option StorageError)) (requests : List Request)
    (request : Request) (hpolicy : options.renamePolicy = .move) (htree : s.host.IsTree)
    (hroot : (s.host.objectAt? root).isSome)
    (hlinks : staysOffLinks root (start number options root) (failures, s)
      (requests ++ [request]) = true) :
    let reached := stateAfter (HostStorage.failing root) (start number options root) (failures, s)
      requests
    let served := serveOver (HostStorage.failing root) reached.1 reached.2 request
    let old := reached.2.2.host
    let new := served.2.2.host
    (∀ i p, reached.1.inodes.resolve? i = some p →
      ∃ id, old.objectAt? p = some id ∧ (old.object? id).isSome) ∧
    ∀ i p p', reached.1.inodes.resolve? i = some p →
      served.1.after.inodes.resolve? i = some p' →
        ∃ id, old.objectAt? p = some id ∧ new.objectAt? p' = some id := by
  intro reached served old new
  have hstart : Fits (start number options root).inodes s.host := fits_start number htree hroot
  obtain ⟨hmove, hfits, hoff⟩ := Fits.stateAfter _ (failures, s) hstart hpolicy hlinks
  obtain ⟨_, _, hkeeps⟩ := hfits.serveOver root hmove hoff
  have hpresent : ∀ i p, reached.1.inodes.resolve? i = some p → ∃ id, old.objectAt? p = some id :=
    fun i p hp => Option.isSome_iff_exists.1 (hfits.present hp)
  constructor
  · intro i p hp
    obtain ⟨id, hid⟩ := hpresent i p hp
    exact ⟨id, hid, hfits.tree.exists_of_objectOf? hid⟩
  · intro i p p' hp hp'
    obtain ⟨id, hid⟩ := hpresent i p hp
    exact ⟨id, hid, (hkeeps i p p' hp hp').symm.trans hid⟩

/-- A directory with a file in it takes the place of an empty one, after a first call has failed. -/
theorem moved_file_keeps_object :
    let root : Path := ⟨[slash]⟩
    let number : Numbering := fun _ salt => salt + 2
    let options : MountOptions := {}
    let s := HostStorage.new (Host.fresh 0 .epoch .fallback)
    let failures := [some (.host Errno.inputOutput)]
    let requests : List Request := [.lookup rootInode [0x61], .mkdir rootInode [0x61] 0o755,
      .create 2 [0x78] 0o644 0, .mkdir rootInode [0x62] 0o755]
    let request : Request := .rename rootInode [0x61] rootInode [0x62]
    let reached := stateAfter (HostStorage.failing root) (start number options root)
      (failures, s) requests
    let served := serveOver (HostStorage.failing root) reached.1 reached.2 request
    let source := (root.child [0x61]).child [0x78]
    let target := (root.child [0x62]).child [0x78]
    options.renamePolicy = .move ∧ s.host.IsTree ∧ (s.host.objectAt? root).isSome ∧
      staysOffLinks root (start number options root) (failures, s)
        (requests ++ [request]) = true ∧
      reached.1.inodes.resolve? 3 = some source ∧
      served.1.after.inodes.resolve? 3 = some target ∧
      ∃ id, reached.2.2.host.objectAt? source = some id ∧
        served.2.2.host.objectAt? target = some id := by
  intro root number options s failures requests request reached served source target
  have htree : s.host.IsTree := Host.isTree_fresh 0 .epoch .fallback
  have hroot : (s.host.objectAt? root).isSome := by cbv
  have hlinks : staysOffLinks root (start number options root) (failures, s)
      (requests ++ [request]) = true := by cbv
  have hsource : reached.1.inodes.resolve? 3 = some source := by cbv
  have htarget : served.1.after.inodes.resolve? 3 = some target := by cbv
  have hreached : stateAfter (HostStorage.failing root) (start number options root) (failures, s)
      requests = reached := rfl
  have hserved : serveOver (HostStorage.failing root) reached.1 reached.2 request = served := rfl
  have h := (bound_inodes_keep_objects number options root s failures requests request rfl htree hroot
    hlinks).2 3 source target
  rw [hreached, hserved] at h
  exact ⟨rfl, htree, hroot, hlinks, hsource, htarget, h hsource htarget⟩

end Dispatcher
end InodeBridge
