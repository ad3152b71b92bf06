import InodeBridge.Proofs.Dispatcher.Replies

/-! # The life of an inode

An inode other than the root comes to be bound by being handed to the kernel or by a listing, and
ceases to be when its references are taken away, its entry is removed, or something else is moved to
its path.  In between its path changes with renames, and its references with answers that carry it
and requests that forget it.  Nothing else happens to it.

All that a listing goes over is bound afterwards, and so is all that is handed to the kernel, but for a
path of which every number is held.
-/
namespace InodeBridge

namespace Dispatcher

open Storage (Call Event)
open InodeTable (Entry)

/-- What is left of an entry when references to some inodes are taken away, one after the other. -/
def leftAfter (i : Inode) : List (Inode × UInt64) → Option Entry → Option Entry
  | [], e => e
  | (j, n) :: nodes, e => leftAfter i nodes (if j = i then e.bind (·.less n.toNat) else e)

namespace Service

variable (r : Service)

/-- Whether the answer names an inode; zero is no inode, but stands for the lack of a free number. -/
def Names (i : Inode) : Prop := i ≠ 0 ∧ i ∈ (r.outcome.map Outcome.inodes).getD []

def Hands (i : Inode) : Prop := i ≠ 0 ∧ r.outcome.bind Outcome.handed? = some i

def Removed (path : Path) : Prop :=
  r.outcome = some .ok ∧ ∃ parent name,
    (r.request = .unlink parent name ∨ r.request = .rmdir parent name) ∧
      r.before.childOf parent name = .ok path

def Renamed (source target : Path) : Prop :=
  r.outcome = some .ok ∧ ∃ parent name newParent newName,
    r.request = .rename parent name newParent newName ∧
      r.before.childOf parent name = .ok source ∧ r.before.childOf newParent newName = .ok target

/-- Whether the request listed a path: that of the directory above, or that of an entry that storage
named and described. -/
def Listed (path : Path) : Prop :=
  ∃ inode handle offset budget directory, ∃ names : List Name,
    r.request = .readdir inode handle offset budget ∧
      r.before.inodes.resolve? inode = some directory ∧
        (⟨.readdir directory, .ok names⟩ : Event) ∈ r.events ∧
          (inode ≠ rootInode ∧ path = parentWithin r.before.inodes.root directory ∨
            ∃ name ∈ names, path = directory.child name ∧
              ∃ stat, (⟨.stat path, .ok stat⟩ : Event) ∈ r.events)

/-- What the request listed or handed to the kernel was given an inode: what it listed any, and what it
handed to the kernel the one that the answer carries. -/
structure GivesInodes : Prop where
  listed : ∀ path, r.Listed path → ∃ i, r.before.inodes.Gives r.after.inodes path i
  handed : ∀ path i, r.before.entryPath? r.request = some path →
    r.outcome.bind Outcome.handed? = some i → r.before.inodes.Gives r.after.inodes path i

end Service

/-- What serving a request makes of the entry of an inode. -/
inductive Turn (r : Service) (i : Inode) : Option Entry → Option Entry → Prop
  /-- A path that was unbound is handed to the kernel. -/
  | bound {path : Path} (hands : r.Hands i) (asked : r.before.entryPath? r.request = some path)
    (unbound : r.before.inodes.inodeOf? path = none) : Turn r i none (some ⟨path, 1⟩)
  /-- A path that was unbound is listed. -/
  | listed {path : Path} (lists : r.Listed path) (unbound : r.before.inodes.inodeOf? path = none)
    (found : r.after.inodes.inodeOf? path = some i) : Turn r i none (some ⟨path, 0⟩)
  /-- The answer does not name the inode, and no path that is listed gets it. -/
  | unbound (unnamed : ¬ r.Names i)
    (unlisted : ∀ path, r.Listed path → r.after.inodes.inodeOf? path ≠ some i) : Turn r i none none
  /-- A path that was bound is handed to the kernel once more. -/
  | counted {e : Entry} {path : Path} (hands : r.Hands i)
    (asked : r.before.entryPath? r.request = some path)
    (located : e.path.components = path.components) :
    Turn r i (some e) (some { e with lookups := e.lookups + 1 })
  | forgotten {e : Entry} (forgets : i ∈ r.request.forgotten.map Prod.fst) :
    Turn r i (some e) (leftAfter i r.request.forgotten (some e))
  | removed {e : Entry} {path : Path} (removes : r.Removed path)
    (located : e.path.components = path.components) : Turn r i (some e) none
  /-- The path is that of what is renamed or below it. -/
  | carried {e : Entry} {source target path : Path} {steps : Location}
    (renames : r.Renamed source target) (before : e.path.components = source.components ++ steps)
    (after : path.components = target.components ++ steps) :
    Turn r i (some e) (some { e with path })
  /-- Something else gets the path. -/
  | overwritten {e : Entry} {source target : Path} (renames : r.Renamed source target)
    (left : ¬ e.path.Within source)
    (overwrites : r.before.inodes.Overwrites source target e.path) : Turn r i (some e) none
  /-- None of this happens. -/
  | kept {e : Entry} (unhanded : ¬ r.Hands i) (unforgotten : i ∉ r.request.forgotten.map Prod.fst)
    (unremoved : ∀ path, r.Removed path → e.path.components ≠ path.components)
    (unrenamed : ∀ source target, r.Renamed source target →
      ¬ e.path.Within source ∧ ¬ r.before.inodes.Overwrites source target e.path) :
    Turn r i (some e) (some e)

inductive Life (i : Inode) : Option Entry → List Service → Option Entry → Prop
  | nil (e : Option Entry) : Life i e [] e
  | cons {r : Service} {hist : List Service} {e : Option Entry}
    (turn : Turn r i (r.before.inodes.byInode.get? i) (r.after.inodes.byInode.get? i))
    (later : Life i (r.after.inodes.byInode.get? i) hist e) :
    Life i (r.before.inodes.byInode.get? i) (r :: hist) e

section Turns

variable {r : Service} {i : Inode}

theorem get?_byInode_forgetAll {t : InodeTable} (hroot : i ≠ rootInode)
    (nodes : List (Inode × UInt64)) :
    (forgetAll nodes t).byInode.get? i = leftAfter i nodes (t.byInode.get? i) := by
  induction nodes generalizing t with
  | nil => rfl
  | cons node nodes ih =>
    obtain ⟨j, n⟩ := node
    rw [forgetAll, ih, InodeTable.get?_byInode_forget, leftAfter]
    by_cases hj : j = i
    · subst hj
      rw [if_pos ⟨rfl, hroot⟩, if_pos rfl]
    · rw [if_neg fun h => hj h.1.symm, if_neg hj]

theorem leftAfter_of_not_mem {nodes : List (Inode × UInt64)} (h : i ∉ nodes.map Prod.fst)
    (e : Option Entry) : leftAfter i nodes e = e := by
  induction nodes with
  | nil => rfl
  | cons node nodes ih =>
    obtain ⟨j, n⟩ := node
    rw [List.map_cons, List.mem_cons, not_or] at h
    rw [leftAfter, if_neg (Ne.symm h.1), ih h.2]

theorem leftAfter_none (nodes : List (Inode × UInt64)) : leftAfter i nodes none = none := by
  induction nodes with
  | nil => rfl
  | cons node nodes ih =>
    rw [leftAfter, Option.bind_none, ite_self, ih]

theorem Service.not_hands (r : Service) (h : r.outcome.bind Outcome.handed? = none) :
    ¬ r.Hands i := by
  rintro ⟨_, hhands⟩
  rw [h] at hhands
  cases hhands

theorem Service.Possible.removes (h : r.Possible) {path : Path} (hr : r.Removed path) :
    r.Removes path := by
  obtain ⟨before, request, events, outcome, after⟩ := r
  obtain ⟨hout, parent, name, hreq, hpath⟩ := hr
  dsimp only at hout hreq hpath
  subst hout
  have hconduct : Conduct before request events (some .ok) after := serve_conduct h
  rcases hreq with rfl | rfl
  · cases hconduct with
    | settled _ settles => cases settles
    | removed begins removes =>
      cases begins with
      | unlink named =>
        cases hpath.symm.trans named
        cases removes
        exact .inl (List.mem_singleton_self _)
  · cases hconduct with
    | settled _ settles => cases settles
    | removed begins removes =>
      cases begins with
      | rmdir named =>
        cases hpath.symm.trans named
        cases removes
        exact .inr (List.mem_singleton_self _)

theorem Service.Possible.renames (h : r.Possible) {source target : Path}
    (hr : r.Renamed source target) : r.Renames source target := by
  obtain ⟨before, request, events, outcome, after⟩ := r
  obtain ⟨hout, parent, name, newParent, newName, hreq, hsource, htarget⟩ := hr
  dsimp only at hout hreq hsource htarget
  subst hout hreq
  have hconduct : Conduct before (.rename parent name newParent newName) events (some .ok) after :=
    serve_conduct h
  cases hconduct with
  | settled _ settles => cases settles
  | removed begins removes =>
    cases begins
    cases removes
  | moved _ named renamed | rebound _ named renamed =>
    cases hsource.symm.trans named
    cases htarget.symm.trans renamed
    exact List.mem_singleton_self _

theorem Service.Records.tells {inode : Inode} {path : Path} {e : DirectoryEntry}
    (h : r.Records inode path e) :
    ∃ path, r.before.inodes.Tells r.after.inodes e.inode path 0 := by
  cases h with
  | here told | above told | child _ _ _ told => exact ⟨_, told⟩

theorem Conduct.resolves_of_named {d d' : Dispatcher} {req : Request} {events : List Event}
    {out : Option Outcome} (h : Conduct d req events out d') (hc : d.inodes.Consistent)
    (hi : i ≠ 0) {outcome : Outcome} (houtcome : out = some outcome) (hin : i ∈ outcome.inodes) :
    ∃ path, d'.inodes.resolve? i = some path := by
  have hhanded : ∀ path stat, i ∈ [(d.entryReply path stat).attributes.inode] →
      ∃ p, (d.inodes.bindLookup path).2.resolve? i = some p := by
    intro path stat hin
    rw [List.mem_singleton, entryReply_inode] at hin
    subst hin
    obtain ⟨p, hp, _⟩ := (InodeTable.tells_insert hc hi).resolves
    exact ⟨p, hp⟩
  have hdescribed : ∀ {inode path stat}, d.inodes.resolve? inode = some path →
      i ∈ [(d.options.attributes inode stat).inode] → ∃ p, d.inodes.resolve? i = some p := by
    intro inode path stat hbound hin
    rw [List.mem_singleton, attributes_eq] at hin
    exact ⟨path, hin ▸ hbound⟩
  cases h with
  | found | made | created =>
    cases houtcome
    exact hhanded _ _ hin
  | described bound | changed bound =>
    cases houtcome
    exact hdescribed bound hin
  | @listed inode handle offset budget _ path names bound rest buffer _ resolves listing =>
    cases houtcome
    obtain ⟨e, he, rfl⟩ := List.mem_map.1 hin
    let r : Service := ⟨d, .readdir inode handle offset budget, ⟨.readdir path, .ok names⟩ :: rest,
      some (.directory buffer),
      { d with inodes := bindingAll path bound (bindingAbove inode path d.inodes).2 }⟩
    have hrecord : r.Records inode path e := listing.records hc resolves rfl rfl he hi
    obtain ⟨_, htold⟩ := hrecord.tells
    obtain ⟨p, hp, _⟩ := htold.resolves
    exact ⟨p, hp⟩
  | @settled req _ _ settles =>
    cases houtcome
    cases req <;> cases settles <;> cases hin
  | _ => cases houtcome <;> cases hin

section Tables

variable (h : r.Possible) (hc : r.before.inodes.Consistent) (hc' : r.after.inodes.Consistent)
include h hc hc'

/-- An inode that is unbound afterwards is neither named by the answer nor that of a path listed. -/
theorem Turn.of_unbound (hnone : r.after.inodes.byInode.get? i = none) : Turn r i none none := by
  refine .unbound (fun ⟨hi, hnamed⟩ => ?_) fun path _ hfound => ?_
  · cases houtcome : r.outcome with
    | none =>
      rw [houtcome] at hnamed
      cases hnamed
    | some outcome =>
      rw [houtcome] at hnamed
      obtain ⟨p, hp⟩ := (serve_conduct h).resolves_of_named hc hi houtcome hnamed
      rw [InodeTable.resolve?, hnone] at hp
      cases hp
  · obtain ⟨e, he, _⟩ := hc'.inodeOf?_iff.1 hfound
    rw [hnone] at he
    cases he

/-- An entry stays as it is if no name is taken away, no reference returned, and the inode is not handed
to the kernel. -/
theorem Turn.of_calm (calm : ∀ event ∈ r.events, event.removes = false)
    (unforgotten : i ∉ r.request.forgotten.map Prod.fst) (unhanded : ¬ r.Hands i)
    (hsame : r.after.inodes.byInode.get? i = r.before.inodes.byInode.get? i) :
    Turn r i (r.before.inodes.byInode.get? i) (r.after.inodes.byInode.get? i) := by
  rw [hsame]
  cases he : r.before.inodes.byInode.get? i with
  | none => exact .of_unbound h hc hc' (hsame.trans he)
  | some e =>
    refine .kept unhanded unforgotten (fun path hr => ?_) fun source target hr => ?_
    · rcases h.removes hr with hevent | hevent
      all_goals simpa [Event.removes, Call.takesName, Except.toBool] using calm _ hevent
    · simpa [Event.removes, Call.takesName, Except.toBool] using calm _ (h.renames hr)

/-- An answer that hands an inode to the kernel binds it or counts one more reference. -/
theorem Turn.of_handed (hi : i ≠ 0) {path : Path}
    (asked : r.before.entryPath? r.request = some path)
    (calm : ∀ event ∈ r.events, event.removes = false)
    (hands : r.outcome.bind Outcome.handed? = some (r.before.inodes.bindLookup path).1)
    (hafter : r.after.inodes = (r.before.inodes.bindLookup path).2) :
    Turn r i (r.before.inodes.byInode.get? i) (r.after.inodes.byInode.get? i) := by
  have hget := InodeTable.get?_byInode_insert hc hi path 1
  rw [← InodeTable.bindLookup, ← hafter] at hget
  -- only the inode that the answer carries gets another entry
  by_cases hin : (r.before.inodes.bindLookup path).1 = i
  · have hHands : r.Hands i := ⟨hi, hin ▸ hands⟩
    have hpath := InodeTable.insert_fst hc path 1 (by
      rw [← InodeTable.bindLookup, hin]
      exact hi)
    rw [← InodeTable.bindLookup, hin] at hpath
    rw [hget, if_pos hin]
    cases he : r.before.inodes.byInode.get? i with
    | none =>
      rw [he] at hpath
      exact .bound hHands asked hpath
    | some e =>
      rw [he] at hpath
      exact .counted hHands asked hpath
  · rw [if_neg hin] at hget
    refine .of_calm h hc hc' calm (by simp [forgotten_of_entryPath? asked]) ?_ hget
    rintro ⟨_, hhands⟩
    rw [hands] at hhands
    exact hin (Option.some.inj hhands)

theorem Turn.of_removed (hroot : i ≠ rootInode) {path : Path} (keeps : r.request.forgotten = [])
    (removes : r.Removed path)
    (hevents : r.events = [⟨.unlink path, .ok ()⟩] ∨ r.events = [⟨.rmdir path, .ok ()⟩])
    (hafter : r.after.inodes = (r.before.inodes.unbindPath path).2) :
    Turn r i (r.before.inodes.byInode.get? i) (r.after.inodes.byInode.get? i) := by
  have unhanded := r.not_hands (i := i) (by simp [removes.1, Outcome.handed?])
  have hget := InodeTable.get?_byInode_unbindPath (t := r.before.inodes) path i
  rw [← hafter] at hget
  cases he : r.before.inodes.byInode.get? i with
  | none =>
    rw [he, ite_self] at hget
    rw [hget]
    exact .of_unbound h hc hc' hget
  | some e =>
    have hat := hc.inodeOf?_iff_of_entry (p := path) he
    rw [hget, he]
    by_cases hlocated : e.path.components = path.components
    · rw [if_pos ⟨hat.2 hlocated, hroot⟩]
      exact .removed removes hlocated
    · rw [if_neg fun h => hlocated (hat.1 h.1)]
      refine .kept unhanded (by simp [keeps]) (fun p hp => ?_) fun source target hr => ?_
      · obtain rfl : p = path := by
          have := h.removes hp
          rcases hevents with hevents | hevents <;> simp [Service.Removes, hevents] at this <;>
            exact this.1
        exact hlocated
      · have := h.renames hr
        rcases hevents with hevents | hevents <;> simp [Service.Renames, hevents] at this

theorem Turn.of_forgotten (hroot : i ≠ rootInode) (hevents : r.events = [])
    (unhanded : ¬ r.Hands i)
    (hafter : r.after.inodes = forgetAll r.request.forgotten r.before.inodes) :
    Turn r i (r.before.inodes.byInode.get? i) (r.after.inodes.byInode.get? i) := by
  have hget := get?_byInode_forgetAll (t := r.before.inodes) hroot r.request.forgotten
  rw [← hafter] at hget
  by_cases hmem : i ∈ r.request.forgotten.map Prod.fst
  · cases he : r.before.inodes.byInode.get? i with
    | none =>
      rw [he, leftAfter_none] at hget
      rw [hget]
      exact .of_unbound h hc hc' hget
    | some e =>
      rw [hget, he]
      exact .forgotten hmem
  · rw [leftAfter_of_not_mem hmem] at hget
    exact .of_calm h hc hc' (by simp [hevents]) hmem unhanded hget

theorem Turn.of_listed (keeps : r.request.forgotten = [])
    (calm : ∀ event ∈ r.events, event.removes = false) (unhanded : ¬ r.Hands i)
    (hlists : r.before.inodes.Lists r.after.inodes r.Listed) :
    Turn r i (r.before.inodes.byInode.get? i) (r.after.inodes.byInode.get? i) := by
  cases he : r.before.inodes.byInode.get? i with
  | some e =>
    have hsame := (hlists.kept he).trans he.symm
    rw [← he]
    exact .of_calm h hc hc' calm (by simp [keeps]) unhanded hsame
  | none =>
    cases he' : r.after.inodes.byInode.get? i with
    | none => exact .of_unbound h hc hc' he'
    | some e' =>
      rcases hlists.fresh he' with hbefore | ⟨path, hlisted, hunbound, rfl⟩
      · rw [he] at hbefore
        cases hbefore
      · exact .listed hlisted hunbound (hc'.inodeOf?_path he')

/-- A rename carries along what is at its source or below, and drops what it overwrites. -/
theorem Turn.of_renamed (hroot : i ≠ rootInode) {source target : Path}
    (hrenamable : source.Renamable target) (keeps : r.request.forgotten = [])
    (renames : r.Renamed source target)
    (hevents : r.events = [⟨.rename source target, .ok ()⟩])
    (hafter : r.after.inodes = (r.before.inodes.rename source target).2) :
    Turn r i (r.before.inodes.byInode.get? i) (r.after.inodes.byInode.get? i) := by
  have unhanded := r.not_hands (i := i) (by simp [renames.1, Outcome.handed?])
  cases he : r.before.inodes.byInode.get? i with
  | none =>
    have hnone := InodeTable.rename_binds_none hc.toInverse hrenamable he
    rw [← hafter] at hnone
    rw [hnone]
    exact .of_unbound h hc hc' hnone
  | some e =>
    rw [hafter]
    by_cases hw : e.path.Within source
    · obtain ⟨steps, hsteps⟩ := hw
      obtain ⟨path, hpath, hget⟩ := InodeTable.rename_carries hc.toInverse hrenamable he hsteps.symm
      rw [hget]
      exact .carried renames hsteps.symm hpath
    · by_cases hover : r.before.inodes.Overwrites source target e.path
      · rw [InodeTable.rename_drops hc.toInverse hrenamable hroot he hw hover]
        exact .overwritten renames hw hover
      · rw [InodeTable.rename_keeps hc.toInverse hrenamable he hw hover]
        refine .kept unhanded (by simp [keeps]) (fun p hp => ?_) fun p q hr => ?_
        · have := h.removes hp
          simp [Service.Removes, hevents] at this
        · have hevent := h.renames hr
          rw [Service.Renames, hevents, List.mem_singleton] at hevent
          cases hevent
          exact ⟨hw, hover⟩

end Tables

theorem Service.Possible.turn (h : r.Possible) (hc : r.before.inodes.Consistent)
    (hpolicy : r.before.options.renamePolicy = .move) (hrenames : r.RenamesApart)
    (hroot : i ≠ rootInode) :
    Turn r i (r.before.inodes.byInode.get? i) (r.after.inodes.byInode.get? i) := by
  have hc' := h.consistent hc hrenames
  by_cases hi : i = 0
  · subst hi
    rw [hc.zero_unbound, hc'.zero_unbound]
    exact .of_unbound h hc hc' hc'.zero_unbound
  have hpossible := h
  obtain ⟨before, request, events, outcome, after⟩ := r
  obtain ⟨_, heffect⟩ := serve_effect h
  dsimp only at heffect hc hc' hpolicy ⊢
  generalize hafter : after.inodes = t at heffect
  cases heffect with
  | quiet keeps calm unhanded =>
    have hsame : after.inodes.byInode.get? i = before.inodes.byInode.get? i := by rw [hafter]
    have hturn := Turn.of_calm hpossible hc hc' calm (by simp [keeps]) (Service.not_hands _ unhanded)
      hsame
    rwa [hsame] at hturn
  | handed asked calm described hands =>
    rw [← hafter]
    exact .of_handed hpossible hc hc' hi asked calm hands hafter
  | @listed inode handle offset budget _ _ path names _ resolves calm lists described unhanded =>
    rw [← hafter]
    refine .of_listed hpossible hc hc' rfl calm (Service.not_hands _ unhanded) ?_
    rw [hafter]
    refine (lists_bindingAbove inode before.inodes fun hne => ?_).trans
      (lists_bindingAll _ fun name hname => ?_)
    · exact ⟨inode, handle, offset, budget, path, names, rfl, resolves, lists, .inl ⟨hne, rfl⟩⟩
    · obtain ⟨hnamed, hstat⟩ := described name hname
      exact ⟨inode, handle, offset, budget, path, names, rfl, resolves, lists,
        .inr ⟨name, hnamed, rfl, hstat⟩⟩
  | forgot =>
    rw [← hafter]
    exact .of_forgotten hpossible hc hc' hroot rfl (Service.not_hands _ rfl) hafter
  | @unlinked parent name path named =>
    rw [← hafter]
    exact .of_removed hpossible hc hc' hroot rfl ⟨rfl, parent, name, .inl rfl, named⟩ (.inl rfl)
      hafter
  | @rmdired parent name path named =>
    rw [← hafter]
    exact .of_removed hpossible hc hc' hroot rfl ⟨rfl, parent, name, .inr rfl, named⟩ (.inr rfl)
      hafter
  | @moved parent newParent name newName source target policy named renamed =>
    rw [← hafter]
    have hrenamable := hrenames policy source target (List.mem_singleton_self _)
    exact .of_renamed hpossible hc hc' hroot hrenamable rfl
      ⟨rfl, parent, name, newParent, newName, rfl, named, renamed⟩ rfl hafter
  | rebound policy =>
    rw [hpolicy] at policy
    cases policy

/-- What is handed to the kernel is given the inode that the answer carries. -/
theorem Service.Possible.gives_handed (h : r.Possible) {path : Path}
    (asked : r.before.entryPath? r.request = some path)
    (hands : r.outcome.bind Outcome.handed? = some i) :
    r.before.inodes.Gives r.after.inodes path i := by
  obtain ⟨before, request, events, outcome, after⟩ := r
  obtain ⟨_, heffect⟩ := serve_effect h
  dsimp only at heffect asked hands ⊢
  generalize after.inodes = t at heffect ⊢
  cases heffect with
  | quiet _ _ unhanded | listed _ _ _ _ unhanded =>
    rw [hands] at unhanded
    cases unhanded
  | handed asked' _ _ hands' =>
    obtain rfl := Option.some.inj (asked.symm.trans asked')
    rw [Option.some.inj (hands.symm.trans hands')]
    exact InodeTable.gives_insert before.inodes path 1
  | _ => cases hands

theorem Service.Possible.exists_gives_listed (h : r.Possible) {path : Path} (hlisted : r.Listed path) :
    ∃ i, r.before.inodes.Gives r.after.inodes path i := by
  obtain ⟨before, request, events, outcome, after⟩ := r
  obtain ⟨inode, handle, offset, budget, directory, names, hrequest, hresolves, hnames, hpath⟩ := hlisted
  dsimp only at hrequest hresolves hnames hpath ⊢
  subst hrequest
  have hconduct : Conduct before (.readdir inode handle offset budget) events outcome after :=
    serve_conduct h
  cases hconduct with
  | refused | settled => cases hnames
  | failed => cases List.mem_singleton.1 hnames
  | made begins makes | unseen begins makes | removed begins makes =>
    cases begins
    cases makes
  | @listed _ _ _ _ _ path' _ bound rest _ _ resolves listing =>
    cases hresolves.symm.trans resolves
    rcases hpath with ⟨hne, rfl⟩ | ⟨name, _, rfl, stat, hstat⟩
    · have hgives : before.inodes.Gives (bindingAbove inode directory before.inodes).2
          (parentWithin before.inodes.root directory)
          (bindingAbove inode directory before.inodes).1 := by
        rw [bindingAbove, if_neg hne]
        exact InodeTable.gives_insert before.inodes _ 0
      exact ⟨_, hgives.before_lists (lists_bindingAll_any directory bound _)⟩
    · rcases List.mem_cons.1 hstat with heq | hstat
      · cases heq
      · obtain ⟨name', hbound, hname⟩ := listing.bound_of_stat hstat
        rw [hname]
        obtain ⟨i, hi⟩ := exists_gives_bindingAll (bindingAbove inode directory before.inodes).2 hbound
        exact ⟨i, hi.after_lists (lists_bindingAbove_any inode directory _)⟩

end Turns

section Runs

variable {σ : Type} {s : Storage σ} {d d' : Dispatcher} {state state' : σ} {hist : List Service}

theorem RunsOver.life {i : Inode} (h : RunsOver s d state hist d' state')
    (hturns : ∀ r ∈ hist, Turn r i (r.before.inodes.byInode.get? i)
      (r.after.inodes.byInode.get? i)) :
    Life i (d.inodes.byInode.get? i) hist (d'.inodes.byInode.get? i) := by
  induction h with
  | nil => exact .nil _
  | cons reorders serves _ ih =>
    obtain ⟨_, rfl, _⟩ := of_serveOver serves
    obtain ⟨hturn, hrest⟩ := List.forall_mem_cons.1 hturns
    rw [← reorders.inodes.get?_byInode]
    exact .cons hturn (ih hrest)

end Runs

/-- Under a policy that moves inodes along with renames, over any storage that renames only between
paths that are equal or apart, an inode other than the root is bound by being handed to the kernel
or listed, counted when it is handed to it again, carried along by renames, and dropped when its
references are gone, its entry is removed or its path gets something else; no request does anything
else to it.  All that is listed or handed to the kernel is bound, as long as a number is left for it. -/
theorem inode_lives_by_turns {σ : Type} (s : Storage σ) (number : Numbering)
    (options : MountOptions) (root : Path) (state state' : σ) (hist : List Service) (d : Dispatcher)
    (i : Inode) (hroot : i ≠ rootInode) (hpolicy : options.renamePolicy = .move)
    (hrun : RunsOver s (start number options root) state hist d state')
    (haccepts : ∀ source target met, (s.perform (.rename source target) met).1 = .ok () →
      source.Renamable target) :
    Life i none hist (d.inodes.byInode.get? i) ∧ ∀ r ∈ hist, r.GivesInodes := by
  have hapart := hrun.renamesApart haccepts
  -- the two maps stay inverse, as no rename is between nested paths
  obtain ⟨hbefore, _⟩ := hrun.invariant
    (P := fun d => d.inodes.Consistent ∧ d.options.renamePolicy = .move)
    ⟨InodeTable.consistent_withNumbering number root, hpolicy⟩
    (fun d mid hreorders hd => ⟨hreorders.inodes.consistent hd.1, hreorders.options ▸ hd.2⟩)
    fun r hr hpossible hd => ⟨hpossible.consistent hd.1 (hapart r hr), by
      rw [(serve_effect hpossible).1, hd.2]⟩
  have hnone : (start number options root).inodes.byInode.get? i = none := by
    simp [start, InodeTable.withNumbering, FiniteMap.get?_insert, hroot]
  constructor
  · rw [← hnone]
    exact hrun.life fun r hr =>
      (hrun.possible r hr).turn (hbefore r hr).1 (hbefore r hr).2 (hapart r hr) hroot
  · intro r hr
    have hpossible := hrun.possible r hr
    exact ⟨fun path hlisted => hpossible.exists_gives_listed hlisted,
      fun path i asked hands => hpossible.gives_handed asked hands⟩

/-- A file is looked up twice and renamed, with another one in the way, and one of its references is
returned.  The number of the other one goes to a directory that a listing comes upon, and to it again
when, after it was forgotten, a directory in it is listed. -/
theorem life_of_moved_file :
    let root : Path := ⟨[slash]⟩
    let stat : Stat := ⟨.directory, 0, 0, .epoch, .epoch, .epoch, 0o755, 1, ⟨0, 0⟩, 0, 512⟩
    let storage : Storage Unit := {
      root
      perform
        | .stat _, u => (.ok stat, u)
        | .readdir path, u => (.ok (if path = root then [[0x63]] else []), u)
        | .rename source target, u =>
          (if source.Renamable target then .ok () else .error (.host Errno.invalid), u)
        | _, u => (.error (.host Errno.inputOutput), u) }
    let requests : List Request := [.lookup rootInode [0x61], .lookup rootInode [0x62],
      .lookup rootInode [0x61], .rename rootInode [0x61] rootInode [0x62], .forget 2 1,
      .readdir rootInode 0 0 4096, .lookup 3 [0x64], .forget 3 1, .readdir 4 0 0 4096]
    let number : Numbering := fun _ salt => salt + 2
    let hist := serveAll storage (start number {} root) () requests
    let d := (stateAfter storage (start number {} root) () requests).1
    (∀ source target met, (storage.perform (.rename source target) met).1 = .ok () →
      source.Renamable target) ∧
    d.inodes.byInode.get? 2 = some ⟨root.child [0x62], 1⟩ ∧
    d.inodes.byInode.get? 3 = some ⟨root.child [0x63], 0⟩ ∧
    Life 2 none hist (some ⟨root.child [0x62], 1⟩) ∧ Life 3 none hist (some ⟨root.child [0x63], 0⟩) ∧
    (∃ r ∈ hist, r.request = .readdir rootInode 0 0 4096 ∧
      r.before.inodes.inodeOf? (root.child [0x63]) = none ∧
      r.after.inodes.inodeOf? (root.child [0x63]) = some 3) ∧
    ∀ r ∈ hist, r.GivesInodes := by
  intro root stat storage requests number hist d
  have haccepts : ∀ source target met,
      (storage.perform (.rename source target) met).1 = .ok () → source.Renamable target := by
    intro source target met h
    by_contra hnot
    simp only [storage, if_neg hnot] at h
    cases h
  have hrun := runsOver_serveAll storage (start number {} root) () requests
  have hmoved : d.inodes.byInode.get? 2 = some ⟨root.child [0x62], 1⟩ := by decide +kernel
  have hfound : d.inodes.byInode.get? 3 = some ⟨root.child [0x63], 0⟩ := by decide +kernel
  have hlaw : ∀ i, i ≠ rootInode → Life i none hist (d.inodes.byInode.get? i) ∧
      ∀ r ∈ hist, r.GivesInodes := fun i hi =>
    inode_lives_by_turns storage number {} root () _ hist d i hi rfl hrun haccepts
  obtain ⟨hmovedLife, hgives⟩ := hlaw 2 (by decide)
  obtain ⟨hfoundLife, _⟩ := hlaw 3 (by decide)
  rw [hmoved] at hmovedLife
  rw [hfound] at hfoundLife
  exact ⟨haccepts, hmoved, hfound, hmovedLife, hfoundLife, by decide +kernel, hgives⟩

end Dispatcher
end InodeBridge
