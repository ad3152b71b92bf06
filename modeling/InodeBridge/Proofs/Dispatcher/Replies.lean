import InodeBridge.Proofs.Dispatcher.Descriptors
import InodeBridge.Proofs.Dispatcher.Records
import InodeBridge.Proofs.Dispatcher.ReferenceSafety

/-! # Replies agree with the tables and with storage

A reply that names an object tells the inode to which its path is bound when the request has been
served, with what storage said of the object; one that names an open file tells the handle under which
the file is then held.  Handing an object to the kernel counts one reference, and nothing else that is
told changes a count.
-/
namespace InodeBridge

open Storage (Call Event)

namespace InodeTable

variable {t t' mid : InodeTable} {inode : Inode} {path : Path} {more : Nat}

def countAt (t : InodeTable) (path : Path) : Nat := ((t.inodeOf? path).bind t.lookups?).getD 0

/-- After a change of a table an inode and a path are bound to each other, and some references more
are counted than before the change. -/
structure Tells (t t' : InodeTable) (inode : Inode) (path : Path) (more : Nat) : Prop where
  resolves : ∃ p, t'.resolve? inode = some p ∧ p.components = path.components
  bound : t'.inodeOf? path = some inode
  counted : t'.lookups? inode = some (t.countAt path + more)

theorem countAt_of_resolve? (h : t.Consistent) (hp : t.resolve? inode = some path) :
    t.inodeOf? path = some inode ∧ t.lookups? inode = some (t.countAt path) := by
  obtain ⟨e, he, rfl⟩ := resolve?_eq_some_iff.1 hp
  have hbound := h.inodeOf?_path he
  refine ⟨hbound, ?_⟩
  rw [countAt, hbound, Option.bind_some, lookups?, he]
  rfl

theorem tells_of_resolve? (h : t.Consistent) (hp : t.resolve? inode = some path) :
    t.Tells t inode path 0 where
  resolves := ⟨path, hp, rfl⟩
  bound := (countAt_of_resolve? h hp).1
  counted := (countAt_of_resolve? h hp).2

/-- Binding a path gives an inode that tells it, with the references counted for it. -/
theorem tells_insert (h : t.Consistent) (hfound : (t.insert path more).1 ≠ 0) :
    t.Tells (t.insert path more).2 (t.insert path more).1 path more := by
  have hbound := inodeOf?_insert_self hfound
  have hheld : t.held (t.insert path more).1 = t.countAt path := by
    have hgiven := insert_fst h path more hfound
    cases he : t.byInode.get? (t.insert path more).1 with
    | some e =>
      rw [he] at hgiven
      rw [countAt, (h.inodeOf?_iff_of_entry he).2 hgiven, Option.bind_some, held]
    | none =>
      rw [he] at hgiven
      rw [held, lookups?, he, countAt, hgiven]
      rfl
  obtain ⟨e, he, hc⟩ := (h.insert path more).inodeOf?_iff.1 hbound
  refine ⟨⟨e.path, resolve?_eq_some_iff.2 ⟨e, he, rfl⟩, hc⟩, hbound, ?_⟩
  rw [lookups?_insert h hfound, if_pos rfl, hheld]

theorem Tells.before_lists {new : Path → Prop} (h : t.Tells mid inode path more)
    (hlists : mid.Lists t' new) : t.Tells t' inode path more := by
  obtain ⟨p, hp, hc⟩ := h.resolves
  obtain ⟨e, he, rfl⟩ := resolve?_eq_some_iff.1 hp
  have hcounted := h.counted
  rw [lookups?, he] at hcounted
  refine ⟨⟨e.path, resolve?_eq_some_iff.2 ⟨e, hlists.kept he, rfl⟩, hc⟩, hlists.located h.bound, ?_⟩
  rw [lookups?, hlists.kept he]
  exact hcounted

theorem countAt_of_lists {new : Path → Prop} (hc : t.Consistent) (hmid : mid.Consistent)
    (hlists : t.Lists mid new) : mid.countAt path = t.countAt path := by
  cases hp : t.inodeOf? path with
  | some inode =>
    obtain ⟨e, he, _⟩ := hc.inodeOf?_iff.1 hp
    rw [countAt, countAt, hlists.located hp, hp, Option.bind_some, Option.bind_some, lookups?, lookups?,
      he, hlists.kept he]
  | none =>
    rw [countAt, countAt, hp]
    cases hp' : mid.inodeOf? path with
    | none => rfl
    | some inode =>
      obtain ⟨e, he, hcomponents⟩ := hmid.inodeOf?_iff.1 hp'
      rcases hlists.fresh he with hold | ⟨_, _, _, rfl⟩
      · rw [← inodeOf?_congr hcomponents, hc.inodeOf?_path hold] at hp
        cases hp
      · rw [Option.bind_some, lookups?, he]
        rfl

theorem Tells.after_lists {new : Path → Prop} (h : mid.Tells t' inode path more)
    (hc : t.Consistent) (hmid : mid.Consistent) (hlists : t.Lists mid new) :
    t.Tells t' inode path more where
  resolves := h.resolves
  bound := h.bound
  counted := by rw [h.counted, countAt_of_lists hc hmid hlists]

end InodeTable

namespace Dispatcher

/-- Storage described what is at a path, once and in this way. -/
def Service.Describes (r : Service) (path : Path) (stat : Stat) : Prop :=
  ∀ result, (⟨.stat path, result⟩ : Event) ∈ r.events ↔ result = .ok stat

/-- Attributes are what storage said of a path, with the inode of the table and the owner that is
configured, if one is. -/
def Service.Attributed (r : Service) (options : MountOptions) (path : Path) (inode : Inode)
    (attributes : Attributes) : Prop :=
  ∃ stat, r.Describes path stat ∧
    attributes = ⟨{ stat with owner := options.owner.getD stat.owner }, inode⟩

/-- An entry tells the path that the request asked for, with one reference more. -/
structure Service.Enters (r : Service) (options : MountOptions) (path : Path) (e : EntryReply) :
    Prop where
  asked : r.before.entryPath? r.request = some path
  told : r.before.inodes.Tells r.after.inodes e.attributes.inode path 1
  attributed : r.Attributed options path e.attributes.inode e.attributes
  generation_eq : e.generation = options.generation
  attrTtl_eq : e.attrTtl = options.attrTtl
  entryTtl_eq : e.entryTtl = options.entryTtl

/-- A record of a listing tells the directory, the one above it or an entry that storage named, with no
reference more.  The directory above the root is the root. -/
inductive Service.Records (r : Service) (inode : Inode) (path : Path) : DirectoryEntry → Prop
  | here (told : r.before.inodes.Tells r.after.inodes inode path 0) :
    Records r inode path (record 0 inode .directory Name.here)
  | above {parent : Inode}
    (told : r.before.inodes.Tells r.after.inodes parent
      (if inode = rootInode then path else parentWithin r.before.inodes.root path) 0) :
    Records r inode path (record 1 parent .directory Name.above)
  | child {names : List Name} {name : Name} {k : Nat} {stat : Stat} {child : Inode}
    (lists : ⟨.readdir path, .ok names⟩ ∈ r.events) (named : names[k]? = some name)
    (described : ⟨.stat (path.child name), .ok stat⟩ ∈ r.events)
    (told : r.before.inodes.Tells r.after.inodes child (path.child name) 0) :
    Records r inode path (record (k + 2) child stat.kind name)

/-- Whether an outcome of a request agrees with the tables after it and with what storage answered.  The
one for opening a directory has the handle zero, under which nothing is held. -/
def Service.Supports (r : Service) (options : MountOptions) : Outcome → Prop
  | .entry e => ∃ path, r.Enters options path e
  | .created e opened => ∃ path mode fd, r.Enters options path e ∧
      ⟨.create path mode, .ok fd⟩ ∈ r.events ∧
      r.after.handles.get? opened.handle = some ⟨e.attributes.inode, fd, .readWrite⟩
  | .opened opened =>
    (∃ inode flags path mode fd, r.request = .open inode flags ∧
      r.before.inodes.resolve? inode = some path ∧ ⟨.open path mode, .ok fd⟩ ∈ r.events ∧
      r.after.handles.get? opened.handle = some ⟨inode, fd, mode⟩ ∧
      r.after.inodes = r.before.inodes) ∨
    ∃ inode flags, r.request = .opendir inode flags ∧ opened.handle = 0 ∧
      (r.before.inodes.resolve? inode).isSome ∧ r.events = [] ∧ r.after = r.before
  | .attributes attributes ttl => ∃ path,
      (r.request = .getattr attributes.inode ∨
        ∃ changes, r.request = .setattr attributes.inode changes) ∧
      r.before.inodes.resolve? attributes.inode = some path ∧ r.after.inodes = r.before.inodes ∧
      r.before.inodes.Tells r.after.inodes attributes.inode path 0 ∧
      r.Attributed options path attributes.inode attributes ∧ ttl = options.attrTtl
  | .directory buffer => ∃ inode handle offset budget path,
      r.request = .readdir inode handle offset budget ∧
      r.before.inodes.resolve? inode = some path ∧ ∀ e ∈ buffer.entries, r.Records inode path e
  | _ => True

def Service.RepliesTruly (r : Service) (options : MountOptions) : Prop :=
  ∀ outcome, r.outcome = some outcome → r.Supports options outcome

/-- Whether the searches for free numbers came to an end; zero stands for what one finds that does
not. -/
def Service.FindsNumbers (r : Service) : Prop :=
  r.Ends ∧ ∀ inode ∈ (r.outcome.map Outcome.inodes).getD [], inode ≠ 0

instance (r : Service) : Decidable r.FindsNumbers := inferInstanceAs (Decidable (_ ∧ _))

section Listing

variable {directory : Path} {t : InodeTable} {items : List (Name × Nat)}
  {buffer buffer' : DirectoryBuffer} {events : List Event} {bound : List Name}

theorem Listing.tells (h : Listing directory t items buffer events bound buffer')
    (hc : t.Consistent) {e : DirectoryEntry} (he : e ∈ buffer'.entries) (hfound : e.inode ≠ 0) :
    e ∈ buffer.entries ∨ ∃ name position stat child, (name, position) ∈ items ∧
      ⟨.stat (directory.child name), .ok stat⟩ ∈ events ∧
      e = record position child stat.kind name ∧
      t.Tells (bindingAll directory bound t) child (directory.child name) 0 := by
  induction h with
  | finished => exact .inl he
  | full => exact .inl he
  | passed _ _ ih =>
    rcases ih hc he with hin | ⟨name, position, stat, child, hitem, hstat, heq, htold⟩
    · exact .inl hin
    · exact .inr ⟨name, position, stat, child, List.mem_cons_of_mem _ hitem,
        List.mem_cons_of_mem _ hstat, heq, htold⟩
  | @added t name position items buffer buffer' longer events bound stat fits rest ih =>
    have hlists := InodeTable.lists_bind_any t (directory.child name)
    have hconsistent := hc.insert (directory.child name) 0
    rcases ih hconsistent he with hin | ⟨name', position', stat', child, hitem, hstat, heq, htold⟩
    · rw [(DirectoryBuffer.add?_eq_some_iff.1 fits).2] at hin
      rcases List.mem_append.1 hin with hin | hnew
      · exact .inl hin
      · obtain rfl := List.mem_singleton.1 hnew
        refine .inr ⟨name, position, stat, _, by simp, by simp, rfl, ?_⟩
        exact (InodeTable.tells_insert hc hfound).before_lists (lists_bindingAll_any directory bound _)
    · exact .inr ⟨name', position', stat', child, List.mem_cons_of_mem _ hitem,
        List.mem_cons_of_mem _ hstat, heq, htold.after_lists hc hconsistent hlists⟩

theorem mem_fill {b : DirectoryBuffer} {es : List DirectoryEntry} {e : DirectoryEntry}
    (h : e ∈ (b.fill es).1.entries) : e ∈ b.entries ∨ e ∈ es := by
  induction es generalizing b with
  | nil => exact .inl h
  | cons e' es ih =>
    rw [DirectoryBuffer.fill] at h
    split at h
    next longer fits =>
      rcases ih h with hin | hin
      · rw [(DirectoryBuffer.add?_eq_some_iff.1 fits).2] at hin
        rcases List.mem_append.1 hin with hin | hin
        · exact .inl hin
        · exact .inr (List.mem_cons.2 (.inl (List.mem_singleton.1 hin)))
      · exact .inr (List.mem_cons_of_mem _ hin)
    · exact .inl h

theorem tells_bindingAbove {inode : Inode} (hc : t.Consistent)
    (hbound : t.resolve? inode = some directory)
    (hfound : (bindingAbove inode directory t).1 ≠ 0) :
    t.Tells (bindingAbove inode directory t).2 (bindingAbove inode directory t).1
      (if inode = rootInode then directory else parentWithin t.root directory) 0 := by
  unfold bindingAbove at hfound ⊢
  split at hfound
  next hroot =>
    rw [if_pos hroot, if_pos hroot]
    exact InodeTable.tells_of_resolve? hc (hroot ▸ hbound)
  next hroot =>
    rw [if_neg hroot, if_neg hroot]
    exact InodeTable.tells_insert hc hfound

theorem ListingFrom.records {r : Service} {inode : Inode} {names : List Name} {start budget : Nat}
    {rest : List Event} (hc : r.before.inodes.Consistent)
    (hbound : r.before.inodes.resolve? inode = some directory)
    (hevents : r.events = ⟨.readdir directory, .ok names⟩ :: rest)
    (hafter : r.after.inodes =
      bindingAll directory bound (bindingAbove inode directory r.before.inodes).2)
    (h : ListingFrom inode directory r.before.inodes names start budget rest bound buffer)
    {e : DirectoryEntry} (he : e ∈ buffer.entries) (hfound : e.inode ≠ 0) :
    r.Records inode directory e := by
  have habove := lists_bindingAbove_any inode directory r.before.inodes
  have hlater : (bindingAbove inode directory r.before.inodes).2.Lists r.after.inodes
      fun _ => True := by
    rw [hafter]
    exact lists_bindingAll_any directory bound _
  -- the first two records
  have hdots : e ∈ (dotsFrom inode (bindingAbove inode directory r.before.inodes).1 start
      budget).1.entries → r.Records inode directory e := by
    intro hin
    have hrecord := List.mem_of_mem_drop ((mem_fill hin).resolve_left (by simp [DirectoryBuffer.new]))
    rcases List.mem_cons.1 hrecord with rfl | hrecord
    · exact .here ((InodeTable.tells_of_resolve? hc hbound).before_lists (habove.trans hlater))
    · obtain rfl := List.mem_singleton.1 hrecord
      exact .above ((tells_bindingAbove hc hbound hfound).before_lists hlater)
  cases h with
  | cut => exact hdots he
  | entries _ listing =>
    have hmid := consistent_bindingAbove hc inode directory
    rcases listing.tells hmid he hfound with hin | ⟨name, position, stat, child, hitem, hstat, rfl, htold⟩
    · exact hdots hin
    · have hitem := List.mem_of_mem_drop hitem
      obtain ⟨k, rfl⟩ := Nat.exists_eq_add_of_le' (List.le_snd_of_mem_zipIdx hitem)
      have hnamed := List.mem_zipIdx_iff_le_and_getElem?_sub.1 hitem
      refine .child (hevents ▸ List.mem_cons_self) ?_ (hevents ▸ List.mem_cons_of_mem _ hstat) ?_
      · simpa using hnamed.2
      · rw [hafter]
        exact htold.after_lists hc hmid habove

end Listing

section Replies

variable {d d' : Dispatcher} {req : Request} {events : List Event} {out : Option Outcome}

theorem describes_of_last {r : Service} {path : Path} {stat : Stat} (first : List Event)
    (hevents : r.events = first ++ [⟨.stat path, .ok stat⟩])
    (hfirst : ∀ event ∈ first, event.call ≠ .stat path) : r.Describes path stat := by
  intro result
  rw [hevents, List.mem_append, List.mem_singleton]
  constructor
  · rintro (hin | heq)
    · exact absurd rfl (hfirst _ hin)
    · cases heq
      rfl
  · rintro rfl
    exact .inr rfl

theorem enters_handing {path : Path} {stat : Stat} {handles : HandleTable OpenFile}
    (hc : d.inodes.Consistent) (hasked : d.entryPath? req = some path)
    (hfound : (d.inodes.bindLookup path).1 ≠ 0)
    (hstat : (⟨d, req, events, out, { d.handing path with handles }⟩ : Service).Describes path stat) :
    (⟨d, req, events, out, { d.handing path with handles }⟩ : Service).Enters d.options path
      (d.entryReply path stat) where
  asked := hasked
  told := by
    rw [entryReply_inode]
    exact InodeTable.tells_insert hc hfound
  attributed := by
    refine ⟨stat, hstat, ?_⟩
    rw [entryReply_inode, entryReply, attributes_eq]
  generation_eq := rfl
  attrTtl_eq := rfl
  entryTtl_eq := rfl

/-- What is told of a bound inode, without a change of the tables, agrees with them. -/
theorem supports_attributes {inode : Inode} {path : Path} {stat : Stat} (first : List Event)
    (hc : d.inodes.Consistent) (hbound : d.inodes.resolve? inode = some path)
    (hasked : req = .getattr inode ∨ ∃ changes, req = .setattr inode changes)
    (hfirst : ∀ event ∈ first, event.call ≠ .stat path) :
    (⟨d, req, first ++ [⟨.stat path, .ok stat⟩], out, d⟩ : Service).Supports d.options
      (.attributes (d.options.attributes inode stat) d.options.attrTtl) := by
  have hinode : (d.options.attributes inode stat).inode = inode := by rw [attributes_eq]
  refine ⟨path, ?_, ?_, rfl, ?_, ⟨stat, describes_of_last first rfl hfirst, ?_⟩, rfl⟩
  · rwa [hinode]
  · rwa [hinode]
  · rw [hinode]
    exact InodeTable.tells_of_resolve? hc hbound
  · rw [hinode, attributes_eq]

theorem supports_opened {inode : Inode} {flags : Int32} {path : Path} {file : OpenFile}
    (hbound : d.inodes.resolve? inode = some path) (hopens : file.inode = inode)
    (hcall : ⟨.open path file.mode, .ok file.fd⟩ ∈ events)
    (hnumber : (d.handles.insert file).1 ≠ 0) :
    (⟨d, .open inode flags, events, out,
        { d with handles := (d.handles.insert file).2 }⟩ : Service).Supports d.options
      (.opened ⟨(d.handles.insert file).1, 0⟩) := by
  subst hopens
  exact .inl ⟨file.inode, flags, path, file.mode, file.fd, rfl, hbound, hcall,
    HandleTable.get?_insert_self hnumber, rfl⟩

/-- Whatever a request does, its reply agrees with the tables and with storage. -/
theorem Conduct.repliesTruly (h : Conduct d req events out d') (hc : d.inodes.Consistent)
    (hfinds : (⟨d, req, events, out, d'⟩ : Service).FindsNumbers) :
    (⟨d, req, events, out, d'⟩ : Service).RepliesTruly d.options := by
  obtain ⟨hends, hinodes⟩ := hfinds
  intro outcome houtcome
  obtain rfl : out = some outcome := houtcome
  cases h with
  | refused | failed | rejected | untold | followed | unseen | abandoned | removed | moved | rebound
  | unopened | fetched | stored | released | unheld | measured =>
    trivial
  | settled good settles =>
    cases req with
    | opendir inode flags =>
      cases settles
      refine .inr ⟨inode, flags, rfl, rfl, ?_, rfl, rfl⟩
      simp only [fault?, faultOf, pathOf] at good
      cases hp : d.inodes.resolve? inode with
      | some path => rfl
      | none => simp [hp] at good
    | _ => cases settles <;> trivial
  | @found parent name path named stat =>
    have hfound := hinodes _ (List.mem_singleton_self _)
    rw [entryReply_inode] at hfound
    have hasked : d.entryPath? (.lookup parent name) = some path := by
      rw [entryPath?, named]
      rfl
    exact ⟨path, enters_handing hc hasked hfound (describes_of_last [] rfl (by simp))⟩
  | @made _ c path begins makes answer stat =>
    have hfound := hinodes _ (List.mem_singleton_self _)
    rw [entryReply_inode] at hfound
    refine ⟨path, enters_handing hc (begins.entryPath? makes) hfound ?_⟩
    apply describes_of_last [⟨c, .ok answer⟩] rfl
    rintro event hevent
    obtain rfl := List.mem_singleton.1 hevent
    rintro rfl
    cases makes
  | @created parent name mode flags path file named stat inode writable =>
    have hfound := hinodes _ (List.mem_singleton_self _)
    rw [entryReply_inode] at hfound
    have hasked : d.entryPath? (.create parent name mode flags) = some path := by
      rw [entryPath?, named]
      rfl
    refine ⟨path, mode, file.fd, enters_handing hc hasked hfound ?_, by simp, ?_⟩
    · apply describes_of_last [⟨.create path mode, .ok file.fd⟩] rfl
      simp
    · have hnumber : (d.handles.insert file).1 ≠ 0 := fun hzero => hends rfl (congrArg some hzero)
      rw [← inode, ← writable]
      exact HandleTable.get?_insert_self hnumber
  | opened bound opens writable =>
    apply supports_opened bound opens
    · rw [writable]
      exact List.mem_singleton_self _
    · exact fun hzero => hends rfl (congrArg some hzero)
  | openedToRead bound opens unwritable e =>
    apply supports_opened bound opens
    · rw [unwritable]
      exact List.mem_cons_of_mem _ (List.mem_singleton_self _)
    · exact fun hzero => hends rfl (congrArg some hzero)
  | described bound stat =>
    exact supports_attributes [] hc bound (.inl rfl) (by simp)
  | changed bound tries stat =>
    refine supports_attributes _ hc bound (.inr ⟨_, rfl⟩) fun event hevent => ?_
    obtain ⟨_, hcall⟩ | ⟨_, _, _, hcall⟩ | ⟨_, hcall⟩ | ⟨_, _, hcall⟩ :=
      mem_changeCalls (tries.call_mem event hevent)
    all_goals rw [hcall]; exact Call.noConfusion
  | @listed inode handle offset budget position path names bound rest buffer placed resolves listing =>
    refine ⟨inode, handle, offset, budget, path, rfl, resolves, fun e he => ?_⟩
    exact ListingFrom.records hc resolves rfl rfl listing he
      (hinodes _ (List.mem_map_of_mem he))

end Replies

/-- In every state that requests over a storage lead to which renames only between paths that are equal
or apart, over any storage and for any request whose searches for numbers end: the reply agrees with the
tables after the request and with what storage answered during it. -/
theorem replies_agree {σ τ : Type} (s : Storage σ) (number : Numbering) (options : MountOptions)
    (root : Path) (state state' : σ) (hist : List Service) (d mid : Dispatcher)
    (hrun : RunsOver s (start number options root) state hist d state')
    (haccepts : ∀ source target met, (s.perform (.rename source target) met).1 = .ok () →
      source.Renamable target)
    (hreorders : d.Reorders mid) (storage : Storage τ) (met : τ) (request : Request)
    (hfinds : (serveOver storage mid met request).1.FindsNumbers) :
    (serveOver storage mid met request).1.RepliesTruly options := by
  have hapart := hrun.renamesApart haccepts
  obtain ⟨_, hconsistent, hoptions⟩ := hrun.invariant
    (P := fun d => d.inodes.Consistent ∧ d.options = options)
    ⟨InodeTable.consistent_withNumbering number root, rfl⟩
    (fun d mid hreorders hd => ⟨hreorders.inodes.consistent hd.1, hreorders.options.trans hd.2⟩)
    fun r hr hpossible hd => ⟨hpossible.consistent hd.1 (hapart r hr),
      (serve_effect hpossible).1.trans hd.2⟩
  have hconduct := serve_conduct (serveOver_possible storage mid met request)
  rw [← hoptions, ← hreorders.options]
  exact hconduct.repliesTruly (hreorders.inodes.consistent hconsistent) hfinds

/-- The reply to opening a directory has a handle under which nothing is held. -/
theorem opendir_holds_nothing :
    let d := start (fun _ salt => salt + 2) {} ⟨[slash]⟩
    let r := (serveOver (HostStorage.serving ⟨[slash]⟩) d
      (HostStorage.new (Host.fresh 0 .epoch .fallback)) (.opendir rootInode 0)).1
    r.outcome = some (.opened ⟨0, 0⟩) ∧ r.after.handles.get? 0 = none := by
  decide +kernel

/-- A file that was moved over another one is looked up under its new name: it has the inode that it
had, with two references, and the owner that is configured. -/
theorem reply_of_moved_file :
    let root : Path := ⟨[slash]⟩
    let stat : Stat := ⟨.regular, 7, 1, .epoch, .epoch, .epoch, 0o644, 1, ⟨5, 5⟩, 0, 512⟩
    let storage : Storage Unit := {
      root
      perform
        | .stat _, u => (.ok stat, u)
        | .rename source target, u =>
          (if source.Renamable target then .ok () else .error (.host Errno.invalid), u)
        | _, u => (.error (.host Errno.inputOutput), u) }
    let requests : List Request := [.lookup rootInode [0x61], .lookup rootInode [0x62],
      .rename rootInode [0x61] rootInode [0x62]]
    let number : Numbering := fun _ salt => salt + 2
    let options : MountOptions := { owner := some ⟨8, 9⟩ }
    let d := (stateAfter storage (start number options root) () requests).1
    let r := (serveOver storage d () (.lookup rootInode [0x62])).1
    (∀ source target met, (storage.perform (.rename source target) met).1 = .ok () →
      source.Renamable target) ∧
    r.FindsNumbers ∧ r.RepliesTruly options ∧
    r.outcome = some (.entry ⟨⟨{ stat with owner := ⟨8, 9⟩ }, 2⟩, 1, .zero, .zero⟩) ∧
    r.after.inodes.lookups? 2 = some 2 := by
  intro root stat storage requests number options d r
  have haccepts : ∀ source target met,
      (storage.perform (.rename source target) met).1 = .ok () → source.Renamable target := by
    intro source target met h
    by_contra hnot
    simp only [storage, if_neg hnot] at h
    cases h
  have hrun := runsOver_serveAll storage (start number options root) () requests
  have houtcome : r.outcome =
      some (.entry ⟨⟨{ stat with owner := ⟨8, 9⟩ }, 2⟩, 1, .zero, .zero⟩) := by
    decide +kernel
  have hopens : r.request.opensFile = false := rfl
  have hfinds : r.FindsNumbers := by
    refine ⟨fun hyes => ?_, ?_⟩
    · rw [hopens] at hyes
      cases hyes
    · rw [houtcome]
      intro inode hin
      obtain rfl := List.mem_singleton.1 hin
      decide
  have htruly := replies_agree storage number options root () _ _ d d hrun haccepts (.refl d) storage
    () (.lookup rootInode [0x62]) hfinds
  exact ⟨haccepts, hfinds, htruly, houtcome, by decide +kernel⟩

end Dispatcher
end InodeBridge
