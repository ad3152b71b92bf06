import InodeBridge.Proofs.Dispatcher.Handlers
import InodeBridge.Proofs.InodeTable.Probing

/-! # How a directory is listed

A listing goes over the entries that storage names, one after the other: those that cannot be described
are passed over, the others are bound and added, until one no longer fits.
-/
namespace InodeBridge.Dispatcher

open Storage (Call Event)

def bindingAll (directory : Path) : List Name → InodeTable → InodeTable
  | [], t => t
  | name :: names, t => bindingAll directory names (t.bind (directory.child name)).2

/-- The inode of the directory above a listed one, and the table after it was bound. -/
def bindingAbove (inode : Inode) (directory : Path) (t : InodeTable) : Inode × InodeTable :=
  if inode = rootInode then (rootInode, t) else t.bind (parentWithin t.root directory)

section Binding

variable {t : InodeTable} {directory : Path}

theorem lists_bindingAll {new : Path → Prop} {names : List Name} (t : InodeTable)
    (h : ∀ name ∈ names, new (directory.child name)) :
    t.Lists (bindingAll directory names t) new := by
  induction names generalizing t with
  | nil => exact .refl t new
  | cons name names ih =>
    obtain ⟨hname, hrest⟩ := List.forall_mem_cons.1 h
    exact (InodeTable.lists_bind hname).trans (ih _ hrest)

theorem lists_bindingAbove {new : Path → Prop} (inode : Inode) (t : InodeTable)
    (h : inode ≠ rootInode → new (parentWithin t.root directory)) :
    t.Lists (bindingAbove inode directory t).2 new := by
  unfold bindingAbove
  split
  · exact .refl t new
  next hne => exact InodeTable.lists_bind (h hne)

theorem lists_bindingAll_any (directory : Path) (names : List Name) (t : InodeTable) :
    t.Lists (bindingAll directory names t) fun _ => True :=
  lists_bindingAll t fun _ _ => trivial

theorem lists_bindingAbove_any (inode : Inode) (directory : Path) (t : InodeTable) :
    t.Lists (bindingAbove inode directory t).2 fun _ => True :=
  lists_bindingAbove inode t fun _ => trivial

/-- Each of the entries is given an inode. -/
theorem exists_gives_bindingAll {names : List Name} {name : Name} (t : InodeTable)
    (h : name ∈ names) :
    ∃ i, t.Gives (bindingAll directory names t) (directory.child name) i := by
  induction names generalizing t with
  | nil => cases h
  | cons first names ih =>
    rcases List.mem_cons.1 h with rfl | hrest
    · have hgives := InodeTable.gives_insert t (directory.child name) 0
      exact ⟨_, hgives.before_lists (lists_bindingAll_any directory names _)⟩
    · obtain ⟨i, hi⟩ := ih (t.bind (directory.child first)).2 hrest
      exact ⟨i, hi.after_lists (InodeTable.lists_bind_any t _)⟩

end Binding

/-- The calls made over some entries of a directory, the names bound, and the records added. -/
inductive Listing (directory : Path) : InodeTable → List (Name × Nat) → DirectoryBuffer →
    List Event → List Name → DirectoryBuffer → Prop
  | finished (t : InodeTable) (buffer : DirectoryBuffer) :
    Listing directory t [] buffer [] [] buffer
  /-- The entry cannot be described. -/
  | passed {t : InodeTable} {name : Name} {position : Nat} {items : List (Name × Nat)}
    {buffer buffer' : DirectoryBuffer} {events : List Event} {bound : List Name}
    (e : StorageError) (rest : Listing directory t items buffer events bound buffer') :
    Listing directory t ((name, position) :: items) buffer
      (⟨.stat (directory.child name), .error e⟩ :: events) bound buffer'
  /-- The entry no longer fits. -/
  | full {t : InodeTable} {name : Name} {position : Nat} {items : List (Name × Nat)}
    {buffer : DirectoryBuffer} (stat : Stat)
    (excess : buffer.add? (record position (t.bind (directory.child name)).1 stat.kind name) =
      none) :
    Listing directory t ((name, position) :: items) buffer
      [⟨.stat (directory.child name), .ok stat⟩] [name] buffer
  | added {t : InodeTable} {name : Name} {position : Nat} {items : List (Name × Nat)}
    {buffer buffer' longer : DirectoryBuffer} {events : List Event} {bound : List Name}
    (stat : Stat)
    (fits : buffer.add? (record position (t.bind (directory.child name)).1 stat.kind name) =
      some longer)
    (rest : Listing directory (t.bind (directory.child name)).2 items longer events bound buffer') :
    Listing directory t ((name, position) :: items) buffer
      (⟨.stat (directory.child name), .ok stat⟩ :: events) (name :: bound) buffer'

variable {d d' : Dispatcher} {events : List Event}

theorem does_listEntries {directory : Path} {items : List (Name × Nat)} {buffer : DirectoryBuffer}
    {r : Except RequestError DirectoryBuffer}
    (h : (listEntries directory items buffer).Does d events r d') :
    ∃ bound buffer', Listing directory d.inodes items buffer events bound buffer' ∧
      r = .ok buffer' ∧ d' = { d with inodes := bindingAll directory bound d.inodes } := by
  induction items generalizing d buffer events with
  | nil =>
    obtain ⟨rfl, rfl, rfl⟩ := Handler.does_pure.1 h
    exact ⟨[], buffer, .finished _ _, rfl, rfl⟩
  | cons item items ih =>
    obtain ⟨name, position⟩ := item
    rw [listEntries, Handler.does_attempt_bind] at h
    obtain ⟨result, rest, rfl, h⟩ := h
    cases result with
    | error e =>
      obtain ⟨bound, buffer', hrest, rfl, rfl⟩ := ih h
      exact ⟨bound, buffer', .passed e hrest, rfl, rfl⟩
    | ok stat =>
      replace h := Handler.does_withInodes_bind.1 h
      split at h
      next longer fits =>
        obtain ⟨bound, buffer', hrest, rfl, rfl⟩ := ih h
        exact ⟨name :: bound, buffer', .added stat fits hrest, rfl, rfl⟩
      next excess =>
        obtain ⟨rfl, rfl, rfl⟩ := Handler.does_pure.1 h
        exact ⟨[name], buffer, .full stat excess, rfl, rfl⟩

section Listing

variable {directory : Path} {t : InodeTable} {items : List (Name × Nat)}
  {buffer buffer' : DirectoryBuffer} {bound : List Name}

theorem Listing.stats (h : Listing directory t items buffer events bound buffer') :
    ∀ event ∈ events, ∃ name ∈ items.map Prod.fst, event.call = .stat (directory.child name) := by
  induction h with
  | finished => simp
  | full => simp
  | passed e _ ih | added stat _ _ ih =>
    refine List.forall_mem_cons.2 ⟨⟨_, List.mem_cons_self, rfl⟩, fun event hevent => ?_⟩
    obtain ⟨name, hname, hcall⟩ := ih event hevent
    exact ⟨name, List.mem_cons_of_mem _ hname, hcall⟩

theorem Listing.described (h : Listing directory t items buffer events bound buffer') :
    ∀ name ∈ bound, name ∈ items.map Prod.fst ∧
      ∃ stat, ⟨.stat (directory.child name), .ok stat⟩ ∈ events := by
  induction h with
  | finished => simp
  | full stat =>
    intro name hname
    obtain rfl := List.mem_singleton.1 hname
    exact ⟨by simp, stat, List.mem_singleton_self _⟩
  | passed e _ ih =>
    intro name hname
    obtain ⟨hitem, stat, hstat⟩ := ih name hname
    exact ⟨List.mem_cons_of_mem _ hitem, stat, List.mem_cons_of_mem _ hstat⟩
  | added stat _ _ ih =>
    intro name hname
    rcases List.mem_cons.1 hname with rfl | hname
    · exact ⟨by simp, stat, List.mem_cons_self⟩
    · obtain ⟨hitem, stat', hstat⟩ := ih name hname
      exact ⟨List.mem_cons_of_mem _ hitem, stat', List.mem_cons_of_mem _ hstat⟩

theorem Listing.bound_of_stat (h : Listing directory t items buffer events bound buffer')
    {path : Path} {stat : Stat} (hstat : ⟨.stat path, .ok stat⟩ ∈ events) :
    ∃ name ∈ bound, path = directory.child name := by
  induction h with
  | finished => cases hstat
  | full =>
    cases List.mem_singleton.1 hstat
    exact ⟨_, List.mem_singleton_self _, rfl⟩
  | passed _ _ ih =>
    rcases List.mem_cons.1 hstat with heq | hrest
    · cases heq
    · exact ih hrest
  | added _ _ _ ih =>
    rcases List.mem_cons.1 hstat with heq | hrest
    · cases heq
      exact ⟨_, List.mem_cons_self, rfl⟩
    · obtain ⟨name, hname, rfl⟩ := ih hrest
      exact ⟨name, List.mem_cons_of_mem _ hname, rfl⟩

end Listing

/-- The records of the directory itself and of the one above it that a listing from a position on
has, as far as they fit, and whether they all do. -/
def dotsFrom (inode parent : Inode) (start budget : Nat) : DirectoryBuffer × Bool :=
  (DirectoryBuffer.new budget).fill ((dotRecords inode parent).drop start)

/-- A listing of some names from a position on: the calls made, the names bound, and the records. -/
inductive ListingFrom (inode : Inode) (path : Path) (t : InodeTable) (names : List Name)
    (start budget : Nat) : List Event → List Name → DirectoryBuffer → Prop
  /-- The first two records do not fit. -/
  | cut (excess : (dotsFrom inode (bindingAbove inode path t).1 start budget).2 = false) :
    ListingFrom inode path t names start budget [] []
      (dotsFrom inode (bindingAbove inode path t).1 start budget).1
  | entries {events : List Event} {bound : List Name} {buffer : DirectoryBuffer}
    (fits : (dotsFrom inode (bindingAbove inode path t).1 start budget).2 = true)
    (listing : Listing path (bindingAbove inode path t).2 ((names.zipIdx 2).drop (start - 2))
      (dotsFrom inode (bindingAbove inode path t).1 start budget).1 events bound buffer) :
    ListingFrom inode path t names start budget events bound buffer

theorem ListingFrom.stats {inode : Inode} {path : Path} {t : InodeTable} {names bound : List Name}
    {start budget : Nat} {buffer : DirectoryBuffer}
    (h : ListingFrom inode path t names start budget events bound buffer) :
    ∀ event ∈ events, ∃ name ∈ names, event.call = .stat (path.child name) := by
  cases h with
  | cut => simp
  | entries _ listing =>
    intro event hevent
    obtain ⟨name, hname, hcall⟩ := listing.stats event hevent
    obtain ⟨item, hitem, rfl⟩ := List.mem_map.1 hname
    exact ⟨_, List.fst_mem_of_mem_zipIdx (List.mem_of_mem_drop hitem), hcall⟩

theorem ListingFrom.described {inode : Inode} {path : Path} {t : InodeTable}
    {names bound : List Name} {start budget : Nat} {buffer : DirectoryBuffer}
    (h : ListingFrom inode path t names start budget events bound buffer) :
    ∀ name ∈ bound, name ∈ names ∧ ∃ stat, ⟨.stat (path.child name), .ok stat⟩ ∈ events := by
  cases h with
  | cut => simp
  | entries _ listing =>
    intro name hname
    obtain ⟨hitem, hstat⟩ := listing.described name hname
    obtain ⟨item, hmem, rfl⟩ := List.mem_map.1 hitem
    exact ⟨List.fst_mem_of_mem_zipIdx (List.mem_of_mem_drop hmem), hstat⟩

theorem ListingFrom.bound_of_stat {inode : Inode} {path p : Path} {t : InodeTable}
    {names bound : List Name} {start budget : Nat} {buffer : DirectoryBuffer} {stat : Stat}
    (h : ListingFrom inode path t names start budget events bound buffer)
    (hstat : ⟨.stat p, .ok stat⟩ ∈ events) : ∃ name ∈ bound, p = path.child name := by
  cases h with
  | cut => cases hstat
  | entries _ listing => exact listing.bound_of_stat hstat

/-- After the directory above was bound, the rest of a listing cannot fail. -/
theorem does_listingFrom {inode parent : Inode} {path : Path} {t : InodeTable} {names : List Name}
    {start budget : Nat} {r : Except RequestError Outcome}
    (habove : bindingAbove inode path t = (parent, d.inodes))
    (h : (if (dotsFrom inode parent start budget).2 = true then
        do return .directory (← listEntries path ((names.zipIdx 2).drop (start - 2))
          (dotsFrom inode parent start budget).1)
      else pure (.directory (dotsFrom inode parent start budget).1) : Handler Outcome).Does
        d events r d') :
    ∃ bound buffer, ListingFrom inode path t names start budget events bound buffer ∧
      r = .ok (.directory buffer) ∧
      d' = { d with inodes := bindingAll path bound (bindingAbove inode path t).2 } := by
  obtain rfl : parent = (bindingAbove inode path t).1 := by rw [habove]
  have ht : d.inodes = (bindingAbove inode path t).2 := by rw [habove]
  rw [← ht]
  split at h
  next hfits =>
    obtain ⟨e, _, hfail⟩ | ⟨buffer, first, mid, rest, rfl, hentries, hend⟩ :=
      Handler.does_bind.1 h
    · obtain ⟨_, _, _, hok, _⟩ := does_listEntries hfail
      simp at hok
    · obtain ⟨bound, buffer', hlisting, hok, rfl⟩ := does_listEntries hentries
      obtain ⟨rfl, rfl, rfl⟩ := Handler.does_pure.1 hend
      cases hok
      rw [ht] at hlisting
      rw [List.append_nil]
      exact ⟨bound, buffer, .entries hfits hlisting, rfl, rfl⟩
  next hcut =>
    obtain ⟨rfl, rfl, rfl⟩ := Handler.does_pure.1 h
    exact ⟨[], _, .cut (Bool.eq_false_iff.2 hcut), rfl, rfl⟩

theorem positionOf_eq_ok {offset : Int64} {start : UInt64} (h : positionOf offset = .ok start) :
    start.toNat = offset.toNatClampNeg := by
  unfold positionOf at h
  split at h
  · simp at h
  next hneg =>
    cases h
    exact Int64.toNat_toUInt64_of_le (Int64.not_lt.1 hneg)

theorem positionOf_eq {offset : Int64} (h : 0 ≤ offset) :
    positionOf offset = .ok offset.toUInt64 := by
  rw [positionOf, if_neg (Int64.not_lt.2 h)]

/-- A request for a listing is refused, or asks storage for the names, and if it gets them the rest
cannot fail. -/
theorem does_readdir {inode : Inode} {offset : Int64} {budget : Nat}
    {r : Except RequestError Outcome} (h : (readdir inode offset budget).Does d events r d') :
    (∃ e, (positionOf offset >>= fun _ => d.pathOf inode) = .error e ∧
      events = [] ∧ r = .error e ∧ d' = d) ∨
    ∃ start path, positionOf offset = .ok start ∧ d.inodes.resolve? inode = some path ∧
      ((∃ e, events = [⟨.readdir path, .error e⟩] ∧ r = .error (.storage e) ∧ d' = d) ∨
        ∃ names rest bound buffer, events = ⟨.readdir path, .ok names⟩ :: rest ∧
          ListingFrom inode path d.inodes names start.toNat budget rest bound buffer ∧
          r = .ok (.directory buffer) ∧
          d' = { d with
            inodes := bindingAll path bound (bindingAbove inode path d.inodes).2 }) := by
  rw [readdir, (Handler.reads_position offset).does_bind_iff] at h
  rcases h with ⟨e, he, rfl, rfl, rfl⟩ | ⟨start, hstart, h⟩
  · exact .inl ⟨e, by rw [he]; rfl, rfl, rfl, rfl⟩
  rw [(Handler.reads_resolve inode).does_bind_iff] at h
  rcases h with ⟨e, he, rfl, rfl, rfl⟩ | ⟨path, hpath, h⟩
  · exact .inl ⟨e, by rw [hstart]; exact he, rfl, rfl, rfl⟩
  refine .inr ⟨start, path, hstart, pathOf_eq_ok_iff.1 hpath, ?_⟩
  rcases Handler.does_perform_bind.1 h with ⟨e, rfl, rfl, rfl⟩ | ⟨names, rest, rfl, hrest⟩
  · exact .inl ⟨e, rfl, rfl, rfl⟩
  suffices hlisting : ∃ bound buffer,
      ListingFrom inode path d.inodes names start.toNat budget rest bound buffer ∧
        r = .ok (.directory buffer) ∧
        d' = { d with inodes := bindingAll path bound (bindingAbove inode path d.inodes).2 } by
    obtain ⟨bound, buffer, hlisting, hr, hd⟩ := hlisting
    exact .inr ⟨names, rest, bound, buffer, rfl, hlisting, hr, hd⟩
  by_cases hroot : inode = rootInode
  · simp only [hroot, if_true, pure_bind] at hrest
    exact does_listingFrom (by rw [bindingAbove, if_pos hroot, hroot]) (hroot ▸ hrest)
  · simp only [hroot, if_false] at hrest
    have hbound := Handler.does_withInodes_bind.1 (Handler.does_get_bind.1 hrest)
    have habove : bindingAbove inode path d.inodes =
        d.inodes.bind (parentWithin d.inodes.root path) := if_neg hroot
    obtain ⟨bound, buffer, hlisting, hr, hd⟩ := does_listingFrom (t := d.inodes) habove hbound
    exact ⟨bound, buffer, hlisting, hr, hd⟩

end InodeBridge.Dispatcher
