import InodeBridge.Proofs.Host.Calls
import InodeBridge.Proofs.Host.Creating

/-! # Changes of attributes at a path

The calls that change attributes at a path reach the object that the path names with a link at its end
kept, and no other: mode and length of a link are refused, and the stamps that are set are its own.  As
no such call moves a name, a path leads to the same object before and after.
-/
namespace InodeBridge

open Storage (Call)

namespace Host

variable {h h' mid : Host} {id x : ObjectId} {path : Path}

/-- Two hosts with the same names, directories and links. -/
structure SameOutline (h h' : Host) : Prop where
  root_eq : h'.root = h.root
  working_eq : h'.workingDirectory = h.workingDirectory
  outline_eq : ∀ x, (h'.node? x).map Node.outline = (h.node? x).map Node.outline

namespace SameOutline

theorem refl (h : Host) : h.SameOutline h := ⟨rfl, rfl, fun _ => rfl⟩

theorem trans (first : h.SameOutline mid) (rest : mid.SameOutline h') : h.SameOutline h' where
  root_eq := rest.root_eq.trans first.root_eq
  working_eq := rest.working_eq.trans first.working_eq
  outline_eq x := (rest.outline_eq x).trans (first.outline_eq x)

theorem alter (h : Host) (id : ObjectId) {f : Object → Object}
    (hf : ∀ o, (f o).node.outline = o.node.outline) : h.SameOutline (h.alter id f) where
  root_eq := rfl
  working_eq := rfl
  outline_eq x := outline_alter h id x hf

variable (same : h.SameOutline h')

include same

theorem linkContent?_eq : h'.linkContent? x = h.linkContent? x :=
  linkContent?_of_outline (same.outline_eq x)

theorem isDirectory_eq : h'.isDirectory x = h.isDirectory x := by
  rw [isDirectory, entries?_of_outline (same.outline_eq x), isDirectory]

theorem route_eq (directory : ObjectId) (content : Bytes) :
    h'.route directory content = h.route directory content := by
  rw [route, route, same.root_eq]

theorem findEntry_eq : h'.findEntry = h.findEntry := by
  funext directory name
  rw [findEntry, findEntry, entry?, entries?_of_outline (same.outline_eq directory), entry?]

theorem walkWith_eq (lookUp : LookUp) (follow : Follow) (atEnd : PathEnd) (slashed : Bool)
    (current : ObjectId) (names : List Name) :
    h'.walkWith lookUp follow atEnd slashed current names =
      h.walkWith lookUp follow atEnd slashed current names := by
  induction names generalizing current with
  | nil => rfl
  | cons name rest ih =>
    rw [walkWith, walkWith]
    simp only [same.isDirectory_eq, same.linkContent?_eq, ih,
      parent_of_outline (same.outline_eq current)]

theorem walk_eq (lookUp : LookUp) (atEnd : PathEnd) (links : Nat) :
    h'.walk lookUp atEnd links = h.walk lookUp atEnd links := by
  induction links with
  | zero =>
    funext slashed current names
    exact same.walkWith_eq ..
  | succ links ih =>
    funext slashed current names
    rw [walk, walk]
    simp only [same.route_eq, ih]
    exact same.walkWith_eq ..

theorem find_eq (atEnd : PathEnd) (path : Path) : h'.find atEnd path = h.find atEnd path := by
  have hroute : h'.routeOf path = h.routeOf path := by
    rw [routeOf, routeOf, same.route_eq, same.working_eq]
  have hlocate : h'.locate atEnd path = h.locate atEnd path := by
    rw [locate, locate, hroute, same.findEntry_eq, same.walk_eq]
  rw [find, find, hlocate]
  simp only [same.isDirectory_eq]

end SameOutline

/-- Only what is made of the object itself matters. -/
theorem alter_congr {o : Object} {f g : Object → Object} (ho : h.object? id = some o)
    (hfg : f o = g o) : h.alter id f = h.alter id g := by
  rw [alter, alter, FiniteMap.modify, FiniteMap.modify, show h.objects.get? id = some o from ho]
  simp only [hfg]

end Host

namespace HostStorage

open Host (ObjectId Object)

variable {root path : Path} {s s' mid : HostStorage} {c : Call} {id : ObjectId} {o : Object}

def attributesAt? : Call → Option Path
  | .chmod path _ | .truncate path _ | .setTimes path _ _ => some path
  | _ => none

def reattributed (clock : Timestamp) : Call → Object → Object
  | .chmod _ mode, o => { o with permissions := (mode &&& 0o7777).toUInt16, changed := clock }
  | .truncate _ size, o =>
    match o.node with
    | .file content =>
      { o with node := .file (content.resize size.toNat), modified := clock, changed := clock }
    | _ => o
  | .setTimes _ accessed modified, o =>
    { o with
      accessed := accessed.getD o.accessed
      modified := modified.getD o.modified
      changed := clock }
  | _, o => o

theorem reattributed_outline (clock : Timestamp) (c : Call) (o : Object) :
    (reattributed clock c o).node.outline = o.node.outline := by
  cases c with
  | truncate path size =>
    rw [reattributed]
    split
    next hnode => rw [hnode]; rfl
    · rfl
  | _ => rfl

theorem chmod_eq_ok {h h' : Host} {mode : UInt32} (hc : chmod h path mode = .ok h') :
    ∃ id o, h.lookup path = .ok (id, o) ∧ o.node.kind ≠ .symlink ∧
      h' = h.alter id (reattributed h.clock (.chmod path mode)) := by
  obtain ⟨⟨id, o⟩, hlookup, hc⟩ := bind_eq_ok.1 hc
  have hfind := Host.lookup_eq_ok_iff.1 hlookup
  dsimp only at hc
  split at hc
  · cases hc
  next hnode =>
  have hplain : o.node.kind ≠ .symlink := by
    intro hkind
    cases hn : o.node with
    | symlink content => exact hnode content hn
    | _ => simp [hn, Host.Node.kind] at hkind
  obtain ⟨x, hx, hc⟩ := bind_eq_ok.1 hc
  obtain ⟨_, hlocate⟩ := Host.locate_of_find hx
  have hlink : ¬ (h.linkContent? id).isSome := mt (Host.linkContent?_isSome_iff hfind.2).1 hplain
  obtain rfl := (Host.find_keep_of_locate hlocate hfind.1).resolve_right hlink
  exact ⟨id, o, hlookup, hplain, (Except.ok.inj hc).symm⟩

/-- The time that is given for a stamp is a floored instant: the given one, or the stamp itself. -/
theorem floors_timeFor {split : Timestamp → FileTime} (floors : ∀ t, (split t).Floors t)
    (stamp : Timestamp) (given : Option Timestamp) :
    (setTimesBy.timeFor split stamp given).Floors (given.getD stamp) := by
  cases given with
  | none => exact FileTime.floors_ofUnix stamp
  | some t => exact floors t

/-- If instants are floored where they are split, then the object that is described gets the instants
that are given, and keeps the others. -/
theorem setTimesBy_eq {split : Timestamp → FileTime} (floors : ∀ t, (split t).Floors t) (h : Host)
    (path : Path) (accessed modified : Option Timestamp) :
    setTimesBy split h path accessed modified = (h.lookup path).map fun found =>
      h.alter found.1 (reattributed h.clock (.setTimes path accessed modified)) := by
  rw [setTimesBy]
  cases hlookup : h.lookup path with
  | error e => rfl
  | ok found =>
    obtain ⟨id, o⟩ := found
    have hfind := Host.lookup_eq_ok_iff.1 hlookup
    change h.setTimes path _ _ = _
    rw [Host.setTimes_of_floors (floors_timeFor floors o.accessed accessed)
      (floors_timeFor floors o.modified modified), hfind.1]
    exact congrArg Except.ok (Host.alter_congr hfind.2 rfl)

theorem setTimes_eq (h : Host) (path : Path) (accessed modified : Option Timestamp) :
    setTimes h path accessed modified = (h.lookup path).map fun found =>
      h.alter found.1 (reattributed h.clock (.setTimes path accessed modified)) :=
  setTimesBy_eq FileTime.floors_ofTimestamp h path accessed modified

/-- A length that positions can reach is set of a file that can be written; no other is. -/
theorem setLength_cases (s : HostStorage) (file : HostFile) (size : UInt64) :
    (∃ e, s.setLength file size = (.error e, s)) ∨
      (∃ content, s.host.content? file.object = some content) ∧
        s.setLength file size =
          (.ok (), { s with host := s.host.alterContent file.object (·.resize size.toNat) }) := by
  rw [setLength, checkLength]
  by_cases hsize : size.toNat < Host.positionLimit
  · rw [if_pos hsize]
    dsimp only
    cases hresize : s.host.resize file.object file.writable size.toNat with
    | error e => exact .inl ⟨_, rfl⟩
    | ok host =>
      obtain ⟨hcontent, rfl⟩ := Host.resize_eq_ok hresize
      exact .inr ⟨hcontent, rfl⟩
  · rw [if_neg hsize]
    exact .inl ⟨_, rfl⟩

/-- A length is set of the very object that is described, which is no link. -/
theorem truncate_cases (s : HostStorage) (path : Path) (size : UInt64) :
    (∃ e, s.truncate path size = (.error e, s)) ∨
      ∃ id o, s.host.lookup path = .ok (id, o) ∧ o.node.kind ≠ .symlink ∧
        s.truncate path size = (.ok (),
          { s with host := s.host.alter id (reattributed s.host.clock (.truncate path size)) }) := by
  rw [truncate]
  cases hopen : s.host.openExisting path .keep true with
  | error e => exact .inl ⟨_, rfl⟩
  | ok id =>
    obtain ⟨id', hfind, hopen⟩ := bind_eq_ok.1 hopen
    obtain ⟨_, _, hid⟩ := bind_eq_ok.1 hopen
    obtain rfl := Except.ok.inj hid
    rcases setLength_cases s ⟨id', true⟩ size with hfails | ⟨⟨content, hcontent⟩, hset⟩
    · exact .inl hfails
    · obtain ⟨o, ho, hnode⟩ := Option.map_eq_some_iff.1 (Host.node?_of_content? hcontent)
      refine .inr ⟨id', o, Host.lookup_eq_ok_iff.2 ⟨hfind, ho⟩, ?_, hset⟩
      rw [hnode]
      intro hlink
      cases hlink

/-- A call that changes attributes at a path fails and changes nothing, or changes the object that is
described there, which is no link unless only its stamps are set. -/
theorem answer_cases (hat : attributesAt? c = some path) (s : HostStorage) :
    ((∃ e, (answer c s).1 = .error e) ∧ (answer c s).2 = s) ∨
      ∃ id o, s.host.lookup path = .ok (id, o) ∧
        (o.node.kind = .symlink → ∃ accessed modified, c = .setTimes path accessed modified) ∧
        (answer c s).2 = { s with host := s.host.alter id (reattributed s.host.clock c) } := by
  cases c with
  | chmod p mode =>
    obtain rfl := Option.some.inj hat
    rw [answer]
    cases hc : chmod s.host p mode with
    | error e => exact .inl ⟨⟨_, rfl⟩, rfl⟩
    | ok host =>
      obtain ⟨id, o, hlookup, hplain, rfl⟩ := chmod_eq_ok hc
      exact .inr ⟨id, o, hlookup, fun hlink => absurd hlink hplain, rfl⟩
  | truncate p size =>
    obtain rfl := Option.some.inj hat
    rw [answer]
    rcases truncate_cases s p size with ⟨e, hfails⟩ | ⟨id, o, hlookup, hplain, hs⟩
    · rw [hfails]
      exact .inl ⟨⟨e, rfl⟩, rfl⟩
    · rw [hs]
      exact .inr ⟨id, o, hlookup, fun hlink => absurd hlink hplain, rfl⟩
  | setTimes p accessed modified =>
    obtain rfl := Option.some.inj hat
    rw [answer, setTimes_eq]
    cases hlookup : s.host.lookup p with
    | error e => exact .inl ⟨⟨_, rfl⟩, rfl⟩
    | ok found =>
      exact .inr ⟨found.1, found.2, rfl, fun _ => ⟨accessed, modified, rfl⟩, rfl⟩
  | _ => cases hat

/-- Nothing but the object that a path names, with a link at its end kept, is changed, and of a link no
more than its stamps.  All paths lead to the same objects as before. -/
structure ChangesOnlyAt (path : Path) (s s' : HostStorage) : Prop where
  files_eq : s'.files = s.files
  outline : s.host.SameOutline s'.host
  others : ∀ id, s.host.find .keep path ≠ .ok id → s'.host.object? id = s.host.object? id
  link : ∀ id o, s.host.lookup path = .ok (id, o) → o.node.kind = .symlink →
    ∃ accessed modified changed, s'.host.object? id = some { o with accessed, modified, changed }

namespace ChangesOnlyAt

theorem refl (path : Path) (s : HostStorage) : ChangesOnlyAt path s s where
  files_eq := rfl
  outline := .refl _
  others _ _ := rfl
  link _ o hlookup _ := ⟨o.accessed, o.modified, o.changed, (Host.lookup_eq_ok_iff.1 hlookup).2⟩

theorem trans (first : ChangesOnlyAt path s mid) (rest : ChangesOnlyAt path mid s') :
    ChangesOnlyAt path s s' where
  files_eq := rest.files_eq.trans first.files_eq
  outline := first.outline.trans rest.outline
  others id hid := by
    rw [rest.others id (by rwa [first.outline.find_eq]), first.others id hid]
  link id o hlookup hlink := by
    obtain ⟨accessed, modified, changed, hmid⟩ := first.link id o hlookup hlink
    have hfind := (Host.lookup_eq_ok_iff.1 hlookup).1
    rw [← first.outline.find_eq] at hfind
    exact rest.link id { o with accessed, modified, changed }
      (Host.lookup_eq_ok_iff.2 ⟨hfind, hmid⟩) hlink

theorem answer (hat : attributesAt? c = some path) (s : HostStorage) :
    ChangesOnlyAt path s (HostStorage.answer c s).2 := by
  rcases answer_cases hat s with ⟨_, hsame⟩ | ⟨id, o, hlookup, hlink, hs⟩
  · rw [hsame]
    exact refl path s
  · obtain ⟨hfind, hobject⟩ := Host.lookup_eq_ok_iff.1 hlookup
    rw [hs]
    refine ⟨rfl, .alter s.host id (reattributed_outline _ c), ?_, ?_⟩
    · intro x hx
      have hne : x ≠ id := by
        rintro rfl
        exact hx hfind
      simp [Host.object?_alter, hne]
    · intro x o' hlookup' hkind
      obtain ⟨rfl, rfl⟩ := Prod.mk.inj (Except.ok.inj (hlookup.symm.trans hlookup'))
      obtain ⟨accessed, modified, rfl⟩ := hlink hkind
      rw [Host.object?_alter, hobject, Option.map_some, if_pos rfl]
      exact ⟨_, _, _, rfl⟩

theorem perform (hat : attributesAt? c = some path)
    (state : List (Option StorageError) × HostStorage) :
    ChangesOnlyAt path state.2 ((failing root).perform c state).2.2 := by
  rcases failing_cases root c state with ⟨_, _, hstate⟩ | ⟨_, hstate⟩
  · rw [hstate]
    exact refl path state.2
  · rw [hstate]
    exact answer hat state.2

end ChangesOnlyAt

/-- Mode and length of a link are not set, and its stamps are. -/
theorem answer_link (hlookup : s.host.lookup path = .ok (id, o)) (hlink : o.node.kind = .symlink) :
    (∀ mode, answer (.chmod path mode) s = (.error (.host Errno.unsupported), s)) ∧
    (∀ size, answer (.truncate path size) s = (.error (.host Errno.linkLoop), s)) ∧
    (∀ accessed modified, answer (.setTimes path accessed modified) s =
      (.ok (), { s with host := s.host.alter id fun o => { o with
        accessed := accessed.getD o.accessed
        modified := modified.getD o.modified
        changed := s.host.clock } })) := by
  obtain ⟨hfind, hobject⟩ := Host.lookup_eq_ok_iff.1 hlookup
  obtain ⟨content, hnode⟩ : ∃ content, o.node = .symlink content := by
    cases hn : o.node with
    | symlink content => exact ⟨content, rfl⟩
    | _ => simp [hn, Host.Node.kind] at hlink
  refine ⟨fun mode => ?_, fun size => ?_, fun accessed modified => ?_⟩
  · have hchmod : chmod s.host path mode = .error Errno.unsupported := by
      simp only [chmod, hlookup, bind, Except.bind, hnode]
    rw [answer, hchmod]
    rfl
  · have hopen : s.host.openExisting path .keep true = .error Errno.linkLoop := by
      rw [Host.openExisting, hfind]
      change (s.host.checkOpen id true >>= fun _ => _) = _
      rw [Host.checkOpen, Host.node?, hobject, Option.map_some, hnode]
      rfl
    rw [answer, truncate, hopen]
    rfl
  · rw [answer, setTimes_eq, hlookup]
    rfl

end HostStorage
end InodeBridge
