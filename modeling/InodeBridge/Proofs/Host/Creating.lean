import InodeBridge.Proofs.Host.Operations

/-! # What is opened where something is created

A file is opened with all links followed, and made where that leads to none, while an object is
described with a link at the end of its path kept.  The two meet in one object unless the described one
is a link, and then what is opened may be anywhere.  Without a link, what is opened lies in the directory
of the path, and no other place of the host changes.
-/
namespace InodeBridge.Host

variable {h : Host} {current id : ObjectId} {names rest : List Name} {atEnd : PathEnd} {links : Nat}
  {slashed : Bool}

/-- Names lead to one place. -/
theorem Leads.unique {result result' : Spot × Bool}
    (hleads : h.Leads atEnd links slashed current names result)
    (hleads' : h.Leads atEnd links slashed current names result') : result = result' :=
  Except.ok.inj (hleads.walk.symm.trans hleads'.walk)

/-- Names that lead to an object also do with a link at their end kept, unless they then lead to that
link. -/
theorem Leads.keep {s : Bool} (hleads : h.Leads atEnd links slashed current names (.found id, s)) :
    ∃ x s', h.Leads .keep links slashed current names (.found x, s') ∧
      (x = id ∨ (h.linkContent? x).isSome) := by
  generalize hresult : ((.found id, s) : Spot × Bool) = result at hleads
  induction hleads with
  | done =>
    cases hresult
    exact ⟨id, s, .done, .inl rfl⟩
  | here directory _ ih =>
    obtain ⟨x, s', hkeep, hx⟩ := ih hresult
    exact ⟨x, s', .here directory hkeep, hx⟩
  | above directory _ ih =>
    obtain ⟨x, s', hkeep, hx⟩ := ih hresult
    exact ⟨x, s', .above directory hkeep, hx⟩
  | vacant => cases hresult
  | kept directory proper _ named link =>
    cases hresult
    exact ⟨id, false, .kept directory proper rfl named link, .inl rfl⟩
  | @followed _ slashed _ _ rest y content _ directory proper _ _ named link _ ih =>
    by_cases hend : rest = [] ∧ slashed = false
    · obtain ⟨rfl, rfl⟩ := hend
      exact ⟨y, false, .kept directory proper rfl named link, .inr (by rw [link]; rfl)⟩
    · obtain ⟨x, s', hkeep, hx⟩ := ih hresult
      refine ⟨x, s', .followed directory proper (by simp) ?_ named link hkeep, hx⟩
      exact fun hall => hend ⟨hall.1, hall.2.2⟩
  | through directory proper _ named plain _ ih =>
    obtain ⟨x, s', hkeep, hx⟩ := ih hresult
    exact ⟨x, s', .through directory proper (by simp) named plain hkeep, hx⟩

/-- Names that go on lead to some object on the way, whatever is to be done at the end. -/
theorem Leads.split {result : Spot × Bool}
    (hleads : h.Leads atEnd links slashed current (names ++ rest) result) (hrest : rest ≠ []) :
    ∃ mid fewer, (∀ s, ∃ s', h.Leads .follow links s current names (.found mid, s')) ∧
      h.Leads atEnd fewer slashed mid rest result := by
  generalize hall : names ++ rest = all at hleads
  -- without names the way starts where the rest does, and any other name is the first of the walk
  induction hleads generalizing names with
  | done => exact absurd (List.append_eq_nil_iff.1 hall).2 hrest
  | here directory later ih =>
    rcases List.append_eq_cons_iff.1 hall with ⟨rfl, rfl⟩ | ⟨names, rfl, rfl⟩
    · exact ⟨_, _, fun s => ⟨s, .done⟩, .here directory later⟩
    · obtain ⟨mid, fewer, hmid, hend⟩ := ih rfl
      exact ⟨mid, fewer, fun s => (hmid s).imp fun _ => .here directory, hend⟩
  | above directory later ih =>
    rcases List.append_eq_cons_iff.1 hall with ⟨rfl, rfl⟩ | ⟨names, rfl, rfl⟩
    · exact ⟨_, _, fun s => ⟨s, .done⟩, .above directory later⟩
    · obtain ⟨mid, fewer, hmid, hend⟩ := ih rfl
      exact ⟨mid, fewer, fun s => (hmid s).imp fun _ => .above directory, hend⟩
  | vacant directory proper allowed unnamed =>
    rcases List.append_eq_cons_iff.1 hall with ⟨rfl, rfl⟩ | ⟨names, rfl, hnil⟩
    · exact ⟨_, 0, fun s => ⟨s, .done⟩, .vacant directory proper allowed unnamed⟩
    · exact absurd (List.append_eq_nil_iff.1 hnil.symm).2 hrest
  | kept directory proper keeps named link =>
    rcases List.append_eq_cons_iff.1 hall with ⟨rfl, rfl⟩ | ⟨names, rfl, hnil⟩
    · exact ⟨_, 0, fun s => ⟨s, .done⟩, .kept directory proper keeps named link⟩
    · exact absurd (List.append_eq_nil_iff.1 hnil.symm).2 hrest
  | followed directory proper allowed follows named link later ih =>
    rcases List.append_eq_cons_iff.1 hall with ⟨rfl, rfl⟩ | ⟨names, rfl, rfl⟩
    · exact ⟨_, _, fun s => ⟨s, .done⟩,
        .followed directory proper allowed follows named link later⟩
    · obtain ⟨mid, fewer, hmid, hend⟩ := ih (List.append_assoc _ names rest)
      rw [List.isEmpty_eq_false_iff.2 (List.append_ne_nil_of_right_ne_nil names hrest),
        Bool.false_and, Bool.or_false] at hend
      exact ⟨mid, fewer, fun s => ⟨_, .followed directory proper (by simp) (by simp) named link
        (hmid _).choose_spec⟩, hend⟩
  | through directory proper allowed named plain later ih =>
    rcases List.append_eq_cons_iff.1 hall with ⟨rfl, rfl⟩ | ⟨names, rfl, rfl⟩
    · exact ⟨_, _, fun s => ⟨s, .done⟩, .through directory proper allowed named plain later⟩
    · obtain ⟨mid, fewer, hmid, hend⟩ := ih rfl
      exact ⟨mid, fewer, fun s => (hmid s).imp fun _ =>
        .through directory proper (by simp) named plain, hend⟩

section Child

variable {parent : Path} {name : Name}

/-- If the path of an entry can be walked, so can the path above it, from where it starts. -/
theorem route_above (hname : name.isEntry = true) (hne : parent.bytes ≠ []) {r : Route}
    (hr : h.routeOf (parent.child name) = .ok r) :
    h.routeOf parent = .ok (h.route h.workingDirectory parent.bytes) ∧
      (h.route h.workingDirectory parent.bytes).start = r.start := by
  obtain ⟨rest, hrest⟩ := Path.prefix_child parent hname
  rw [routeOf_eq_ok hr]
  unfold routeOf at hr ⊢
  rw [← hrest] at hr ⊢
  constructor
  · split at hr
    · cases hr
    · split at hr
      · cases hr
      next hlength =>
        rw [List.length_append] at hlength
        rw [if_neg (by simpa using hne), if_neg (by omega)]
  · rw [route, route, List.head?_append_of_ne_nil _ hne]

/-- What is found at the path of an entry, with a link kept, has its name in the directory in which
the last step is made, and that is the directory to which the path above it leads. -/
theorem place_of_find (hname : name.isEntry = true) (hf : h.find .keep (parent.child name) = .ok id) :
    ∃ directory, h.place (parent.child name) = .ok ⟨directory, .entry name, false⟩ ∧
      (parent.bytes ≠ [] → h.find .follow parent = .ok directory) ∧
      h.entry? directory name = some id := by
  obtain ⟨_, hlocate⟩ := locate_of_find hf
  obtain ⟨hroute, hleads⟩ := locate_eq_ok_iff.1 hlocate
  have hstart := fun hne : parent.bytes ≠ [] => route_above hname hne hroute
  rw [route_of_child h _ parent hname, Path.names_child parent hname] at hleads
  obtain ⟨directory, _, hmid, hend⟩ := hleads.split (by simp)
  have hentry := hend.entry?_eq_some hname
  have hdirectory := isDirectory_of_entry hentry
  obtain ⟨s, hlast⟩ := hmid false
  refine ⟨directory, (place_child_eq_ok_iff hname).2 ⟨hroute, directory, s, hlast, hdirectory, rfl⟩,
    fun hne => ?_, hentry⟩
  obtain ⟨habove, hsame⟩ := hstart hne
  obtain ⟨s', hparent⟩ := hmid (h.route h.workingDirectory parent.bytes).endsInSlash
  have hfound : h.locate .follow parent = .ok (.found directory, s') :=
    locate_eq_ok_iff.2 ⟨habove, hsame ▸ hparent⟩
  exact bind_eq_ok.2 ⟨_, hfound, if_neg (by simp [hdirectory])⟩

end Child

/-- What a path leads to is also what it leads to with a link at its end kept, unless that is a link. -/
theorem find_keep_of_locate {path : Path} {opened : ObjectId} {s : Bool}
    (hl : h.locate atEnd path = .ok (.found opened, s)) (hf : h.find .keep path = .ok id) :
    id = opened ∨ (h.linkContent? id).isSome := by
  obtain ⟨_, hlocate⟩ := locate_of_find hf
  obtain ⟨x, _, hkeep, hx⟩ := (leads_of_locate hl).keep
  obtain ⟨hid, _⟩ := Prod.mk.inj ((leads_of_locate hlocate).unique hkeep)
  exact Spot.found.inj hid ▸ hx

section Add

variable {d x : ObjectId} {name name' : Name} {node : Node} {permissions : UInt16}

theorem findEntry_of_eq_ok {found : Option ObjectId} (hf : h.findEntry d name = .ok found)
    (h' : Host) : h'.findEntry d name = .ok (h'.entry? d name) := by
  unfold findEntry at hf ⊢
  split at hf
  · cases hf
  next hlength => rw [if_neg hlength]

theorem linkContent?_add_file (content : Content) :
    (h.add d name (.file content) permissions).2.linkContent? h.nextObject = none := by
  change ((h.make (.file content) permissions).2.attach d name h.nextObject).linkContent? _ = _
  rw [linkContent?_of_redirect (node?_attach _), linkContent?, node?_make, if_pos rfl]

variable (ht : h.IsTree)

include ht

theorem isDirectory_add (hx : (h.object? x).isSome) :
    (h.add d name node permissions).2.isDirectory x = h.isDirectory x :=
  isDirectory_attach.trans (isDirectory_make_of_exists ht hx)

theorem parent_add (hx : (h.object? x).isSome) :
    (h.add d name node permissions).2.parent x = h.parent x := by
  have hne : x ≠ h.nextObject := Nat.ne_of_lt (ht.exists_below hx)
  change ((h.make node permissions).2.attach d name h.nextObject).parent x = _
  rw [parent_attach, if_neg fun hat => hne hat.2, parent, node?_make_of_exists ht permissions hx]
  rfl

theorem entry?_add_file (content : Content) (hd : h.isDirectory d = true) (d' : ObjectId) :
    entry? (h.add d name (.file content) permissions).2 d' name' =
      if d' = d ∧ name' = name then some h.nextObject else h.entry? d' name' := by
  have hmade : (h.make (.file content) permissions).2.isDirectory d = true :=
    (isDirectory_make_of_exists ht (exists_of_isDirectory hd)).trans hd
  change entry? ((h.make (.file content) permissions).2.attach d name h.nextObject) d' name' = _
  rw [entry?_attach hmade, entry?_make ht permissions (by simp)]

/-- Names that lead to a name that is not there lead to the file that is then made there. -/
theorem Leads.add_file (content : Content) (permissions : UInt16) {s : Bool}
    (hcurrent : (h.object? current).isSome) (hv : h.Vacant d name)
    (hleads : h.Leads .create links slashed current names (.vacant d name, s)) :
    (h.add d name (.file content) permissions).2.Leads .create links slashed current names
      (.found h.nextObject, s) := by
  obtain ⟨hd, hfree, hname⟩ := hv
  have hgrows : h.Grows (h.add d name (.file content) permissions).2 :=
    grows_add ht permissions hd hfree hname (by simp)
  have hnamed : ∀ {d' name' y}, h.findEntry d' name' = .ok (some y) →
      (h.add d name (.file content) permissions).2.findEntry d' name' = .ok (some y) := by
    intro d' name' y hf
    rw [findEntry_of_eq_ok hf, hgrows.kept (findEntry_eq_ok hf)]
  generalize hresult : ((.vacant d name, s) : Spot × Bool) = result at hleads
  induction hleads with
  | done | kept => cases hresult
  | here directory _ ih =>
    exact .here ((isDirectory_add ht hcurrent).trans directory) (ih hcurrent hresult)
  | above directory _ ih =>
    refine .above ((isDirectory_add ht hcurrent).trans directory) ?_
    rw [parent_add ht hcurrent]
    exact ih (ht.parent_exists hcurrent) hresult
  | vacant directory proper allowed unnamed =>
    cases hresult
    refine .through ((isDirectory_add ht hcurrent).trans directory) proper (by simpa using allowed) ?_
      (linkContent?_add_file content) .done
    rw [findEntry_of_eq_ok unnamed, entry?_add_file ht content hd, if_pos ⟨rfl, rfl⟩]
  | followed directory proper allowed follows named link _ ih =>
    refine .followed ((isDirectory_add ht hcurrent).trans directory) proper allowed follows
      (hnamed named) ((hgrows.link_kept (ht.named_exists (findEntry_eq_ok named))).trans link) ?_
    exact ih (ht.route_start_exists hcurrent _) hresult
  | through directory proper allowed named plain _ ih =>
    have hexists := ht.named_exists (findEntry_eq_ok named)
    exact .through ((isDirectory_add ht hcurrent).trans directory) proper allowed (hnamed named)
      ((hgrows.link_kept hexists).trans plain) (ih hexists hresult)

end Add

theorem linkContent?_isSome_iff {o : Object} (ho : h.object? id = some o) :
    (h.linkContent? id).isSome ↔ o.node.kind = .symlink := by
  rw [linkContent?, node?, ho]
  cases hn : o.node <;> simp [hn, Node.kind]

theorem linkContent?_of_checkOpen (hc : h.checkOpen id true = .ok ()) : h.linkContent? id = none := by
  unfold checkOpen at hc
  unfold linkContent?
  split at hc
  · cases hc
  · cases hc
  · cases hc
  next hlink _ =>
    split
    next hn => exact absurd hn (hlink _)
    · rfl

section Opened

variable {path parent : Path} {name : Name} {mode : UInt32} {opened described : ObjectId} {h' : Host}
  {o : Object}

/-- What is opened or made at a path is what the path then leads to, all links followed, and is no
link. -/
theorem locate_of_openOrCreate (ht : h.IsTree) (ho : h.openOrCreate path mode = .ok (opened, h')) :
    (∃ s, h'.locate .create path = .ok (.found opened, s)) ∧ h'.linkContent? opened = none := by
  obtain ⟨s, hl, hcheck, rfl⟩ | ⟨d, name, s, hl, rfl, rfl⟩ := openOrCreate_cases ho
  · exact ⟨⟨s, hl⟩, linkContent?_of_checkOpen hcheck⟩
  · obtain ⟨hroute, hleads⟩ := locate_eq_ok_iff.1 hl
    have hmade := hleads.add_file ht .empty (h.permitted 0o7777 mode)
      (ht.route_start_exists ht.working_exists path.bytes) (vacant_of_locate hl)
    exact ⟨⟨s, locate_eq_ok_iff.2 ⟨hroute, hmade⟩⟩, linkContent?_add_file .empty⟩

/-- What is opened and what is described are one object unless the latter is a link. -/
theorem opened_eq_described_iff (ht : h.IsTree) (ho : h.openOrCreate path mode = .ok (opened, h'))
    (hl : h'.lookup path = .ok (described, o)) :
    opened = described ↔ o.node.kind ≠ .symlink := by
  obtain ⟨⟨s, hlocate⟩, hplain⟩ := locate_of_openOrCreate ht ho
  obtain ⟨hfind, hobject⟩ := lookup_eq_ok_iff.1 hl
  rw [Ne, ← linkContent?_isSome_iff hobject]
  constructor
  · rintro rfl
    simp [hplain]
  · exact fun hlink => ((find_keep_of_locate hlocate hfind).resolve_right hlink).symm

/-- If the entry at a path is opened or made, then it lies in the directory of the path, and nothing
else is made. -/
theorem opened_in_directory (ht : h.IsTree) (hname : name.isEntry = true)
    (ho : h.openOrCreate (parent.child name) mode = .ok (opened, h'))
    (hl : h'.lookup (parent.child name) = .ok (described, o)) :
    ∃ directory, h'.place (parent.child name) = .ok ⟨directory, .entry name, false⟩ ∧
      (parent.bytes ≠ [] → h'.find .follow parent = .ok directory) ∧
      h'.entry? directory name = some described ∧
      (opened = described → h' = h ∨
        h' = (h.add directory name (.file .empty) (h.permitted 0o7777 mode)).2) := by
  obtain ⟨directory, hplace, habove, hentry⟩ := place_of_find hname (find_of_lookup hl)
  refine ⟨directory, hplace, habove, hentry, ?_⟩
  rintro rfl
  obtain ⟨_, _, _, hkept⟩ | ⟨d, name', _, hvacant, hnew, hmade⟩ := openOrCreate_cases ho
  · exact .inl hkept
  · rw [hmade, entry?_add_file ht .empty (vacant_of_locate hvacant).1] at hentry
    split at hentry
    next hat =>
      obtain ⟨rfl, rfl⟩ := hat
      exact .inr hmade
    next =>
      -- the new object had no name before
      exact absurd (hnew ▸ ht.exists_below (ht.named_exists hentry)) (Nat.lt_irrefl _)

end Opened

end InodeBridge.Host
