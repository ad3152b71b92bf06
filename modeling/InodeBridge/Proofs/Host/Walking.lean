import InodeBridge.Host.Entries
import InodeBridge.Proofs.Host.Tree
import InodeBridge.Proofs.Path.Steps

/-! # Where the walk along a path ends

Where names lead is a relation that follows the walk along them name by name, and link by link.  A path
from the root on that names an object without links on the way leads to that object, however it is
spelled.  So an entry of such a directory is found in that directory, and a name that is vacant at the
end of a walk can be given to a new entry.
-/
namespace InodeBridge

theorem bind_eq_ok {ε α β : Type} {x : Except ε α} {f : α → Except ε β} {b : β} :
    (x >>= f) = .ok b ↔ ∃ a, x = .ok a ∧ f a = .ok b := by
  cases x <;> simp [bind, Except.bind]

namespace Host

/-- How a walk goes on at a link after which so many more may be followed. -/
def goOn (h : Host) (lookUp : LookUp) (atEnd : PathEnd) : Nat → Follow
  | 0 => fun _ _ _ _ => .error Errno.linkLoop
  | links + 1 => fun directory content rest endsInSlash =>
    let r := h.route directory content
    h.walk lookUp atEnd links (endsInSlash || (rest.isEmpty && r.endsInSlash)) r.start
      (r.names ++ rest)

theorem walk_eq (h : Host) (lookUp : LookUp) (atEnd : PathEnd) (links : Nat) (endsInSlash : Bool) :
    h.walk lookUp atEnd links endsInSlash =
      h.walkWith lookUp (h.goOn lookUp atEnd links) atEnd endsInSlash := by
  cases links <;> rfl

/-- A name that is no reference to a directory. -/
def IsProper (name : Name) : Prop := name ≠ Name.here ∧ name ≠ Name.above

/-- Where some names lead, step by step, with at most so many links followed. -/
inductive Leads (h : Host) (atEnd : PathEnd) :
    Nat → Bool → ObjectId → List Name → Spot × Bool → Prop
  | done {links : Nat} {slashed : Bool} {current : ObjectId} :
    Leads h atEnd links slashed current [] (.found current, slashed)
  | here {links : Nat} {slashed : Bool} {current : ObjectId} {rest : List Name}
    {result : Spot × Bool} (directory : h.isDirectory current = true)
    (later : Leads h atEnd links slashed current rest result) :
    Leads h atEnd links slashed current (Name.here :: rest) result
  | above {links : Nat} {slashed : Bool} {current : ObjectId} {rest : List Name}
    {result : Spot × Bool} (directory : h.isDirectory current = true)
    (later : Leads h atEnd links slashed (h.parent current) rest result) :
    Leads h atEnd links slashed current (Name.above :: rest) result
  /-- The last name is not there. -/
  | vacant {links : Nat} {slashed : Bool} {current : ObjectId} {name : Name}
    (directory : h.isDirectory current = true) (proper : IsProper name)
    (allowed : ¬ (atEnd = .create ∧ slashed = true))
    (unnamed : h.findEntry current name = .ok none) :
    Leads h atEnd links slashed current [name] (.vacant current name, slashed)
  /-- The last name is that of a link, which is kept. -/
  | kept {links : Nat} {current : ObjectId} {name : Name} {id : ObjectId} {content : Bytes}
    (directory : h.isDirectory current = true) (proper : IsProper name)
    (keeps : atEnd = .keep) (named : h.findEntry current name = .ok (some id))
    (link : h.linkContent? id = some content) :
    Leads h atEnd links false current [name] (.found id, false)
  | followed {links : Nat} {slashed : Bool} {current : ObjectId} {name : Name} {rest : List Name}
    {id : ObjectId} {content : Bytes} {result : Spot × Bool}
    (directory : h.isDirectory current = true) (proper : IsProper name)
    (allowed : ¬ (rest = [] ∧ atEnd = .create ∧ slashed = true))
    (follows : ¬ (rest = [] ∧ atEnd = .keep ∧ slashed = false))
    (named : h.findEntry current name = .ok (some id)) (link : h.linkContent? id = some content)
    (later : Leads h atEnd links
      (slashed || (rest.isEmpty && (h.route current content).endsInSlash))
      (h.route current content).start ((h.route current content).names ++ rest) result) :
    Leads h atEnd (links + 1) slashed current (name :: rest) result
  | through {links : Nat} {slashed : Bool} {current : ObjectId} {name : Name} {rest : List Name}
    {id : ObjectId} {result : Spot × Bool} (directory : h.isDirectory current = true)
    (proper : IsProper name) (allowed : ¬ (rest = [] ∧ atEnd = .create ∧ slashed = true))
    (named : h.findEntry current name = .ok (some id)) (plain : h.linkContent? id = none)
    (later : Leads h atEnd links slashed id rest result) :
    Leads h atEnd links slashed current (name :: rest) result

variable {h : Host} {current id : ObjectId} {names rest : List Name} {steps : Location}
  {atEnd : PathEnd} {links : Nat} {slashed : Bool} {result : Spot × Bool}

theorem leads_of_walkWith
    (hgo : ∀ d content rest slashed result,
      h.goOn h.findEntry atEnd links d content rest slashed = .ok result →
      ∃ fewer, links = fewer + 1 ∧ h.Leads atEnd fewer
        (slashed || (rest.isEmpty && (h.route d content).endsInSlash)) (h.route d content).start
        ((h.route d content).names ++ rest) result)
    (hwalk : h.walkWith h.findEntry (h.goOn h.findEntry atEnd links) atEnd slashed current names =
      .ok result) : h.Leads atEnd links slashed current names result := by
  induction names generalizing current with
  | nil =>
    rw [walkWith] at hwalk
    obtain rfl := Except.ok.inj hwalk
    exact .done
  | cons name rest ih =>
    rw [walkWith] at hwalk
    split at hwalk
    · cases hwalk
    next hd =>
    have hdirectory : h.isDirectory current = true := by simpa using hd
    split at hwalk
    next hhere =>
      subst hhere
      exact .here hdirectory (ih hwalk)
    next hhere =>
    split at hwalk
    next habove =>
      subst habove
      exact .above hdirectory (ih hwalk)
    next habove =>
    have hproper : IsProper name := ⟨hhere, habove⟩
    split at hwalk
    · cases hwalk
    next hcreate =>
    have hallowed : ¬ (rest = [] ∧ atEnd = .create ∧ slashed = true) := by simpa using hcreate
    split at hwalk
    · cases hwalk
    next hfind =>
      split at hwalk
      next hnil =>
        obtain rfl := List.isEmpty_iff.1 hnil
        obtain rfl := Except.ok.inj hwalk
        exact .vacant hdirectory hproper (by simpa using hallowed) hfind
      · cases hwalk
    next id hfind =>
      split at hwalk
      next content hlink =>
        split at hwalk
        next hkeep =>
          obtain ⟨⟨rfl, rfl⟩, rfl⟩ : (rest = [] ∧ atEnd = .keep) ∧ slashed = false := by
            simpa using hkeep
          obtain rfl := Except.ok.inj hwalk
          exact .kept hdirectory hproper rfl hfind hlink
        next hkeep =>
          obtain ⟨fewer, rfl, hlater⟩ := hgo _ _ _ _ _ hwalk
          exact .followed hdirectory hproper hallowed (by simpa using hkeep) hfind hlink hlater
      next hlink => exact .through hdirectory hproper hallowed hfind hlink (ih hwalk)

theorem leads_of_walk
    (hwalk : h.walk h.findEntry atEnd links slashed current names = .ok result) :
    h.Leads atEnd links slashed current names result := by
  induction links generalizing slashed current names result with
  | zero =>
    rw [walk_eq] at hwalk
    exact leads_of_walkWith (fun _ _ _ _ _ hgo => by cases hgo) hwalk
  | succ links ih =>
    rw [walk_eq] at hwalk
    exact leads_of_walkWith (fun _ _ _ _ _ hgo => ⟨links, rfl, ih hgo⟩) hwalk

/-- A walk along a name that is no reference to a directory looks the name up. -/
theorem walk_cons_of_proper {name : Name} {rest : List Name}
    (hd : h.isDirectory current = true) (hproper : IsProper name)
    (hallowed : ¬ (rest = [] ∧ atEnd = .create ∧ slashed = true)) :
    h.walk h.findEntry atEnd links slashed current (name :: rest) =
      match h.findEntry current name with
      | .error e => .error e
      | .ok none =>
        if rest.isEmpty then .ok (.vacant current name, slashed) else .error Errno.noEntry
      | .ok (some id) =>
        match h.linkContent? id with
        | some content =>
          if rest.isEmpty && atEnd = .keep && !slashed then .ok (.found id, slashed)
          else h.goOn h.findEntry atEnd links current content rest slashed
        | none => h.walk h.findEntry atEnd links slashed id rest := by
  rw [walk_eq, walkWith, if_neg (by simpa using hd), if_neg hproper.1, if_neg hproper.2]
  exact if_neg (by simpa using hallowed)

theorem Leads.walk (hleads : h.Leads atEnd links slashed current names result) :
    h.walk h.findEntry atEnd links slashed current names = .ok result := by
  induction hleads with
  | done => rw [walk_eq, walkWith]
  | here directory _ ih =>
    rw [walk_eq] at ih ⊢
    rw [walkWith, if_neg (by simpa using directory), if_pos rfl, ih]
  | above directory _ ih =>
    rw [walk_eq] at ih ⊢
    rw [walkWith, if_neg (by simpa using directory), if_neg (by decide), if_pos rfl, ih]
  | vacant directory proper allowed unnamed =>
    rw [walk_cons_of_proper directory proper (by simpa using allowed), unnamed]
    rfl
  | kept directory proper keeps named link =>
    rw [walk_cons_of_proper directory proper (by simp), named]
    simp only [link]
    rw [if_pos (by simpa using keeps)]
  | followed directory proper allowed follows named link _ ih =>
    rw [walk_cons_of_proper directory proper allowed, named]
    simp only [link]
    rw [if_neg (by simpa using follows)]
    exact ih
  | through directory proper allowed named plain _ ih =>
    rw [walk_cons_of_proper directory proper allowed, named]
    simp only [plain]
    exact ih

theorem walk_eq_ok_iff : h.walk h.findEntry atEnd links slashed current names = .ok result ↔
    h.Leads atEnd links slashed current names result :=
  ⟨leads_of_walk, Leads.walk⟩

theorem linkContent?_of_isDirectory (hd : h.isDirectory id = true) : h.linkContent? id = none := by
  rw [isDirectory, entries?] at hd
  rw [linkContent?]
  split at hd
  next hn => rw [hn]
  · simp at hd

theorem linkContent?_of_below? (hs : h.below? current steps = some id)
    (hlink : h.linkContent? id = none) : h.linkContent? current = none := by
  cases steps with
  | nil =>
    obtain rfl : current = id := Option.some.inj hs
    exact hlink
  | cons c steps =>
    rw [below?_cons] at hs
    obtain ⟨mid, hmid, _⟩ := Option.bind_eq_some_iff.1 hs
    obtain ⟨name, _, he⟩ := step?_eq_some hmid
    exact linkContent?_of_isDirectory (isDirectory_of_entry he)

theorem findEntry_eq_ok {d : ObjectId} {name : Name} {found : Option ObjectId}
    (hf : h.findEntry d name = .ok found) : h.entry? d name = found := by
  unfold findEntry at hf
  split at hf
  · simp at hf
  · exact Except.ok.inj hf

theorem IsProper.stepOf {name : Name} (h : IsProper name) (hne : name ≠ []) :
    Path.stepOf name = some (.entry name) := by
  have hblank : Path.isBlank name = false := by simp [Path.isBlank, hne, h.1]
  rw [Path.stepOf, hblank, if_neg Bool.false_ne_true, if_neg h.2]

/-- Names that lead through all objects on the way without links lead on from the last one. -/
theorem Leads.past_below (hleads : h.Leads atEnd links slashed current (names ++ rest) result)
    (hs : h.below? current (names.filterMap Path.stepOf) = some id) (hne : ∀ name ∈ names, name ≠ [])
    (hlink : h.linkContent? id = none) : h.Leads atEnd links slashed id rest result := by
  induction names generalizing current with
  | nil =>
    obtain rfl : current = id := Option.some.inj hs
    exact hleads
  | cons name names ih =>
    have hrest : ∀ name ∈ names, name ≠ [] := fun n hn => hne n (List.mem_cons_of_mem _ hn)
    have hstep : ∀ {found}, IsProper name → h.findEntry current name = .ok found →
        ∃ mid, found = some mid ∧ h.linkContent? mid = none ∧
          h.below? mid (names.filterMap Path.stepOf) = some id := by
      intro found hproper hfind
      rw [List.filterMap_cons_some (hproper.stepOf (hne name (by simp))), below?_cons] at hs
      obtain ⟨mid, hmid, hbelow⟩ := Option.bind_eq_some_iff.1 hs
      rw [step?, findEntry_eq_ok hfind] at hmid
      exact ⟨mid, hmid, linkContent?_of_below? hbelow hlink, hbelow⟩
    rw [List.cons_append] at hleads
    generalize hrests : names ++ rest = tail at hleads
    cases hleads with
    | here _ later =>
      subst hrests
      exact ih later hs hrest
    | above =>
      have habove : Path.stepOf Name.above = some .above := rfl
      rw [List.filterMap_cons_some habove, below?_cons] at hs
      cases hs
    | vacant _ proper _ unnamed =>
      obtain ⟨_, hnone, _⟩ := hstep proper unnamed
      cases hnone
    | kept _ proper _ named link | followed _ proper _ _ named link =>
      obtain ⟨_, hsome, hplain, _⟩ := hstep proper named
      cases hsome
      rw [hplain] at link
      cases link
    | through _ proper _ named _ later =>
      obtain ⟨_, hsome, _, hbelow⟩ := hstep proper named
      cases hsome
      subst hrests
      exact ih later hbelow hrest

theorem routeOf_eq_ok {path : Path} {r : Route} (hr : h.routeOf path = .ok r) :
    r = h.route h.workingDirectory path.bytes := by
  unfold routeOf at hr
  split at hr
  · simp at hr
  · split at hr
    · simp at hr
    · exact (Except.ok.inj hr).symm

theorem locate_eq_ok_iff {path : Path} : h.locate atEnd path = .ok result ↔
    h.routeOf path = .ok (h.route h.workingDirectory path.bytes) ∧
      h.Leads atEnd linkMax (h.route h.workingDirectory path.bytes).endsInSlash
        (h.route h.workingDirectory path.bytes).start path.names result := by
  rw [locate, bind_eq_ok]
  constructor
  · rintro ⟨r, hr, hwalk⟩
    obtain rfl := routeOf_eq_ok hr
    exact ⟨hr, walk_eq_ok_iff.1 hwalk⟩
  · rintro ⟨hr, hleads⟩
    exact ⟨_, hr, walk_eq_ok_iff.2 hleads⟩

theorem leads_of_locate {path : Path} (hl : h.locate atEnd path = .ok result) :
    h.Leads atEnd linkMax (h.route h.workingDirectory path.bytes).endsInSlash
      (h.route h.workingDirectory path.bytes).start path.names result :=
  (locate_eq_ok_iff.1 hl).2

theorem locate_of_find {path : Path} {found : ObjectId} (hf : h.find atEnd path = .ok found) :
    ∃ slashed, h.locate atEnd path = .ok (.found found, slashed) := by
  obtain ⟨⟨spot, slashed⟩, hlocate, hf⟩ := bind_eq_ok.1 hf
  cases spot with
  | vacant => simp at hf
  | found x =>
    dsimp only at hf
    split at hf
    · simp at hf
    · obtain rfl := Except.ok.inj hf
      exact ⟨slashed, hlocate⟩

section Child

variable {path : Path} {name : Name}

theorem route_of_child (h : Host) (directory : ObjectId) (path : Path) (hname : name.isEntry = true) :
    h.route directory (path.child name).bytes =
      ⟨(h.route directory (path.child name).bytes).start, path.names ++ [name], false⟩ := by
  have hnames : ((path.child name).bytes.splitOn slash).filter (fun n => !n.isEmpty) =
      path.names ++ [name] := Path.names_child path hname
  rw [route, hnames, decide_eq_false (Path.getLast?_child path hname)]

theorem route_child (hobject : h.objectAt? path = some id) (hname : name.isEntry = true) :
    h.below? h.root (path.names.filterMap Path.stepOf) = some id ∧
      h.route h.workingDirectory (path.child name).bytes = ⟨h.root, path.names ++ [name], false⟩ := by
  obtain ⟨steps, hcomponents⟩ := components_of_objectAt? hobject
  have hsteps := (Path.names_of_components hcomponents).2
  have hchild : (path.child name).components = .root :: (steps ++ [.entry name]) := by
    rw [Path.components_child path hname, hcomponents]
    rfl
  constructor
  · rw [objectAt?, hcomponents] at hobject
    rw [hsteps]
    exact hobject
  · rw [route_of_child h _ path hname, route, if_pos (Path.names_of_components hchild).1]

/-- The last step to an entry is made in the directory to which the names above it lead. -/
theorem place_child_eq_ok_iff (hname : name.isEntry = true) {p : Place} :
    h.place (path.child name) = .ok p ↔
      h.routeOf (path.child name) = .ok (h.route h.workingDirectory (path.child name).bytes) ∧
        ∃ d s, h.Leads .follow linkMax false (h.route h.workingDirectory (path.child name).bytes).start
          path.names (.found d, s) ∧ h.isDirectory d = true ∧ p = ⟨d, .entry name, false⟩ := by
  rw [place, bind_eq_ok]
  constructor
  · rintro ⟨r, hr, hp⟩
    obtain rfl := routeOf_eq_ok hr
    refine ⟨hr, ?_⟩
    rw [route_of_child h _ path hname] at hp
    simp only [List.getLast?_concat, List.dropLast_concat] at hp
    obtain ⟨⟨spot, s⟩, hwalk, hp⟩ := bind_eq_ok.1 hp
    cases spot with
    | vacant => cases hp
    | found d =>
      dsimp only at hp
      split at hp
      · cases hp
      next hd =>
        rw [if_neg (Path.ne_here_of_isEntry hname), if_neg (Path.ne_above_of_isEntry hname)] at hp
        exact ⟨d, s, walk_eq_ok_iff.1 hwalk, by simpa using hd, (Except.ok.inj hp).symm⟩
  · rintro ⟨hr, d, s, hleads, hd, rfl⟩
    refine ⟨_, hr, ?_⟩
    rw [route_of_child h _ path hname]
    simp only [List.getLast?_concat, List.dropLast_concat]
    rw [walk_eq_ok_iff.2 hleads]
    change (if _ then _ else _) = _
    rw [if_neg (by simp [hd]), if_neg (Path.ne_here_of_isEntry hname),
      if_neg (Path.ne_above_of_isEntry hname)]

/-- The last step to an entry of a directory at a path without links is made in that directory. -/
theorem place_child (hobject : h.objectAt? path = some id) (hlink : h.linkContent? id = none)
    (hname : name.isEntry = true) {p : Place} (hp : h.place (path.child name) = .ok p) :
    h.isDirectory id = true ∧ p = ⟨id, .entry name, false⟩ := by
  obtain ⟨hbelow, hroute⟩ := route_child hobject hname
  obtain ⟨_, d, s, hleads, hd, rfl⟩ := (place_child_eq_ok_iff hname).1 hp
  rw [hroute, ← List.append_nil path.names] at hleads
  cases hleads.past_below hbelow (fun n hn => (Path.mem_names hn).1) hlink
  exact ⟨hd, rfl⟩

/-- A last name that leads somewhere, with a link kept, is that of an entry, which may be one. -/
theorem Leads.entry?_eq_some (hname : name.isEntry = true) {found : ObjectId}
    (hleads : h.Leads .keep links false id [name] (.found found, slashed)) :
    h.entry? id name = some found := by
  cases hleads with
  | here | above => simp [Name.isEntry] at hname
  | kept _ _ _ named => exact findEntry_eq_ok named
  | followed _ _ _ follows => exact absurd ⟨rfl, rfl, rfl⟩ follows
  | through _ _ _ named _ later =>
    cases later
    exact findEntry_eq_ok named

/-- An entry of a directory at a path without links is found in that directory. -/
theorem find_child (hobject : h.objectAt? path = some id) (hlink : h.linkContent? id = none)
    (hname : name.isEntry = true) {found : ObjectId}
    (hf : h.find .keep (path.child name) = .ok found) : h.entry? id name = some found := by
  obtain ⟨slashed, hlocate⟩ := locate_of_find hf
  obtain ⟨hbelow, hroute⟩ := route_child hobject hname
  have hleads := leads_of_locate hlocate
  rw [hroute, Path.names_child path hname] at hleads
  exact (hleads.past_below hbelow (fun n hn => (Path.mem_names hn).1) hlink).entry?_eq_some hname

end Child

section Found

theorem IsTree.route_start_exists (ht : h.IsTree) {directory : ObjectId}
    (hd : (h.object? directory).isSome) (path : Bytes) :
    (h.object? (h.route directory path).start).isSome := by
  rw [route]
  split
  · exact ht.root_exists
  · exact hd

theorem Leads.exists_found (hleads : h.Leads atEnd links slashed current names result)
    (ht : h.IsTree) (hcurrent : (h.object? current).isSome) {found : ObjectId}
    (hfound : result.1 = .found found) : (h.object? found).isSome := by
  induction hleads with
  | done =>
    cases hfound
    exact hcurrent
  | here _ _ ih => exact ih hcurrent hfound
  | above _ _ ih => exact ih (ht.parent_exists hcurrent) hfound
  | vacant => cases hfound
  | kept _ _ _ named =>
    cases hfound
    exact ht.named_exists (findEntry_eq_ok named)
  | followed _ _ _ _ _ _ _ ih => exact ih (ht.route_start_exists hcurrent _) hfound
  | through _ _ _ named _ _ ih => exact ih (ht.named_exists (findEntry_eq_ok named)) hfound

theorem exists_of_find (ht : h.IsTree) {path : Path} {found : ObjectId}
    (hf : h.find atEnd path = .ok found) : (h.object? found).isSome := by
  obtain ⟨slashed, hlocate⟩ := locate_of_find hf
  exact (leads_of_locate hlocate).exists_found ht (ht.route_start_exists ht.working_exists _) rfl

end Found

section Vacant

variable {d : ObjectId} {name : Name}

theorem IsProper.isEntry {name : Name} (h : IsProper name) (hne : name ≠ []) (hslash : slash ∉ name) :
    name.isEntry = true := by
  simp [Name.isEntry, hne, hslash, h.1, h.2]

/-- A name can be given to a new entry of a directory. -/
def Vacant (h : Host) (d : ObjectId) (name : Name) : Prop :=
  h.isDirectory d = true ∧ h.entry? d name = none ∧ name.isEntry = true

/-- Names that lead to a name that is not there lead to a directory that can have it. -/
theorem Leads.vacant_of_result (hleads : h.Leads atEnd links slashed current names result)
    (hnames : ∀ name ∈ names, name ≠ [] ∧ slash ∉ name) (hvacant : result.1 = .vacant d name) :
    h.Vacant d name := by
  induction hleads with
  | done | kept => cases hvacant
  | here _ _ ih | above _ _ ih | through _ _ _ _ _ _ ih =>
    exact ih (fun n hn => hnames n (List.mem_cons_of_mem _ hn)) hvacant
  | vacant directory proper _ unnamed =>
    cases hvacant
    obtain ⟨hne, hslash⟩ := hnames _ (List.mem_singleton_self _)
    exact ⟨directory, findEntry_eq_ok unnamed, proper.isEntry hne hslash⟩
  | @followed _ _ _ _ _ _ content _ _ _ _ _ _ _ _ ih =>
    refine ih (fun n hn => ?_) hvacant
    rcases List.mem_append.1 hn with hn | hn
    · exact Path.mem_names (show n ∈ Path.names ⟨content⟩ from hn)
    · exact hnames n (List.mem_cons_of_mem _ hn)

theorem vacant_of_locate {path : Path} {s : Bool}
    (hl : h.locate atEnd path = .ok (.vacant d name, s)) : h.Vacant d name :=
  (leads_of_locate hl).vacant_of_result (fun _ hn => Path.mem_names hn) rfl

/-- The last step of a path is made in a directory, and can lead to an entry. -/
theorem place_entry {path : Path} {p : Place} (hp : h.place path = .ok p)
    (hlast : p.last = .entry name) : h.isDirectory p.directory = true ∧ name.isEntry = true := by
  obtain ⟨r, hr, hp⟩ := bind_eq_ok.1 hp
  split at hp
  · obtain rfl := Except.ok.inj hp
    simp at hlast
  next step hstep =>
    obtain ⟨⟨spot, slashed⟩, _, hp⟩ := bind_eq_ok.1 hp
    have hmem : step ∈ path.names := by
      rw [routeOf_eq_ok hr] at hstep
      exact List.mem_of_getLast? hstep
    obtain ⟨hne, hslash⟩ := Path.mem_names hmem
    cases spot with
    | vacant => simp at hp
    | found d =>
      dsimp only at hp
      split at hp
      · simp at hp
      next hd =>
        obtain rfl := Except.ok.inj hp
        dsimp only at hlast ⊢
        split at hlast
        · simp at hlast
        next hhere =>
        split at hlast
        · simp at hlast
        next habove =>
        obtain rfl := LastStep.entry.inj hlast
        exact ⟨by simpa using hd, IsProper.isEntry ⟨hhere, habove⟩ hne hslash⟩

theorem vacant_of_vacancy {path : Path} {forDirectory : Bool}
    (hv : h.vacancy path forDirectory = .ok (d, name)) : h.Vacant d name := by
  obtain ⟨p, hp, hv⟩ := bind_eq_ok.1 hv
  split at hv
  next step hstep =>
    obtain ⟨found, hfind, hv⟩ := bind_eq_ok.1 hv
    cases found with
    | some id => simp at hv
    | none =>
      rw [Option.isSome_none, if_neg Bool.false_ne_true] at hv
      split at hv
      · simp at hv
      · obtain ⟨rfl, rfl⟩ := Prod.mk.inj (Except.ok.inj hv)
        obtain ⟨hd, hname⟩ := place_entry hp hstep
        exact ⟨hd, findEntry_eq_ok hfind, hname⟩
  · simp at hv

end Vacant

end Host
end InodeBridge
