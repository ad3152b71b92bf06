import InodeBridge.HostStorage
import InodeBridge.Proofs.Dispatcher.ObjectStability
import InodeBridge.Proofs.Dispatcher.Records

/-! # Enumerating a directory call by call

An enumeration lists a directory from the offset zero, and then again and again from the last offset
that it received, until nothing comes back.  While the names of the directory and which of them can be
described stay as they are, it gives every record once and in order, whatever the budgets of the calls;
each call gives as many of the records left as its budget takes.
-/
namespace InodeBridge

open Storage (Call Event)

def Request.dropsPaths : Request → Bool
  | .forget .. | .batchForget _ | .unlink .. | .rmdir .. | .rename .. => true
  | _ => false

namespace Dispatcher

section Keeping

variable {d : Dispatcher} {req : Request} {events : List Event} {out : Option Outcome}
  {table : InodeTable} {inode : Inode} {path : Path}

theorem Effect.binds (h : Effect d req events out table) (hkeeps : req.dropsPaths = false) :
    d.inodes.Binds table fun _ => True := by
  cases h with
  | quiet => exact .refl d.inodes _
  | handed => exact InodeTable.binds_insert 1 trivial
  | listed =>
    apply (binds_bindingAbove _ _ trivial).trans
    exact binds_bindingAll _ fun _ _ => trivial
  | forgot =>
    have hforgotten : req.forgotten = [] := by
      cases req with
      | forget | batchForget => simp [Request.dropsPaths] at hkeeps
      | _ => rfl
    rw [hforgotten]
    exact .refl d.inodes _
  | unlinked | rmdired | moved | rebound => simp [Request.dropsPaths] at hkeeps

variable {σ : Type} (s : Storage σ) (state : σ)

theorem resolve?_serveOver (hkeeps : req.dropsPaths = false)
    (hbound : d.inodes.resolve? inode = some path) :
    (serveOver s d state req).1.after.inodes.resolve? inode = some path :=
  ((serve_effect (serveOver_possible s d state req)).2.binds hkeeps).kept hbound

theorem resolve?_stateAfter {requests : List Request}
    (hkeeps : ∀ req ∈ requests, req.dropsPaths = false)
    (hbound : d.inodes.resolve? inode = some path) :
    (stateAfter s d state requests).1.inodes.resolve? inode = some path := by
  induction requests generalizing d state with
  | nil => exact hbound
  | cons req requests ih =>
    obtain ⟨hfirst, hrest⟩ := List.forall_mem_cons.1 hkeeps
    exact ih _ hrest (resolve?_serveOver s state hfirst hbound)

end Keeping

/-- What a listing told: names, each with the offset from which to go on after it. -/
def Service.listed (r : Service) : List (Name × Int64) :=
  match r.outcome with
  | some (.directory buffer) => buffer.entries.map lineOf
  | _ => []

/-- The listings of an enumeration from an offset on, over a storage: for each call the requests
served before it and its budget are given.  Each call goes on from the last offset received, and there
is none after one that gave nothing. -/
def enumerate {σ : Type} (s : Storage σ) (inode : Inode) (handle : Handle) :
    Dispatcher → σ → Int64 → List (List Request × Nat) → List Service
  | _, _, _, [] => []
  | d, state, offset, (between, budget) :: plan =>
    let reached := stateAfter s d state between
    let served := serveOver s reached.1 reached.2 (.readdir inode handle offset budget)
    served.1 :: match served.1.listed.getLast? with
      | none => []
      | some item => enumerate s inode handle served.1.after served.2 item.2 plan

/-- What there is to tell of a directory from a position on: of its lines those that are shown, each
with its count, beginning with one, as its offset. -/
def contentsFrom (names : List Name) (described : Name → Bool) (start : Nat) :
    List (Name × Int64) :=
  (((lines names).drop start).filter (isShown described)).map fun line =>
    (line.1, Int64.ofNat (line.2 + 1))

def recordsSize (items : List (Name × Int64)) : Nat := (items.map fun item => recordSize item.1).sum

/-- The first of some items are as many as a budget takes: all of them, or the next does not fit. -/
def Packs (budget : Nat) (piece rest : List (Name × Int64)) : Prop :=
  recordsSize piece ≤ budget ∧
    ∀ item more, rest = item :: more → budget < recordsSize piece + recordSize item.1

theorem Packs.longest {budget : Nat} {piece rest longer : List (Name × Int64)}
    (h : Packs budget piece rest) (hlonger : longer <+: piece ++ rest)
    (hfits : recordsSize longer ≤ budget) : longer.length ≤ piece.length := by
  apply Nat.le_of_not_lt
  intro hlt
  have hpiece : piece <+: longer :=
    List.prefix_of_prefix_length_le (List.prefix_append piece rest) hlonger (Nat.le_of_lt hlt)
  obtain ⟨more, rfl⟩ := hpiece
  rw [List.prefix_append_right_inj] at hlonger
  cases more with
  | nil => simp at hlt
  | cons item more =>
    obtain ⟨later, rfl⟩ := hlonger
    have hexcess := h.2 item (more ++ later) rfl
    simp only [recordsSize, List.map_append, List.map_cons, List.sum_append, List.sum_cons] at *
    omega

/-- A packed piece is empty only where nothing is left, if each item fits the budget alone. -/
theorem Packs.eq_nil_iff {budget : Nat} {piece rest : List (Name × Int64)}
    (h : Packs budget piece rest) (hfits : ∀ item ∈ piece ++ rest, recordSize item.1 ≤ budget) :
    piece = [] ↔ piece ++ rest = [] := by
  constructor
  · rintro rfl
    cases rest with
    | nil => rfl
    | cons item more =>
      have hexcess := h.2 item more rfl
      have hitem := hfits item (by simp)
      simp [recordsSize] at hexcess
      omega
  · exact fun hnil => (List.append_eq_nil_iff.1 hnil).1

section Pieces

variable {names : List Name} {described : Name → Bool} {budget start : Nat}
  {after : DirectoryBuffer}

theorem exists_of_getLast?_filter {α : Type} {p : α → Bool} {l : List α} {last : α}
    (h : (l.filter p).getLast? = some last) :
    ∃ before behind, l = before ++ last :: behind ∧ behind.filter p = [] := by
  obtain ⟨init, hinit⟩ := List.getLast?_eq_some_iff.1 h
  obtain ⟨first, second, rfl, _, hlast⟩ := List.filter_eq_append_iff.1 hinit
  obtain ⟨passed, behind, rfl, _, _, hbehind⟩ := List.filter_eq_cons_iff.1 hlast
  exact ⟨first ++ passed, behind, by rw [List.append_assoc], hbehind⟩

theorem drop_lines_of_split {before behind : List (Name × Nat)} {line : Name × Nat}
    (h : (lines names).drop start = before ++ line :: behind) :
    (lines names).drop (line.2 + 1) = behind := by
  have hposition : line.2 = start + before.length := by
    have hget : ((lines names).drop start)[before.length]? = some line := by
      rw [h, List.getElem?_append_right (Nat.le_refl _), Nat.sub_self]
      rfl
    rw [lines, drop_zipIdx, List.getElem?_zipIdx] at hget
    obtain ⟨name, _, rfl⟩ := Option.map_eq_some_iff.1 hget
    simp
  have hdrop : ((lines names).drop start).drop (before.length + 1) = behind := by
    rw [h, ← List.singleton_append, ← List.append_assoc]
    apply List.drop_left'
    simp
  rwa [List.drop_drop, ← Nat.add_assoc, ← hposition] at hdrop

/-- There are fewer lines than offsets, so each line is told with its count. -/
theorem shownAs_eq (hfew : names.length + 2 < 2 ^ 63) {line : Name × Nat}
    (hline : line ∈ lines names) : shownAs line = (line.1, Int64.ofNat (line.2 + 1)) := by
  have hlt := lt_of_mem_lines hline
  have hmin : min (line.2 + 1) (2 ^ 63 - 1) = line.2 + 1 := by omega
  rw [shownAs, offsetAfter, hmin]

/-- What a listing shows is packed from what there is to tell, and what is left is what there is to
tell from its last offset on. -/
theorem Shows.packs (h : Shows described budget ((lines names).drop start) (.new budget) after)
    (hfew : names.length + 2 < 2 ^ 63) :
    ∃ rest, contentsFrom names described start = after.entries.map lineOf ++ rest ∧
      Packs budget (after.entries.map lineOf) rest ∧
      ∀ item, (after.entries.map lineOf).getLast? = some item → 0 ≤ item.2 ∧
        rest = contentsFrom names described item.2.toNatClampNeg := by
  obtain ⟨shown, rest, htodo, hentries, hfilled, hend⟩ := h
  have hshown : (shown.filter (isShown described)).map shownAs =
      (shown.filter (isShown described)).map fun line => (line.1, Int64.ofNat (line.2 + 1)) := by
    refine List.map_congr_left fun line hline => shownAs_eq hfew ?_
    have hmem : line ∈ shown ++ rest := List.mem_append_left rest (List.mem_filter.1 hline).1
    exact (mem_drop_lines.1 (htodo ▸ hmem)).1
  replace hentries : after.entries.map lineOf =
      (shown.filter (isShown described)).map fun line => (line.1, Int64.ofNat (line.2 + 1)) := by
    rw [← hshown]
    simpa [DirectoryBuffer.new] using hentries
  have hused : recordsSize (after.entries.map lineOf) = after.used := by
    rw [hfilled.used_eq, recordsSize, List.map_map]
    rfl
  refine ⟨(rest.filter (isShown described)).map fun line => (line.1, Int64.ofNat (line.2 + 1)),
    ?_, ⟨hused ▸ hfilled.used_le, ?_⟩, ?_⟩
  · rw [contentsFrom, htodo, List.filter_append, List.map_append, hentries]
  · intro item more hrest
    rcases hend with rfl | ⟨next, rest', rfl, hnext, hfull⟩
    · simp at hrest
    · rw [List.filter_cons_of_pos hnext, List.map_cons, List.cons.injEq] at hrest
      rw [hused, ← hrest.1]
      exact hfull
  · intro item hitem
    rw [hentries, List.getLast?_map, Option.map_eq_some_iff] at hitem
    obtain ⟨last, hlast, rfl⟩ := hitem
    obtain ⟨before, behind, rfl, hbehind⟩ := exists_of_getLast?_filter hlast
    rw [List.append_assoc, List.cons_append] at htodo
    have hmem : last ∈ (lines names).drop start := by simp [htodo]
    have hlt := lt_of_mem_lines (mem_drop_lines.1 hmem).1
    have hnext : (Int64.ofNat (last.2 + 1)).toNatClampNeg = last.2 + 1 :=
      Int64.toNatClampNeg_ofNat_of_lt (by omega)
    refine ⟨?_, ?_⟩
    · rw [Int64.le_iff_toInt_le, Int64.toInt_ofNat_of_lt (by omega)]
      exact Int.natCast_nonneg _
    · dsimp only
      rw [hnext, contentsFrom, drop_lines_of_split htodo, List.filter_append, hbehind,
        List.nil_append]

end Pieces

/-- Storage named the given entries of a directory, and could describe the given ones of them. -/
structure Service.Steady (path : Path) (names : List Name) (described : Name → Bool)
    (r : Service) : Prop where
  lists : ∀ result, (⟨.readdir path, result⟩ : Event) ∈ r.events → result = .ok names
  describes : ∀ name ∈ names, ∀ result,
    (⟨.stat (path.child name), result⟩ : Event) ∈ r.events → described name = result.toBool

/-- Whether a call that asked for the names gave those, or one about an entry could describe it as
given. -/
def agrees (path : Path) (names : List Name) (described : Name → Bool) : Event → Bool
  | ⟨.readdir p, .ok named⟩ => p != path || BEq.beq (α := List Name) named names
  | ⟨.readdir p, .error _⟩ => p != path
  | ⟨.stat p, result⟩ => names.all fun name => p != path.child name || described name == result.toBool
  | _ => true

theorem steady_of_agrees {r : Service} {path : Path} {names : List Name} {described : Name → Bool}
    (h : r.events.all (agrees path names described) = true) : r.Steady path names described where
  lists result hevent := by
    have hagrees := List.all_eq_true.1 h _ hevent
    cases result with
    | ok named =>
      have hnamed : BEq.beq (α := List Name) named names = true := by simpa [agrees] using hagrees
      exact congrArg Except.ok (eq_of_beq (α := List Name) hnamed)
    | error e => simp [agrees] at hagrees
  describes name hname result hevent := by
    have hagrees := List.all_eq_true.1 h _ hevent
    simp only [agrees, List.all_eq_true] at hagrees
    simpa using hagrees name hname

section Calls

variable {inode : Inode} {handle : Handle} {path : Path} {names : List Name}
  {described : Name → Bool}

/-- A listing of a bound directory is answered with what it shows of the names. -/
theorem Service.Possible.shows {r : Service} {offset : Int64} {budget : Nat} (h : r.Possible)
    (hasked : r.request = .readdir inode handle offset budget) (hoffset : 0 ≤ offset)
    (hbound : r.before.inodes.resolve? inode = some path)
    (hsteady : r.Steady path names described) :
    ∃ buffer, r.outcome = some (.directory buffer) ∧
      Shows described budget ((lines names).drop offset.toNatClampNeg) (.new budget) buffer := by
  rw [Service.Possible, hasked] at h
  obtain ⟨result, hdoes, hresult⟩ := does_answer.1 h
  obtain ⟨e, hfault, _⟩ | ⟨start, p, hstart, hp, hlists⟩ := does_readdir hdoes
  · rw [positionOf_eq hoffset] at hfault
    have hpath := pathOf_eq_ok_iff.2 hbound
    simp [hpath, bind, Except.bind] at hfault
  obtain rfl : path = p := Option.some.inj (hbound.symm.trans hp)
  obtain ⟨e, hevents, _⟩ | ⟨named, rest, bound, buffer, hevents, hlisting, rfl, _⟩ := hlists
  · have hnames := hsteady.lists (.error e) (by simp [hevents])
    cases hnames
  · obtain rfl : named = names := by
      have hnames := hsteady.lists (.ok named) (by simp [hevents])
      exact Except.ok.inj hnames
    refine ⟨buffer, hresult, ?_⟩
    rw [← positionOf_eq_ok hstart]
    apply hlisting.shows
    intro name hname result hevent
    apply hsteady.describes name hname
    rw [hevents]
    exact List.mem_cons_of_mem _ hevent

end Calls

section Enumeration

variable {inode : Inode} {handle : Handle} {path : Path} {names : List Name}
  {described : Name → Bool}

/-- What a call of an enumeration has to give of the items that are left: as many as its budget takes,
and nothing only where nothing is left. -/
structure Service.Gives (r : Service) (budget : Nat) (left : List (Name × Int64)) : Prop where
  answered : ∃ buffer, r.outcome = some (.directory buffer)
  begins : r.listed <+: left
  fits : recordsSize r.listed ≤ budget
  longest : ∀ longer, longer <+: left → recordsSize longer ≤ budget →
    longer.length ≤ r.listed.length
  ends : r.listed = [] ↔ left = []

theorem contentsFrom_subset {start : Nat} :
    contentsFrom names described start ⊆ contentsFrom names described 0 := by
  apply List.map_subset
  exact List.filter_subset _ (List.drop_subset _ _)

theorem Service.Possible.gives {r : Service} {offset : Int64} {budget : Nat} (h : r.Possible)
    (hasked : r.request = .readdir inode handle offset budget) (hoffset : 0 ≤ offset)
    (hbound : r.before.inodes.resolve? inode = some path)
    (hsteady : r.Steady path names described) (hfew : names.length + 2 < 2 ^ 63)
    (hbudget : ∀ item ∈ contentsFrom names described 0, recordSize item.1 ≤ budget) :
    r.Gives budget (contentsFrom names described offset.toNatClampNeg) ∧
      ∀ item, r.listed.getLast? = some item → 0 ≤ item.2 ∧
        contentsFrom names described offset.toNatClampNeg =
          r.listed ++ contentsFrom names described item.2.toNatClampNeg := by
  obtain ⟨buffer, hanswer, hshows⟩ := h.shows hasked hoffset hbound hsteady
  obtain ⟨rest, hcontents, hpacks, hnext⟩ := hshows.packs hfew
  have hlisted : r.listed = buffer.entries.map lineOf := by rw [Service.listed, hanswer]
  rw [← hlisted] at hcontents hpacks hnext
  refine ⟨⟨⟨buffer, hanswer⟩, ?_, hpacks.1, ?_, ?_⟩, ?_⟩
  · rw [hcontents]
    exact List.prefix_append _ _
  · intro longer hlonger hfits
    exact hpacks.longest (hcontents ▸ hlonger) hfits
  · rw [hcontents]
    apply hpacks.eq_nil_iff
    intro item hitem
    apply hbudget
    exact contentsFrom_subset (hcontents ▸ hitem)
  · intro item hitem
    obtain ⟨hnonneg, rfl⟩ := hnext item hitem
    exact ⟨hnonneg, hcontents⟩

/-- Calls with given budgets that deal out some items: each gives what it has to of those left, and
there is no call after one that gave nothing. -/
inductive DealsOut : List Nat → List (Name × Int64) → List Service → Prop
  | stopped (left : List (Name × Int64)) : DealsOut [] left []
  | exhausted {budget : Nat} {budgets : List Nat} {r : Service} (gives : r.Gives budget []) :
    DealsOut (budget :: budgets) [] [r]
  | more {budget : Nat} {budgets : List Nat} {left : List (Name × Int64)} {r : Service}
    {calls : List Service} (gives : r.Gives budget (r.listed ++ left)) (some : r.listed ≠ [])
    (later : DealsOut budgets left calls) :
    DealsOut (budget :: budgets) (r.listed ++ left) (r :: calls)

section DealsOut

variable {budgets : List Nat} {left : List (Name × Int64)} {calls : List Service}

/-- Before each call the pieces of the calls before it have come, in order, and the rest is left. -/
theorem DealsOut.gives_of_split (h : DealsOut budgets left calls) {first later : List Service}
    {r : Service} (hsplit : calls = first ++ r :: later) :
    ∃ budget rest, budgets[first.length]? = some budget ∧
      left = first.flatMap Service.listed ++ rest ∧ r.Gives budget rest := by
  induction h generalizing first with
  | stopped => simp at hsplit
  | @exhausted budget budgets r' gives =>
    cases first with
    | nil =>
      obtain ⟨rfl, -⟩ := List.cons.inj hsplit
      exact ⟨budget, [], rfl, rfl, gives⟩
    | cons => simp at hsplit
  | @more budget budgets left r' calls gives _ _ ih =>
    cases first with
    | nil =>
      obtain ⟨rfl, -⟩ := List.cons.inj hsplit
      exact ⟨budget, r'.listed ++ left, rfl, rfl, gives⟩
    | cons r'' first =>
      obtain ⟨rfl, hcalls⟩ := List.cons.inj hsplit
      obtain ⟨b, rest, hb, rfl, hgives⟩ := ih hcalls
      exact ⟨b, rest, hb, by rw [List.flatMap_cons, List.append_assoc], hgives⟩

theorem DealsOut.length_le (h : DealsOut budgets left calls) : calls.length ≤ left.length + 1 := by
  induction h with
  | stopped => simp
  | exhausted => simp
  | more _ some _ ih =>
    have hpos := List.length_pos_iff.2 some
    rw [List.length_cons, List.length_append]
    omega

theorem DealsOut.complete (h : DealsOut budgets left calls) (hmany : left.length < budgets.length) :
    calls.flatMap Service.listed = left ∧ ∃ r, calls.getLast? = some r ∧ r.listed = [] := by
  induction h with
  | stopped => simp at hmany
  | @exhausted _ _ r gives =>
    have hnil : r.listed = [] := gives.ends.2 rfl
    exact ⟨by simp [hnil], r, rfl, hnil⟩
  | more _ some _ ih =>
    have hpos := List.length_pos_iff.2 some
    rw [List.length_append, List.length_cons] at hmany
    obtain ⟨hall, r', hlast, hnil⟩ := ih (by omega)
    refine ⟨by rw [List.flatMap_cons, hall], r', ?_, hnil⟩
    rw [List.getLast?_cons, hlast]
    rfl

end DealsOut

theorem dealsOut_enumerate {σ : Type} (s : Storage σ) {d : Dispatcher} {state : σ} {offset : Int64}
    {plan : List (List Request × Nat)} (hbound : d.inodes.resolve? inode = some path)
    (hoffset : 0 ≤ offset) (hkeeps : ∀ step ∈ plan, ∀ req ∈ step.1, req.dropsPaths = false)
    (hfew : names.length + 2 < 2 ^ 63)
    (hsteady : ∀ r ∈ enumerate s inode handle d state offset plan, r.Steady path names described)
    (hbudgets : ∀ step ∈ plan, ∀ item ∈ contentsFrom names described 0,
      recordSize item.1 ≤ step.2) :
    DealsOut (plan.map Prod.snd) (contentsFrom names described offset.toNatClampNeg)
      (enumerate s inode handle d state offset plan) := by
  induction plan generalizing d state offset with
  | nil => exact .stopped _
  | cons step plan ih =>
    obtain ⟨between, budget⟩ := step
    obtain ⟨hkeepsFirst, hkeepsLater⟩ := List.forall_mem_cons.1 hkeeps
    obtain ⟨hbudget, hbudgetsLater⟩ := List.forall_mem_cons.1 hbudgets
    have hreached := resolve?_stateAfter s state hkeepsFirst hbound
    rw [enumerate] at hsteady ⊢
    generalize stateAfter s d state between = reached at hreached hsteady ⊢
    have hpossible := serveOver_possible s reached.1 reached.2 (.readdir inode handle offset budget)
    have hkept : (Request.readdir inode handle offset budget).dropsPaths = false := rfl
    have hafter := resolve?_serveOver s reached.2 hkept hreached
    obtain ⟨hsteadyFirst, hsteadyLater⟩ := List.forall_mem_cons.1 hsteady
    obtain ⟨hgives, hnext⟩ := hpossible.gives rfl hoffset hreached hsteadyFirst hfew hbudget
    generalize serveOver s reached.1 reached.2 (.readdir inode handle offset budget) = served at *
    cases hlast : served.1.listed.getLast? with
    | none =>
      have hleft := hgives.ends.1 (List.getLast?_eq_none_iff.1 hlast)
      rw [hleft] at hgives ⊢
      exact .exhausted hgives
    | some item =>
      obtain ⟨hitem, hcontents⟩ := hnext item hlast
      rw [hcontents] at hgives ⊢
      rw [hlast] at hsteadyLater
      apply DealsOut.more hgives
      · intro hnil
        simp [hnil] at hlast
      · exact ih hafter hitem hkeepsLater hsteadyLater hbudgetsLater

/-- An enumeration of a bound directory, over any storage that names the same entries at each call and
can describe the same of them: the pieces that its calls give follow each other in the contents of the
directory, each is the longest one that the budget of its call takes, and nothing comes back only at
the end, after at most one call more than there are records.  Other requests may be served between the
calls, unless they take paths away, and each call may have another budget if it takes every single
record.  (A list of names in memory is always shorter than there are offsets.) -/
theorem enumeration_deals_out_contents {σ : Type} (s : Storage σ) (d : Dispatcher) (state : σ)
    (inode : Inode) (handle : Handle) (path : Path) (names : List Name) (described : Name → Bool)
    (plan : List (List Request × Nat)) (hbound : d.inodes.resolve? inode = some path)
    (hkeeps : ∀ step ∈ plan, ∀ req ∈ step.1, req.dropsPaths = false)
    (hfew : names.length + 2 < 2 ^ 63)
    (hsteady : ∀ r ∈ enumerate s inode handle d state 0 plan, r.Steady path names described)
    (hbudgets : ∀ step ∈ plan, ∀ item ∈ contentsFrom names described 0,
      recordSize item.1 ≤ step.2) :
    let contents := contentsFrom names described 0
    let calls := enumerate s inode handle d state 0 plan
    (∀ first r later, calls = first ++ r :: later →
        ∃ budget rest, (plan.map Prod.snd)[first.length]? = some budget ∧
          contents = first.flatMap Service.listed ++ rest ∧ r.Gives budget rest) ∧
      calls.length ≤ contents.length + 1 ∧
      (contents.length < plan.length → calls.flatMap Service.listed = contents ∧
        ∃ r, calls.getLast? = some r ∧ r.listed = []) := by
  intro contents calls
  have hdeals : DealsOut (plan.map Prod.snd) contents calls :=
    dealsOut_enumerate s hbound (Int64.le_refl 0) hkeeps hfew hsteady hbudgets
  refine ⟨fun first r later hsplit => hdeals.gives_of_split hsplit, hdeals.length_le, fun hmany => ?_⟩
  apply hdeals.complete
  rwa [List.length_map]

/-- Of three files the second cannot be described: it takes its count, but no record.  With budgets
for two records, for one, for three and for one, the calls give two records, one, one and none. -/
theorem enumeration_skips_undescribed :
    let root : Path := ⟨[slash]⟩
    let create (name : UInt8) : Request := .create rootInode [name] 0o644 0
    let s := (HostStorage.serving root).withFailures fun _ => true
    let failures := List.replicate 5 none ++ [some (.ofKind .notFound), none, none,
      some (.ofKind .notFound)]
    let reached := stateAfter s (start (fun _ salt => salt + 2) {} root)
      (List.replicate 6 none ++ failures, HostStorage.new (Host.fresh 0 .epoch .fallback))
      [create 0x61, create 0x62, create 0x63]
    let contents := contentsFrom [[0x61], [0x62], [0x63]] (· != [0x62]) 0
    let plan := [([], 64), ([.statfs rootInode], 32), ([], 96), ([], 40), ([], 32)]
    let calls := enumerate s rootInode 0 reached.1 reached.2 0 plan
    (∀ step ∈ plan, ∀ req ∈ step.1, req.dropsPaths = false) ∧
      (∀ r ∈ calls, r.Steady root [[0x61], [0x62], [0x63]] (· != [0x62])) ∧
      (∀ step ∈ plan, ∀ item ∈ contents, recordSize item.1 ≤ step.2) ∧
      calls.map Service.listed =
        [[(Name.here, 1), (Name.above, 2)], [([0x61], 3)], [([0x63], 5)], []] ∧
      contents = [(Name.here, 1), (Name.above, 2), ([0x61], 3), ([0x63], 5)] ∧
      calls.flatMap Service.listed = contents := by
  intro root create s failures reached contents plan calls
  have hbound : reached.1.inodes.resolve? rootInode = some root := by cbv
  have hkeeps : ∀ step ∈ plan, ∀ req ∈ step.1, req.dropsPaths = false := by decide
  have hagrees : (calls.all fun r =>
      r.events.all (agrees root [[0x61], [0x62], [0x63]] (· != [0x62]))) = true := by
    cbv
  have hsteady : ∀ r ∈ calls, r.Steady root [[0x61], [0x62], [0x63]] (· != [0x62]) := fun r hr =>
    steady_of_agrees (List.all_eq_true.1 hagrees r hr)
  have hbudgets : ∀ step ∈ plan, ∀ item ∈ contents, recordSize item.1 ≤ step.2 := by decide
  have hlisted : calls.map Service.listed =
      [[(Name.here, 1), (Name.above, 2)], [([0x61], 3)], [([0x63], 5)], []] := by
    cbv
  have hcomplete := (enumeration_deals_out_contents s reached.1 reached.2 rootInode 0 root
    [[0x61], [0x62], [0x63]] (· != [0x62]) plan hbound hkeeps (by decide) hsteady hbudgets).2.2
  exact ⟨hkeeps, hsteady, hbudgets, hlisted, by decide, (hcomplete (by decide)).1⟩

end Enumeration

end Dispatcher
end InodeBridge
