import InodeBridge.Proofs.Dispatcher.Listing

/-! # The records of a listing

The lines of a directory are its two references and the names that storage gives, counted from zero.  A
listing shows a stretch of them, leaving out the names that cannot be described, and ends only where
there are no more or where the next one does not fit.
-/
namespace InodeBridge

namespace DirectoryBuffer

variable {b b' : DirectoryBuffer}

/-- The bytes used are those of the records in the buffer, and within its budget. -/
structure Filled (b : DirectoryBuffer) (budget : Nat) : Prop where
  budget_eq : b.budget = budget
  used_eq : b.used = (b.entries.map fun e => recordSize e.name).sum
  used_le : b.used ≤ budget

theorem filled_new (budget : Nat) : (new budget).Filled budget := ⟨rfl, rfl, Nat.zero_le budget⟩

theorem add?_eq_some_iff {e : DirectoryEntry} :
    b.add? e = some b' ↔ b.used + recordSize e.name ≤ b.budget ∧
      b' = { b with used := b.used + recordSize e.name, entries := b.entries ++ [e] } := by
  simp only [add?]
  split
  · simp; omega
  · simp [eq_comm]; omega

theorem add?_eq_none_iff {e : DirectoryEntry} :
    b.add? e = none ↔ b.budget < b.used + recordSize e.name := by
  simp [add?]

theorem Filled.add {budget : Nat} {e : DirectoryEntry} (h : b.Filled budget)
    (hadd : b.add? e = some b') : b'.Filled budget := by
  obtain ⟨hfits, rfl⟩ := add?_eq_some_iff.1 hadd
  exact ⟨h.budget_eq, by simp [h.used_eq], h.budget_eq ▸ hfits⟩

theorem Filled.fill {budget : Nat} (h : b.Filled budget) (es : List DirectoryEntry) :
    (b.fill es).1.Filled budget := by
  induction es generalizing b with
  | nil => exact h
  | cons e es ih =>
    rw [DirectoryBuffer.fill]
    cases hadd : b.add? e with
    | none => exact h
    | some longer => exact ih (h.add hadd)

end DirectoryBuffer

namespace Dispatcher

open Storage (Call Event)

def lines (names : List Name) : List (Name × Nat) := (Name.here :: Name.above :: names).zipIdx

def offsetAfter (position : Nat) : Int64 := Int64.ofNat (min (position + 1) (2 ^ 63 - 1))

def lineOf (e : DirectoryEntry) : Name × Int64 := (e.name, e.offset)

def shownAs (line : Name × Nat) : Name × Int64 := (line.1, offsetAfter line.2)

@[simp] theorem lineOf_record (position : Nat) (inode : Inode) (kind : FileKind) (name : Name) :
    lineOf (record position inode kind name) = shownAs (name, position) := rfl

/-- Whether a line is shown, if it is reached and fits: the two references are. -/
def isShown (described : Name → Bool) (line : Name × Nat) : Bool := line.2 < 2 || described line.1

theorem drop_zipIdx {α : Type} (l : List α) (k n : Nat) :
    (l.zipIdx k).drop n = (l.drop n).zipIdx (k + n) := by
  induction n generalizing l k with
  | zero => simp
  | succ n ih =>
    cases l with
    | nil => simp
    | cons a l => simp [ih, Nat.add_comm, Nat.add_left_comm]

theorem drop_lines (names : List Name) (start : Nat) :
    (lines names).drop start =
      [(Name.here, 0), (Name.above, 1)].drop start ++ (names.zipIdx 2).drop (start - 2) := by
  have hlines : lines names = [(Name.here, 0), (Name.above, 1)] ++ names.zipIdx 2 := rfl
  rw [hlines, List.drop_append]
  rfl

/-- How a list of lines is shown by a buffer: a stretch of it, without those that are not described, up
to its end or to a line that does not fit. -/
def Shows (described : Name → Bool) (budget : Nat) (todo : List (Name × Nat))
    (before after : DirectoryBuffer) : Prop :=
  ∃ shown rest, todo = shown ++ rest ∧
    after.entries.map lineOf =
      before.entries.map lineOf ++ (shown.filter (isShown described)).map shownAs ∧
    after.Filled budget ∧
    (rest = [] ∨ ∃ line rest', rest = line :: rest' ∧ isShown described line = true ∧
      budget < after.used + recordSize line.1)

section Shows

variable {described : Name → Bool} {budget : Nat} {before mid after : DirectoryBuffer}

theorem shows_nil (h : after.Filled budget) : Shows described budget [] after after :=
  ⟨[], [], rfl, by simp, h, .inl rfl⟩

theorem Shows.cons_of_not {line : Name × Nat} {todo : List (Name × Nat)}
    (h : Shows described budget todo before after) (hline : isShown described line = false) :
    Shows described budget (line :: todo) before after := by
  obtain ⟨shown, rest, rfl, hentries, hfilled, hend⟩ := h
  refine ⟨line :: shown, rest, rfl, ?_, hfilled, hend⟩
  rw [List.filter_cons_of_neg (by simp [hline]), hentries]

theorem Shows.cons {line : Name × Nat} {todo : List (Name × Nat)} {e : DirectoryEntry}
    (h : Shows described budget todo mid after) (hadd : before.add? e = some mid)
    (hline : isShown described line = true) (he : lineOf e = shownAs line) :
    Shows described budget (line :: todo) before after := by
  obtain ⟨shown, rest, rfl, hentries, hfilled, hend⟩ := h
  refine ⟨line :: shown, rest, rfl, ?_, hfilled, hend⟩
  rw [List.filter_cons_of_pos hline, hentries, (DirectoryBuffer.add?_eq_some_iff.1 hadd).2]
  simp [he]

theorem shows_of_full {line : Name × Nat} {todo : List (Name × Nat)} (h : after.Filled budget)
    (hline : isShown described line = true) (hfull : budget < after.used + recordSize line.1) :
    Shows described budget (line :: todo) after after :=
  ⟨[], line :: todo, rfl, by simp, h, .inr ⟨line, todo, rfl, hline, hfull⟩⟩

/-- Filling a buffer with the records of some lines shows these, and what follows them if all fit. -/
theorem shows_fill {es : List DirectoryEntry} {shown todo : List (Name × Nat)}
    (hlines : es.map lineOf = shown.map shownAs)
    (hshown : ∀ line ∈ shown, isShown described line = true) (h : before.Filled budget)
    (hrest : (before.fill es).2 = true → Shows described budget todo (before.fill es).1 after)
    (hend : (before.fill es).2 = false → after = (before.fill es).1) :
    Shows described budget (shown ++ todo) before after := by
  induction es generalizing before shown with
  | nil =>
    obtain rfl : shown = [] := by simpa using hlines.symm
    exact hrest rfl
  | cons e es ih =>
    cases shown with
    | nil => simp at hlines
    | cons line shown =>
      rw [List.map_cons, List.map_cons, List.cons.injEq] at hlines
      have hline := hshown line (by simp)
      have hname : e.name = line.1 := congrArg Prod.fst hlines.1
      cases hadd : before.add? e with
      | none =>
        have hfill : before.fill (e :: es) = (before, false) := by
          simp [DirectoryBuffer.fill, hadd]
        rw [hfill] at hend
        rw [hend rfl]
        apply shows_of_full h hline
        rw [← hname, ← h.budget_eq]
        exact DirectoryBuffer.add?_eq_none_iff.1 hadd
      | some longer =>
        have hfill : before.fill (e :: es) = longer.fill es := by
          simp [DirectoryBuffer.fill, hadd]
        rw [hfill] at hrest hend
        refine Shows.cons ?_ hadd hline hlines.1
        exact ih hlines.2 (fun line hmem => hshown line (List.mem_cons_of_mem _ hmem))
          (h.add hadd) hrest hend

/-- Over the names of a directory, a listing shows those that can be described. -/
theorem Listing.shows {directory : Path} {t : InodeTable} {items : List (Name × Nat)}
    {events : List Event} {bound : List Name}
    (h : Listing directory t items before events bound after)
    (hdescribed : ∀ name ∈ items.map Prod.fst, ∀ result,
      (⟨.stat (directory.child name), result⟩ : Event) ∈ events → described name = result.toBool)
    (hitems : ∀ line ∈ items, 2 ≤ line.2) (hfilled : before.Filled budget) :
    Shows described budget items before after := by
  have hentry : ∀ {name position}, 2 ≤ position →
      isShown described (name, position) = described name := by
    intro name position hposition
    simp [isShown, Nat.not_lt.2 hposition]
  induction h with
  | finished => exact shows_nil hfilled
  | @passed t name position items buffer buffer' events bound e rest ih =>
    have hposition := hitems (name, position) (by simp)
    have hrest := ih (fun n hn r hr => hdescribed n (List.mem_cons_of_mem _ hn) r
      (List.mem_cons_of_mem _ hr)) (fun line hline => hitems line (List.mem_cons_of_mem _ hline))
    apply (hrest hfilled).cons_of_not
    rw [hentry hposition, hdescribed name List.mem_cons_self _ List.mem_cons_self]
    rfl
  | @full t name position items buffer stat excess =>
    have hposition := hitems (name, position) (by simp)
    refine shows_of_full hfilled ?_ ?_
    · rw [hentry hposition, hdescribed name List.mem_cons_self _ List.mem_cons_self]
      rfl
    · have hfull := DirectoryBuffer.add?_eq_none_iff.1 excess
      rwa [hfilled.budget_eq] at hfull
  | @added t name position items buffer buffer' longer events bound stat fits rest ih =>
    have hposition := hitems (name, position) (by simp)
    have hrest := ih (fun n hn r hr => hdescribed n (List.mem_cons_of_mem _ hn) r
      (List.mem_cons_of_mem _ hr)) (fun line hline => hitems line (List.mem_cons_of_mem _ hline))
    refine Shows.cons (hrest (hfilled.add fits)) fits ?_ (lineOf_record _ _ _ _)
    rw [hentry hposition, hdescribed name List.mem_cons_self _ List.mem_cons_self]
    rfl

theorem ListingFrom.shows {inode : Inode} {path : Path} {t : InodeTable} {names : List Name}
    {start : Nat} {events : List Event} {bound : List Name}
    (h : ListingFrom inode path t names start budget events bound after)
    (hdescribed : ∀ name ∈ names, ∀ result, (⟨.stat (path.child name), result⟩ : Event) ∈ events →
      described name = result.toBool) :
    Shows described budget ((lines names).drop start) (.new budget) after := by
  have hdots : ∀ parent, ((dotRecords inode parent).drop start).map lineOf =
      ([(Name.here, 0), (Name.above, 1)].drop start).map shownAs := by
    intro parent
    rw [List.map_drop, List.map_drop]
    simp only [dotRecords, List.map_cons, List.map_nil, lineOf_record]
  have hshown : ∀ line ∈ [(Name.here, 0), (Name.above, 1)].drop start,
      isShown described line = true := by
    intro line hline
    have hmem := List.mem_of_mem_drop hline
    simp only [List.mem_cons, List.not_mem_nil, or_false] at hmem
    rcases hmem with rfl | rfl <;> rfl
  rw [drop_lines]
  cases h with
  | cut excess =>
    refine shows_fill (hdots _) hshown (DirectoryBuffer.filled_new budget) ?_ fun _ => rfl
    intro hfits
    rw [dotsFrom, hfits] at excess
    simp at excess
  | entries fits listing =>
    refine shows_fill (hdots (bindingAbove inode path t).1) hshown
      (DirectoryBuffer.filled_new budget) (fun _ => ?_) ?_
    · refine listing.shows (fun name hname => ?_) (fun line hline => ?_) ?_
      · obtain ⟨item, hitem, rfl⟩ := List.mem_map.1 hname
        exact hdescribed _ (List.fst_mem_of_mem_zipIdx (List.mem_of_mem_drop hitem))
      · exact List.le_snd_of_mem_zipIdx (List.mem_of_mem_drop hline)
      · exact (DirectoryBuffer.filled_new budget).fill _
    · intro hcut
      rw [dotsFrom, hcut] at fits
      simp at fits

end Shows

section Lines

variable {names : List Name} {x : Name} {p start : Nat}

theorem mem_drop_lines {line : Name × Nat} :
    line ∈ (lines names).drop start ↔ line ∈ lines names ∧ start ≤ line.2 := by
  rw [lines, drop_zipIdx, List.mem_zipIdx_iff_le_and_getElem?_sub, List.mem_zipIdx_iff_getElem?,
    List.getElem?_drop, Nat.zero_add]
  constructor
  · rintro ⟨hle, hget⟩
    rw [Nat.add_sub_cancel' hle] at hget
    exact ⟨hget, hle⟩
  · rintro ⟨hget, hle⟩
    rw [Nat.add_sub_cancel' hle]
    exact ⟨hle, hget⟩

theorem pairwise_drop_lines :
    ((lines names).drop start).Pairwise fun line line' => line.2 < line'.2 := by
  have hlines : (lines names).Pairwise fun line line' => line.2 < line'.2 := by
    rw [← List.pairwise_map (f := Prod.snd) (R := (· < ·)), lines, List.zipIdx_map_snd]
    exact List.pairwise_lt_range'
  exact hlines.sublist (List.drop_sublist _ _)

theorem position_unique (hnodup : names.Nodup) (hx : x.isEntry = true) {p' : Nat}
    (h : (x, p) ∈ lines names) (h' : (x, p') ∈ lines names) : p = p' := by
  have hpos : ∀ {p}, (x, p) ∈ lines names → 2 ≤ p ∧ names[p - 2]? = some x := by
    intro p hp
    rw [lines, List.mem_zipIdx_iff_getElem?] at hp
    match p, hp with
    | 0, hp =>
      obtain rfl : Name.here = x := by simpa using hp
      simp [Name.isEntry] at hx
    | 1, hp =>
      obtain rfl : Name.above = x := by simpa using hp
      simp [Name.isEntry] at hx
    | p + 2, hp => exact ⟨by omega, by simpa using hp⟩
  obtain ⟨hp, hget⟩ := hpos h
  obtain ⟨hp', hget'⟩ := hpos h'
  have hlt : p - 2 < names.length := (List.getElem?_eq_some_iff.1 hget).1
  have hinj := (List.getElem?_inj hlt hnodup).1 (hget.trans hget'.symm)
  omega

variable {described : Name → Bool} {budget : Nat} {after : DirectoryBuffer}

/-- A listing that shows nothing, though its budget suffices for each record, has left every line that
could be shown behind it. -/
theorem Shows.ended (h : Shows described budget ((lines names).drop start) (.new budget) after)
    (hempty : after.entries = []) (hbudget : ∀ line ∈ lines names, recordSize line.1 ≤ budget)
    {line : Name × Nat} (hline : line ∈ lines names) (hshown : isShown described line = true) :
    line.2 < start := by
  obtain ⟨shown, rest, htodo, hentries, hfilled, hend⟩ := h
  apply Nat.lt_of_not_le
  intro hle
  have hnone : shown.filter (isShown described) = [] := by
    simpa [hempty, DirectoryBuffer.new] using hentries.symm
  have hmem : line ∈ shown ++ rest := htodo ▸ mem_drop_lines.2 ⟨hline, hle⟩
  rcases List.mem_append.1 hmem with hmem | hmem
  · exact List.filter_eq_nil_iff.1 hnone line hmem hshown
  · rcases hend with rfl | ⟨next, rest', rfl, _, hfull⟩
    · simp at hmem
    · have hnext : next ∈ (lines names).drop start := by rw [htodo]; simp
      have hused : after.used = 0 := by simp [hfilled.used_eq, hempty]
      have := hbudget next (mem_drop_lines.1 hnext).1
      omega

theorem lt_of_mem_lines {line : Name × Nat} (h : line ∈ lines names) :
    line.2 < names.length + 2 := by
  have hlt := List.snd_lt_of_mem_zipIdx h
  rw [List.length_cons, List.length_cons] at hlt
  omega

theorem le_of_getLast? {l : List (Name × Nat)} {line last : Name × Nat}
    (hsorted : l.Pairwise fun line line' => line.2 < line'.2) (hlast : l.getLast? = some last)
    (h : line ∈ l) : line.2 ≤ last.2 := by
  obtain ⟨init, rfl⟩ := List.getLast?_eq_some_iff.1 hlast
  rcases List.mem_append.1 h with hbefore | hend
  · apply Nat.le_of_lt
    exact (List.pairwise_append.1 hsorted).2.2 _ hbefore _ (List.mem_singleton_self last)
  · exact Nat.le_of_eq (congrArg Prod.snd (List.mem_singleton.1 hend))

/-- A name that is no reference stands at most once among some of the lines. -/
theorem count_le_one_of_sublist {l : List (Name × Nat)} (hnodup : names.Nodup)
    (hx : x.isEntry = true) (h : l.Sublist (lines names)) : (l.map Prod.fst).count x ≤ 1 := by
  apply Nat.le_trans ((h.map Prod.fst).count_le x)
  rw [lines, List.zipIdx_map_fst, List.count_cons_of_ne, List.count_cons_of_ne]
  · exact List.nodup_iff_count.1 hnodup x
  · rintro rfl
    simp [Name.isEntry] at hx
  · rintro rfl
    simp [Name.isEntry] at hx

/-- Of a stretch of the lines, the names shown up to the last one shown are those from the start of
the stretch on that can be described. -/
theorem mem_shown_iff {shown rest : List (Name × Nat)} {last : Name × Nat}
    (htodo : (lines names).drop start = shown ++ rest)
    (hlast : (shown.filter (isShown described)).getLast? = some last) (hnodup : names.Nodup)
    (hx : x.isEntry = true) (hline : (x, p) ∈ lines names) (hdescribed : described x = true) :
    x ∈ (shown.filter (isShown described)).map Prod.fst ↔ start ≤ p ∧ p ≤ last.2 := by
  have hsorted : (shown ++ rest).Pairwise fun line line' => line.2 < line'.2 :=
    htodo ▸ pairwise_drop_lines
  constructor
  · intro hin
    obtain ⟨⟨y, p'⟩, hline', hy⟩ := List.mem_map.1 hin
    obtain rfl : y = x := hy
    have htodo' : (y, p') ∈ (lines names).drop start :=
      htodo ▸ List.mem_append_left rest (List.mem_filter.1 hline').1
    obtain ⟨hmem, hle⟩ := mem_drop_lines.1 htodo'
    obtain rfl := position_unique hnodup hx hline hmem
    have hfiltered := hsorted.sublist
      ((List.filter_sublist (p := isShown described)).trans (List.sublist_append_left _ rest))
    exact ⟨hle, le_of_getLast? hfiltered hlast hline'⟩
  · rintro ⟨hle, hle'⟩
    have hin : (x, p) ∈ shown ++ rest := htodo ▸ mem_drop_lines.2 ⟨hline, hle⟩
    rcases List.mem_append.1 hin with hin | hin
    · have hshown : isShown described (x, p) = true := by simp [isShown, hdescribed]
      exact List.mem_map.2 ⟨(x, p), List.mem_filter.2 ⟨hin, hshown⟩, rfl⟩
    · -- A line behind the stretch lies behind the last one shown.
      have hlastShown : last ∈ shown := (List.mem_filter.1 (List.mem_of_getLast? hlast)).1
      have := (List.pairwise_append.1 hsorted).2.2 last hlastShown (x, p) hin
      exact absurd hle' (Nat.not_le.2 this)

/-- The last record of a listing is that of a line, and the listing shows exactly the describable names
from its start up to that line, once each. -/
theorem Shows.upTo (h : Shows described budget ((lines names).drop start) (.new budget) after)
    {e : DirectoryEntry} (hlast : after.entries.getLast? = some e) :
    ∃ q, e.offset = offsetAfter q ∧ start ≤ q ∧ q < names.length + 2 ∧
      ∀ {x p}, names.Nodup → x.isEntry = true → (x, p) ∈ lines names → described x = true →
        (after.entries.map (·.name)).count x = if start ≤ p ∧ p ≤ q then 1 else 0 := by
  obtain ⟨shown, rest, htodo, hentries, _, _⟩ := h
  replace hentries : after.entries.map lineOf = (shown.filter (isShown described)).map shownAs := by
    simpa [DirectoryBuffer.new] using hentries
  obtain ⟨last, hfiltered, he⟩ : ∃ last,
      (shown.filter (isShown described)).getLast? = some last ∧ shownAs last = lineOf e := by
    have := congrArg List.getLast? hentries
    rw [List.getLast?_map, List.getLast?_map, hlast] at this
    exact Option.map_eq_some_iff.1 this.symm
  have hlastTodo : last ∈ (lines names).drop start := by
    rw [htodo]
    apply List.mem_append_left
    exact (List.mem_filter.1 (List.mem_of_getLast? hfiltered)).1
  obtain ⟨hlastLine, hstart⟩ := mem_drop_lines.1 hlastTodo
  refine ⟨last.2, (congrArg Prod.snd he).symm, hstart, lt_of_mem_lines hlastLine, ?_⟩
  intro x p hnodup hx hline hdescribed
  have hnames : after.entries.map (·.name) =
      (shown.filter (isShown described)).map Prod.fst := by
    have := congrArg (List.map Prod.fst) hentries
    simpa only [List.map_map, Function.comp_def, lineOf, shownAs] using this
  have hmem := mem_shown_iff htodo hfiltered hnodup hx hline hdescribed
  have hsub : (shown.filter (isShown described)).Sublist (lines names) :=
    (List.filter_sublist.trans (htodo ▸ List.sublist_append_left shown rest)).trans
      (List.drop_sublist start _)
  have hcount := count_le_one_of_sublist hnodup hx hsub
  rw [hnames]
  split
  next hin =>
    have := List.count_pos_iff.2 (hmem.2 hin)
    omega
  next hout => exact List.count_eq_zero.2 (mt hmem.1 hout)

end Lines

end Dispatcher
end InodeBridge
