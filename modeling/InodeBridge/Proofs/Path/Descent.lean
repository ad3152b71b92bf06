import InodeBridge.Proofs.Path.Steps
import Mathlib.Data.List.Induction
import Mathlib.Data.List.TakeWhile

/-! # Spellings below a path

Going down from a path by names of entries gives one spelling for each list of names, and going up from
there by one step gives the spelling that was gone down from, but that blank pieces at its end are lost.
So whoever starts at one spelling and only goes down and up again meets one spelling of each location.
-/
namespace InodeBridge

theorem Bytes.joinWith_append (separator : UInt8) {first rest : List Bytes} (hfirst : first ≠ [])
    (hrest : rest ≠ []) :
    joinWith separator (first ++ rest) =
      joinWith separator first ++ separator :: joinWith separator rest := by
  induction first with
  | nil => exact absurd rfl hfirst
  | cons piece first ih =>
    cases first with
    | nil =>
      obtain ⟨second, others, rfl⟩ := List.exists_cons_of_ne_nil hrest
      rfl
    | cons second others =>
      change piece ++ separator :: joinWith separator (second :: others ++ rest) =
        piece ++ separator :: joinWith separator (second :: others) ++ _
      rw [ih (by simp), List.append_assoc]
      rfl

namespace Path

def trimmed (p : Path) : Path := ⟨p.lead ++ Bytes.joinWith slash (trimEnd p.pieces)⟩

theorem isBlank_of_isEntry {name : Name} (h : name.isEntry = true) : isBlank name = false := by
  simp [isBlank, ne_nil_of_isEntry h, ne_here_of_isEntry h]

theorem trimEnd_concat_of_blank {pieces : List Bytes} {piece : Bytes} (h : isBlank piece = true) :
    trimEnd (pieces ++ [piece]) = trimEnd pieces := by
  simp [trimEnd, h]

theorem trimEnd_concat {pieces : List Bytes} {piece : Bytes} (h : isBlank piece = false) :
    trimEnd (pieces ++ [piece]) = pieces ++ [piece] := by
  simp [trimEnd, h]

/-- The pieces of an entry's path are those of the path above it and the name; there may be a blank
piece less before the name. -/
theorem pieces_child (p : Path) {name : Name} (h : name.isEntry = true) :
    (p.child name).lead = p.lead ∧ ∃ front, (p.child name).pieces = front ++ [name] ∧
      trimEnd front = trimEnd p.pieces := by
  have hslash := slash_not_mem_of_isEntry h
  have hpieces : Bytes.splitOn slash name = [name] := Bytes.splitOn_of_not_mem hslash
  rw [child, join, isAbsolute_of_isEntry h, if_neg Bool.false_ne_true]
  by_cases hnil : p.bytes = []
  · have hsplit : splitLead name = ([], name) := splitLead_joinWith [] (isBlank_of_isEntry h) hslash
    simp only [hnil, List.isEmpty_nil, Bool.true_or, if_true, List.nil_append]
    refine ⟨?_, [], ?_, ?_⟩
    · rw [lead, lead, hsplit, hnil]
      rfl
    · rw [pieces, hsplit, hpieces]
      rfl
    · rw [pieces, hnil]
      rfl
  by_cases hend : p.bytes.getLast? = some slash
  · have hsplit := splitLead_append_right name hnil (.inl hend)
    simp only [hend, BEq.rfl, Bool.or_true, if_true]
    refine ⟨by rw [lead, hsplit, lead], ?_⟩
    rw [pieces, hsplit, pieces]
    cases hrest : (splitLead p.bytes).2 with
    | nil => exact ⟨[], hpieces, rfl⟩
    | cons b rest =>
      have hlast : (b :: rest).getLast? = some slash := by
        have hparts := congrArg List.getLast? (splitLead_append p.bytes)
        rw [hrest, List.getLast?_append, hend] at hparts
        simpa [List.getLast?_cons] using hparts
      obtain ⟨init, hinit⟩ := List.getLast?_eq_some_iff.1 hlast
      refine ⟨Bytes.splitOn slash init, ?_, ?_⟩
      · rw [hinit, List.append_assoc, List.singleton_append, Bytes.splitOn_append_cons, hpieces]
      · rw [hinit, Bytes.splitOn_append_cons]
        exact (trimEnd_concat_of_blank rfl).symm
  · have hsplit := splitLead_append_right (slash :: name) hnil (.inr rfl)
    have hcond : (p.bytes.isEmpty || p.bytes.getLast? == some slash) = false := by
      simp [hnil, hend]
    simp only [hcond, Bool.false_eq_true, if_false]
    refine ⟨by rw [lead, hsplit, lead], p.pieces, ?_, rfl⟩
    rw [pieces, hsplit, Bytes.splitOn_append_cons, hpieces, pieces]

theorem parent?_child (p : Path) {name : Name} (h : name.isEntry = true) :
    (p.child name).parent? = some p.trimmed := by
  obtain ⟨hlead, front, hpieces, hfront⟩ := p.pieces_child h
  have htrim : trimEnd (p.child name).pieces = front ++ [name] := by
    rw [hpieces, trimEnd_concat (isBlank_of_isEntry h)]
  unfold parent?
  split
  next hnil => simp [hnil] at htrim
  next piece rest hcons =>
    rw [← hcons, htrim, List.dropLast_concat, hfront, hlead]
    rfl

theorem trimmed_child (p : Path) {name : Name} (h : name.isEntry = true) :
    (p.child name).trimmed = p.child name := by
  obtain ⟨_, front, hpieces, _⟩ := p.pieces_child h
  have htrim : trimEnd (p.child name).pieces = (p.child name).pieces := by
    rw [hpieces, trimEnd_concat (isBlank_of_isEntry h)]
  rw [trimmed, htrim, pieces, Bytes.joinWith_splitOn, lead, splitLead_append]

theorem lead_eq (p : Path) : p.lead = [] ∨ p.lead = [slash] ∨ p.lead = [fullStop] := by
  unfold lead splitLead
  split
  · exact .inl rfl
  · split
    next hslash => exact .inr (.inl (by rw [hslash]))
    · split
      next hdot => exact .inr (.inr (by rw [hdot.1]))
      · exact .inl rfl

/-- The pieces of a path are those without blanks at the end, and these blanks. -/
theorem exists_trimEnd_append (pieces : List Bytes) :
    ∃ blanks, pieces = trimEnd pieces ++ blanks ∧ blanks.filterMap stepOf = [] ∧
      ∀ piece ∈ blanks, piece ∈ pieces := by
  refine ⟨(pieces.reverse.takeWhile isBlank).reverse, ?_, ?_, fun piece hpiece => ?_⟩
  · rw [trimEnd, ← List.reverse_append, List.takeWhile_append_dropWhile, List.reverse_reverse]
  · rw [List.filterMap_eq_nil_iff]
    intro piece hpiece
    rw [stepOf_eq_none_iff]
    exact List.mem_takeWhile_imp (List.mem_reverse.1 hpiece)
  · exact List.mem_reverse.1 ((List.takeWhile_sublist _).mem (List.mem_reverse.1 hpiece))

theorem components_trimmed (p : Path) : p.trimmed.components = p.components := by
  obtain ⟨blanks, hpieces, hblank, hmem⟩ := exists_trimEnd_append p.pieces
  have hbytes : p.bytes = p.lead ++ Bytes.joinWith slash p.pieces := by
    rw [pieces, Bytes.joinWith_splitOn]
    exact (splitLead_append p.bytes).symm
  by_cases htrim : trimEnd p.pieces = []
  · -- nothing is left but the leading step
    have hsteps : p.pieces.filterMap stepOf = [] := by
      rw [← filterMap_trimEnd, htrim, List.filterMap_nil]
    rw [trimmed, htrim, Bytes.joinWith, List.append_nil, components.eq_def p, hsteps]
    rcases p.lead_eq with hlead | hlead | hlead <;> rw [hlead] <;> rfl
  by_cases hnone : blanks = []
  · rw [hnone, List.append_nil] at hpieces
    rw [trimmed, ← hpieces, ← hbytes]
  · have hsplit : p.bytes = p.trimmed.bytes ++ slash :: Bytes.joinWith slash blanks := by
      rw [hbytes, trimmed, List.append_assoc, ← Bytes.joinWith_append slash htrim hnone, ← hpieces]
    have hne : p.trimmed.bytes ≠ [] := by
      intro hnil
      have hslash : p.lead = [slash] := by
        rw [lead, hsplit, hnil]
        rfl
      rw [trimmed, hslash] at hnil
      cases hnil
    have hlead := splitLead_append_right (slash :: Bytes.joinWith slash blanks) hne (.inr rfl)
    have hsteps : p.components = p.trimmed.components ++ blanks.filterMap stepOf := by
      rw [components, components, lead, pieces, hsplit, hlead, Bytes.splitOn_append_cons,
        Bytes.splitOn_joinWith hnone fun piece hpiece => slash_not_mem_pieces (hmem piece hpiece),
        List.filterMap_append, List.append_assoc]
      rfl
    rw [hsteps, hblank, List.append_nil]

def descend (p : Path) (names : List Name) : Path := names.foldl child p

theorem descend_concat (p : Path) (names : List Name) (name : Name) :
    p.descend (names ++ [name]) = (p.descend names).child name := by
  rw [descend, List.foldl_append]
  rfl

theorem components_descend (p : Path) {names : List Name}
    (h : ∀ name ∈ names, name.isEntry = true) :
    (p.descend names).components = p.components ++ names.map .entry := by
  induction names using List.reverseRecOn with
  | nil => exact (List.append_nil _).symm
  | append_singleton names name ih =>
    obtain ⟨hnames, hname⟩ := List.forall_mem_append.1 h
    rw [descend_concat, components_child _ (hname name (List.mem_singleton_self name)), ih hnames,
      List.map_append, List.append_assoc]
    rfl

theorem descend_eq_of_components {p : Path} {names names' : List Name}
    (h : ∀ name ∈ names, name.isEntry = true) (h' : ∀ name ∈ names', name.isEntry = true)
    (hc : (p.descend names).components = (p.descend names').components) :
    p.descend names = p.descend names' := by
  rw [components_descend p h, components_descend p h', List.append_cancel_left_eq] at hc
  rw [List.map_injective_iff.2 (fun _ _ => Component.entry.inj) hc]

/-- A path that is reached from another one through entries, as it is spelled. -/
def DescendsFrom (p root : Path) : Prop :=
  ∃ names : List Name, (∀ name ∈ names, name.isEntry = true) ∧ p = root.descend names

theorem descendsFrom_refl (root : Path) : root.DescendsFrom root := ⟨[], by simp, rfl⟩

theorem DescendsFrom.child {p root : Path} (h : p.DescendsFrom root) {name : Name}
    (hname : name.isEntry = true) : (p.child name).DescendsFrom root := by
  obtain ⟨names, hnames, rfl⟩ := h
  refine ⟨names ++ [name], ?_, (root.descend_concat names name).symm⟩
  exact List.forall_mem_append.2 ⟨hnames, by simpa using hname⟩

end Path
end InodeBridge
