import InodeBridge.Proofs.Path.Joining
import Mathlib.Data.List.Basic

/-! # The steps of a path from the root

A path from the root is walked along its names, the pieces that are not empty.  They stand for its steps
after the root; the path of an entry has one more, and the path above a path has one step less.
-/
namespace InodeBridge

/-- What a host walks along: the pieces of a path that are not empty. -/
def Path.names (path : Path) : List Name :=
  (path.bytes.splitOn slash).filter fun name => !name.isEmpty

namespace Path

theorem mem_names {path : Path} {name : Name} (h : name ∈ path.names) :
    name ≠ [] ∧ slash ∉ name := by
  obtain ⟨hmem, hne⟩ := List.mem_filter.1 h
  exact ⟨by simpa using hne, Bytes.not_mem_of_mem_splitOn hmem⟩

theorem filterMap_stepOf_filter (pieces : List Bytes) :
    (pieces.filter fun name => !name.isEmpty).filterMap stepOf = pieces.filterMap stepOf := by
  rw [List.filterMap_filter]
  congr 1
  funext piece
  cases piece <;> rfl

theorem stepOf_ne_root (piece : Bytes) : stepOf piece ≠ some .root := by
  unfold stepOf
  split
  · simp
  · split <;> simp

theorem lead_of_components {path : Path} {steps : Location} (h : path.components = .root :: steps) :
    path.lead = [slash] := by
  by_cases hlead : path.lead = [slash]
  · exact hlead
  have hroot : Component.root ∈ leadStep path.lead ++ path.pieces.filterMap stepOf := by
    rw [← components, h]
    exact List.mem_cons_self
  rcases List.mem_append.1 hroot with hroot | hroot
  · rw [leadStep, if_neg hlead] at hroot
    split at hroot <;> simp at hroot
  · obtain ⟨piece, _, hpiece⟩ := List.mem_filterMap.1 hroot
    exact absurd hpiece (stepOf_ne_root piece)

/-- A path from the root starts with a separator, and its names are its steps. -/
theorem names_of_components {path : Path} {steps : Location} (h : path.components = .root :: steps) :
    path.bytes.head? = some slash ∧ path.names.filterMap stepOf = steps := by
  have hlead := lead_of_components h
  obtain ⟨rest, hbytes⟩ : ∃ rest, path.bytes = slash :: rest := by
    have happend := splitLead_append path.bytes
    rw [show (splitLead path.bytes).1 = [slash] from hlead] at happend
    exact ⟨_, happend.symm⟩
  refine ⟨by rw [hbytes]; rfl, ?_⟩
  have hpieces : path.pieces = Bytes.splitOn slash rest := by
    rw [pieces, hbytes]
    rfl
  rw [components, hlead, hpieces] at h
  have hsteps : (Bytes.splitOn slash rest).filterMap stepOf = steps := (List.cons.inj h).2
  rw [names, filterMap_stepOf_filter, hbytes, ← hsteps]
  rfl

theorem ne_nil_of_isEntry {name : Name} (h : name.isEntry = true) : name ≠ [] := by
  rintro rfl
  simp [Name.isEntry] at h

theorem slash_not_mem_of_isEntry {name : Name} (h : name.isEntry = true) : slash ∉ name := by
  simp only [Name.isEntry, Bool.not_eq_true', Bool.or_eq_false_iff] at h
  simpa using h.1.1.2

theorem names_singleton {name : Name} (h : name.isEntry = true) : names ⟨name⟩ = [name] := by
  rw [names, Bytes.splitOn_of_not_mem (slash_not_mem_of_isEntry h)]
  simp [ne_nil_of_isEntry h]

theorem ne_here_of_isEntry {name : Name} (h : name.isEntry = true) : name ≠ Name.here := by
  rintro rfl
  simp [Name.isEntry] at h

theorem ne_above_of_isEntry {name : Name} (h : name.isEntry = true) : name ≠ Name.above := by
  rintro rfl
  simp [Name.isEntry] at h

theorem isAbsolute_of_isEntry {name : Name} (h : name.isEntry = true) :
    isAbsolute ⟨name⟩ = false := by
  have hslash := slash_not_mem_of_isEntry h
  cases name with
  | nil => rfl
  | cons b rest => simp_all [isAbsolute, Ne.symm]

theorem names_child (path : Path) {name : Name} (h : name.isEntry = true) :
    (path.child name).names = path.names ++ [name] := by
  rw [child, join, isAbsolute_of_isEntry h, if_neg Bool.false_ne_true, ← names_singleton h]
  split
  next hends =>
    rcases Bool.or_eq_true_iff.1 hends with hnil | hslash
    · have hbytes : path.bytes = [] := List.isEmpty_iff.1 hnil
      simp [names, hbytes, Bytes.splitOn]
    · obtain ⟨bs, hbytes⟩ := List.getLast?_eq_some_iff.1 (beq_iff_eq.1 hslash)
      rw [names, names, names, hbytes, List.append_assoc, List.singleton_append,
        Bytes.splitOn_append_cons, Bytes.splitOn_append_cons, List.filter_append,
        List.filter_append]
      simp [Bytes.splitOn]
  · rw [names, Bytes.splitOn_append_cons, List.filter_append]
    rfl

theorem prefix_child (path : Path) {name : Name} (h : name.isEntry = true) :
    path.bytes <+: (path.child name).bytes := by
  rw [child, join, isAbsolute_of_isEntry h, if_neg Bool.false_ne_true]
  split <;> exact List.prefix_append _ _

theorem getLast?_child (path : Path) {name : Name} (h : name.isEntry = true) :
    (path.child name).bytes.getLast? ≠ some slash := by
  have hslash := slash_not_mem_of_isEntry h
  have hlast : name.getLast? ≠ some slash := fun hl => hslash (List.mem_of_getLast? hl)
  have hne := ne_nil_of_isEntry h
  rw [child, join, isAbsolute_of_isEntry h, if_neg Bool.false_ne_true]
  split
  · rwa [List.getLast?_append_of_ne_nil _ hne]
  · rwa [List.getLast?_append_of_ne_nil _ (by simp), List.getLast?_cons_of_ne_nil hne]

theorem isBlank_getLast_trimEnd {pieces : List Bytes} {piece : Bytes}
    (h : (trimEnd pieces).getLast? = some piece) : isBlank piece = false := by
  rw [trimEnd, List.getLast?_reverse] at h
  have hhead := List.head?_dropWhile_not isBlank pieces.reverse
  rwa [h] at hhead

theorem components_slash_joinWith {pieces : List Bytes} (hs : ∀ piece ∈ pieces, slash ∉ piece) :
    components ⟨slash :: Bytes.joinWith slash pieces⟩ = .root :: pieces.filterMap stepOf := by
  have hrest : components ⟨slash :: Bytes.joinWith slash pieces⟩ =
      .root :: (Bytes.splitOn slash (Bytes.joinWith slash pieces)).filterMap stepOf := rfl
  rw [hrest]
  cases pieces with
  | nil => rfl
  | cons piece rest => rw [Bytes.splitOn_joinWith (by simp) hs]

theorem components_of_parent? {path parent : Path} {steps : Location}
    (hpath : path.components = .root :: steps) (h : path.parent? = some parent) :
    parent.components = path.components.dropLast := by
  have hlead := lead_of_components hpath
  have hsteps : path.components = .root :: (trimEnd path.pieces).filterMap stepOf := by
    rw [components, hlead, filterMap_trimEnd]
    rfl
  unfold parent? at h
  split at h
  next hnil =>
    rw [hlead, if_neg (by decide)] at h
    simp at h
  next piece pieces htrim =>
    rw [← htrim, hlead] at h
    obtain rfl := Option.some.inj h
    have hne : trimEnd path.pieces ≠ [] := by simp [htrim]
    have hlast := isBlank_getLast_trimEnd (List.getLast?_eq_getLast_of_ne_nil hne)
    obtain ⟨c, hc⟩ : ∃ c, stepOf ((trimEnd path.pieces).getLast hne) = some c := by
      cases hstep : stepOf ((trimEnd path.pieces).getLast hne) with
      | none => simp [(stepOf_eq_none_iff _).1 hstep] at hlast
      | some c => exact ⟨c, rfl⟩
    have hmem : ∀ x ∈ trimEnd (trimEnd path.pieces).dropLast, slash ∉ x := fun x hx =>
      slash_not_mem_pieces <| mem_of_mem_trimEnd <|
        (List.dropLast_sublist _).mem (mem_of_mem_trimEnd hx)
    have hsplit := congrArg (List.filterMap stepOf) (List.dropLast_concat_getLast hne)
    rw [List.filterMap_append, List.filterMap_cons_some hc, List.filterMap_nil] at hsplit
    rw [hsteps, List.singleton_append, components_slash_joinWith hmem, filterMap_trimEnd, ← hsplit,
      ← List.cons_append, List.dropLast_concat]

end Path

end InodeBridge
