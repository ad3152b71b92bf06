import InodeBridge.InodeTable

/-! # Steps of joined and renamed paths

A join appends steps, and a rename replaces the steps of its source by those of its target, however
the paths are spelled.
-/
namespace InodeBridge.Path

@[simp] theorem stepOf_nil : stepOf [] = none := rfl

theorem stepOf_eq_none_iff (piece : Bytes) : stepOf piece = none ↔ isBlank piece = true := by
  unfold stepOf
  split
  · simp_all
  · split <;> simp_all

theorem filterMap_dropWhile (pieces : List Bytes) :
    (pieces.dropWhile isBlank).filterMap stepOf = pieces.filterMap stepOf := by
  induction pieces with
  | nil => rfl
  | cons piece pieces ih =>
    by_cases h : isBlank piece = true
    · rw [List.dropWhile_cons_of_pos h, ih, List.filterMap_cons_none ((stepOf_eq_none_iff _).2 h)]
    · rw [List.dropWhile_cons_of_neg h]

theorem filterMap_trimEnd (pieces : List Bytes) :
    (trimEnd pieces).filterMap stepOf = pieces.filterMap stepOf := by
  rw [trimEnd, List.filterMap_reverse, filterMap_dropWhile, List.filterMap_reverse,
    List.reverse_reverse]

theorem isBlank_head_dropWhile {pieces : List Bytes} {piece : Bytes} {rest : List Bytes}
    (h : pieces.dropWhile isBlank = piece :: rest) : isBlank piece = false := by
  have := List.head?_dropWhile_not isBlank pieces
  rwa [h] at this

theorem filterMap_dropSteps (n : Nat) (pieces : List Bytes) :
    (dropSteps n pieces).filterMap stepOf = (pieces.filterMap stepOf).drop n := by
  induction n generalizing pieces with
  | zero => rw [dropSteps, filterMap_trimEnd, filterMap_dropWhile, List.drop_zero]
  | succ n ih =>
    rw [dropSteps, ih, ← filterMap_dropWhile pieces]
    cases hd : pieces.dropWhile isBlank with
    | nil => simp
    | cons piece rest =>
      have hp : stepOf piece ≠ none := by
        rw [Ne, stepOf_eq_none_iff, isBlank_head_dropWhile hd]
        simp
      obtain ⟨step, hs⟩ := Option.ne_none_iff_exists'.1 hp
      simp [List.filterMap_cons_some hs]

theorem mem_of_mem_trimEnd {piece : Bytes} {pieces : List Bytes} (h : piece ∈ trimEnd pieces) :
    piece ∈ pieces := by
  rw [trimEnd, List.mem_reverse] at h
  exact List.mem_reverse.1 ((List.dropWhile_sublist _).mem h)

theorem mem_of_mem_dropSteps {n : Nat} {piece : Bytes} {pieces : List Bytes}
    (h : piece ∈ dropSteps n pieces) : piece ∈ pieces := by
  induction n generalizing pieces with
  | zero => exact (List.dropWhile_sublist _).mem (mem_of_mem_trimEnd h)
  | succ n ih => exact (List.dropWhile_sublist _).mem (List.mem_of_mem_tail (ih h))

/-- Trimming the end of pieces whose first one counts keeps the first one. -/
theorem trimEnd_cons {piece : Bytes} (pieces : List Bytes) (h : isBlank piece = false) :
    trimEnd (piece :: pieces) = piece :: trimEnd pieces := by
  have hall : ¬ ∀ x ∈ pieces.reverse ++ [piece], isBlank x = true :=
    fun hx => by simpa [h] using hx piece (by simp)
  unfold trimEnd
  rw [List.reverse_cons, List.dropWhile_append]
  split
  next hnil => simp [List.isEmpty_iff.1 hnil, h]
  next => simp

theorem isBlank_head_dropSteps {n : Nat} {pieces : List Bytes} {piece : Bytes} {rest : List Bytes}
    (h : dropSteps n pieces = piece :: rest) : isBlank piece = false := by
  induction n generalizing pieces with
  | succ n ih => exact ih h
  | zero =>
    rw [dropSteps] at h
    cases hd : pieces.dropWhile isBlank with
    | nil => simp [hd, trimEnd] at h
    | cons first others =>
      have hfirst := isBlank_head_dropWhile hd
      rw [hd, trimEnd_cons _ hfirst] at h
      rwa [(List.cons.inj h).1] at hfirst

theorem slash_not_mem_pieces {p : Path} {piece : Bytes} (h : piece ∈ p.pieces) : slash ∉ piece :=
  Bytes.not_mem_of_mem_splitOn h

/-- A spelling that starts with a piece that counts has no step of its own before it. -/
theorem splitLead_joinWith {piece : Bytes} (rest : List Bytes) (hb : isBlank piece = false)
    (hs : slash ∉ piece) :
    splitLead (Bytes.joinWith slash (piece :: rest)) =
      ([], Bytes.joinWith slash (piece :: rest)) := by
  obtain ⟨b, bs, rfl⟩ : ∃ b bs, piece = b :: bs := by
    cases piece with
    | nil => simp [isBlank] at hb
    | cons b bs => exact ⟨b, bs, rfl⟩
  have hb0 : b ≠ slash := fun h => hs (by simp [h])
  have hdot : ¬ (b = fullStop ∧ bs = []) := by
    rintro ⟨rfl, rfl⟩
    simp [isBlank, Name.here] at hb
  have hhead : bs.head? ≠ some slash := by
    intro h
    exact hs (List.mem_cons_of_mem _ (List.mem_of_head? h))
  cases rest with
  | nil =>
    rw [Bytes.joinWith, splitLead, if_neg hb0, if_neg]
    rintro ⟨h1, h2 | h2⟩
    · exact hdot ⟨h1, h2⟩
    · exact hhead h2
  | cons second others =>
    rw [Bytes.joinWith, List.cons_append, splitLead, if_neg hb0, if_neg]
    · rintro ⟨h1, h2⟩
      cases bs with
      | nil => exact hdot ⟨h1, rfl⟩
      | cons c cs => exact hhead (by simpa using h2)
    · simp

theorem splitLead_append_right {bs : Bytes} (cs : Bytes) (hne : bs ≠ [])
    (h : bs.getLast? = some slash ∨ cs.head? = some slash) :
    splitLead (bs ++ cs) = ((splitLead bs).1, (splitLead bs).2 ++ cs) := by
  cases bs with
  | nil => exact absurd rfl hne
  | cons b rest =>
    by_cases hb : b = slash
    · simp [splitLead, hb]
    · cases rest with
      | nil =>
        have hc : cs.head? = some slash := by simpa [hb] using h
        by_cases hd : b = fullStop <;> simp [splitLead, hb, hd, hc]
      | cons c rest =>
        by_cases hd : b = fullStop ∧ c = slash <;> simp [splitLead, hb, hd]

theorem components_of_lead_eq_nil {p : Path} (h : p.lead = []) :
    p.components = (p.bytes.splitOn slash).filterMap stepOf := by
  have hrest : (splitLead p.bytes).2 = p.bytes := by
    have := splitLead_append p.bytes
    rwa [show (splitLead p.bytes).1 = [] from h, List.nil_append] at this
  rw [components, h, pieces, hrest]
  rfl

theorem isAbsolute_of_lead_eq_nil {p : Path} (h : p.lead = []) : p.isAbsolute = false := by
  cases hb : p.bytes with
  | nil => simp [isAbsolute, hb]
  | cons b rest =>
    have : b ≠ slash := by
      rintro rfl
      simp [lead, splitLead, hb] at h
    simpa [isAbsolute, hb]

theorem filterMap_splitOn_append_slash (bs cs : Bytes) :
    ((bs ++ slash :: cs).splitOn slash).filterMap stepOf =
      (bs.splitOn slash).filterMap stepOf ++ (cs.splitOn slash).filterMap stepOf := by
  rw [Bytes.splitOn_append_cons, List.filterMap_append]

/-- Joining a path that has no step of its own before its first piece appends its steps. -/
theorem components_join (p : Path) {q : Path} (h : q.lead = []) :
    (p.join q).components = p.components ++ q.components := by
  rw [components_of_lead_eq_nil h, join, isAbsolute_of_lead_eq_nil h]
  by_cases hnil : p.bytes = []
  · have hp : p.components = [] := by simp [components, lead, pieces, hnil, splitLead, leadStep,
      Bytes.splitOn]
    simp [hnil, hp, components_of_lead_eq_nil (p := ⟨q.bytes⟩) h]
  · by_cases hend : p.bytes.getLast? = some slash
    · have hsplit := splitLead_append_right q.bytes hnil (.inl hend)
      simp only [Bool.false_eq_true, if_false, hend, BEq.rfl, Bool.or_true, if_true]
      simp only [components, lead, pieces, hsplit, List.append_assoc]
      congr 1
      cases hr : (splitLead p.bytes).2 with
      | nil => simp [Bytes.splitOn]
      | cons b rest =>
        have hlast : (b :: rest).getLast? = some slash := by
          have hparts := congrArg List.getLast? (splitLead_append p.bytes)
          rw [hr, List.getLast?_append, hend] at hparts
          simpa [List.getLast?_cons] using hparts
        obtain ⟨init, hinit⟩ := List.getLast?_eq_some_iff.1 hlast
        rw [hinit, List.append_assoc, List.singleton_append, filterMap_splitOn_append_slash,
          filterMap_splitOn_append_slash]
        simp [Bytes.splitOn]
    · have hsplit := splitLead_append_right (slash :: q.bytes) hnil (.inr rfl)
      have hcond : (p.bytes.isEmpty || p.bytes.getLast? == some slash) = false := by
        simp [hnil, hend]
      simp only [Bool.false_eq_true, if_false, hcond]
      simp only [components, lead, pieces, hsplit, List.append_assoc,
        filterMap_splitOn_append_slash]

/-- Pieces that start with one that counts spell a path with no step of its own before it. -/
theorem lead_joinWith {pieces : List Bytes} (hs : ∀ piece ∈ pieces, slash ∉ piece)
    (hb : ∀ piece rest, pieces = piece :: rest → isBlank piece = false) :
    lead ⟨Bytes.joinWith slash pieces⟩ = [] := by
  cases pieces with
  | nil => rfl
  | cons piece rest =>
    exact congrArg Prod.fst (splitLead_joinWith rest (hb piece rest rfl) (hs piece (by simp)))

theorem components_joinWith {pieces : List Bytes} (hs : ∀ piece ∈ pieces, slash ∉ piece)
    (hb : ∀ piece rest, pieces = piece :: rest → isBlank piece = false) :
    components ⟨Bytes.joinWith slash pieces⟩ = pieces.filterMap stepOf := by
  rw [components_of_lead_eq_nil (lead_joinWith hs hb)]
  by_cases hne : pieces = []
  · simp [hne, Bytes.joinWith, Bytes.splitOn]
  · rw [Bytes.splitOn_joinWith hne hs]

theorem components_child (p : Path) {name : Name} (h : name.isEntry = true) :
    (p.child name).components = p.components ++ [.entry name] := by
  simp only [Name.isEntry, Bool.not_eq_true', Bool.or_eq_false_iff] at h
  obtain ⟨⟨⟨hnil, hslash⟩, hhere⟩, habove⟩ := h
  have hblank : isBlank name = false := by simp [isBlank, hnil, hhere]
  have hs : ∀ piece ∈ [name], slash ∉ piece := by simpa using hslash
  have hb : ∀ piece rest, [name] = piece :: rest → isBlank piece = false := by
    rintro piece rest h
    exact (List.cons.inj h).1 ▸ hblank
  have hstep : stepOf name = some (.entry name) := by
    rw [stepOf, hblank, if_neg (by simp), if_neg (by simpa using habove)]
  rw [child, show (⟨name⟩ : Path) = ⟨Bytes.joinWith slash [name]⟩ from rfl,
    components_join p (lead_joinWith hs hb), components_joinWith hs hb]
  simp [hstep]

theorem leadStep_length_le (lead : Bytes) : (leadStep lead).length ≤ 1 := by
  unfold leadStep
  split
  · simp
  · split <;> simp

open InodeTable in
theorem components_renamedPath {source target path : Path} (hne : source.components ≠ [])
    (hw : source.components <+: path.components) :
    (renamedPath source target path).components =
      target.components ++ path.components.drop source.components.length := by
  have hwithin : path.isWithin source = true := List.isPrefixOf_iff_prefix.2 hw
  obtain ⟨n, hn⟩ := Nat.exists_eq_succ_of_ne_zero (mt List.length_eq_zero_iff.1 hne)
  have hlead := leadStep_length_le path.lead
  let left := dropSteps (n + 1 - (leadStep path.lead).length) path.pieces
  have hrel : path.relativeTo? source = some ⟨Bytes.joinWith slash left⟩ := by
    simp [relativeTo?, hwithin, hn, left]
  have hs : ∀ piece ∈ left, slash ∉ piece := fun piece h =>
    slash_not_mem_pieces (mem_of_mem_dropSteps h)
  have hb : ∀ piece rest, left = piece :: rest → isBlank piece = false := fun _ _ h =>
    isBlank_head_dropSteps h
  have hdrop : path.components.drop source.components.length = left.filterMap stepOf := by
    rw [hn, components, List.drop_append, filterMap_dropSteps,
      List.drop_eq_nil_of_le (by omega), List.nil_append]
  rw [renamedPath, hrel, hdrop]
  cases hleft : left with
  | nil => simp [Bytes.joinWith]
  | cons piece rest =>
    rw [hleft] at hs hb
    have hpiece := hb piece rest rfl
    have hbytes : (Bytes.joinWith slash (piece :: rest)).isEmpty = false := by
      cases rest <;> cases piece <;> simp_all [Bytes.joinWith, isBlank]
    simp only [hbytes, Bool.false_eq_true, if_false]
    rw [components_join target (lead_joinWith hs hb), components_joinWith hs hb]

end InodeBridge.Path
