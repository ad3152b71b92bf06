/-! # Byte strings

File data, names and the spelling of a path are strings of bytes.  Splitting at a separator loses
nothing: joining the pieces gives the string back.
-/
namespace InodeBridge

abbrev Bytes := List UInt8

namespace Bytes

def ofString (s : String) : Bytes := s.toUTF8.toList

/-- The eight bytes of a 64-bit word, the least significant first. -/
def ofWord64 (w : UInt64) : Bytes :=
  (List.range 8).map fun i => (w >>> (8 * i).toUInt64).toUInt8

/-- The 32-bit word whose least significant byte is the first of the string. -/
def toWord32 (bs : Bytes) : UInt32 :=
  (bs.take 4).foldr (fun b w => (w <<< 8) ||| b.toUInt32) 0

/-- The pieces between the separators; there is always at least one piece. -/
def splitOn (separator : UInt8) : Bytes → List Bytes
  | [] => [[]]
  | b :: rest =>
    if b = separator then [] :: splitOn separator rest
    else match splitOn separator rest with
      | [] => [[b]]
      | piece :: pieces => (b :: piece) :: pieces

def joinWith (separator : UInt8) : List Bytes → Bytes
  | [] => []
  | [piece] => piece
  | piece :: pieces => piece ++ separator :: joinWith separator pieces

theorem splitOn_ne_nil (separator : UInt8) (bs : Bytes) : splitOn separator bs ≠ [] := by
  cases bs with
  | nil => simp [splitOn]
  | cons b rest =>
    unfold splitOn
    split
    · simp
    · split <;> simp

theorem joinWith_splitOn (separator : UInt8) (bs : Bytes) :
    joinWith separator (splitOn separator bs) = bs := by
  induction bs with
  | nil => rfl
  | cons b rest ih =>
    unfold splitOn
    split
    next h =>
      subst h
      cases hs : splitOn b rest with
      | nil => exact absurd hs (splitOn_ne_nil b rest)
      | cons piece pieces =>
        rw [hs] at ih
        simp [joinWith, ih]
    next h =>
      cases hs : splitOn separator rest with
      | nil => exact absurd hs (splitOn_ne_nil separator rest)
      | cons piece pieces =>
        rw [hs] at ih
        cases pieces with
        | nil => simpa [joinWith] using ih
        | cons second others => simpa [joinWith] using ih

/-- A separator between two strings keeps their pieces apart. -/
theorem splitOn_append_cons (separator : UInt8) (bs cs : Bytes) :
    splitOn separator (bs ++ separator :: cs) = splitOn separator bs ++ splitOn separator cs := by
  induction bs with
  | nil => simp [splitOn]
  | cons b rest ih =>
    by_cases hb : b = separator
    · simp [splitOn, hb, ih]
    · cases hs : splitOn separator rest with
      | nil => exact absurd hs (splitOn_ne_nil separator rest)
      | cons piece pieces => simp [splitOn, hb, ih, hs]

theorem splitOn_of_not_mem {separator : UInt8} {bs : Bytes} (h : separator ∉ bs) :
    splitOn separator bs = [bs] := by
  induction bs with
  | nil => rfl
  | cons b rest ih =>
    rw [List.mem_cons, not_or] at h
    simp [splitOn, Ne.symm h.1, ih h.2]

theorem not_mem_of_mem_splitOn {separator : UInt8} {bs piece : Bytes}
    (h : piece ∈ splitOn separator bs) : separator ∉ piece := by
  induction bs generalizing piece with
  | nil => simp_all [splitOn]
  | cons b rest ih =>
    unfold splitOn at h
    split at h
    next => rcases List.mem_cons.1 h with rfl | h <;> simp_all
    next hb =>
      cases hs : splitOn separator rest with
      | nil => exact absurd hs (splitOn_ne_nil separator rest)
      | cons first pieces =>
        rw [hs] at h
        rcases List.mem_cons.1 h with rfl | h
        · have hfirst : separator ∉ first := ih (by simp [hs])
          simpa [Ne.symm hb] using hfirst
        · exact ih (by simp [hs, h])

theorem splitOn_joinWith {separator : UInt8} {pieces : List Bytes} (hne : pieces ≠ [])
    (h : ∀ piece ∈ pieces, separator ∉ piece) :
    splitOn separator (joinWith separator pieces) = pieces := by
  induction pieces with
  | nil => exact absurd rfl hne
  | cons piece pieces ih =>
    cases pieces with
    | nil => exact splitOn_of_not_mem (h piece (by simp))
    | cons second others =>
      have hrest := ih (by simp) fun p hp => h p (List.mem_cons_of_mem piece hp)
      rw [joinWith, splitOn_append_cons, splitOn_of_not_mem (h piece (by simp)), hrest]
      · rfl
      · simp

def lexLE : Bytes → Bytes → Bool
  | [], _ => true
  | _ :: _, [] => false
  | a :: as, b :: bs => if a = b then lexLE as bs else a < b

theorem lexLE_total (as bs : Bytes) : (lexLE as bs || lexLE bs as) = true := by
  induction as generalizing bs with
  | nil => rfl
  | cons a as ih =>
    cases bs with
    | nil => rfl
    | cons b bs =>
      by_cases hab : a = b
      · simpa [lexLE, hab] using ih bs
      · have hlt : a < b ∨ b < a := by
          simp only [UInt8.lt_iff_toNat_lt, ← UInt8.toNat_inj] at hab ⊢
          omega
        simpa [lexLE, hab, Ne.symm hab] using hlt

theorem lexLE_antisymm {as bs : Bytes} (h : lexLE as bs = true) (h' : lexLE bs as = true) :
    as = bs := by
  induction as generalizing bs with
  | nil =>
    cases bs with
    | nil => rfl
    | cons b bs => simp [lexLE] at h'
  | cons a as ih =>
    cases bs with
    | nil => simp [lexLE] at h
    | cons b bs =>
      by_cases hab : a = b
      · subst hab
        simp only [lexLE, if_true] at h h'
        rw [ih h h']
      · simp only [lexLE, hab, Ne.symm hab, if_false, decide_eq_true_eq,
          UInt8.lt_iff_toNat_lt] at h h'
        omega

theorem lexLE_trans {as bs cs : Bytes} (h : lexLE as bs = true) (h' : lexLE bs cs = true) :
    lexLE as cs = true := by
  induction as generalizing bs cs with
  | nil => rfl
  | cons a as ih =>
    cases bs with
    | nil => simp [lexLE] at h
    | cons b bs =>
      cases cs with
      | nil => simp [lexLE] at h'
      | cons c cs =>
        by_cases hab : a = b <;> by_cases hbc : b = c
        · subst hab hbc
          simp only [lexLE, if_true] at h h' ⊢
          exact ih h h'
        · subst hab
          simpa [lexLE, hbc] using h'
        · subst hbc
          simpa [lexLE, hab] using h
        · simp only [lexLE, hab, hbc, if_false, decide_eq_true_eq] at h h'
          have hac : a ≠ c := by
            rintro rfl
            simp only [UInt8.lt_iff_toNat_lt] at h h'
            omega
          simp only [lexLE, hac, if_false, decide_eq_true_eq]
          exact UInt8.lt_trans h h'

end Bytes
end InodeBridge
