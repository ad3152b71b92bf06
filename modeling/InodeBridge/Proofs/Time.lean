import InodeBridge.Time

/-! # Instants as seconds and nanoseconds

An instant is told by the nanoseconds from the epoch to it, whichever side of the epoch it is on.  Hosts
count whole seconds, rounded down, and the nanoseconds after them; such a count gives exactly one
instant, none is out of reach, and an instant that is split and put together again is the same.
-/
namespace InodeBridge

theorem Duration.toNanos_mk (seconds : UInt64) (nanos : Fin nanosPerSecond) :
    (toNanos ⟨seconds, nanos⟩ : Int) = seconds.toNat * nanosPerSecond + nanos.val := by
  rw [toNanos, Int.natCast_add, Int.natCast_mul]

namespace Timestamp

variable {s t : Timestamp} {n : Int} {d : Duration}

theorem toNanos_epoch : epoch.toNanos = 0 := rfl

theorem toNanos_mk (seconds : Int64) (nanos : Fin nanosPerSecond) :
    toNanos ⟨seconds, nanos⟩ = seconds.toInt * nanosPerSecond + nanos.val := rfl

theorem toNanos_inj (h : s.toNanos = t.toNanos) : s = t := by
  obtain ⟨seconds, nanos, hnanos⟩ := s
  obtain ⟨seconds', nanos', hnanos'⟩ := t
  simp only [toNanos, nanosPerSecond] at h hnanos hnanos'
  obtain rfl : seconds = seconds' := Int64.toInt_inj.1 (by omega)
  obtain rfl : nanos = nanos' := by omega
  rfl

theorem le_toNanos (t : Timestamp) : -9223372036854775808 * nanosPerSecond ≤ t.toNanos := by
  have hseconds := t.seconds.le_toInt
  simp only [toNanos, nanosPerSecond]
  omega

theorem toNanos_lt (t : Timestamp) : t.toNanos < 9223372036854775808 * nanosPerSecond := by
  have hseconds := t.seconds.toInt_lt
  have hnanos := t.nanos.isLt
  simp only [toNanos, nanosPerSecond] at hnanos ⊢
  omega

/-- A number of nanoseconds that tells an instant tells it from the epoch. -/
theorem ofNanos?_eq_some_iff : ofNanos? n = some t ↔ t.toNanos = n := by
  have hexact {t : Timestamp} (h : ofNanos? n = some t) : t.toNanos = n := by
    simp only [ofNanos?] at h
    split at h
    next hrange =>
      obtain rfl := Option.some.inj h
      simp only [toNanos, Int64.toInt_minValue, Int64.toInt_maxValue] at hrange ⊢
      rw [Int64.toInt_ofInt_of_le (by omega) (by omega),
        Int.toNat_of_nonneg (Int.fmod_nonneg_of_pos n (by decide)), Int.mul_comm]
      exact Int.mul_fdiv_add_fmod n nanosPerSecond
    · cases h
  refine ⟨hexact, ?_⟩
  rintro rfl
  have hsecond : t.toNanos.fdiv nanosPerSecond = t.seconds.toInt := by
    have hnanos := t.nanos.isLt
    rw [Int.fdiv_eq_ediv_of_nonneg _ (by decide)]
    simp only [toNanos, nanosPerSecond] at hnanos ⊢
    omega
  have hrange : Int64.minValue.toInt ≤ t.toNanos.fdiv nanosPerSecond ∧
      t.toNanos.fdiv nanosPerSecond ≤ Int64.maxValue.toInt := by
    have hle := t.seconds.le_toInt
    have hlt := t.seconds.toInt_lt
    rw [hsecond, Int64.toInt_minValue, Int64.toInt_maxValue]
    omega
  cases hof : ofNanos? t.toNanos with
  | none =>
    simp only [ofNanos?] at hof
    rw [if_pos hrange] at hof
    cases hof
  | some t' => rw [toNanos_inj (hexact hof)]

theorem add?_eq_some_iff : s.add? d = some t ↔ t.toNanos = s.toNanos + d.toNanos :=
  ofNanos?_eq_some_iff

theorem sub?_eq_some_iff : s.sub? d = some t ↔ t.toNanos = s.toNanos - d.toNanos :=
  ofNanos?_eq_some_iff

theorem toNat_toUInt64 {x : Int64} (h : 0 ≤ x.toInt) : (x.toUInt64.toNat : Int) = x.toInt := by
  change (x.toBitVec.toNat : Int) = x.toBitVec.toInt
  change 0 ≤ x.toBitVec.toInt at h
  have hbound := x.toBitVec.isLt
  rw [BitVec.toInt_eq_toNat_cond] at h ⊢
  omega

/-- Seconds on either side of the epoch, with nanoseconds within a second, always tell an instant. -/
theorem ofUnix?_eq_some (seconds : Int64) {nanos : Int64} (hnonneg : 0 ≤ nanos)
    (hwithin : nanos ≤ 999999999) :
    ∃ t, ofUnix? seconds nanos = some t ∧
      t.toNanos = seconds.toInt * nanosPerSecond + nanos.toInt := by
  rw [Int64.le_iff_toInt_le] at hnonneg hwithin
  have hlow := seconds.le_toInt
  have hhigh := seconds.toInt_lt
  have hzero : Int64.toInt 0 = 0 := rfl
  have hlast : Int64.toInt 999999999 = 999999999 := rfl
  rw [hzero] at hnonneg
  rw [hlast] at hwithin
  rw [ofUnix?]
  generalize hfraction : (Fin.ofNat nanosPerSecond (min nanos.toInt.toNat (nanosPerSecond - 1))) =
    fraction
  have hnanos : (fraction.val : Int) = nanos.toInt := by
    rw [← hfraction]
    simp only [Fin.ofNat, nanosPerSecond]
    omega
  have hnone : (((0 : Fin nanosPerSecond).val : Nat) : Int) = 0 := rfl
  refine ⟨⟨seconds, fraction⟩, ?_, by rw [toNanos, hnanos]⟩
  by_cases hseconds : 0 ≤ seconds
  · rw [if_pos hseconds, add?_eq_some_iff, toNanos_epoch, toNanos_mk, Duration.toNanos_mk]
    rw [Int64.le_iff_toInt_le, hzero] at hseconds
    rw [toNat_toUInt64 hseconds, Int.zero_add]
  · rw [if_neg hseconds]
    rw [Int64.le_iff_toInt_le, hzero] at hseconds
    have hcount : (seconds.toInt.natAbs.toUInt64.toNat : Int) = -seconds.toInt := by
      rw [Nat.toUInt64_eq, UInt64.toNat_ofNat_of_lt']
      · exact Int.ofNat_natAbs_of_nonpos (by omega)
      · rw [UInt64.size]
        omega
    -- the whole seconds come first, so the way goes no further than the first second that is counted
    have hback : epoch.sub? ⟨seconds.toInt.natAbs.toUInt64, 0⟩ = some ⟨seconds, 0⟩ := by
      rw [sub?_eq_some_iff, toNanos_epoch, toNanos_mk, Duration.toNanos_mk, hcount, hnone,
        Int.neg_mul]
      omega
    rw [hback, Option.bind_some, add?_eq_some_iff, toNanos_mk, toNanos_mk, Duration.toNanos_mk, hnone,
      UInt64.toNat_zero]
    omega

theorem toNanos_ofUnix {seconds nanos : Int64} (hnonneg : 0 ≤ nanos) (hwithin : nanos ≤ 999999999) :
    (ofUnix seconds nanos).toNanos = seconds.toInt * nanosPerSecond + nanos.toInt := by
  obtain ⟨t, ht, hnanos⟩ := ofUnix?_eq_some seconds hnonneg hwithin
  rw [ofUnix, ht, Option.getD_some, hnanos]

/-- Counts with nanoseconds within a second are in the order of the instants they tell, whichever side of
the epoch those are on. -/
theorem toNanos_ofUnix_lt_iff {seconds nanos seconds' nanos' : Int64} (hnonneg : 0 ≤ nanos)
    (hwithin : nanos ≤ 999999999) (hnonneg' : 0 ≤ nanos') (hwithin' : nanos' ≤ 999999999) :
    (ofUnix seconds nanos).toNanos < (ofUnix seconds' nanos').toNanos ↔
      seconds < seconds' ∨ seconds = seconds' ∧ nanos < nanos' := by
  rw [toNanos_ofUnix hnonneg hwithin, toNanos_ofUnix hnonneg' hwithin']
  rw [Int64.le_iff_toInt_le] at hnonneg hwithin hnonneg' hwithin'
  rw [Int64.lt_iff_toInt_lt, Int64.lt_iff_toInt_lt, ← Int64.toInt_inj]
  have hzero : Int64.toInt 0 = 0 := rfl
  have hlast : Int64.toInt 999999999 = 999999999 := rfl
  simp only [nanosPerSecond]
  omega

theorem ofUnix_toUnix (t : Timestamp) : ofUnix t.toUnix.1 t.toUnix.2 = t := by
  have hnanos := t.nanos.isLt
  have hcount : (Int64.ofNat t.nanos).toInt = t.nanos.val :=
    Int64.toInt_ofNat_of_lt (Nat.lt_trans hnanos (by decide))
  have hfirst : (0 : Int64) ≤ .ofNat t.nanos := by
    rw [Int64.le_iff_toInt_le, hcount]
    exact Int.natCast_nonneg _
  have hlast : Int64.ofNat t.nanos ≤ 999999999 := by
    rw [Int64.le_iff_toInt_le, hcount]
    exact Int.ofNat_le.2 (Nat.le_of_lt_succ hnanos)
  refine toNanos_inj ?_
  rw [toUnix, toNanos_ofUnix hfirst hlast, hcount, toNanos]

end Timestamp

namespace FileTime

variable {t : Timestamp} {f : FileTime}

/-- The seconds of an instant rounded down, and the nanoseconds after them. -/
structure Floors (f : FileTime) (t : Timestamp) : Prop where
  seconds : f.seconds.toInt = t.toNanos / nanosPerSecond
  nanos : (f.nanos.toNat : Int) = t.toNanos % nanosPerSecond

theorem floors_iff : f.Floors t ↔ f.seconds = t.seconds ∧ f.nanos.toNat = t.nanos.val := by
  have hnanos := t.nanos.isLt
  have hdiv : t.toNanos / nanosPerSecond = t.seconds.toInt := by
    simp only [Timestamp.toNanos, nanosPerSecond] at hnanos ⊢
    omega
  have hmod : t.toNanos % nanosPerSecond = t.nanos.val := by
    simp only [Timestamp.toNanos, nanosPerSecond] at hnanos ⊢
    omega
  constructor
  · rintro ⟨hseconds, hrest⟩
    rw [hdiv] at hseconds
    rw [hmod] at hrest
    exact ⟨Int64.toInt_inj.1 hseconds, Int.ofNat_inj.1 hrest⟩
  · rintro ⟨hseconds, hrest⟩
    exact ⟨by rw [hseconds, hdiv], by rw [hrest, hmod]⟩

theorem instant_of_floors (h : f.Floors t) : f.instant = t := by
  obtain ⟨hseconds, hnanos⟩ := floors_iff.1 h
  rw [instant, hseconds, hnanos, Fin.ofNat_val_eq_self]

/-- Seconds and nanoseconds within a second that tell an instant are the floored ones. -/
theorem floors_of_toNanos (hwithin : f.nanos.toNat < nanosPerSecond)
    (htells : f.seconds.toInt * nanosPerSecond + f.nanos.toNat = t.toNanos) : f.Floors t := by
  simp only [nanosPerSecond] at hwithin htells
  refine ⟨?_, ?_⟩
  all_goals
    simp only [nanosPerSecond]
    omega

theorem floors_ofUnix (t : Timestamp) : (ofUnix t.toUnix).Floors t := by
  refine floors_iff.2 ⟨rfl, ?_⟩
  have hnanos := t.nanos.isLt
  rw [ofUnix, Timestamp.toUnix, Int64.toUInt64_ofNat', UInt64.toNat_toUInt32, UInt64.toNat_ofNat']
  simp only [nanosPerSecond] at hnanos
  omega

/-- The split of an instant that is some whole seconds and nanoseconds away from the epoch. -/
theorem ofTimestamp_eq {whole part : Nat} (hpart : part < nanosPerSecond)
    (hdistance : whole * nanosPerSecond + part = t.toNanos.natAbs) :
    ofTimestamp t =
      if 0 ≤ t.toNanos then ⟨.ofNat whole, .ofNat part⟩
      else if part = 0 then ⟨-.ofNat whole, 0⟩
      else ⟨-.ofNat whole - 1, 1000000000 - .ofNat part⟩ := by
  obtain ⟨hwhole, hrest⟩ : t.toNanos.natAbs / nanosPerSecond = whole ∧
      t.toNanos.natAbs % nanosPerSecond = part := by
    simp only [nanosPerSecond] at hpart hdistance ⊢
    omega
  have hzero : UInt32.ofNat part = 0 ↔ part = 0 := by
    rw [← UInt32.toNat_inj, UInt32.toNat_ofNat_of_lt' (Nat.lt_trans hpart (by decide))]
    rfl
  have hbefore : (!decide (t.toNanos < 0)) = true ↔ 0 ≤ t.toNanos := by simp
  rw [ofTimestamp, Timestamp.fromEpoch, Duration.ofParts, Nat.zero_add, hwhole]
  simp only [hrest, Nat.toUInt32_eq, Nat.toUInt64_eq, UInt64.toInt64_ofNat', hzero, hbefore]

theorem toInt_neg_ofNat {whole : Nat} (h : whole ≤ 9223372036854775808) :
    (-Int64.ofNat whole).toInt = -whole := by
  rw [← Int64.ofInt_eq_ofNat, ← Int64.ofInt_neg, Int64.toInt_ofInt_of_le (by omega) (by omega)]

theorem toInt_neg_ofNat_sub_one {whole : Nat} (h : whole < 9223372036854775808) :
    (-Int64.ofNat whole - 1).toInt = -whole - 1 := by
  rw [← Int64.ofInt_eq_ofNat, ← Int64.ofInt_neg]
  change (Int64.ofInt (-whole) - Int64.ofInt 1).toInt = _
  rw [← Int64.ofInt_sub, Int64.toInt_ofInt_of_le (by omega) (by omega)]

/-- What the distance to the epoch gives is the instant rounded down, also before the epoch. -/
theorem floors_ofTimestamp (t : Timestamp) : (ofTimestamp t).Floors t := by
  obtain ⟨whole, part, hpart, hdistance⟩ : ∃ whole part, part < nanosPerSecond ∧
      whole * nanosPerSecond + part = t.toNanos.natAbs :=
    ⟨_, _, Nat.mod_lt _ (by decide), Nat.div_add_mod' t.toNanos.natAbs nanosPerSecond⟩
  have hcount : (UInt32.ofNat part).toNat = part :=
    UInt32.toNat_ofNat_of_lt' (Nat.lt_trans hpart (by decide))
  have hlow := t.le_toNanos
  have hhigh := t.toNanos_lt
  rw [ofTimestamp_eq hpart hdistance]
  simp only [nanosPerSecond] at hdistance hpart hlow hhigh
  split
  next hafter =>
    refine floors_of_toNanos ?_ ?_
    · rw [hcount]
      exact hpart
    · rw [Int64.toInt_ofNat_of_lt (by omega), hcount]
      simp only [nanosPerSecond]
      omega
  next hbefore =>
    split
    next hexact =>
      refine floors_of_toNanos (Nat.zero_lt_succ _) ?_
      rw [toInt_neg_ofNat (by omega), UInt32.toNat_zero]
      simp only [nanosPerSecond]
      omega
    next hpast =>
      -- one second more is counted back, and what the distance lacks of it comes after that
      have hrest : (1000000000 - UInt32.ofNat part).toNat = 1000000000 - part := by
        rw [UInt32.toNat_sub_of_le, hcount]
        · rfl
        · rw [UInt32.le_iff_toNat_le, hcount]
          exact Nat.le_of_lt hpart
      refine floors_of_toNanos ?_ ?_
      · rw [hrest]
        exact Nat.sub_lt_of_pos_le (Nat.pos_of_ne_zero hpast) (Nat.le_of_lt hpart)
      · rw [toInt_neg_ofNat_sub_one (by omega), hrest]
        simp only [nanosPerSecond]
        omega

end FileTime
end InodeBridge
