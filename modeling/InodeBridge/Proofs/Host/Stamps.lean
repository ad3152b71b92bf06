import InodeBridge.Proofs.HandleTable
import InodeBridge.Proofs.Host.Attributes

/-! # Stamps that are set and read back

A stamp is set as seconds and nanoseconds and read back as an instant, and on neither side of the epoch
is anything lost either way.  So what is described after stamps were set has the instants that were
given, and is otherwise as it was.
-/
namespace InodeBridge

namespace Host

variable {h : Host} {id : ObjectId} {f : Object → Object}

/-- An object that changes and names what it named before leaves all named objects as they were. -/
theorem namedObjects_alter (hf : ∀ o, (f o).node = o.node) :
    (h.alter id f).namedObjects.Perm h.namedObjects := by
  rw [namedObjects, namedObjects, alter, FiniteMap.modify]
  cases ho : h.objects.get? id with
  | none => exact .refl _
  | some o =>
    -- the changed object is put first, and where it was the rest has closed up
    refine .trans ?_ ((FiniteMap.entries_perm_erase ho).symm.flatMap_right _)
    simp only [FiniteMap.insert, List.flatMap_cons, hf]
    exact .refl _

/-- An object that changes and names what it named before keeps its links, and so do the others. -/
theorem links_alter (hf : ∀ o, (f o).node = o.node) (x : ObjectId) :
    (h.alter id f).links x = h.links x := by
  have same : h.SameOutline (h.alter id f) := .alter h id fun o => by rw [hf]
  have hdirectory : (h.alter id f).isDirectory = h.isDirectory := funext fun _ => same.isDirectory_eq
  rw [links, entries?_of_outline (same.outline_eq x), hdirectory, links]
  split
  · rfl
  · exact ((namedObjects_alter hf).filter _).length_eq

end Host

namespace HostStorage

open Host (ObjectId Object)

variable {path : Path} {s : HostStorage}

theorem stamp_eq (t : Timestamp) : statOf.stamp t = t := Timestamp.ofUnix_toUnix t

/-- Stamps that were set are told as given, and so is the time at which that was; all else is told as
before. -/
theorem statOf_setTimes (h : Host) (id : ObjectId) (o : Object) (path : Path)
    (accessed modified : Option Timestamp) :
    let f := reattributed h.clock (.setTimes path accessed modified)
    statOf (h.alter id f) id (f o) =
      { statOf h id o with
        accessed := accessed.getD (statOf h id o).accessed
        modified := modified.getD (statOf h id o).modified
        changed := h.clock } := by
  intro f
  have hlinks : (h.alter id f).links id = h.links id := Host.links_alter (f := f) (fun _ => rfl) id
  rw [statOf, statOf, hlinks]
  simp only [stamp_eq]
  rfl

/-- Where an object is described, its stamps can be set, and it is then described with them. -/
theorem answer_stat_setTimes {stat : Stat} (hstat : answer (.stat path) s = (.ok stat, s))
    (accessed modified : Option Timestamp) :
    ∃ host, setTimes s.host path accessed modified = .ok host ∧
      answer (.stat path) { s with host } =
        (.ok { stat with
          accessed := accessed.getD stat.accessed
          modified := modified.getD stat.modified
          changed := s.host.clock }, { s with host }) := by
  obtain ⟨_, id, o, hlookup, rfl⟩ := stat_eq_ok hstat
  obtain ⟨hfind, ho⟩ := Host.lookup_eq_ok_iff.1 hlookup
  have hset := setTimes_eq s.host path accessed modified
  rw [hlookup] at hset
  refine ⟨_, hset, ?_⟩
  have same := Host.SameOutline.alter s.host id
    (reattributed_outline s.host.clock (.setTimes path accessed modified))
  have hafter := Host.lookup_eq_ok_iff.2 ⟨(same.find_eq .keep path).trans hfind,
    (Host.object?_alter s.host _).trans (by rw [ho, Option.map_some, if_pos rfl])⟩
  exact (answer_stat hafter).trans (by rw [statOf_setTimes])

/-- Seconds and nanoseconds within a second tell the instant they add up to, without overflow and so in
their own order.  If instants are rounded down where they are split, stamps that are set are described as
they were given, and those that are not as before. -/
theorem stamps_read_back_as_set {split : Timestamp → FileTime} (floors : ∀ t, (split t).Floors t) :
    (∀ seconds nanos : Int64, 0 ≤ nanos → nanos ≤ 999999999 →
      ∃ t, Timestamp.ofUnix? seconds nanos = some t ∧
        t.toNanos = seconds.toInt * nanosPerSecond + nanos.toInt) ∧
    (∀ seconds nanos seconds' nanos' : Int64, 0 ≤ nanos → nanos ≤ 999999999 →
      0 ≤ nanos' → nanos' ≤ 999999999 →
      ((Timestamp.ofUnix seconds nanos).toNanos < (Timestamp.ofUnix seconds' nanos').toNanos ↔
        seconds < seconds' ∨ seconds = seconds' ∧ nanos < nanos')) ∧
    ∀ root path s stat, (serving root).perform (.stat path) s = (.ok stat, s) →
      ∀ accessed modified, ∃ host,
        setTimesBy split s.host path accessed modified = .ok host ∧
        (serving root).perform (.setTimes path accessed modified) s = (.ok (), { s with host }) ∧
        (serving root).perform (.stat path) { s with host } =
          (.ok { stat with
            accessed := accessed.getD stat.accessed
            modified := modified.getD stat.modified
            changed := s.host.clock }, { s with host }) := by
  refine ⟨fun seconds nanos => Timestamp.ofUnix?_eq_some seconds, ?_, ?_⟩
  · intro seconds nanos seconds' nanos' hnonneg hwithin hnonneg' hwithin'
    exact Timestamp.toNanos_ofUnix_lt_iff hnonneg hwithin hnonneg' hwithin'
  · intro root path s stat hstat accessed modified
    obtain ⟨hpath, hstat⟩ := serving_eq_ok hstat
    obtain ⟨host, hset, hafter⟩ := answer_stat_setTimes hstat accessed modified
    refine ⟨host, ?_, ?_, ?_⟩
    · rw [setTimesBy_eq floors, ← setTimes_eq, hset]
    · have hsettable : (pathsOf (.setTimes path accessed modified)).all isReadable = true := hpath
      rw [serving_perform root hsettable, answer, hset]
      rfl
    · rw [serving_perform root hpath, hafter]

/-- A file that was written a quarter of a second before the epoch keeps that stamp when the other is set
to the end of the first second that is counted. -/
theorem stamps_before_epoch_read_back :
    let root : Path := ⟨[slash]⟩
    let path : Path := ⟨[slash, 0x61]⟩
    let written : Timestamp := ⟨-1, 750000000⟩
    let first : Timestamp := ⟨Int64.minValue, 999999999⟩
    let s := (answer (.create path 0o644) (.new (Host.fresh 0 written .fallback))).2
    let stat : Stat := ⟨.regular, 0, 0, written, written, written, 0o644, 1, ⟨0, 0⟩, 0, 4096⟩
    Timestamp.ofUnix? Int64.minValue 999999999 = some first ∧
    FileTime.ofTimestamp first = ⟨Int64.minValue, 999999999⟩ ∧
    FileTime.ofTimestamp written = ⟨-1, 750000000⟩ ∧
    (Timestamp.ofUnix (-1) 999999999).toNanos < (Timestamp.ofUnix 0 0).toNanos ∧
    (serving root).perform (.stat path) s = (.ok stat, s) ∧
    ∃ host, setTimesBy .ofTimestamp s.host path (some first) none = .ok host ∧
      (serving root).perform (.stat path) { s with host } =
        (.ok { stat with accessed := first }, { s with host }) := by
  intro root path written first s stat
  obtain ⟨hcounts, horder, hback⟩ := stamps_read_back_as_set FileTime.floors_ofTimestamp
  have hstat : (serving root).perform (.stat path) s = (.ok stat, s) := by
    have hpath : (pathsOf (.stat path)).all isReadable = true := by decide
    have htold : (s.host.lookup path).map (fun found => statOf s.host found.1 found.2) = .ok stat := by
      decide +kernel
    exact (serving_perform root hpath s).trans (congrArg s.ask htold)
  obtain ⟨t, ht, hnanos⟩ := hcounts Int64.minValue 999999999 (by decide) (by decide)
  obtain rfl : t = first := Timestamp.toNanos_inj (hnanos.trans (by decide +kernel))
  obtain ⟨host, hset, _, hafter⟩ := hback root path s stat hstat (some first) none
  have hbefore := (horder (-1) 999999999 0 0 (by decide) (by decide) (by decide) (by decide)).2
    (.inl (by decide))
  exact ⟨ht, by decide +kernel, by decide +kernel, hbefore, hstat, host, hset, hafter⟩

end HostStorage
end InodeBridge
