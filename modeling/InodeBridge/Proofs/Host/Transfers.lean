import InodeBridge.HostStorage
import InodeBridge.Proofs.Host.Contents
import InodeBridge.Proofs.Host.Operations
import Mathlib.Logic.Relation

/-! # Reads in pieces

A host may interrupt an attempt to read, and may move fewer bytes than it was asked for.  A read goes on
round by round behind the bytes it has, which are always the first of those it wants; so it ends with
all of them, or fails with the first failure that it meets on the way.
-/
namespace InodeBridge.HostStorage

open Host (ObjectId Content positionLimit)

variable {h : Host} {object : ObjectId} {offset size : Nat} {content : Content} {image : Bytes}
  {transfers rest : List Transfer} {filled data : Bytes}

/-- A round after which a read goes on: it is interrupted, or moves a byte and perhaps some more. -/
inductive Round (h : Host) (object : ObjectId) (offset size : Nat) :
    List Transfer × Bytes → List Transfer × Bytes → Prop
  | interrupted {transfers : List Transfer} {filled : Bytes} (wants : filled.length < size) :
    Round h object offset size (.interrupted :: transfers, filled) (transfers, filled)
  | moved {more : Nat} {transfers : List Transfer} {filled : Bytes} {b : UInt8} {bs : Bytes}
    (wants : filled.length < size)
    (piece : h.pread object (offset + filled.length) (size - filled.length) = .ok (b :: bs)) :
    Round h object offset size (.oneAnd more :: transfers, filled)
      (transfers, filled ++ b :: bs.take more)

abbrev Rounds (h : Host) (object : ObjectId) (offset size : Nat) :
    List Transfer × Bytes → List Transfer × Bytes → Prop :=
  Relation.ReflTransGen (Round h object offset size)

/-- How a read ends, and with what: it has enough bytes, an attempt fails or finds no more bytes, or the
host moves all there is. -/
inductive Ends (h : Host) (object : ObjectId) (offset size : Nat) :
    List Transfer × Bytes → Except Errno Bytes → Prop
  | full {transfers : List Transfer} {filled : Bytes} (enough : size ≤ filled.length) :
    Ends h object offset size (transfers, filled) (.ok filled)
  | failed {rest : List Transfer} {filled : Bytes} {e : Errno} (wants : filled.length < size) :
    Ends h object offset size (.failed e :: rest, filled) (.error e)
  | refused {transfers : List Transfer} {filled : Bytes} {e : Errno} (wants : filled.length < size)
    (piece : h.pread object (offset + filled.length) (size - filled.length) = .error e) :
    Ends h object offset size (transfers, filled) (.error e)
  | exhausted {more : Nat} {rest : List Transfer} {filled : Bytes} (wants : filled.length < size)
    (piece : h.pread object (offset + filled.length) (size - filled.length) = .ok []) :
    Ends h object offset size (.oneAnd more :: rest, filled) (.ok filled)
  | whole {filled bytes : Bytes} (wants : filled.length < size)
    (piece : h.pread object (offset + filled.length) (size - filled.length) = .ok bytes) :
    Ends h object offset size ([], filled) (.ok (filled ++ bytes))

theorem exists_ends (h : Host) (object : ObjectId) (offset size : Nat) (transfers : List Transfer)
    (filled : Bytes) :
    ∃ last, Rounds h object offset size (transfers, filled) last ∧
      Ends h object offset size last (readOn h object offset size transfers filled).1 := by
  fun_induction readOn h object offset size transfers filled with
  | case1 transfers filled enough => exact ⟨_, .refl, .full enough⟩
  | case2 filled wants transfers ih =>
    obtain ⟨last, hrounds, hends⟩ := ih
    exact ⟨last, .head (.interrupted (Nat.not_le.1 wants)) hrounds, hends⟩
  | case3 filled wants e rest => exact ⟨_, .refl, .failed (Nat.not_le.1 wants)⟩
  | case4 filled wants _ more rest e piece => exact ⟨_, .refl, .refused (Nat.not_le.1 wants) piece⟩
  | case5 filled wants _ more rest piece => exact ⟨_, .refl, .exhausted (Nat.not_le.1 wants) piece⟩
  | case6 filled wants _ more rest b bs piece ih =>
    obtain ⟨last, hrounds, hends⟩ := ih
    exact ⟨last, .head (.moved (Nat.not_le.1 wants) piece) hrounds, hends⟩
  | case7 filled wants attempt =>
    refine ⟨_, .refl, ?_⟩
    cases hpiece : attempt with
    | ok bytes => exact .whole (Nat.not_le.1 wants) hpiece
    | error e => exact .refused (Nat.not_le.1 wants) hpiece

/-- A read that starts with nothing meets a failure while it wants more bytes. -/
def MeetsFailure (h : Host) (object : ObjectId) (offset size : Nat) (transfers : List Transfer)
    (e : Errno) : Prop :=
  ∃ rest filled, Rounds h object offset size (transfers, []) (.failed e :: rest, filled) ∧
    filled.length < size

/-- A read goes on after a round as if it began there. -/
theorem Round.readOn_eq {before after : List Transfer × Bytes}
    (hround : Round h object offset size before after) :
    readOn h object offset size before.1 before.2 = readOn h object offset size after.1 after.2 := by
  cases hround with
  | interrupted wants => rw [readOn, if_neg (Nat.not_le.2 wants)]
  | moved wants piece =>
    rw [readOn, if_neg (Nat.not_le.2 wants)]
    simp only [piece]

theorem Rounds.readOn_eq {before after : List Transfer × Bytes}
    (hrounds : Rounds h object offset size before after) :
    readOn h object offset size before.1 before.2 = readOn h object offset size after.1 after.2 := by
  induction hrounds with
  | refl => rfl
  | tail _ hround ih => exact ih.trans hround.readOn_eq

theorem readOn_failed {e : Errno} (wants : filled.length < size) :
    readOn h object offset size (.failed e :: rest) filled = (.error e, rest) := by
  rw [readOn, if_neg (Nat.not_le.2 wants)]

section File

variable (hfile : h.content? object = some content) (hholds : content.Holds image)

include hfile

theorem checkPosition_eq (hlimit : offset < positionLimit) :
    h.checkPosition object offset = .ok () := by
  rw [Host.checkPosition, if_neg (Nat.not_le.2 hlimit), Host.isStream, Host.node?_of_content? hfile]
  rfl

include hholds

/-- Within the positions there are, a file gives what its image has there. -/
theorem pread_eq (hlimit : offset + size < positionLimit) :
    h.pread object offset size = .ok ((image.drop offset).take size) := by
  have hposition : h.checkPosition object offset = .ok () := checkPosition_eq hfile (by omega)
  rw [Host.pread, hposition]
  change (if _ then _ else _) = _
  rw [if_neg (Nat.not_le.2 hlimit), ← hholds.read_eq, Host.node?_of_content? hfile]

theorem pread_eq_ok (hread : h.pread object offset size = .ok data) :
    data = (image.drop offset).take size := by
  by_cases hlimit : offset + size < positionLimit
  · rw [pread_eq hfile hholds hlimit] at hread
    exact (Except.ok.inj hread).symm
  · obtain ⟨_, _, hrest⟩ := bind_eq_ok.1 hread
    rw [if_pos (Nat.not_lt.1 hlimit)] at hrest
    cases hrest

/-- Behind the first of the bytes that are wanted, a file gives the others. -/
theorem pread_rest
    (hread : h.pread object (offset + filled.length) (size - filled.length) = .ok data) :
    data = ((image.drop offset).take size).drop filled.length := by
  rw [pread_eq_ok hfile hholds hread, List.drop_take, List.drop_drop]

/-- After every round the bytes that a read has are the first of those it wants. -/
theorem Round.filled_isPrefix {before after : List Transfer × Bytes}
    (hround : Round h object offset size before after)
    (hbefore : before.2 <+: (image.drop offset).take size) :
    after.2 <+: (image.drop offset).take size := by
  cases hround with
  | interrupted => exact hbefore
  | @moved more _ filled b bs wants piece =>
    have hrest := pread_rest hfile hholds piece
    rw [List.prefix_iff_eq_append] at hbefore
    rw [← hbefore, ← hrest, List.prefix_append_right_inj]
    exact List.take_prefix (more + 1) (b :: bs)

theorem Rounds.filled_isPrefix {before after : List Transfer × Bytes}
    (hrounds : Rounds h object offset size before after)
    (hbefore : before.2 <+: (image.drop offset).take size) :
    after.2 <+: (image.drop offset).take size := by
  induction hrounds with
  | refl => exact hbefore
  | tail _ hround ih => exact hround.filled_isPrefix hfile hholds ih

theorem readOn_eq_ok (hread : (readOn h object offset size transfers []).1 = .ok data) :
    data = (image.drop offset).take size := by
  obtain ⟨last, hrounds, hends⟩ := exists_ends h object offset size transfers []
  have hfilled := hrounds.filled_isPrefix hfile hholds List.nil_prefix
  rw [hread] at hends
  -- the bytes at hand are all that are wanted if none of those is behind them
  cases hends with
  | full enough =>
    rw [List.prefix_iff_eq_append, List.drop_eq_nil_of_le, List.append_nil] at hfilled
    · exact hfilled
    · exact Nat.le_trans (List.length_take_le size _) enough
  | exhausted wants piece =>
    rw [List.prefix_iff_eq_append, ← pread_rest hfile hholds piece, List.append_nil] at hfilled
    exact hfilled
  | whole wants piece =>
    rw [List.prefix_iff_eq_append, ← pread_rest hfile hholds piece] at hfilled
    exact hfilled

/-- Within the positions there are, a read fails exactly if it meets a failure on the way, and with
that. -/
theorem readOn_eq_error_iff (hlimit : offset + size < positionLimit) {e : Errno} :
    (readOn h object offset size transfers []).1 = .error e ↔
      MeetsFailure h object offset size transfers e := by
  constructor
  · intro hread
    obtain ⟨last, hrounds, hends⟩ := exists_ends h object offset size transfers []
    rw [hread] at hends
    cases hends with
    | failed wants => exact ⟨_, _, hrounds, wants⟩
    | refused wants piece =>
      rw [pread_eq hfile hholds (by omega)] at piece
      cases piece
  · rintro ⟨rest, filled, hrounds, wants⟩
    rw [hrounds.readOn_eq, readOn_failed wants]

theorem Rounds.position_eq {offset : UInt64} {size : UInt32}
    (hlimit : offset.toNat < positionLimit)
    (hrounds : Rounds h object offset.toNat size.toNat (transfers, []) (rest, filled)) :
    (offset + filled.length.toUInt64).toNat = offset.toNat + filled.length := by
  have hlength := (hrounds.filled_isPrefix hfile hholds List.nil_prefix).length_le
  have hsize := size.toNat_lt
  dsimp only at hlength
  rw [List.length_take] at hlength
  rw [positionLimit] at hlimit
  rw [UInt64.toNat_add, Nat.toUInt64_eq, UInt64.toNat_ofNat']
  omega

end File

end InodeBridge.HostStorage
