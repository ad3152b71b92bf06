import InodeBridge.Time

/-! # Instants between kernel and session

An instant is sent as its distance from the epoch in seconds and nanoseconds, and the seconds are
negated before the epoch.  The nanoseconds are not, so that an instant in the second before the
epoch reads like one in the second after it.
-/
namespace InodeBridge.Kernel

structure WireTime where
  seconds : Int64
  nanos : UInt32
  deriving DecidableEq, Repr

namespace WireTime

def ofTimestamp (t : Timestamp) : WireTime :=
  let (before, distance) := t.fromEpoch
  let seconds := distance.seconds.toInt64
  ⟨if before then -seconds else seconds, distance.nanos.val.toUInt32⟩

/-- The instant that is read; the epoch if it cannot be counted. -/
def toTimestamp (w : WireTime) : Timestamp :=
  let distance := Duration.ofParts w.seconds.toInt.natAbs w.nanos.toNat
  let epoch := Timestamp.epoch
  (if 0 ≤ w.seconds then epoch.add? distance else epoch.sub? distance).getD epoch

end WireTime

/-- A new stamp for an object: a given instant, or that of the request. -/
inductive Stamp where
  | now
  | at (time : WireTime)
  deriving DecidableEq, Repr

def Stamp.toTimestamp (clock : Timestamp) : Stamp → Timestamp
  | .now => clock
  | .at time => time.toTimestamp

end InodeBridge.Kernel
