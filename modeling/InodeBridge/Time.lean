/-! # Durations and instants

A duration counts seconds and nanoseconds.  An instant counts them forward from the Unix epoch, so
half a second before the epoch is the second `-1` with half a billion nanoseconds.
-/
namespace InodeBridge

abbrev nanosPerSecond : Nat := 1000000000

structure Duration where
  seconds : UInt64
  nanos : Fin nanosPerSecond
  deriving DecidableEq, Repr

namespace Duration

def zero : Duration := ⟨0, 0⟩

instance : Inhabited Duration := ⟨zero⟩

def toNanos (d : Duration) : Nat := d.seconds.toNat * nanosPerSecond + d.nanos

/-- The span of some seconds and nanoseconds; whole seconds among the latter are carried. -/
def ofParts (seconds nanos : Nat) : Duration where
  seconds := (seconds + nanos / nanosPerSecond).toUInt64
  nanos := ⟨nanos % nanosPerSecond, Nat.mod_lt _ (by decide)⟩

def ofMillis (ms : UInt64) : Duration where
  seconds := ms / 1000
  nanos := ⟨(ms.toNat % 1000) * 1000000, by
    have : ms.toNat % 1000 < 1000 := Nat.mod_lt _ (by decide)
    simp only [nanosPerSecond]
    omega⟩

end Duration

structure Timestamp where
  seconds : Int64
  nanos : Fin nanosPerSecond
  deriving DecidableEq, Repr

namespace Timestamp

def epoch : Timestamp := ⟨0, 0⟩

instance : Inhabited Timestamp := ⟨epoch⟩

def toNanos (t : Timestamp) : Int := t.seconds.toInt * nanosPerSecond + t.nanos

/-- The instant that many nanoseconds after the epoch, if its second can be counted. -/
def ofNanos? (n : Int) : Option Timestamp :=
  let second := n.fdiv nanosPerSecond
  if Int64.minValue.toInt ≤ second ∧ second ≤ Int64.maxValue.toInt then
    some ⟨Int64.ofInt second, ⟨(n.fmod nanosPerSecond).toNat, by
      have h₀ : 0 ≤ n.fmod nanosPerSecond := Int.fmod_nonneg_of_pos n (by decide)
      have h₁ : n.fmod nanosPerSecond < nanosPerSecond := Int.fmod_lt_of_pos n (by decide)
      omega⟩⟩
  else none

def add? (t : Timestamp) (d : Duration) : Option Timestamp := ofNanos? (t.toNanos + d.toNanos)

def sub? (t : Timestamp) (d : Duration) : Option Timestamp := ofNanos? (t.toNanos - d.toNanos)

/-- The instant that a host gives as seconds from the epoch and nanoseconds after them, reached from
the epoch by whole seconds first; nanoseconds outside a second are moved to its nearer end. -/
def ofUnix? (seconds nanos : Int64) : Option Timestamp :=
  let fraction : Fin nanosPerSecond := Fin.ofNat _ (min nanos.toInt.toNat (nanosPerSecond - 1))
  if 0 ≤ seconds then epoch.add? ⟨seconds.toUInt64, fraction⟩
  else (epoch.sub? ⟨seconds.toInt.natAbs.toUInt64, 0⟩).bind (·.add? ⟨0, fraction⟩)

def ofUnix (seconds nanos : Int64) : Timestamp := (ofUnix? seconds nanos).getD epoch

/-- Whether an instant is before the epoch, and how far from it. -/
def fromEpoch (t : Timestamp) : Bool × Duration :=
  let n := t.toNanos
  (n < 0, Duration.ofParts 0 n.natAbs)

/-- The seconds an instant is rounded down to, and the nanoseconds after them. -/
def toUnix (t : Timestamp) : Int64 × Int64 := (t.seconds, Int64.ofNat t.nanos)

end Timestamp

/-- A time as a host is given it for a stamp. -/
structure FileTime where
  seconds : Int64
  nanos : UInt32
  deriving DecidableEq, Repr

namespace FileTime

def instant (t : FileTime) : Timestamp := ⟨t.seconds, Fin.ofNat _ t.nanos.toNat⟩

def ofUnix (unix : Int64 × Int64) : FileTime := ⟨unix.1, unix.2.toUInt64.toUInt32⟩

/-- The seconds an instant is rounded down to and the nanoseconds after them, from its distance to
the epoch: before that, nanoseconds of the distance are what the instant lacks of one more second. -/
def ofTimestamp (t : Timestamp) : FileTime :=
  let (before, distance) := t.fromEpoch
  let seconds := distance.seconds.toInt64
  let nanos := distance.nanos.val.toUInt32
  if !before then ⟨seconds, nanos⟩
  else if nanos = 0 then ⟨-seconds, 0⟩
  else ⟨-seconds - 1, 1000000000 - nanos⟩

end FileTime
end InodeBridge
