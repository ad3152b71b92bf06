import InodeBridge.Bytes

/-! # Contents of files

A content has a length and the stretches of bytes that were written to it, the last one first.  What
no stretch covers reads as zeros, so a long file with little in it stays small.
-/
namespace InodeBridge.Host

structure Stretch where
  offset : Nat
  bytes : Bytes
  deriving DecidableEq, Repr

namespace Stretch

def get? (s : Stretch) (i : Nat) : Option UInt8 :=
  if s.offset ≤ i then s.bytes[i - s.offset]? else none

def before (s : Stretch) (length : Nat) : Stretch :=
  { s with bytes := s.bytes.take (length - s.offset) }

/-- The bytes from a place on, with those of the stretch in their places. -/
def overlay (s : Stretch) (start : Nat) (window : Bytes) : Bytes :=
  let kept := s.offset - start
  let laid := (s.bytes.drop (start - s.offset)).take (window.length - kept)
  window.take kept ++ laid ++ window.drop (kept + laid.length)

end Stretch

structure Content where
  length : Nat
  stretches : List Stretch
  deriving DecidableEq, Repr

namespace Content

def empty : Content := ⟨0, []⟩

/-- The byte at a place, zero where nothing was written. -/
def byte (c : Content) (i : Nat) : UInt8 := (c.stretches.findSome? (·.get? i)).getD 0

/-- Up to a number of bytes from a place on, none of them after the end. -/
def read (c : Content) (offset size : Nat) : Bytes :=
  let zeros := List.replicate (min size (c.length - offset)) 0
  c.stretches.foldr (fun s window => s.overlay offset window) zeros

/-- The content with some bytes written over it at a place; it grows if they go beyond its end. -/
def write (c : Content) (offset : Nat) (bytes : Bytes) : Content :=
  if bytes.isEmpty then c
  else ⟨max c.length (offset + bytes.length), ⟨offset, bytes⟩ :: c.stretches⟩

def resize (c : Content) (length : Nat) : Content :=
  ⟨length, c.stretches.map (·.before length)⟩

end Content
end InodeBridge.Host
