import InodeBridge.Bytes

/-! # Reading bytes as text

A reader takes the bytes one by one.  Bytes that cannot belong to a character are passed over as
soon as that is known, and each stretch of them counts as one defect.
-/
namespace InodeBridge.Text

/-- Where a reader is: at the start of a character, or inside one that needs more bytes, the next of
them in a range, with the bits read so far. -/
inductive Utf8State where
  | start
  | inside (needed : Nat) (low high : UInt8) (bits : Nat)

/-- The characters, or defects, that a byte ends, and the state after it. -/
abbrev Utf8Step := List (Option Char) × Utf8State

def leadByte (b : UInt8) : Utf8Step :=
  let n := b.toNat
  if b ≤ 0x7f then ([some (Char.ofNat n)], .start)
  else if b < 0xc2 then ([none], .start)
  else if b ≤ 0xdf then ([], .inside 1 0x80 0xbf (n - 0xc0))
  else if b ≤ 0xef then
    let low : UInt8 := if b = 0xe0 then 0xa0 else 0x80
    let high : UInt8 := if b = 0xed then 0x9f else 0xbf
    ([], .inside 2 low high (n - 0xe0))
  else if b ≤ 0xf4 then
    let low : UInt8 := if b = 0xf0 then 0x90 else 0x80
    let high : UInt8 := if b = 0xf4 then 0x8f else 0xbf
    ([], .inside 3 low high (n - 0xf0))
  else ([none], .start)

def Utf8State.read (state : Utf8State) (b : UInt8) : Utf8Step :=
  match state with
  | .start => leadByte b
  | .inside needed low high bits =>
    if low ≤ b ∧ b ≤ high then
      let bits := bits * 64 + (b.toNat - 0x80)
      if needed ≤ 1 then ([some (Char.ofNat bits)], .start)
      else ([], .inside (needed - 1) 0x80 0xbf bits)
    else
      let (out, state) := leadByte b
      (none :: out, state)

/-- The characters of some bytes, none for each defect. -/
def readUtf8 : Utf8State → Bytes → List (Option Char)
  | .start, [] => []
  | .inside .., [] => [none]
  | state, b :: rest =>
    let (out, state) := state.read b
    out ++ readUtf8 state rest

/-- The text of which some bytes are the UTF-8 form. -/
def ofUtf8? (bs : Bytes) : Option String :=
  ((readUtf8 .start bs).mapM id).map String.ofList

/-- The text of some bytes, with the replacement character for each defect. -/
def ofUtf8Lossy (bs : Bytes) : String :=
  String.ofList ((readUtf8 .start bs).map (·.getD '\ufffd'))

end InodeBridge.Text
