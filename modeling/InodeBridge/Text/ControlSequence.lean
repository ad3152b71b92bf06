/-! # Control sequences

A terminal obeys some characters instead of showing them: the controls, and the sequences that an
escape character starts.  A text without them is what a stream that is no terminal gets.

White space is text, even between the characters of a sequence.  What follows it is text too, up to
the next control; there the sequence goes on.
-/
namespace InodeBridge.Text

/-- Where a reader is: outside all sequences, or inside one of some kind. -/
inductive SequenceState where
  | outside
  /-- After the escape character. -/
  | escape
  | escapeIntermediate
  /-- Inside a sequence that a letter ends. -/
  | control
  | deviceEntry
  | deviceParameter
  | deviceIntermediate
  /-- Inside a string that only its terminator ends. -/
  | string
  /-- Inside a command to the system, which a bell ends too. -/
  | command
  deriving DecidableEq, Repr

namespace SequenceState

def terminator : UInt8 := 0x9c

/-- The state after a character that does not start, or break off, a sequence. -/
def advance (s : SequenceState) (c : Char) : SequenceState :=
  match s with
  | outside => outside
  | escape =>
    if c = 'P' then deviceEntry
    else if c = 'X' ∨ c = '^' ∨ c = '_' then string
    else if c = '[' then control
    else if c = ']' then command
    else if ' ' ≤ c ∧ c ≤ '/' then escapeIntermediate
    else if '0' ≤ c ∧ c ≤ '~' then outside
    else escape
  | escapeIntermediate => if '0' ≤ c ∧ c ≤ '~' then outside else escapeIntermediate
  | control => if '@' ≤ c ∧ c ≤ '~' then outside else control
  | deviceEntry =>
    if ' ' ≤ c ∧ c ≤ '/' then deviceIntermediate
    else if '0' ≤ c ∧ c ≤ '?' then deviceParameter
    else if '@' ≤ c ∧ c ≤ '~' then string
    else deviceEntry
  | deviceParameter =>
    if ' ' ≤ c ∧ c ≤ '/' then deviceIntermediate
    else if '<' ≤ c ∧ c ≤ '~' then string
    else deviceParameter
  | deviceIntermediate => if '0' ≤ c ∧ c ≤ '~' then string else deviceIntermediate
  | string => if (String.utf8EncodeChar c).contains terminator then outside else string
  | command => if c = '\x07' then outside else command

/-- The state after a character.  An escape character starts a sequence anywhere, and two of the
controls break one off. -/
def next (s : SequenceState) (c : Char) : SequenceState :=
  if c = '\x1b' then escape
  else if c = '\x18' ∨ c = '\x1a' then outside
  else s.advance c

end SequenceState

def isSpacing (c : Char) : Bool := c = '\t' || c = '\n' || c = '\x0c' || c = '\r'

def isText (s : SequenceState) (c : Char) : Bool :=
  match s with
  | .outside => isSpacing c || (' ' ≤ c && c ≠ '\x7f')
  | .escape | .escapeIntermediate | .control => isSpacing c
  | _ => false

/-- The text among some characters, from a state on.  While text is copied the state is kept, until
a character that would not be text outside of sequences. -/
def keepText : SequenceState → Bool → List Char → List Char
  | _, _, [] => []
  | s, copying, c :: cs =>
    if copying && isText .outside c then
      c :: keepText (if c.toNat < 0x80 then s else .outside) true cs
    else if isText s c then c :: keepText (s.next c) true cs
    else keepText (s.next c) false cs

def withoutControls (s : String) : String := String.ofList (keepText .outside true s.toList)

end InodeBridge.Text
