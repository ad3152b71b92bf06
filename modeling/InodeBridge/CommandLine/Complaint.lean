import InodeBridge.CommandLine.Parameter
import InodeBridge.Text.ControlSequence

/-! # What can be wrong with a command line

A complaint is shown in paragraphs: what is wrong, perhaps a tip and how to call the program, and
where to find help.
-/
namespace InodeBridge.CommandLine

inductive NumberDefect where
  | empty
  | badDigit
  | tooLarge
  deriving DecidableEq, Repr

def NumberDefect.message : NumberDefect → String
  | .empty => "cannot parse integer from empty string"
  | .badDigit => "invalid digit found in string"
  | .tooLarge => "number too large to fit in target type"

inductive Complaint where
  /-- One more path than there are places for. -/
  | surplus (argument : String)
  | unknownLetter (argument : String)
  | unknownLong (argument : String) (used : List Parameter)
  /-- An unknown long name that is like a known one. -/
  | misspelled (argument similar : String) (used : List Parameter)
  | repeated (parameter : Parameter)
  | valueMissing (parameter : Parameter)
  | valueUnneeded (parameter : Parameter) (value : String) (used : List Parameter)
  | notNumber (parameter : Parameter) (value : String) (defect : NumberDefect)
  /-- A value that should be a text and is not. -/
  | notText
  | notChoice (parameter : Parameter) (value : String) (similar : Option String)
  | missing (parameters used : List Parameter)
  deriving DecidableEq, Repr

namespace Complaint

/-- A text as a complaint quotes it; it may hold anything that was given as an argument. -/
def quoted (text : String) : String := "'" ++ Text.withoutControls text ++ "'"

def choicesLine (p : Parameter) : String :=
  if p.choices.isEmpty then ""
  else "\n  [possible values: " ++ String.intercalate ", " p.choices ++ "]"

def valueTip (argument : String) : String :=
  "  tip: to pass " ++ quoted argument ++ " as a value, use " ++ quoted ("-- " ++ argument)

def unexpected (argument : String) : String :=
  "unexpected argument " ++ quoted argument ++ " found"

def invalidValue (p : Parameter) (value : String) : String :=
  "invalid value " ++ quoted value ++ " for " ++ quoted p.display

def paragraphs : Complaint → List String
  | surplus argument => [unexpected argument, usage []]
  | unknownLetter argument => [unexpected argument, valueTip argument, usage []]
  | unknownLong argument used => [unexpected argument, valueTip argument, usage used]
  | misspelled argument similar used =>
    [unexpected argument, "  tip: a similar argument exists: " ++ quoted similar, usage used]
  | repeated p =>
    ["the argument " ++ quoted p.display ++ " cannot be used multiple times", usage []]
  | valueMissing p =>
    ["a value is required for " ++ quoted p.display ++ " but none was supplied" ++ choicesLine p]
  | valueUnneeded p value used =>
    ["unexpected value " ++ quoted value ++ " for " ++ quoted p.display ++
      " found; no more were expected", usageWith used p]
  | notNumber p value defect => [invalidValue p value ++ ": " ++ defect.message]
  | notText => ["invalid UTF-8 was detected in one or more arguments", usage []]
  | notChoice p value similar =>
    [invalidValue p value ++ choicesLine p] ++
      similar.toList.map fun s => "  tip: a similar value exists: " ++ quoted s
  | missing ps used =>
    ["the following required arguments were not provided:" ++
      String.join (ps.map fun p => "\n  " ++ p.display), usage (used ++ ps)]

def message (c : Complaint) : String :=
  let all := c.paragraphs ++ ["For more information, try " ++ quoted "--help" ++ "."]
  "error: " ++ String.intercalate "\n\n" all ++ "\n"

end Complaint
end InodeBridge.CommandLine
