import InodeBridge.CommandLine.Parameter

/-! # Help

The short help has one row for each parameter: how it is spelled, and next to it what it is for.
The full help gives each parameter some lines of its own.
-/
namespace InodeBridge.CommandLine

def lineWidth : Nat := 100

/-- Breaks words into lines of at most a width; a longer word gets a line of its own. -/
def wrapWords (width : Nat) (words : List String) : List String :=
  (words.foldl (fun lines word =>
    match lines with
    | [] => [word]
    | line :: above =>
      if line.length + 1 + word.length ≤ width then (line ++ " " ++ word) :: above
      else word :: line :: above) []).reverse

def blanks (n : Nat) : String := String.ofList (List.replicate n ' ')

namespace Parameter

def heading (p : Parameter) : String :=
  match p.short?, p.isPositional with
  | some letter, _ => "-" ++ letter.toString ++ ", " ++ p.display
  | none, true => p.display
  | none, false => blanks 4 ++ p.display

/-- What a parameter is for; each help refers to the other. -/
def explanation (p : Parameter) (full : Bool) : String :=
  if p = .help then
    p.purpose ++ (if full then " (see a summary with '-h')" else " (see more with '--help')")
  else p.purpose

def defaultRemark (p : Parameter) : List String :=
  p.default?.toList.map fun value => "[default: " ++ value ++ "]"

def choicesRemark (p : Parameter) : List String :=
  if p.choices.isEmpty then []
  else ["[possible values: " ++ String.intercalate ", " p.choices ++ "]"]

def row (column : Nat) (p : Parameter) : String :=
  let parts := [p.explanation false] ++ p.defaultRemark ++ p.choicesRemark
  let words := (String.intercalate " " parts).splitOn " "
  let lines := wrapWords (lineWidth - (column + 4)) words
  "  " ++ p.heading ++ blanks (column - p.heading.length) ++ "  " ++
    String.intercalate ("\n" ++ blanks (column + 4)) lines

def choiceList (p : Parameter) : List String :=
  if p.choices.isEmpty then []
  else
    let column := (policies.map (·.1.length)).foldl max 0
    let line (name meaning : String) : String :=
      "- " ++ name ++ ":" ++ blanks (column - name.length + 1) ++ meaning
    ["Possible values:"] ++ policies.map fun (name, _, meaning) => line name meaning

def block (p : Parameter) : String :=
  let margin := "\n" ++ blanks 10
  let choices := p.choiceList.map (margin ++ ·)
  String.join (["  ", p.heading, margin, p.explanation true] ++
    (if choices.isEmpty then [] else "\n" :: choices) ++
    p.defaultRemark.map fun remark => margin ++ margin ++ remark)

end Parameter

def summary (ps : List Parameter) : String :=
  let column := (ps.map (·.heading.length)).foldl max 0
  String.intercalate "\n" (ps.map (·.row column))

def details (ps : List Parameter) : String :=
  String.intercalate "\n\n" (ps.map (·.block))

def helpText (full : Bool) : String :=
  let listing := if full then details else summary
  let options := Parameter.all.filter fun p => !p.isPositional
  "Mount a directory through a path-backed FUSE filesystem\n\n" ++ usage [] ++
    "\n\nArguments:\n" ++ listing Parameter.positionals ++
    "\n\nOptions:\n" ++ listing options ++ "\n"

def versionText : String := programName ++ " " ++ programVersion ++ "\n"

end InodeBridge.CommandLine
