/-! # How alike two words are

Two words are alike if many letters of one are near the same place of the other, and in the same
order.  The measure is a number between zero and one, with the rounding of binary fractions: which
of the measures that ought to be seven tenths is above that number depends on it.
-/
namespace InodeBridge.CommandLine

/-- The first place from one on and before another where an unmarked letter is the given one. -/
def matchingPlace? (letter : Char) (low high : Nat) (marked : List Nat) (word : List Char) :
    Option Nat :=
  (word.zipIdx.find? fun (c, i) => low ≤ i && i < high && c == letter && !marked.contains i).map
    Prod.snd

/-- The places of letters in one word and of their partners in another one, at most so far apart;
the letters are taken in order, and each takes the first free partner. -/
def matchedPlaces (reach : Nat) (a b : List Char) : List (Nat × Nat) :=
  a.zipIdx.foldl (fun found (letter, i) =>
    match matchingPlace? letter (i - reach) (i + reach + 1) (found.map Prod.snd) b with
    | some j => found ++ [(i, j)]
    | none => found) []

def share (part whole : Nat) : Float := part.toFloat / whole.toFloat

/-- The mean of three shares: of the letters of each word that have a partner, and of the partners
that are in order. -/
def similarity (a b : String) : Float :=
  let a := a.toList
  let b := b.toList
  let found := matchedPlaces (max a.length b.length / 2 - 1) a b
  let partners := (found.map Prod.snd).mergeSort
  let outOfOrder := (found.map Prod.fst).zip partners |>.filter fun (i, j) => a[i]? != b[j]?
  let m := found.length
  if m = 0 then 0
  else (share m a.length + share m b.length + share (m - outOfOrder.length / 2) m) / 3

def alikeAbove : Float := 0.7

/-- The word most like another one, of those that are alike at all; the last of several. -/
def mostAlike? (word : String) (words : List String) : Option String :=
  let alike := (words.map fun w => (similarity word w, w)).filter (alikeAbove < ·.1)
  let better (best? : Option (Float × String)) (c : Float × String) :=
    if best?.any (c.1 < ·.1) then best? else some c
  (alike.foldl better none).map Prod.snd

end InodeBridge.CommandLine
