import InodeBridge.Text.Unshown

/-! # Quoted text

A quoted text stands between double quotes.  A quote, a backslash and the usual controls are written
with a backslash, and a character without a look of its own by its number in hexadecimal digits.
-/
namespace InodeBridge.Text

def hexDigits (n : Nat) : String := String.ofList (Nat.toDigits 16 n)

def quotedChar (c : Char) : String :=
  if c = '"' then "\\\""
  else if c = '\\' then "\\\\"
  else if c = '\t' then "\\t"
  else if c = '\r' then "\\r"
  else if c = '\n' then "\\n"
  else if c = '\x00' then "\\0"
  else if isUnshown c then "\\u\x7b" ++ hexDigits c.toNat ++ "\x7d"
  else c.toString

def quote (s : String) : String := "\"" ++ String.join (s.toList.map quotedChar) ++ "\""

end InodeBridge.Text
