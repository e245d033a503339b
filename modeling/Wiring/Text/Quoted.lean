import Wiring.Text.Invisible

/-!
# Quoted text

A text in quotes, as it stands in the log: quotes, backslashes and the common controls are written
with a backslash, and any other character that could not be seen, by `isInvisible`, by its code
point.
-/

namespace Wiring.Text

/-- The digits of a number in base sixteen. -/
def hexadecimal (n : Nat) : String :=
  String.ofList (Nat.toDigits 16 n)

/-- One character of a quoted text: itself, an escape, or its code point if it `isInvisible`. -/
def quoteChar (c : Char) : String :=
  match c with
  | '"' => "\\\""
  | '\\' => "\\\\"
  | '\n' => "\\n"
  | '\t' => "\\t"
  | '\r' => "\\r"
  | '\x00' => "\\0"
  -- anything else is written as it is, or by its code point
  | c => if isInvisible c then "\\u\x7b" ++ hexadecimal c.toNat ++ "\x7d" else c.toString

/-- A text between quotes, each of its characters by `quoteChar`. -/
def quote (text : String) : String :=
  "\"" ++ String.join (text.toList.map quoteChar) ++ "\""

end Wiring.Text
