import SimpleLR.Text.Extending
import SimpleLR.Text.Unprintable

/-!
# Quoted names

Names are listed between quotation marks. Quotation marks and backslashes get a backslash, four
controls have a letter of their own, and any other character that cannot be seen is written by its
code point.
-/

namespace SimpleLR.Text

/-- The text of a character inside quotation marks. -/
def escapeChar (c : Char) : String :=
  if c.toNat = 0x0 then "\\0"
  else if c.toNat = 0x9 then "\\t"
  else if c.toNat = 0xA then "\\n"
  else if c.toNat = 0xD then "\\r"
  else if c.toNat = 0x22 then "\\\x22"
  else if c.toNat = 0x5C then "\\\\"
  else if isExtending c || isUnprintable c then
    "\\u\x7b" ++ String.ofList (Nat.toDigits 16 c.toNat) ++ "\x7d"
  else c.toString

/-- A name between quotation marks. -/
def quote (name : String) : String :=
  "\x22" ++ String.join (name.toList.map escapeChar) ++ "\x22"

/-- The list of the quoted names. -/
def quoteAll (names : List String) : String :=
  "[" ++ ", ".intercalate (names.map quote) ++ "]"

end SimpleLR.Text
