import EthCall.Text.Hidden

/-!
# Quoted text

An error that names a character and a value that holds a text show them
between quotes. The quotation is on one line and denotes one text: a
backslash and the quote in use are written with a backslash before them,
the four common controls by a letter, and every other hidden character by
its code point in hexadecimal.
-/

namespace EthCall.Text

/-- Lower-case hexadecimal digits of a number, without leading zeros. -/
def hexDigits (n : Nat) : String :=
  String.ofList (Nat.toDigits 16 n)

/-- **A character as it stands inside a quotation** whose marks are
`mark`. -/
def quoteChar (mark c : Char) : String :=
  if c = '\x00' then "\\0"
  else if c = '\t' then "\\t"
  else if c = '\r' then "\\r"
  else if c = '\n' then "\\n"
  else if c = '\\' ∨ c = mark then String.ofList ['\\', c]
  else if isHidden c then "\\u\x7b" ++ hexDigits c.toNat ++ "\x7d"
  else c.toString

/-- A character between single quotes. -/
def quotedChar (c : Char) : String :=
  "'" ++ quoteChar '\'' c ++ "'"

/-- A text between double quotes. -/
def quoted (s : String) : String :=
  "\"" ++ String.join (s.toList.map (quoteChar '"')) ++ "\""

end EthCall.Text
