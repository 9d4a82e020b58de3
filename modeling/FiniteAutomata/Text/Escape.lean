import FiniteAutomata.Text.Extender
import FiniteAutomata.Text.Unprintable

/-!
# Escapes

How characters are written inside quotes. A character that could be mistaken, or that has no safe
form of its own, becomes a backslash followed by a letter, by the character itself, or by its code
point in hexadecimal digits between braces. A text is escaped character by character.
-/

namespace FiniteAutomata.Escape

/-- A character written by its code point: lower-case digits, no leading zero. -/
def codePoint (c : Char) : List Char :=
  ['\\', 'u', '\x7b'] ++ Nat.toDigits 16 c.toNat ++ ['\x7d']

/-- A backslash in front of a character. -/
def backslash (c : Char) : List Char := ['\\', c]

/-- The form of a character in which only printable ASCII is left: tab, return and line feed by
letter, both quotes and the backslash behind a backslash, what is not printable ASCII by code point. -/
def asciiChar (c : Char) : List Char :=
  if c = '\t' then backslash 't'
  else if c = '\r' then backslash 'r'
  else if c = '\n' then backslash 'n'
  else if c = '\x27' ∨ c = '\x22' ∨ c = '\\' then backslash c
  else if 0x20 ≤ c.toNat ∧ c.toNat ≤ 0x7e then [c]
  else codePoint c

/-- A text in which only printable ASCII is left. -/
def ascii (text : List Char) : List Char := text.flatMap asciiChar

/-- The form of a character between two `quote` marks: the quote mark and the backslash behind a
backslash, four control characters by letter or digit, all others that cannot be seen by themselves
by code point, the rest as they are. -/
def literalChar (quote c : Char) : List Char :=
  if c = '\t' then backslash 't'
  else if c = '\r' then backslash 'r'
  else if c = '\n' then backslash 'n'
  else if c.toNat = 0 then backslash '0'
  else if c = quote ∨ c = '\\' then backslash c
  else if isExtender c || isUnprintable c then codePoint c
  else [c]

/-- A text between two `quote` marks. -/
def literal (quote : Char) (text : List Char) : List Char :=
  quote :: text.flatMap (literalChar quote) ++ [quote]

end FiniteAutomata.Escape
