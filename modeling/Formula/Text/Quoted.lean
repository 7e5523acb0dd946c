import Formula.Unicode.GraphemeExtend
import Formula.Unicode.Printable

/-!
Text between double quotes, in one line and in visible characters. What could not be read back
is escaped: the quote, the backslash, three control characters by name, and every other
character that does not show on its own by its number.
-/
namespace Formula.Text

/-- The escape of a character by its number, in base sixteen between braces. -/
def numberEscape (c : Char) : List Char :=
  '\\' :: 'u' :: '\x7b' :: (Nat.toDigits 16 c.toNat ++ ['\x7d'])

def escape (c : Char) : List Char :=
  if c = '\x00' then ['\\', '0']
  else if c = '\t' then ['\\', 't']
  else if c = '\r' then ['\\', 'r']
  else if c = '\n' then ['\\', 'n']
  else if c = '\\' then ['\\', '\\']
  else if c = '"' then ['\\', '"']
  else if Unicode.isGraphemeExtend c || !Unicode.isPrintable c then numberEscape c
  else [c]

def quotedChars (cs : List Char) : List Char := '"' :: (cs.flatMap escape ++ ['"'])

def quoted (s : String) : String := String.ofList (quotedChars s.toList)

end Formula.Text
