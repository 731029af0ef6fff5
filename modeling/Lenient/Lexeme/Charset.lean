import Lenient.Text

/-! The kinds of characters that the readers tell apart, and what stands behind an escape. -/

namespace Lenient.Lexeme

def isSpace (c : Char) : Bool := c = ' ' || c = '\t' || c = '\n' || c = '\r'

def isQuote (c : Char) : Bool := c = '\x27' || c = '\x22'

def isDelimiter (c : Char) : Bool := c = ',' || c = ';'

def isStructural (c : Char) : Bool :=
  c = '\x7b' || c = '\x7d' || c = '[' || c = ']' || c = ':' || c = ','

def backslash : Char := '\\'

def unescape (c : Char) : Char :=
  if c = 'n' then '\n' else if c = 'r' then '\r' else if c = 't' then '\t' else c

def hexDigit? (c : Char) : Option Nat :=
  let n := c.toNat
  if 48 ≤ n ∧ n ≤ 57 then some (n - 48)
  else if 97 ≤ n ∧ n ≤ 102 then some (n - 87)
  else if 65 ≤ n ∧ n ≤ 70 then some (n - 55)
  else none

def hexNumber (t : Text) : Nat := t.foldl (fun n c => n * 16 + (hexDigit? c).getD 0) 0

/-- The character with a code point, or the replacement character if there is none. -/
def charAt (n : Nat) : Char := if n.isValidChar then Char.ofNat n else '\ufffd'

end Lenient.Lexeme
