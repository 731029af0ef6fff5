import Lenient.Text

/-! The written form of names and scalars. An escaped text has no control character and no bare
quote, and `needsQuotes` tells whether it may stand without quotes around it. -/

namespace Lenient.Json

/-- The letter that follows the backslash in the two-character escape of a character. -/
def escapeLetter? (c : Char) : Option Char :=
  if c = '\x27' || c = '\x22' || c = '\\' then some c
  else if c = '\t' then some 't'
  else if c = '\n' then some 'n'
  else if c = '\r' then some 'r'
  else if c = '\x0c' then some 'f'
  else none

/-- Punctuation that is written as it is, but only between quotes. -/
def isPunctuation (c : Char) : Bool :=
  [':', ';', '+', '-', '/', '=', '!', '\x7b', '\x7d', '[', ']', ','].contains c

def isControl (c : Char) : Bool := c.toNat < 32

def hexChar (n : Nat) : Char := Nat.digitChar (n % 16)

def hex4 (n : Nat) : Text := [hexChar (n / 4096), hexChar (n / 256), hexChar (n / 16), hexChar n]

/-- The written form of one character; `space` is that of a space. -/
def escapeChar (space : Text) (c : Char) : Text :=
  if c = ' ' then space
  else match escapeLetter? c with
    | some d => ['\\', d]
    | none => if isControl c then ['\\', 'u'] ++ hex4 c.toNat else [c]

/-- The written form of a text. A space is escaped at the start, and elsewhere if `spaces` says so. -/
def escape (spaces : Bool) : Text → Text
  | [] => []
  | c :: rest =>
    escapeChar ['\\', ' '] c ++ rest.flatMap (escapeChar (if spaces then ['\\', ' '] else [' ']))

def needsQuotes (t : Text) : Bool :=
  t.any fun c => c = ' ' || (escapeLetter? c).isSome || isPunctuation c || isControl c

end Lenient.Json
