import Lenient.Text
import Lenient.Text.Extending
import Lenient.Text.Unprintable

/-! The quoted form of a text, for messages about a text. A quoted text stands in double quotes on
one line, and shows each character that a reader could not see on its own. -/

namespace Lenient.Text

/-- A code point in braces, in lower-case hexadecimal without padding. -/
def codePoint (c : Char) : Text := ['\\', 'u', '\x7b'] ++ Nat.toDigits 16 c.toNat ++ ['\x7d']

def quotedChar (c : Char) : Text :=
  match c with
  | '\x00' => ['\\', '0']
  | '\t' => ['\\', 't']
  | '\n' => ['\\', 'n']
  | '\r' => ['\\', 'r']
  | '\x22' => ['\\', c]
  | '\\' => ['\\', c]
  | _ => if isExtending c || isUnprintable c then codePoint c else [c]

def quoted (t : Text) : Text := '\x22' :: t.flatMap quotedChar ++ ['\x22']

end Lenient.Text
