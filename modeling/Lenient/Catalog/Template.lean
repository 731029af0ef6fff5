import Lenient.Text

/-! Message templates. A number in braces stands for the argument of that index, and a doubled
brace for a brace; all else stands for itself, also a placeholder that no argument fills.
Arguments are inserted as they are. -/

namespace Lenient.Template

/-- One more than the greatest index that 64 bits hold. -/
def indexBound : Nat := 18446744073709551616

/-- The index that a placeholder's body spells: decimal digits, with a plus sign in front or without
one. -/
def index? : Text → Option Nat
  | '+' :: digits => (Text.number? digits).filter (· < indexBound)
  | digits => (Text.number? digits).filter (· < indexBound)

def fill (args : List Text) (body : Text) : Text :=
  ((index? body).bind (args[·]?)).getD ('\x7b' :: body ++ ['\x7d'])

def notClosing (c : Char) : Bool := c != '\x7d'

theorem length_behind_lt (rest : Text) (c : Char) :
    (rest.dropWhile notClosing).tail.length < (c :: rest).length := by
  have := (List.dropWhile_suffix notClosing (l := rest)).length_le
  simp only [List.length_tail, List.length_cons]
  omega

def format (args : List Text) : Text → Text
  | [] => []
  | '\x7b' :: '\x7b' :: rest => '\x7b' :: format args rest
  | '\x7d' :: '\x7d' :: rest => '\x7d' :: format args rest
  | c :: rest =>
    if c = '\x7b' ∧ '\x7d' ∈ rest then
      fill args (rest.takeWhile notClosing) ++ format args (rest.dropWhile notClosing).tail
    else c :: format args rest
termination_by t => t.length
decreasing_by
  · simp only [List.length_cons]; omega
  · simp only [List.length_cons]; omega
  · exact length_behind_lt rest c
  · simp

end Lenient.Template
