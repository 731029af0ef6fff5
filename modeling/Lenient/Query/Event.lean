import Lenient.Text

/-! The events that a search query is read as, and their compact trace. A group in parentheses may
have a label, and so may a token; the whole query is a group without one. -/

namespace Lenient.Query

inductive Event
  | beginQuery
  | endQuery
  | beginGroup (label : Text)
  | endGroup (label : Text)
  | token (label value : Option Text)
  deriving Repr, DecidableEq

namespace Event

def opening : Option Text → Event
  | none => beginQuery
  | some label => beginGroup label

def closing : Option Text → Event
  | none => endQuery
  | some label => endGroup label

/-- The event in the compact notation. -/
def trace : Event → Text
  | beginQuery => ['[']
  | endQuery => [']']
  | beginGroup label => '\x7b' :: label ++ ['=', '[']
  | endGroup _ => [']', '\x7d']
  | token none value => '\x7b' :: value.getD [] ++ ['\x7d']
  | token (some label) value => '\x7b' :: label ++ '=' :: value.getD [] ++ ['\x7d']

end Event

def trace (es : List Event) : Text := es.flatMap Event.trace

end Lenient.Query
