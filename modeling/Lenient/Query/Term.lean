import Lenient.Query.Event

/-! Queries as trees. A query is a list of terms, and a term is a token or a group of terms,
either with a label or without one. -/

namespace Lenient.Query

inductive Term
  | token (label : Option Text) (value : Text)
  | group (label : Option Text) (terms : List Term)

namespace Term

mutual

def events : Term → List Event
  | token label value => [.token label (some value)]
  | group label terms => Event.opening label :: allEvents terms ++ [Event.closing label]

def allEvents : List Term → List Event
  | [] => []
  | t :: rest => events t ++ allEvents rest

end

mutual

def nesting : Term → Nat
  | token _ _ => 0
  | group _ terms => allNesting terms + 1

def allNesting : List Term → Nat
  | [] => 0
  | t :: rest => max (nesting t) (allNesting rest)

end

end Term

end Lenient.Query
