import Lenient.Json.Escape
import Lenient.Json.Event

/-! Values as trees, with the events that spell a tree, its canonical text and its nesting. -/

namespace Lenient.Json

inductive Value
  | scalar (text : Option Text)
  | object (properties : List (Text × Value))
  | array (elements : List Value)

namespace Value

mutual

def events : Value → List Event
  | scalar text => [.value text]
  | object properties => .beginObject :: propertyEvents properties ++ [.endObject]
  | array elements => .beginArray :: elementEvents elements ++ [.endArray]

def propertyEvents : List (Text × Value) → List Event
  | [] => []
  | (name, v) :: rest => .beginProperty name :: events v ++ .endProperty name :: propertyEvents rest

def elementEvents : List Value → List Event
  | [] => []
  | v :: rest => .beginElement :: events v ++ .endElement :: elementEvents rest

end

mutual

/-- How deep objects and arrays are nested; a scalar has nesting zero. -/
def nesting : Value → Nat
  | scalar _ => 0
  | object properties => propertyNesting properties + 1
  | array elements => elementNesting elements + 1

def propertyNesting : List (Text × Value) → Nat
  | [] => 0
  | (_, v) :: rest => max (nesting v) (propertyNesting rest)

def elementNesting : List Value → Nat
  | [] => 0
  | v :: rest => max (nesting v) (elementNesting rest)

end

def renderName (name : Text) : Text :=
  if needsQuotes name || name.isEmpty then '\x27' :: escape true name ++ ['\x27']
  else escape true name

def renderScalar : Option Text → Text
  | none => ['n', 'u', 'l', 'l']
  | some t => '\x27' :: escape false t ++ ['\x27']

mutual

/-- The canonical text of a value. -/
def render : Value → Text
  | scalar text => renderScalar text
  | object properties => '\x7b' :: List.intercalate [','] (renderProperties properties) ++ ['\x7d']
  | array elements => '[' :: List.intercalate [','] (renderElements elements) ++ [']']

def renderProperties : List (Text × Value) → List Text
  | [] => []
  | (name, v) :: rest => (renderName name ++ ':' :: render v) :: renderProperties rest

def renderElements : List Value → List Text
  | [] => []
  | v :: rest => render v :: renderElements rest

end

end Value

end Lenient.Json
