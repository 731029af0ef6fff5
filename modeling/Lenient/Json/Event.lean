import Lenient.Text

/-! The events that a relaxed JSON text is read as and written from. Every scalar is a text or
null. -/

namespace Lenient.Json

inductive Event
  | beginObject
  | endObject
  | beginArray
  | endArray
  | beginElement
  | endElement
  | beginProperty (name : Text)
  | endProperty (name : Text)
  | value (text : Option Text)
  deriving Repr, DecidableEq

inductive Shape
  | object
  | array
  deriving Repr, DecidableEq

/-- A place for one value in a container: a property of an object, or an element of an array. -/
inductive Slot
  | property (name : Text)
  | element
  deriving Repr, DecidableEq

namespace Shape

def opening : Shape → Event
  | object => .beginObject
  | array => .beginArray

def closing : Shape → Event
  | object => .endObject
  | array => .endArray

def ofBracket? (c : Char) : Option Shape :=
  if c = '\x7b' then some object else if c = '[' then some array else none

end Shape

namespace Slot

def opening : Slot → Event
  | property name => .beginProperty name
  | element => .beginElement

def closing : Slot → Event
  | property name => .endProperty name
  | element => .endElement

def shape : Slot → Shape
  | property _ => .object
  | element => .array

end Slot

end Lenient.Json
