import Lenient.Json.Event
import Lenient.Notice

/-! A builder turns calls into events and refuses the calls that would make an illegal document.
An array element's events are added by the builder, and so is the null of a property that was
given no value. -/

namespace Lenient.Json

/-- An open level. A container remembers whether it is an array element, a property whether it has
its value. -/
inductive Frame
  | container (shape : Shape) (element : Bool)
  | property (name : Text) (hasValue : Bool)
  deriving Repr, DecidableEq

structure Builder where
  /-- The open levels, innermost first. -/
  frames : List Frame := []
  rooted : Bool := false
  events : List Event := []
  notices : List Notice := []
  deriving Repr, DecidableEq

inductive BuildError
  | propertyOutsideObject (name : Text)
  | valueOutsideArray
  | valueOutsideProperty
  | misplacedContainer (shape : Shape)
  | propertyAlreadySet (name : Text)
  | nothingToClose
  | rootComplete
  deriving Repr, DecidableEq

def Shape.phrase : Shape → String
  | object => "an object"
  | array => "an array"

def BuildError.message : BuildError → String
  | propertyOutsideObject name =>
    s!"object property `{String.ofList name}` can be defined only inside an object"
  | valueOutsideArray => "array values can be added only inside an array"
  | valueOutsideProperty => "a property value can be set only inside an open property"
  | misplacedContainer shape =>
    s!"{shape.phrase} can be defined only at the root, as a property value or as an array element"
  | propertyAlreadySet name => s!"property `{String.ofList name}` already has a value"
  | nothingToClose => "nothing to close"
  | rootComplete => "the root value is already complete"

/-- The builder that a call leaves behind, and the error if the call was refused. -/
abbrev Outcome := Option BuildError × Builder

def Outcome.andThen (r : Outcome) (f : Builder → Outcome) : Outcome :=
  match r with
  | (none, b) => f b
  | (some e, b) => (some e, b)

namespace Builder

/-- How many levels are open. A property is a level of its own. -/
def depth (b : Builder) : Nat := b.frames.length

def isComplete (b : Builder) : Bool := b.rooted && b.frames.isEmpty

def accepted (b : Builder) : Outcome := (none, b)

def refuse (b : Builder) (e : BuildError) : Outcome := (some e, b)

def emit (b : Builder) (es : List Event) : Builder := { b with events := b.events ++ es }

def enter (b : Builder) (frames : List Frame) (shape : Shape) (element : Bool) : Builder :=
  { b.emit [shape.opening] with frames := .container shape element :: frames, rooted := true }

def openContainer (shape : Shape) (b : Builder) : Outcome :=
  match b.frames with
  | [] => if b.rooted then b.refuse .rootComplete else (b.enter [] shape false).accepted
  | .container .object _ :: _ => b.refuse (.misplacedContainer shape)
  | .container .array _ :: _ => ((b.emit [.beginElement]).enter b.frames shape true).accepted
  | .property name true :: _ => b.refuse (.propertyAlreadySet name)
  | .property name false :: outer => (b.enter (.property name true :: outer) shape false).accepted

def openProperty (name : Text) (b : Builder) : Outcome :=
  match b.frames with
  | .container .object _ :: _ =>
    accepted { b.emit [.beginProperty name] with frames := .property name false :: b.frames }
  | _ => b.refuse (.propertyOutsideObject name)

def setValue (value : Option Text) (b : Builder) : Outcome :=
  match b.frames with
  | .property name false :: outer =>
    accepted { b.emit [.value value] with frames := .property name true :: outer }
  | .property name true :: _ => b.refuse (.propertyAlreadySet name)
  | _ => b.refuse .valueOutsideProperty

def addElement (value : Option Text) (b : Builder) : Outcome :=
  match b.frames with
  | .container .array _ :: _ => (b.emit [.beginElement, .value value, .endElement]).accepted
  | _ => b.refuse .valueOutsideArray

/-- Adds several values. Without any value, an array must be open all the same. -/
def addElements (values : List Text) (b : Builder) : Outcome :=
  match b.frames with
  | .container .array _ :: _ =>
    values.foldl (fun r v => Outcome.andThen r (addElement (some v))) b.accepted
  | _ => b.refuse .valueOutsideArray

/-- Closes the innermost level. A property without a value is given a null one. -/
def close (b : Builder) : Outcome :=
  match b.frames with
  | [] => b.refuse .nothingToClose
  | .container shape element :: outer =>
    accepted { b.emit (shape.closing :: if element then [.endElement] else []) with frames := outer }
  | .property name true :: outer => accepted { b.emit [.endProperty name] with frames := outer }
  | .property name false :: outer =>
    accepted { b.emit [.value none, .endProperty name] with
      frames := outer, notices := b.notices ++ [.propertyUnset name] }

def addProperty (name : Text) (value : Option Text) (b : Builder) : Outcome :=
  Outcome.andThen (Outcome.andThen (b.openProperty name) (setValue value)) close

inductive Call
  | openContainer (shape : Shape)
  | openProperty (name : Text)
  | addProperty (name : Text) (value : Option Text)
  | setValue (value : Option Text)
  | addElement (value : Option Text)
  | addElements (values : List Text)
  | close
  deriving Repr, DecidableEq

def perform (b : Builder) : Call → Outcome
  | .openContainer shape => b.openContainer shape
  | .openProperty name => b.openProperty name
  | .addProperty name value => b.addProperty name value
  | .setValue value => b.setValue value
  | .addElement value => b.addElement value
  | .addElements values => b.addElements values
  | .close => b.close

end Builder

end Lenient.Json
