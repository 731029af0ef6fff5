import Lenient.Json.Writer

/-! A document is a tree of numbered nodes, the root being node zero. It grows by events that may
come in any order: a begin event opens a node below the innermost open one, an end event closes
that one, and events of array elements change nothing. Nodes are numbered as they are added, so as
long as the numbers last, a node's children have greater numbers than the node, and walks over the
tree end. The answer of a walk that does not end is `none`. -/

namespace Lenient.Json

inductive Kind
  | document
  | object
  | array
  | property (name : Text)
  | value (text : Option Text)
  deriving Repr, DecidableEq

/-- The number of a node is 32 bits wide: numbering starts over at `2 ^ 32`. -/
abbrev NodeId := UInt32

structure Node where
  parent : Option NodeId
  children : List NodeId
  kind : Kind
  deriving Repr, DecidableEq

structure Document where
  nodes : Array Node
  deriving Repr, DecidableEq

namespace Kind

/-- The children of a node that its events show. -/
def shown {α : Type} (children : List α) : Kind → List α
  | document | object | array => children
  | property _ => children.take 1
  | value _ => []

/-- The events of a node from the events of its children. A property has one value: that of its first
child, or null. -/
def spell (parts : List (List Event)) : Kind → List Event
  | document => parts.flatten
  | object => .beginObject :: parts.flatten ++ [.endObject]
  | array => .beginArray :: parts.flatMap (fun p => .beginElement :: p ++ [.endElement]) ++ [.endArray]
  | property name => .beginProperty name :: parts.headD [.value none] ++ [.endProperty name]
  | value text => [.value text]

def name? : Kind → Option Text
  | property name => some name
  | _ => none

def text? : Kind → Option Text
  | value text => text
  | _ => none

def quotedText (t : Text) : String := String.ofList t.quoted

def describe : Kind → String
  | document => "Document"
  | object => "Object"
  | array => "Array"
  | property name => s!"Property({quotedText name})"
  | value none => "Value(None)"
  | value (some text) => s!"Value(Some({quotedText text}))"

end Kind

namespace Document

def empty : Document := ⟨#[⟨none, [], .document⟩]⟩

def size (d : Document) : Nat := d.nodes.size

def node? (d : Document) (id : NodeId) : Option Node := d.nodes[id.toNat]?

def kind? (d : Document) (id : NodeId) : Option Kind := (d.node? id).map Node.kind

def children (d : Document) (id : NodeId) : List NodeId := (d.node? id).elim [] Node.children

def isEmpty (d : Document) : Bool := (d.children 0).isEmpty

/-- The document with a new last child of `parent`. Its number is the size of the document before. -/
def add (d : Document) (parent : NodeId) (kind : Kind) : Document where
  nodes := (d.nodes.modify parent.toNat fun n => { n with children := n.children ++ [.ofNat d.size] }).push
    ⟨some parent, [], kind⟩

/-- A walk down from the node `id`, no deeper than `depth` nodes. It goes on to the nodes `next`, and
`join` puts together what it finds there. -/
def walkWithin {α : Type} (d : Document) (next : Node → List NodeId)
    (join : NodeId → Node → List (List α) → List α) : Nat → NodeId → Option (List α)
  | 0, _ => none
  | depth + 1, id =>
    match d.node? id with
    | none => some []
    | some n => ((next n).mapM (d.walkWithin next join depth)).map (join id n)

/-- A walk that goes deeper than there are nodes comes back to one of them, and never ends. -/
def walk {α : Type} (d : Document) (next : Node → List NodeId)
    (join : NodeId → Node → List (List α) → List α) (id : NodeId) : Option (List α) :=
  d.walkWithin next join (d.size + 1) id

def replay (d : Document) : NodeId → Option (List Event) :=
  d.walk (fun n => n.kind.shown n.children) fun _ n parts => n.kind.spell parts

def preorder (d : Document) : NodeId → Option (List NodeId) :=
  d.walk Node.children fun id _ below => id :: below.flatten

def events (d : Document) : Option (List Event) := d.replay 0

def text (d : Document) : Option Text := d.events.map write

def parent? (d : Document) (id : NodeId) : Option NodeId := (d.node? id).bind Node.parent

def firstChild? (d : Document) (id : NodeId) : Option NodeId := (d.children id).head?

def nextSibling? (d : Document) (id : NodeId) : Option NodeId := do
  let siblings := d.children (← d.parent? id)
  siblings[(← siblings.idxOf? id) + 1]?

/-- The value of the first property of an object that is called `name`. -/
def property? (d : Document) (id : NodeId) (name : Text) : Option NodeId :=
  if d.kind? id = some .object then
    ((d.children id).find? fun c => d.kind? c = some (.property name)).bind d.firstChild?
  else none

def element? (d : Document) (id : NodeId) (i : Nat) : Option NodeId :=
  if d.kind? id = some .array then (d.children id)[i]? else none

def describe (d : Document) (id : NodeId) : String :=
  match d.kind? id with
  | none => ""
  | some kind => s!"Node \x7b id: NodeId({id.toNat}), kind: {kind.describe} \x7d"

end Document

/-- A document in the making, with the open nodes, innermost first. The root is always open. -/
structure Growth where
  document : Document := .empty
  path : List NodeId := []

namespace Growth

def add (g : Growth) (kind : Kind) : Growth :=
  { g with document := g.document.add (g.path.headD 0) kind }

def enter (g : Growth) (kind : Kind) : Growth :=
  { g.add kind with path := .ofNat g.document.size :: g.path }

def leave (g : Growth) : Growth := { g with path := g.path.tail }

def emit (g : Growth) : Event → Growth
  | .beginObject => g.enter .object
  | .beginArray => g.enter .array
  | .beginProperty name => g.enter (.property name)
  | .endObject | .endArray | .endProperty _ => g.leave
  | .value text => g.add (.value text)
  | .beginElement | .endElement => g

end Growth

namespace Document

def ofEvents (es : List Event) : Document := (es.foldl Growth.emit {}).document

def parse (t : Text) : Noted Document := ⟨ofEvents (Json.parse t).value, (Json.parse t).notices⟩

end Document

end Lenient.Json
