import Lenient.Json.Escape
import Lenient.Json.Read

/-! The canonical text of a sequence of events, and of a text: what is read from it, written down again.
The writer counts what it has written in each open container, so that it knows where a comma goes; events
may come in any order. It writes in small pieces to a place that may refuse one. Then it goes on counting,
but the place is given no other piece. -/

namespace Lenient.Json

class Place (ω : Type) where
  /-- Whether a piece is taken, and what becomes of the place. -/
  put : ω → Text → Bool × ω

structure Page where
  /-- What was written, newest piece first. -/
  pieces : List Text := []
  deriving Repr, DecidableEq, Inhabited

instance : Place Page where
  put page piece := (true, { pieces := piece :: page.pieces })

def Page.text (page : Page) : Text := page.pieces.reverse.flatten

structure Outlet where
  room : Nat
  written : Text := []
  deriving Repr, DecidableEq

/-- An outlet takes a piece whole, if there is room for it. -/
instance : Place Outlet where
  put o piece :=
    if piece.length ≤ o.room then
      (true, { room := o.room - piece.length, written := o.written ++ piece })
    else (false, o)

structure Writer (ω : Type := Page) where
  place : ω := by exact default
  /-- How many slots were written in each open container, innermost first. -/
  counts : List Nat := []
  /-- The written form of a name or a scalar, until it is handed to the place. -/
  scratch : Text := []
  refused : Bool := false
  deriving Repr, DecidableEq

namespace Writer

variable {ω : Type}

def scribble (w : Writer ω) (spaces : Bool) (t : Text) : Writer ω :=
  { w with scratch := w.scratch ++ escape spaces t }

def finish (w : Writer ω) : Option ω := if w.refused then none else some w.place

variable [Place ω]

/-- Hands a piece to the place, unless it has refused one before. -/
def print (w : Writer ω) (piece : Text) : Writer ω :=
  if w.refused then w
  else { w with place := (Place.put w.place piece).2, refused := !(Place.put w.place piece).1 }

def printQuoted (w : Writer ω) (t : Text) : Writer ω :=
  ((w.print ['\x27']).print t).print ['\x27']

def flush (w : Writer ω) (quoted : Bool) : Writer ω :=
  { (if quoted then w.printQuoted w.scratch else w.print w.scratch) with scratch := [] }

/-- Counts one more slot of the innermost container, and sets it apart from the slot before. -/
def separate (w : Writer ω) : Writer ω :=
  match w.counts with
  | [] => w
  | 0 :: outer => { w with counts := 1 :: outer }
  | (n + 1) :: outer => { w with counts := (n + 2) :: outer }.print [',']

def enter (w : Writer ω) (bracket : Char) : Writer ω :=
  { w.print [bracket] with counts := 0 :: w.counts }

def leave (w : Writer ω) (bracket : Char) : Writer ω :=
  { w.print [bracket] with counts := w.counts.tail }

def writeName (w : Writer ω) (name : Text) : Writer ω :=
  (w.scribble true name).flush (needsQuotes name || name.isEmpty)

def writeScalar (w : Writer ω) : Option Text → Writer ω
  | none => w.print ['n', 'u', 'l', 'l']
  | some t => (w.scribble false t).flush true

def emit (w : Writer ω) : Event → Writer ω
  | .beginObject => w.enter '\x7b'
  | .endObject => w.leave '\x7d'
  | .beginArray => w.enter '['
  | .endArray => w.leave ']'
  | .beginElement => w.separate
  | .endElement => w
  | .beginProperty name => (w.separate.writeName name).print [':']
  | .endProperty _ => w
  | .value text => w.writeScalar text

def emitAll (w : Writer ω) (es : List Event) : Writer ω := es.foldl emit w

def text (w : Writer) : Text := w.place.text

def clear (w : Writer) : Writer := { w with place := {}, counts := [] }

def written (w : Writer Outlet) : Text := w.place.written

end Writer

def writeTo {ω : Type} [Place ω] (place : ω) (es : List Event) : Writer ω := Writer.emitAll { place } es

def write (es : List Event) : Text := (writeTo ({} : Page) es).text

def writeWithin (limit : Nat) (es : List Event) : Writer Outlet := writeTo { room := limit } es

/-- The canonical form of the first object of a text; empty if the text has none. -/
def canonicalize (t : Text) : Noted Text := ⟨write (parse t).value, (parse t).notices⟩

end Lenient.Json
