import Lenient.Json.Step
import Lenient.Stream.Reading

/-! The relaxed JSON reader. It never fails: from the first opening brace on it reads one object,
repairs what is malformed and reports the repair. What the input leaves open is closed at its end. A
container that is nested too deep ends the reading on its bracket; `unwind` then closes what is open.

The reader keeps the slots around the container that it is in, innermost first, and takes one step
after another. Each step either consumes a character or leaves a container. -/

namespace Lenient.Json

open Cursor Lexeme

variable {σ : Type} [Cursor σ]

/-- The events that close a container of shape `shape` and everything around it. -/
def closings (shape : Shape) : List Slot → List Event
  | [] => [shape.closing]
  | slot :: outer => shape.closing :: slot.closing :: closings slot.shape outer

/-- Leaves a container of shape `shape` and everything around it. Nothing more is read into them, but
behind each slot that is left a comma is read over, if there is one. -/
def unwind (shape : Shape) : List Slot → σ → List Event × σ
  | [], s => ([shape.closing], s)
  | slot :: outer, s => onto [shape.closing, slot.closing] (unwind slot.shape outer (skipComma s))

@[simp] theorem unwind_fst (shape : Shape) (slots : List Slot) (s : σ) :
    (unwind shape slots s).1 = closings shape slots := by
  induction slots generalizing shape s with
  | nil => rfl
  | cons slot outer ih => rw [unwind, onto_fst, ih, closings, List.cons_append, List.singleton_append]

theorem forward_unwind (shape : Shape) (slots : List Slot) (s : σ) : Forward s (unwind shape slots s).2 := by
  induction slots generalizing shape s with
  | nil => exact Forward.refl s
  | cons slot outer ih => exact (forward_skipComma s).trans (ih slot.shape (skipComma s))

theorem unread_unwind_of_head {s : σ} {c : Char} (h : head? s = some c) (hs : isSpace c = false)
    (hc : c ≠ ',') (shape : Shape) (slots : List Slot) : unread (unwind shape slots s).2 = unread s := by
  induction slots generalizing shape s with
  | nil => rfl
  | cons slot outer ih =>
    have hu := unread_skipComma_of_head h hs hc
    have hh : head? (skipComma s) = some c := by rw [head?_eq, hu, ← head?_eq, h]
    exact (ih hh slot.shape).trans hu

/-- Reads on in a container of shape `shape` that is inside the slots `slots`, innermost first, to
the end of the outermost container. -/
def events (limit : Nat) (shape : Shape) (slots : List Slot) (s : σ) : List Event × σ :=
  match _h : step limit shape slots s with
  | (.close, t) =>
    match slots with
    | [] => ([shape.closing], t)
    | slot :: outer =>
      onto [shape.closing, slot.closing] (events limit slot.shape outer (skipComma t))
  | (.fill slot .tooDeep, t) =>
    onto [slot.opening, .value none, slot.closing] (unwind shape slots (skipComma t))
  | (.fill slot (.scalar text), t) =>
    onto [slot.opening, .value text, slot.closing] (events limit shape slots (skipComma t))
  | (.fill slot (.container inner), t) =>
    onto [slot.opening, inner.opening] (events limit inner (slot :: slots) t)
termination_by 2 * remaining s + slots.length
decreasing_by
  · have := (forward_of_step _h).le
    have := (forward_skipComma t).le
    simp only [List.length_cons]
    omega
  · have := remaining_lt_of_step _h (by simp)
    have := (forward_skipComma t).le
    omega
  · have := remaining_lt_of_step _h (by simp)
    simp only [List.length_cons]
    omega

/-! One equation for each step that `events` may take. -/

theorem events_root {limit : Nat} {shape : Shape} {s t : σ}
    (h : step limit shape [] s = (.close, t)) : events limit shape [] s = ([shape.closing], t) := by
  rw [events]; split <;> simp_all

theorem events_close {limit : Nat} {shape : Shape} {slot : Slot} {outer : List Slot} {s t : σ}
    (h : step limit shape (slot :: outer) s = (.close, t)) :
    events limit shape (slot :: outer) s =
      onto [shape.closing, slot.closing] (events limit slot.shape outer (skipComma t)) := by
  rw [events]; split <;> simp_all

theorem events_scalar {limit : Nat} {shape : Shape} {slots : List Slot} {s t : σ} {slot : Slot}
    {text : Option Text} (h : step limit shape slots s = (.fill slot (.scalar text), t)) :
    events limit shape slots s =
      onto [slot.opening, .value text, slot.closing] (events limit shape slots (skipComma t)) := by
  rw [events]; split <;> simp_all

theorem events_container {limit : Nat} {shape : Shape} {slots : List Slot} {s t : σ} {slot : Slot}
    {inner : Shape} (h : step limit shape slots s = (.fill slot (.container inner), t)) :
    events limit shape slots s =
      onto [slot.opening, inner.opening] (events limit inner (slot :: slots) t) := by
  rw [events]; split <;> simp_all

theorem events_tooDeep {limit : Nat} {shape : Shape} {slots : List Slot} {s t : σ} {slot : Slot}
    (h : step limit shape slots s = (.fill slot .tooDeep, t)) :
    events limit shape slots s =
      onto [slot.opening, .value none, slot.closing] (unwind shape slots (skipComma t)) := by
  rw [events]; split <;> simp_all

theorem forward_events (limit : Nat) (shape : Shape) (slots : List Slot) (s : σ) :
    Forward s (events limit shape slots s).2 := by
  fun_induction events limit shape slots s with
  | case1 shape s t h => exact forward_of_step h
  | case2 shape s t slot outer h ih => exact ((forward_of_step h).trans (forward_skipComma t)).trans ih
  | case3 shape slots s slot t h =>
    exact ((forward_of_step h).trans (forward_skipComma t)).trans (forward_unwind _ _ _)
  | case4 shape slots s slot text t h ih =>
    exact ((forward_of_step h).trans (forward_skipComma t)).trans ih
  | case5 shape slots s slot inner t h ih => exact (forward_of_step h).trans ih

def isGarbage (c : Char) : Bool := c != '\x7b'

def skipGarbage (s : σ) : σ :=
  if skips isGarbage s then
    note (.garbageSkipped (position (skipWhile isGarbage s))) (skipWhile isGarbage s)
  else skipWhile isGarbage s

/-- Reads the first object of the unread text. The answer has no events if there is none. -/
def read (limit : Nat) (s : σ) : List Event × σ :=
  match head? (skipGarbage s) with
  | none => ([], note .objectMissing (skipGarbage s))
  | some _ => onto [.beginObject] (events limit .object [] (advance (skipGarbage s)))

@[simp] theorem unread_skipGarbage (s : σ) :
    unread (skipGarbage s) = (unread s).dropWhile isGarbage := by
  unfold skipGarbage
  split <;> simp

theorem forward_skipGarbage (s : σ) : Forward s (skipGarbage s) := by
  unfold skipGarbage
  split
  · exact (forward_skipWhile isGarbage s).trans (forward_note _ _)
  · exact forward_skipWhile isGarbage s

theorem forward_read (limit : Nat) (s : σ) : Forward s (read limit s).2 := by
  have h := forward_skipGarbage s
  unfold read
  split
  · exact h.trans (forward_note _ _)
  · exact (h.trans (forward_advance _)).trans (forward_events _ _ _ _)

def defaultLimit : Nat := 256

def parse (t : Text) : Noted (List Event) :=
  Stream.noted (read defaultLimit (Stream.ofText (t.dropWhile isGarbage)))

end Lenient.Json
