import Lenient.Cursor
import Lenient.Stream.Ring
import Lenient.Stream.Source

/-! A stream fetches its source one character at a time, and only when a character is looked at.
What it has fetched stays in a ring from one character before the retained span on: the span from
the oldest open mark, or from the cursor if no mark is open. The ring grows only when a mark pins
more than fits.

A stream counts its open marks and keeps where the oldest one starts; where each of them starts is
known to whoever opened it. The proof fields say that the count and the oldest start are those of
the open marks, that the cursor and the marks lie in the fetched text in the order in which they
were opened, and that the ring shows everything retained. -/

namespace Lenient

/-- The offset of the oldest mark, or of the cursor if there is none. -/
def retainedFrom (cursor : Position) (marks : List Position) : Nat := (marks.getLastD cursor).offset

structure Stream where
  source : Source
  ring : Ring
  cursor : Position
  /-- Where the open marks start, innermost first. -/
  marks : List Position
  openMarks : Nat
  /-- The offset of the oldest open mark. It says nothing while no mark is open. -/
  firstMark : Nat
  ended : Bool
  /-- The notices made so far, newest first. -/
  journal : List Notice
  openMarks_eq : openMarks = marks.length
  firstMark_eq : ∀ m ∈ marks.getLast?, firstMark = m.offset
  cursor_le : cursor.offset ≤ source.taken
  nested : (cursor :: marks).Pairwise fun p q => q.offset ≤ p.offset
  pending_of_ended : ended = true → source.pending = []
  held : ring.Holds source.text (retainedFrom cursor marks - 1) source.taken

inductive SpanError
  | beforeRetained (offset retained : Nat)
  | afterCursor (offset cursor : Nat)
  | negativeLength (first last : Nat)
  deriving Repr, DecidableEq

def SpanError.message : SpanError → String
  | beforeRetained o r => s!"offset {o} is before the retained span (starts at {r})"
  | afterCursor o c => s!"offset {o} is after the cursor at {c}"
  | negativeLength a b => s!"negative length: range {a}..{b}"

namespace Stream

def defaultCapacity : Nat := 16

/-- A stream at the start of `t`, with a ring of `capacity` slots to begin with. -/
def sized (capacity : Nat) (t : Text) : Stream where
  source := { text := t }
  ring := Ring.blank capacity
  cursor := {}
  marks := []
  openMarks := 0
  firstMark := 0
  ended := false
  journal := []
  openMarks_eq := rfl
  firstMark_eq := nofun
  cursor_le := Nat.le_refl 0
  nested := List.pairwise_singleton _ _
  pending_of_ended := nofun
  held := Ring.Holds.blank capacity t

def ofText (t : Text) : Stream := sized defaultCapacity t

def retained (s : Stream) : Nat :=
  if 0 < s.openMarks then min s.firstMark s.cursor.offset else s.cursor.offset

theorem retainedFrom_le {cursor : Position} {marks : List Position}
    (h : (cursor :: marks).Pairwise fun p q => q.offset ≤ p.offset) :
    retainedFrom cursor marks ≤ cursor.offset := by
  unfold retainedFrom
  cases marks with
  | nil => exact Nat.le_refl _
  | cons m ms =>
    rw [List.getLastD_cons, ← List.getLast_eq_getLastD (List.cons_ne_nil m ms)]
    exact (List.pairwise_cons.1 h).1 _ (List.getLast_mem _)

/-- Text is retained from the oldest open mark on. -/
theorem retained_eq (s : Stream) : s.retained = retainedFrom s.cursor s.marks := by
  have hle := retainedFrom_le s.nested
  have hfirst := s.firstMark_eq
  rw [retained, s.openMarks_eq]
  cases h : s.marks with
  | nil => rfl
  | cons m ms =>
    rw [h, List.getLast?_cons] at hfirst
    rw [h] at hle
    have hf : s.firstMark = retainedFrom s.cursor (m :: ms) := by
      rw [hfirst _ rfl, retainedFrom, List.getLastD_cons, List.getLastD_eq_getLast?]
    rw [List.length_cons, if_pos (Nat.zero_lt_succ _), hf, Nat.min_eq_left hle]

theorem retained_le (s : Stream) : s.retained ≤ s.cursor.offset := by
  rw [s.retained_eq]
  exact retainedFrom_le s.nested

theorem held_retained (s : Stream) : s.ring.Holds s.source.text (s.retained - 1) s.source.taken := by
  rw [s.retained_eq]
  exact s.held

def note (n : Notice) (s : Stream) : Stream := { s with journal := n :: s.journal }

def exhaust (s : Stream) (h : s.source.pending = []) : Stream where
  source := s.source.request
  ring := s.ring
  cursor := s.cursor
  marks := s.marks
  openMarks := s.openMarks
  firstMark := s.firstMark
  ended := true
  journal := .sourceExhausted s.source.taken :: s.journal
  openMarks_eq := s.openMarks_eq
  firstMark_eq := s.firstMark_eq
  cursor_le := by rw [(Source.request_of_nil h).2]; exact s.cursor_le
  nested := s.nested
  pending_of_ended _ := (Source.request_of_nil h).1
  held := by rw [(Source.request_of_nil h).2]; exact s.held

def roomy (s : Stream) : Ring := s.ring.reserve (s.retained - 1) s.source.taken

def store (s : Stream) (c : Char) (rest : Text) (h : s.source.pending = c :: rest) : Stream where
  source := s.source.request
  ring := s.roomy.set s.source.taken c
  cursor := s.cursor
  marks := s.marks
  openMarks := s.openMarks
  firstMark := s.firstMark
  ended := s.ended
  journal :=
    if s.roomy.capacity = s.ring.capacity then s.journal
    else .ringGrown s.ring.capacity s.roomy.capacity (s.retained - 1) s.source.taken :: s.journal
  openMarks_eq := s.openMarks_eq
  firstMark_eq := s.firstMark_eq
  cursor_le := by rw [Source.taken_request_of_cons h]; exact Nat.le_succ_of_le s.cursor_le
  nested := s.nested
  pending_of_ended he := by rw [s.pending_of_ended he] at h; cases h
  held := by
    have hle : s.retained - 1 ≤ s.source.taken := by
      have := s.retained_le; have := s.cursor_le; omega
    rw [Source.taken_request_of_cons h, ← s.retained_eq]
    refine (s.held_retained.reserve hle).set ?_ ?_
    · have := s.ring.lt_capacity_reserve (s.retained - 1) s.source.taken
      omega
    · rw [s.source.getElem?_taken, h]; rfl

def pull (s : Stream) : Stream :=
  match h : s.source.pending with
  | [] => s.exhaust h
  | c :: rest => s.store c rest h

/-- Fetches the character under the cursor, unless it is there already or the source has run dry. -/
def fill (s : Stream) : Stream :=
  if s.ended || s.cursor.offset < s.source.taken then s else s.pull

def current? (s : Stream) : Option Char :=
  if s.cursor.offset < s.source.taken then some (s.ring.get s.cursor.offset) else none

def previous? (s : Stream) : Option Char :=
  if 0 < s.cursor.offset then some (s.ring.get (s.cursor.offset - 1)) else none

/-- Moves the cursor over `c`, the fetched character under it. -/
def step (s : Stream) (c : Char) (h : s.cursor.offset < s.source.taken) : Stream :=
  { s with
    cursor := s.cursor.step c s.previous?
    cursor_le := by rw [Position.offset_step]; exact h
    nested := by
      have := List.pairwise_cons.1 s.nested
      exact List.pairwise_cons.2 ⟨fun m hm => by
        have := this.1 m hm; simp; omega, this.2⟩
    held := s.held.mono (by
      simp only [retainedFrom]
      cases s.marks with
      | nil => simp
      | cons m ms => exact Nat.le_refl _) }

def peek (s : Stream) : Option Char × Stream := (s.fill.current?, s.fill)

def finished (s : Stream) : Bool × Stream := (s.fill.current?.isNone, s.fill)

/-- The filled stream `s` moved one character forward and filled again. -/
def forth (s : Stream) : Stream :=
  if h : s.cursor.offset < s.source.taken then (s.step (s.ring.get s.cursor.offset) h).fill else s

/-- One character forward. The answer is whether the input goes on there. -/
def advance (s : Stream) : Bool × Stream :=
  (s.fill.forth.current?.isSome, s.fill.forth)

def mark (s : Stream) : Stream :=
  { s with
    marks := s.cursor :: s.marks
    openMarks := s.openMarks + 1
    firstMark := if s.openMarks = 0 then s.cursor.offset else s.firstMark
    journal := .markOpened (s.openMarks + 1) s.cursor :: s.journal
    openMarks_eq := congrArg (· + 1) s.openMarks_eq
    firstMark_eq := by
      have hfirst := s.firstMark_eq
      rw [s.openMarks_eq]
      cases h : s.marks with
      | nil => rintro m ⟨⟩; rfl
      | cons n ns =>
        rw [h] at hfirst
        rw [List.getLast?_cons_cons]
        exact hfirst
    nested := List.pairwise_cons.2 ⟨fun m hm => by
      rcases List.mem_cons.1 hm with rfl | hm
      · exact Nat.le_refl _
      · exact (List.pairwise_cons.1 s.nested).1 m hm, s.nested⟩
    held := by
      have := s.held
      simp only [retainedFrom, List.getLastD_cons] at this ⊢
      exact this }

theorem retainedFrom_tail_le {cursor m : Position} {rest : List Position}
    (h : (cursor :: m :: rest).Pairwise fun p q => q.offset ≤ p.offset) :
    retainedFrom cursor (m :: rest) ≤ retainedFrom cursor rest := by
  cases rest with
  | nil => exact retainedFrom_le h
  | cons n ns => exact Nat.le_refl _

theorem firstMark_tail {m : Position} {rest : List Position} {first : Nat}
    (h : ∀ p ∈ (m :: rest).getLast?, first = p.offset) : ∀ p ∈ rest.getLast?, first = p.offset := by
  intro p hp
  apply h
  rw [List.getLast?_cons, hp]
  rfl

def commit (s : Stream) : Stream :=
  match h : s.marks with
  | [] => s
  | m :: rest =>
    { s with
      marks := rest
      openMarks := s.openMarks - 1
      journal := .markClosed m .commit s.cursor :: s.journal
      openMarks_eq := by rw [s.openMarks_eq, h, List.length_cons, Nat.add_sub_cancel]
      firstMark_eq := by
        have := s.firstMark_eq; rw [h] at this
        exact firstMark_tail this
      nested := by
        have := s.nested; rw [h] at this
        exact this.sublist (List.Sublist.cons_cons _ (List.sublist_cons_self _ _))
      held := by
        have hn := s.nested; rw [h] at hn
        have hh := s.held; rw [h] at hh
        exact hh.mono (Nat.sub_le_sub_right (retainedFrom_tail_le hn) 1) }

def rewind (s : Stream) : Stream :=
  match h : s.marks with
  | [] => s
  | m :: rest =>
    { s with
      cursor := m
      marks := rest
      openMarks := s.openMarks - 1
      journal := .markClosed m .rewind s.cursor :: s.journal
      openMarks_eq := by rw [s.openMarks_eq, h, List.length_cons, Nat.add_sub_cancel]
      firstMark_eq := by
        have := s.firstMark_eq; rw [h] at this
        exact firstMark_tail this
      cursor_le := by
        have := s.nested; rw [h] at this
        exact Nat.le_trans ((List.pairwise_cons.1 this).1 m (by simp)) s.cursor_le
      nested := by
        have := s.nested; rw [h] at this
        exact (List.pairwise_cons.1 this).2
      held := by
        have hh := s.held; rw [h] at hh
        simpa only [retainedFrom, List.getLastD_cons] using hh }

def marked (s : Stream) : Text := s.ring.span (s.marks.headD s.cursor).offset s.cursor.offset

def consumed (s : Stream) : Nat := s.cursor.distanceFrom (s.marks.headD s.cursor)

/-- Up to `length` characters from the offset `first` on, as far as the cursor. -/
def substring (s : Stream) (first length : Nat) : Except SpanError Text :=
  if first < s.retained then .error (.beforeRetained first s.retained)
  else if s.cursor.offset < first then .error (.afterCursor first s.cursor.offset)
  else .ok (s.ring.span first (first + min length (s.cursor.offset - first)))

def slice (s : Stream) (first last : Nat) : Except SpanError Text :=
  if last < first then .error (.negativeLength first last) else s.substring first (last - first)

def noted {α : Type} (r : α × Stream) : Noted α := ⟨r.1, r.2.journal.reverse⟩

end Stream

end Lenient
