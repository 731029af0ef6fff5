import Lenient.Stream

/-! A stream is a cursor over its source's text: whatever was fetched, evicted or moved to a
larger ring, a look gives the character of the text at the cursor's offset, and the marked text is
the stretch of the text between the mark and the cursor. -/

namespace Lenient.Stream

/-- What was fetched is part of the text: the ring shows its last character. -/
theorem taken_le (s : Stream) : s.source.taken ≤ s.source.text.length := by
  by_cases h : s.source.taken = 0
  · omega
  · have hr := s.retained_le
    have hc := s.cursor_le
    have := s.held_retained.get_eq (s.source.taken - 1) (by omega) (by omega)
    obtain ⟨hlt, -⟩ := List.getElem?_eq_some_iff.1 this
    omega

theorem cursor_le_length (s : Stream) : s.cursor.offset ≤ s.source.text.length :=
  Nat.le_trans s.cursor_le s.taken_le

def unread (s : Stream) : Text := s.source.text.drop s.cursor.offset

/-- The text from each open mark to the end of the source, innermost mark first. -/
def pins (s : Stream) : List Text := s.marks.map fun m => s.source.text.drop m.offset

@[simp] theorem text_fill (s : Stream) : s.fill.source.text = s.source.text := by
  unfold fill pull; split
  · rfl
  · split <;> rfl

@[simp] theorem cursor_fill (s : Stream) : s.fill.cursor = s.cursor := by
  unfold fill pull; split
  · rfl
  · split <;> rfl

@[simp] theorem marks_fill (s : Stream) : s.fill.marks = s.marks := by
  unfold fill pull; split
  · rfl
  · split <;> rfl

theorem pending_fill {s : Stream} (h : s.source.taken ≤ s.cursor.offset)
    (h' : s.fill.source.taken ≤ s.cursor.offset) : s.fill.source.pending = [] := by
  unfold fill at h' ⊢
  by_cases he : s.ended = true
  · simpa [he] using s.pending_of_ended he
  · have hn : ¬ ((s.ended || decide (s.cursor.offset < s.source.taken)) = true) := by
      simp [he]; omega
    rw [if_neg hn] at h' ⊢
    unfold pull at h' ⊢
    split at h'
    · next hp => exact (Source.request_of_nil hp).1
    · next c rest hp =>
      exfalso
      have : (s.store c rest hp).source.taken = s.source.taken + 1 := Source.taken_request_of_cons hp
      have := s.cursor_le
      omega

theorem getElem?_cursor {s : Stream} (h : s.cursor.offset < s.source.taken) :
    s.source.text[s.cursor.offset]? = some (s.ring.get s.cursor.offset) :=
  s.held_retained.get_eq _ (by have := s.retained_le; omega) h

/-- A look shows the first unread character. -/
theorem current?_fill (s : Stream) : s.fill.current? = s.unread.head? := by
  unfold current? unread
  rw [List.head?_drop, ← text_fill s, ← cursor_fill s]
  split
  · next h => exact (getElem?_cursor h).symm
  · next h =>
    rw [cursor_fill] at h
    have hle : s.source.taken ≤ s.cursor.offset := by
      apply Nat.le_of_not_lt
      intro hlt
      rw [fill, if_pos (by simp [hlt])] at h
      exact h hlt
    have hp := pending_fill hle (by omega)
    have hd := s.fill.source.drop_taken
    rw [hp] at hd
    refine (List.getElem?_eq_none ?_).symm
    have := List.drop_eq_nil_iff.1 hd
    rw [cursor_fill]
    omega

@[simp] theorem unread_fill (s : Stream) : s.fill.unread = s.unread := by simp [unread]

@[simp] theorem pins_fill (s : Stream) : s.fill.pins = s.pins := by simp [pins]

theorem unread_forth {s : Stream} (h : s.current? = s.unread.head?) :
    s.forth.unread = s.unread.tail := by
  unfold forth
  split
  · next hlt => simp [unread, step]
  · next hlt =>
    rw [current?, if_neg hlt] at h
    cases hu : s.unread with
    | nil => rfl
    | cons c rest => rw [hu] at h; cases h

theorem text_forth (s : Stream) : s.forth.source.text = s.source.text := by
  unfold forth
  split
  · next hlt => simp [step]
  · rfl

theorem text_advance (s : Stream) : s.advance.2.source.text = s.source.text := by
  unfold advance
  rw [text_forth, text_fill]

theorem unread_advance (s : Stream) : s.advance.2.unread = s.unread.tail := by
  unfold advance
  rw [unread_forth (by rw [current?_fill, unread_fill]), unread_fill]

theorem pins_forth (s : Stream) : s.forth.pins = s.pins := by
  unfold forth
  split
  · next hlt => simp [pins, step]
  · rfl

theorem pins_advance (s : Stream) : s.advance.2.pins = s.pins := by
  unfold advance
  rw [pins_forth, pins_fill]

theorem text_commit (s : Stream) : s.commit.source.text = s.source.text := by
  unfold commit; split <;> rfl

theorem text_rewind (s : Stream) : s.rewind.source.text = s.source.text := by
  unfold rewind; split <;> rfl

theorem unread_commit (s : Stream) : s.commit.unread = s.unread := by
  unfold commit; split <;> rfl

theorem pins_commit (s : Stream) : s.commit.pins = s.pins.tail := by
  unfold commit; split <;> simp [pins, *]

theorem unread_rewind (s : Stream) : s.rewind.unread = s.pins.headD s.unread := by
  unfold rewind; split <;> simp [pins, unread, *]

theorem pins_rewind (s : Stream) : s.rewind.pins = s.pins.tail := by
  unfold rewind; split <;> simp [pins, *]

theorem headD_marks_le (s : Stream) : (s.marks.headD s.cursor).offset ≤ s.cursor.offset := by
  cases h : s.marks with
  | nil => exact Nat.le_refl _
  | cons m ms =>
    have := s.nested
    rw [h] at this
    exact (List.pairwise_cons.1 this).1 m (by simp)

theorem retained_le_headD_marks (s : Stream) : s.retained ≤ (s.marks.headD s.cursor).offset := by
  rw [s.retained_eq]
  cases h : s.marks with
  | nil => exact Nat.le_refl _
  | cons m ms =>
    have := s.nested
    rw [h] at this
    rw [retainedFrom, List.getLastD_cons]
    exact retainedFrom_le (List.pairwise_cons.1 this).2

theorem marked_eq (s : Stream) :
    s.marked = (s.source.text.drop (s.marks.headD s.cursor).offset).take
      (s.cursor.offset - (s.marks.headD s.cursor).offset) :=
  s.held_retained.span_eq (by have := s.retained_le_headD_marks; omega) s.cursor_le

theorem marked_append (s : Stream) : s.marked ++ s.unread = s.pins.headD s.unread := by
  have hle := s.headD_marks_le
  have hd : s.unread = (s.source.text.drop (s.marks.headD s.cursor).offset).drop
      (s.cursor.offset - (s.marks.headD s.cursor).offset) := by
    rw [List.drop_drop, unread]
    congr 1
    omega
  have hp : s.pins.headD s.unread = s.source.text.drop (s.marks.headD s.cursor).offset := by
    unfold pins unread
    cases s.marks <;> rfl
  rw [marked_eq, hp]
  conv => lhs; rhs; rw [hd]
  exact List.take_append_drop _ _

instance : Cursor Stream where
  head? s := s.peek.1
  look s := s.peek.2
  advance s := s.advance.2
  mark := mark
  marked := marked
  commit := commit
  rewind := rewind
  position := cursor
  note := note
  whole s := s.source.text
  unread := unread
  pins := pins
  offset_le := cursor_le_length
  unread_eq _ := rfl
  whole_look := text_fill
  whole_advance := text_advance
  whole_mark _ := rfl
  whole_commit := text_commit
  whole_rewind := text_rewind
  whole_note _ _ := rfl
  head?_eq := current?_fill
  unread_look := unread_fill
  unread_advance := unread_advance
  unread_mark _ := rfl
  unread_commit := unread_commit
  unread_rewind := unread_rewind
  unread_note _ _ := rfl
  pins_look := pins_fill
  pins_advance := pins_advance
  pins_mark _ := rfl
  pins_commit := pins_commit
  pins_rewind := pins_rewind
  pins_note _ _ := rfl
  marked_append := marked_append

end Lenient.Stream
