import Lenient.Stream.Reading
import Lenient.Stream.Script
import Mathlib.Data.List.DropRight

/-! Where a stream says that it is follows from its text and the offset alone. A position is counted up
character by character, and each step looks back at the character before, which the ring may have moved
or be about to lose. The count agrees with what the text in front of the offset has: as many lines as it
has line ends, a carriage return and a line feed behind it being one, and as many columns as there are
characters behind the last line end. -/

namespace Lenient

namespace Position

/-- The line feed at `i` ends a line of its own: no carriage return stands right in front of it. -/
def IsLoneFeed (t : Text) (i : Nat) : Prop := t[i]? = some '\n' ∧ (i = 0 ∨ t[i - 1]? ≠ some '\r')

instance (t : Text) : DecidablePred (IsLoneFeed t) := fun i =>
  inferInstanceAs (Decidable (t[i]? = some '\n' ∧ (i = 0 ∨ t[i - 1]? ≠ some '\r')))

def lineEnds (t : Text) : Nat :=
  t.count '\r' + (List.range t.length).countP fun i => decide (IsLoneFeed t i)

def endsLine (c : Char) : Bool := c = '\r' || c = '\n'

/-- How many characters of a text stand behind its last line end. -/
def lastColumn (t : Text) : Nat := (t.rtakeWhile fun c => !endsLine c).length

theorem isLoneFeed_append {t : Text} {i : Nat} (c : Char) (h : i < t.length) :
    IsLoneFeed (t ++ [c]) i ↔ IsLoneFeed t i := by
  unfold IsLoneFeed
  rw [List.getElem?_append_left h, List.getElem?_append_left (by omega)]

theorem isLoneFeed_length (t : Text) (c : Char) :
    IsLoneFeed (t ++ [c]) t.length ↔ c = '\n' ∧ t.getLast? ≠ some '\r' := by
  unfold IsLoneFeed
  cases t with
  | nil => simp
  | cons d t =>
    have hbefore : (d :: t ++ [c])[(d :: t).length - 1]? = (d :: t).getLast? := by
      rw [List.getElem?_append_left (by simp), List.getLast?_eq_getElem?]
    rw [hbefore, List.getElem?_append_right (Nat.le_refl _)]
    simp

/-- One more character ends one more line, if it ends any. -/
theorem lineEnds_append (t : Text) (c : Char) :
    lineEnds (t ++ [c]) =
      lineEnds t + if c = '\r' ∨ c = '\n' ∧ t.getLast? ≠ some '\r' then 1 else 0 := by
  have hold : (List.range t.length).countP (fun i => decide (IsLoneFeed (t ++ [c]) i)) =
      (List.range t.length).countP fun i => decide (IsLoneFeed t i) := by
    apply List.countP_congr
    intro i hi
    simp [isLoneFeed_append c (List.mem_range.1 hi)]
  unfold lineEnds
  rw [List.length_append, List.length_singleton, List.range_succ, List.countP_append, hold,
    List.count_append]
  simp only [List.countP_singleton, List.count_singleton, isLoneFeed_length, decide_eq_true_eq,
    beq_iff_eq]
  by_cases h : c = '\r'
  · have hn : ¬ (c = '\n' ∧ t.getLast? ≠ some '\r') := by simp [h]
    rw [if_pos h, if_neg hn, if_pos (Or.inl h)]
    omega
  · simp only [h, false_or, if_false]
    omega

theorem lastColumn_append (t : Text) (c : Char) :
    lastColumn (t ++ [c]) = if endsLine c then 0 else lastColumn t + 1 := by
  unfold lastColumn
  cases h : endsLine c <;> simp [h]

theorem walk_append (p : Position) (before : Option Char) (t : Text) (c : Char) :
    walk p before (t ++ [c]) =
      walk p before t ++ [((walk p before t).getLastD p).step c (t.getLast?.or before)] := by
  induction t generalizing p before with
  | nil => rfl
  | cons d t ih =>
    have hlast : ((d :: t).getLast?).or before = t.getLast?.or (some d) := by
      rw [List.getLast?_cons]
      cases t.getLast? <;> rfl
    rw [List.cons_append, walk, walk, ih, hlast, List.getLastD_cons, List.cons_append]

theorem after_append (t : Text) (c : Char) : after (t ++ [c]) = (after t).step c t.getLast? := by
  simp [after, walk_append]

theorem after_eq (t : Text) : after t = ⟨t.length, lineEnds t, lastColumn t⟩ := by
  induction t using List.reverseRecOn with
  | nil => rfl
  | append_singleton t c ih =>
    rw [after_append, ih, lineEnds_append, lastColumn_append, List.length_append,
      List.length_singleton]
    unfold step endsLine
    by_cases hr : c = '\r'
    · simp [hr]
    · by_cases hn : c = '\n'
      · by_cases hb : t.getLast? = some '\r' <;> simp [hn, hb]
      · simp [hr, hn]

theorem lineEnds_add_lastColumn_le (t : Text) : lineEnds t + lastColumn t ≤ t.length := by
  induction t using List.reverseRecOn with
  | nil => exact Nat.le_refl 0
  | append_singleton t c ih =>
    rw [lineEnds_append, lastColumn_append, List.length_append, List.length_singleton]
    by_cases h : endsLine c = true
    · rw [if_pos h]
      split <;> omega
    · have hc : ¬ (c = '\r' ∨ c = '\n' ∧ t.getLast? ≠ some '\r') := by
        simp only [endsLine, Bool.or_eq_true, decide_eq_true_eq] at h
        tauto
      rw [if_neg h, if_neg hc]
      omega

end Position

namespace Stream

open Position

/-- The positions that a stream may be asked for: where it is, and where its open marks are. -/
def pointers (s : Stream) : List Position := s.cursor :: s.marks

/-- The stream reads `w`, and each of its positions is the one behind the text in front of it. -/
structure Located (w : Text) (s : Stream) : Prop where
  text_eq : s.source.text = w
  pointers_eq : ∀ p ∈ s.pointers, p = after (w.take p.offset)

theorem located_sized (capacity : Nat) (w : Text) : (sized capacity w).Located w := by
  refine ⟨rfl, ?_⟩
  intro p hp
  rw [List.mem_singleton.1 hp]
  rfl

/-- The character before the cursor is still in the ring: one more is retained than the marks need. -/
theorem previous?_eq (s : Stream) : s.previous? = (s.source.text.take s.cursor.offset).getLast? := by
  have hle := s.cursor_le
  have hr := s.retained_le
  unfold previous?
  rw [List.getLast?_take]
  split
  · next h =>
    have hget := s.held_retained.get_eq (s.cursor.offset - 1) (by omega) (by omega)
    rw [if_neg (by omega), hget, Option.some_or]
  · next h => rw [if_pos (by omega)]

section Located

variable {w : Text} {s : Stream}

theorem Located.of_subset {t : Stream} (h : s.Located w) (ht : t.source.text = s.source.text)
    (hp : t.pointers ⊆ s.pointers) : t.Located w :=
  ⟨ht.trans h.text_eq, fun p hm => h.pointers_eq p (hp hm)⟩

theorem Located.fill (h : s.Located w) : s.fill.Located w :=
  h.of_subset s.text_fill (by simp [pointers])

theorem Located.step (h : s.Located w) (hlt : s.cursor.offset < s.source.taken) :
    (s.step (s.ring.get s.cursor.offset) hlt).Located w := by
  obtain ⟨rfl, hp⟩ := h
  refine ⟨rfl, ?_⟩
  intro p hm
  rcases List.mem_cons.1 hm with rfl | hm
  -- the new cursor looks back at `previous?`, which is the last character that the text has before it
  · change s.cursor.step _ s.previous? = after (s.source.text.take (s.cursor.step _ _).offset)
    have hc : s.cursor = after (s.source.text.take s.cursor.offset) := hp _ List.mem_cons_self
    rw [offset_step, List.take_add_one, getElem?_cursor hlt, Option.toList_some, after_append,
      ← hc, previous?_eq]
  · exact hp p (List.mem_cons_of_mem _ hm)

theorem Located.forth (h : s.Located w) : s.forth.Located w := by
  unfold Stream.forth
  split
  · next hlt => exact (h.step hlt).fill
  · exact h

theorem Located.commit (h : s.Located w) : s.commit.Located w := by
  apply h.of_subset s.text_commit
  unfold Stream.commit
  split
  · exact List.Subset.refl _
  · next m rest hm =>
    intro p hp
    rcases List.mem_cons.1 hp with rfl | hp
    · exact List.mem_cons_self
    · exact List.mem_cons_of_mem _ (by rw [hm]; exact List.mem_cons_of_mem m hp)

theorem Located.rewind (h : s.Located w) : s.rewind.Located w := by
  apply h.of_subset s.text_rewind
  unfold Stream.rewind
  split
  · exact List.Subset.refl _
  · next m rest hm =>
    intro p hp
    exact List.mem_cons_of_mem _ (by rw [hm]; exact hp)

theorem Located.perform (h : s.Located w) (op : Op) : (s.perform op).2.Located w := by
  cases op with
  | peek => exact h.fill
  | advance => exact h.fill.forth
  | finished => exact h.fill
  | mark => exact h.of_subset rfl (by simp [Stream.perform, Stream.mark, pointers])
  | marked => exact h
  | consumed => exact h
  | start => exact h
  | commit => exact h.commit
  | rewind => exact h.rewind
  | drop => exact h.rewind

theorem Located.play (h : s.Located w) (ops : List Op) : (s.play ops).2.Located w := by
  induction ops generalizing s with
  | nil => exact h
  | cons op rest ih => exact ih (h.perform op)

end Located

/-- Wherever a script leads, every position that the stream has is told by its offset in the text: its
line is the number of line ends in front of it, its column the number of characters behind the last of
them, and neither is greater than the offset. So two positions on one text are the same exactly if their
offsets are, whatever scripts they come from. -/
theorem pointer_of_offset (capacity capacity' : Nat) (w : Text) (ops ops' : List Op) (p q : Position)
    (hp : p ∈ ((sized capacity w).play ops).2.pointers)
    (hq : q ∈ ((sized capacity' w).play ops').2.pointers) :
    p.line = lineEnds (w.take p.offset) ∧ p.column = lastColumn (w.take p.offset) ∧
      p.line + p.column ≤ p.offset ∧ (p.same q = true ↔ p = q) := by
  have hpe := ((located_sized capacity w).play ops).pointers_eq p hp
  have hqe := ((located_sized capacity' w).play ops').pointers_eq q hq
  have hline : p.line = lineEnds (w.take p.offset) := by
    conv => lhs; rw [hpe, after_eq]
  have hcolumn : p.column = lastColumn (w.take p.offset) := by
    conv => lhs; rw [hpe, after_eq]
  refine ⟨hline, hcolumn, ?_, ?_⟩
  · have hle := lineEnds_add_lastColumn_le (w.take p.offset)
    have htake := List.length_take_le p.offset w
    omega
  · rw [Position.same, beq_iff_eq]
    constructor
    · intro he
      rw [hpe, hqe, he]
    · intro he
      rw [he]

/-- A line break of two characters that is read three times, the ring growing under an open mark. -/
def brokenText : Text := ['a', '\r', '\n', 'b']

def rereading : List Op :=
  [.mark, .advance, .advance, .mark, .advance, .advance, .rewind, .advance, .rewind, .advance, .advance,
    .mark, .advance]

theorem pointer_of_rereading :
    (⟨3, 1, 0⟩ : Position) ∈ ((sized 0 brokenText).play rereading).2.pointers ∧
      (⟨2, 1, 0⟩ : Position) ∈ ((sized 0 brokenText).play rereading).2.pointers ∧
      lineEnds (brokenText.take 3) = 1 ∧ lastColumn (brokenText.take 3) = 0 ∧
      (Position.same ⟨3, 1, 0⟩ ⟨2, 1, 0⟩ = true ↔ (⟨3, 1, 0⟩ : Position) = ⟨2, 1, 0⟩) := by
  have hp : (⟨3, 1, 0⟩ : Position) ∈ ((sized 0 brokenText).play rereading).2.pointers := by
    decide
  have hq : (⟨2, 1, 0⟩ : Position) ∈ ((sized 0 brokenText).play rereading).2.pointers := by
    decide
  obtain ⟨hline, hcolumn, -, hsame⟩ := pointer_of_offset 0 0 brokenText rereading rereading _ _ hp hq
  exact ⟨hp, hq, hline.symm, hcolumn.symm, hsame⟩

end Stream

end Lenient
