import Lenient.Stream.Reading
import Lenient.Tape

/-! A stream refines the tape of its text. `tape` forgets what a stream has fetched and where its
ring keeps it; what is left is the text, the offset of the cursor and the offsets of the open marks.
Each operation answers on the stream what it answers on the tape and leads to the tape of the stream
that it leaves behind, so a whole script does. -/

namespace Lenient.Stream

/-- What a stream is when nothing of its ring and its source is seen. -/
def tape (s : Stream) : Tape := ⟨s.source.text, s.cursor.offset, s.marks.map (·.offset)⟩

@[simp] theorem tape_sized (capacity : Nat) (w : Text) : (sized capacity w).tape = { text := w } := rfl

@[simp] theorem tape_fill (s : Stream) : s.fill.tape = s.tape := by simp [tape]

@[simp] theorem tape_mark (s : Stream) :
    s.mark.tape = { s.tape with marks := s.tape.offset :: s.tape.marks } := rfl

theorem tape_commit (s : Stream) : s.commit.tape = { s.tape with marks := s.tape.marks.tail } := by
  unfold commit
  split <;> simp [tape, *]

theorem start_tape (s : Stream) : s.tape.start = (s.marks.headD s.cursor).offset := by
  unfold Tape.start tape
  cases s.marks <;> rfl

theorem tape_rewind (s : Stream) :
    s.rewind.tape = { s.tape with offset := s.tape.start, marks := s.tape.marks.tail } := by
  unfold rewind
  split <;> simp [tape, Tape.start, *]

theorem oldest_tape (s : Stream) : s.tape.oldest = s.retained := by
  rw [s.retained_eq]
  simp only [retainedFrom, Tape.oldest, tape, List.getLastD_eq_getLast?, List.getLast?_map]
  cases s.marks.getLast? <;> rfl

theorem getElem?_tape (s : Stream) : s.fill.current? = s.tape.text[s.tape.offset]? := by
  rw [current?_fill, unread, List.head?_drop]
  rfl

theorem offset_eq_of_current?_fill {s : Stream} (h : s.fill.current? = none) :
    s.cursor.offset = s.source.text.length := by
  rw [getElem?_tape] at h
  have hge := List.getElem?_eq_none_iff.1 h
  have hle := s.cursor_le_length
  simp only [tape] at hge
  omega

theorem tape_advance (s : Stream) : s.advance.2.tape = s.tape.advance := by
  have hle := s.fill.taken_le
  unfold advance forth Tape.advance
  split
  · next h =>
    have hlt : s.cursor.offset + 1 ≤ s.source.text.length := by
      simp only [cursor_fill, text_fill] at h hle
      omega
    simp [tape, step, Nat.min_eq_left hlt]
  · next h =>
    -- nothing is left to step over, so the cursor stays at the end
    have he : s.fill.current? = none := by unfold current?; rw [if_neg h]
    simp [tape, offset_eq_of_current?_fill he]

theorem current?_fill_fill (s : Stream) : s.fill.fill.current? = s.fill.current? := by
  rw [getElem?_tape, tape_fill, ← getElem?_tape]

theorem current?_advance (s : Stream) : s.advance.2.fill.current? = s.advance.2.current? := by
  unfold advance forth
  split
  · exact current?_fill_fill _
  · exact current?_fill_fill _

theorem advance_fst (s : Stream) :
    s.advance.1 = decide (s.tape.advance.offset < s.tape.text.length) := by
  have h : s.advance.1 = s.advance.2.fill.current?.isSome := by rw [current?_advance]; rfl
  have ht : s.tape.advance.text = s.tape.text := rfl
  rw [h, getElem?_tape, tape_advance, ht, Bool.eq_iff_iff]
  simp

/-- One operation gives the reply of the tape and leads to the tape that it leads to. -/
theorem perform_tape (s : Stream) (op : Op) :
    (s.perform op).1 = (s.tape.perform op).1 ∧ (s.perform op).2.tape = (s.tape.perform op).2 := by
  cases op with
  | peek => exact ⟨congrArg Reply.char s.getElem?_tape, s.tape_fill⟩
  | advance => exact ⟨congrArg Reply.flag s.advance_fst, s.tape_advance⟩
  | finished =>
    refine ⟨congrArg Reply.flag ?_, s.tape_fill⟩
    change s.fill.current?.isNone = decide (s.tape.text.length ≤ s.tape.offset)
    rw [getElem?_tape, Bool.eq_iff_iff]
    simp
  | mark => exact ⟨rfl, s.tape_mark⟩
  | marked => exact ⟨congrArg Reply.text (by rw [start_tape]; exact s.marked_eq), rfl⟩
  | consumed => exact ⟨congrArg Reply.count (by rw [start_tape]; rfl), rfl⟩
  | start => exact ⟨congrArg Reply.count s.start_tape.symm, rfl⟩
  | commit => exact ⟨rfl, s.tape_commit⟩
  | rewind => exact ⟨rfl, s.tape_rewind⟩
  | drop => exact ⟨rfl, s.tape_rewind⟩

theorem play_tape (s : Stream) (ops : List Op) :
    (s.play ops).1 = (s.tape.play ops).1 ∧ (s.play ops).2.tape = (s.tape.play ops).2 := by
  induction ops generalizing s with
  | nil => exact ⟨rfl, rfl⟩
  | cons op rest ih =>
    obtain ⟨hr, ht⟩ := s.perform_tape op
    obtain ⟨hrs, hts⟩ := ih (s.perform op).2
    rw [ht] at hrs hts
    simp only [play, Tape.play, Cursor.onto_fst, Cursor.onto_snd]
    exact ⟨by rw [hr, hrs], hts⟩

/-- The stream `s` stands for the tape `t`, and its ring has every character that was fetched from
the oldest open mark of `t` on, each where its offset says. -/
structure Shows (s : Stream) (t : Tape) : Prop where
  tape_eq : s.tape = t
  fetched : t.offset ≤ s.source.taken
  kept : ∀ o, t.oldest ≤ o → o < s.source.taken → t.text[o]? = some (s.ring.get o)

theorem shows_tape (s : Stream) : s.Shows s.tape := by
  refine ⟨rfl, s.cursor_le, ?_⟩
  intro o ho hlt
  rw [oldest_tape] at ho
  apply s.held_retained.get_eq o _ hlt
  exact Nat.le_trans (Nat.sub_le _ 1) ho

/-- Whatever its ring does, a new stream answers a script as the plain text does, and stands for the
tape that the script leaves behind. -/
theorem play_sized (capacity : Nat) (w : Text) (ops : List Op) :
    ((sized capacity w).play ops).1 = (Tape.play { text := w } ops).1 ∧
      ((sized capacity w).play ops).2.Shows (Tape.play { text := w } ops).2 := by
  obtain ⟨hr, ht⟩ := (sized capacity w).play_tape ops
  rw [tape_sized] at hr ht
  refine ⟨hr, ?_⟩
  rw [← ht]
  exact shows_tape _

end Lenient.Stream
