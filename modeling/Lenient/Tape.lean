import Lenient.Stream.Script

/-! A tape is the plainest thing that a stream could be: the whole text, the offset of the cursor
and the offsets of the open marks. It answers the operations of a stream and fetches nothing. -/

namespace Lenient

structure Tape where
  text : Text
  offset : Nat := 0
  /-- The offsets of the open marks, innermost first. -/
  marks : List Nat := []
  deriving Repr, DecidableEq

namespace Tape

/-- The offset of the innermost mark, or of the cursor if no mark is open. -/
def start (t : Tape) : Nat := t.marks.headD t.offset

/-- The offset of the oldest open mark, or of the cursor if no mark is open. -/
def oldest (t : Tape) : Nat := t.marks.getLastD t.offset

def advance (t : Tape) : Tape := { t with offset := min (t.offset + 1) t.text.length }

def perform (t : Tape) : Op → Reply × Tape
  | .peek => (.char t.text[t.offset]?, t)
  | .advance => (.flag (t.advance.offset < t.text.length), t.advance)
  | .finished => (.flag (t.text.length ≤ t.offset), t)
  | .mark => (.done, { t with marks := t.offset :: t.marks })
  | .marked => (.text ((t.text.drop t.start).take (t.offset - t.start)), t)
  | .consumed => (.count (t.offset - t.start), t)
  | .start => (.count t.start, t)
  | .commit => (.done, { t with marks := t.marks.tail })
  | .rewind | .drop => (.done, { t with offset := t.start, marks := t.marks.tail })

def play (t : Tape) : List Op → List Reply × Tape
  | [] => ([], t)
  | op :: rest => Cursor.onto [(t.perform op).1] (play (t.perform op).2 rest)

end Tape

end Lenient
