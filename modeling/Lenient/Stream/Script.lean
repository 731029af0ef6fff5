import Lenient.Stream

/-! Scripts of stream operations. A script runs in order; each operation gives one reply. -/

namespace Lenient

inductive Op
  | peek
  | advance
  | finished
  | mark
  | marked
  | consumed
  | start
  | commit
  | rewind
  /-- Leaves the innermost mark undecided, which returns to it. -/
  | drop
  deriving Repr, DecidableEq

inductive Reply
  | char (c : Option Char)
  | flag (b : Bool)
  | text (t : Text)
  | count (n : Nat)
  | done
  deriving Repr, DecidableEq

namespace Stream

def perform (s : Stream) : Op → Reply × Stream
  | .peek => (.char s.peek.1, s.peek.2)
  | .advance => (.flag s.advance.1, s.advance.2)
  | .finished => (.flag s.finished.1, s.finished.2)
  | .mark => (.done, s.mark)
  | .marked => (.text s.marked, s)
  | .consumed => (.count s.consumed, s)
  | .start => (.count (s.marks.headD s.cursor).offset, s)
  | .commit => (.done, s.commit)
  | .rewind | .drop => (.done, s.rewind)

def play (s : Stream) : List Op → List Reply × Stream
  | [] => ([], s)
  | op :: rest => Cursor.onto [(s.perform op).1] (play (s.perform op).2 rest)

end Stream

end Lenient
