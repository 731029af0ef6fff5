import Lenient.Text

/-! A position in a text: its offset, and the line and column that follow from the characters
before it. A carriage return, a line feed, and the two together each end one line. Positions are
compared by their offsets alone. -/

namespace Lenient

structure Position where
  offset : Nat := 0
  line : Nat := 0
  column : Nat := 0
  deriving Repr, DecidableEq, Inhabited

namespace Position

def step (p : Position) (c : Char) (before : Option Char) : Position :=
  if c = '\r' then ⟨p.offset + 1, p.line + 1, 0⟩
  else if c = '\n' then
    ⟨p.offset + 1, if before = some '\r' then p.line else p.line + 1, 0⟩
  else ⟨p.offset + 1, p.line, p.column + 1⟩

/-- The positions after each character of `t`, starting from `p` behind `before`. -/
def walk (p : Position) (before : Option Char) : Text → List Position
  | [] => []
  | c :: rest => p.step c before :: walk (p.step c before) (some c) rest

def after (t : Text) : Position := (walk {} none t).getLastD {}

def distanceFrom (p earlier : Position) : Nat := p.offset - earlier.offset

def same (p q : Position) : Bool := p.offset == q.offset

instance : Ord Position := ⟨fun p q => compare p.offset q.offset⟩

/-- The later of two positions, the second one if they are the same. -/
def later (p q : Position) : Position := if q.offset < p.offset then p else q

instance : ToString Position := ⟨fun p => s!"{p.offset}[{p.line}:{p.column}]"⟩

@[simp] theorem offset_step (p : Position) (c : Char) (before : Option Char) :
    (p.step c before).offset = p.offset + 1 := by
  unfold step; split
  · rfl
  · split <;> rfl

end Position

end Lenient
