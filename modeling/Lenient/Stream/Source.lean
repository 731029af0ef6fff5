import Lenient.Text

/-! A source hands out a text one character at a time and counts how often it was asked. -/

namespace Lenient

structure Source where
  text : Text
  pending : Text := text
  taken : Nat := 0
  requests : Nat := 0
  drop_taken : text.drop taken = pending := by rfl

namespace Source

/-- The source after one more request, which hands out the first pending character if there is
one. -/
def request (s : Source) : Source where
  text := s.text
  pending := s.pending.tail
  taken := s.taken + (s.pending.take 1).length
  requests := s.requests + 1
  drop_taken := by
    rw [← List.drop_drop, s.drop_taken]
    cases s.pending <;> rfl

def next (s : Source) : Option Char × Source := (s.pending.head?, s.request)

@[simp] theorem text_request (s : Source) : s.request.text = s.text := rfl

theorem taken_request_of_cons {s : Source} {c : Char} {rest : Text} (h : s.pending = c :: rest) :
    s.request.taken = s.taken + 1 := by
  simp [request, h]

theorem request_of_nil {s : Source} (h : s.pending = []) :
    s.request.pending = [] ∧ s.request.taken = s.taken := by
  simp [request, h]

theorem getElem?_taken (s : Source) : s.text[s.taken]? = s.pending.head? := by
  rw [← s.drop_taken, List.head?_drop]

end Source

end Lenient
