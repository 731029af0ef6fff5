import Lenient.Query.Step
import Lenient.Stream.Reading

/-! The query reader. It reads to the end of the input and never fails: a parenthesis that closes
nothing is skipped, and groups that the input leaves open are closed at its end. A group nested
deeper than the limit ends the reading on its parenthesis.

The reader keeps the labels of the open groups, innermost first, and takes one step after another.
It starts again as long as a run of terms ends before the input does; `read_eq` says that none does. -/

namespace Lenient.Query

open Cursor Lexeme

variable {σ : Type}

/-- Leaves every open group without reading on. -/
def unwind : List (Option Text) → σ → List Event × Bool × σ
  | [], s => ([], true, s)
  | label :: outer, s => onto [Event.closing label] (unwind outer s)

theorem unwind_eq (groups : List (Option Text)) (s : σ) :
    unwind groups s = (groups.map Event.closing, true, s) := by
  induction groups with
  | nil => rfl
  | cons label outer ih => rw [unwind, ih]; rfl

variable [Cursor σ]

/-- Reads on to the end of the query, inside groups with the labels `groups`, innermost first. The
answer tells whether a group that is nested too deep ended the reading. -/
def events (o : Options) (groups : List (Option Text)) (s : σ) : List Event × Bool × σ :=
  match _h : step o groups s with
  | (.finish, t) =>
    match groups with
    | [] => ([], false, t)
    | label :: outer =>
      -- the group around it meets the end of the input in its turn
      onto [Event.closing label] (events o outer (note (.groupsUnclosed (outer.length + 1)) t))
  | (.halt, t) => unwind groups t
  | (.leave, t) =>
    match groups with
    | [] => events o [] (note (.groupUnmatched (position t)) t)
    | label :: outer => onto [Event.closing label] (events o outer t)
  | (.enter label, t) => onto [Event.opening label] (events o (label :: groups) t)
  | (.term es, t) => onto es (events o groups t)
termination_by 2 * remaining s + groups.length
decreasing_by
  · have := ((forward_of_step _h).trans (forward_note (.groupsUnclosed (outer.length + 1)) t)).le
    simp only [List.length_cons]
    omega
  all_goals have hlt := remaining_lt_of_step _h (by simp) (by simp)
  · have := (forward_note (.groupUnmatched (position t)) t).le
    simp only [List.length_nil]
    omega
  · simp only [List.length_cons]
    omega
  · simp only [List.length_cons]
    omega
  · omega

/-! One equation for each step that `events` may take. -/

theorem events_finish {o : Options} {s t : σ} (h : step o [] s = (.finish, t)) :
    events o [] s = ([], false, t) := by
  rw [events]; split <;> simp_all

theorem events_unclosed {o : Options} {label : Option Text} {outer : List (Option Text)} {s t : σ}
    (h : step o (label :: outer) s = (.finish, t)) :
    events o (label :: outer) s =
      onto [Event.closing label] (events o outer (note (.groupsUnclosed (outer.length + 1)) t)) := by
  rw [events]; split <;> simp_all

theorem events_halt {o : Options} {groups : List (Option Text)} {s t : σ}
    (h : step o groups s = (.halt, t)) :
    events o groups s = (groups.map Event.closing, true, t) := by
  rw [← unwind_eq, events]; split <;> simp_all

theorem events_unmatched {o : Options} {s t : σ} (h : step o [] s = (.leave, t)) :
    events o [] s = events o [] (note (.groupUnmatched (position t)) t) := by
  rw [events]; split <;> simp_all

theorem events_leave {o : Options} {label : Option Text} {outer : List (Option Text)} {s t : σ}
    (h : step o (label :: outer) s = (.leave, t)) :
    events o (label :: outer) s = onto [Event.closing label] (events o outer t) := by
  rw [events]; split <;> simp_all

theorem events_enter {o : Options} {groups : List (Option Text)} {label : Option Text} {s t : σ}
    (h : step o groups s = (.enter label, t)) :
    events o groups s = onto [Event.opening label] (events o (label :: groups) t) := by
  rw [events]; split <;> simp_all

theorem events_term {o : Options} {groups : List (Option Text)} {es : List Event} {s t : σ}
    (h : step o groups s = (.term es, t)) :
    events o groups s = onto es (events o groups t) := by
  rw [events]; split <;> simp_all

theorem forward_events (o : Options) (groups : List (Option Text)) (s : σ) :
    Forward s (events o groups s).2.2 := by
  fun_induction events o groups s with
  | case1 s t h => exact forward_of_step h
  | case2 s t label outer h ih => exact ((forward_of_step h).trans (forward_note _ _)).trans ih
  | case3 groups s t h =>
    rw [unwind_eq]
    exact forward_of_step h
  | case4 s t h ih => exact ((forward_of_step h).trans (forward_note _ _)).trans ih
  | case5 s t label outer h ih => exact (forward_of_step h).trans ih
  | case6 groups s label t h ih => exact (forward_of_step h).trans ih
  | case7 groups s es t h ih => exact (forward_of_step h).trans ih

/-- A reading that no group ended has come to the end of the input. -/
theorem head?_events {o : Options} {groups : List (Option Text)} {s : σ}
    (h : (events o groups s).2.1 = false) : head? (events o groups s).2.2 = none := by
  fun_induction events o groups s with
  | case1 s t hs => exact fits_of_step hs
  | case2 s t label outer hs ih => exact ih h
  | case3 groups s t hs =>
    rw [unwind_eq] at h
    cases h
  | case4 s t hs ih => exact ih h
  | case5 s t label outer hs ih => exact ih h
  | case6 groups s label t hs ih => exact ih h
  | case7 groups s es t hs ih => exact ih h

/-- At the end of the input the open groups are closed, one after the other. -/
theorem events_ended (o : Options) (groups : List (Option Text)) {s : σ} (h : head? s = none) :
    (events o groups s).1 = groups.map Event.closing ∧ (events o groups s).2.1 = false := by
  induction groups generalizing s with
  | nil =>
    rw [events_finish (step_ended o [] h)]
    exact ⟨rfl, rfl⟩
  | cons label outer ih =>
    have hstep := step_ended o (label :: outer) h
    have hend : head? (skipSpaces s) = none := fits_of_step hstep
    obtain ⟨he, hf⟩ := ih ((head?_note (.groupsUnclosed (outer.length + 1)) _).trans hend)
    rw [events_unclosed hstep]
    exact ⟨by rw [onto_fst, he]; rfl, hf⟩

/-- Reads the rest of the input, each run of terms at the top level as one query. -/
def read (o : Options) (s : σ) : List Event × σ :=
  match _h : events o [] s with
  | (es, true, t) => (.beginQuery :: es ++ [.endQuery], t)
  | (es, false, t) =>
    match _ht : head? t with
    | none => (.beginQuery :: es ++ [.endQuery], look t)
    | some _ => onto (.beginQuery :: es ++ [.endQuery]) (read o (look t))
termination_by remaining s
decreasing_by
  -- there is no second run: the first one ends at the end of the input
  have := head?_events (congrArg (·.2.1) _h)
  rw [_h] at this
  rw [this] at _ht
  cases _ht

/-- The first run of terms is the only one. -/
theorem read_eq (o : Options) (s : σ) :
    (read o s).1 = .beginQuery :: (events o [] s).1 ++ [.endQuery] ∧
      ((read o s).2 = (events o [] s).2.2 ∨ (read o s).2 = look (events o [] s).2.2) := by
  have hend : (events o [] s).2.1 = false → head? (events o [] s).2.2 = none := head?_events
  rw [read]
  split
  · next h => rw [h]; exact ⟨rfl, Or.inl rfl⟩
  · next h =>
    rw [h] at hend ⊢
    split
    · exact ⟨rfl, Or.inr rfl⟩
    · next hc => rw [hend rfl] at hc; cases hc

theorem forward_read (o : Options) (s : σ) : Forward s (read o s).2 := by
  rcases (read_eq o s).2 with h | h
  · rw [h]
    exact forward_events o [] s
  · rw [h]
    exact (forward_events o [] s).trans (forward_look _)

def parse (t : Text) : Noted (List Event) := Stream.noted (read {} (Stream.ofText t))

def render (t : Text) : Noted Text := ⟨trace (parse t).value, (parse t).notices⟩

end Lenient.Query
