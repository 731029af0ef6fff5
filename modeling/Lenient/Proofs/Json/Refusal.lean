import Lenient.Proofs.Json.Building

/-! A refused call leaves no trace. Most calls look at the innermost level before they do anything. Two take
several steps: a property is opened, given its value and closed, and elements are added one after the other.
Their first step decides, because the steps behind it find the level that they need. So the builder after a
refused call is the builder before it, and of any sequence of calls the refused ones can be struck out. -/

namespace Lenient.Json.Builder

/-- Calls one after the other, up to the first that is refused. -/
def performEach (b : Builder) : List Call → Outcome
  | [] => b.accepted
  | call :: calls => Outcome.andThen (b.perform call) fun b' => b'.performEach calls

/-- If the call was refused, it left the builder `b` behind. -/
def Intact (b : Builder) (r : Outcome) : Prop := r.1 ≠ none → r.2 = b

section Intact

variable {b : Builder}

theorem intact_accepted (b' : Builder) : Intact b b'.accepted := fun h => absurd rfl h

theorem intact_refuse (e : BuildError) : Intact b (b.refuse e) := fun _ => rfl

theorem intact_openContainer (shape : Shape) : Intact b (b.openContainer shape) := by
  unfold openContainer
  split
  · split
    · exact intact_refuse _
    · exact intact_accepted _
  · exact intact_refuse _
  · exact intact_accepted _
  · exact intact_refuse _
  · exact intact_accepted _

theorem intact_openProperty (name : Text) : Intact b (b.openProperty name) := by
  unfold openProperty
  split
  · exact intact_accepted _
  · exact intact_refuse _

theorem intact_setValue (value : Option Text) : Intact b (b.setValue value) := by
  unfold setValue
  split
  · exact intact_accepted _
  · exact intact_refuse _
  · exact intact_refuse _

theorem intact_addElement (value : Option Text) : Intact b (b.addElement value) := by
  unfold addElement
  split
  · exact intact_accepted _
  · exact intact_refuse _

theorem close_refused_iff (b : Builder) : b.close.1 ≠ none ↔ b.depth = 0 := by
  rw [depth, List.length_eq_zero_iff]
  constructor
  · intro h
    cases hf : b.frames with
    | nil => rfl
    | cons f outer => exact absurd (close_of_frames hf).1 h
  · intro h
    rw [close, h]
    exact Option.some_ne_none _

theorem intact_close : Intact b b.close := by
  intro h
  have hf : b.frames = [] := List.length_eq_zero_iff.1 ((close_refused_iff b).1 h)
  rw [close, hf]
  rfl

theorem andThen_of_refused {r : Outcome} (h : r.1 ≠ none) (f : Builder → Outcome) :
    Outcome.andThen r f = r := by
  rcases r with ⟨_ | e, b⟩
  · exact absurd rfl h
  · rfl

theorem frames_of_openProperty {name : Text} (h : (b.openProperty name).1 = none) :
    ∃ element outer, b.frames = .container .object element :: outer := by
  unfold openProperty at h
  split at h
  · next element outer hf => exact ⟨element, outer, hf⟩
  · cases h

theorem addProperty_of_object {element : Bool} {outer : List Frame}
    (h : b.frames = .container .object element :: outer) (name : Text) (value : Option Text) :
    b.addProperty name value =
      (b.emit [.beginProperty name, .value value, .endProperty name]).accepted := by
  obtain ⟨frames, rooted, emitted, notices⟩ := b
  simp only at h
  subst h
  simp [addProperty, openProperty, setValue, close, emit, accepted, Outcome.andThen]

theorem intact_addProperty (name : Text) (value : Option Text) :
    Intact b (b.addProperty name value) := by
  by_cases ho : (b.openProperty name).1 = none
  · obtain ⟨element, outer, hf⟩ := frames_of_openProperty ho
    rw [addProperty_of_object hf]
    exact intact_accepted _
  · rw [addProperty, andThen_of_refused ho, andThen_of_refused ho]
    exact intact_openProperty name

theorem emit_emit (es es' : List Event) : (b.emit es).emit es' = b.emit (es ++ es') := by
  simp [emit]

theorem addElement_of_array {element : Bool} {outer : List Frame}
    (h : b.frames = .container .array element :: outer) (value : Option Text) :
    b.addElement value = (b.emit [.beginElement, .value value, .endElement]).accepted := by
  rw [addElement, h]

theorem addElements_of_array {element : Bool} {outer : List Frame}
    (h : b.frames = .container .array element :: outer) (values : List Text) :
    b.addElements values = (b.emit
      (values.flatMap fun v => [.beginElement, .value (some v), .endElement])).accepted := by
  rw [addElements, h]
  simp only
  induction values generalizing b with
  | nil => simp [emit]
  | cons v values ih =>
    have hv : Outcome.andThen b.accepted (addElement (some v)) =
        (b.emit [.beginElement, .value (some v), .endElement]).accepted := addElement_of_array h (some v)
    have hf : (b.emit [.beginElement, .value (some v), .endElement]).frames =
        .container .array element :: outer := h
    rw [List.foldl_cons, hv, ih hf, emit_emit, List.flatMap_cons]

theorem intact_addElements (values : List Text) : Intact b (b.addElements values) := by
  by_cases ha : ∃ element outer, b.frames = .container .array element :: outer
  · obtain ⟨element, outer, hf⟩ := ha
    rw [addElements_of_array hf]
    exact intact_accepted _
  · unfold addElements
    split
    · next element outer hf => exact absurd ⟨element, outer, hf⟩ ha
    · exact intact_refuse _

theorem intact_perform (b : Builder) (call : Call) : Intact b (b.perform call) := by
  cases call with
  | openContainer shape => exact intact_openContainer shape
  | openProperty name => exact intact_openProperty name
  | addProperty name value => exact intact_addProperty name value
  | setValue value => exact intact_setValue value
  | addElement value => exact intact_addElement value
  | addElements values => exact intact_addElements values
  | close => exact intact_close

end Intact

/-! Striking out refused calls. -/

def acceptedCalls (b : Builder) : List Call → List Call
  | [] => []
  | call :: calls =>
    if (b.perform call).1 = none then call :: (b.perform call).2.acceptedCalls calls
    else (b.perform call).2.acceptedCalls calls

theorem performAll_cons_of_refused {b : Builder} {call : Call} (h : (b.perform call).1 ≠ none)
    (calls : List Call) : b.performAll (call :: calls) = b.performAll calls := by
  rw [performAll, List.foldl_cons, intact_perform b call h]
  rfl

/-- Without the refused calls, the same builder is reached and no call is refused. -/
theorem performEach_acceptedCalls (b : Builder) (calls : List Call) :
    b.performEach (b.acceptedCalls calls) = (b.performAll calls).accepted := by
  induction calls generalizing b with
  | nil => rfl
  | cons call calls ih =>
    rw [acceptedCalls]
    split
    · next ha =>
      have hp : b.perform call = (b.perform call).2.accepted := Prod.ext ha rfl
      rw [performEach, hp]
      exact ih _
    · next hr =>
      rw [intact_perform b call hr, performAll_cons_of_refused hr]
      exact ih b

/-- Whatever calls a builder was given, a call that is refused leaves it exactly as it was, so that every
later call has the outcome that it would have had without it; without all the refused calls the same builder
is reached and none is refused. Closing is refused exactly if nothing is open. -/
theorem refusal_leaves_no_trace (calls : List Call) (call : Call) :
    (∀ e, ((performAll {} calls).perform call).1 = some e →
      ((performAll {} calls).perform call).2 = performAll {} calls ∧
      ∀ later next, (performAll {} (calls ++ call :: later)).perform next =
        (performAll {} (calls ++ later)).perform next) ∧
    performEach {} (acceptedCalls {} calls) = (none, performAll {} calls) ∧
    (((performAll {} calls).perform .close).1 ≠ none ↔ (performAll {} calls).depth = 0) := by
  refine ⟨fun e he => ?_, performEach_acceptedCalls {} calls, close_refused_iff _⟩
  have hr : ((performAll {} calls).perform call).1 ≠ none := by
    rw [he]
    exact Option.some_ne_none e
  refine ⟨intact_perform _ call hr, fun later next => ?_⟩
  rw [performAll_append, performAll_append, performAll_cons_of_refused hr]

/-- In the array that the calls leave open a property is refused, and an element goes where it would have
gone before. -/
theorem strayCalls_refuse_property :
    ((performAll {} strayCalls).perform (.addProperty ['b'] none)).1 =
        some (.propertyOutsideObject ['b']) ∧
      ((performAll {} strayCalls).perform (.addProperty ['b'] none)).2 = performAll {} strayCalls ∧
      (performAll {} (strayCalls ++ [.addProperty ['b'] none, .addElement none])).perform .close =
        (performAll {} (strayCalls ++ [.addElement none])).perform .close :=
  have hr : ((performAll {} strayCalls).perform (.addProperty ['b'] none)).1 =
      some (.propertyOutsideObject ['b']) := by decide
  have h := (refusal_leaves_no_trace strayCalls (.addProperty ['b'] none)).1 _ hr
  ⟨hr, h.1, h.2 [.addElement none] .close⟩

end Lenient.Json.Builder
