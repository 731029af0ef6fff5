import Lenient.Query.Read
import Lenient.Query.Term

/-! Whatever a text looks like, and whatever its delimiter and escape are, the query reader closes the
groups that it opened. `Within` says what has been read when some groups are open: terms, and for each
open group its opening event and the terms in it so far. Every step of the reader keeps to it, so the
reader stops inside groups that the closing events at the end complete to a list of terms. It stops at
the end of the input, or in front of a group that is one too many. -/

namespace Lenient.Query

open Cursor

namespace Term

theorem allEvents_append (ts us : List Term) : allEvents (ts ++ us) = allEvents ts ++ allEvents us := by
  induction ts with
  | nil => rfl
  | cons t ts ih => simp [allEvents, ih]

theorem allNesting_append (ts us : List Term) :
    allNesting (ts ++ us) = max (allNesting ts) (allNesting us) := by
  induction ts with
  | nil => simp [allNesting]
  | cons t ts ih => simp [allNesting, ih, Nat.max_assoc]

end Term

/-- The events are those of a query up to a place inside the groups with the labels `groups`,
innermost first, and no group in them is nested deeper than `limit`. -/
inductive Within (limit : Nat) : List (Option Text) → List Event → Prop
  | top (ts : List Term) (nesting : Term.allNesting ts ≤ limit) : Within limit [] (Term.allEvents ts)
  | group {outer : List (Option Text)} {es : List Event} (label : Option Text) (ts : List Term)
    (outside : Within limit outer es) (nesting : outer.length + 1 + Term.allNesting ts ≤ limit) :
    Within limit (label :: outer) (es ++ Event.opening label :: Term.allEvents ts)

section Within

variable {limit : Nat} {groups : List (Option Text)} {es : List Event}

theorem Within.length_le (h : Within limit groups es) : groups.length ≤ limit := by
  cases h with
  | top ts nesting => exact Nat.zero_le _
  | group label ts outside nesting => simp only [List.length_cons]; omega

theorem Within.append (us : List Term) (h : Within limit groups es)
    (hu : groups.length + Term.allNesting us ≤ limit) : Within limit groups (es ++ Term.allEvents us) := by
  cases h with
  | top ts nesting =>
    rw [← Term.allEvents_append]
    apply Within.top
    rw [Term.allNesting_append]
    simp only [List.length_nil] at hu
    omega
  | group label ts outside nesting =>
    rw [List.append_assoc, List.cons_append, ← Term.allEvents_append]
    apply Within.group _ _ outside
    rw [Term.allNesting_append]
    simp only [List.length_cons] at hu
    omega

theorem Within.enter (h : Within limit groups es) (label : Option Text) (hd : groups.length < limit) :
    Within limit (label :: groups) (es ++ [Event.opening label]) :=
  .group label [] h hd

/-- A group that is left is one more term of what is around it. -/
theorem Within.leave {label : Option Text} (h : Within limit (label :: groups) es) :
    Within limit groups (es ++ [Event.closing label]) := by
  cases h with
  | group _ ts outside nesting =>
    have := outside.append [.group label ts] (by
      simp only [Term.allNesting, Term.nesting]
      omega)
    simpa [Term.allEvents, Term.events] using this

theorem Within.close (h : Within limit groups es) :
    ∃ ts, es ++ groups.map Event.closing = Term.allEvents ts ∧ Term.allNesting ts ≤ limit := by
  induction groups generalizing es with
  | nil =>
    cases h with
    | top ts nesting => exact ⟨ts, by simp, nesting⟩
  | cons label outer ih =>
    obtain ⟨ts, he, hn⟩ := ih h.leave
    exact ⟨ts, by rw [← he]; simp, hn⟩

end Within

variable {σ : Type} [Cursor σ]

/-- The events of a step that reads no group are those of at most one term. -/
theorem exists_term_of_step {o : Options} {groups : List (Option Text)} {s t : σ} {es : List Event}
    (h : step o groups s = (.term es, t)) :
    ∃ ts, es = Term.allEvents ts ∧ Term.allNesting ts = 0 := by
  rcases fits_of_step h with rfl | ⟨label, value, rfl⟩
  · exact ⟨[], rfl, rfl⟩
  · exact ⟨[.token label value], rfl, rfl⟩

/-- The reader goes on from what was read so far and stops inside some groups, which it closes. -/
theorem within_events (o : Options) (groups : List (Option Text)) (s : σ) {es : List Event}
    (hw : Within o.limit groups es) :
    ∃ es' groups', Within o.limit groups' es' ∧
      es ++ (events o groups s).1 = es' ++ groups'.map Event.closing ∧
      ((events o groups s).2.1 = true →
        o.limit ≤ groups'.length ∧ head? (events o groups s).2.2 = some '(') := by
  -- what was read so far is the invariant of the steps, so `es` grows with them
  fun_induction events o groups s generalizing es with
  | case1 s t h => exact ⟨es, [], hw, rfl, fun h => absurd h Bool.false_ne_true⟩
  | case2 s t label outer h ih =>
    obtain ⟨es', groups', hw', he, hh⟩ := ih hw.leave
    exact ⟨es', groups', hw', by rw [← he]; simp, hh⟩
  | case3 groups s t h =>
    rw [unwind_eq]
    exact ⟨es, groups, hw, rfl, fun _ => fits_of_step h⟩
  | case4 s t h ih => exact ih hw
  | case5 s t label outer h ih =>
    obtain ⟨es', groups', hw', he, hh⟩ := ih hw.leave
    exact ⟨es', groups', hw', by rw [← he]; simp, hh⟩
  | case6 groups s label t h ih =>
    obtain ⟨es', groups', hw', he, hh⟩ := ih (hw.enter label (fits_of_step h))
    exact ⟨es', groups', hw', by rw [← he]; simp, hh⟩
  | case7 groups s ts t h ih =>
    obtain ⟨us, rfl, hn⟩ := exists_term_of_step h
    have hu : groups.length + Term.allNesting us ≤ o.limit := by rw [hn]; exact hw.length_le
    obtain ⟨es', groups', hw', he, hh⟩ := ih (hw.append us hu)
    exact ⟨es', groups', hw', by rw [← he]; simp, hh⟩

/-- A text is read as one query of terms and groups that are nested within the limit. The reading
ends with the input, or in front of a parenthesis inside as many groups as the limit allows; all that
follows in the events then closes these groups. -/
theorem read_spells_one_query (o : Options) (s : σ) :
    ∃ ts, (read o s).1 = (Term.group none ts).events ∧ Term.allNesting ts ≤ o.limit ∧
      (head? (read o s).2 = none ∨
        head? (read o s).2 = some '(' ∧ ∃ es groups, Within o.limit groups es ∧
          groups.length = o.limit ∧ Term.allEvents ts = es ++ groups.map Event.closing) := by
  obtain ⟨hev, hst⟩ := read_eq o s
  have hhead : head? (read o s).2 = head? (events o [] s).2.2 := by
    rcases hst with h | h <;> rw [h]
    exact head?_look _
  obtain ⟨es, groups, hw, he, hh⟩ := within_events o [] s (.top [] (Nat.zero_le _))
  obtain ⟨ts, hts, hn⟩ := hw.close
  have hall : (events o [] s).1 = Term.allEvents ts := he.trans hts
  refine ⟨ts, by rw [hev, hall]; rfl, hn, ?_⟩
  rw [hhead]
  cases hb : (events o [] s).2.1 with
  | false => exact Or.inl (head?_events hb)
  | true =>
    obtain ⟨hle, hp⟩ := hh hb
    exact Or.inr ⟨hp, es, groups, hw, Nat.le_antisymm hw.length_le hle, hts.symm⟩

end Lenient.Query
