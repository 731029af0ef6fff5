import Lenient.Proofs.Reader.Agreement

/-! What the readers answer is linear in what they consume. Each turn of a reader's loop consumes a
character, ends the loop, or meets a nesting that is too deep and ends the whole reading; the events that
a turn emits, and the closing events that it will cost later, are charged to the characters it consumed.

In relaxed JSON a bracket in an array costs four events: it opens an element and a container, and both
are closed later. So behind `k` slots, `2 * k + 1` closing events are paid for already. The one turn that
consumes nothing and still emits something, an element that is too deep, is paid for by the property that
the array stands in: its name and its colon cost nothing else. -/

namespace Lenient

open Cursor Lexeme

variable {σ : Type} [Cursor σ]

/-- A bound by what is left to read is a bound by what was consumed. -/
theorem Cursor.Forward.exists_consumed {s t : σ} (h : Forward s t) {n k b : Nat}
    (hn : n + k * remaining t ≤ k * remaining s + b) :
    ∃ consumed, unread s = consumed ++ unread t ∧ n ≤ k * consumed.length + b := by
  obtain ⟨consumed, hu⟩ := h.suffix
  refine ⟨consumed, hu.symm, ?_⟩
  have hr : remaining s = consumed.length + remaining t := by
    rw [remaining, ← hu, List.length_append, remaining]
  rw [hr, Nat.mul_add] at hn
  omega

namespace Json

theorem length_closings (shape : Shape) (slots : List Slot) :
    (closings shape slots).length = 2 * slots.length + 1 := by
  induction slots generalizing shape with
  | nil => rfl
  | cons slot outer ih =>
    simp only [closings, List.length_cons, ih]
    omega

/-- A turn of the loop of an object or an array ends the loop, ends the reading, or consumes a
character. -/
theorem step_progress (limit : Nat) (shape : Shape) (slots : List Slot) (s : σ) :
    (step limit shape slots s).1 = .close ∨
      (∃ slot, (step limit shape slots s).1 = .fill slot .tooDeep) ∨
      remaining (step limit shape slots s).2 < remaining s := by
  rcases h : step limit shape slots s with ⟨r, t⟩
  cases r with
  | close => exact Or.inl rfl
  | fill slot content =>
    by_cases hc : content = .tooDeep
    · exact Or.inr (Or.inl ⟨slot, by rw [hc]⟩)
    · exact Or.inr (Or.inr (remaining_lt_of_step h hc))

theorem remaining_lt_of_property {limit : Nat} {slots : List Slot} {s t : σ} {slot : Slot} {c : Content}
    (h : step limit .object slots s = (.fill slot c, t)) : remaining t < remaining s := by
  change objectStep _ _ _ = _ at h
  have := remaining_objectStep_lt (by rw [h]; simp)
  rwa [h] at this

theorem remaining_propertyContent_lt {limit depth : Nat} {s t : σ} {inner : Shape}
    (h : propertyContent limit depth s = (.container inner, t)) : remaining t < remaining s := by
  unfold propertyContent at h
  split at h
  · next u hu =>
    have ha := remaining_accept_lt (congrArg Prod.fst hu)
    have hf := (forward_content limit depth u).le
    rw [hu] at ha
    rw [h] at hf
    exact Nat.lt_of_le_of_lt hf ha
  · cases h

theorem remaining_of_property_container {limit : Nat} {slots : List Slot} {s t : σ} {slot : Slot}
    {inner : Shape} (h : step limit .object slots s = (.fill slot (.container inner), t)) :
    remaining t + 2 ≤ remaining s := by
  have hs := (forward_skipSpaces s).le
  change objectStep _ _ _ = _ at h
  unfold objectStep at h
  split at h
  · cases h
  · split at h
    · cases h
    · split at h
      · cases h
      · next name u hu =>
        have hn := remaining_name?_lt (congrArg Prod.fst hu)
        rw [hu] at hn
        rcases hp : propertyContent limit (slots.length + 1) u with ⟨c, v⟩
        rw [hp] at h
        obtain ⟨⟨-, rfl⟩, rfl⟩ : (_ = slot ∧ c = .container inner) ∧ v = t := by simpa using h
        have := remaining_propertyContent_lt hp
        change remaining u < _ at hn
        omega

/-- What a reading may emit beyond its share: the slot around a container that is too deep. Directly in
the outermost object the name in front of it pays for that. -/
def allowance : Shape → List Slot → Nat
  | .object, [] => 0
  | _, _ => 3

theorem allowance_le (shape : Shape) (slots : List Slot) : allowance shape slots ≤ 3 := by
  unfold allowance
  split <;> omega

/-- Each character that is consumed pays for four events, and the closing events of what is open already
are paid for. -/
theorem length_events_le (limit : Nat) (shape : Shape) (slots : List Slot) (s : σ) :
    (events limit shape slots s).1.length + 4 * remaining (events limit shape slots s).2 ≤
      4 * remaining s + (2 * slots.length + 1) + allowance shape slots := by
  fun_induction events limit shape slots s with
  | case1 shape s t h =>
    have := (forward_of_step h).le
    simp only [List.length_singleton, List.length_nil]
    omega
  | case2 shape s t slot outer h ih =>
    have := (forward_of_step h).le
    have := (forward_skipComma t).le
    have := allowance_le slot.shape outer
    have : allowance shape (slot :: outer) = 3 := by cases shape <;> rfl
    simp only [onto_fst, onto_snd, List.length_append, List.length_cons, List.length_nil]
    omega
  | case3 shape slots s slot t h =>
    have := (forward_of_step h).le
    have := ((forward_skipComma t).trans (forward_unwind shape slots (skipComma t))).le
    simp only [onto_fst, onto_snd, unwind_fst, List.length_append, List.length_cons, List.length_nil,
      length_closings]
    cases shape with
    | object =>
      have := remaining_lt_of_property h
      omega
    | array =>
      have : allowance .array slots = 3 := rfl
      omega
  | case4 shape slots s slot text t h ih =>
    have := remaining_lt_of_step h (by simp)
    have := (forward_skipComma t).le
    simp only [onto_fst, onto_snd, List.length_append, List.length_cons, List.length_nil]
    omega
  | case5 shape slots s slot inner t h ih =>
    have := allowance_le inner (slot :: slots)
    simp only [onto_fst, onto_snd, List.length_append, List.length_cons, List.length_nil] at ih ⊢
    cases shape with
    | object =>
      have := remaining_of_property_container h
      omega
    | array =>
      have : allowance .array slots = 3 := rfl
      have := remaining_lt_of_step h (by simp)
      omega

theorem length_read_le (limit : Nat) (s : σ) :
    (read limit s).1.length + 4 * remaining (read limit s).2 ≤ 4 * remaining (skipGarbage s) := by
  unfold read
  split
  · have := (forward_note .objectMissing (skipGarbage s)).le
    simp only [List.length_nil]
    omega
  · next c hc =>
    have hlt := remaining_advance_lt hc
    have hle := length_events_le limit .object [] (advance (skipGarbage s))
    have ha : allowance .object [] = 0 := rfl
    simp only [List.length_nil, ha] at hle
    simp only [onto_fst, onto_snd, List.length_append, List.length_cons, List.length_nil]
    omega

theorem forward_skipGarbage_read (limit : Nat) (s : σ) : Forward (skipGarbage s) (read limit s).2 := by
  unfold read
  split
  · exact forward_note _ _
  · exact (forward_advance _).trans (forward_events _ _ _ _)

/-- From the first opening brace on, each character that is consumed pays for four events. -/
theorem exists_consumed_read (limit : Nat) (s : σ) :
    ∃ garbage consumed, unread s = garbage ++ consumed ++ unread (read limit s).2 ∧
      '\x7b' ∉ garbage ∧ (∀ c ∈ consumed.head?, c = '\x7b') ∧
      (read limit s).1.length ≤ 4 * consumed.length := by
  obtain ⟨consumed, hu, hn⟩ :=
    (forward_skipGarbage_read limit s).exists_consumed (b := 0) (length_read_le limit s)
  rw [unread_skipGarbage] at hu
  refine ⟨(unread s).takeWhile isGarbage, consumed, ?_, ?_, ?_, hn⟩
  · rw [List.append_assoc, ← hu, List.takeWhile_append_dropWhile]
  · intro h
    have := List.mem_takeWhile_imp h
    simp [isGarbage] at this
  · intro c hc
    obtain ⟨rest, rfl⟩ := List.head?_eq_some_iff.1 hc
    have := List.head?_dropWhile_not isGarbage (unread s)
    simpa [hu, isGarbage] using this

end Json

namespace Query

theorem step_progress (o : Options) (groups : List (Option Text)) (s : σ) :
    (step o groups s).1 = .finish ∨ (step o groups s).1 = .halt ∨
      remaining (step o groups s).2 < remaining s := by
  by_cases hf : (step o groups s).1 = .finish
  · exact Or.inl hf
  · by_cases hh : (step o groups s).1 = .halt
    · exact Or.inr (Or.inl hh)
    · exact Or.inr (Or.inr (remaining_step_lt hf hh))

/-- Each character that is consumed pays for two events: a token, or a group that is opened and closed. -/
theorem length_events_le (o : Options) (groups : List (Option Text)) (s : σ) :
    (events o groups s).1.length + 2 * remaining (events o groups s).2.2 ≤
      2 * remaining s + groups.length := by
  fun_induction events o groups s with
  | case1 s t h =>
    have := (forward_of_step h).le
    simp only [List.length_nil]
    omega
  | case2 s t label outer h ih =>
    have := ((forward_of_step h).trans (forward_note (.groupsUnclosed (outer.length + 1)) t)).le
    simp only [onto_fst, onto_snd, List.length_append, List.length_cons, List.length_nil]
    omega
  | case3 groups s t h =>
    have := (forward_of_step h).le
    simp only [unwind_eq, List.length_map]
    omega
  | case4 s t h ih =>
    have := (forward_note (.groupUnmatched (position t)) t).le
    have := (forward_of_step h).le
    omega
  | case5 s t label outer h ih =>
    have := (forward_of_step h).le
    simp only [onto_fst, onto_snd, List.length_append, List.length_cons, List.length_nil]
    omega
  | case6 groups s label t h ih =>
    have := remaining_lt_of_step h (by simp) (by simp)
    simp only [onto_fst, onto_snd, List.length_append, List.length_cons, List.length_nil] at ih ⊢
    omega
  | case7 groups s es t h ih =>
    have := remaining_lt_of_step h (by simp) (by simp)
    have hes : es.length ≤ 1 := by
      rcases fits_of_step h with rfl | ⟨label, value, rfl⟩
      · exact Nat.zero_le 1
      · exact Nat.le_refl 1
    simp only [onto_fst, onto_snd, List.length_append]
    omega

theorem length_read_le (o : Options) (s : σ) :
    (read o s).1.length + 2 * remaining (read o s).2 ≤ 2 * remaining s + 2 := by
  have h := length_events_le o [] s
  have hr : remaining (read o s).2 = remaining (events o [] s).2.2 := congrArg List.length (unread_read o s)
  rw [(read_eq o s).1, hr]
  simp only [List.length_append, List.length_cons, List.length_nil] at h ⊢
  omega

end Query

namespace Address

theorem remaining_lt_of_entry {s s' : σ} {c : Char} {a : Address}
    (hc : head? (skipWhile isSeparator s) = some c)
    (he : readEntry (skipWhile isSeparator s) = (a, s')) : remaining s' < remaining s := by
  have := remaining_readEntry_lt hc (head?_skipWhile hc)
  rw [he] at this
  exact Nat.lt_of_lt_of_le this (forward_skipWhile _ _).le

theorem entry_progress (s : σ) :
    head? (skipWhile isSeparator s) = none ∨
      remaining (readEntry (skipWhile isSeparator s)).2 < remaining s := by
  cases h : head? (skipWhile isSeparator s) with
  | none => exact Or.inl rfl
  | some c => exact Or.inr (remaining_lt_of_entry h rfl)

theorem length_entries_le (stop : List Address → Bool) (seen : List Address) (s : σ) :
    (entries stop seen s).1.1.length + remaining (entries stop seen s).2 ≤ remaining s := by
  fun_induction entries stop seen s with
  | case1 seen s hn =>
    have := (forward_skipWhile isSeparator s).le
    simp only [List.length_nil]
    omega
  | case2 seen s c hc a s' he hv ih =>
    have := remaining_lt_of_entry hc he
    omega
  | case3 seen s c hc a s' he hv hs =>
    have := remaining_lt_of_entry hc he
    simp only [List.length_singleton]
    omega
  | case4 seen s c hc a s' he hv hs ih =>
    have := remaining_lt_of_entry hc he
    simp only [Prod.map_fst, Prod.map_snd, id, List.length_cons]
    omega

theorem length_read_le (stop : List Address → Bool) (s : σ) :
    (read stop s).1.1.length + remaining (read stop s).2 ≤ remaining s := length_entries_le stop [] s

theorem forward_read (stop : List Address → Bool) (s : σ) : Forward s (read stop s).2 :=
  forward_entries stop [] s

end Address

/-- The readers are total, and what they answer is linear in what they consume: four events for each
character from the first opening brace on, two for each character of a query besides those around the
whole query, and one address for each character of a list. Each turn of a loop ends it, ends the reading
at a nesting that is too deep, or consumes a character. -/
theorem readers_answer_linearly (s : σ) (limit : Nat) (o : Query.Options) (stop : List Address → Bool) :
    (∃ garbage consumed, unread s = garbage ++ consumed ++ unread (Json.read limit s).2 ∧
        '\x7b' ∉ garbage ∧ (∀ c ∈ consumed.head?, c = '\x7b') ∧
        (Json.read limit s).1.length ≤ 4 * consumed.length) ∧
      (∃ consumed, unread s = consumed ++ unread (Query.read o s).2 ∧
        (Query.read o s).1.length ≤ 2 * consumed.length + 2) ∧
      (∃ consumed, unread s = consumed ++ unread (Address.read stop s).2 ∧
        (Address.read stop s).1.1.length ≤ consumed.length) ∧
      (∀ (shape : Json.Shape) (slots : List Json.Slot) (t : σ),
        (Json.step limit shape slots t).1 = .close ∨
          (∃ slot, (Json.step limit shape slots t).1 = .fill slot .tooDeep) ∨
          remaining (Json.step limit shape slots t).2 < remaining t) ∧
      (∀ (groups : List (Option Text)) (t : σ),
        (Query.step o groups t).1 = .finish ∨ (Query.step o groups t).1 = .halt ∨
          remaining (Query.step o groups t).2 < remaining t) ∧
      (∀ t : σ, head? (skipWhile Address.isSeparator t) = none ∨
        remaining (Address.readEntry (skipWhile Address.isSeparator t)).2 < remaining t) := by
  refine ⟨Json.exists_consumed_read limit s, ?_, ?_, Json.step_progress limit, Query.step_progress o,
    Address.entry_progress⟩
  · exact (Query.forward_read o s).exists_consumed (Query.length_read_le o s)
  · have h : (Address.read stop s).1.1.length + 1 * remaining (Address.read stop s).2 ≤
        1 * remaining s + 0 := by
      simpa using Address.length_read_le stop s
    simpa using (Address.forward_read stop s).exists_consumed h

end Lenient
