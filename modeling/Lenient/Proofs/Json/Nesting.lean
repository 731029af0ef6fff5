import Lenient.Json.Read
import Lenient.Proofs.Json.Entry

/-! Whatever a text looks like, the reader closes what it opened. `Finishes` says what may still come
when a container is open inside some slots: the entries of the container, its end, the end of the
slot around it, and the same again further out. Every step of the reader keeps to it, the step that
gives up at the depth limit included. Hence the events of a text are none, or those of one object
whose nesting keeps the limit. -/

namespace Lenient.Json

open Cursor Lexeme

/-- Entries that may stand in a container of shape `shape` inside the slots `slots`: they have the
container's kind of slot, and with everything around them they are not nested deeper than `cap`. -/
structure Body (cap : Nat) (shape : Shape) (slots : List Slot) (es : List Entry) : Prop where
  fits : Fits shape es
  nesting_le : ∀ e ∈ es, e.value.nesting + slots.length + 1 ≤ cap

/-- The events end an open container of shape `shape` and everything around it. -/
inductive Finishes (cap : Nat) : Shape → List Slot → List Event → Prop
  | root {shape : Shape} {es : List Entry} (body : Body cap shape [] es) :
    Finishes cap shape [] (es.flatMap Entry.events ++ [shape.closing])
  | inner {shape : Shape} {slot : Slot} {outer : List Slot} {es : List Entry} {rest : List Event}
    (body : Body cap shape (slot :: outer) es) (outside : Finishes cap slot.shape outer rest) :
    Finishes cap shape (slot :: outer)
      (es.flatMap Entry.events ++ shape.closing :: slot.closing :: rest)

theorem Body.nil (cap : Nat) (shape : Shape) (slots : List Slot) : Body cap shape slots [] :=
  ⟨nofun, nofun⟩

theorem Body.cons {cap : Nat} {shape : Shape} {slots : List Slot} {e : Entry} {es : List Entry}
    (h : Body cap shape slots es) (hs : e.slot.shape = shape)
    (hn : e.value.nesting + slots.length + 1 ≤ cap) : Body cap shape slots (e :: es) :=
  ⟨fits_cons.2 ⟨hs, h.fits⟩, List.forall_mem_cons.2 ⟨hn, h.nesting_le⟩⟩

theorem Body.of_gather {cap : Nat} {shape : Shape} {slots : List Slot} {es : List Entry}
    (hf : Fits shape es) (hn : (Value.gather shape es).nesting + slots.length ≤ cap) :
    Body cap shape slots es := by
  refine ⟨hf, ?_⟩
  intro e he
  have := Value.nesting_lt_gather shape he
  omega

theorem Body.nesting_gather {cap : Nat} {shape : Shape} {slots : List Slot} {es : List Entry}
    (h : Body cap shape slots es) (hd : slots.length + 1 ≤ cap) :
    (Value.gather shape es).nesting + slots.length ≤ cap := by
  have : (Value.gather shape es).nesting ≤ cap - slots.length - 1 + 1 := by
    rw [Value.nesting_gather_le_iff]
    intro e he
    have := h.nesting_le e he
    omega
  omega

theorem Finishes.cons {cap : Nat} {shape : Shape} {slots : List Slot} {e : Entry}
    {rest : List Event} (h : Finishes cap shape slots rest) (hs : e.slot.shape = shape)
    (hn : e.value.nesting + slots.length + 1 ≤ cap) :
    Finishes cap shape slots (e.events ++ rest) := by
  cases h with
  | root body =>
    rw [← List.append_assoc, ← List.flatMap_cons]
    exact .root (body.cons hs hn)
  | inner body outside =>
    rw [← List.append_assoc, ← List.flatMap_cons]
    exact .inner (body.cons hs hn) outside

/-- A container that is opened in a slot and finished there is one more entry around it. -/
theorem Finishes.enter {cap : Nat} {shape inner : Shape} {slots : List Slot} {slot : Slot}
    {rest : List Event} (h : Finishes cap inner (slot :: slots) rest) (hs : slot.shape = shape)
    (hd : slots.length + 2 ≤ cap) :
    Finishes cap shape slots (slot.opening :: inner.opening :: rest) := by
  cases h with
  | @inner _ _ _ es rest body outside =>
    have hn := body.nesting_gather hd
    rw [hs] at outside
    have := outside.cons (e := ⟨slot, Value.gather inner es⟩) hs hn
    simpa [Entry.events, Value.events_gather body.fits] using this

theorem finishes_closings (cap : Nat) (shape : Shape) (slots : List Slot) :
    Finishes cap shape slots (closings shape slots) := by
  induction slots generalizing shape with
  | nil => exact .root (Body.nil cap shape [])
  | cons slot outer ih => exact .inner (Body.nil cap shape (slot :: outer)) (ih slot.shape)

variable {σ : Type} [Cursor σ]

theorem lt_of_content {limit depth : Nat} {s : σ} {inner : Shape}
    (h : (content limit depth s).1 = .container inner) : depth < limit := by
  unfold content at h
  split at h
  · split at h
    · cases h
    · omega
  · cases h

theorem lt_of_propertyContent {limit depth : Nat} {s : σ} {inner : Shape}
    (h : (propertyContent limit depth s).1 = .container inner) : depth < limit := by
  unfold propertyContent at h
  split at h
  · exact lt_of_content h
  · cases h

theorem step_fill {limit : Nat} {shape : Shape} {slots : List Slot} {s t : σ} {slot : Slot}
    {c : Content} (h : step limit shape slots s = (.fill slot c, t)) :
    slot.shape = shape ∧ ∀ inner, c = .container inner → slots.length + 1 < limit := by
  have h1 := congrArg Prod.fst h
  cases shape with
  | object =>
    unfold step objectStep at h1
    simp only at h1
    split at h1
    · cases h1
    · split at h1
      · cases h1
      · split at h1
        · cases h1
        · simp only [Prod.map_fst, Step.fill.injEq] at h1
          obtain ⟨rfl, rfl⟩ := h1
          exact ⟨rfl, fun inner hc => lt_of_propertyContent hc⟩
  | array =>
    unfold step arrayStep at h1
    simp only at h1
    split at h1
    · cases h1
    · split at h1
      · cases h1
      · split at h1
        · cases h1
        · simp only [Prod.map_fst, Step.fill.injEq] at h1
          obtain ⟨rfl, rfl⟩ := h1
          exact ⟨rfl, fun inner hc => lt_of_content hc⟩

/-- What the reader emits inside some open slots finishes them. -/
theorem finishes_events (limit : Nat) (shape : Shape) (slots : List Slot) (s : σ)
    (hd : slots.length + 1 ≤ max 1 limit) :
    Finishes (max 1 limit) shape slots (events limit shape slots s).1 := by
  -- a slot that is filled is one more entry; a container that is left hands over to what is around it
  fun_induction events limit shape slots s with
  | case1 shape s t h => exact .root (Body.nil _ _ _)
  | case2 shape s t slot outer h ih =>
    simp only [List.length_cons] at hd
    exact .inner (Body.nil _ _ _) (ih (by omega))
  | case3 shape slots s slot t h =>
    rw [onto_fst, unwind_fst]
    have hc := finishes_closings (max 1 limit) shape slots
    exact hc.cons (e := ⟨slot, .scalar none⟩) (step_fill h).1 (by simpa [Value.nesting] using hd)
  | case4 shape slots s slot text t h ih =>
    exact (ih hd).cons (e := ⟨slot, .scalar text⟩) (step_fill h).1 (by simpa [Value.nesting] using hd)
  | case5 shape slots s slot inner t h ih =>
    obtain ⟨hs, hlt⟩ := step_fill h
    have hlim := hlt inner rfl
    exact (ih (by simp only [List.length_cons]; omega)).enter hs (by omega)

theorem dropWhile_isGarbage {g : Text} (h : '\x7b' ∉ g) (r : Text) :
    (g ++ r).dropWhile isGarbage = r.dropWhile isGarbage := by
  apply List.dropWhile_append_of_pos
  intro c hc
  simp only [isGarbage, bne_iff_ne, ne_eq]
  rintro rfl
  exact h hc

theorem read_eq_nil {limit : Nat} {s : σ} (h : '\x7b' ∉ unread s) : (read limit s).1 = [] := by
  have hh : head? (skipGarbage s) = none := by
    rw [head?_eq, unread_skipGarbage, ← List.append_nil (unread s), dropWhile_isGarbage h]
    rfl
  unfold read
  rw [hh]

theorem read_eq_object (limit : Nat) {s : σ} (h : '\x7b' ∈ unread s) :
    ∃ ps, (read limit s).1 = (Value.object ps).events ∧ (Value.object ps).nesting ≤ max 1 limit := by
  obtain ⟨g, r, hu, hg⟩ := List.eq_append_cons_of_mem h
  have hh : head? (skipGarbage s) = some '\x7b' := by
    rw [head?_eq, unread_skipGarbage, hu, dropWhile_isGarbage hg]
    rfl
  have hf := finishes_events limit .object [] (advance (skipGarbage s)) (Nat.le_max_left 1 limit)
  unfold read
  rw [hh]
  simp only [onto_fst]
  generalize (events limit .object [] (advance (skipGarbage s))).1 = rest at hf
  cases hf with
  | @root _ es body =>
    obtain ⟨ps, rfl⟩ := fits_object_iff.1 body.fits
    refine ⟨ps, ?_, ?_⟩
    · rw [← Value.gather_properties, Value.events_gather body.fits]
      rfl
    · rw [← Value.gather_properties]
      exact body.nesting_gather (Nat.le_max_left 1 limit)

/-- Reading gives no events exactly if no brace opens in the unread text. Otherwise the events are
those of an object, of no other value, and its containers are nested within the limit; the root
itself is always read. -/
theorem read_spells_one_object (limit : Nat) (s : σ) :
    ('\x7b' ∉ unread s ∧ (read limit s).1 = []) ∨
    ('\x7b' ∈ unread s ∧ ∃ ps, (read limit s).1 = (Value.object ps).events ∧
      (Value.object ps).nesting ≤ max 1 limit ∧
      ∀ v : Value, (read limit s).1 = v.events → v = .object ps) := by
  by_cases h : '\x7b' ∈ unread s
  · obtain ⟨ps, he, hn⟩ := read_eq_object limit h
    exact Or.inr ⟨h, ps, he, hn, fun v hv => Value.events_injective (hv.symm.trans he)⟩
  · exact Or.inl ⟨h, read_eq_nil h⟩

end Lenient.Json
