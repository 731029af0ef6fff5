import Lenient.Json.Value

/-! Objects and arrays under one view. An entry is a slot with the value in it, and a container is a
shape with its entries: `gather` makes the container, and its events, its canonical text and its
nesting are those of the entries between two brackets. Values are taken apart by `gather_induction`,
so that a proof about values has one case for containers. The main result is that events determine
the value that they spell. -/

namespace Lenient.Json

structure Entry where
  slot : Slot
  value : Value

namespace Shape

def left : Shape → Char
  | object => '\x7b'
  | array => '['

def right : Shape → Char
  | object => '\x7d'
  | array => ']'

theorem opening_inj {a b : Shape} (h : a.opening = b.opening) : a = b := by
  cases a <;> cases b <;> cases h <;> rfl

end Shape

namespace Slot

def name : Slot → Text
  | property name => name
  | element => []

def lead : Slot → Text
  | property name => Value.renderName name ++ [':']
  | element => []

theorem opening_inj {a b : Slot} (h : a.opening = b.opening) : a = b := by
  cases a <;> cases b <;> cases h <;> rfl

theorem opening_ne_closing (a : Slot) (shape : Shape) : a.opening ≠ shape.closing := by
  cases a <;> cases shape <;> nofun

end Slot

namespace Entry

def property (p : Text × Value) : Entry := ⟨.property p.1, p.2⟩

def element (v : Value) : Entry := ⟨.element, v⟩

def events (e : Entry) : List Event := e.slot.opening :: e.value.events ++ [e.slot.closing]

def render (e : Entry) : Text := e.slot.lead ++ e.value.render

end Entry

def renderEntries (es : List Entry) : Text := List.intercalate [','] (es.map Entry.render)

@[simp] theorem renderEntries_nil : renderEntries [] = [] := rfl

@[simp] theorem renderEntries_singleton (e : Entry) : renderEntries [e] = e.render := by
  simp [renderEntries]

theorem renderEntries_cons_cons (e e' : Entry) (es : List Entry) :
    renderEntries (e :: e' :: es) = e.render ++ ',' :: renderEntries (e' :: es) := by
  simp [renderEntries, List.intercalate_cons_cons]

/-- The entries are those of a container of shape `shape`. -/
def Fits (shape : Shape) (es : List Entry) : Prop := ∀ e ∈ es, e.slot.shape = shape

theorem fits_cons {shape : Shape} {e : Entry} {es : List Entry} :
    Fits shape (e :: es) ↔ e.slot.shape = shape ∧ Fits shape es := List.forall_mem_cons

theorem fits_object_iff {es : List Entry} :
    Fits .object es ↔ ∃ ps : List (Text × Value), es = ps.map Entry.property := by
  constructor
  · intro h
    refine ⟨es.map fun e => (e.slot.name, e.value), ?_⟩
    rw [List.map_map, List.map_congr_left (g := id), List.map_id]
    intro e he
    obtain ⟨slot, v⟩ := e
    cases slot with
    | property name => rfl
    | element => cases h _ he
  · rintro ⟨ps, rfl⟩ e he
    obtain ⟨p, -, rfl⟩ := List.mem_map.1 he
    rfl

theorem fits_array_iff {es : List Entry} :
    Fits .array es ↔ ∃ vs : List Value, es = vs.map Entry.element := by
  constructor
  · intro h
    refine ⟨es.map (·.value), ?_⟩
    rw [List.map_map, List.map_congr_left (g := id), List.map_id]
    intro e he
    obtain ⟨slot, v⟩ := e
    cases slot with
    | property name => cases h _ he
    | element => rfl
  · rintro ⟨vs, rfl⟩ e he
    obtain ⟨v, -, rfl⟩ := List.mem_map.1 he
    rfl

namespace Value

def gather (shape : Shape) (es : List Entry) : Value :=
  match shape with
  | .object => object (es.map fun e => (e.slot.name, e.value))
  | .array => array (es.map (·.value))

theorem gather_properties (ps : List (Text × Value)) :
    gather .object (ps.map Entry.property) = object ps := by
  simp [gather, Entry.property, Slot.name, Function.comp_def]

theorem gather_elements (vs : List Value) : gather .array (vs.map Entry.element) = array vs := by
  simp [gather, Entry.element, Function.comp_def]

/-- A property of values holds if it holds of scalars and passes from the entries of a container to
the container. -/
theorem gather_induction {P : Value → Prop} (scalar : ∀ t, P (scalar t))
    (gather : ∀ shape es, Fits shape es → (∀ e ∈ es, P e.value) → P (gather shape es)) : ∀ v, P v
  | .scalar t => scalar t
  | .object ps => by
    rw [← gather_properties]
    apply gather _ _ (fits_object_iff.2 ⟨ps, rfl⟩)
    intro e he
    obtain ⟨p, hp, rfl⟩ := List.mem_map.1 he
    have : sizeOf p.2 < sizeOf p := by cases p; simp only [Prod.mk.sizeOf_spec]; omega
    have := List.sizeOf_lt_of_mem hp
    exact gather_induction scalar gather p.2
  | .array vs => by
    rw [← gather_elements]
    apply gather _ _ (fits_array_iff.2 ⟨vs, rfl⟩)
    intro e he
    obtain ⟨v, hv, rfl⟩ := List.mem_map.1 he
    have := List.sizeOf_lt_of_mem hv
    exact gather_induction scalar gather v

theorem propertyEvents_eq (ps : List (Text × Value)) :
    propertyEvents ps = (ps.map Entry.property).flatMap Entry.events := by
  induction ps with
  | nil => rfl
  | cons p ps ih =>
    obtain ⟨name, v⟩ := p
    simp [propertyEvents, ih, Entry.events, Entry.property, Slot.opening, Slot.closing]

theorem elementEvents_eq (vs : List Value) :
    elementEvents vs = (vs.map Entry.element).flatMap Entry.events := by
  induction vs with
  | nil => rfl
  | cons v vs ih => simp [elementEvents, ih, Entry.events, Entry.element, Slot.opening, Slot.closing]

theorem events_gather {shape : Shape} {es : List Entry} (h : Fits shape es) :
    (gather shape es).events = shape.opening :: es.flatMap Entry.events ++ [shape.closing] := by
  cases shape with
  | object =>
    obtain ⟨ps, rfl⟩ := fits_object_iff.1 h
    rw [gather_properties, events, propertyEvents_eq]
    rfl
  | array =>
    obtain ⟨vs, rfl⟩ := fits_array_iff.1 h
    rw [gather_elements, events, elementEvents_eq]
    rfl

theorem renderProperties_eq (ps : List (Text × Value)) :
    renderProperties ps = (ps.map Entry.property).map Entry.render := by
  induction ps with
  | nil => rfl
  | cons p ps ih =>
    obtain ⟨name, v⟩ := p
    simp [renderProperties, ih, Entry.render, Entry.property, Slot.lead]

theorem renderElements_eq (vs : List Value) :
    renderElements vs = (vs.map Entry.element).map Entry.render := by
  induction vs with
  | nil => rfl
  | cons v vs ih => simp [renderElements, ih, Entry.render, Entry.element, Slot.lead]

theorem render_gather {shape : Shape} {es : List Entry} (h : Fits shape es) :
    (gather shape es).render = shape.left :: renderEntries es ++ [shape.right] := by
  cases shape with
  | object =>
    obtain ⟨ps, rfl⟩ := fits_object_iff.1 h
    rw [gather_properties, render, renderProperties_eq]
    rfl
  | array =>
    obtain ⟨vs, rfl⟩ := fits_array_iff.1 h
    rw [gather_elements, render, renderElements_eq]
    rfl

theorem propertyNesting_le_iff {ps : List (Text × Value)} {n : Nat} :
    propertyNesting ps ≤ n ↔ ∀ p ∈ ps, p.2.nesting ≤ n := by
  induction ps with
  | nil => simp [propertyNesting]
  | cons p ps ih => rw [propertyNesting, Nat.max_le, ih, List.forall_mem_cons]

theorem elementNesting_le_iff {vs : List Value} {n : Nat} :
    elementNesting vs ≤ n ↔ ∀ v ∈ vs, v.nesting ≤ n := by
  induction vs with
  | nil => simp [elementNesting]
  | cons v vs ih => rw [elementNesting, Nat.max_le, ih, List.forall_mem_cons]

theorem nesting_gather_le_iff {shape : Shape} {es : List Entry} {n : Nat} :
    (gather shape es).nesting ≤ n + 1 ↔ ∀ e ∈ es, e.value.nesting ≤ n := by
  cases shape with
  | object => simp [gather, nesting, propertyNesting_le_iff]
  | array => simp [gather, nesting, elementNesting_le_iff]

theorem nesting_gather_pos (shape : Shape) (es : List Entry) : 0 < (gather shape es).nesting := by
  cases shape <;> exact Nat.succ_pos _

theorem nesting_lt_gather (shape : Shape) {es : List Entry} {e : Entry} (he : e ∈ es) :
    e.value.nesting < (gather shape es).nesting := by
  have hpos := nesting_gather_pos shape es
  have hle : (gather shape es).nesting ≤ (gather shape es).nesting - 1 + 1 := by omega
  have := nesting_gather_le_iff.1 hle e he
  omega

/-- The events of a value say where they end, so they can be cut off from what follows them. -/
def Delimited (v : Value) : Prop :=
  ∀ {v' : Value} {r r' : List Event}, v.events ++ r = v'.events ++ r' → v = v' ∧ r = r'

theorem entries_append_inj {shape : Shape} {es es' : List Entry} {r r' : List Event}
    (hd : ∀ e ∈ es, e.value.Delimited)
    (h : es.flatMap Entry.events ++ shape.closing :: r =
      es'.flatMap Entry.events ++ shape.closing :: r') : es = es' ∧ r = r' := by
  induction es generalizing es' with
  | nil =>
    cases es' with
    | nil => simpa using h
    | cons e' es' =>
      simp only [Entry.events, List.flatMap_cons, List.cons_append, List.flatMap_nil, List.nil_append,
        List.cons.injEq] at h
      exact absurd h.1.symm (e'.slot.opening_ne_closing shape)
  | cons e es ih =>
    cases es' with
    | nil =>
      simp only [Entry.events, List.flatMap_cons, List.cons_append, List.flatMap_nil, List.nil_append,
        List.cons.injEq] at h
      exact absurd h.1 (e.slot.opening_ne_closing shape)
    | cons e' es' =>
      simp only [Entry.events, List.flatMap_cons, List.cons_append, List.append_assoc,
        List.nil_append, List.cons.injEq] at h
      obtain ⟨ho, hv⟩ := h
      obtain ⟨hve, ht⟩ := hd e List.mem_cons_self hv
      obtain ⟨rfl, hr⟩ := ih (fun x hx => hd x (List.mem_cons_of_mem e hx)) (List.cons.inj ht).2
      have he : e = e' := by
        cases e
        cases e'
        cases Slot.opening_inj ho
        cases hve
        rfl
      exact ⟨by rw [he], hr⟩

theorem delimited (v : Value) : v.Delimited := by
  induction v using gather_induction with
  | scalar t =>
    intro v' r r' h
    cases v' <;> simp_all [events]
  | gather shape es hf ih =>
    intro v' r r' h
    induction v' using gather_induction with
    | scalar t => cases shape <;> simp [events_gather hf, events, Shape.opening] at h
    | gather shape' es' hf' _ =>
      simp only [events_gather hf, events_gather hf', List.cons_append, List.append_assoc,
        List.nil_append, List.cons.injEq] at h
      obtain ⟨ho, hb⟩ := h
      obtain rfl := Shape.opening_inj ho
      obtain ⟨rfl, rfl⟩ := entries_append_inj ih hb
      exact ⟨rfl, rfl⟩

theorem events_injective {v v' : Value} (h : v.events = v'.events) : v = v' := by
  have : v.events ++ [] = v'.events ++ [] := by rw [h]
  exact (v.delimited this).1

end Value

end Lenient.Json
