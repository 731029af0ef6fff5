import Lenient.Proofs.Json.Nesting
import Lenient.Proofs.Reader.Agreement
import Lenient.Proofs.Reader.Bracketing

/-! The depth limit cuts a reading off and changes nothing else. Two readers with different limits take the
same steps from the same states, up to the first container that one of them may not open. There it puts
null and closes what is open, and what it leaves out is what the other one reads from behind the bracket
on which the cursor stays. -/

namespace Lenient.Json

open Cursor Lexeme Bracketed

/-- Objects and arrays are levels; the slots in between are not. -/
instance : Bracketed Event where
  turn
    | .beginObject => .opens .endObject
    | .beginArray => .opens .endArray
    | .beginElement => .opens .endElement
    | .beginProperty name => .opens (.endProperty name)
    | .endObject | .endArray | .endElement | .endProperty _ => .closes
    | .value _ => .stays
  closesLevel e := e = .endObject || e = .endArray

section Events

variable (shape : Shape) (slot : Slot)

@[simp] theorem turn_shape_opening : turn shape.opening = .opens shape.closing := by cases shape <;> rfl

@[simp] theorem turn_shape_closing : turn shape.closing = .closes := by cases shape <;> rfl

@[simp] theorem turn_slot_opening : turn slot.opening = .opens slot.closing := by cases slot <;> rfl

@[simp] theorem turn_slot_closing : turn slot.closing = .closes := by cases slot <;> rfl

@[simp] theorem closesLevel_shape : closesLevel shape.closing = true := by cases shape <;> rfl

@[simp] theorem closesLevel_slot : closesLevel slot.closing = false := by cases slot <;> rfl

theorem opens_shape : Opens shape.opening := ⟨_, turn_shape_opening shape, closesLevel_shape shape⟩

theorem not_opens_slot : ¬ Opens slot.opening := by
  rintro ⟨ending, h, hl⟩
  rw [turn_slot_opening, Turn.opens.injEq] at h
  simp [← h] at hl

theorem not_opens_of_closes {e : Event} (h : turn e = .closes) : ¬ Opens e := by
  rintro ⟨ending, ho, -⟩
  rw [h] at ho
  cases ho

theorem not_opens_value (text : Option Text) : ¬ Opens (Event.value text) := by
  rintro ⟨ending, ho, -⟩
  cases ho

theorem not_opens_closings (slots : List Slot) : ∀ e ∈ closings shape slots, ¬ Opens e := by
  induction slots generalizing shape with
  | nil => simp [closings, not_opens_of_closes]
  | cons slot outer ih => simpa [closings, not_opens_of_closes] using ih slot.shape

theorem countP_closings (slots : List Slot) :
    (closings shape slots).countP closesLevel = slots.length + 1 := by
  induction slots generalizing shape with
  | nil => simp [closings]
  | cons slot outer ih => simp [closings, ih]

end Events

/-- The events leave open a container of shape `shape` inside the slots `slots`, and have opened nothing
that is nested deeper than `cap`. -/
structure LeavesOpen (cap : Nat) (shape : Shape) (slots : List Slot) (es : List Event) : Prop where
  unclosed_eq : unclosed es = closings shape slots
  within : NestsWithin cap es

section LeavesOpen

variable {cap : Nat} {shape : Shape} {slots : List Slot} {slot : Slot} {es : List Event}

theorem LeavesOpen.unclosed_slot (h : LeavesOpen cap shape slots es) (slot : Slot) :
    unclosed (es ++ [slot.opening]) = slot.closing :: closings shape slots := by
  rw [unclosed_concat, turn_slot_opening, h.unclosed_eq]
  rfl

theorem LeavesOpen.depth_slot (h : LeavesOpen cap shape slots es) (slot : Slot) :
    depth (es ++ [slot.opening]) = slots.length + 1 := by
  rw [depth, h.unclosed_slot, List.countP_cons_of_neg (by simp), countP_closings]

theorem LeavesOpen.within_slot (h : LeavesOpen cap shape slots es) (slot : Slot) :
    NestsWithin cap (es ++ [slot.opening]) :=
  h.within.append (by simpa using not_opens_slot slot)

theorem LeavesOpen.nests (h : LeavesOpen cap shape slots es) (inner : Shape) (rest : List Event) :
    Nests (es ++ [slot.opening, inner.opening] ++ rest) (slots.length + 2) := by
  have hn : Nests (es ++ [slot.opening] ++ inner.opening :: rest) (depth (es ++ [slot.opening]) + 1) :=
    nests_of_opens _ (opens_shape inner) rest
  rw [h.depth_slot] at hn
  simpa using hn

theorem LeavesOpen.scalar (h : LeavesOpen cap shape slots es) (slot : Slot) (text : Option Text) :
    LeavesOpen cap shape slots (es ++ [slot.opening, .value text, slot.closing]) := by
  constructor
  · have hv : turn (Event.value text) = .stays := rfl
    rw [List.append_cons, List.append_cons, unclosed_concat, unclosed_concat, h.unclosed_slot, hv,
      turn_slot_closing]
    rfl
  · apply h.within.append
    simp [not_opens_slot, not_opens_value, not_opens_of_closes]

theorem LeavesOpen.enter (h : LeavesOpen cap shape slots es) (inner : Shape) (hs : slot.shape = shape)
    (hd : slots.length + 2 ≤ cap) :
    LeavesOpen cap inner (slot :: slots) (es ++ [slot.opening, inner.opening]) := by
  rw [List.append_cons]
  constructor
  · rw [unclosed_concat, turn_shape_opening, h.unclosed_slot, closings, hs]
    rfl
  · apply (h.within_slot slot).concat
    rw [h.depth_slot]
    exact hd

theorem LeavesOpen.leave (h : LeavesOpen cap shape (slot :: slots) es) :
    LeavesOpen cap slot.shape slots (es ++ [shape.closing, slot.closing]) := by
  constructor
  · rw [List.append_cons, unclosed_concat, unclosed_concat, h.unclosed_eq, turn_shape_closing,
      turn_slot_closing]
    rfl
  · apply h.within.append
    simp [not_opens_of_closes]

theorem leavesOpen_root {cap : Nat} (h : 1 ≤ cap) : LeavesOpen cap .object [] [.beginObject] :=
  ⟨rfl, (nestsWithin_nil cap).concat h⟩

end LeavesOpen

variable {σ : Type} [Cursor σ]

theorem unread_of_bracket {s : σ} {shape : Shape} (h : (head? s).bind Shape.ofBracket? = some shape) :
    unread s = shape.left :: unread (advance s) := by
  obtain ⟨c, hc, hb⟩ := Option.bind_eq_some_iff.1 h
  have hleft : c = shape.left := by
    unfold Shape.ofBracket? at hb
    split at hb
    · next he => cases hb; exact he
    · split at hb
      · next he => cases hb; exact he
      · cases hb
  rw [head?_eq] at hc
  obtain ⟨rest, hu⟩ := List.head?_eq_some_iff.1 hc
  rw [unread_advance, hu, hleft]
  rfl

/-- Inside `depth` containers, the reading `x` under the limit `limit` is the reading `y`, or it stops on
the bracket of the container that `y` opens. -/
inductive Curbed (limit depth : Nat) : Content × σ → Content × σ → Prop
  | same (x : Content × σ) (entered : x.1 ≠ .tooDeep) : Curbed limit depth x x
  | stopped {shape : Shape} {t u : σ} (reached : limit ≤ depth)
    (bracket : unread u = shape.left :: unread t) :
    Curbed limit depth (.tooDeep, u) (.container shape, t)

section Curbed

variable {limit m depth : Nat}

/-- As long as the limit `m` is not reached, a lower one matters only where a container opens. -/
theorem curbed_content (s : σ) (hm : depth < m) :
    Curbed limit depth (content limit depth s) (content m depth s) := by
  unfold content
  cases hb : (head? (skipSpaces s)).bind Shape.ofBracket? with
  | none => exact .same _ (by simp)
  | some shape =>
    simp only [if_neg (Nat.not_le_of_lt hm)]
    split
    · next hl =>
      apply Curbed.stopped hl
      rw [unread_note]
      exact unread_of_bracket hb
    · exact .same _ (by simp)

theorem curbed_propertyContent (s : σ) (hm : depth < m) :
    Curbed limit depth (propertyContent limit depth s) (propertyContent m depth s) := by
  unfold propertyContent
  split
  · exact curbed_content _ hm
  · exact .same _ (by simp)

/-- Inside `depth` containers, the step `x` under the limit `limit` is the step `y`, or it stops on the
bracket of the container that `y` opens. -/
inductive CurbedStep (limit depth : Nat) : Step × σ → Step × σ → Prop
  | same (x : Step × σ) (entered : ∀ slot, x.1 ≠ .fill slot .tooDeep) : CurbedStep limit depth x x
  | stopped {slot : Slot} {shape : Shape} {t u : σ} (reached : limit ≤ depth)
    (bracket : unread u = shape.left :: unread t) :
    CurbedStep limit depth (.fill slot .tooDeep, u) (.fill slot (.container shape), t)

theorem Curbed.fill {x y : Content × σ} (h : Curbed limit depth x y) (slot : Slot) :
    CurbedStep limit depth (x.map (.fill slot) id) (y.map (.fill slot) id) := by
  cases h with
  | same _ entered => exact .same _ (by simpa using entered)
  | stopped reached bracket => exact .stopped reached bracket

theorem curbed_objectStep (s : σ) (hm : depth < m) :
    CurbedStep limit depth (objectStep limit depth s) (objectStep m depth s) := by
  unfold objectStep
  split
  · exact .same _ (by simp)
  · split
    · exact .same _ (by simp)
    · split
      · exact .same _ (by simp)
      · exact (curbed_propertyContent _ hm).fill _

theorem curbed_arrayStep (s : σ) (hm : depth < m) :
    CurbedStep limit depth (arrayStep limit depth s) (arrayStep m depth s) := by
  unfold arrayStep
  split
  · exact .same _ (by simp)
  · split
    · exact .same _ (by simp)
    · split
      · exact .same _ (by simp)
      · exact (curbed_content _ hm).fill _

theorem curbed_step (limit : Nat) {m : Nat} (shape : Shape) {slots : List Slot} (s : σ)
    (hm : slots.length + 1 < m) :
    CurbedStep limit (slots.length + 1) (step limit shape slots s) (step m shape slots s) := by
  cases shape with
  | object => exact curbed_objectStep s hm
  | array => exact curbed_arrayStep s hm

theorem step_eq_of_step {shape : Shape} {slots : List Slot} {s t : σ} {r : Step} (limit : Nat)
    (h : step m shape slots s = (r, t)) (hm : slots.length + 1 < m)
    (hr : ∀ slot inner, r ≠ .fill slot (.container inner)) : step limit shape slots s = (r, t) := by
  have hc := curbed_step limit shape s hm
  rw [h] at hc
  generalize step limit shape slots s = x at hc
  cases hc with
  | same => rfl
  | stopped reached bracket => exact absurd rfl (hr _ _)

theorem step_container_cases {shape inner : Shape} {slots : List Slot} {slot : Slot} {s t : σ} (limit : Nat)
    (h : step m shape slots s = (.fill slot (.container inner), t)) (hm : slots.length + 1 < m) :
    step limit shape slots s = (.fill slot (.container inner), t) ∨
    ∃ u, step limit shape slots s = (.fill slot .tooDeep, u) ∧ limit ≤ slots.length + 1 ∧
      unread u = inner.left :: unread t := by
  have hc := curbed_step limit shape s hm
  rw [h] at hc
  generalize step limit shape slots s = x at hc
  cases hc with
  | same => exact Or.inl rfl
  | stopped reached bracket => exact Or.inr ⟨_, rfl, reached, bracket⟩

end Curbed

/-- The reading `x` breaks the events `full` off in front of the first container that is nested deeper
than `cap`: it has null in its place and closes what is open. The cursor is on the bracket of that
container, for the events left out are those that reading with the limit `m` gives from behind it. -/
def BreaksOff (m cap : Nat) (full : List Event) (x : List Event × σ) : Prop :=
  ∃ before shape around, head? x.2 = some shape.left ∧
    unclosed (before ++ [shape.opening]) = closings shape around ∧
    CutBefore cap [.value none] full before shape.opening (events m shape around (advance x.2)).1 x.1

/-- Behind the events `es`, the reading `x` is the reading `y`, which nests nothing deeper than `cap`, or
it breaks `y` off. -/
def Truncates (m cap : Nat) (es : List Event) (x y : List Event × σ) : Prop :=
  NestsWithin cap (es ++ y.1) ∧ x = y ∨ BreaksOff m cap (es ++ y.1) (onto es x)

theorem Truncates.onto {m cap : Nat} {es fs : List Event} {x y : List Event × σ}
    (h : Truncates m cap (es ++ fs) x y) : Truncates m cap es (onto fs x) (onto fs y) := by
  unfold Truncates at h ⊢
  rw [onto_onto, onto_fst, ← List.append_assoc]
  rcases h with ⟨hw, rfl⟩ | hb
  · exact Or.inl ⟨hw, rfl⟩
  · exact Or.inr hb

theorem unread_unwind_bracket {u : σ} {inner : Shape} {rest : Text} (h : unread u = inner.left :: rest)
    (shape : Shape) (slots : List Slot) : unread (unwind shape slots (skipComma u)).2 = unread u := by
  have hs : isSpace inner.left = false := by cases inner <;> rfl
  have hc : inner.left ≠ ',' := by cases inner <;> decide
  have hk : unread (skipComma u) = unread u := unread_skipComma_of_head (head?_of_unread h) hs hc
  have hh : head? (skipComma u) = some inner.left := head?_of_unread (hk.trans h)
  rw [unread_unwind_of_head hh hs hc, hk]

/-- The container that a reading may not open is the one that breaks it off. -/
theorem breaksOff_container {limit m : Nat} {shape inner : Shape} {slots : List Slot} {slot : Slot}
    {t u : σ} {es : List Event} (hi : LeavesOpen (max 1 limit) shape slots es) (hs : slot.shape = shape)
    (hd : slots.length + 1 = max 1 limit) (hb : unread u = inner.left :: unread t) :
    BreaksOff m (max 1 limit)
      (es ++ (onto [slot.opening, inner.opening] (events m inner (slot :: slots) t)).1)
      (onto es (onto [slot.opening, .value none, slot.closing] (unwind shape slots (skipComma u)))) := by
  have hu := hi.unclosed_slot slot
  -- leaving the containers around it moves the cursor no further than the bracket
  have hbracket : unread (unwind shape slots (skipComma u)).2 = inner.left :: unread t :=
    (unread_unwind_bracket hb shape slots).trans hb
  have hrest : unread (advance (unwind shape slots (skipComma u)).2) = unread t := unread_advance_of hbracket
  refine ⟨es ++ [slot.opening], inner, slot :: slots, head?_of_unread hbracket, ?_, ?_⟩
  · rw [unclosed_concat, turn_shape_opening, hu, closings, hs]
    rfl
  · refine ⟨?_, opens_shape inner, (hi.depth_slot slot).trans hd, hi.within_slot slot, ?_⟩
    · rw [onto_snd, onto_snd, (alike_events m inner (slot :: slots) hrest).answer]
      simp
    · rw [hu, onto_fst, onto_fst, unwind_fst]
      simp

theorem truncates_events {limit m : Nat} {shape : Shape} {slots : List Slot} {s : σ} {es : List Event}
    (hm : ∀ n, Nests (es ++ (events m shape slots s).1) n → n < m) (hd : slots.length + 1 < m)
    (hi : LeavesOpen (max 1 limit) shape slots es) (hc : slots.length + 1 ≤ max 1 limit) :
    Truncates m (max 1 limit) es (events limit shape slots s) (events m shape slots s) := by
  -- the steps are those under `m`, which is never reached; the reading under `limit` takes the same ones
  -- until it is inside as many containers as it may open
  fun_induction events m shape slots s generalizing es with
  | case1 shape s t h =>
    rw [events_root (step_eq_of_step limit h hd (by simp))]
    exact Or.inl ⟨hi.within.append (by simp [not_opens_of_closes]), rfl⟩
  | case2 shape s t slot outer h ih =>
    rw [events_close (step_eq_of_step limit h hd (by simp))]
    rw [onto_fst, ← List.append_assoc] at hm
    simp only [List.length_cons] at hd hc
    exact (ih hm (by omega) hi.leave (by omega)).onto
  | case3 shape slots s slot t h =>
    have hself := curbed_step m shape s hd
    rw [h] at hself
    cases hself with
    | same _ entered => exact absurd rfl (entered slot)
  | case4 shape slots s slot text t h ih =>
    rw [events_scalar (step_eq_of_step limit h hd (by simp))]
    rw [onto_fst, ← List.append_assoc] at hm
    exact (ih hm hd (hi.scalar slot text) hc).onto
  | case5 shape slots s slot inner t h ih =>
    have hs := (step_fill h).1
    rcases step_container_cases limit h hd with hx | ⟨u, hx, hreached, hbracket⟩
    · have hlt := (step_fill hx).2 inner rfl
      rw [events_container hx]
      rw [onto_fst, ← List.append_assoc] at hm
      have hdeep := hm _ (hi.nests inner _)
      exact (ih hm hdeep (hi.enter inner hs (by omega)) (by simp only [List.length_cons]; omega)).onto
    · rw [events_tooDeep hx]
      exact Or.inr (breaksOff_container hi hs (by omega) hbracket)

/-- A container is nested no deeper than there are characters to open it and what is around it. -/
theorem nestsWithin_events {m cap : Nat} {shape : Shape} {slots : List Slot} {s : σ} {es : List Event}
    (hi : LeavesOpen cap shape slots es) (hc : slots.length + 1 + remaining s ≤ cap) :
    NestsWithin cap (es ++ (events m shape slots s).1) := by
  fun_induction events m shape slots s generalizing es with
  | case1 shape s t h => exact hi.within.append (by simp [not_opens_of_closes])
  | case2 shape s t slot outer h ih =>
    have hle := ((forward_of_step h).trans (forward_skipComma t)).le
    simp only [List.length_cons] at hc
    rw [onto_fst, ← List.append_assoc]
    exact ih hi.leave (by omega)
  | case3 shape slots s slot t h =>
    have hflat := (hi.scalar slot none).within.append (not_opens_closings shape slots)
    rwa [onto_fst, unwind_fst, ← List.append_assoc]
  | case4 shape slots s slot text t h ih =>
    have hle := ((forward_of_step h).trans (forward_skipComma t)).le
    rw [onto_fst, ← List.append_assoc]
    exact ih (hi.scalar slot text) (by omega)
  | case5 shape slots s slot inner t h ih =>
    have hlt := remaining_lt_of_step h (by simp)
    rw [onto_fst, ← List.append_assoc]
    exact ih (hi.enter inner (step_fill h).1 (by omega)) (by simp only [List.length_cons]; omega)

theorem nestsWithin_read (m : Nat) (s : σ) : NestsWithin (unread s).length (read m s).1 := by
  have hle : remaining (skipGarbage s) ≤ (unread s).length := (forward_skipGarbage s).le
  unfold read
  split
  · exact nestsWithin_nil _
  · next c hc =>
    have hlt := remaining_advance_lt hc
    exact nestsWithin_events (leavesOpen_root (by omega)) (by simp only [List.length_nil]; omega)

theorem BreaksOff.not_nestsWithin {m cap : Nat} {full : List Event} {x : List Event × σ}
    (h : BreaksOff m cap full x) : ¬ NestsWithin cap full := by
  obtain ⟨before, shape, around, -, -, hcut⟩ := h
  exact hcut.not_nestsWithin

theorem truncates_read (limit : Nat) {m : Nat} {s : σ} (hm : ∀ n, Nests (read m s).1 n → n < m) :
    Truncates m (max 1 limit) [] (read limit s) (read m s) := by
  unfold read at hm ⊢
  split
  · exact Or.inl ⟨nestsWithin_nil _, rfl⟩
  · next c hc =>
    rw [hc] at hm
    have hroot : 1 < m := hm 1 (nests_of_opens [] (opens_shape .object) _)
    exact (truncates_events hm hroot (leavesOpen_root (Nat.le_max_left 1 limit))
      (Nat.le_max_left 1 limit)).onto

end Lenient.Json
