import Lenient.Notice

/-! What a reader needs of the text that it reads: a look at the next character, a step forward,
and marks to return to. The readers of this library are written against this interface, so the
laws below are all that their proofs may use.

`whole` is the text that is read, `unread` is what it has from the cursor on, and `pins` has the
unread text at each open mark, innermost first. None of them is meant to be run. -/

namespace Lenient

class Cursor (σ : Type) where
  head? : σ → Option Char
  /-- The state after a look at the character under the cursor. -/
  look : σ → σ
  advance : σ → σ
  mark : σ → σ
  /-- The text from the innermost open mark to the cursor. -/
  marked : σ → Text
  /-- Closes the innermost mark where the cursor is. -/
  commit : σ → σ
  /-- Closes the innermost mark and returns to it. -/
  rewind : σ → σ
  position : σ → Position
  note : Notice → σ → σ
  whole : σ → Text
  unread : σ → Text
  pins : σ → List Text
  offset_le : ∀ s, (position s).offset ≤ (whole s).length
  unread_eq : ∀ s, unread s = (whole s).drop (position s).offset
  whole_look : ∀ s, whole (look s) = whole s
  whole_advance : ∀ s, whole (advance s) = whole s
  whole_mark : ∀ s, whole (mark s) = whole s
  whole_commit : ∀ s, whole (commit s) = whole s
  whole_rewind : ∀ s, whole (rewind s) = whole s
  whole_note : ∀ n s, whole (note n s) = whole s
  head?_eq : ∀ s, head? s = (unread s).head?
  unread_look : ∀ s, unread (look s) = unread s
  unread_advance : ∀ s, unread (advance s) = (unread s).tail
  unread_mark : ∀ s, unread (mark s) = unread s
  unread_commit : ∀ s, unread (commit s) = unread s
  unread_rewind : ∀ s, unread (rewind s) = (pins s).headD (unread s)
  unread_note : ∀ n s, unread (note n s) = unread s
  pins_look : ∀ s, pins (look s) = pins s
  pins_advance : ∀ s, pins (advance s) = pins s
  pins_mark : ∀ s, pins (mark s) = unread s :: pins s
  pins_commit : ∀ s, pins (commit s) = (pins s).tail
  pins_rewind : ∀ s, pins (rewind s) = (pins s).tail
  pins_note : ∀ n s, pins (note n s) = pins s
  marked_append : ∀ s, marked s ++ unread s = (pins s).headD (unread s)

namespace Cursor

attribute [simp] whole_look whole_advance whole_mark whole_commit whole_rewind whole_note
attribute [simp] unread_look unread_advance unread_mark unread_commit unread_rewind unread_note
attribute [simp] pins_look pins_advance pins_mark pins_commit pins_rewind pins_note

/-- A reading that answers `xs` first. -/
def onto {α σ : Type} (xs : List α) (r : List α × σ) : List α × σ := (xs ++ r.1, r.2)

@[simp] theorem onto_fst {α σ : Type} (xs : List α) (r : List α × σ) : (onto xs r).1 = xs ++ r.1 := rfl

@[simp] theorem onto_snd {α σ : Type} (xs : List α) (r : List α × σ) : (onto xs r).2 = r.2 := rfl

theorem onto_onto {α σ : Type} (xs ys : List α) (r : List α × σ) :
    onto xs (onto ys r) = onto (xs ++ ys) r := by
  simp [onto]

variable {σ : Type} [Cursor σ]

def remaining (s : σ) : Nat := (unread s).length

theorem offset_add_remaining (s : σ) : (position s).offset + remaining s = (whole s).length := by
  have := offset_le s
  rw [remaining, unread_eq, List.length_drop]
  omega

/-- The state `t` is reached from `s` by reading forward in the same text: what is unread at `t` ends
the text that is unread at `s`, and the same marks are open. -/
structure Forward (s t : σ) : Prop where
  whole_eq : whole t = whole s
  suffix : unread t <:+ unread s
  pins_eq : pins t = pins s

theorem Forward.refl (s : σ) : Forward s s := ⟨rfl, List.suffix_refl _, rfl⟩

theorem Forward.trans {s t u : σ} (h : Forward s t) (h' : Forward t u) : Forward s u :=
  ⟨h'.whole_eq.trans h.whole_eq, h'.suffix.trans h.suffix, h'.pins_eq.trans h.pins_eq⟩

theorem Forward.le {s t : σ} (h : Forward s t) : remaining t ≤ remaining s := h.suffix.length_le

theorem Forward.offset_eq {s t : σ} (h : Forward s t) :
    (position t).offset + remaining t = (position s).offset + remaining s := by
  rw [offset_add_remaining, offset_add_remaining, h.whole_eq]

theorem forward_look (s : σ) : Forward s (look s) := ⟨by simp, by simp, by simp⟩

theorem forward_advance (s : σ) : Forward s (advance s) :=
  ⟨by simp, by simpa using List.tail_suffix _, by simp⟩

theorem forward_note (n : Notice) (s : σ) : Forward s (note n s) := ⟨by simp, by simp, by simp⟩

theorem remaining_advance (s : σ) : remaining (advance s) = remaining s - 1 := by
  simp [remaining]

theorem remaining_pos {s : σ} {c : Char} (h : head? s = some c) : 0 < remaining s := by
  rw [head?_eq] at h
  cases hu : unread s with
  | nil => simp [hu] at h
  | cons d rest => simp [remaining, hu]

theorem remaining_advance_lt {s : σ} {c : Char} (h : head? s = some c) :
    remaining (advance s) < remaining s := by
  have := remaining_pos h
  rw [remaining_advance]
  omega

@[simp] theorem head?_look (s : σ) : head? (look s) = head? s := by simp [head?_eq]

@[simp] theorem head?_mark (s : σ) : head? (mark s) = head? s := by simp [head?_eq]

@[simp] theorem head?_note (n : Notice) (s : σ) : head? (note n s) = head? s := by simp [head?_eq]

@[simp] theorem head?_commit (s : σ) : head? (commit s) = head? s := by simp [head?_eq]

end Cursor

end Lenient
