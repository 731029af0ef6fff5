import Lenient.Catalog.Template
import Lenient.Proofs.Text.Numeral

/-! What a template stands for. A template is put together from segments: literal text with its braces
doubled, indices in braces, and other bodies in braces. Wherever the segments meet, also where that makes a
run of braces, the formatter cuts the template where it was put together: it takes two braces before it takes
one, and a body ends at the next closing brace. So the formatted template is what the segments stand for, one
behind the other, and nothing of an argument is read again. -/

namespace Lenient.Template

/-- The text spells the index `i`: its numeral behind any number of zeros, and behind a plus sign or
without one. -/
inductive Spells : Text → Nat → Prop
  | plain {i : Nat} (zeros : Nat) (bound : i < indexBound) : Spells (Text.padded zeros i) i
  | plus {i : Nat} (zeros : Nat) (bound : i < indexBound) : Spells ('+' :: Text.padded zeros i) i

def braced (body : Text) : Text := '\x7b' :: body ++ ['\x7d']

def doubled (c : Char) : Text := if c = '\x7b' ∨ c = '\x7d' then [c, c] else [c]

/-- A piece of a template. A body that spells no index is any other text that can stand in braces. -/
inductive Segment
  | literal (text : Text)
  | index (body : Text) (i : Nat) (spelled : Spells body i)
  | other (body : Text) (closed : '\x7d' ∉ body) (single : body.head? ≠ some '\x7b')
    (unspelled : ∀ i, ¬ Spells body i)

namespace Segment

def rendering : Segment → Text
  | literal text => text.flatMap doubled
  | index body _ _ => braced body
  | other body _ _ _ => braced body

/-- What a segment stands for. An index beyond the arguments stands for itself as it is written. -/
def meaning (args : List Text) : Segment → Text
  | literal text => text
  | index body i _ => args[i]?.getD (braced body)
  | other body _ _ _ => braced body

end Segment

/-! Indices. -/

theorem number?_filter_eq_some_iff {digits : Text} {i : Nat} :
    (Text.number? digits).filter (· < indexBound) = some i ↔
      i < indexBound ∧ ∃ zeros, digits = Text.padded zeros i := by
  rw [Option.filter_eq_some_iff, Text.number?_eq_some_iff, decide_eq_true_eq, and_comm]

theorem padded_ne_plus_cons {zeros i : Nat} {rest : Text} : Text.padded zeros i ≠ '+' :: rest := by
  intro h
  have hdigit : '+'.isDigit = true :=
    Text.isDigit_of_mem_padded (by rw [h]; exact List.mem_cons_self)
  exact absurd hdigit (by decide)

theorem index?_eq_some_iff {body : Text} {i : Nat} : index? body = some i ↔ Spells body i := by
  unfold index?
  split
  · next digits =>
    rw [number?_filter_eq_some_iff]
    constructor
    · rintro ⟨bound, zeros, rfl⟩
      exact .plus zeros bound
    · generalize hb : '+' :: digits = body
      rintro (⟨zeros, bound⟩ | ⟨zeros, bound⟩)
      · exact absurd hb.symm padded_ne_plus_cons
      · exact ⟨bound, zeros, List.tail_eq_of_cons_eq hb⟩
  · next hplus =>
    rw [number?_filter_eq_some_iff]
    constructor
    · rintro ⟨bound, zeros, rfl⟩
      exact .plain zeros bound
    · rintro (⟨zeros, bound⟩ | ⟨zeros, bound⟩)
      · exact ⟨bound, zeros, rfl⟩
      · exact absurd rfl (hplus _)

theorem Spells.not_brace {body : Text} {i : Nat} {c : Char} (h : Spells body i) (hc : c ∈ body) :
    c ≠ '\x7b' ∧ c ≠ '\x7d' := by
  have hdigit {zeros : Nat} (hc : c ∈ Text.padded zeros i) : c ≠ '\x7b' ∧ c ≠ '\x7d' := by
    have := Text.isDigit_of_mem_padded hc
    constructor <;> (rintro rfl; exact absurd this (by decide))
  cases h with
  | plain zeros bound => exact hdigit hc
  | plus zeros bound =>
    rcases List.mem_cons.1 hc with rfl | hc
    · decide
    · exact hdigit hc

/-! One piece at the front of a template. -/

section Front

variable (args : List Text) (rest : Text)

theorem format_plain {c : Char} (h : c ≠ '\x7b' ∧ c ≠ '\x7d') :
    format args (c :: rest) = c :: format args rest := by
  rw [format.eq_4 args c rest (fun _ hc => absurd hc h.1) (fun _ hc => absurd hc h.2),
    if_neg fun hc => h.1 hc.1]

theorem format_doubled (c : Char) : format args (doubled c ++ rest) = c :: format args rest := by
  unfold doubled
  split
  · next hc =>
    rcases hc with rfl | rfl
    · exact format.eq_2 args rest
    · exact format.eq_3 args rest
  · next hc => exact format_plain args rest (not_or.1 hc)

theorem format_literal (text : Text) :
    format args (text.flatMap doubled ++ rest) = text ++ format args rest := by
  induction text with
  | nil => rfl
  | cons c text ih => rw [List.flatMap_cons, List.append_assoc, format_doubled, ih, List.cons_append]

theorem braced_append (body : Text) : braced body ++ rest = '\x7b' :: (body ++ '\x7d' :: rest) := by
  simp [braced]

theorem cut_at_closing {body : Text} (closed : '\x7d' ∉ body) :
    (body ++ '\x7d' :: rest).takeWhile notClosing = body ∧
      ((body ++ '\x7d' :: rest).dropWhile notClosing).tail = rest := by
  have hbody : ∀ c ∈ body, notClosing c = true := by
    intro c hc
    rw [notClosing, bne_iff_ne]
    rintro rfl
    exact closed hc
  rw [List.takeWhile_append_of_pos hbody, List.dropWhile_append_of_pos hbody]
  simp [notClosing]

theorem format_braced {body : Text} (closed : '\x7d' ∉ body) (single : body.head? ≠ some '\x7b') :
    format args (braced body ++ rest) = fill args body ++ format args rest := by
  have hopen : ∀ r, body ++ '\x7d' :: rest ≠ '\x7b' :: r := by
    rintro r hr
    cases body with
    | nil => exact absurd (List.head_eq_of_cons_eq hr) (by decide)
    | cons c body => exact single (congrArg some (List.head_eq_of_cons_eq hr))
  obtain ⟨htake, hdrop⟩ := cut_at_closing rest closed
  rw [braced_append, format.eq_4 _ _ _ (fun r _ hr => hopen r hr) (fun _ hc => absurd hc (by decide)),
    if_pos ⟨rfl, by simp⟩, htake, hdrop]

/-- A segment is cut off the front of a template where it ends. -/
theorem format_rendering (segment : Segment) :
    format args (segment.rendering ++ rest) = segment.meaning args ++ format args rest := by
  cases segment with
  | literal text => exact format_literal args rest text
  | index body i spelled =>
    have closed : '\x7d' ∉ body := fun hc => (spelled.not_brace hc).2 rfl
    have single : body.head? ≠ some '\x7b' := fun hc =>
      (spelled.not_brace (List.mem_of_mem_head? hc)).1 rfl
    rw [Segment.rendering, format_braced args rest closed single, fill, index?_eq_some_iff.2 spelled]
    rfl
  | other body closed single unspelled =>
    have hnone : index? body = none := by
      rw [Option.eq_none_iff_forall_ne_some]
      exact fun i hi => unspelled i (index?_eq_some_iff.1 hi)
    rw [Segment.rendering, format_braced args rest closed single, fill, hnone]
    rfl

end Front

/-- A template that is put together from segments is formatted segment by segment. -/
theorem format_composes (args : List Text) (segments : List Segment) :
    format args (segments.flatMap Segment.rendering) = segments.flatMap (Segment.meaning args) := by
  induction segments with
  | nil => exact format.eq_1 args
  | cons segment segments ih =>
    rw [List.flatMap_cons, format_rendering, ih, List.flatMap_cons]

/-- Three braces on either side of an index, filled with a text that looks like a placeholder itself. -/
example : format [['\x7b', '0', '\x7d']] ['\x7b', '\x7b', '\x7b', '0', '0', '\x7d', '\x7d', '\x7d'] =
    ['\x7b', '\x7b', '0', '\x7d', '\x7d'] := by cbv

end Lenient.Template
