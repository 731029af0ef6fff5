import Lenient.Lexeme.Skip

/-! Unquoted text: words, in which an escape makes the next character part of the word, and raw
runs, which know no escape. -/

namespace Lenient.Lexeme

open Cursor

variable {σ : Type} [Cursor σ]

/-- Reads a word: up to a space or a character that `stop` holds for, neither of them escaped. -/
def word (escape : Char) (stop : Char → Bool) (s : σ) : Text × σ :=
  match _h : head? s with
  | none => ([], look s)
  | some c =>
    if c = escape then onto (head? (advance s)).toList (word escape stop (advance (advance s)))
    else if isSpace c || stop c then ([], look s)
    else onto [c] (word escape stop (advance s))
termination_by remaining s
decreasing_by
  · exact Nat.lt_of_le_of_lt (forward_advance _).le (remaining_advance_lt _h)
  · exact remaining_advance_lt _h

def run (stop : Char → Bool) (s : σ) : Text × σ :=
  let t := skipWhile (fun c => !stop c) (mark s)
  (marked t, commit t)

theorem forward_word (escape : Char) (stop : Char → Bool) (s : σ) :
    Forward s (word escape stop s).2 := by
  fun_induction word escape stop s with
  | case1 s h => exact forward_look s
  | case2 s h ih => exact ((forward_advance s).trans (forward_advance _)).trans ih
  | case3 s c h he hs => exact forward_look s
  | case4 s c h he hs ih => exact (forward_advance s).trans ih

theorem remaining_word_lt {escape : Char} {stop : Char → Bool} {s : σ} {c : Char}
    (h : head? s = some c) (hc : c = escape ∨ (isSpace c || stop c) = false) :
    remaining (word escape stop s).2 < remaining s := by
  rw [word.eq_def]
  split
  · next hn => rw [h] at hn; cases hn
  · next d hd =>
    obtain rfl : d = c := by rw [hd] at h; simpa using h
    have hlt := remaining_advance_lt hd
    split
    · exact Nat.lt_of_le_of_lt ((forward_advance _).trans (forward_word _ _ _)).le hlt
    · next he =>
      rw [if_neg (by simp [hc.resolve_left he])]
      exact Nat.lt_of_le_of_lt (forward_word _ _ _).le hlt

theorem forward_run (stop : Char → Bool) (s : σ) : Forward s (run stop s).2 := by
  have h := forward_skipWhile (fun c => !stop c) (mark s)
  exact ⟨by simp [run], by simpa [run] using h.suffix, by simp [run]⟩

theorem unread_run (stop : Char → Bool) (s : σ) :
    unread (run stop s).2 = (unread s).dropWhile fun c => !stop c := by
  simp [run]

/-- A run is the longest stretch of the unread text without a stop. -/
theorem run_fst (stop : Char → Bool) (s : σ) :
    (run stop s).1 = (unread s).takeWhile fun c => !stop c := by
  have h := marked_append (skipWhile (fun c => !stop c) (mark s))
  simp only [pins_skipWhile, pins_mark, unread_skipWhile, unread_mark, List.headD_cons] at h
  have h' : (unread s).takeWhile (fun c => !stop c) ++ (unread s).dropWhile (fun c => !stop c) =
      unread s := List.takeWhile_append_dropWhile
  exact List.append_cancel_right (h.trans h'.symm)

theorem remaining_run_lt {stop : Char → Bool} {s : σ} (h : (run stop s).1 ≠ []) :
    remaining (run stop s).2 < remaining s := by
  have h' : (unread s).takeWhile (fun c => !stop c) ++ (unread s).dropWhile (fun c => !stop c) =
      unread s := List.takeWhile_append_dropWhile
  have hl := congrArg List.length h'
  rw [List.length_append, ← run_fst, ← unread_run] at hl
  have := List.length_pos_iff.2 h
  simp only [remaining]
  omega

theorem run_ne_nil {stop : Char → Bool} {s : σ} {c : Char} (h : head? s = some c)
    (hc : stop c = false) : (run stop s).1 ≠ [] := by
  rw [head?_eq] at h
  obtain ⟨rest, hu⟩ := List.head?_eq_some_iff.1 h
  rw [run_fst, hu, List.takeWhile_cons]
  simp [hc]

end Lenient.Lexeme
