import Lenient.Cursor
import Lenient.Lexeme.Charset

/-! Skipping over characters of a kind. A skip reads exactly the longest run of that kind, and its
last look is at the character that ends the run. -/

namespace Lenient.Lexeme

open Cursor

variable {σ : Type} [Cursor σ]

def skipWhile (p : Char → Bool) (s : σ) : σ :=
  match _h : head? s with
  | some c => if p c then skipWhile p (advance s) else look s
  | none => look s
termination_by remaining s
decreasing_by exact remaining_advance_lt _h

def skips (p : Char → Bool) (s : σ) : Bool := (head? s).any p

def skipSpaces (s : σ) : σ := skipWhile isSpace s

/-- Reads over spaces and the character `c` behind them. Without that character, nothing is read. -/
def accept (c : Char) (s : σ) : Bool × σ :=
  let t := skipSpaces (mark s)
  if head? t = some c then (true, commit (advance t)) else (false, rewind t)

@[simp] theorem unread_skipWhile (p : Char → Bool) (s : σ) :
    unread (skipWhile p s) = (unread s).dropWhile p := by
  fun_induction skipWhile p s with
  | case1 s c h hp ih =>
    rw [head?_eq] at h
    obtain ⟨rest, hu⟩ := List.head?_eq_some_iff.1 h
    simp [ih, hu, hp]
  | case2 s c h hp =>
    rw [head?_eq] at h
    obtain ⟨rest, hu⟩ := List.head?_eq_some_iff.1 h
    simp [hu, hp]
  | case3 s h =>
    rw [head?_eq] at h
    simp [List.head?_eq_none_iff.1 h]

@[simp] theorem pins_skipWhile (p : Char → Bool) (s : σ) : pins (skipWhile p s) = pins s := by
  fun_induction skipWhile p s with
  | case1 s c h hp ih => simp [ih]
  | case2 s c h hp => simp
  | case3 s h => simp

@[simp] theorem whole_skipWhile (p : Char → Bool) (s : σ) : whole (skipWhile p s) = whole s := by
  fun_induction skipWhile p s with
  | case1 s c h hp ih => simp [ih]
  | case2 s c h hp => simp
  | case3 s h => simp

theorem forward_skipWhile (p : Char → Bool) (s : σ) : Forward s (skipWhile p s) :=
  ⟨by simp, by simpa using List.dropWhile_suffix p, by simp⟩

theorem forward_skipSpaces (s : σ) : Forward s (skipSpaces s) := forward_skipWhile isSpace s

theorem head?_skipWhile {p : Char → Bool} {s : σ} {c : Char} (h : head? (skipWhile p s) = some c) :
    p c = false := by
  rw [head?_eq, unread_skipWhile] at h
  have := List.head?_dropWhile_not p (unread s)
  rw [h] at this
  simpa using this

theorem forward_accept (c : Char) (s : σ) : Forward s (accept c s).2 := by
  have h := forward_skipSpaces (mark s)
  unfold accept
  simp only
  split
  · exact ⟨by simp [h.whole_eq], by simpa using (List.tail_suffix _).trans h.suffix, by simp [h.pins_eq]⟩
  · exact ⟨by simp [h.whole_eq], by simp [h.pins_eq], by simp [h.pins_eq]⟩

theorem accept_of_head {c : Char} {s : σ} (h : head? s = some c) (hc : isSpace c = false) :
    (accept c s).1 = true := by
  rw [head?_eq] at h
  obtain ⟨rest, hu⟩ := List.head?_eq_some_iff.1 h
  unfold accept
  simp only
  rw [if_pos]
  rw [head?_eq, skipSpaces, unread_skipWhile, unread_mark, hu, List.dropWhile_cons]
  simp [hc]

theorem remaining_accept_lt {c : Char} {s : σ} (h : (accept c s).1 = true) :
    remaining (accept c s).2 < remaining s := by
  have hle := (forward_skipSpaces (mark s)).le
  unfold accept at h ⊢
  simp only at h ⊢
  split
  · next hc =>
    have := remaining_advance_lt hc
    simp only [remaining, unread_mark, unread_commit] at *
    omega
  · next hc => rw [if_neg hc] at h; cases h

end Lenient.Lexeme
