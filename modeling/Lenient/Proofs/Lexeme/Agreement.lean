import Lenient.Proofs.Lexeme.Reading

/-! A lexeme is a function of the unread text. Two readings are alike if they have the same answer and
leave the same text unread; the states in front of them may be of different types, hold different
offsets and have different marks open. Every lexeme reads alike from states with the same unread text:
a mark that it opens it also closes, and what it returns to is the text that it started from. -/

namespace Lenient.Lexeme

open Cursor

variable {σ τ : Type} [Cursor σ] [Cursor τ] {s : σ} {t : τ}

/-- The readings have the same answer and leave the same text unread. -/
abbrev Alike {α : Type} (x : α × σ) (y : α × τ) : Prop := Reads x y.1 (unread y.2)

theorem Alike.exists_eq {α : Type} {x : α × σ} {y : α × τ} {a : α} {s' : σ} (h : Alike x y)
    (hx : x = (a, s')) : ∃ t', y = (a, t') ∧ unread s' = unread t' := by
  subst hx
  exact ⟨y.2, Prod.ext h.answer.symm rfl, h.rest⟩

theorem head?_congr (h : unread s = unread t) : head? s = head? t := by
  rw [head?_eq, head?_eq, h]

theorem exists_unread_congr {c : Char} (h : unread s = unread t) (hs : head? s = some c) :
    ∃ r, unread t = c :: r := by
  rw [head?_eq, h] at hs
  exact List.head?_eq_some_iff.1 hs

theorem unread_advance_congr (h : unread s = unread t) : unread (advance s) = unread (advance t) := by
  rw [unread_advance, unread_advance, h]

theorem unread_skipWhile_congr (p : Char → Bool) (h : unread s = unread t) :
    unread (skipWhile p s) = unread (skipWhile p t) := by
  rw [unread_skipWhile, unread_skipWhile, h]

theorem alike_accept (c : Char) (h : unread s = unread t) : Alike (accept c s) (accept c t) := by
  have hs := reads_accept c s
  have ht := reads_accept c t
  rw [h] at hs
  exact ⟨hs.answer.trans ht.answer.symm, hs.rest.trans ht.rest.symm⟩

theorem alike_run (stop : Char → Bool) (h : unread s = unread t) : Alike (run stop s) (run stop t) :=
  ⟨by rw [run_fst, run_fst, h], by rw [unread_run, unread_run, h]⟩

theorem alike_hexDigits (n : Nat) (h : unread s = unread t) :
    Alike (hexDigits n s) (hexDigits n t) := by
  induction n generalizing s t with
  | zero => exact ⟨rfl, h⟩
  | succ n ih =>
    rw [hexDigits, hexDigits, head?_congr h]
    cases head? t with
    | none => exact ⟨rfl, by simpa using h⟩
    | some c =>
      dsimp only
      split
      · exact (ih (unread_advance_congr h)).onto
      · exact ⟨rfl, by simpa using h⟩

theorem alike_escaped (set : Escapes) (h : unread s = unread t) :
    Alike (escaped set s) (escaped set t) := by
  unfold escaped
  rw [head?_congr h]
  cases head? t with
  | none => exact ⟨rfl, by simpa using h⟩
  | some c =>
    cases set with
    | named => exact ⟨rfl, unread_advance_congr h⟩
    | json =>
      dsimp only
      split
      · exact (alike_hexDigits 4 (unread_advance_congr h)).map _
      · exact ⟨rfl, unread_advance_congr h⟩

theorem literalRest_nil {quote escape : Char} {set : Escapes} (h : head? t = none) :
    literalRest quote escape set t = unterminated (look t) := by
  rw [literalRest.eq_def]
  split
  · rfl
  · next c hc => rw [h] at hc; cases hc

theorem alike_literalRest (quote escape : Char) (set : Escapes) (h : unread s = unread t) :
    Alike (literalRest quote escape set s) (literalRest quote escape set t) := by
  fun_induction literalRest quote escape set s generalizing t with
  | case1 s hs =>
    rw [head?_congr h] at hs
    rw [literalRest_nil hs]
    exact ⟨rfl, by simpa [unterminated] using h⟩
  | case2 s hn hs =>
    have he := alike_escaped set (unread_advance_congr h)
    obtain ⟨r, hr⟩ := exists_unread_congr h hs
    rw [literalRest_cons hr, if_pos rfl, ← he.answer, hn]
    exact ⟨rfl, by simpa [unterminated] using he.rest⟩
  | case3 s piece hp hs ih =>
    have he := alike_escaped set (unread_advance_congr h)
    obtain ⟨r, hr⟩ := exists_unread_congr h hs
    rw [literalRest_cons hr, if_pos rfl, ← he.answer, hp]
    exact (ih he.rest).onto
  | case4 s hs hc =>
    obtain ⟨r, hr⟩ := exists_unread_congr h hs
    rw [literalRest_cons hr, if_neg hc, if_pos rfl]
    exact ⟨rfl, unread_advance_congr h⟩
  | case5 s c hs hc hq ih =>
    obtain ⟨r, hr⟩ := exists_unread_congr h hs
    rw [literalRest_plain hr hc hq]
    exact (ih (unread_advance_congr h)).onto

theorem alike_literal? (escape : Char) (set : Escapes) (h : unread s = unread t) :
    Alike (literal? escape set s) (literal? escape set t) := by
  unfold literal?
  rw [head?_congr h]
  cases head? t with
  | none => exact ⟨rfl, by simpa using h⟩
  | some q =>
    dsimp only
    split
    · exact (alike_literalRest q escape set (unread_advance_congr h)).map some
    · exact ⟨rfl, by simpa using h⟩

theorem alike_word (escape : Char) (stop : Char → Bool) (h : unread s = unread t) :
    Alike (word escape stop s) (word escape stop t) := by
  fun_induction word escape stop s generalizing t with
  | case1 s hs =>
    rw [head?_congr h] at hs
    rw [word.eq_def]
    split
    · exact ⟨rfl, by simpa using h⟩
    · next hc => rw [hs] at hc; cases hc
  | case2 s hs ih =>
    have ha := unread_advance_congr h
    rw [head?_congr h] at hs
    rw [word_of_head? hs, if_pos rfl, head?_congr ha]
    exact (ih (unread_advance_congr ha)).onto
  | case3 s c hs hc hstop =>
    rw [head?_congr h] at hs
    rw [word_of_head? hs, if_neg hc, if_pos hstop]
    exact ⟨rfl, by simpa using h⟩
  | case4 s c hs hc hstop ih =>
    rw [head?_congr h] at hs
    rw [word_of_head? hs, if_neg hc, if_neg hstop]
    exact (ih (unread_advance_congr h)).onto

end Lenient.Lexeme
