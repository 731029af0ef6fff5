import Lenient.Lexeme.Literal
import Lenient.Lexeme.Word
import Mathlib.Data.List.DropRight

/-! What the lexemes do, told by the unread text alone. `Reads x a r` says that a reading `x` has the
answer `a` and leaves `r` unread; each lemma below gives the answer and the rest from the text in
front of the cursor. -/

namespace Lenient.Lexeme

open Cursor

variable {σ : Type} [Cursor σ]

/-- The reading has the answer `a` and leaves `r` unread. -/
structure Reads {α : Type} (x : α × σ) (a : α) (r : Text) : Prop where
  answer : x.1 = a
  rest : unread x.2 = r

theorem Reads.eq {α : Type} {x : α × σ} {a : α} {r : Text} (h : Reads x a r) : x = (a, x.2) :=
  Prod.ext h.answer rfl

theorem Reads.onto {α : Type} {x : List α × σ} {as bs : List α} {r : Text} (h : Reads x bs r) :
    Reads (onto as x) (as ++ bs) r :=
  ⟨by rw [onto_fst, h.answer], h.rest⟩

theorem Reads.map {α β : Type} {x : α × σ} {a : α} {r : Text} (h : Reads x a r) (f : α → β) :
    Reads (x.map f id) (f a) r :=
  ⟨congrArg f h.answer, h.rest⟩

theorem Reads.offset_eq {α : Type} {x : α × σ} {a : α} {s : σ} {w r : Text} (h : Reads x a r)
    (hf : Forward s x.2) (hu : unread s = w ++ r) :
    (position x.2).offset = (position s).offset + w.length := by
  have ho := hf.offset_eq
  rw [remaining, remaining, h.rest, hu, List.length_append] at ho
  omega

theorem head?_of_unread {s : σ} {c : Char} {r : Text} (h : unread s = c :: r) : head? s = some c := by
  rw [head?_eq, h]
  rfl

theorem unread_advance_of {s : σ} {c : Char} {r : Text} (h : unread s = c :: r) :
    unread (advance s) = r := by
  rw [unread_advance, h]
  rfl

/-- The text behind leading blanks. -/
def bared (t : Text) : Text := t.dropWhile isSpace

theorem bared_append {a : Text} (ha : ∀ c ∈ a, isSpace c = true) (t : Text) :
    bared (a ++ t) = bared t :=
  List.dropWhile_append_of_pos ha

theorem bared_cons {c : Char} (hc : isSpace c = false) (t : Text) : bared (c :: t) = c :: t := by
  simp [bared, hc]

theorem bared_bared (t : Text) : bared (bared t) = bared t := List.dropWhile_idempotent ..

@[simp] theorem unread_skipSpaces (s : σ) : unread (skipSpaces s) = bared (unread s) :=
  unread_skipWhile isSpace s

/-- What `accept` answers and leaves: behind blanks the character is read over, or nothing is. -/
theorem reads_accept (c : Char) (s : σ) :
    Reads (accept c s) ((bared (unread s)).head? = some c)
      (if (bared (unread s)).head? = some c then (bared (unread s)).tail else unread s) := by
  unfold accept
  simp only [head?_eq, unread_skipSpaces, unread_mark]
  split
  · next h => exact ⟨by simp [h], by simp⟩
  · next h => exact ⟨by simp [h], by simp [skipSpaces]⟩

theorem reads_accept_true {c : Char} {s : σ} {r : Text} (h : bared (unread s) = c :: r) :
    Reads (accept c s) true r := by
  have hk := reads_accept c s
  rw [h] at hk
  simpa using hk

theorem reads_accept_false {c : Char} {s : σ} (h : (bared (unread s)).head? ≠ some c) :
    Reads (accept c s) false (unread s) := by
  have hk := reads_accept c s
  rwa [if_neg h, decide_eq_false h] at hk

theorem reads_run_of_ends {stop : Char → Bool} {s : σ} {w r : Text} (h : unread s = w ++ r)
    (hw : ∀ c ∈ w, stop c = false) (hr : ∀ c ∈ r.head?, stop c = true) : Reads (run stop s) w r := by
  constructor
  · rw [run_fst, h, List.takeWhile_append_of_pos (by simpa using hw)]
    cases r with
    | nil => simp
    | cons d r => simp [hr d rfl]
  · rw [unread_run, h, List.dropWhile_append_of_pos (by simpa using hw)]
    cases r with
    | nil => rfl
    | cons d r => simp [hr d rfl]

theorem reads_run {stop : Char → Bool} {s : σ} {w r : Text} {d : Char} (h : unread s = w ++ d :: r)
    (hw : ∀ c ∈ w, stop c = false) (hd : stop d = true) : Reads (run stop s) w (d :: r) :=
  reads_run_of_ends h hw (by rintro _ ⟨⟩; exact hd)

theorem run_splits (stop : Char → Bool) (s : σ) :
    unread s = (run stop s).1 ++ unread (run stop s).2 ∧ (∀ c ∈ (run stop s).1, stop c = false) ∧
      ∀ c ∈ (unread (run stop s).2).head?, stop c = true := by
  rw [run_fst, unread_run]
  refine ⟨List.takeWhile_append_dropWhile.symm, ?_, ?_⟩
  · intro c hc
    simpa using List.mem_takeWhile_imp hc
  · intro c hc
    have hstop := List.head?_dropWhile_not (fun c => !stop c) (unread s)
    rw [Option.mem_def.1 hc] at hstop
    simpa using hstop

/-- One character of a word. -/
theorem word_of_head? {escape : Char} {stop : Char → Bool} {c : Char} {s : σ} (h : head? s = some c) :
    word escape stop s =
      if c = escape then onto (head? (advance s)).toList (word escape stop (advance (advance s)))
      else if isSpace c || stop c then ([], look s)
      else onto [c] (word escape stop (advance s)) := by
  rw [word.eq_def]
  split
  · next hn => rw [h] at hn; cases hn
  · next d hd =>
    obtain rfl : d = c := by rw [hd] at h; simpa using h
    rfl

theorem literal?_of_not_quote {escape : Char} {set : Escapes} {s : σ} {c : Char} {r : Text}
    (h : unread s = c :: r) (hc : isQuote c = false) : literal? escape set s = (none, look s) := by
  unfold literal?
  simp [head?_of_unread h, hc]

theorem reads_hexDigits {ds r : Text} {s : σ} (h : unread s = ds ++ r)
    (hd : ∀ c ∈ ds, (hexDigit? c).isSome) : Reads (hexDigits ds.length s) ds r := by
  induction ds generalizing s with
  | nil => exact ⟨rfl, h⟩
  | cons c ds ih =>
    obtain ⟨hc, hds⟩ := List.forall_mem_cons.1 hd
    have hr := ih (unread_advance_of h) hds
    rw [List.length_cons, hexDigits, head?_of_unread h]
    simp only [hc, if_true]
    exact hr.onto

theorem reads_escaped {s : σ} {c : Char} {r : Text} (h : unread s = c :: r) (hc : c ≠ 'u') :
    Reads (escaped .json s) (some [jsonUnescape c]) r := by
  unfold escaped
  simp only [head?_of_unread h, if_neg hc]
  exact ⟨rfl, unread_advance_of h⟩

theorem reads_escaped_hex {s : σ} {ds r : Text} (h : unread s = 'u' :: ds ++ r)
    (hl : ds.length = 4) (hd : ∀ c ∈ ds, (hexDigit? c).isSome) :
    Reads (escaped .json s) (some [charAt (hexNumber ds)]) r := by
  have hr := reads_hexDigits (unread_advance_of h) hd
  unfold escaped
  simp only [head?_of_unread h, if_true]
  rw [← hl, show [charAt (hexNumber ds)] = fromHex ds by simp [fromHex, hl]]
  exact hr.map _

section Literal

variable {quote escape : Char} {set : Escapes} {s : σ}

theorem literalRest_cons {c : Char} {r : Text} (h : unread s = c :: r) :
    literalRest quote escape set s =
      if c = escape then
        match (escaped set (advance s)).1 with
        | none => unterminated (escaped set (advance s)).2
        | some piece => onto piece (literalRest quote escape set (escaped set (advance s)).2)
      else if c = quote then ([], advance s)
      else onto [c] (literalRest quote escape set (advance s)) := by
  rw [literalRest.eq_def]
  split
  · next hn => rw [head?_of_unread h] at hn; cases hn
  · next d hd =>
    obtain rfl : c = d := by simpa [head?_of_unread h] using hd
    rfl

theorem literalRest_plain {c : Char} {r : Text} (h : unread s = c :: r) (he : c ≠ escape)
    (hq : c ≠ quote) :
    literalRest quote escape set s = onto [c] (literalRest quote escape set (advance s)) := by
  rw [literalRest_cons h, if_neg he, if_neg hq]

theorem literalRest_escaped {r r' piece : Text} (h : unread s = escape :: r)
    (hp : Reads (escaped set (advance s)) (some piece) r') :
    literalRest quote escape set s =
      onto piece (literalRest quote escape set (escaped set (advance s)).2) := by
  rw [literalRest_cons h, if_pos rfl, hp.answer]

theorem reads_literalRest_quote {r : Text} (h : unread s = quote :: r) (he : quote ≠ escape) :
    Reads (literalRest quote escape set s) [] r := by
  rw [literalRest_cons h, if_neg he, if_pos rfl]
  exact ⟨rfl, unread_advance_of h⟩

theorem reads_literal? {t r r' : Text} (h : unread s = quote :: r) (hq : isQuote quote = true)
    (hr : Reads (literalRest quote escape set (advance s)) t r') :
    Reads (literal? escape set s) (some t) r' := by
  unfold literal?
  simp only [head?_of_unread h, hq, if_true]
  exact hr.map some

end Literal

end Lenient.Lexeme
