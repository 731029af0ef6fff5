import Lenient.Lexeme.Skip

/-! Quoted literals. A literal ends at the first quote like its opening one that no escape
precedes; at the end of the input it is what was read so far. -/

namespace Lenient.Lexeme

open Cursor

/-- Which escapes a literal knows: the named ones (`n`, `r`, `t`), or also `f` and `u` with four
hexadecimal digits. -/
inductive Escapes
  | named
  | json
  deriving Repr, DecidableEq

/-- What the digits behind an escaped `u` stand for. Fewer than four are kept with the `u`. -/
def fromHex (ds : Text) : Text := if ds.length = 4 then [charAt (hexNumber ds)] else 'u' :: ds

def jsonUnescape (c : Char) : Char := if c = 'f' then '\x0c' else unescape c

variable {σ : Type} [Cursor σ]

def hexDigits : Nat → σ → Text × σ
  | 0, s => ([], s)
  | n + 1, s =>
    match head? s with
    | none => ([], look s)
    | some c =>
      if (hexDigit? c).isSome then onto [c] (hexDigits n (advance s)) else ([], look s)

def escaped (set : Escapes) (s : σ) : Option Text × σ :=
  match head? s with
  | none => (none, look s)
  | some c =>
    match set with
    | .named => (some [unescape c], advance s)
    | .json =>
      if c = 'u' then (hexDigits 4 (advance s)).map (some ∘ fromHex) id
      else (some [jsonUnescape c], advance s)

theorem forward_hexDigits (n : Nat) (s : σ) : Forward s (hexDigits n s).2 := by
  induction n generalizing s with
  | zero => exact Forward.refl s
  | succ n ih =>
    unfold hexDigits
    split
    · exact forward_look s
    · split
      · exact (forward_advance s).trans (ih _)
      · exact forward_look s

theorem forward_escaped (set : Escapes) (s : σ) : Forward s (escaped set s).2 := by
  unfold escaped
  split
  · exact forward_look s
  · split
    · exact forward_advance s
    · split
      · exact (forward_advance s).trans (forward_hexDigits 4 _)
      · exact forward_advance s

def unterminated (s : σ) : Text × σ := ([], note (.literalUnterminated (position s)) s)

/-- Reads a literal from behind its opening quote to behind its closing one. -/
def literalRest (quote escape : Char) (set : Escapes) (s : σ) : Text × σ :=
  match _h : head? s with
  | none => unterminated (look s)
  | some c =>
    if c = escape then
      match (escaped set (advance s)).1 with
      | none => unterminated (escaped set (advance s)).2
      | some piece => onto piece (literalRest quote escape set (escaped set (advance s)).2)
    else if c = quote then ([], advance s)
    else onto [c] (literalRest quote escape set (advance s))
termination_by remaining s
decreasing_by
  · exact Nat.lt_of_le_of_lt (forward_escaped set _).le (remaining_advance_lt _h)
  · exact remaining_advance_lt _h

def literal? (escape : Char) (set : Escapes) (s : σ) : Option Text × σ :=
  match head? s with
  | none => (none, look s)
  | some q =>
    if isQuote q then (literalRest q escape set (advance s)).map some id else (none, look s)

theorem forward_unterminated (s : σ) : Forward s (unterminated s).2 := forward_note _ s

theorem forward_literalRest (quote escape : Char) (set : Escapes) (s : σ) :
    Forward s (literalRest quote escape set s).2 := by
  fun_induction literalRest quote escape set s with
  | case1 s h => exact (forward_look s).trans (forward_unterminated _)
  | case2 s hn h =>
    exact ((forward_advance s).trans (forward_escaped set _)).trans (forward_unterminated _)
  | case3 s piece hp h ih => exact ((forward_advance s).trans (forward_escaped set _)).trans ih
  | case4 s h hc => exact forward_advance s
  | case5 s c h hc hq ih => exact (forward_advance s).trans ih

theorem forward_literal? (escape : Char) (set : Escapes) (s : σ) :
    Forward s (literal? escape set s).2 := by
  unfold literal?
  split
  · exact forward_look s
  · split
    · exact (forward_advance s).trans (forward_literalRest _ _ _ _)
    · exact forward_look s

theorem remaining_literal?_lt {escape : Char} {set : Escapes} {s : σ} {t : Text}
    (h : (literal? escape set s).1 = some t) : remaining (literal? escape set s).2 < remaining s := by
  unfold literal? at h ⊢
  split
  · next hn => simp [hn] at h
  · next q hq =>
    split
    · exact Nat.lt_of_le_of_lt (forward_literalRest _ _ _ _).le (remaining_advance_lt hq)
    · next hn => simp [hq, hn] at h

end Lenient.Lexeme
