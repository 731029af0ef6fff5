import Lenient.Lexeme.Literal
import Lenient.Lexeme.Word
import Lenient.Query.Event

/-! One step of the query reader: a term, a parenthesis, or the end of the input. Tokens are
literals or words, and a delimiter behind a token makes it the label of what follows. Every step
but the last consumes at least one character, whatever the delimiter and the escape are. -/

namespace Lenient.Query

open Cursor Lexeme

structure Options where
  delimiter : Char := '='
  escape : Char := backslash
  limit : Nat := 256
  deriving Repr, DecidableEq

structure Token where
  text : Text
  quoted : Bool
  deriving Repr, DecidableEq

inductive Step
  | finish
  /-- A group that is nested too deep. -/
  | halt
  | leave
  | enter (label : Option Text)
  /-- A term that is no group, and what it is read as. -/
  | term (events : List Event)
  deriving Repr, DecidableEq

variable {σ : Type} [Cursor σ]

def Options.stops (o : Options) (c : Char) : Bool := c = '(' || c = ')' || c = o.delimiter

def token (o : Options) (s : σ) : Token × σ :=
  match literal? o.escape .named s with
  | (some text, t) => (⟨text, true⟩, t)
  | (none, t) => (word o.escape o.stops t).map (⟨·, false⟩) id

/-- Reads over the parenthesis under the cursor, unless `depth` groups are as many as may be open. -/
def openGroup (o : Options) (depth : Nat) (label : Option Text) (s : σ) : Step × σ :=
  if o.limit ≤ depth then (.halt, note (.groupsTooDeep o.limit (position s)) s)
  else (.enter label, advance s)

/-- What an unlabelled token is read as. An empty one counts only in quotes. -/
def bareToken (t : Token) : List Event :=
  if t.quoted || !t.text.isEmpty then [.token none (some t.text)] else []

def labelled (o : Options) (depth : Nat) (label : Text) (s : σ) : Step × σ :=
  if head? (skipSpaces s) = some '(' then openGroup o depth (some label) (skipSpaces s)
  else (token o (skipSpaces s)).map (fun v => .term [.token (some label) (some v.text)]) id

def term (o : Options) (depth : Nat) (s : σ) : Step × σ :=
  match accept o.delimiter (token o s).2 with
  | (true, t) => labelled o depth (token o s).1.text t
  | (false, t) => (.term (bareToken (token o s).1), t)

def step (o : Options) (groups : List (Option Text)) (s : σ) : Step × σ :=
  match head? (skipSpaces s) with
  | none => (.finish, skipSpaces s)
  | some c =>
    if c = '(' then openGroup o groups.length none (skipSpaces s)
    else if c = ')' then (.leave, advance (skipSpaces s))
    else term o groups.length (skipSpaces s)

theorem step_ended (o : Options) (groups : List (Option Text)) {s : σ} (h : head? s = none) :
    step o groups s = (.finish, skipSpaces s) := by
  have hs : head? (skipSpaces s) = none := by
    rw [head?_eq, List.head?_eq_none_iff] at h ⊢
    rw [skipSpaces, unread_skipWhile, h, List.dropWhile_nil]
  rw [step, hs]

/-- What a step inside `depth` groups says about where it stops and what it was read as. -/
def Step.Fits (o : Options) (depth : Nat) (t : σ) : Step → Prop
  | .finish => head? t = none
  | .halt => o.limit ≤ depth ∧ head? t = some '('
  | .leave => True
  | .enter _ => depth < o.limit
  | .term es => es = [] ∨ ∃ label value, es = [.token label (some value)]

theorem fits_openGroup {o : Options} {depth : Nat} {label : Option Text} {s : σ}
    (h : head? s = some '(') :
    (openGroup o depth label s).1.Fits o depth (openGroup o depth label s).2 := by
  unfold openGroup
  split
  · next hd => exact ⟨hd, by simpa using h⟩
  · next hd => exact Nat.lt_of_not_le hd

theorem fits_labelled (o : Options) (depth : Nat) (label : Text) (s : σ) :
    (labelled o depth label s).1.Fits o depth (labelled o depth label s).2 := by
  unfold labelled
  split
  · next h => exact fits_openGroup h
  · exact Or.inr ⟨_, _, rfl⟩

theorem fits_term (o : Options) (depth : Nat) (s : σ) :
    (term o depth s).1.Fits o depth (term o depth s).2 := by
  unfold term
  split
  · exact fits_labelled _ _ _ _
  · unfold bareToken
    split
    · exact Or.inr ⟨_, _, rfl⟩
    · exact Or.inl rfl

theorem fits_step (o : Options) (groups : List (Option Text)) (s : σ) :
    (step o groups s).1.Fits o groups.length (step o groups s).2 := by
  unfold step
  split
  · next h => exact h
  · next c h =>
    split
    · next hc => exact fits_openGroup (by rw [h, hc])
    · split
      · exact trivial
      · exact fits_term _ _ _

theorem fits_of_step {o : Options} {groups : List (Option Text)} {s t : σ} {r : Step}
    (h : step o groups s = (r, t)) : r.Fits o groups.length t := by
  have := fits_step o groups s
  rwa [h] at this

theorem forward_token (o : Options) (s : σ) : Forward s (token o s).2 := by
  have h := forward_literal? o.escape .named s
  unfold token
  split
  · next ht => rw [ht] at h; exact h
  · next ht => rw [ht] at h; exact h.trans (forward_word _ _ _)

theorem forward_openGroup (o : Options) (depth : Nat) (label : Option Text) (s : σ) :
    Forward s (openGroup o depth label s).2 := by
  unfold openGroup
  split
  · exact forward_note _ _
  · exact forward_advance _

theorem forward_labelled (o : Options) (depth : Nat) (label : Text) (s : σ) :
    Forward s (labelled o depth label s).2 := by
  have h := forward_skipSpaces s
  unfold labelled
  split
  · exact h.trans (forward_openGroup _ _ _ _)
  · exact h.trans (forward_token _ _)

theorem forward_term (o : Options) (depth : Nat) (s : σ) : Forward s (term o depth s).2 := by
  have h := (forward_token o s).trans (forward_accept o.delimiter _)
  unfold term
  split
  · next ht => rw [ht] at h; exact h.trans (forward_labelled _ _ _ _)
  · next ht => rw [ht] at h; exact h

theorem forward_step (o : Options) (groups : List (Option Text)) (s : σ) :
    Forward s (step o groups s).2 := by
  have h := forward_skipSpaces s
  unfold step
  split
  · exact h
  · split
    · exact h.trans (forward_openGroup _ _ _ _)
    · split
      · exact h.trans (forward_advance _)
      · exact h.trans (forward_term _ _ _)

theorem forward_of_step {o : Options} {groups : List (Option Text)} {s t : σ} {r : Step}
    (h : step o groups s = (r, t)) : Forward s t := by
  have := forward_step o groups s
  rwa [h] at this

/-- A token and the delimiter behind it consume something, since a token that is empty ends at a
delimiter. -/
theorem remaining_accept_token_lt {o : Options} {s : σ} {c : Char} (h : head? s = some c)
    (hs : isSpace c = false) (hp : c ≠ '(' ∧ c ≠ ')') :
    remaining (accept o.delimiter (token o s).2).2 < remaining s := by
  have ha := (forward_accept o.delimiter (token o s).2).le
  by_cases hq : isQuote c = true
  · refine Nat.lt_of_le_of_lt ha ?_
    have hl : (literal? o.escape .named s).1.isSome = true := by simp [literal?, h, hq]
    obtain ⟨text, ht⟩ := Option.isSome_iff_exists.1 hl
    have := remaining_literal?_lt ht
    unfold token
    split
    · next t he => rw [he] at this; exact this
    · next t he => rw [he] at ht; cases ht
  · have ht : token o s = (word o.escape o.stops (look s)).map (⟨·, false⟩) id := by
      simp [token, literal?, h, hq]
    have hlook : head? (look s) = some c := by simpa using h
    by_cases hw : c = o.escape ∨ o.stops c = false
    · refine Nat.lt_of_le_of_lt ha ?_
      rw [ht]
      have : remaining (word o.escape o.stops (look s)).2 < remaining (look s) :=
        remaining_word_lt hlook (hw.imp_right fun hst => by simp [hs, hst])
      simpa [remaining] using this
    · have hd : c = o.delimiter := by
        cases hst : o.stops c with
        | false => exact absurd (Or.inr hst) hw
        | true => simpa [Options.stops, hp.1, hp.2] using hst
      have hwd : (word o.escape o.stops (look s)).2 = look (look s) := by
        rw [word.eq_def]
        split
        · rfl
        · next d hd' =>
          obtain rfl : d = c := by rw [hd'] at hlook; simpa using hlook
          rw [if_neg (fun e => hw (Or.inl e)), if_pos]
          simp [Options.stops, hd]
      rw [ht, Prod.map_snd, hwd, ← hd]
      have hacc : (accept c (look (look s))).1 = true := accept_of_head (by simpa using h) hs
      simpa [remaining] using remaining_accept_lt hacc

theorem remaining_term_lt {o : Options} {depth : Nat} {s : σ} {c : Char} (h : head? s = some c)
    (hs : isSpace c = false) (hp : c ≠ '(' ∧ c ≠ ')') :
    remaining (term o depth s).2 < remaining s := by
  have hlt : remaining (accept o.delimiter (token o s).2).2 < remaining s :=
    remaining_accept_token_lt h hs hp
  unfold term
  split
  · next ht => rw [ht] at hlt; exact Nat.lt_of_le_of_lt (forward_labelled _ _ _ _).le hlt
  · next ht => rw [ht] at hlt; exact hlt

theorem remaining_step_lt {o : Options} {groups : List (Option Text)} {s : σ}
    (hf : (step o groups s).1 ≠ .finish) (hh : (step o groups s).1 ≠ .halt) :
    remaining (step o groups s).2 < remaining s := by
  have hle := (forward_skipSpaces s).le
  unfold step at hf hh ⊢
  split
  · next hn => simp [hn] at hf
  · next c hc =>
    simp only [hc] at hh
    split
    · next hb =>
      rw [if_pos hb] at hh
      unfold openGroup at hh ⊢
      split
      · next hl => simp [hl] at hh
      · exact Nat.lt_of_lt_of_le (remaining_advance_lt hc) hle
    · next hb =>
      split
      · exact Nat.lt_of_lt_of_le (remaining_advance_lt hc) hle
      · next hb' =>
        exact Nat.lt_of_lt_of_le (remaining_term_lt hc (head?_skipWhile hc) ⟨hb, hb'⟩) hle

theorem remaining_lt_of_step {o : Options} {groups : List (Option Text)} {s t : σ} {r : Step}
    (h : step o groups s = (r, t)) (hf : r ≠ .finish) (hh : r ≠ .halt) :
    remaining t < remaining s := by
  have := remaining_step_lt (by rw [h]; exact hf) (by rw [h]; exact hh)
  rwa [h] at this

end Lenient.Query
