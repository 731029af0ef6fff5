import Lenient.Address
import Lenient.Proofs.Json.Grammar
import Lenient.Proofs.Lexeme.Spelling

/-! The written form of a list of addresses. `Listed t as` says that the text `t` is written for the
addresses `as`.

    list  := run (entry (separator entry)*)? run
    entry := name | name? '<' email '>'

A run is any number of spaces and delimiters, and a separator is a run with a delimiter in it. A name is
in double quotes, where it may hold anything, or without them, where it ends at a bracket or a delimiter.
Spaces may stand in front of the bracket, and between the brackets or the quotes around what is in
them. -/

namespace Lenient.Address

open Lexeme
open Json (Blanks)

structure Trimmed (t : Text) : Prop where
  ne_nil : t ≠ []
  first : ∀ c ∈ t.head?, Text.isBlank c = false
  last : ∀ c ∈ t.getLast?, Text.isBlank c = false

theorem trimmed_iff {t : Text} :
    Trimmed t ↔ (t.isEmpty || t.head?.any Text.isBlank || t.getLast?.any Text.isBlank) = false := by
  simp only [Bool.or_eq_false_iff, List.isEmpty_eq_false_iff, Option.any_eq_false]
  exact ⟨fun ⟨hn, hf, hl⟩ => ⟨⟨hn, hf⟩, hl⟩, fun ⟨⟨hn, hf⟩, hl⟩ => ⟨hn, hf, hl⟩⟩

instance (t : Text) : Decidable (Trimmed t) := decidable_of_iff' _ trimmed_iff

/-- The first text is written for the name that is the second. -/
inductive Named : Text → Text → Prop
  | raw {name : Text} (trimmed : Trimmed name) (no_quote : name.head? ≠ some '\x22')
    (plain : ∀ c ∈ name, c ∉ ['<', ',', ';']) : Named name name
  | quoted {name a b : Text} (trimmed : Trimmed name) (blanks : Blanks a) (blanks' : Blanks b) :
    Named (quote backslash '\x22' (a ++ name ++ b)) name

/-- The first text is written for the email that is the second. -/
inductive Bracketed : Text → Text → Prop
  | intro {email a b : Text} (trimmed : Trimmed email) (plain : '>' ∉ email) (blanks : Blanks a)
    (blanks' : Blanks b) : Bracketed ('<' :: (a ++ email ++ b) ++ ['>']) email

/-- The text is written for one address. What stands without brackets is an email if it has an at sign
behind its first character, and a name otherwise. -/
inductive Entered : Text → Address → Prop
  | full {n name a b email : Text} (named : Named n name) (blanks : Blanks a)
    (bracketed : Bracketed b email) : Entered (n ++ a ++ b) ⟨name, email⟩
  | unnamed {b email : Text} (bracketed : Bracketed b email) : Entered b ⟨[], email⟩
  | loneEmail {n email : Text} (named : Named n email) (sign : '@' ∈ email.tail) : Entered n ⟨[], email⟩
  | loneName {n name : Text} (named : Named n name) (no_sign : '@' ∉ name.tail) : Entered n ⟨name, []⟩

def Run (t : Text) : Prop := ∀ c ∈ t, isSpace c = true ∨ isDelimiter c = true

instance (t : Text) : Decidable (Run t) := List.decidableBAll _ t

/-- The text may follow an entry; it is written for the addresses behind it. -/
inductive Followed : Text → List Address → Prop
  | finish {r : Text} (run : Run r) : Followed r []
  | entry {r r' t w : Text} {d : Char} {a : Address} {as : List Address} (run : Run r)
    (delimiter : isDelimiter d = true) (run' : Run r') (entered : Entered t a) (others : Followed w as) :
    Followed (r ++ d :: r' ++ t ++ w) (a :: as)

inductive Listed : Text → List Address → Prop
  | nil {r : Text} (run : Run r) : Listed r []
  | cons {r t w : Text} {a : Address} {as : List Address} (run : Run r) (entered : Entered t a)
    (others : Followed w as) : Listed (r ++ t ++ w) (a :: as)

end Lenient.Address
