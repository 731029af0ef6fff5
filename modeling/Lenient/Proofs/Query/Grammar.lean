import Lenient.Proofs.Json.Grammar
import Lenient.Proofs.Lexeme.Spelling
import Lenient.Query.Step
import Lenient.Query.Term

/-! The grammar of queries, with the terms that each text stands for. `Written o p t` says that the
phrase `p` may be written as `t` if the delimiter and the escape are those of `o`.

    terms := (term (blank+ term)*)?
    term  := (token delimiter)? (token | '(' terms ')')

A token is in quotes or, unless it is empty, without them. Blanks may stand around every delimiter, and
around the terms of a group and of the whole query. -/

namespace Lenient.Query

open Lexeme
open Json (Blanks blanks_nil)

/-- The character has no meaning of its own in a query. -/
structure Meaningless (c : Char) : Prop where
  not_space : isSpace c = false
  not_quote : isQuote c = false
  not_parenthesis : c ∉ ['(', ')']

/-- The delimiter and the escape are not taken for anything else. -/
structure Options.Distinct (o : Options) : Prop where
  ne : o.delimiter ≠ o.escape
  delimiter : Meaningless o.delimiter
  escape : Meaningless o.escape
  /-- Behind itself, the escape stands for itself. -/
  no_letter : o.escape ∉ ['n', 'r', 't']

/-- The first text is a token for the second. -/
inductive Spelled (o : Options) : Text → Text → Prop
  | quoted {q : Char} {m : Text} (is_quote : isQuote q = true) : Spelled o (quote o.escape q m) m
  | bare {t m : Text} (ne_nil : m ≠ []) (not_quote : ∀ c ∈ t.head?, isQuote c = false)
    (letters : Letters o.escape ['(', ')', o.delimiter] t m) : Spelled o t m

/-- What stands in front of a value: its label and the delimiter, or nothing. -/
inductive Lead (o : Options) : Option Text → Text → Prop
  | none : Lead o none []
  | label {label t a b : Text} (spelled : Spelled o t label) (blanks : Blanks a) (blanks' : Blanks b) :
    Lead o (some label) (t ++ a ++ o.delimiter :: b)

inductive Phrase
  | term (x : Term)
  /-- What stands between two parentheses, or in the whole query. -/
  | terms (xs : List Term)

inductive Written (o : Options) : Phrase → Text → Prop
  | token {label : Option Text} {value l t : Text} (lead : Lead o label l) (spelled : Spelled o t value) :
    Written o (.term (.token label value)) (l ++ t)
  | group {label : Option Text} {xs : List Term} {l t : Text} (lead : Lead o label l)
    (inside : Written o (.terms xs) t) : Written o (.term (.group label xs)) (l ++ '(' :: t ++ [')'])
  | nil {a : Text} (blanks : Blanks a) : Written o (.terms []) a
  /-- A blank stands between two terms. -/
  | cons {x : Term} {xs : List Term} {a t w : Text} (blanks : Blanks a) (term : Written o (.term x) t)
    (others : Written o (.terms xs) w) (apart : xs = [] ∨ ∃ c ∈ w.head?, isSpace c = true) :
    Written o (.terms (x :: xs)) (a ++ t ++ w)

end Lenient.Query
