import Lenient.Lexeme.Charset
import Lenient.Proofs.Json.Entry

/-! The grammar of relaxed JSON, with what each text stands for. `Written p t` says that the phrase `p`
may be written as `t`. The grammar knows nothing of the reader: it says which characters may follow one
another, where blanks may stand, and what may be left out.

    object   := '{' (property (',' property)* ','?)? '}'
    property := name (':' value?)?
    array    := '[' (value (',' value)* ','?)? ']'
    value    := object | array | scalar

Blanks may stand around every token, and in place of a comma unless the property before it ends in
its colon. -/

namespace Lenient.Json

open Lexeme

def Blanks (t : Text) : Prop := ∀ c ∈ t, isSpace c = true

instance (t : Text) : Decidable (Blanks t) := List.decidableBAll _ t

theorem blanks_nil : Blanks [] := nofun

/-- Four hexadecimal digits stand for the character with that code point. A surrogate has none; it
stands for the replacement character. -/
structure CodePoint (ds : Text) (c : Char) : Prop where
  four : ds.length = 4
  digits : ∀ d ∈ ds, (hexDigit? d).isSome
  char : c.toNat = hexNumber ds ∨ 0xd800 ≤ hexNumber ds ∧ hexNumber ds ≤ 0xdfff ∧ c = '\ufffd'

/-- Between two quotes `q`, the first text stands for the second. -/
inductive Inside (q : Char) : Text → Text → Prop
  | nil : Inside q [] []
  | plain {c : Char} {t m : Text} (ne_quote : c ≠ q) (ne_escape : c ≠ backslash) (rest : Inside q t m) :
    Inside q (c :: t) (c :: m)
  | control {c d : Char} {t m : Text}
    (letter : (c, d) ∈ [('n', '\n'), ('r', '\r'), ('t', '\t'), ('f', '\x0c')]) (rest : Inside q t m) :
    Inside q (backslash :: c :: t) (d :: m)
  | code {ds : Text} {c : Char} {t m : Text} (point : CodePoint ds c) (rest : Inside q t m) :
    Inside q (backslash :: 'u' :: ds ++ t) (c :: m)
  | itself {c : Char} {t m : Text} (no_letter : c ∉ ['n', 'r', 't', 'f', 'u']) (rest : Inside q t m) :
    Inside q (backslash :: c :: t) (c :: m)

inductive Quoted : Text → Text → Prop
  | intro {q : Char} {t m : Text} (quote : isQuote q = true) (inside : Inside q t m) :
    Quoted (q :: t ++ [q]) m

/-- The text may stand for itself. -/
structure Bareword (w : Text) : Prop where
  ne_nil : w ≠ []
  not_quote : ∀ c ∈ w.head?, isQuote c = false
  plain : ∀ c ∈ w, isSpace c = false ∧ isStructural c = false

/-- The first text is written for the name that is the second. -/
inductive Named : Text → Text → Prop
  | quoted {t name : Text} (quoted : Quoted t name) : Named t name
  | bare {w : Text} (bare : Bareword w) : Named w w

/-- The text is written for a scalar. Without quotes, `null` is no text. -/
inductive Scalar : Text → Option Text → Prop
  | quoted {t m : Text} (quoted : Quoted t m) : Scalar t (some m)
  | bare {w : Text} (bare : Bareword w) (ne_null : w ≠ ['n', 'u', 'l', 'l']) : Scalar w (some w)
  | null : Scalar ['n', 'u', 'l', 'l'] none

inductive Phrase
  | value (v : Value)
  /-- One entry of a container; `colon` tells whether it ends in a colon. -/
  | entry (e : Entry) (colon : Bool)
  /-- What follows an opening bracket: the entries of the container and its closing bracket. -/
  | entries (shape : Shape) (es : List Entry)
  /-- What follows an entry: the entries behind it and the closing bracket. -/
  | more (shape : Shape) (es : List Entry) (colon : Bool)

inductive Written : Phrase → Text → Prop
  | scalar {t : Text} {m : Option Text} (scalar : Scalar t m) : Written (.value (.scalar m)) t
  | object {ps : List (Text × Value)} {t : Text}
    (inside : Written (.entries .object (ps.map Entry.property)) t) :
    Written (.value (.object ps)) ('\x7b' :: t)
  | array {vs : List Value} {t : Text}
    (inside : Written (.entries .array (vs.map Entry.element)) t) :
    Written (.value (.array vs)) ('[' :: t)
  | element {v : Value} {t : Text} (value : Written (.value v) t) :
    Written (.entry ⟨.element, v⟩ false) t
  | property {n name a b : Text} {v : Value} {t : Text} (named : Named n name) (blanks : Blanks a)
    (blanks' : Blanks b) (value : Written (.value v) t) :
    Written (.entry ⟨.property name, v⟩ false) (n ++ a ++ ':' :: b ++ t)
  | noColon {n name : Text} (named : Named n name) :
    Written (.entry ⟨.property name, .scalar none⟩ false) n
  | noValue {n name a : Text} (named : Named n name) (blanks : Blanks a) :
    Written (.entry ⟨.property name, .scalar none⟩ true) (n ++ a ++ [':'])
  | empty {shape : Shape} {a : Text} (blanks : Blanks a) :
    Written (.entries shape []) (a ++ [shape.right])
  | first {shape : Shape} {a t r : Text} {e : Entry} {es : List Entry} {colon : Bool}
    (blanks : Blanks a) (entry : Written (.entry e colon) t)
    (others : Written (.more shape es colon) r) : Written (.entries shape (e :: es)) (a ++ t ++ r)
  | last {shape : Shape} {a : Text} {colon : Bool} (blanks : Blanks a) :
    Written (.more shape [] colon) (a ++ [shape.right])
  /-- A comma may also stand behind the last entry. -/
  | comma {shape : Shape} {a t : Text} {es : List Entry} {colon : Bool} (blanks : Blanks a)
    (others : Written (.entries shape es) t) : Written (.more shape es colon) (a ++ ',' :: t)
  | blank {shape : Shape} {a t : Text} {e : Entry} {es : List Entry} (blanks : Blanks a)
    (some_blank : a ≠ []) (others : Written (.entries shape (e :: es)) t) :
    Written (.more shape (e :: es) false) (a ++ t)

end Lenient.Json
