import Lenient.Json.Escape
import Lenient.Proofs.Json.Grammar

/-! Escaped text is text of the grammar. Each character is written in a form that stands for that one
character inside a literal, whatever follows it, and a text that needs no quotes may stand without
them. So the canonical names and scalars are names and scalars of the grammar. -/

namespace Lenient.Json

open Lexeme

theorem hexDigit?_digitChar : ∀ n, n < 16 → hexDigit? (Nat.digitChar n) = some n := by decide

theorem hexDigit?_hexChar (n : Nat) : hexDigit? (hexChar n) = some (n % 16) :=
  hexDigit?_digitChar (n % 16) (Nat.mod_lt n (by omega))

theorem isSome_hexDigit?_hex4 {n : Nat} : ∀ c ∈ hex4 n, (hexDigit? c).isSome := by
  simp [hex4, hexDigit?_hexChar]

theorem hexNumber_hex4 {n : Nat} (h : n < 65536) : hexNumber (hex4 n) = n := by
  simp only [hexNumber, hex4, List.foldl_cons, List.foldl_nil, hexDigit?_hexChar, Option.getD_some]
  omega

theorem codePoint_hex4 {c : Char} (h : c.toNat < 65536) : CodePoint (hex4 c.toNat) c :=
  ⟨rfl, isSome_hexDigit?_hex4, Or.inl (hexNumber_hex4 h).symm⟩

/-- A character with a letter of its own is a control character or stands for itself. -/
theorem escapeLetter?_cases {c d : Char} (h : escapeLetter? c = some d) :
    (d, c) ∈ [('n', '\n'), ('r', '\r'), ('t', '\t'), ('f', '\x0c')] ∨
      d = c ∧ c ∉ ['n', 'r', 't', 'f', 'u'] := by
  grind [escapeLetter?]

theorem ne_of_escapeLetter?_none {c : Char} (h : escapeLetter? c = none) :
    isQuote c = false ∧ c ≠ backslash := by
  grind [escapeLetter?, isQuote, backslash]

section Literal

variable {q : Char} {space t m : Text}

/-- A written character stands for that character, whichever way a space is written. -/
theorem inside_escapeChar (hq : isQuote q = true) (hs : space = [' '] ∨ space = ['\\', ' '])
    (c : Char) (h : Inside q t m) : Inside q (escapeChar space c ++ t) (c :: m) := by
  unfold escapeChar
  split
  · next hc =>
    subst hc
    rcases hs with rfl | rfl
    · exact .plain (by rintro rfl; cases hq) (by decide) h
    · exact .itself (by decide) h
  · split
    · next d hd =>
      rcases escapeLetter?_cases hd with hl | ⟨rfl, hl⟩
      · exact .control hl h
      · exact .itself hl h
    · next hn =>
      obtain ⟨hnq, hne⟩ := ne_of_escapeLetter?_none hn
      split
      · next hcon =>
        simp only [isControl, decide_eq_true_eq] at hcon
        exact .code (codePoint_hex4 (by omega)) h
      · refine .plain ?_ hne h
        rintro rfl
        rw [hnq] at hq
        cases hq

theorem inside_flatMap (hq : isQuote q = true) (hs : space = [' '] ∨ space = ['\\', ' ']) (t : Text) :
    Inside q (t.flatMap (escapeChar space)) t := by
  induction t with
  | nil => exact .nil
  | cons c t ih =>
    rw [List.flatMap_cons]
    exact inside_escapeChar hq hs c ih

theorem inside_escape (hq : isQuote q = true) (spaces : Bool) (t : Text) :
    Inside q (escape spaces t) t := by
  cases t with
  | nil => exact .nil
  | cons c t =>
    apply inside_escapeChar hq (Or.inr rfl)
    apply inside_flatMap hq
    cases spaces
    · exact Or.inl rfl
    · exact Or.inr rfl

end Literal

section Bare

variable {t : Text}

/-- What a text that needs no quotes is made of. -/
structure Plain (c : Char) : Prop where
  not_space : isSpace c = false
  not_structural : isStructural c = false
  not_quote : isQuote c = false
  escapeChar_eq : ∀ space, escapeChar space c = [c]

theorem plain_of_mem (h : needsQuotes t = false) {c : Char} (hc : c ∈ t) : Plain c := by
  have hn : (c = ' ' || (escapeLetter? c).isSome || isPunctuation c || isControl c) = false := by
    unfold needsQuotes at h
    rw [List.any_eq_false] at h
    simpa using h c hc
  simp only [Bool.or_eq_false_iff, decide_eq_false_iff_not, Option.isSome_eq_false_iff,
    Option.isNone_iff_eq_none] at hn
  obtain ⟨⟨⟨hsp, hl⟩, hp⟩, hcon⟩ := hn
  refine ⟨?_, ?_, (ne_of_escapeLetter?_none hl).1, fun space => by simp [escapeChar, hsp, hl, hcon]⟩
  · grind [isSpace, escapeLetter?]
  · simp only [isPunctuation, List.contains_eq_mem, List.mem_cons, decide_eq_false_iff_not] at hp
    grind [isStructural]

theorem flatMap_escapeChar_eq_self (space : Text) (h : ∀ c ∈ t, Plain c) :
    t.flatMap (escapeChar space) = t := by
  induction t with
  | nil => rfl
  | cons c t ih =>
    obtain ⟨hc, ht⟩ := List.forall_mem_cons.1 h
    rw [List.flatMap_cons, hc.escapeChar_eq, ih ht, List.singleton_append]

theorem escape_eq_self {spaces : Bool} (h : needsQuotes t = false) : escape spaces t = t := by
  cases t with
  | nil => rfl
  | cons c t =>
    have ht : ∀ d ∈ t, Plain d := fun d hd => plain_of_mem h (List.mem_cons_of_mem c hd)
    rw [escape, (plain_of_mem h List.mem_cons_self).escapeChar_eq, flatMap_escapeChar_eq_self _ ht,
      List.singleton_append]

theorem bareword_of_needsQuotes (h : needsQuotes t = false) (hne : t ≠ []) : Bareword t := by
  refine ⟨hne, ?_, ?_⟩
  · intro c hc
    exact (plain_of_mem h (List.mem_of_mem_head? hc)).not_quote
  · intro c hc
    exact ⟨(plain_of_mem h hc).not_space, (plain_of_mem h hc).not_structural⟩

end Bare

theorem named_renderName (name : Text) : Named (Value.renderName name) name := by
  unfold Value.renderName
  split
  · exact .quoted (.intro rfl (inside_escape rfl true name))
  · next h =>
    simp only [Bool.or_eq_true, not_or, Bool.not_eq_true, List.isEmpty_eq_false_iff] at h
    rw [escape_eq_self h.1]
    exact .bare (bareword_of_needsQuotes h.1 h.2)

theorem scalar_renderScalar (m : Option Text) : Scalar (Value.renderScalar m) m := by
  cases m with
  | none => exact .null
  | some t => exact .quoted (.intro rfl (inside_escape rfl false t))

end Lenient.Json
