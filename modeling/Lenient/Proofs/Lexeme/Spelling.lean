import Lenient.Proofs.Lexeme.Reading

/-! How to spell a text so that it is read back. In quotes, any text can be spelled: the quote and the
escape are escaped and all else stands for itself. Without quotes, an escape may stand in front of any
character and must stand in front of some; what the spelling leaves to the reader is where it ends, so
it is read back in front of a character that ends a word. -/

namespace Lenient.Lexeme

open Cursor

def guarded (escape q c : Char) : Text := if c = q ∨ c = escape then [escape, c] else [c]

def quote (escape q : Char) (m : Text) : Text := q :: m.flatMap (guarded escape q) ++ [q]

/-- Without quotes the first text spells the second. The escape, spaces and the characters of `special`
have to be escaped. -/
inductive Letters (escape : Char) (special : List Char) : Text → Text → Prop
  | nil : Letters escape special [] []
  | plain {c : Char} {t m : Text} (not_space : isSpace c = false) (ne_escape : c ≠ escape)
    (not_special : c ∉ special) (rest : Letters escape special t m) :
    Letters escape special (c :: t) (c :: m)
  | escaped {c : Char} {t m : Text} (rest : Letters escape special t m) :
    Letters escape special (escape :: c :: t) (c :: m)

variable {σ : Type} [Cursor σ] {s : σ} {escape q : Char} {m r : Text}

theorem unescape_of_notMem {c : Char} (h : c ∉ ['n', 'r', 't']) : unescape c = c := by
  simp only [List.mem_cons, List.not_mem_nil, or_false, not_or] at h
  simp [unescape, h]

theorem notMem_letters_of_isQuote (h : isQuote q = true) : q ∉ ['n', 'r', 't'] := by
  simp only [isQuote, Bool.or_eq_true, decide_eq_true_eq] at h
  rcases h with rfl | rfl <;> decide

theorem reads_escaped_named {c : Char} (h : unread s = c :: r) :
    Reads (escaped .named s) (some [unescape c]) r := by
  unfold escaped
  rw [head?_of_unread h]
  exact ⟨rfl, unread_advance_of h⟩

theorem literalRest_guarded {c : Char} (hq : q ∉ ['n', 'r', 't']) (he : escape ∉ ['n', 'r', 't'])
    (h : unread s = guarded escape q c ++ r) :
    ∃ u : σ, unread u = r ∧
      literalRest q escape .named s = onto [c] (literalRest q escape .named u) := by
  unfold guarded at h
  split at h
  · next hc =>
    have hn : c ∉ ['n', 'r', 't'] := by
      rcases hc with rfl | rfl
      · exact hq
      · exact he
    have hp := reads_escaped_named (unread_advance_of h)
    rw [unescape_of_notMem hn] at hp
    exact ⟨_, hp.rest, literalRest_escaped h hp⟩
  · next hc =>
    rw [not_or] at hc
    exact ⟨_, unread_advance_of h, literalRest_plain h hc.2 hc.1⟩

theorem reads_literalRest_guarded (hq : q ∉ ['n', 'r', 't']) (he : escape ∉ ['n', 'r', 't'])
    (hne : q ≠ escape) (h : unread s = m.flatMap (guarded escape q) ++ q :: r) :
    Reads (literalRest q escape .named s) m r := by
  induction m generalizing s with
  | nil => exact reads_literalRest_quote h hne
  | cons c m ih =>
    rw [List.flatMap_cons, List.append_assoc] at h
    obtain ⟨u, hu, hl⟩ := literalRest_guarded hq he h
    rw [hl]
    exact (ih hu).onto

/-- A text in quotes is read back, whatever follows it. -/
theorem reads_quote (hq : isQuote q = true) (he : escape ∉ ['n', 'r', 't']) (hne : q ≠ escape)
    (h : unread s = quote escape q m ++ r) : Reads (literal? escape .named s) (some m) r := by
  rw [quote, List.cons_append, List.cons_append, List.append_assoc] at h
  exact reads_literal? h hq
    (reads_literalRest_guarded (notMem_letters_of_isQuote hq) he hne (unread_advance_of h))

theorem reads_word_nil {stop : Char → Bool} (h : unread s = r)
    (hr : ∀ c ∈ r.head?, c ≠ escape ∧ (isSpace c || stop c) = true) :
    Reads (word escape stop s) [] r := by
  cases hh : head? s with
  | none =>
    rw [word.eq_def]
    split
    · exact ⟨rfl, by rw [unread_look, h]⟩
    · next hc => rw [hh] at hc; cases hc
  | some c =>
    obtain ⟨hne, hc⟩ := hr c (by rw [← h, ← head?_eq, hh]; rfl)
    rw [word_of_head? hh, if_neg hne, if_pos hc]
    exact ⟨rfl, by rw [unread_look, h]⟩

/-- What is spelled without quotes is read back, up to what ends a word. -/
theorem reads_word_letters {stop : Char → Bool} {special : List Char} {t : Text}
    (hl : Letters escape special t m) (hs : ∀ c, c ∉ special → stop c = false)
    (hr : ∀ c ∈ r.head?, c ≠ escape ∧ (isSpace c || stop c) = true) (h : unread s = t ++ r) :
    Reads (word escape stop s) m r := by
  induction hl generalizing s with
  | nil => exact reads_word_nil h hr
  | @plain c t m not_space ne_escape not_special rest ih =>
    have hc : ¬ (isSpace c || stop c) = true := by simp [not_space, hs c not_special]
    rw [word_of_head? (head?_of_unread h), if_neg ne_escape, if_neg hc]
    exact (ih (unread_advance_of h)).onto
  | @escaped c t m rest ih =>
    have ha : unread (advance s) = c :: (t ++ r) := unread_advance_of h
    rw [word_of_head? (head?_of_unread h), if_pos rfl, head?_of_unread ha]
    exact (ih (unread_advance_of ha)).onto

end Lenient.Lexeme
