import Lenient.Proofs.Query.Grammar
import Lenient.Query.Read

/-! The query reader accepts the grammar: what is written for a list of terms is read as one query with
the events of these terms, for every delimiter and escape that are not taken for anything else. A token
ends in front of a blank, a parenthesis or the delimiter, and it is no label if the first character
behind it and behind blanks is not the delimiter; both hold of what follows a term in the grammar. The
induction goes over the derivation. -/

namespace Lenient.Query

open Cursor Lexeme
open Json (Blanks blanks_nil)

variable {o : Options}

theorem stops_of_notMem {c : Char} (h : c ∉ ['(', ')', o.delimiter]) : o.stops c = false := by
  simp only [List.mem_cons, List.not_mem_nil, or_false, not_or] at h
  simp [Options.stops, h]

theorem Meaningless.ne {c : Char} (h : Meaningless c) : c ≠ '(' ∧ c ≠ ')' := by
  simpa using h.not_parenthesis

theorem Meaningless.quote_ne {c q : Char} (h : Meaningless c) (hq : isQuote q = true) : q ≠ c := by
  rintro rfl
  rw [h.not_quote] at hq
  cases hq

theorem Options.Distinct.stops_escape (ho : o.Distinct) : o.stops o.escape = false := by
  simp [Options.stops, ho.escape.ne, ho.ne.symm]

/-- The first character of a token: it is not skipped, and it ends no token. -/
structure Starts (o : Options) (c : Char) : Prop where
  not_space : isSpace c = false
  not_stop : o.stops c = false

theorem Starts.ne {c : Char} (h : Starts o c) : c ≠ '(' ∧ c ≠ ')' ∧ c ≠ o.delimiter := by
  simpa [Options.stops, and_assoc] using h.not_stop

theorem Spelled.starts {t m : Text} (ho : o.Distinct) (h : Spelled o t m) :
    ∃ c w, t = c :: w ∧ Starts o c := by
  cases h with
  | @quoted q _ is_quote =>
    have hd := ho.delimiter.quote_ne is_quote
    refine ⟨q, _, rfl, ?_⟩
    simp only [isQuote, Bool.or_eq_true, decide_eq_true_eq] at is_quote
    rcases is_quote with rfl | rfl
    · exact ⟨rfl, by simp [Options.stops, hd]⟩
    · exact ⟨rfl, by simp [Options.stops, hd]⟩
  | bare ne_nil not_quote letters =>
    cases letters with
    | nil => exact absurd rfl ne_nil
    | plain not_space ne_escape not_special rest =>
      exact ⟨_, _, rfl, not_space, stops_of_notMem not_special⟩
    | escaped rest => exact ⟨_, _, rfl, ho.escape.not_space, ho.stops_escape⟩

/-- What follows a token: nothing, a blank, or what ends it. -/
def Bounded (o : Options) (r : Text) : Prop := ∀ c ∈ r.head?, (isSpace c || o.stops c) = true

theorem bounded_cons {c : Char} {r : Text} (h : (isSpace c || o.stops c) = true) : Bounded o (c :: r) := by
  intro d hd
  cases hd
  exact h

theorem Bounded.append {a r : Text} (ha : Blanks a) (hr : Bounded o r) : Bounded o (a ++ r) := by
  cases a with
  | nil => exact hr
  | cons c a => exact bounded_cons (by simp [ha c List.mem_cons_self])

/-- What follows a term: the term ends there, and it is not a label. -/
structure Ends (o : Options) (r : Text) : Prop where
  bounded : Bounded o r
  no_delimiter : (bared r).head? ≠ some o.delimiter

inductive Closed : Text → Prop
  | finish : Closed []
  | leave (r : Text) : Closed (')' :: r)

theorem Closed.bared_eq {r : Text} (h : Closed r) : bared r = r := by
  cases h with
  | finish => rfl
  | leave r => exact bared_cons rfl r

theorem Closed.ends {a r : Text} (ho : o.Distinct) (ha : Blanks a) (h : Closed r) : Ends o (a ++ r) := by
  have hr : bared (a ++ r) = r := by rw [bared_append ha, h.bared_eq]
  cases h with
  | finish => exact ⟨.append ha nofun, by rw [hr]; nofun⟩
  | leave r =>
    have hd := ho.delimiter.ne.2.symm
    exact ⟨.append ha (bounded_cons (by simp [Options.stops])), by simpa [hr] using hd⟩

variable {σ : Type} [Cursor σ] {s : σ} {t m r : Text}

/-! One step of the reader. -/

section Steps

variable {groups : List (Option Text)} {depth : Nat} {x : Step}

/-- A token is read as what it spells. If that is nothing, the token was in quotes. -/
theorem reads_token (ho : o.Distinct) (ht : Spelled o t m) (hr : Bounded o r) (h : unread s = t ++ r) :
    ∃ quoted, Reads (token o s) ⟨m, quoted⟩ r ∧ (quoted = true ∨ m ≠ []) := by
  obtain ⟨c, w, hcw, -⟩ := ht.starts ho
  unfold token
  cases ht with
  | @quoted q _ is_quote =>
    have hl := reads_quote is_quote ho.no_letter (ho.escape.quote_ne is_quote) h
    refine ⟨true, ?_, Or.inl rfl⟩
    rw [hl.eq]
    exact ⟨rfl, hl.rest⟩
  | bare ne_nil not_quote letters =>
    have hq : isQuote c = false := not_quote c (by simp [hcw])
    -- the escape would continue the word, but nothing that may follow a token is the escape
    have hend : ∀ d ∈ r.head?, d ≠ o.escape ∧ (isSpace d || o.stops d) = true := by
      intro d hd
      refine ⟨?_, hr d hd⟩
      rintro rfl
      have := hr _ hd
      simp [ho.escape.not_space, ho.stops_escape] at this
    have hw : Reads (word o.escape o.stops (look s)) m r :=
      reads_word_letters letters (fun c hc => stops_of_notMem hc) hend (by rw [unread_look, h])
    have hu : unread s = c :: (w ++ r) := by rw [h, hcw, List.cons_append]
    refine ⟨false, ?_, Or.inr ne_nil⟩
    rw [literal?_of_not_quote hu hq]
    exact hw.map _

theorem bareToken_eq {quoted : Bool} (h : quoted = true ∨ m ≠ []) :
    bareToken ⟨m, quoted⟩ = [.token none (some m)] := by
  unfold bareToken
  rw [if_pos]
  simpa using h

theorem reads_term_bare (ho : o.Distinct) (ht : Spelled o t m) (hr : Ends o r) (h : unread s = t ++ r) :
    Reads (term o depth s) (.term [.token none (some m)]) r := by
  obtain ⟨quoted, hk, hq⟩ := reads_token ho ht hr.bounded h
  have hd : (bared (unread (token o s).2)).head? ≠ some o.delimiter := by
    rw [hk.rest]
    exact hr.no_delimiter
  have ha := reads_accept_false hd
  unfold term
  rw [ha.eq, hk.answer, bareToken_eq hq]
  exact ⟨rfl, ha.rest.trans hk.rest⟩

theorem reads_term_labelled {a w : Text} (ho : o.Distinct) (ht : Spelled o t m) (ha : Blanks a)
    (h : unread s = t ++ (a ++ o.delimiter :: w))
    (hx : ∀ u : σ, unread u = w → Reads (labelled o depth m u) x r) : Reads (term o depth s) x r := by
  have hb : Bounded o (a ++ o.delimiter :: w) := .append ha (bounded_cons (by simp [Options.stops]))
  obtain ⟨quoted, hk, -⟩ := reads_token ho ht hb h
  have hd : bared (unread (token o s).2) = o.delimiter :: w := by
    rw [hk.rest, bared_append ha, bared_cons ho.delimiter.not_space]
  have hacc := reads_accept_true hd
  unfold term
  rw [hacc.eq, hk.answer]
  exact hx _ hacc.rest

theorem reads_labelled_token {label : Text} (ho : o.Distinct) (ht : Spelled o t m) (hr : Bounded o r)
    (h : bared (unread s) = t ++ r) :
    Reads (labelled o depth label s) (.term [.token (some label) (some m)]) r := by
  have hu : unread (skipSpaces s) = t ++ r := by rw [unread_skipSpaces, h]
  obtain ⟨quoted, hk, -⟩ := reads_token ho ht hr hu
  obtain ⟨c, w, rfl, hc⟩ := ht.starts ho
  unfold labelled
  rw [head?_of_unread hu, if_neg (by simpa using hc.ne.1)]
  exact hk.map _

theorem reads_openGroup {label : Option Text} (hd : depth < o.limit) (h : unread s = '(' :: r) :
    Reads (openGroup o depth label s) (.enter label) r := by
  unfold openGroup
  rw [if_neg (Nat.not_le_of_lt hd)]
  exact ⟨rfl, unread_advance_of h⟩

theorem reads_labelled_group {label : Text} (hd : depth < o.limit) (h : bared (unread s) = '(' :: r) :
    Reads (labelled o depth label s) (.enter (some label)) r := by
  have hu : unread (skipSpaces s) = '(' :: r := by rw [unread_skipSpaces, h]
  unfold labelled
  rw [head?_of_unread hu, if_pos rfl]
  exact reads_openGroup hd hu

theorem reads_step_term {c : Char} {w : Text} (hc : Starts o c) (h : bared (unread s) = c :: w)
    (hx : ∀ u : σ, unread u = c :: w → Reads (term o groups.length u) x r) :
    Reads (step o groups s) x r := by
  have hu : unread (skipSpaces s) = c :: w := by rw [unread_skipSpaces, h]
  unfold step
  rw [head?_of_unread hu]
  simp only [if_neg hc.ne.1, if_neg hc.ne.2.1]
  exact hx _ hu

theorem reads_step_labelled {label a b w : Text} (ho : o.Distinct) (ht : Spelled o t label)
    (ha : Blanks a) (h : bared (unread s) = t ++ a ++ o.delimiter :: b ++ w)
    (hx : ∀ u : σ, unread u = b ++ w → Reads (labelled o groups.length label u) x r) :
    Reads (step o groups s) x r := by
  have h' : bared (unread s) = t ++ (a ++ o.delimiter :: (b ++ w)) := by simp [h]
  obtain ⟨c, v, rfl, hc⟩ := ht.starts ho
  apply reads_step_term hc h'
  intro u hu
  exact reads_term_labelled ho ht ha hu hx

/-- In front of a token with or without a label, a step reads both. -/
theorem reads_step_token {label : Option Text} {l : Text} (ho : o.Distinct) (hl : Lead o label l)
    (ht : Spelled o t m) (hr : Ends o r) (h : bared (unread s) = l ++ t ++ r) :
    Reads (step o groups s) (.term [.token label (some m)]) r := by
  obtain ⟨c, w, hcw, hc⟩ := ht.starts ho
  cases hl with
  | none =>
    have h' : bared (unread s) = c :: (w ++ r) := by rw [h, hcw]; rfl
    apply reads_step_term hc h'
    intro u hu
    exact reads_term_bare ho ht hr (by rw [hu, hcw]; rfl)
  | @label _ k a b spelled blanks blanks' =>
    rw [List.append_assoc] at h
    apply reads_step_labelled ho spelled blanks h
    intro u hu
    apply reads_labelled_token ho ht hr.bounded
    rw [hu, bared_append blanks', hcw]
    exact bared_cons hc.not_space _

theorem reads_step_group {label : Option Text} {l : Text} (ho : o.Distinct) (hl : Lead o label l)
    (hd : groups.length < o.limit) (h : bared (unread s) = l ++ '(' :: r) :
    Reads (step o groups s) (.enter label) r := by
  cases hl with
  | none =>
    have hu : unread (skipSpaces s) = '(' :: r := by rw [unread_skipSpaces, h]; rfl
    unfold step
    rw [head?_of_unread hu]
    exact reads_openGroup hd hu
  | @label _ k a b spelled blanks blanks' =>
    apply reads_step_labelled ho spelled blanks h
    intro u hu
    apply reads_labelled_group hd
    rw [hu, bared_append blanks']
    exact bared_cons rfl r

theorem reads_step_leave (h : bared (unread s) = ')' :: r) : Reads (step o groups s) .leave r := by
  have hu : unread (skipSpaces s) = ')' :: r := by rw [unread_skipSpaces, h]
  unfold step
  rw [head?_of_unread hu]
  exact ⟨rfl, unread_advance_of hu⟩

theorem reads_step_finish (h : bared (unread s) = []) : Reads (step o groups s) .finish [] := by
  have hu : unread (skipSpaces s) = [] := by rw [unread_skipSpaces, h]
  unfold step
  rw [head?_eq, hu]
  exact ⟨rfl, hu⟩

end Steps

/-! The first character of what is written. -/

theorem Lead.starts {label : Option Text} {l : Text} (ho : o.Distinct) (h : Lead o label l) :
    l = [] ∨ ∃ c w, l = c :: w ∧ Starts o c := by
  cases h with
  | none => exact Or.inl rfl
  | label spelled blanks blanks' =>
    obtain ⟨c, w, rfl, hc⟩ := spelled.starts ho
    exact Or.inr ⟨c, _, rfl, hc⟩

theorem starts_term {x : Term} (ho : o.Distinct) (h : Written o (.term x) t) :
    ∃ c w, t = c :: w ∧ isSpace c = false ∧ c ≠ o.delimiter := by
  cases h with
  | token lead spelled =>
    obtain ⟨c, w, rfl, hc⟩ := spelled.starts ho
    rcases lead.starts ho with rfl | ⟨d, v, rfl, hd⟩
    · exact ⟨c, w, rfl, hc.not_space, hc.ne.2.2⟩
    · exact ⟨d, _, rfl, hd.not_space, hd.ne.2.2⟩
  | group lead inside =>
    rcases lead.starts ho with rfl | ⟨d, v, rfl, hd⟩
    · exact ⟨'(', _, rfl, rfl, ho.delimiter.ne.1.symm⟩
    · exact ⟨d, _, rfl, hd.not_space, hd.ne.2.2⟩

/-- What follows a term in the grammar ends it. -/
theorem ends_others {xs : List Term} {w : Text} (ho : o.Distinct) (hw : Written o (.terms xs) w)
    (ha : xs = [] ∨ ∃ c ∈ w.head?, isSpace c = true) (hr : Closed r) : Ends o (w ++ r) := by
  cases hw with
  | nil blanks => exact hr.ends ho blanks
  | @cons x xs a t w blanks term others apart =>
    obtain ⟨c, v, rfl, hc, hd⟩ := starts_term ho term
    have hb : bared (a ++ c :: v ++ w ++ r) = c :: (v ++ w ++ r) := by
      rw [List.append_assoc, List.append_assoc, bared_append blanks]
      simpa using bared_cons hc (v ++ w ++ r)
    -- the blank between the terms ends the first one; the second one starts with no delimiter
    refine ⟨?_, by rw [hb]; simpa using hd⟩
    obtain ⟨d, hd, hs⟩ := ha.resolve_left nofun
    obtain ⟨y, hy⟩ := List.head?_eq_some_iff.1 hd
    rw [hy]
    exact bounded_cons (by simp [hs])

section Reading

variable (o σ)

/-- In front of a term that is written as `t`, the reader emits the events of the term and goes on
behind it. -/
def ReadsTerm (x : Term) (t : Text) : Prop :=
  ∀ {groups : List (Option Text)} {s : σ} {r : Text}, Ends o r → groups.length + x.nesting ≤ o.limit →
    bared (unread s) = t ++ r →
    ∃ u : σ, unread u = r ∧ events o groups s = onto x.events (events o groups u)

/-- In front of terms that are written as `t`, the reader emits their events and comes to what follows
them. -/
def ReadsTerms (xs : List Term) (t : Text) : Prop :=
  ∀ {groups : List (Option Text)} {s : σ} {r : Text}, Closed r →
    groups.length + Term.allNesting xs ≤ o.limit → bared (unread s) = bared (t ++ r) →
    ∃ u : σ, bared (unread u) = r ∧ events o groups s = onto (Term.allEvents xs) (events o groups u)

def ReadsPhrase : Phrase → Text → Prop
  | .term x => ReadsTerm o σ x
  | .terms xs => ReadsTerms o σ xs

variable {o σ}

theorem readsTerm_token {label : Option Text} {l : Text} (ho : o.Distinct) (hl : Lead o label l)
    (ht : Spelled o t m) : ReadsTerm o σ (.token label m) (l ++ t) := by
  intro groups s r hr _ h
  have hst : Reads (step o groups s) (.term [.token label (some m)]) r := reads_step_token ho hl ht hr h
  exact ⟨_, hst.rest, events_term hst.eq⟩

theorem readsTerm_group {label : Option Text} {xs : List Term} {l : Text} (ho : o.Distinct)
    (hl : Lead o label l) (hi : ReadsTerms o σ xs t) :
    ReadsTerm o σ (.group label xs) (l ++ '(' :: t ++ [')']) := by
  intro groups s r _ hn h
  simp only [Term.nesting] at hn
  simp only [List.append_assoc, List.cons_append, List.nil_append] at h
  have hin : Reads (step o groups s) (.enter label) (t ++ ')' :: r) :=
    reads_step_group ho hl (by omega) h
  have hd : (label :: groups).length + Term.allNesting xs ≤ o.limit := by
    simp only [List.length_cons]
    omega
  obtain ⟨u, hu, he⟩ := hi (.leave r) hd (congrArg bared hin.rest)
  have hout : Reads (step o (label :: groups) u) .leave r := reads_step_leave hu
  refine ⟨_, hout.rest, ?_⟩
  rw [events_enter hin.eq, he, events_leave hout.eq, onto_onto, onto_onto]
  simp [Term.events]

theorem readsTerms_nil {a : Text} (ha : Blanks a) : ReadsTerms o σ [] a := by
  intro groups s r hr _ h
  exact ⟨s, by rw [h, bared_append ha, hr.bared_eq], rfl⟩

theorem readsTerms_cons {x : Term} {xs : List Term} {a w : Text} (ho : o.Distinct) (ha : Blanks a)
    (ht : Written o (.term x) t) (hx : ReadsTerm o σ x t) (hw : Written o (.terms xs) w)
    (hxs : ReadsTerms o σ xs w) (hap : xs = [] ∨ ∃ c ∈ w.head?, isSpace c = true) :
    ReadsTerms o σ (x :: xs) (a ++ t ++ w) := by
  intro groups s r hr hn h
  simp only [Term.allNesting] at hn
  have h' : bared (unread s) = t ++ (w ++ r) := by
    obtain ⟨c, v, rfl, hc, -⟩ := starts_term ho ht
    rw [h, List.append_assoc, List.append_assoc, bared_append ha]
    exact bared_cons hc _
  have hnx : groups.length + x.nesting ≤ o.limit := by omega
  have hnxs : groups.length + Term.allNesting xs ≤ o.limit := by omega
  obtain ⟨u, hu, he⟩ := hx (ends_others ho hw hap hr) hnx h'
  obtain ⟨v, hv, he'⟩ := hxs hr hnxs (congrArg bared hu)
  exact ⟨v, hv, by rw [he, he', onto_onto, Term.allEvents]⟩

theorem readsPhrase {p : Phrase} (ho : o.Distinct) (h : Written o p t) : ReadsPhrase o σ p t := by
  induction h with
  | token lead spelled => exact readsTerm_token ho lead spelled
  | group lead inside ih => exact readsTerm_group ho lead ih
  | nil blanks => exact readsTerms_nil blanks
  | cons blanks term others apart iht iho => exact readsTerms_cons ho blanks term iht others iho apart

end Reading

theorem reads_written {xs : List Term} (ho : o.Distinct) (hw : Written o (.terms xs) t)
    (hn : Term.allNesting xs ≤ o.limit) (h : unread s = t) :
    Reads (read o s) (.beginQuery :: Term.allEvents xs ++ [.endQuery]) [] := by
  have hi : ReadsTerms o σ xs t := readsPhrase ho hw
  have hn' : ([] : List (Option Text)).length + Term.allNesting xs ≤ o.limit := by simpa using hn
  obtain ⟨u, hu, he⟩ := hi .finish hn' (by rw [h, List.append_nil])
  have hf : Reads (step o [] u) .finish [] := reads_step_finish hu
  rw [events_finish hf.eq] at he
  obtain ⟨hev, hst⟩ := read_eq o s
  rw [he] at hev hst
  refine ⟨by simpa using hev, ?_⟩
  rcases hst with h' | h'
  · rw [h']
    exact hf.rest
  · rw [h', unread_look]
    exact hf.rest

/-- The reader accepts every text of the grammar: wherever a stream stands, if the rest of its text is
written for terms that are nested within the limit, it emits one query with the events of these terms
and reads the text to its end. -/
theorem read_accepts_terms (xs : List Term) (o : Options) (s : Stream) (ho : o.Distinct)
    (hw : Written o (.terms xs) s.unread) (hn : Term.allNesting xs ≤ o.limit) :
    (read o s).1 = .beginQuery :: Term.allEvents xs ++ [.endQuery] ∧ (read o s).2.unread = [] := by
  have h : Reads (read o s) (.beginQuery :: Term.allEvents xs ++ [.endQuery]) [] :=
    reads_written ho hw hn rfl
  exact ⟨h.answer, h.rest⟩

/-- A label with an escaped blank and blanks around its delimiter, a quote and a letter behind an escape
in quotes, a labelled group in one without a label, an escaped parenthesis, and a token that is empty. -/
def mixedText : Text :=
  ['a', '^', ' ', 'b', '\t', ':', '\n', '\x22', 'x', '^', '\x22', 'n', '\x22', ' ', '(', '\x27', 'k', ':',
    '\x27', ':', '(', ' ', '^', '(', 'z', ')', '\r', '\x27', '\x27', ' ', ')']

def mixedTerms : List Term :=
  [.token (some ['a', ' ', 'b']) ['x', '\x22', 'n'],
    .group none [.group (some ['k', ':']) [.token none ['(', 'z']], .token none []]]

/-- Exactly the two groups of `mixedTerms` may be open. -/
def mixedOptions : Options := ⟨':', '^', 2⟩

theorem distinct_mixed : mixedOptions.Distinct :=
  ⟨by decide, ⟨rfl, rfl, by decide⟩, ⟨rfl, rfl, by decide⟩, by decide⟩

theorem written_mixed : Written mixedOptions (.terms mixedTerms) mixedText := by
  have hab : Spelled mixedOptions ['a', '^', ' ', 'b'] ['a', ' ', 'b'] :=
    .bare (by decide) (by simp [isQuote])
      (.plain rfl (by decide) (by decide) (.escaped (.plain rfl (by decide) (by decide) .nil)))
  have hz : Spelled mixedOptions ['^', '(', 'z'] ['(', 'z'] :=
    .bare (by decide) (by simp [isQuote]) (.escaped (.plain rfl (by decide) (by decide) .nil))
  have hin : Written mixedOptions (.terms [.token none ['(', 'z']]) [' ', '^', '(', 'z'] :=
    .cons (a := [' ']) (by decide) (.token .none hz) (.nil blanks_nil) (.inl rfl)
  have hk : Written mixedOptions (.term (.group (some ['k', ':']) [.token none ['(', 'z']]))
      ['\x27', 'k', ':', '\x27', ':', '(', ' ', '^', '(', 'z', ')'] :=
    .group (.label (a := []) (b := []) (.quoted (q := '\x27') rfl) blanks_nil blanks_nil) hin
  have hempty : Written mixedOptions (.terms [.token none []]) ['\r', '\x27', '\x27', ' '] :=
    .cons (a := ['\r']) (w := [' ']) (by decide) (.token .none (.quoted (q := '\x27') rfl))
      (.nil (by decide)) (.inl rfl)
  have hg := Written.group .none
    (.cons (a := []) blanks_nil hk hempty (.inr ⟨'\r', rfl, rfl⟩))
  exact .cons (a := []) blanks_nil
    (.token (.label (a := ['\t']) (b := ['\n']) hab (by decide) (by decide))
      (.quoted (q := '\x22') rfl))
    (.cons (a := [' ']) (by decide) hg (.nil blanks_nil) (.inl rfl)) (.inr ⟨' ', rfl, rfl⟩)

theorem read_accepts_mixedText :
    mixedOptions.Distinct ∧
      Written mixedOptions (.terms mixedTerms) (Stream.sized 0 mixedText).unread ∧
      Term.allNesting mixedTerms ≤ mixedOptions.limit ∧
      (read mixedOptions (Stream.sized 0 mixedText)).1 =
        .beginQuery :: Term.allEvents mixedTerms ++ [.endQuery] ∧
      (read mixedOptions (Stream.sized 0 mixedText)).2.unread = [] := by
  have hn : Term.allNesting mixedTerms ≤ mixedOptions.limit := by decide
  exact ⟨distinct_mixed, written_mixed, hn,
    read_accepts_terms mixedTerms mixedOptions _ distinct_mixed written_mixed hn⟩

end Lenient.Query
