import Lenient.Proofs.Lexeme.Spelling
import Lenient.Proofs.Reader.Agreement
import Lenient.Proofs.Text.Trimming

/-! What the address reader reports, whatever text it is given. The relations below tell what a name, an email
and an entry may be read from: quotes and brackets may be left open, and what stands in them may be empty or
blank. An address that is reported is an entry that was read from somewhere in the text
(`exists_entryFrom_of_mem`), so what follows from an entry alone holds of every address that is reported. -/

namespace Lenient.Address

open Cursor Lexeme

/-- What is read from a text between quotes is shorter than the text, or it is the text, with nothing in it that is
read otherwise. -/
def Decoded (w m : Text) : Prop := m.length < w.length ∨ m = w ∧ '\x22' ∉ w ∧ backslash ∉ w

/-- The name is read from the front of `u`, which leaves `r`. -/
inductive NameFrom (u name r : Text) : Prop
  | raw {w : Text} (text : u = w ++ r) (no_quote : u.head? ≠ some '\x22') (plain : ∀ c ∈ w, endsName c = false)
    (ends : ∀ c ∈ r.head?, endsName c = true) (trimmed : Text.trim w = name)
  | closed {w m b : Text} (text : u = '\x22' :: w ++ '\x22' :: (b ++ r)) (decoded : Decoded w m)
    (blanks : ∀ c ∈ b, isSpace c = true) (trimmed : Text.trim m = name)
  | unclosed {w m : Text} (text : u = '\x22' :: w) (decoded : Decoded w m) (trimmed : Text.trim m = name)
    (rest : r = [])

inductive EmailFrom (u email : Text) : Prop
  | missing (no_bracket : u.head? ≠ some '<') (empty : email = [])
  | closed {w r : Text} (text : u = '<' :: w ++ '>' :: r) (plain : '>' ∉ w) (trimmed : Text.trim w = email)
  | unclosed {w : Text} (text : u = '<' :: w) (plain : '>' ∉ w) (trimmed : Text.trim w = email)

/-- The address is read from the front of `u`. A name alone may turn out to be an email. -/
inductive EntryFrom (u : Text) (a : Address) : Prop
  | listed {mid : Text} (named : NameFrom u a.name mid) (mailed : EmailFrom mid a.email)
    (no_sign : a.email = [] → '@' ∉ a.name.tail)
  | turned {mid : Text} (named : NameFrom u a.email mid) (sign : '@' ∈ a.email.tail) (nameless : a.name = [])

theorem decoded_nil : Decoded [] [] := Or.inr ⟨rfl, List.not_mem_nil, List.not_mem_nil⟩

theorem Decoded.length_le {w m : Text} (h : Decoded w m) : m.length ≤ w.length := by
  rcases h with h | ⟨rfl, -⟩
  · exact Nat.le_of_lt h
  · exact Nat.le_refl _

theorem Decoded.plain {w m : Text} (h : Decoded w m) {c : Char} (he : c ≠ backslash) (hq : c ≠ '\x22') :
    Decoded (c :: w) (c :: m) := by
  rcases h with h | ⟨rfl, hquote, hescape⟩
  · exact Or.inl (Nat.succ_lt_succ h)
  · exact Or.inr ⟨rfl, by simp [hquote, Ne.symm hq], by simp [hescape, Ne.symm he]⟩

theorem Decoded.escaped {w m : Text} (h : Decoded w m) (c d : Char) :
    Decoded (backslash :: c :: w) (d :: m) := by
  have := h.length_le
  refine Or.inl ?_
  simp only [List.length_cons]
  omega

section Reading

variable {σ : Type} [Cursor σ]

/-- A literal ends at its closing quote, or it is left open at the end of the input. -/
theorem decoded_literalRest (s : σ) :
    (∃ w, unread s = w ++ '\x22' :: unread (literalRest '\x22' backslash .named s).2 ∧
        Decoded w (literalRest '\x22' backslash .named s).1) ∨
      Decoded (unread s) (literalRest '\x22' backslash .named s).1 ∧
        unread (literalRest '\x22' backslash .named s).2 = [] := by
  fun_induction literalRest '\x22' backslash .named s with
  | case1 s h =>
    rw [head?_eq, List.head?_eq_none_iff] at h
    refine Or.inr ⟨?_, by simpa [unterminated] using h⟩
    rw [h]
    exact decoded_nil
  | case2 s hn h =>
    obtain ⟨r, hr⟩ := exists_unread_congr rfl h
    cases r with
    | nil =>
      have hend : unread (escaped .named (advance s)).2 <:+ [] := by
        rw [← unread_advance_of hr]
        exact (forward_escaped .named _).suffix
      refine Or.inr ⟨?_, by simpa [unterminated] using hend⟩
      rw [hr]
      exact Or.inl Nat.zero_lt_one
    | cons d r =>
      rw [(reads_escaped_named (unread_advance_of hr)).answer] at hn
      cases hn
  | case3 s piece hp h ih =>
    obtain ⟨r, hr⟩ := exists_unread_congr rfl h
    cases r with
    | nil =>
      have hnone : head? (advance s) = none := by rw [head?_eq, unread_advance_of hr]; rfl
      simp [escaped, hnone] at hp
    | cons d r =>
      have he := reads_escaped_named (unread_advance_of hr)
      obtain rfl : [unescape d] = piece := by rw [he.answer] at hp; simpa using hp
      rw [he.rest] at ih
      rw [hr]
      rcases ih with ⟨w, hw, hm⟩ | ⟨hm, hend⟩
      · exact Or.inl ⟨backslash :: d :: w, by rw [onto_snd, hw]; rfl, hm.escaped d _⟩
      · exact Or.inr ⟨hm.escaped d _, hend⟩
  | case4 s h hc =>
    obtain ⟨r, hr⟩ := exists_unread_congr rfl h
    exact Or.inl ⟨[], by rw [hr, unread_advance_of hr]; rfl, decoded_nil⟩
  | case5 s c h hc hq ih =>
    obtain ⟨r, hr⟩ := exists_unread_congr rfl h
    rw [unread_advance_of hr] at ih
    rw [hr]
    rcases ih with ⟨w, hw, hm⟩ | ⟨hm, hend⟩
    · exact Or.inl ⟨c :: w, by rw [onto_snd, hw]; rfl, hm.plain hc hq⟩
    · exact Or.inr ⟨hm.plain hc hq, hend⟩

theorem nameFrom_readName (s : σ) : NameFrom (unread s) (readName s).1 (unread (readName s).2) := by
  unfold readName
  split
  · next hq =>
    obtain ⟨v, hv⟩ := exists_unread_congr rfl hq
    have hd := decoded_literalRest (advance s)
    rw [unread_advance_of hv] at hd
    generalize hx : literalRest '\x22' backslash .named (advance s) = x at hd
    have hl : Reads (literal? backslash .named s) (some x.1) (unread x.2) :=
      reads_literal? hv rfl (hx ▸ ⟨rfl, rfl⟩)
    rw [hl.eq, hv, Prod.map_fst, Prod.map_snd, unread_skipSpaces, hl.rest]
    rcases hd with ⟨w, hw, hm⟩ | ⟨hm, hend⟩
    · have htext : '\x22' :: v =
          '\x22' :: w ++ '\x22' :: ((unread x.2).takeWhile isSpace ++ bared (unread x.2)) := by
        rw [bared, List.takeWhile_append_dropWhile, hw]
        rfl
      exact .closed htext hm (fun c hc => List.mem_takeWhile_imp hc) rfl
    · refine .unclosed rfl hm rfl ?_
      rw [hend]
      rfl
  · next hq =>
    rw [head?_eq] at hq
    obtain ⟨htext, hplain, hends⟩ := run_splits endsName s
    exact .raw htext hq hplain hends rfl

theorem emailFrom_readEmail (s : σ) : EmailFrom (unread s) (readEmail s).1 := by
  unfold readEmail
  split
  · next hb =>
    obtain ⟨v, hv⟩ := exists_unread_congr rfl hb
    obtain ⟨htext, hplain, hends⟩ := run_splits endsEmail (advance s)
    rw [unread_advance_of hv] at htext
    generalize run endsEmail (advance s) = x at htext hplain hends
    have hclosing : '>' ∉ x.1 := fun hc => by simpa [endsEmail] using hplain _ hc
    rcases hr : unread x.2 with _ | ⟨c, r⟩
    · rw [hr, List.append_nil] at htext
      exact .unclosed (hv.trans (by rw [htext])) hclosing rfl
    · obtain rfl : c = '>' := by simpa [endsEmail, hr] using hends
      exact .closed (hv.trans (by rw [htext, hr]; rfl)) hclosing rfl
  · next hb =>
    rw [head?_eq] at hb
    exact .missing hb rfl

theorem entryFrom_readEntry (s : σ) : EntryFrom (unread s) (readEntry s).1 := by
  have hname := nameFrom_readName s
  have hemail := emailFrom_readEmail (readName s).2
  rw [readEntry, Prod.map_fst]
  unfold ofEntry
  split
  · next h =>
    rw [Bool.and_eq_true, List.isEmpty_iff, List.contains_iff_mem] at h
    exact .turned hname h.2 rfl
  · next h =>
    refine .listed hname hemail fun he hsign => h ?_
    rw [Bool.and_eq_true, List.isEmpty_iff, List.contains_iff_mem]
    exact ⟨he, hsign⟩

theorem exists_entryFrom_of_mem {stop : List Address → Bool} {seen : List Address} {s : σ} {a : Address}
    (h : a ∈ (entries stop seen s).1.1) :
    ∃ u, u <:+ unread s ∧ EntryFrom u a ∧ ¬ a.isVoid = true := by
  have hentry {s s' : σ} {a : Address} (he : readEntry (skipWhile isSeparator s) = (a, s')) :
      EntryFrom (unread (skipWhile isSeparator s)) a := by
    have := entryFrom_readEntry (skipWhile isSeparator s)
    rwa [he] at this
  fun_induction entries stop seen s with
  | case1 seen s hn => cases h
  | case2 seen s c hc b s' he hv ih =>
    obtain ⟨u, hu, hfrom⟩ := ih h
    exact ⟨u, hu.trans (forward_of_entry he).suffix, hfrom⟩
  | case3 seen s c hc b s' he hv hs =>
    obtain rfl := List.mem_singleton.1 h
    exact ⟨_, (forward_skipWhile _ _).suffix, hentry he, hv⟩
  | case4 seen s c hc b s' he hv hs ih =>
    rcases List.mem_cons.1 h with rfl | h
    · exact ⟨_, (forward_skipWhile _ _).suffix, hentry he, hv⟩
    · obtain ⟨u, hu, hfrom⟩ := ih h
      exact ⟨u, hu.trans (forward_of_entry he).suffix, hfrom⟩

end Reading

/-! What an entry can be. -/

theorem NameFrom.unpadded {u name r : Text} (h : NameFrom u name r) : Text.Unpadded name := by
  cases h with
  | raw text no_quote plain ends trimmed => exact trimmed ▸ Text.unpadded_trim _
  | closed text decoded blanks trimmed => exact trimmed ▸ Text.unpadded_trim _
  | unclosed text decoded trimmed rest => exact trimmed ▸ Text.unpadded_trim _

theorem EmailFrom.unpadded {u email : Text} (h : EmailFrom u email) : Text.Unpadded email := by
  cases h with
  | missing no_bracket empty => exact empty ▸ Text.unpadded_nil
  | closed text plain trimmed => exact trimmed ▸ Text.unpadded_trim _
  | unclosed text plain trimmed => exact trimmed ▸ Text.unpadded_trim _

/-- Without a quote there is no quoted name, and a raw name ends in front of a bracket or a delimiter. -/
theorem NameFrom.plain_of_no_quote {u name r : Text} (h : NameFrom u name r) (hu : '\x22' ∉ u) :
    ∀ c ∈ name, c ∉ ['<', ',', ';'] := by
  cases h with
  | raw text no_quote plain ends trimmed =>
    intro c hc
    rw [← trimmed] at hc
    have := plain c (Text.mem_of_mem_trim hc)
    simpa [endsName, isDelimiter] using this
  | closed text decoded blanks trimmed => exact absurd (by rw [text]; simp) hu
  | unclosed text decoded trimmed rest => exact absurd (by rw [text]; simp) hu

/-- What every address is like that is reported. -/
structure Proper (a : Address) : Prop where
  name : Text.Unpadded a.name
  email : Text.Unpadded a.email
  told : a.name ≠ [] ∨ a.email ≠ []
  no_sign : a.email = [] → '@' ∉ a.name.tail

theorem EntryFrom.proper {u : Text} {a : Address} (h : EntryFrom u a) (hv : ¬ a.isVoid = true) : Proper a := by
  have htold : a.name ≠ [] ∨ a.email ≠ [] := by
    simp only [isVoid, Bool.and_eq_true, List.isEmpty_iff] at hv
    exact not_and_or.1 hv
  cases h with
  | listed named mailed no_sign => exact ⟨named.unpadded, mailed.unpadded, htold, no_sign⟩
  | turned named sign nameless =>
    refine ⟨nameless ▸ Text.unpadded_nil, named.unpadded, htold, ?_⟩
    intro _
    rw [nameless]
    exact List.not_mem_nil

theorem EntryFrom.plain_of_no_quote {u : Text} {a : Address} (h : EntryFrom u a) (hu : '\x22' ∉ u) :
    ∀ c ∈ a.name, c ∉ ['<', ',', ';'] := by
  cases h with
  | listed named mailed no_sign => exact named.plain_of_no_quote hu
  | turned named sign nameless =>
    rw [nameless]
    nofun

/-- Whatever the text, no address is reported with blanks around its name or its email, without either of them, or
with a name that could be an email in place of one. Where there is no quote, nothing that ends a name is part of
one. -/
theorem reported_addresses_are_proper (s : Stream) (stop : List Address → Bool) :
    ∀ a ∈ (read stop s).1.1,
      Text.Unpadded a.name ∧ Text.Unpadded a.email ∧ (a.name ≠ [] ∨ a.email ≠ []) ∧
        (a.email = [] → '@' ∉ a.name.tail) ∧
        ('\x22' ∉ s.unread → ∀ c ∈ a.name, c ∉ ['<', ',', ';']) := by
  intro a ha
  obtain ⟨u, hu, hentry, hv⟩ := exists_entryFrom_of_mem ha
  have hproper := hentry.proper hv
  exact ⟨hproper.name, hproper.email, hproper.told, hproper.no_sign,
    fun hq => hentry.plain_of_no_quote fun hmem => hq (hu.subset hmem)⟩

/-- A handle, an email in front of brackets with a blank in them, and a name with blanks around it that are no
spaces, in front of an open bracket. -/
def openList : Text :=
  ['@', 'h', ';', 'a', '@', 'b', ' ', '<', '\u2003', '>', ',', '\u00a0', 'c', '\u00a0', 'd', '\u3000', '<', ' ',
    'e', '\u0085']

theorem openList_addresses :
    (parse openList).value = [⟨['@', 'h'], []⟩, ⟨[], ['a', '@', 'b']⟩, ⟨['c', '\u00a0', 'd'], ['e']⟩] := by
  decide +kernel

theorem openList_addresses_are_proper :
    (⟨['@', 'h'], []⟩ ∈ (parse openList).value ∧ '@' ∉ (['@', 'h'] : Text).tail) ∧
      ⟨['c', '\u00a0', 'd'], ['e']⟩ ∈ (parse openList).value ∧ Text.Unpadded ['c', '\u00a0', 'd'] ∧
      '\x22' ∉ openList ∧ ∀ c ∈ (['c', '\u00a0', 'd'] : Text), c ∉ ['<', ',', ';'] := by
  have hhandle : ⟨['@', 'h'], []⟩ ∈ (parse openList).value := by simp [openList_addresses]
  have hnamed : ⟨['c', '\u00a0', 'd'], ['e']⟩ ∈ (parse openList).value := by simp [openList_addresses]
  have hquote : '\x22' ∉ openList := by decide
  have h := reported_addresses_are_proper (Stream.ofText openList) (fun _ => false)
  exact ⟨⟨hhandle, (h _ hhandle).2.2.2.1 rfl⟩, hnamed, (h _ hnamed).1, hquote, (h _ hnamed).2.2.2.2 hquote⟩

end Lenient.Address
