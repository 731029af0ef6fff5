import Lenient.Proofs.Address.Acceptance
import Lenient.Proofs.Address.Reporting

/-! Which addresses can be read back from the way they are shown. An address is shown without any escapes: a
name alone stands bare, a name in front of an email stands in quotes, and an email stands in brackets. So it
is read back exactly if none of its characters means something to the reader where it stands (`Legible`). If one
does, the address is not among what is read: wherever an entry is taken to start, too few characters are left
for its name and its email, or the entry has to be the same text a character further on. -/

namespace Lenient.Address

open Cursor Lexeme
open Json (Blanks blanks_nil)

/-- No character of the address has a meaning where it is shown. -/
def Legible (a : Address) : Prop :=
  if a.name = [] then '>' ∉ a.email
  else if a.email = [] then a.name.head? ≠ some '\x22' ∧ ∀ c ∈ a.name, c ∉ ['<', ',', ';']
  else '\x22' ∉ a.name ∧ backslash ∉ a.name ∧ '>' ∉ a.email

instance (a : Address) : Decidable (Legible a) := inferInstanceAs (Decidable (ite _ _ _))

theorem display_lone {name : Text} (hn : name ≠ []) : display ⟨name, []⟩ = name := by
  simp [display, hn]

theorem display_full {name email : Text} (hn : name ≠ []) (he : email ≠ []) :
    display ⟨name, email⟩ = '\x22' :: name ++ ['\x22', ' '] ++ ('<' :: email ++ ['>']) := by
  simp [display, hn, he]

/-! A legible address is shown as an entry is written. -/

theorem trimmed_of_unpadded {t : Text} (h : Text.Unpadded t) (hne : t ≠ []) : Trimmed t :=
  ⟨hne, h.first, h.last⟩

theorem bracketed_email {email : Text} (h : Trimmed email) (plain : '>' ∉ email) :
    Bracketed ('<' :: email ++ ['>']) email := by
  simpa using Bracketed.intro h plain blanks_nil blanks_nil

theorem named_in_quotes {name : Text} (h : Trimmed name) (hq : '\x22' ∉ name) (he : backslash ∉ name) :
    Named ('\x22' :: name ++ ['\x22']) name := by
  have hguarded : name.flatMap (guarded backslash '\x22') = name := by
    have hc : ∀ c ∈ name, guarded backslash '\x22' c = [c] := by
      intro c hc
      refine if_neg ?_
      rintro (rfl | rfl)
      · exact hq hc
      · exact he hc
    rw [List.flatMap_def, List.map_congr_left hc]
    exact List.flatMap_singleton' name
  have hn := Named.quoted h blanks_nil blanks_nil
  rwa [List.nil_append, List.append_nil, quote, hguarded] at hn

theorem entered_display {a : Address} (hp : Proper a) (hl : Legible a) : Entered a.display a := by
  obtain ⟨name, email⟩ := a
  unfold Legible at hl
  split at hl
  · next hn =>
    obtain rfl : name = [] := hn
    exact .unnamed (bracketed_email (trimmed_of_unpadded hp.email (hp.told.resolve_left (by simp))) hl)
  · next hn =>
    have hname := trimmed_of_unpadded hp.name hn
    split at hl
    · next he =>
      obtain rfl : email = [] := he
      rw [display_lone hn]
      exact .loneName (.raw hname hl.1 hl.2) (hp.no_sign rfl)
    · next he =>
      have hemail := trimmed_of_unpadded hp.email he
      have hspace : Blanks [' '] := by decide
      rw [display_full hn he]
      simpa using Entered.full (named_in_quotes hname hl.1 hl.2.1) hspace (bracketed_email hemail hl.2.2)

theorem parse_display {a : Address} (hp : Proper a) (hl : Legible a) : (parse a.display).value = [a] := by
  have hrun : Run [] := nofun
  have hlisted : Listed ([] ++ a.display ++ []) [a] := .cons hrun (entered_display hp hl) (.finish hrun)
  rw [List.nil_append, List.append_nil] at hlisted
  have hr : Reads (entries (fun _ => false) [] (Stream.ofText a.display)) ([a], false) [] :=
    hlisted.readsEntries _ _ rfl
  exact congrArg Prod.fst hr.answer

/-! An address is found in what is shown only where it was put. -/

/-- A text that is the same one character further on has one character all over. -/
theorem eq_of_cons_eq_concat {c x : Char} {t : Text} (h : c :: t = t ++ [x]) : ∀ d ∈ t, d = x := by
  induction t generalizing c with
  | nil => nofun
  | cons e t ih =>
    have ht : e :: t = t ++ [x] := List.tail_eq_of_cons_eq h
    intro d hd
    rw [ht] at hd
    rcases List.mem_append.1 hd with hd | hd
    · exact ih ht d hd
    · exact List.mem_singleton.1 hd

/-- A name that is read with a character behind it that is no blank was read a character too late. -/
theorem eq_of_read_late {z v name : Text} {x : Char} (hx : Text.isBlank x = false) (h : z ++ v = name ++ [x])
    (hv : Text.trim v = name) (hp : Text.Unpadded name) (hne : name ≠ []) : v = name ∧ ∀ d ∈ name, d = x := by
  have hle : name.length ≤ v.length := hv ▸ Text.length_trim_le v
  have hlen := congrArg List.length h
  simp only [List.length_append, List.length_singleton] at hlen
  rcases z with _ | ⟨c, z⟩
  · -- nothing in front: then the character belongs to the name
    have hv' : Text.Unpadded v := by
      rw [show v = name ++ [x] from h]
      refine ⟨?_, by simpa using hx⟩
      rw [List.head?_append_of_ne_nil _ hne]
      exact hp.first
    rw [← hv'.trim_eq, hv] at h
    simp at h
  · obtain rfl : z = [] := List.length_eq_zero_iff.1 (by simp at hlen; omega)
    have hsame : v = name := (Text.trim_eq_of_length_le (by rw [hv]; simp at hlen; omega)).symm.trans hv
    subst hsame
    exact ⟨rfl, eq_of_cons_eq_concat h⟩

/-- An email that is read up to the last bracket has no bracket in it. -/
theorem eq_of_closing {w r email : Text} (h : w ++ '>' :: r = email ++ ['>'])
    (hle : email.length ≤ w.length) : w = email := by
  have hlen := congrArg List.length h
  simp only [List.length_append, List.length_cons, List.length_nil] at hlen
  exact (List.append_inj h (by omega)).1

theorem EmailFrom.exists_closed {u email t : Text} (h : EmailFrom u email) (hne : email ≠ [])
    (hu : u <:+ t ++ ['>']) : ∃ w r, u = '<' :: w ++ '>' :: r ∧ '>' ∉ w ∧ email.length ≤ w.length := by
  cases h with
  | missing no_bracket empty => exact absurd empty hne
  | closed text plain trimmed => exact ⟨_, _, text, plain, trimmed ▸ Text.length_trim_le _⟩
  | @unclosed w text plain trimmed =>
    have hmem : '>' ∈ '<' :: w := by
      rcases List.suffix_concat_iff.1 hu with hnil | ⟨t, ht, -⟩
      · rw [text] at hnil
        cases hnil
      · rw [← text, ht]
        simp
    rcases List.mem_cons.1 hmem with hc | hc
    · cases hc
    · exact absurd hc plain

theorem NameFrom.suffix {u name r : Text} (h : NameFrom u name r) : r <:+ u := by
  cases h with
  | raw text no_quote plain ends trimmed => exact ⟨_, text.symm⟩
  | @closed w m b text decoded blanks trimmed => exact ⟨'\x22' :: w ++ '\x22' :: b, by simp [text]⟩
  | unclosed text decoded trimmed rest => exact rest ▸ List.nil_suffix

theorem Decoded.length_trim_le {w m : Text} (h : Decoded w m) : (Text.trim m).length ≤ w.length :=
  (Text.length_trim_le m).trans h.length_le

/-- A name that is as long as the text it is read from is that text, without quotes and stops. -/
theorem NameFrom.eq_of_length_le {u name r : Text} (h : NameFrom u name r) (hle : u.length ≤ name.length) :
    u = name ∧ u.head? ≠ some '\x22' ∧ ∀ c ∈ u, endsName c = false := by
  cases h with
  | @raw v text no_quote plain ends trimmed =>
    have hv : name.length ≤ v.length := trimmed ▸ Text.length_trim_le v
    rw [text, List.length_append] at hle
    obtain rfl : r = [] := List.length_eq_zero_iff.1 (by omega)
    rw [List.append_nil] at text
    subst text
    rw [← trimmed, Text.trim_eq_of_length_le (by rw [trimmed]; omega)]
    exact ⟨rfl, no_quote, plain⟩
  | @closed w m b text decoded blanks trimmed =>
    have hm := decoded.length_trim_le
    rw [text, ← trimmed] at hle
    simp only [List.length_append, List.length_cons] at hle
    omega
  | @unclosed w m text decoded trimmed rest =>
    have hm := decoded.length_trim_le
    rw [text, ← trimmed, List.length_cons] at hle
    omega

theorem legible_of_lone {u name : Text} (hu : u <:+ name) (hne : name ≠ []) (h : EntryFrom u ⟨name, []⟩) :
    name.head? ≠ some '\x22' ∧ ∀ c ∈ name, c ∉ ['<', ',', ';'] := by
  cases h with
  | listed named mailed no_sign =>
    obtain ⟨rfl, hquote, hplain⟩ := named.eq_of_length_le hu.length_le
    exact ⟨hquote, fun c hc => by simpa [endsName, isDelimiter] using hplain c hc⟩
  | turned named sign nameless => exact absurd nameless hne

theorem NameFrom.head?_ne_bracket {u name r : Text} (h : NameFrom u name r) (hne : name ≠ []) :
    u.head? ≠ some '<' := by
  cases h with
  | @raw v text no_quote plain ends trimmed =>
    rcases v with _ | ⟨c, v⟩
    · exact absurd trimmed.symm hne
    · rw [text]
      rintro ⟨⟩
      exact absurd (plain '<' List.mem_cons_self) (by decide)
  | closed text decoded blanks trimmed => rw [text]; simp
  | unclosed text decoded trimmed rest => rw [text]; simp

/-- Behind its opening bracket, an email is not read without its brackets: it would have to be the same text
one character further on. -/
theorem no_sign_of_unnamed {u email mid : Text} (hu : u <:+ email ++ ['>']) (hne : email ≠ [])
    (hp : Text.Unpadded email) (h : NameFrom u email mid) : '@' ∉ email.tail := by
  have hlate {z v : Text} (hz : z ++ v = email ++ ['>']) (hv : Text.trim v = email) : '@' ∉ email.tail := by
    intro hsign
    have hall := (eq_of_read_late (by decide) hz hv hp hne).2
    exact absurd (hall _ (List.mem_of_mem_tail hsign)) (by decide)
  obtain ⟨z, hz⟩ := hu
  have hlen := congrArg List.length hz
  cases h with
  | @raw v text no_quote plain ends trimmed =>
    have hle : email.length ≤ v.length := trimmed ▸ Text.length_trim_le v
    subst text
    rcases mid with _ | ⟨c, mid⟩
    · rw [List.append_nil] at hz
      exact hlate hz trimmed
    · -- only the closing bracket is left, and that does not end a name
      simp only [List.length_append, List.length_cons, List.length_nil] at hlen
      obtain rfl : mid = [] := List.length_eq_zero_iff.1 (by omega)
      rw [← List.append_assoc] at hz
      have hc := List.append_inj_right' hz rfl
      obtain rfl : c = '>' := by simpa using hc
      exact absurd (ends '>' rfl) (by decide)
  | @closed w m b text decoded blanks trimmed =>
    have hle := decoded.length_trim_le
    rw [trimmed] at hle
    subst text
    simp only [List.length_append, List.length_cons, List.length_nil] at hlen
    omega
  | @unclosed w m text decoded trimmed rest =>
    have hle := decoded.length_trim_le
    have hm := Text.length_trim_le m
    rw [trimmed] at hle hm
    subst text
    simp only [List.length_append, List.length_cons, List.length_nil] at hlen
    obtain rfl : m = w := by
      rcases decoded with hlt | ⟨hmw, -⟩
      · omega
      · exact hmw
    rw [List.append_cons] at hz
    exact hlate hz trimmed

theorem legible_of_unnamed {u email : Text} (hu : u <:+ '<' :: email ++ ['>']) (hne : email ≠ [])
    (hp : Text.Unpadded email) (h : EntryFrom u ⟨[], email⟩) : '>' ∉ email := by
  cases h with
  | @listed mid named mailed no_sign =>
    have hmid := named.suffix.trans hu
    obtain ⟨w, r, rfl, hw, hle⟩ := mailed.exists_closed hne hmid
    -- the email needs all of the text, so it starts at the first bracket
    have hall : '<' :: w ++ '>' :: r = '<' :: email ++ ['>'] := by
      apply hmid.eq_of_length_le
      simp only [List.length_append, List.length_cons, List.length_nil] at hle ⊢
      omega
    have hsame : w = email := eq_of_closing (List.tail_eq_of_cons_eq hall) hle
    exact hsame ▸ hw
  | @turned mid named sign nameless =>
    have hbracket := named.head?_ne_bracket hne
    rcases List.suffix_cons_iff.1 hu with rfl | hu
    · exact absurd rfl hbracket
    · exact absurd sign (no_sign_of_unnamed hu hne hp named)

/-- The brackets that an email is read from, behind as much text as the name has, are those that were put around
it. -/
theorem eq_of_bracket {name email y w r : Text}
    (h : y ++ ('<' :: w ++ '>' :: r) = '\x22' :: name ++ ['\x22', ' '] ++ ('<' :: email ++ ['>']))
    (hle : email.length ≤ w.length) (hy : name.length < y.length) :
    y = '\x22' :: name ++ ['\x22', ' '] ∧ w = email := by
  have hlen := congrArg List.length h
  simp only [List.length_append, List.length_cons, List.length_nil] at hlen
  have hcases : y.length = name.length + 1 ∨ y.length = name.length + 2 ∨ y.length = name.length + 3 := by omega
  rcases hcases with hone | htwo | hthree
  · -- the bracket would be the quote behind the name
    have hsplit : y ++ ('<' :: w ++ '>' :: r) = '\x22' :: name ++ '\x22' :: ' ' :: '<' :: (email ++ ['>']) := by
      simpa using h
    cases (List.append_inj hsplit (by simpa using hone)).2
  · -- the bracket would be the space behind the quote
    have hsplit : y ++ ('<' :: w ++ '>' :: r) = '\x22' :: name ++ ['\x22'] ++ ' ' :: '<' :: (email ++ ['>']) := by
      simpa using h
    cases (List.append_inj hsplit (by simpa using htwo)).2
  · obtain ⟨hy, hrest⟩ := List.append_inj h (by simpa using hthree)
    exact ⟨hy, eq_of_closing (List.tail_eq_of_cons_eq hrest) hle⟩

theorem head?_of_read_late {z v name : Text} (h : z ++ v = name ++ ['\x22', ' ']) (hv : Text.trim v = name)
    (hp : Text.Unpadded name) (hne : name ≠ []) : v.head? = some '\x22' := by
  rcases List.eq_nil_or_concat' v with rfl | ⟨v, c, rfl⟩
  · exact absurd hv.symm hne
  · have hsplit : z ++ v ++ [c] = name ++ ['\x22'] ++ [' '] := by simpa using h
    obtain ⟨hz, hc⟩ := List.append_inj' hsplit rfl
    have hblank : Text.AllBlank [' '] := by
      intro d hd
      obtain rfl := List.mem_singleton.1 hd
      decide
    rw [hc, Text.trim_append_blank hblank] at hv
    obtain ⟨rfl, hall⟩ := eq_of_read_late (by decide) hz hv hp hne
    obtain ⟨d, v, rfl⟩ := List.exists_cons_of_ne_nil hne
    exact congrArg some (hall d List.mem_cons_self)

theorem Decoded.plain_of_length_le {w m : Text} (h : Decoded w m) (hle : w.length ≤ m.length) :
    '\x22' ∉ w ∧ backslash ∉ w := by
  rcases h with hlt | ⟨-, hplain⟩
  · omega
  · exact hplain

theorem head?_of_raw_full {z v name w r email : Text}
    (h : z ++ (v ++ ('<' :: w ++ '>' :: r)) = '\x22' :: name ++ ['\x22', ' '] ++ ('<' :: email ++ ['>']))
    (hv : Text.trim v = name) (hp : Text.Unpadded name) (hne : name ≠ []) (hle : email.length ≤ w.length) :
    (v ++ ('<' :: w ++ '>' :: r)).head? = some '\x22' := by
  have hlen : name.length ≤ v.length := hv ▸ Text.length_trim_le v
  rcases z with _ | ⟨c, z⟩
  · rw [List.nil_append] at h
    rw [h]
    rfl
  · rw [← List.append_assoc] at h
    obtain ⟨hy, -⟩ := eq_of_bracket h hle (by simp; omega)
    have hquote := head?_of_read_late (List.tail_eq_of_cons_eq hy) hv hp hne
    rw [List.head?_append, hquote]
    rfl

theorem eq_of_quoted_full {z v b name w r email : Text}
    (h : z ++ ('\x22' :: v ++ '\x22' :: b) ++ ('<' :: w ++ '>' :: r) =
      '\x22' :: name ++ ['\x22', ' '] ++ ('<' :: email ++ ['>']))
    (hv : name.length ≤ v.length) (hle : email.length ≤ w.length) : v = name ∧ w = email := by
  obtain ⟨hy, hw⟩ := eq_of_bracket h hle (by simp; omega)
  have hlen := congrArg List.length hy
  simp only [List.length_append, List.length_cons, List.length_nil] at hlen
  rcases b with _ | ⟨d, b⟩
  · -- the closing quote would be the space behind it
    have hsplit : z ++ '\x22' :: v ++ ['\x22'] = '\x22' :: name ++ ['\x22'] ++ [' '] := by simpa using hy
    cases (List.append_inj' hsplit rfl).2
  · simp only [List.length_cons] at hlen
    obtain rfl : z = [] := List.length_eq_zero_iff.1 (by omega)
    have hlength : v.length = name.length := by omega
    exact ⟨(List.append_inj (List.tail_eq_of_cons_eq hy) hlength).1, hw⟩

theorem plain_of_full {u name mid email : Text}
    (hu : u <:+ '\x22' :: name ++ ['\x22', ' '] ++ ('<' :: email ++ ['>'])) (hn : name ≠ [])
    (hp : Text.Unpadded name) (he : email ≠ []) (named : NameFrom u name mid) (mailed : EmailFrom mid email) :
    '\x22' ∉ name ∧ backslash ∉ name ∧ '>' ∉ email := by
  have hmid : mid <:+ '\x22' :: name ++ ['\x22', ' '] ++ '<' :: email ++ ['>'] := by
    simpa using named.suffix.trans hu
  obtain ⟨w, r, rfl, hw, hle⟩ := mailed.exists_closed he hmid
  obtain ⟨z, hz⟩ := hu
  cases named with
  | @raw v text no_quote plain ends trimmed =>
    subst text
    exact absurd (head?_of_raw_full hz trimmed hp hn hle) no_quote
  | @closed v m b text decoded blanks trimmed =>
    have hm : name.length ≤ m.length := trimmed ▸ Text.length_trim_le m
    have hall : z ++ ('\x22' :: v ++ '\x22' :: b) ++ ('<' :: w ++ '>' :: r) =
        '\x22' :: name ++ ['\x22', ' '] ++ ('<' :: email ++ ['>']) := by
      rw [← hz, text]
      simp
    obtain ⟨rfl, rfl⟩ := eq_of_quoted_full hall (hm.trans decoded.length_le) hle
    obtain ⟨hquote, hescape⟩ := decoded.plain_of_length_le hm
    exact ⟨hquote, hescape, hw⟩
  | unclosed text decoded trimmed rest => cases rest

theorem legible_of_mem {a : Address} (hp : Proper a) (h : a ∈ (parse a.display).value) : Legible a := by
  obtain ⟨u, hu, hentry, -⟩ := exists_entryFrom_of_mem h
  obtain ⟨name, email⟩ := a
  unfold Legible
  split
  · next hn =>
    obtain rfl : name = [] := hn
    have he : email ≠ [] := hp.told.resolve_left (by simp)
    exact legible_of_unnamed hu he hp.email hentry
  · next hn =>
    split
    · next he =>
      obtain rfl : email = [] := he
      exact legible_of_lone (display_lone hn ▸ hu) hn hentry
    · next he =>
      have hu : u <:+ display ⟨name, email⟩ := hu
      rw [display_full hn he] at hu
      cases hentry with
      | listed named mailed no_sign => exact plain_of_full hu hn hp.name he named mailed
      | turned named sign nameless => exact absurd nameless hn

/-- A reported address is what is read from the way it is shown, exactly if it is legible. -/
theorem display_read_back_iff_legible {t : Text} {a : Address} (h : a ∈ (parse t).value) :
    (parse a.display).value = [a] ↔ Legible a := by
  obtain ⟨u, -, hentry, hv⟩ := exists_entryFrom_of_mem h
  have hp := hentry.proper hv
  constructor
  · intro hback
    exact legible_of_mem hp (by simp [hback])
  · exact parse_display hp

/-- A name with quotes in it, and one in quotes with a delimiter in it. -/
def quotedList : Text :=
  ['A', ' ', '\x22', 'B', '\x22', ' ', '<', 'x', '>', ';', '\x22', 'S', ',', ' ', 'J', '\x22', '<', 'y', '>']

theorem quotedList_addresses :
    (parse quotedList).value = [⟨['A', ' ', '\x22', 'B', '\x22'], ['x']⟩, ⟨['S', ',', ' ', 'J'], ['y']⟩] := by
  decide +kernel

theorem quotedList_read_back :
    (parse (display ⟨['S', ',', ' ', 'J'], ['y']⟩)).value = [⟨['S', ',', ' ', 'J'], ['y']⟩] ∧
      ¬ (parse (display ⟨['A', ' ', '\x22', 'B', '\x22'], ['x']⟩)).value =
        [⟨['A', ' ', '\x22', 'B', '\x22'], ['x']⟩] := by
  have hlegible : ⟨['S', ',', ' ', 'J'], ['y']⟩ ∈ (parse quotedList).value := by simp [quotedList_addresses]
  have hquotes : ⟨['A', ' ', '\x22', 'B', '\x22'], ['x']⟩ ∈ (parse quotedList).value := by
    simp [quotedList_addresses]
  exact ⟨(display_read_back_iff_legible hlegible).2 (by decide),
    fun hback => absurd ((display_read_back_iff_legible hquotes).1 hback) (by decide)⟩

theorem not_every_display_read_back :
    ¬ ∀ (t : Text) (a : Address), a ∈ (parse t).value → (parse a.display).value = [a] := by
  intro h
  have hmem : ⟨['A', ' ', '\x22', 'B', '\x22'], ['x']⟩ ∈ (parse quotedList).value := by
    simp [quotedList_addresses]
  have hread : (parse (display ⟨['A', ' ', '\x22', 'B', '\x22'], ['x']⟩)).value ≠
      [⟨['A', ' ', '\x22', 'B', '\x22'], ['x']⟩] := by
    decide +kernel
  exact hread (h _ _ hmem)

end Lenient.Address
