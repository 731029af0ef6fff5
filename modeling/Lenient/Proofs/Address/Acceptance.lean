import Lenient.Proofs.Address.Grammar
import Lenient.Proofs.Reader.Agreement

/-! The address reader accepts the written lists: each is read as the addresses that it is written for.
A name and an email lose the spaces around them when they are trimmed. An entry is read up to its closing
bracket or, if it has none, up to a delimiter or the end of the input; whichever of the spaces and
delimiters behind it were read with it, the next turn of the loop comes to the next entry. -/

namespace Lenient.Address

open Cursor Lexeme
open Json (Blanks blanks_nil)

/-! Trimming and the first characters of what is written. -/

theorem isBlank_of_isSpace {c : Char} (h : isSpace c = true) : Text.isBlank c = true := by
  simp only [isSpace, Bool.or_eq_true, decide_eq_true_eq] at h
  rcases h with ((rfl | rfl) | rfl) | rfl <;> decide

theorem isSpace_of_not_isBlank {c : Char} (h : Text.isBlank c = false) : isSpace c = false := by
  cases hs : isSpace c with
  | false => rfl
  | true => rw [isBlank_of_isSpace hs] at h; cases h

theorem dropWhile_eq_self {p : Char → Bool} {t : Text} (h : ∀ c ∈ t.head?, p c = false) :
    t.dropWhile p = t := by
  cases t with
  | nil => rfl
  | cons c t => simp [h c rfl]

theorem trim_padded {a t b : Text} (ha : Blanks a) (ht : Trimmed t) (hb : Blanks b) :
    Text.trim (a ++ t ++ b) = t := by
  have ha' : ∀ c ∈ a, Text.isBlank c = true := fun c hc => isBlank_of_isSpace (ha c hc)
  have hb' : ∀ c ∈ b.reverse, Text.isBlank c = true := fun c hc =>
    isBlank_of_isSpace (hb c (List.mem_reverse.1 hc))
  have hfront : (a ++ t ++ b).dropWhile Text.isBlank = t ++ b := by
    obtain ⟨c, t', rfl⟩ := List.exists_cons_of_ne_nil ht.ne_nil
    rw [List.append_assoc, List.dropWhile_append_of_pos ha', List.cons_append]
    exact dropWhile_eq_self (by simpa using ht.first)
  have hback : t.reverse.dropWhile Text.isBlank = t.reverse :=
    dropWhile_eq_self (by simpa using ht.last)
  rw [Text.trim, hfront, List.reverse_append, List.dropWhile_append_of_pos hb', hback,
    List.reverse_reverse]

theorem endsName_of_blank {c : Char} (h : isSpace c = true) : endsName c = false := by
  simp only [isSpace, Bool.or_eq_true, decide_eq_true_eq] at h
  rcases h with ((rfl | rfl) | rfl) | rfl <;> decide

theorem isSpace_of_endsName {c : Char} (h : endsName c = true) : isSpace c = false := by
  cases hs : isSpace c with
  | false => rfl
  | true => rw [endsName_of_blank hs] at h; cases h

theorem endsName_of_notMem {c : Char} (h : c ∉ ['<', ',', ';']) : endsName c = false := by
  simp only [List.mem_cons, List.not_mem_nil, or_false, not_or] at h
  simp [endsName, isDelimiter, h]

theorem isSeparator_eq_true_iff {c : Char} :
    isSeparator c = true ↔ isSpace c = true ∨ isDelimiter c = true := by
  simp [isSeparator]

theorem Named.starts {n name : Text} (h : Named n name) : ∃ c t, n = c :: t ∧ isSeparator c = false := by
  cases h with
  | raw trimmed no_quote plain =>
    obtain ⟨c, t, rfl⟩ := List.exists_cons_of_ne_nil trimmed.ne_nil
    have hs := isSpace_of_not_isBlank (trimmed.first c rfl)
    have hp := endsName_of_notMem (plain c List.mem_cons_self)
    simp only [endsName, Bool.or_eq_false_iff] at hp
    exact ⟨c, t, rfl, by simp [isSeparator, hs, hp.2]⟩
  | quoted trimmed blanks blanks' => exact ⟨_, _, rfl, by decide⟩

theorem Entered.starts {t : Text} {a : Address} (h : Entered t a) :
    ∃ c w, t = c :: w ∧ isSeparator c = false := by
  cases h with
  | full named blanks bracketed =>
    obtain ⟨c, w, rfl, hc⟩ := named.starts
    exact ⟨c, _, rfl, hc⟩
  | unnamed bracketed =>
    cases bracketed
    exact ⟨_, _, rfl, by decide⟩
  | loneEmail named sign => exact named.starts
  | loneName named no_sign => exact named.starts

theorem Named.ne_nil {n name : Text} (h : Named n name) : name ≠ [] := by
  cases h with
  | raw trimmed no_quote plain => exact trimmed.ne_nil
  | quoted trimmed blanks blanks' => exact trimmed.ne_nil

theorem Bracketed.ne_nil {b email : Text} (h : Bracketed b email) : email ≠ [] := by
  cases h with
  | intro trimmed plain blanks blanks' => exact trimmed.ne_nil

theorem Entered.not_isVoid {t : Text} {a : Address} (h : Entered t a) : ¬ a.isVoid = true := by
  cases h with
  | full named blanks bracketed => simp [isVoid, named.ne_nil]
  | unnamed bracketed => simp [isVoid, bracketed.ne_nil]
  | loneEmail named sign => simp [isVoid, named.ne_nil]
  | loneName named no_sign => simp [isVoid, named.ne_nil]

/-! What follows an entry. -/

/-- Behind spaces, there is a delimiter or the end of the input. -/
def Ends (r : Text) : Prop := ∀ c ∈ (bared r).head?, isDelimiter c = true

theorem Run.ends {r x : Text} (hr : Run r) (hx : ∀ c ∈ x.head?, isDelimiter c = true) : Ends (r ++ x) := by
  induction r with
  | nil =>
    intro c hc
    cases x with
    | nil => cases hc
    | cons d x =>
      have hd := hx d rfl
      have hs : isSpace d = false := isSpace_of_endsName (by simp [endsName, hd])
      rw [List.nil_append, bared_cons hs] at hc
      cases hc
      exact hd
  | cons d r ih =>
    obtain ⟨hd, hr⟩ := List.forall_mem_cons.1 hr
    intro c hc
    by_cases hs : isSpace d = true
    · exact ih hr c (by simpa [bared, hs] using hc)
    · rw [List.cons_append, bared_cons (by simpa using hs)] at hc
      cases hc
      exact hd.resolve_left hs

theorem Followed.ends {w : Text} {as : List Address} (h : Followed w as) : Ends w := by
  cases h with
  | finish run => simpa using run.ends (x := []) nofun
  | entry run delimiter run' entered others =>
    simp only [List.append_assoc, List.cons_append]
    exact run.ends (by rintro _ ⟨⟩; exact delimiter)

theorem dropWhile_run {r : Text} (hr : Run r) (x : Text) :
    (r ++ x).dropWhile isSeparator = x.dropWhile isSeparator :=
  List.dropWhile_append_of_pos fun c hc => isSeparator_eq_true_iff.2 (hr c hc)

theorem Entered.dropWhile_eq {t : Text} {a : Address} (h : Entered t a) (x : Text) :
    (t ++ x).dropWhile isSeparator = t ++ x := by
  obtain ⟨c, w, rfl, hc⟩ := h.starts
  exact dropWhile_eq_self (by simpa using hc)

theorem dropWhile_bared (r : Text) : (bared r).dropWhile isSeparator = r.dropWhile isSeparator := by
  have hr : r = r.takeWhile isSpace ++ bared r := List.takeWhile_append_dropWhile.symm
  have hs : Run (r.takeWhile isSpace) := fun c hc => Or.inl (List.mem_takeWhile_imp hc)
  conv => rhs; rw [hr, dropWhile_run hs]

/-! One turn of the reader. -/

section Reading

variable {σ : Type} [Cursor σ] {s : σ} {r : Text}

theorem reads_readName {n name a : Text} (hn : Named n name) (ha : Blanks a)
    (hr : ∀ c ∈ r.head?, endsName c = true) (h : unread s = n ++ a ++ r) :
    Reads (readName s) name r := by
  unfold readName
  cases hn with
  | raw trimmed no_quote plain =>
    have hq : head? s ≠ some '\x22' := by
      obtain ⟨c, t, rfl⟩ := List.exists_cons_of_ne_nil trimmed.ne_nil
      rw [head?_of_unread h]
      simpa using no_quote
    have hw : ∀ c ∈ n ++ a, endsName c = false := by
      intro c hc
      rcases List.mem_append.1 hc with hc | hc
      · exact endsName_of_notMem (plain c hc)
      · exact endsName_of_blank (ha c hc)
    have hrun := (reads_run_of_ends h hw hr).map Text.trim
    have ht : Text.trim (n ++ a) = n := trim_padded (a := []) blanks_nil trimmed ha
    rw [if_neg hq]
    rwa [ht] at hrun
  | @quoted _ a' b' trimmed blanks blanks' =>
    rw [List.append_assoc] at h
    have hl := reads_quote rfl (by decide) (by decide) h
    have hb : bared (a ++ r) = r := by
      rw [bared_append ha]
      exact dropWhile_eq_self fun c hc => isSpace_of_endsName (hr c hc)
    have hq : head? s = some '\x22' := head?_of_unread h
    rw [if_pos hq, hl.eq]
    exact ⟨trim_padded blanks trimmed blanks', by rw [Prod.map_snd, unread_skipSpaces, hl.rest, hb]⟩

theorem reads_readEmail {b email : Text} (hb : Bracketed b email) (h : unread s = b ++ r) :
    Reads (readEmail s) email r := by
  cases hb with
  | @intro _ a b' trimmed plain blanks blanks' =>
    have hq : head? s = some '<' := head?_of_unread h
    have hu : unread (advance s) = a ++ email ++ b' ++ '>' :: r := by
      rw [unread_advance_of h]
      simp
    have hw : ∀ c ∈ a ++ email ++ b', endsEmail c = false := by
      have hspace : ∀ c, isSpace c = true → c ≠ '>' := by rintro _ h rfl; cases h
      intro c hc
      simp only [List.mem_append] at hc
      simp only [endsEmail, decide_eq_false_iff_not]
      rcases hc with (hc | hc) | hc
      · exact hspace c (blanks c hc)
      · rintro rfl
        exact plain hc
      · exact hspace c (blanks' c hc)
    have hrun := reads_run hu hw rfl
    unfold readEmail
    rw [if_pos hq, hrun.eq]
    exact ⟨trim_padded blanks trimmed blanks', unread_advance_of hrun.rest⟩

theorem reads_readEmail_none (h : unread s = r) (hr : r.head? ≠ some '<') :
    Reads (readEmail s) [] r := by
  unfold readEmail
  rw [if_neg (by rwa [head?_eq, h])]
  exact ⟨rfl, by rw [unread_look, h]⟩

theorem reads_readEntry_full {n name a b email : Text} (hn : Named n name) (ha : Blanks a)
    (hb : Bracketed b email) (h : unread s = n ++ a ++ b ++ r) : Reads (readEntry s) ⟨name, email⟩ r := by
  have hends : ∀ c ∈ (b ++ r).head?, endsName c = true := by
    cases hb
    rintro _ ⟨⟩
    rfl
  have hname := reads_readName hn ha hends (by rw [h, List.append_assoc])
  have hemail := (reads_readEmail hb hname.rest).map (ofEntry name)
  have ho : ofEntry name email = ⟨name, email⟩ := by simp [ofEntry, hb.ne_nil]
  unfold readEntry
  rwa [hname.answer, ← ho]

theorem reads_readEntry_unnamed {b email : Text} (hb : Bracketed b email) (h : unread s = b ++ r) :
    Reads (readEntry s) ⟨[], email⟩ r := by
  have hname : Reads (readName s) [] (b ++ r) := by
    have hrun : Reads (run endsName s) [] (b ++ r) := by
      apply reads_run_of_ends (w := []) h nofun
      cases hb
      rintro _ ⟨⟩
      rfl
    have hq : head? s ≠ some '\x22' := by
      cases hb
      rw [head?_of_unread h]
      decide
    unfold readName
    rw [if_neg hq]
    exact hrun.map Text.trim
  have hemail := (reads_readEmail hb hname.rest).map (ofEntry [])
  have ho : ofEntry [] email = ⟨[], email⟩ := by simp [ofEntry]
  unfold readEntry
  rwa [hname.answer, ← ho]

theorem reads_readEntry_lone {n name : Text} (hn : Named n name) (hr : Ends r) (h : unread s = n ++ r) :
    Reads (readEntry s) (ofEntry name []) (bared r) := by
  have hu : unread s = n ++ r.takeWhile isSpace ++ bared r := by
    rw [h, List.append_assoc]
    congr 1
    exact List.takeWhile_append_dropWhile.symm
  have hblanks : Blanks (r.takeWhile isSpace) := fun c hc => List.mem_takeWhile_imp hc
  have hends : ∀ c ∈ (bared r).head?, endsName c = true := fun c hc => by simp [endsName, hr c hc]
  have hbracket : (bared r).head? ≠ some '<' := fun hc => by cases hr '<' hc
  have hname := reads_readName hn hblanks hends hu
  unfold readEntry
  rw [hname.answer]
  exact (reads_readEmail_none hname.rest hbracket).map _

/-- An entry is read as its address. What is left of the text behind it leads to the same entry. -/
theorem reads_readEntry {t : Text} {a : Address} (he : Entered t a) (hr : Ends r) (h : unread s = t ++ r) :
    ∃ r', Reads (readEntry s) a r' ∧ r'.dropWhile isSeparator = r.dropWhile isSeparator := by
  cases he with
  | full named blanks bracketed => exact ⟨r, reads_readEntry_full named blanks bracketed h, rfl⟩
  | unnamed bracketed => exact ⟨r, reads_readEntry_unnamed bracketed h, rfl⟩
  | @loneEmail _ email named sign =>
    have ho : ofEntry email [] = ⟨[], email⟩ := by simp [ofEntry, sign]
    exact ⟨bared r, ho ▸ reads_readEntry_lone named hr h, dropWhile_bared r⟩
  | @loneName _ name named no_sign =>
    have ho : ofEntry name [] = ⟨name, []⟩ := by simp [ofEntry, no_sign]
    exact ⟨bared r, ho ▸ reads_readEntry_lone named hr h, dropWhile_bared r⟩

variable (σ)

/-- Wherever the reader stands, if the next entry is the one that comes first in `w`, it reads the
addresses `as` and comes to the end of the input. -/
def ReadsEntries (w : Text) (as : List Address) : Prop :=
  ∀ (s : σ) (seen : List Address), (unread s).dropWhile isSeparator = w.dropWhile isSeparator →
    Reads (entries (fun _ => false) seen s) (as, false) []

variable {σ}

theorem readsEntries_nil (hr : Run r) : ReadsEntries σ r [] := by
  intro s seen h
  have hu : unread (skipWhile isSeparator s) = [] := by
    rw [unread_skipWhile, h, ← List.append_nil r, dropWhile_run hr]
    rfl
  rw [entries_nil (by rw [head?_eq, hu]; rfl)]
  exact ⟨rfl, hu⟩

theorem readsEntries_cons {t w : Text} {a : Address} {as : List Address} (hr : Run r) (he : Entered t a)
    (hw : Followed w as) (ih : ReadsEntries σ w as) : ReadsEntries σ (r ++ t ++ w) (a :: as) := by
  intro s seen h
  have hu : unread (skipWhile isSeparator s) = t ++ w := by
    rw [unread_skipWhile, h, List.append_assoc, dropWhile_run hr, he.dropWhile_eq]
  obtain ⟨c, x, rfl, -⟩ := he.starts
  obtain ⟨r', hread, hnext⟩ := reads_readEntry he hw.ends hu
  rw [entries_cons (head?_of_unread hu) hread.eq he.not_isVoid (by simp)]
  exact (ih _ _ (by rw [hread.rest, hnext])).map (Prod.map (a :: ·) id)

theorem Followed.readsEntries {w : Text} {as : List Address} (h : Followed w as) : ReadsEntries σ w as := by
  induction h with
  | finish run => exact readsEntries_nil run
  | @entry r r' t w d a as run delimiter run' entered others ih =>
    have hr : Run (r ++ d :: r') := by
      intro c hc
      rcases List.mem_append.1 hc with hc | hc
      · exact run c hc
      · rcases List.mem_cons.1 hc with rfl | hc
        · exact Or.inr delimiter
        · exact run' c hc
    exact readsEntries_cons hr entered others ih

theorem Listed.readsEntries {w : Text} {as : List Address} (h : Listed w as) : ReadsEntries σ w as := by
  cases h with
  | nil run => exact readsEntries_nil run
  | cons run entered others => exact readsEntries_cons run entered others others.readsEntries

end Reading

/-- What is written for a list of addresses is read as this list. -/
theorem parse_accepts_lists {t : Text} {as : List Address} (h : Listed t as) : (parse t).value = as := by
  have hr : Reads (entries (fun _ => false) [] (Stream.ofText t)) (as, false) [] :=
    h.readsEntries _ _ rfl
  exact congrArg Prod.fst hr.answer

/-- A raw name with a quote and a blank that is no space in it, a quoted name with all that ends or
escapes a name, an email alone, and a raw and a quoted text without brackets. -/
def mixedList : Text :=
  [';', 'A', '\u00a0', '\x22', 'b', ' ', '<', '\t', 'x', ',', '<', '>', ' ', ',',
    '\x22', ' ', 'q', '\\', '\x22', '\\', '\\', ',', '<', '\n', '\x22', '<', '\x22', '>', ';', ';',
    '<', '@', '>', '\r', ',', ' ', 'a', '@', 'b', '\t', ';', '\x22', '@', 'h', '\x22', ' ', ',']

def mixedAddresses : List Address :=
  [⟨['A', '\u00a0', '\x22', 'b'], ['x', ',', '<']⟩, ⟨['q', '\x22', '\\', ',', '<'], ['\x22']⟩, ⟨[], ['@']⟩,
    ⟨[], ['a', '@', 'b']⟩, ⟨['@', 'h'], []⟩]

theorem listed_mixedList : Listed mixedList mixedAddresses := by
  have hA := Named.raw (show Trimmed ['A', '\u00a0', '\x22', 'b'] by decide) (by decide) (by simp)
  have hx := Bracketed.intro (show Trimmed ['x', ',', '<'] by decide) (by decide)
    (show Blanks ['\t'] by decide) blanks_nil
  have hq := Named.quoted (show Trimmed ['q', '\x22', '\\', ',', '<'] by decide)
    (show Blanks [' '] by decide) (show Blanks ['\n'] by decide)
  have hquote := Bracketed.intro (show Trimmed ['\x22'] by decide) (by decide) blanks_nil blanks_nil
  have hsign := Bracketed.intro (show Trimmed ['@'] by decide) (by decide) blanks_nil blanks_nil
  have hab := Named.raw (show Trimmed ['a', '@', 'b'] by decide) (by decide) (by simp)
  have hh := Named.quoted (show Trimmed ['@', 'h'] by decide) blanks_nil blanks_nil
  have hend : Followed [' ', ','] [] := .finish (by decide)
  exact .cons (show Run [';'] by decide) (.full hA (show Blanks [' '] by decide) hx)
    (.entry (show Run [' '] by decide) (show isDelimiter ',' = true from rfl) (show Run [] by decide)
      (.full hq blanks_nil hquote)
      (.entry (show Run [] by decide) (show isDelimiter ';' = true from rfl) (show Run [';'] by decide)
        (.unnamed hsign)
        (.entry (show Run ['\r'] by decide) (show isDelimiter ',' = true from rfl)
          (show Run [' '] by decide) (.loneEmail hab (by decide))
          (.entry (show Run ['\t'] by decide) (show isDelimiter ';' = true from rfl)
            (show Run [] by decide) (.loneName hh (by decide)) hend))))

theorem parse_accepts_mixedList :
    Listed mixedList mixedAddresses ∧ (parse mixedList).value = mixedAddresses :=
  ⟨listed_mixedList, parse_accepts_lists listed_mixedList⟩

end Lenient.Address
