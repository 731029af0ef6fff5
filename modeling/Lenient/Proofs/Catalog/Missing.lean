import Lenient.Catalog
import Lenient.Proofs.Catalog.Filling

/-! Messages without a template. Such a message is made from its key, and the key is formatted as a template
is. So it is the key itself only where formatting leaves the key alone: no two braces of it stand for one,
and no body in braces spells the index of an argument. Each of these costs the key a brace, and only an argument
that has braces of its own can make up for it. -/

namespace Lenient

namespace Template

def isBrace (c : Char) : Bool := c = '\x7b' || c = '\x7d'

/-- With `n` arguments all of the text stands for itself: every body in braces spells no index below `n`, and
every other brace stands alone, an opening one without any closing brace behind it. -/
inductive Inert (n : Nat) : Text → Prop
  | nil : Inert n []
  | plain {c : Char} {rest : Text} (not_brace : c ≠ '\x7b' ∧ c ≠ '\x7d') (others : Inert n rest) :
    Inert n (c :: rest)
  | unfilled {body rest : Text} (closed : '\x7d' ∉ body) (single : body.head? ≠ some '\x7b')
    (beyond : ∀ i, Spells body i → n ≤ i) (others : Inert n rest) : Inert n (braced body ++ rest)
  | unclosed {rest : Text} (never : '\x7d' ∉ rest) (single : rest.head? ≠ some '\x7b')
    (others : Inert n rest) : Inert n ('\x7b' :: rest)
  | unopened {rest : Text} (single : rest.head? ≠ some '\x7d') (others : Inert n rest) :
    Inert n ('\x7d' :: rest)

variable {args : List Text}

/-! What a body in braces and a lone brace are formatted as. -/

theorem fill_of_beyond {body : Text} (h : ∀ i, Spells body i → args.length ≤ i) :
    fill args body = braced body := by
  unfold fill
  cases hi : index? body with
  | none => rfl
  | some i =>
    have hnone : args[i]? = none := List.getElem?_eq_none (h i (index?_eq_some_iff.1 hi))
    rw [Option.bind_some, hnone]
    rfl

theorem fill_mem_of_spells {body : Text} {i : Nat} (h : Spells body i) (hi : i < args.length) :
    fill args body ∈ args := by
  rw [fill, index?_eq_some_iff.2 h, Option.bind_some, List.getElem?_eq_getElem hi, Option.getD_some]
  exact List.getElem_mem hi

theorem ne_cons_of_head? {rest : Text} {c : Char} (h : rest.head? ≠ some c) (r : Text) : rest ≠ c :: r := by
  rintro rfl
  exact h rfl

theorem format_unclosed {rest : Text} (never : '\x7d' ∉ rest) (single : rest.head? ≠ some '\x7b') :
    format args ('\x7b' :: rest) = '\x7b' :: format args rest := by
  rw [format.eq_4 _ _ _ (fun r _ hr => ne_cons_of_head? single r hr) (fun _ hc => absurd hc (by decide)),
    if_neg fun h => never h.2]

theorem format_unopened {rest : Text} (single : rest.head? ≠ some '\x7d') :
    format args ('\x7d' :: rest) = '\x7d' :: format args rest := by
  rw [format.eq_4 _ _ _ (fun _ hc => absurd hc (by decide)) (fun r _ hr => ne_cons_of_head? single r hr),
    if_neg fun h => absurd h.1 (by decide)]

theorem Inert.format_eq {t : Text} (h : Inert args.length t) : format args t = t := by
  induction h with
  | nil => exact format.eq_1 args
  | plain not_brace others ih => rw [format_plain args _ not_brace, ih]
  | unfilled closed single beyond others ih =>
    rw [format_braced args _ closed single, fill_of_beyond beyond, ih]
  | unclosed never single others ih => rw [format_unclosed never single, ih]
  | unopened single others ih => rw [format_unopened single, ih]

/-! What does not stand for itself loses a brace. -/

theorem two_le_countP_braced (body : Text) : 2 ≤ (braced body).countP isBrace := by
  simp [braced, isBrace]

theorem countP_format_le {t : Text}
    (h : Inert args.length t ∨ (format args t).countP isBrace < t.countP isBrace) :
    (format args t).countP isBrace ≤ t.countP isBrace := by
  rcases h with h | h
  · exact Nat.le_of_eq (congrArg _ h.format_eq)
  · exact Nat.le_of_lt h

theorem countP_doubled_lt {c : Char} {rest : Text} (hc : isBrace c = true)
    (h : Inert args.length rest ∨ (format args rest).countP isBrace < rest.countP isBrace) :
    (c :: format args rest).countP isBrace < (c :: c :: rest).countP isBrace := by
  have hle := countP_format_le h
  simp only [List.countP_cons_of_pos hc]
  omega

/-- A body in braces stands for itself, or an argument with fewer braces takes its place. -/
theorem inert_or_lt_braced (hargs : ∀ a ∈ args, a.countP isBrace < 2) {body rest : Text}
    (closed : '\x7d' ∉ body) (single : body.head? ≠ some '\x7b')
    (h : Inert args.length rest ∨ (format args rest).countP isBrace < rest.countP isBrace) :
    Inert args.length (braced body ++ rest) ∨
      (fill args body ++ format args rest).countP isBrace < (braced body ++ rest).countP isBrace := by
  have hle := countP_format_le h
  have htwo := two_le_countP_braced body
  simp only [List.countP_append]
  by_cases hi : ∃ i < args.length, Spells body i
  · obtain ⟨i, hi, hs⟩ := hi
    have hlt := hargs _ (fill_mem_of_spells hs hi)
    exact .inr (by omega)
  · have beyond : ∀ i, Spells body i → args.length ≤ i := by
      intro i hs
      by_contra hlt
      exact hi ⟨i, Nat.not_le.1 hlt, hs⟩
    rcases h with h | h
    · exact .inl (.unfilled closed single beyond h)
    · rw [fill_of_beyond beyond]
      exact .inr (by omega)

theorem inert_cons {n : Nat} {c : Char} {rest : Text} (hopen : ∀ r, c = '\x7b' → rest ≠ '\x7b' :: r)
    (hclose : ∀ r, c = '\x7d' → rest ≠ '\x7d' :: r) (hbody : ¬ (c = '\x7b' ∧ '\x7d' ∈ rest))
    (h : Inert n rest) : Inert n (c :: rest) := by
  by_cases hc : c = '\x7b'
  · subst hc
    refine .unclosed (fun hr => hbody ⟨rfl, hr⟩) (fun hr => ?_) h
    obtain ⟨r, rfl⟩ := List.head?_eq_some_iff.1 hr
    exact hopen r rfl rfl
  · by_cases hc' : c = '\x7d'
    · subst hc'
      refine .unopened (fun hr => ?_) h
      obtain ⟨r, rfl⟩ := List.head?_eq_some_iff.1 hr
      exact hclose r rfl rfl
    · exact .plain ⟨hc, hc'⟩ h

/-- A text stands for itself, or has fewer braces once it is formatted. -/
theorem inert_or_countP_lt (hargs : ∀ a ∈ args, a.countP isBrace < 2) (t : Text) :
    Inert args.length t ∨ (format args t).countP isBrace < t.countP isBrace := by
  fun_induction format args t with
  | case1 => exact .inl .nil
  | case2 rest ih => exact .inr (countP_doubled_lt rfl ih)
  | case3 rest ih => exact .inr (countP_doubled_lt rfl ih)
  | case4 c rest hopen hclose hbody ih =>
    obtain ⟨rfl, hmem⟩ := hbody
    obtain ⟨body, behind, rfl, closed⟩ := List.eq_append_cons_of_mem hmem
    obtain ⟨htake, hdrop⟩ := cut_at_closing behind closed
    rw [hdrop] at ih
    rw [htake, hdrop, ← braced_append]
    have single : body.head? ≠ some '\x7b' := by
      intro hh
      obtain ⟨b, rfl⟩ := List.head?_eq_some_iff.1 hh
      exact hopen _ rfl rfl
    exact inert_or_lt_braced hargs closed single ih
  | case5 c rest hopen hclose hbody ih =>
    rcases ih with ih | ih
    · exact .inl (inert_cons hopen hclose hbody ih)
    · refine .inr ?_
      simp only [List.countP_cons]
      omega

/-- Formatting leaves exactly those texts alone that stand for themselves, unless an argument has braces
enough to make up for what it replaces. -/
theorem format_eq_iff_inert (hargs : ∀ a ∈ args, a.countP isBrace < 2) (t : Text) :
    format args t = t ↔ Inert args.length t := by
  constructor
  · intro h
    rcases inert_or_countP_lt hargs t with hi | hlt
    · exact hi
    · rw [h] at hlt
      exact absurd hlt (Nat.lt_irrefl _)
  · exact Inert.format_eq

end Template

namespace Catalog

theorem value_message_of_missing {c : Catalog} {locale key : Text} (h : c.template? locale key = none)
    (args : List Text) : (c.message locale key args).value = Template.format args key := by
  rw [message, h]

/-- A message without a template is its key, whatever `n` arguments there are, exactly if the key stands for
itself beside `n` arguments. The same holds of any one list of arguments, unless one of them has two braces and
so might spell the very body that it replaces. -/
theorem missing_message_is_key_iff (c : Catalog) (locale key : Text) (h : c.template? locale key = none) :
    (∀ n, (∀ args : List Text, args.length = n → (c.message locale key args).value = key) ↔
      Template.Inert n key) ∧
    ∀ args : List Text, (∀ a ∈ args, a.countP Template.isBrace < 2) →
      ((c.message locale key args).value = key ↔ Template.Inert args.length key) := by
  simp only [value_message_of_missing h]
  refine ⟨fun n => ⟨fun hall => ?_, ?_⟩, fun args hargs => Template.format_eq_iff_inert hargs key⟩
  · -- as many empty arguments give no brace back
    have hlen : (List.replicate n ([] : Text)).length = n := List.length_replicate
    have hargs : ∀ a ∈ List.replicate n ([] : Text), a.countP Template.isBrace < 2 := by
      intro a ha
      rw [List.eq_of_mem_replicate ha]
      decide
    have hi := (Template.format_eq_iff_inert hargs key).1 (hall _ hlen)
    rwa [hlen] at hi
  · rintro hi args rfl
    exact hi.format_eq

theorem template?_blank (locale key : Text) : blank.template? locale key = none := by
  have hnone (l : Text) : blank.at? l key = none := at?_empty _ l key
  rw [template?, hnone, hnone, hnone]
  rfl

/-- A placeholder for a second argument, and a brace of either kind alone. -/
def bracedKey : Text := ['\x7b', '1', '\x7d', '\x7d', '\x7b']

theorem inert_bracedKey : Template.Inert 1 bracedKey := by
  have beyond : ∀ i, Template.Spells ['1'] i → 1 ≤ i := by
    intro i hi
    have hone : Template.index? ['1'] = some 1 := by decide
    rw [Template.index?_eq_some_iff.2 hi] at hone
    exact Nat.le_of_eq (Option.some.inj hone).symm
  have htail : Template.Inert 1 ['\x7d', '\x7b'] :=
    .unopened (by decide) (.unclosed (by decide) (by decide) .nil)
  exact .unfilled (show '\x7d' ∉ ['1'] by decide) (by decide) beyond htail

theorem bracedKey_is_message :
    blank.template? ['e', 'n'] bracedKey = none ∧
      (blank.message ['e', 'n'] bracedKey [['a', '\x7d']]).value = bracedKey ∧
      (blank.message ['e', 'n'] bracedKey [bracedKey]).value = bracedKey := by
  have h := missing_message_is_key_iff blank ['e', 'n'] bracedKey (template?_blank _ _)
  exact ⟨template?_blank _ _, (h.2 _ (by decide)).2 inert_bracedKey, (h.1 1).2 inert_bracedKey _ rfl⟩

theorem not_every_missing_message_is_key :
    ¬ ∀ (c : Catalog) (locale key : Text) (args : List Text), c.template? locale key = none →
      (c.message locale key args).value = key := by
  intro h
  have hkey := h blank ['e', 'n'] ['\x7b', '0', '\x7d'] [['x']] (template?_blank _ _)
  rw [value_message_of_missing (template?_blank _ _)] at hkey
  revert hkey
  decide +kernel

end Catalog

end Lenient
