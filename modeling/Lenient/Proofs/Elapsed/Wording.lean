import Lenient.Elapsed
import Lenient.Proofs.Catalog.Filling
import Lenient.Proofs.Catalog.History

/-! Two wordings of elapsed time that say the same. The built-in templates all stand in the locale that the
catalogue falls back to, so they are found from every locale. Each of them is a text without braces, or has
the number of units in front of such a text; filled, it says what the built-in English words say.

Whoever words a delta is told the largest unit that it reaches and how many whole ones it has. -/

namespace Lenient

namespace Template

theorem format_eq_self (args : List Text) {t : Text} (h : '\x7b' ∉ t ∧ '\x7d' ∉ t) : format args t = t := by
  induction t with
  | nil => exact format.eq_1 args
  | cons c t ih =>
    simp only [List.mem_cons, not_or] at h
    rw [format_plain args t ⟨Ne.symm h.1.1, Ne.symm h.2.1⟩, ih ⟨h.1.2, h.2.2⟩]

theorem format_counted (arg : Text) {t : Text} (h : '\x7b' ∉ t ∧ '\x7d' ∉ t) :
    format [arg] (braced ['0'] ++ t) = arg ++ t := by
  have hindex : index? ['0'] = some 0 := by decide
  rw [format_braced [arg] t (by decide) (by decide), format_eq_self [arg] h, fill, hindex]
  rfl

end Template

namespace Catalog

/-- If only the fallback locale has templates, these are found from every locale. -/
theorem template?_of_fallback {c : Catalog} (h : ∀ locale key, locale ≠ c.fallback → c.at? locale key = none)
    (locale key : Text) : c.template? locale key = c.at? c.fallback key := by
  have hor (l : Text) : (c.at? l key).or (c.at? c.fallback key) = c.at? c.fallback key := by
    by_cases hl : l = c.fallback
    · rw [hl, Option.or_self]
    · rw [h l key hl, Option.none_or]
  rw [template?, hor, hor]

def builtinEntries : List Properties.Entry := builtin.map fun e => ⟨e.1.toList, e.2.toList⟩

theorem defaults_eq_insertAll : defaults = blank.insertAll defaultLocale builtinEntries := by
  rw [insertAll, builtinEntries, List.foldl_map]
  rfl

theorem at?_defaults (locale key : Text) :
    defaults.at? locale key =
      latest? (builtinEntries.map fun e => ⟨⟨defaultLocale, e.key⟩, e.value⟩) ⟨locale, key⟩ := by
  have hnone : blank.at? locale key = none := at?_empty _ locale key
  rw [defaults_eq_insertAll, at?_insertAll _ _ _ ⟨locale, key⟩, hnone, Option.or_none]

theorem template?_defaults {e : Properties.Entry} (h : e ∈ builtinEntries) (locale : Text) :
    defaults.template? locale e.key = some e.value := by
  have hfallback : defaults.fallback = defaultLocale := by
    rw [defaults_eq_insertAll, fallback_insertAll]
    rfl
  have hone : ∀ l k, l ≠ defaults.fallback → defaults.at? l k = none := by
    intro l k hl
    rw [hfallback] at hl
    rw [at?_defaults]
    apply latest?_eq_none
    intro w hw hplace
    obtain ⟨e, -, rfl⟩ := List.mem_map.1 hw
    exact hl (congrArg Place.locale hplace).symm
  rw [template?_of_fallback hone, hfallback, at?_defaults]
  -- no key is there twice, so each finds its own template
  revert e
  decide +kernel

theorem message_defaults {e : Properties.Entry} (h : e ∈ builtinEntries) (locale : Text) (args : List Text) :
    defaults.message locale e.key args = ⟨Template.format args e.value, []⟩ := by
  rw [message, template?_defaults h]

end Catalog

namespace TimeUnit

def larger? : TimeUnit → Option TimeUnit
  | second => some minute
  | minute => some hour
  | hour => some day
  | day => some week
  | week => some month
  | month => some year
  | year => none

theorem millis_pos (unit : TimeUnit) : 0 < unit.millis := by
  cases unit <;> decide

end TimeUnit

namespace Elapsed

open TimeUnit

/-! The unit and the count. -/

theorem count_mul_le (unit : TimeUnit) (delta : Int) : count unit delta * unit.millis ≤ delta :=
  Int.ediv_mul_le delta (Int.ne_of_gt unit.millis_pos)

theorem lt_count_add_one_mul (unit : TimeUnit) (delta : Int) :
    delta < (count unit delta + 1) * unit.millis :=
  Int.lt_ediv_add_one_mul_self delta unit.millis_pos

/-- A delta reaches the unit in which it is told, if that is more than a second, and no larger one. -/
theorem unitOf_reached {delta : Int} (h : unitOf delta ≠ .second) : (unitOf delta).millis ≤ delta := by
  unfold unitOf at h ⊢
  split_ifs at h ⊢ <;> simp_all [millis]

theorem lt_larger_unitOf {delta : Int} {larger : TimeUnit} (h : (unitOf delta).larger? = some larger) :
    delta < larger.millis := by
  unfold unitOf at h
  split_ifs at h with hminute hhour hday hweek hmonth hyear
  all_goals cases h
  all_goals assumption

theorem exists_larger_eq_mul {unit larger : TimeUnit} (h : unit.larger? = some larger) :
    ∃ k, larger.millis = k * unit.millis := by
  cases unit <;> cases h
  exacts [⟨60, rfl⟩, ⟨60, rfl⟩, ⟨24, rfl⟩, ⟨7, rfl⟩, ⟨4, rfl⟩, ⟨12, rfl⟩]

theorem one_le_count {delta : Int} (h : unitOf delta ≠ .second) : 1 ≤ count (unitOf delta) delta := by
  apply Int.le_ediv_of_mul_le (unitOf delta).millis_pos
  rw [Int.one_mul]
  exact unitOf_reached h

theorem count_lt_of_larger {delta k : Int} {larger : TimeUnit} (h : (unitOf delta).larger? = some larger)
    (hk : larger.millis = k * (unitOf delta).millis) : count (unitOf delta) delta < k := by
  have hlt : count (unitOf delta) delta * (unitOf delta).millis < k * (unitOf delta).millis :=
    calc count (unitOf delta) delta * (unitOf delta).millis ≤ delta := count_mul_le _ _
      _ < larger.millis := lt_larger_unitOf h
      _ = k * (unitOf delta).millis := hk
  exact Int.lt_of_mul_lt_mul_right hlt (Int.le_of_lt (unitOf delta).millis_pos)

/-! The words. -/

def behindCount (unit : TimeUnit) : Text := ' ' :: unit.noun.toList ++ "s ago".toList

theorem behindCount_plain (unit : TimeUnit) : '\x7b' ∉ behindCount unit ∧ '\x7d' ∉ behindCount unit := by
  cases unit <;> decide

/-- One of a unit, and any number of seconds, has a text without a count. -/
theorem uncounted {unit : TimeUnit} {n : Int} (h : n = 1 ∨ unit = .second) :
    ⟨key unit n, english unit n⟩ ∈ Catalog.builtinEntries ∧
      '\x7b' ∉ english unit n ∧ '\x7d' ∉ english unit n := by
  by_cases hone : n = 1
  · subst hone
    cases unit <;> decide
  · obtain rfl := h.resolve_left hone
    by_cases hzero : n = 0
    · subst hzero
      decide
    · have hkey : key .second n = "delta.seconds".toList := by
        rw [key, if_neg fun hc => hzero hc.2, if_neg hone]
        rfl
      have htext : english .second n = "Less than a minute ago".toList := by
        rw [english, if_pos rfl, if_neg hzero, if_neg hone]
      rw [hkey, htext]
      decide

theorem counted {unit : TimeUnit} {n : Int} (hone : n ≠ 1) (hunit : unit ≠ .second) :
    ⟨key unit n, Template.braced ['0'] ++ behindCount unit⟩ ∈ Catalog.builtinEntries ∧
      english unit n = Text.signed n ++ behindCount unit := by
  have hkey : key unit n = "delta.".toList ++ unit.noun.toList ++ ['s'] := by
    rw [key, if_neg fun hc => hunit hc.1, if_neg hone]
  have htext : english unit n = Text.signed n ++ behindCount unit := by
    rw [english, if_neg hunit, if_neg hone]
    simp [behindCount]
  refine ⟨?_, htext⟩
  rw [hkey]
  cases unit with
  | second => exact absurd rfl hunit
  | minute | hour | day | week | month | year => decide

/-- The built-in templates say what the built-in words say, in every locale. -/
theorem catalogued_defaults (locale : Text) (unit : TimeUnit) (n : Int) :
    catalogued Catalog.defaults locale unit n = ⟨english unit n, []⟩ := by
  unfold catalogued
  by_cases h : n = 1 ∨ unit = .second
  · obtain ⟨hmem, hplain⟩ := uncounted h
    rw [Catalog.message_defaults hmem, Template.format_eq_self _ hplain]
  · obtain ⟨hone, hunit⟩ := not_or.1 h
    obtain ⟨hmem, htext⟩ := counted hone hunit
    rw [Catalog.message_defaults hmem, Template.format_counted _ (behindCount_plain unit), htext]

/-- A delta is told alike by the catalogue of built-in templates, in any locale, and by the built-in English
words: not at all if it is negative. Otherwise whoever words it is told a unit and how many of it the delta
has. These are at least one, unless the unit is a second, and fewer than make up the next larger unit. -/
theorem catalogue_tells_english (locale : Text) (delta : Int) :
    describe (catalogued Catalog.defaults locale) delta =
        (describe english delta).map (fun text => ⟨text, []⟩) ∧
      (delta < 0 → describe english delta = none) ∧
      (0 ≤ delta → ∃ unit n,
        (∀ {α : Type} (wording : TimeUnit → Int → α), describe wording delta = some (wording unit n)) ∧
          n * unit.millis ≤ delta ∧ delta < (n + 1) * unit.millis ∧
          (unit ≠ .second → 1 ≤ n) ∧
          ∀ larger, unit.larger? = some larger → ∃ k, larger.millis = k * unit.millis ∧ n < k) := by
  refine ⟨?_, fun h => if_pos h, ?_⟩
  · unfold describe
    split
    · rfl
    · rw [catalogued_defaults]
      rfl
  · intro h
    refine ⟨unitOf delta, count (unitOf delta) delta, fun wording => if_neg (Int.not_lt.2 h),
      count_mul_le _ _, lt_count_add_one_mul _ _, one_le_count, ?_⟩
    intro larger hlarger
    obtain ⟨k, hk⟩ := exists_larger_eq_mul hlarger
    exact ⟨k, hk, count_lt_of_larger hlarger hk⟩

/-- Three years and a day, in a locale without templates, and a moment that is still to come. -/
theorem catalogue_tells_years :
    (describe (catalogued Catalog.defaults "fr-CA".toList) (3 * year.millis + day.millis)).map Noted.value =
        some "3 years ago".toList ∧
      describe english (-1) = none ∧
      3 * year.millis ≤ 3 * year.millis + day.millis ∧
      3 * year.millis + day.millis < (3 + 1) * year.millis := by
  have h := catalogue_tells_english "fr-CA".toList (3 * year.millis + day.millis)
  obtain ⟨unit, n, hwords, hle, hlt, -, -⟩ := h.2.2 (by decide)
  obtain ⟨rfl, rfl⟩ : year = unit ∧ 3 = n := by
    have hpair : some (year, (3 : Int)) = some (unit, n) := hwords Prod.mk
    simpa using hpair
  refine ⟨?_, (catalogue_tells_english [] (-1)).2.1 (by decide), hle, hlt⟩
  rw [h.1, hwords]
  decide

end Elapsed

end Lenient
