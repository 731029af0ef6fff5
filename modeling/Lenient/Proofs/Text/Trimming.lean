import Lenient.Text
import Mathlib.Data.List.DropRight

/-! Trimming a text. A text is its trimmed form with blanks around it, so trimming keeps every character
that is no blank, starts with the first of them, and undoes any padding with blanks. It leaves a text alone
that has no blank at either end. -/

namespace Lenient.Text

def AllBlank (t : Text) : Prop := ∀ c ∈ t, isBlank c = true

theorem trim_append_rtakeWhile (t : Text) :
    trim t ++ (t.dropWhile isBlank).rtakeWhile isBlank = t.dropWhile isBlank :=
  List.rdropWhile_append_rtakeWhile

theorem exists_padding (t : Text) : ∃ a b, t = a ++ trim t ++ b ∧ AllBlank a ∧ AllBlank b := by
  refine ⟨t.takeWhile isBlank, (t.dropWhile isBlank).rtakeWhile isBlank, ?_, ?_, ?_⟩
  · rw [List.append_assoc, trim_append_rtakeWhile, List.takeWhile_append_dropWhile]
  · exact fun _ hc => List.mem_takeWhile_imp hc
  · exact fun _ hc => List.mem_rtakeWhile_imp hc

theorem trim_eq_nil_iff {t : Text} : trim t = [] ↔ AllBlank t := by
  constructor
  · intro h
    obtain ⟨a, b, ht, ha, hb⟩ := exists_padding t
    rw [h, List.append_nil] at ht
    rw [ht]
    exact List.forall_mem_append.2 ⟨ha, hb⟩
  · intro h
    rw [trim, List.dropWhile_eq_nil_iff.2 h]
    rfl

/-! Blanks at either end do not matter. -/

theorem trim_blank_append {a : Text} (h : AllBlank a) (t : Text) : trim (a ++ t) = trim t := by
  rw [trim, List.dropWhile_append_of_pos h, trim]

theorem trim_append_blank {b : Text} (h : AllBlank b) (t : Text) : trim (t ++ b) = trim t := by
  have hrev : ∀ c ∈ b.reverse, isBlank c = true := fun c hc => h c (List.mem_reverse.1 hc)
  rw [trim, List.dropWhile_append]
  split
  · next he =>
    -- the text is blank itself, so all goes from the front
    rw [List.dropWhile_eq_nil_iff.2 h, trim, List.isEmpty_iff.1 he]
  · rw [List.reverse_append, List.dropWhile_append_of_pos hrev, trim]

theorem head?_trim (t : Text) : (trim t).head? = t.find? fun c => !isBlank c := by
  simp only [List.find?_eq_head?_dropWhile_not, Bool.not_not]
  rcases hm : trim t with _ | ⟨c, m⟩
  · rw [List.dropWhile_eq_nil_iff.2 (trim_eq_nil_iff.1 hm)]
  · rw [← trim_append_rtakeWhile, hm]
    rfl

theorem mem_trim_iff {t : Text} {c : Char} (hc : isBlank c = false) : c ∈ trim t ↔ c ∈ t := by
  obtain ⟨a, b, ht, ha, hb⟩ := exists_padding t
  have hout {u : Text} (hu : AllBlank u) : c ∉ u := fun hmem => by simp [hu c hmem] at hc
  conv => rhs; rw [ht]
  simp [hout ha, hout hb]

theorem mem_of_mem_trim {t : Text} {c : Char} (h : c ∈ trim t) : c ∈ t := by
  obtain ⟨a, b, ht, -, -⟩ := exists_padding t
  rw [ht]
  simp [h]

theorem length_trim_le (t : Text) : (trim t).length ≤ t.length := by
  obtain ⟨a, b, ht, -, -⟩ := exists_padding t
  have hlen := congrArg List.length ht
  simp only [List.length_append] at hlen
  omega

theorem trim_eq_of_length_le {t : Text} (h : t.length ≤ (trim t).length) : trim t = t := by
  obtain ⟨a, b, ht, -, -⟩ := exists_padding t
  have hlen := congrArg List.length ht
  simp only [List.length_append] at hlen
  obtain rfl : a = [] := List.length_eq_zero_iff.1 (by omega)
  obtain rfl : b = [] := List.length_eq_zero_iff.1 (by omega)
  simpa using ht.symm

/-! Texts that trimming leaves as they are. -/

/-- No blank stands at either end of the text. -/
structure Unpadded (t : Text) : Prop where
  first : ∀ c ∈ t.head?, isBlank c = false
  last : ∀ c ∈ t.getLast?, isBlank c = false

theorem unpadded_nil : Unpadded [] := ⟨nofun, nofun⟩

theorem unpadded_trim (t : Text) : Unpadded (trim t) := by
  constructor
  · intro c hc
    rw [head?_trim] at hc
    simpa using List.find?_some hc
  · intro c hc
    obtain ⟨hne, rfl⟩ := List.mem_getLast?_eq_getLast hc
    exact Bool.eq_false_iff.2 (List.rdropWhile_last_not isBlank (t.dropWhile isBlank) hne)

theorem Unpadded.trim_eq {t : Text} (h : Unpadded t) : trim t = t := by
  obtain ⟨a, b, ht, ha, hb⟩ := exists_padding t
  have ha' : a = [] := by
    rcases a with _ | ⟨c, a⟩
    · rfl
    · have hblank := h.first c (by rw [ht]; rfl)
      rw [ha c List.mem_cons_self] at hblank
      cases hblank
  have hb' : b = [] := by
    rcases List.eq_nil_or_concat b with rfl | ⟨b, c, rfl⟩
    · rfl
    · have hblank := h.last c (by rw [ht]; simp)
      rw [hb c (by simp)] at hblank
      cases hblank
  rw [ha', hb'] at ht
  simpa using ht.symm

end Lenient.Text
