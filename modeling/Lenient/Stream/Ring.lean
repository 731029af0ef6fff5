import Lenient.Text

/-! A ring of character slots, addressed by offsets into a text that is longer than the ring:
offset `o` lives in slot `o` modulo the capacity. `Holds` says that a ring shows a span of a text;
it survives writing the next character and moving to a larger ring. -/

namespace Lenient

/-- A ring has at least two slots: one for a character and one for the character before it. -/
structure Ring where
  slots : Array Char
  two_le : 2 ≤ slots.size

namespace Ring

def capacity (r : Ring) : Nat := r.slots.size

def blank (n : Nat) : Ring :=
  ⟨Array.replicate (max 2 n) '\x00', by rw [Array.size_replicate]; exact Nat.le_max_left 2 n⟩

def get (r : Ring) (o : Nat) : Char := r.slots.getD (o % r.slots.size) '\x00'

def set (r : Ring) (o : Nat) (c : Char) : Ring :=
  ⟨r.slots.setIfInBounds (o % r.slots.size) c, by simpa using r.two_le⟩

def span (r : Ring) (first last : Nat) : Text := (List.range' first (last - first)).map r.get

/-- A ring of `n` slots with the characters at the offsets from `first` up to `last`. -/
def resize (r : Ring) (n first last : Nat) : Ring :=
  (List.range' first (last - first)).foldl (fun t o => t.set o (r.get o)) (blank n)

/-- The ring with room for one more character at `last`, keeping everything from `first` on. A ring
that is too small grows by half, or to what is needed if that is more. -/
def reserve (r : Ring) (first last : Nat) : Ring :=
  if last - first + 1 ≤ r.capacity then r
  else r.resize (max (r.capacity * 3 / 2) (last - first + 1)) first last

theorem capacity_pos (r : Ring) : 0 < r.capacity := Nat.lt_of_lt_of_le Nat.two_pos r.two_le

@[simp] theorem capacity_blank (n : Nat) : (blank n).capacity = max 2 n := by simp [capacity, blank]

@[simp] theorem capacity_set (r : Ring) (o : Nat) (c : Char) : (r.set o c).capacity = r.capacity := by
  simp [capacity, set]

theorem get_set_self (r : Ring) (o : Nat) (c : Char) : (r.set o c).get o = c := by
  have h : o % r.slots.size < r.slots.size := Nat.mod_lt _ r.capacity_pos
  simp [get, set, Array.getD_eq_getD_getElem?, h]

theorem get_set_ne (r : Ring) {o p : Nat} (c : Char) (h : p % r.capacity ≠ o % r.capacity) :
    (r.set o c).get p = r.get p := by
  have h' : ¬ o % r.slots.size = p % r.slots.size := fun e => h e.symm
  simp [get, set, Array.getD_eq_getD_getElem?, h']

theorem mod_ne_of_lt {a b n : Nat} (h : a < b) (hb : b < a + n) : a % n ≠ b % n := by
  intro e
  have h1 : (b - a) % n = 0 := Nat.sub_mod_eq_zero_of_mod_eq e.symm
  rw [Nat.mod_eq_of_lt (by omega)] at h1
  omega

/-- The ring shows `t` from `first` up to `last`, each character in a slot of its own. -/
structure Holds (r : Ring) (t : Text) (first last : Nat) : Prop where
  fits : last ≤ first + r.capacity
  get_eq : ∀ o, first ≤ o → o < last → t[o]? = some (r.get o)

theorem Holds.blank (n : Nat) (t : Text) : (Ring.blank n).Holds t 0 0 :=
  ⟨Nat.zero_le _, fun _ _ h => absurd h (Nat.not_lt_zero _)⟩

theorem Holds.mono {r : Ring} {t : Text} {first first' last : Nat} (h : r.Holds t first last)
    (hf : first ≤ first') : r.Holds t first' last :=
  ⟨Nat.le_trans h.fits (by omega), fun o ho hl => h.get_eq o (Nat.le_trans hf ho) hl⟩

theorem Holds.set {r : Ring} {t : Text} {first last : Nat} {c : Char} (h : r.Holds t first last)
    (hroom : last + 1 ≤ first + r.capacity) (hc : t[last]? = some c) :
    (r.set last c).Holds t first (last + 1) := by
  refine ⟨by simpa using hroom, fun o ho hl => ?_⟩
  by_cases he : o = last
  · rw [he, get_set_self, hc]
  · have hlt : o < last := by omega
    rw [get_set_ne _ _ (mod_ne_of_lt hlt (by omega))]
    exact h.get_eq o ho hlt

@[simp] theorem capacity_copy (r : Ring) (os : List Nat) (t : Ring) :
    (os.foldl (fun t o => t.set o (r.get o)) t).capacity = t.capacity := by
  induction os generalizing t with
  | nil => rfl
  | cons o os ih => rw [List.foldl_cons, ih, capacity_set]

theorem capacity_resize (r : Ring) (n first last : Nat) :
    (r.resize n first last).capacity = max 2 n := by
  simp [resize]

theorem Holds.copy {r t : Ring} {w : Text} {first last : Nat} (h : r.Holds w first last) :
    ∀ k m, k + m = last → first ≤ k → last ≤ first + t.capacity → t.Holds w first k →
      ((List.range' k m).foldl (fun t o => t.set o (r.get o)) t).Holds w first last := by
  intro k m
  induction m generalizing k t with
  | zero => intro hk _ _ ht; simpa [← hk] using ht
  | succ m ih =>
    intro hk hf hfit ht
    rw [List.range'_succ, List.foldl_cons]
    exact ih (k + 1) (by omega) (by omega) (by simpa using hfit)
      (ht.set (by omega) (h.get_eq k hf (by omega)))

theorem Holds.resize {r : Ring} {w : Text} {n first last : Nat} (h : r.Holds w first last)
    (hle : first ≤ last) (hn : last ≤ first + max 2 n) : (r.resize n first last).Holds w first last :=
  h.copy first (last - first) (by omega) (Nat.le_refl _) (by simpa using hn)
    ⟨by omega, fun o ho hl => absurd hl (by omega)⟩

theorem Holds.reserve {r : Ring} {w : Text} {first last : Nat} (h : r.Holds w first last)
    (hle : first ≤ last) : (r.reserve first last).Holds w first last := by
  unfold Ring.reserve
  split
  · exact h
  · exact h.resize hle (by omega)

theorem lt_capacity_reserve (r : Ring) (first last : Nat) :
    last - first < (r.reserve first last).capacity := by
  unfold reserve
  split
  · omega
  · rw [capacity_resize]; omega

theorem Holds.span_eq {r : Ring} {w : Text} {first last a b : Nat} (h : r.Holds w first last)
    (ha : first ≤ a) (hb : b ≤ last) : r.span a b = (w.drop a).take (b - a) := by
  apply List.ext_getElem?
  intro i
  simp only [span, List.getElem?_map, List.getElem?_take, List.getElem?_drop]
  by_cases hi : i < b - a
  · rw [List.getElem?_range' hi, if_pos hi, h.get_eq (a + i) (by omega) (by omega)]
    simp
  · rw [if_neg hi, List.getElem?_eq_none (by simpa using hi)]
    rfl

end Ring

end Lenient
