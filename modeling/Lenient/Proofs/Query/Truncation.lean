import Lenient.Proofs.Query.Nesting
import Lenient.Proofs.Reader.Bracketing

/-! The limit on nested groups cuts a reading off and changes nothing else. Two readers with different
limits take the same steps, whatever the delimiter and the escape are, up to the first group that one of
them may not open. It may stand alone or behind a label that has been read already; either way nothing
but the ends of what is open follows. -/

namespace Lenient.Query

open Cursor Lexeme Bracketed

/-- Groups are levels, and so is the whole query. -/
instance : Bracketed Event where
  turn
    | .beginQuery => .opens .endQuery
    | .beginGroup label => .opens (.endGroup label)
    | .endQuery | .endGroup _ => .closes
    | .token _ _ => .stays
  closesLevel _ := true

section Events

variable (label : Option Text)

@[simp] theorem turn_opening : turn (Event.opening label) = .opens (Event.closing label) := by
  cases label <;> rfl

@[simp] theorem turn_closing : turn (Event.closing label) = .closes := by cases label <;> rfl

theorem opens_opening : Opens (Event.opening label) := ⟨_, turn_opening label, rfl⟩

theorem not_opens_closing : ¬ Opens (Event.closing label) := by
  rintro ⟨ending, h, -⟩
  rw [turn_closing] at h
  cases h

theorem not_opens_token (value : Option Text) : ¬ Opens (Event.token label value) := by
  rintro ⟨ending, h, -⟩
  cases h

end Events

/-- The events leave open a query and in it groups with the labels `groups`, innermost first, and have
opened nothing that is nested deeper than `cap`. -/
structure LeavesOpen (cap : Nat) (groups : List (Option Text)) (es : List Event) : Prop where
  unclosed_eq : unclosed es = groups.map Event.closing ++ [.endQuery]
  within : NestsWithin cap es

section LeavesOpen

variable {cap : Nat} {groups : List (Option Text)} {label : Option Text} {es : List Event}

theorem leavesOpen_query (h : 1 ≤ cap) : LeavesOpen cap [] [.beginQuery] :=
  ⟨rfl, (nestsWithin_nil cap).concat h⟩

theorem LeavesOpen.depth_eq (h : LeavesOpen cap groups es) : depth es = groups.length + 1 := by
  have hall : ∀ e ∈ groups.map Event.closing ++ [.endQuery], closesLevel e = true := fun _ _ => rfl
  rw [depth, h.unclosed_eq, List.countP_eq_length.2 hall]
  simp

theorem LeavesOpen.enter (h : LeavesOpen cap groups es) (hd : groups.length + 2 ≤ cap) :
    LeavesOpen cap (label :: groups) (es ++ [Event.opening label]) := by
  constructor
  · rw [unclosed_concat, turn_opening, h.unclosed_eq]
    rfl
  · apply h.within.concat
    rw [h.depth_eq]
    exact hd

theorem LeavesOpen.leave (h : LeavesOpen cap (label :: groups) es) :
    LeavesOpen cap groups (es ++ [Event.closing label]) := by
  constructor
  · rw [unclosed_concat, turn_closing, h.unclosed_eq]
    rfl
  · exact h.within.append (by simpa using not_opens_closing label)

theorem LeavesOpen.token (h : LeavesOpen cap groups es) (value : Option Text) :
    LeavesOpen cap groups (es ++ [.token label value]) := by
  constructor
  · rw [unclosed_concat, h.unclosed_eq]
    rfl
  · exact h.within.append (by simpa using not_opens_token label value)

theorem LeavesOpen.term {σ : Type} [Cursor σ] {o : Options} {s t : σ} {ts : List Event}
    (h : LeavesOpen cap groups es) (hs : step o groups s = (.term ts, t)) :
    LeavesOpen cap groups (es ++ ts) := by
  rcases fits_of_step hs with rfl | ⟨label, value, rfl⟩
  · rwa [List.append_nil]
  · exact h.token _

/-- The ends of what is open close it all. -/
theorem LeavesOpen.within_close (h : LeavesOpen cap groups es) :
    NestsWithin cap (es ++ groups.map Event.closing ++ [.endQuery]) := by
  rw [List.append_assoc]
  apply h.within.append
  intro e he
  rcases List.mem_append.1 he with he | he
  · obtain ⟨label, -, rfl⟩ := List.mem_map.1 he
    exact not_opens_closing label
  · rw [List.mem_singleton.1 he]
    exact not_opens_closing none

end LeavesOpen

variable {σ : Type}

/-- Behind the events `es`, the reading `x` emits what the reading `y` does and nests nothing deeper than
`cap`, or it cuts `y` off in front of a group. -/
def Truncates (cap : Nat) (es : List Event) (x y : List Event × Bool × σ) : Prop :=
  NestsWithin cap (es ++ y.1 ++ [.endQuery]) ∧ x.1 = y.1 ∨
  ∃ before label after, CutBefore cap [] (es ++ y.1 ++ [.endQuery]) before (Event.opening label) after
    (es ++ x.1 ++ [.endQuery])

theorem Truncates.onto {cap : Nat} {es fs : List Event} {x y : List Event × Bool × σ}
    (h : Truncates cap (es ++ fs) x y) : Truncates cap es (onto fs x) (onto fs y) := by
  unfold Truncates at h ⊢
  rw [onto_fst, onto_fst, ← List.append_assoc, ← List.append_assoc]
  rcases h with ⟨hw, he⟩ | hcut
  · exact Or.inl ⟨hw, by rw [he]⟩
  · exact Or.inr hcut

variable [Cursor σ]

/-- Inside `depth` groups, the step `x` under the limit `limit` is the step `y`, or it stops in front of
the group that `y` opens. -/
inductive CurbedStep (limit depth : Nat) : Step × σ → Step × σ → Prop
  | same (x : Step × σ) (entered : x.1 ≠ .halt) : CurbedStep limit depth x x
  | stopped {label : Option Text} {t u : σ} (reached : limit ≤ depth) :
    CurbedStep limit depth (.halt, u) (.enter label, t)

section Curbed

variable {limit depth : Nat} {o : Options}

/-- As long as the limit of `o` is not reached, a lower one matters only where a group opens. -/
theorem curbed_openGroup (label : Option Text) (s : σ) (hm : depth < o.limit) :
    CurbedStep limit depth (openGroup { o with limit := limit } depth label s)
      (openGroup o depth label s) := by
  unfold openGroup
  rw [if_neg (Nat.not_le_of_lt hm)]
  split
  · next hl => exact .stopped hl
  · exact .same _ (by simp)

theorem curbed_labelled (label : Text) (s : σ) (hm : depth < o.limit) :
    CurbedStep limit depth (labelled { o with limit := limit } depth label s)
      (labelled o depth label s) := by
  unfold labelled
  split
  · exact curbed_openGroup _ _ hm
  · exact .same _ (by simp)

theorem curbed_term (s : σ) (hm : depth < o.limit) :
    CurbedStep limit depth (term { o with limit := limit } depth s) (term o depth s) := by
  have htoken : token { o with limit := limit } s = token o s := rfl
  unfold term
  rw [htoken]
  rcases accept o.delimiter (token o s).2 with ⟨found, t⟩
  cases found with
  | true => exact curbed_labelled _ _ hm
  | false => exact .same _ (by simp)

theorem curbed_step (limit : Nat) {o : Options} {groups : List (Option Text)} (s : σ)
    (hm : groups.length < o.limit) :
    CurbedStep limit groups.length (step { o with limit := limit } groups s) (step o groups s) := by
  unfold step
  split
  · exact .same _ (by simp)
  · split
    · exact curbed_openGroup _ _ hm
    · split
      · exact .same _ (by simp)
      · exact curbed_term _ hm

theorem step_eq_of_step {groups : List (Option Text)} {s t : σ} {r : Step} (limit : Nat)
    (h : step o groups s = (r, t)) (hm : groups.length < o.limit) (hr : ∀ label, r ≠ .enter label) :
    step { o with limit := limit } groups s = (r, t) := by
  have hc := curbed_step limit s hm
  rw [h] at hc
  generalize step { o with limit := limit } groups s = x at hc
  cases hc with
  | same => rfl
  | stopped reached => exact absurd rfl (hr _)

/-- A step that opens a group opens it under every limit, or stops in front of it. -/
theorem step_enter_cases {groups : List (Option Text)} {label : Option Text} {s t : σ} (limit : Nat)
    (h : step o groups s = (.enter label, t)) (hm : groups.length < o.limit) :
    step { o with limit := limit } groups s = (.enter label, t) ∨
    ∃ u, step { o with limit := limit } groups s = (.halt, u) ∧ limit ≤ groups.length := by
  have hc := curbed_step limit s hm
  rw [h] at hc
  generalize step { o with limit := limit } groups s = x at hc
  cases hc with
  | same => exact Or.inl rfl
  | stopped reached => exact Or.inr ⟨_, rfl, reached⟩

end Curbed

theorem truncates_events {limit : Nat} {o : Options} {groups : List (Option Text)} {s : σ}
    {es : List Event} (hm : ∀ n, Nests (es ++ (events o groups s).1) (n + 1) → n < o.limit)
    (hd : groups.length < o.limit) (hi : LeavesOpen (limit + 1) groups es) (hc : groups.length ≤ limit) :
    Truncates (limit + 1) es (events { o with limit := limit } groups s) (events o groups s) := by
  -- the steps are those under the limit of `o`, which is never reached; the reading under `limit` takes
  -- the same ones until it is inside as many groups as it may open
  fun_induction events o groups s generalizing es with
  | case1 s t h =>
    rw [events_finish (step_eq_of_step limit h hd (by simp))]
    exact Or.inl ⟨hi.within_close, rfl⟩
  | case2 s t label outer h ih =>
    rw [events_unclosed (step_eq_of_step limit h hd (by simp))]
    rw [onto_fst, ← List.append_assoc] at hm
    simp only [List.length_cons] at hd hc
    exact (ih hm (by omega) hi.leave (by omega)).onto
  | case3 groups s t h =>
    have hreached : o.limit ≤ groups.length := (fits_of_step h).1
    omega
  | case4 s t h ih =>
    rw [events_unmatched (step_eq_of_step limit h hd (by simp))]
    exact ih hm hd hi hc
  | case5 s t label outer h ih =>
    rw [events_leave (step_eq_of_step limit h hd (by simp))]
    rw [onto_fst, ← List.append_assoc] at hm
    simp only [List.length_cons] at hd hc
    exact (ih hm (by omega) hi.leave (by omega)).onto
  | case6 groups s label t h ih =>
    rcases step_enter_cases limit h hd with hx | ⟨u, hx, hreached⟩
    · have hlt : groups.length < limit := fits_of_step hx
      have hnests := nests_of_opens es (opens_opening label) (events o (label :: groups) t).1
      rw [events_enter hx]
      rw [hi.depth_eq] at hnests
      have hdeep := hm _ hnests
      rw [onto_fst, ← List.append_assoc] at hm
      exact (ih hm hdeep (hi.enter (by omega)) hlt).onto
    · rw [events_halt hx]
      refine Or.inr ⟨es, label, (events o (label :: groups) t).1 ++ [.endQuery], ?_⟩
      refine ⟨by simp, opens_opening label, ?_, hi.within, ?_⟩
      · rw [hi.depth_eq, Nat.le_antisymm hc hreached]
      · rw [hi.unclosed_eq]
        simp
  | case7 groups s ts t h ih =>
    rw [events_term (step_eq_of_step limit h hd (by simp))]
    rw [onto_fst, ← List.append_assoc] at hm
    exact (ih hm hd (hi.term h) hc).onto

/-- A group is nested no deeper than there are characters to open it and what is around it. -/
theorem nestsWithin_events {cap : Nat} {o : Options} {groups : List (Option Text)} {s : σ}
    {es : List Event} (hi : LeavesOpen cap groups es) (hc : groups.length + 1 + remaining s ≤ cap) :
    NestsWithin cap (es ++ (events o groups s).1 ++ [.endQuery]) := by
  fun_induction events o groups s generalizing es with
  | case1 s t h => exact hi.within_close
  | case2 s t label outer h ih =>
    have hle := ((forward_of_step h).trans (forward_note (.groupsUnclosed (outer.length + 1)) t)).le
    simp only [List.length_cons] at hc
    rw [onto_fst, ← List.append_assoc]
    exact ih hi.leave (by omega)
  | case3 groups s t h =>
    rw [unwind_eq]
    exact hi.within_close
  | case4 s t h ih =>
    have hle := ((forward_of_step h).trans (forward_note (.groupUnmatched (position t)) t)).le
    exact ih hi (by omega)
  | case5 s t label outer h ih =>
    have hle := (forward_of_step h).le
    simp only [List.length_cons] at hc
    rw [onto_fst, ← List.append_assoc]
    exact ih hi.leave (by omega)
  | case6 groups s label t h ih =>
    have hlt := remaining_lt_of_step h (by simp) (by simp)
    rw [onto_fst, ← List.append_assoc]
    exact ih (hi.enter (by omega)) (by simp only [List.length_cons]; omega)
  | case7 groups s ts t h ih =>
    have hle := (forward_of_step h).le
    rw [onto_fst, ← List.append_assoc]
    exact ih (hi.term h) (by omega)

theorem nestsWithin_read (o : Options) (s : σ) : NestsWithin ((unread s).length + 1) (read o s).1 := by
  rw [(read_eq o s).1]
  exact nestsWithin_events (leavesOpen_query (Nat.le_add_left 1 _)) (by simp [remaining, Nat.add_comm])

theorem truncates_read {o : Options} {m : Nat} {s : σ}
    (hm : ∀ n, Nests (read { o with limit := m } s).1 (n + 1) → n < m) :
    Truncates (o.limit + 1) [.beginQuery] (events o [] s) (events { o with limit := m } [] s) := by
  rw [(read_eq _ s).1] at hm
  have hroot : 0 < m := hm 0 (nests_of_opens [] (opens_opening none) _)
  exact truncates_events (o := { o with limit := m }) (fun n hn => hm n hn.append) hroot
    (leavesOpen_query (Nat.le_add_left 1 _)) (Nat.zero_le _)

/-- The limit cuts a reading off and does nothing else. Let `m` be a limit that is larger than the number of
groups that are open at once in what is read with it, as every limit beyond the length of the text is. The
query itself is one level around the groups. If no more groups are open at once than the limit of `o`
allows, the events are the same. Otherwise they end in front of the first group that is one too many, with
or without a label, and only the ends of what is open follow. -/
theorem limit_cuts_query_off (o : Options) (s : σ) :
    (∀ m, (unread s).length < m → ∀ n, Nests (read { o with limit := m } s).1 (n + 1) → n < m) ∧
    ∀ m, (∀ n, Nests (read { o with limit := m } s).1 (n + 1) → n < m) →
      (NestsWithin (o.limit + 1) (read { o with limit := m } s).1 →
        (read o s).1 = (read { o with limit := m } s).1) ∧
      (¬ NestsWithin (o.limit + 1) (read { o with limit := m } s).1 →
        ∃ before label after, CutBefore (o.limit + 1) [] (read { o with limit := m } s).1 before
          (Event.opening label) after (read o s).1) := by
  constructor
  · intro m hlen n hn
    have hle := nestsWithin_read { o with limit := m } s _ hn
    omega
  · intro m hm
    have ht := truncates_read hm
    rw [(read_eq o s).1, (read_eq { o with limit := m } s).1]
    rcases ht with ⟨hw, he⟩ | ⟨before, label, after, hcut⟩
    · exact ⟨fun _ => by rw [he], fun hn => absurd hw hn⟩
    · exact ⟨fun hw => absurd hw hcut.not_nestsWithin, fun _ => ⟨before, label, after, hcut⟩⟩

/-- A group in a group, with a label and blanks in front of it. -/
def groupedText : Text := ['a', ' ', '(', 'b', ' ', '=', ' ', '(', 'c', ')', ' ', 'd']

theorem limit_cuts_groupedText_off :
    (∀ n, Nests (read { limit := 13 } (Stream.ofText groupedText)).1 (n + 1) → n < 13) ∧
    ¬ NestsWithin 2 (read { limit := 13 } (Stream.ofText groupedText)).1 ∧
    ∃ before label after, CutBefore 2 [] (read { limit := 13 } (Stream.ofText groupedText)).1 before
      (Event.opening label) after (read { limit := 1 } (Stream.ofText groupedText)).1 := by
  have hm := (limit_cuts_query_off { limit := 1 } (Stream.ofText groupedText)).1 13 (by decide)
  have hdeep : ¬ NestsWithin 2 (read { limit := 13 } (Stream.ofText groupedText)).1 := by
    have hread : (read { limit := 13 } (Stream.ofText groupedText)).1 =
        [.beginQuery, .token none ['a'], .beginQuery] ++
        .beginGroup ['b'] :: [.token none ['c'], .endGroup ['b'], .token none ['d'], .endQuery,
          .endQuery] := by
      decide +kernel
    rw [hread]
    intro hw
    exact absurd (hw 3 (nests_of_opens _ (opens_opening (some ['b'])) _)) (by decide)
  exact ⟨hm, hdeep, ((limit_cuts_query_off { limit := 1 } (Stream.ofText groupedText)).2 13 hm).2 hdeep⟩

end Lenient.Query
