import Lenient.Address
import Lenient.Json.Read
import Lenient.Proofs.Lexeme.Agreement
import Lenient.Query.Read
import Mathlib.Data.List.DropRight

/-! The readers are functions of the unread text. From two states with the same unread text, whatever
else is different in them, each step of a reader is alike, and so is the whole reading. For streams this
says that the capacity of the ring, the text before the cursor, what was fetched already and the marks
that are open change neither the answer nor how far the cursor moves. -/

namespace Lenient

open Cursor Lexeme

variable {σ τ : Type} [Cursor σ] [Cursor τ] {s : σ} {t : τ}

namespace Json

theorem alike_name? (h : unread s = unread t) : Alike (name? s) (name? t) := by
  unfold name?
  rcases hs : literal? backslash .json s with ⟨a, s'⟩
  obtain ⟨t', ht, hr⟩ := (alike_literal? _ _ h).exists_eq hs
  rw [ht]
  cases a with
  | some name => exact ⟨rfl, hr⟩
  | none =>
    have hb : Alike (bareword s') (bareword t') := alike_run _ hr
    simp only [hb.answer]
    split
    · exact ⟨rfl, by simpa using hb.rest⟩
    · exact hb.map some

theorem alike_scalar (h : unread s = unread t) : Alike (scalar s) (scalar t) := by
  unfold scalar
  rcases hs : literal? backslash .json s with ⟨a, s'⟩
  obtain ⟨t', ht, hr⟩ := (alike_literal? _ _ h).exists_eq hs
  rw [ht]
  cases a with
  | some text => exact ⟨rfl, hr⟩
  | none => exact (alike_run _ hr).map scalarOf

theorem alike_content (limit depth : Nat) (h : unread s = unread t) :
    Alike (content limit depth s) (content limit depth t) := by
  have hk : unread (skipSpaces s) = unread (skipSpaces t) := unread_skipWhile_congr isSpace h
  unfold content
  rw [head?_congr hk]
  cases (head? (skipSpaces t)).bind Shape.ofBracket? with
  | none => exact (alike_scalar hk).map _
  | some shape =>
    dsimp only
    split
    · exact ⟨rfl, by simpa using hk⟩
    · exact ⟨rfl, unread_advance_congr hk⟩

theorem alike_propertyContent (limit depth : Nat) (h : unread s = unread t) :
    Alike (propertyContent limit depth s) (propertyContent limit depth t) := by
  unfold propertyContent
  rcases hs : accept ':' s with ⟨a, s'⟩
  obtain ⟨t', ht, hr⟩ := (alike_accept _ h).exists_eq hs
  rw [ht]
  cases a with
  | true => exact alike_content limit depth hr
  | false => exact ⟨rfl, hr⟩

theorem alike_objectStep (limit depth : Nat) (h : unread s = unread t) :
    Alike (objectStep limit depth s) (objectStep limit depth t) := by
  have hk : unread (skipSpaces s) = unread (skipSpaces t) := unread_skipWhile_congr isSpace h
  unfold objectStep
  rw [head?_congr hk]
  cases head? (skipSpaces t) with
  | none => exact ⟨rfl, by simpa using hk⟩
  | some c =>
    dsimp only
    split
    · exact ⟨rfl, unread_advance_congr hk⟩
    · rcases hs : name? (skipSpaces s) with ⟨a, s'⟩
      obtain ⟨t', ht, hr⟩ := (alike_name? hk).exists_eq hs
      rw [ht]
      cases a with
      | none => exact ⟨rfl, hr⟩
      | some name => exact (alike_propertyContent limit depth hr).map _

theorem alike_arrayStep (limit depth : Nat) (h : unread s = unread t) :
    Alike (arrayStep limit depth s) (arrayStep limit depth t) := by
  have hk := unread_skipWhile_congr isFiller h
  unfold arrayStep
  rw [head?_congr hk]
  cases head? (skipWhile isFiller t) with
  | none => exact ⟨rfl, by simpa using hk⟩
  | some c =>
    dsimp only
    split
    · exact ⟨rfl, unread_advance_congr hk⟩
    · split
      · exact ⟨rfl, hk⟩
      · exact (alike_content limit depth hk).map _

theorem alike_step (limit : Nat) (shape : Shape) (slots : List Slot) (h : unread s = unread t) :
    Alike (step limit shape slots s) (step limit shape slots t) := by
  cases shape with
  | object => exact alike_objectStep limit _ h
  | array => exact alike_arrayStep limit _ h

theorem unread_skipComma_congr (h : unread s = unread t) :
    unread (skipComma s) = unread (skipComma t) := by
  have hk : unread (skipSpaces s) = unread (skipSpaces t) := unread_skipWhile_congr isSpace h
  unfold skipComma
  rw [head?_congr hk]
  split
  · exact unread_advance_congr hk
  · exact hk

theorem alike_unwind (shape : Shape) (slots : List Slot) (h : unread s = unread t) :
    Alike (unwind shape slots s) (unwind shape slots t) := by
  induction slots generalizing shape s t with
  | nil => exact ⟨rfl, h⟩
  | cons slot outer ih => exact (ih slot.shape (unread_skipComma_congr h)).onto

theorem alike_events (limit : Nat) (shape : Shape) (slots : List Slot) (h : unread s = unread t) :
    Alike (events limit shape slots s) (events limit shape slots t) := by
  -- the steps are those from `s`; from `t` on the same ones are taken
  fun_induction events limit shape slots s generalizing t with
  | case1 shape s s' hs =>
    obtain ⟨t', ht, hr⟩ := (alike_step _ _ _ h).exists_eq hs
    rw [events_root ht]
    exact ⟨rfl, hr⟩
  | case2 shape s s' slot outer hs ih =>
    obtain ⟨t', ht, hr⟩ := (alike_step _ _ _ h).exists_eq hs
    rw [events_close ht]
    exact (ih (unread_skipComma_congr hr)).onto
  | case3 shape slots s slot s' hs =>
    obtain ⟨t', ht, hr⟩ := (alike_step _ _ _ h).exists_eq hs
    rw [events_tooDeep ht]
    exact (alike_unwind shape slots (unread_skipComma_congr hr)).onto
  | case4 shape slots s slot text s' hs ih =>
    obtain ⟨t', ht, hr⟩ := (alike_step _ _ _ h).exists_eq hs
    rw [events_scalar ht]
    exact (ih (unread_skipComma_congr hr)).onto
  | case5 shape slots s slot inner s' hs ih =>
    obtain ⟨t', ht, hr⟩ := (alike_step _ _ _ h).exists_eq hs
    rw [events_container ht]
    exact (ih hr).onto

theorem alike_read_of_skipGarbage (limit : Nat)
    (h : unread (skipGarbage s) = unread (skipGarbage t)) : Alike (read limit s) (read limit t) := by
  unfold read
  rw [head?_congr h]
  cases head? (skipGarbage t) with
  | none => exact ⟨rfl, by simpa using h⟩
  | some c => exact (alike_events limit .object [] (unread_advance_congr h)).onto

theorem alike_read (limit : Nat) (h : unread s = unread t) : Alike (read limit s) (read limit t) := by
  apply alike_read_of_skipGarbage
  rw [unread_skipGarbage, unread_skipGarbage, h]

theorem alike_read_dropWhile (limit : Nat) (h : unread t = (unread s).dropWhile isGarbage) :
    Alike (read limit s) (read limit t) := by
  apply alike_read_of_skipGarbage
  rw [unread_skipGarbage, unread_skipGarbage, h, List.dropWhile_idempotent]

end Json

namespace Query

theorem alike_token (o : Options) (h : unread s = unread t) : Alike (token o s) (token o t) := by
  unfold token
  rcases hs : literal? o.escape .named s with ⟨a, s'⟩
  obtain ⟨t', ht, hr⟩ := (alike_literal? _ _ h).exists_eq hs
  rw [ht]
  cases a with
  | some text => exact ⟨rfl, hr⟩
  | none => exact (alike_word _ _ hr).map _

theorem alike_openGroup (o : Options) (depth : Nat) (label : Option Text) (h : unread s = unread t) :
    Alike (openGroup o depth label s) (openGroup o depth label t) := by
  unfold openGroup
  split
  · exact ⟨rfl, by simpa using h⟩
  · exact ⟨rfl, unread_advance_congr h⟩

theorem alike_labelled (o : Options) (depth : Nat) (label : Text) (h : unread s = unread t) :
    Alike (labelled o depth label s) (labelled o depth label t) := by
  have hk : unread (skipSpaces s) = unread (skipSpaces t) := unread_skipWhile_congr isSpace h
  unfold labelled
  rw [head?_congr hk]
  split
  · exact alike_openGroup o depth _ hk
  · exact (alike_token o hk).map _

theorem alike_term (o : Options) (depth : Nat) (h : unread s = unread t) :
    Alike (term o depth s) (term o depth t) := by
  have hk := alike_token o h
  unfold term
  rw [hk.answer]
  rcases hs : accept o.delimiter (token o s).2 with ⟨a, s'⟩
  obtain ⟨t', ht, hr⟩ := (alike_accept _ hk.rest).exists_eq hs
  rw [ht]
  cases a with
  | true => exact alike_labelled o depth _ hr
  | false => exact ⟨rfl, hr⟩

theorem alike_step (o : Options) (groups : List (Option Text)) (h : unread s = unread t) :
    Alike (step o groups s) (step o groups t) := by
  have hk : unread (skipSpaces s) = unread (skipSpaces t) := unread_skipWhile_congr isSpace h
  unfold step
  rw [head?_congr hk]
  cases head? (skipSpaces t) with
  | none => exact ⟨rfl, hk⟩
  | some c =>
    dsimp only
    split
    · exact alike_openGroup o _ none hk
    · split
      · exact ⟨rfl, unread_advance_congr hk⟩
      · exact alike_term o _ hk

/-- The readings emit the same events, end for the same reason and leave the same text unread. -/
structure AlikeEvents (x : List Event × Bool × σ) (y : List Event × Bool × τ) : Prop where
  events : x.1 = y.1
  halted : x.2.1 = y.2.1
  rest : unread x.2.2 = unread y.2.2

theorem AlikeEvents.onto {x : List Event × Bool × σ} {y : List Event × Bool × τ}
    (h : AlikeEvents x y) (es : List Event) : AlikeEvents (onto es x) (onto es y) :=
  ⟨by rw [onto_fst, onto_fst, h.events], h.halted, h.rest⟩

theorem alike_events (o : Options) (groups : List (Option Text)) (h : unread s = unread t) :
    AlikeEvents (events o groups s) (events o groups t) := by
  fun_induction events o groups s generalizing t with
  | case1 s s' hs =>
    obtain ⟨t', ht, hr⟩ := (alike_step _ _ h).exists_eq hs
    rw [events_finish ht]
    exact ⟨rfl, rfl, hr⟩
  | case2 s s' label outer hs ih =>
    obtain ⟨t', ht, hr⟩ := (alike_step _ _ h).exists_eq hs
    rw [events_unclosed ht]
    exact (ih (by simpa using hr)).onto _
  | case3 groups s s' hs =>
    obtain ⟨t', ht, hr⟩ := (alike_step _ _ h).exists_eq hs
    rw [unwind_eq, events_halt ht]
    exact ⟨rfl, rfl, hr⟩
  | case4 s s' hs ih =>
    obtain ⟨t', ht, hr⟩ := (alike_step _ _ h).exists_eq hs
    rw [events_unmatched ht]
    exact ih (by simpa using hr)
  | case5 s s' label outer hs ih =>
    obtain ⟨t', ht, hr⟩ := (alike_step _ _ h).exists_eq hs
    rw [events_leave ht]
    exact (ih hr).onto _
  | case6 groups s label s' hs ih =>
    obtain ⟨t', ht, hr⟩ := (alike_step _ _ h).exists_eq hs
    rw [events_enter ht]
    exact (ih hr).onto _
  | case7 groups s es s' hs ih =>
    obtain ⟨t', ht, hr⟩ := (alike_step _ _ h).exists_eq hs
    rw [events_term ht]
    exact (ih hr).onto _

/-- The states behind the first run and behind the whole reading differ by a look at most. -/
theorem unread_read (o : Options) (s : σ) : unread (read o s).2 = unread (events o [] s).2.2 := by
  rcases (read_eq o s).2 with h | h
  · rw [h]
  · rw [h, unread_look]

theorem alike_read (o : Options) (h : unread s = unread t) : Alike (read o s) (read o t) := by
  have he := alike_events o [] h
  constructor
  · rw [(read_eq o s).1, (read_eq o t).1, he.events]
  · rw [unread_read, unread_read, he.rest]

end Query

namespace Address

theorem alike_readName (h : unread s = unread t) : Alike (readName s) (readName t) := by
  unfold readName
  rw [head?_congr h]
  split
  · have hl := alike_literal? backslash .named h
    exact ⟨congrArg (fun x => Text.trim (Option.getD x [])) hl.answer,
      unread_skipWhile_congr isSpace hl.rest⟩
  · exact (alike_run endsName h).map _

theorem alike_readEmail (h : unread s = unread t) : Alike (readEmail s) (readEmail t) := by
  unfold readEmail
  rw [head?_congr h]
  split
  · have hr := alike_run endsEmail (unread_advance_congr h)
    exact ⟨congrArg Text.trim hr.answer, unread_advance_congr hr.rest⟩
  · exact ⟨rfl, by simpa using h⟩

theorem alike_readEntry (h : unread s = unread t) : Alike (readEntry s) (readEntry t) := by
  have hn := alike_readName h
  unfold readEntry
  rw [hn.answer]
  exact (alike_readEmail hn.rest).map _

/-! One equation for each way in which `entries` may go on. -/

section Entries

variable {stop : List Address → Bool} {seen : List Address} {a : Address} {t' : τ}

theorem entries_nil (h : head? (skipWhile isSeparator t) = none) :
    entries stop seen t = (([], false), skipWhile isSeparator t) := by
  rw [entries]; split <;> simp_all

theorem entries_void {c : Char} (h : head? (skipWhile isSeparator t) = some c)
    (he : readEntry (skipWhile isSeparator t) = (a, t')) (hv : a.isVoid = true) :
    entries stop seen t = entries stop seen t' := by
  rw [entries]; split <;> simp_all

theorem entries_stop {c : Char} (h : head? (skipWhile isSeparator t) = some c)
    (he : readEntry (skipWhile isSeparator t) = (a, t')) (hv : ¬ a.isVoid = true)
    (hs : stop (a :: seen) = true) : entries stop seen t = (([a], true), t') := by
  rw [entries]; split <;> simp_all

theorem entries_cons {c : Char} (h : head? (skipWhile isSeparator t) = some c)
    (he : readEntry (skipWhile isSeparator t) = (a, t')) (hv : ¬ a.isVoid = true)
    (hs : ¬ stop (a :: seen) = true) :
    entries stop seen t = (entries stop (a :: seen) t').map (Prod.map (a :: ·) id) id := by
  rw [entries]; split <;> simp_all

end Entries

/-- In front of an entry, both states are, and they read the same one. -/
theorem alike_entry {s' : σ} {c : Char} {a : Address} (h : unread s = unread t)
    (hc : head? (skipWhile isSeparator s) = some c)
    (he : readEntry (skipWhile isSeparator s) = (a, s')) :
    head? (skipWhile isSeparator t) = some c ∧
      ∃ t', readEntry (skipWhile isSeparator t) = (a, t') ∧ unread s' = unread t' := by
  have hk := unread_skipWhile_congr isSeparator h
  exact ⟨(head?_congr hk).symm.trans hc, (alike_readEntry hk).exists_eq he⟩

theorem alike_entries (stop : List Address → Bool) (seen : List Address) (h : unread s = unread t) :
    Alike (entries stop seen s) (entries stop seen t) := by
  fun_induction entries stop seen s generalizing t with
  | case1 seen s hn =>
    have hk := unread_skipWhile_congr isSeparator h
    rw [head?_congr hk] at hn
    rw [entries_nil hn]
    exact ⟨rfl, hk⟩
  | case2 seen s c hc a s' he hv ih =>
    obtain ⟨hc', t', ht, hr⟩ := alike_entry h hc he
    rw [entries_void hc' ht hv]
    exact ih hr
  | case3 seen s c hc a s' he hv hs =>
    obtain ⟨hc', t', ht, hr⟩ := alike_entry h hc he
    rw [entries_stop hc' ht hv hs]
    exact ⟨rfl, hr⟩
  | case4 seen s c hc a s' he hv hs ih =>
    obtain ⟨hc', t', ht, hr⟩ := alike_entry h hc he
    rw [entries_cons hc' ht hv hs]
    exact (ih hr).map _

theorem forward_of_entry {s s' : σ} {a : Address}
    (he : readEntry (skipWhile isSeparator s) = (a, s')) : Forward s s' := by
  have hf := (forward_skipWhile isSeparator s).trans (forward_readEntry _)
  rwa [he] at hf

theorem forward_entries (stop : List Address → Bool) (seen : List Address) (s : σ) :
    Forward s (entries stop seen s).2 := by
  fun_induction entries stop seen s with
  | case1 seen s hn => exact forward_skipWhile _ _
  | case2 seen s c hc a s' he hv ih => exact (forward_of_entry he).trans ih
  | case3 seen s c hc a s' he hv hs => exact forward_of_entry he
  | case4 seen s c hc a s' he hv hs ih => exact (forward_of_entry he).trans ih

end Address

namespace Stream

/-- The reading `x` from the stream `s` answers as `y` does from the start of a text, and moves the
cursor as far. -/
structure AsFresh {α : Type} (s : Stream) (x y : α × Stream) : Prop where
  answer : x.1 = y.1
  offset : x.2.cursor.offset = s.cursor.offset + y.2.cursor.offset

theorem unread_ofText_unread (s : Stream) : Cursor.unread s = Cursor.unread (ofText s.unread) := rfl

theorem asFresh {α : Type} {s : Stream} {x y : α × Stream} (hx : Forward s x.2)
    (hy : Forward (ofText s.unread) y.2) (h : Alike x y) : AsFresh s x y := by
  refine ⟨h.answer, ?_⟩
  have hs := hx.offset_eq
  have ht := hy.offset_eq
  have h0 : (position (ofText s.unread)).offset = 0 := rfl
  rw [remaining, remaining, h.rest] at hs
  rw [remaining, remaining, ← unread_ofText_unread, h0] at ht
  change (position x.2).offset = (position s).offset + (position y.2).offset
  omega

/-- What a reader answers on a stream, and how far it moves the cursor, is what it answers and how far
it moves on a new stream of the unread text. Relaxed JSON is read as it is from the text alone. -/
theorem readers_see_unread_only (s : Stream) (limit : Nat) (o : Query.Options)
    (stop : List Address → Bool) :
    AsFresh s (Json.read limit s) (Json.read limit (ofText s.unread)) ∧
    AsFresh s (Query.read o s) (Query.read o (ofText s.unread)) ∧
    AsFresh s (Address.read stop s) (Address.read stop (ofText s.unread)) ∧
    (Json.read Json.defaultLimit s).1 = (Json.parse s.unread).value := by
  have hu := unread_ofText_unread s
  refine ⟨?_, ?_, ?_, ?_⟩
  · exact asFresh (Json.forward_read _ _) (Json.forward_read _ _) (Json.alike_read limit hu)
  · exact asFresh (Query.forward_read _ _) (Query.forward_read _ _) (Query.alike_read o hu)
  · exact asFresh (Address.forward_entries _ _ _) (Address.forward_entries _ _ _)
      (Address.alike_entries stop [] hu)
  · exact (Json.alike_read_dropWhile (t := ofText (s.unread.dropWhile Json.isGarbage)) _ rfl).answer

end Stream

end Lenient
