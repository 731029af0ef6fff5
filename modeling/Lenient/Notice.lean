import Lenient.Position
import Lenient.Text.Quoted

/-! What the library reports about its own work. A notice names a cause; its wording and its level
are functions of the cause, so a reader of this file sees every message there is. -/

namespace Lenient

/-- How much a notice matters: `debug` for repairs of the input, `trace` for routine steps. -/
inductive Level
  | debug
  | trace
  deriving Repr, DecidableEq

inductive Fate
  | commit
  | rewind
  deriving Repr, DecidableEq

inductive Notice
  | markOpened (count : Nat) (start : Position)
  | markClosed (start : Position) (fate : Fate) (cursor : Position)
  | ringGrown (old new first last : Nat)
  | sourceExhausted (taken : Nat)
  | literalUnterminated (cursor : Position)
  | garbageSkipped (cursor : Position)
  | objectMissing
  | objectUnclosed
  | arrayUnclosed
  | nameMissing (cursor : Position)
  | nestingTooDeep (limit : Nat) (cursor : Position)
  | groupsUnclosed (count : Nat)
  | groupUnmatched (cursor : Position)
  | groupsTooDeep (limit : Nat) (cursor : Position)
  | propertyUnset (name : Text)
  | messagesLoaded (count : Nat) (locale : Text)
  | messageMissing (key locale : Text)
  deriving Repr, DecidableEq

def Fate.word : Fate → String
  | commit => "commit"
  | rewind => "rewind"

namespace Notice

def level : Notice → Level
  | markOpened .. | markClosed .. | ringGrown .. | sourceExhausted .. | propertyUnset .. => .trace
  | _ => .debug

def message : Notice → String
  | markOpened n p => s!"mark #{n} opened at {p}"
  | markClosed p fate q => s!"mark at {p} closed ({fate.word}) with cursor at {q}"
  | ringGrown old new first last => s!"buffer grown {old} -> {new} (retaining {first}..{last})"
  | sourceExhausted n => s!"source exhausted after {n} characters"
  | literalUnterminated p => s!"unterminated quoted literal at {p}"
  | garbageSkipped p => s!"skipped leading garbage up to {p}"
  | objectMissing => "no object found"
  | objectUnclosed => "input ends inside an object"
  | arrayUnclosed => "input ends inside an array"
  | nameMissing p => s!"no property name at {p}, closing object"
  | nestingTooDeep limit p => s!"nesting deeper than {limit} at {p}, stopping"
  | groupsUnclosed n => s!"{n} unclosed group(s) at end of query"
  | groupUnmatched p => s!"skipping unmatched ')' at {p}"
  | groupsTooDeep limit p => s!"groups nested deeper than {limit} at {p}, stopping"
  | propertyUnset name => s!"property `{String.ofList name}` closed without a value"
  | messagesLoaded n locale => s!"loaded {n} message(s) for locale {String.ofList locale}"
  | messageMissing key locale =>
    s!"no message for {String.ofList key.quoted} in {String.ofList locale}"

end Notice

/-- A value with the notices made on the way to it, first one first. -/
structure Noted (α : Type) where
  value : α
  notices : List Notice := []

end Lenient
