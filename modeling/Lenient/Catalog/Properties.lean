import Lenient.Text.Quoted

/-! Message files. A line holds a key and a value around its first equals sign; blank lines and
lines that start with a number sign or an exclamation mark are comments. -/

namespace Lenient.Properties

/-- Why a message file cannot be read, with the number of the first bad line. -/
inductive LineError
  | malformed (line : Nat) (text : Text)
  | emptyKey (line : Nat)
  deriving Repr, DecidableEq

def LineError.message : LineError → String
  | malformed n text => s!"line {n}: expected `key = value`, found {String.ofList text.quoted}"
  | emptyKey n => s!"line {n}: empty message key"

structure Entry where
  key : Text
  value : Text
  deriving Repr, DecidableEq

def isComment (t : Text) : Bool := t.isEmpty || t.head? == some '\x23' || t.head? == some '!'

def notEquals (c : Char) : Bool := c != '='

def entry? (n : Nat) (line : Text) : Except LineError (Option Entry) :=
  let t := line.trim
  if isComment t then .ok none
  else if !t.contains '=' then .error (.malformed n line)
  else
    let key := Text.trim (t.takeWhile notEquals)
    if key.isEmpty then .error (.emptyKey n)
    else .ok (some ⟨key, Text.trim (t.dropWhile notEquals).tail⟩)

def entriesFrom (n : Nat) : List Text → Except LineError (List Entry)
  | [] => .ok []
  | line :: rest =>
    match entry? n line with
    | .error e => .error e
    | .ok none => entriesFrom (n + 1) rest
    | .ok (some e) => (entriesFrom (n + 1) rest).map (e :: ·)

def entries (t : Text) : Except LineError (List Entry) := entriesFrom 1 t.lines

end Lenient.Properties
