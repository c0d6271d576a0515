import SearchQuery.Halt
import SearchQuery.Text.Slice
import SearchQuery.Token.Splitter

/-!
Splitting a text into tokens. A `Lexer` holds the text and the offset of the first byte that is in
no token yet; its scanners read the text from there and move the offset. All they see of the text
are slices of it.
-/

namespace SearchQuery

open Token (Kind Located)

/-- A text, and the offset in bytes up to which it has been split. -/
structure Lexer where
  input : List Char
  pos : Nat
deriving DecidableEq, Repr, Inhabited

namespace Lexer

/-- What moves a lexer. It is left where it got to also if there is no result. -/
abbrev Action := ExceptT Halt (StateM Lexer)

/-- The result of an action, and the lexer after it. -/
def run {α : Type} (l : Lexer) (a : Action α) : Except Halt α × Lexer :=
  Id.run (StateT.run (ExceptT.run a) l)

/-- A lexer at the start of a text. -/
def ofString (s : String) : Lexer :=
  ⟨s.toList, 0⟩

/-- The lexer some bytes further on. -/
def skip (l : Lexer) (bytes : Nat) : Lexer :=
  { l with pos := l.pos + bytes }

/-! ### Scanners -/

/-- The text from the offset on. -/
def rest : Action (List Char) := do
  let l ← get
  match Text.dropBytes? l.pos l.input with
  | some cs => return cs
  | none => throw (.panic (.boundary l.pos))

/-- The next character. -/
def peek : Action (Option Char) := do
  return (← rest).head?

/-- Moves the offset on. -/
def advance (bytes : Nat) : Action Unit :=
  modify (skip · bytes)

/-- Passes over the characters of a class, and tells how many bytes they take. -/
def takeWhile (inClass : Char → Bool) : Action Nat := do
  let bytes := Text.size ((← rest).takeWhile inClass)
  advance bytes
  return bytes

/-- Passes over unreserved characters, and over pairs of a backslash and the character after it. -/
def passWord : List Char → Action Unit
  | [] => return
  | c :: cs => do
      if c = '\\' then
        match cs with
        | [] => return
        | escaped :: cs =>
            advance (c.utf8Size + escaped.utf8Size)
            passWord cs
      else if Token.isReserved c then return
      else
        advance c.utf8Size
        passWord cs

/-- Passes over a word, and tells how many bytes it takes. -/
def takeWord : Action Nat := do
  let start := (← get).pos
  passWord (← rest)
  return (← get).pos - start

/-- The token from an earlier offset to where the lexer is now. -/
def emit (start : Nat) (kind : Kind) : Action Located := do
  let l ← get
  match Text.slice? start l.pos l.input with
  | some cs => return ⟨start, kind, String.ofList cs⟩
  | none => throw (.panic (.boundary start))

/-- The next token, if the text is not used up. The classes are tried in a fixed order; a word is
looked for last, also where none starts. -/
def nextToken : Action (Option Located) := do
  let start := (← get).pos
  match ← peek with
  | none => return none
  | some c =>
      if Text.isLineEnd c then
        let _ ← takeWhile Text.isLineEnd
        return some (← emit start .lineEnd)
      else if Text.isBlank c then
        let _ ← takeWhile fun d => Text.isBlank d && !Text.isLineEnd d
        return some (← emit start .blank)
      else if c = '<' ∨ c = '>' then
        advance 1
        if (← peek) = some '=' then advance 1
        return some (← emit start .comparison)
      else
        match Token.punctuation? c with
        | some kind =>
            advance 1
            return some (← emit start kind)
        | none =>
            if c.isDigit then
              let _ ← takeWhile Char.isDigit
              return some (← emit start .number)
            else if 0 < (← takeWord) then
              return some (← emit start .word)
            else if c = '\\' then
              advance 1
              return some (← emit start .backslash)
            else throw (.error (.unrecognised start c))

/-- The next element of the sequence of tokens, in which an error is one more element and a missing
token the end. -/
def next : Action (Option (Except Error Located)) :=
  tryCatch (do return (← nextToken).map .ok) fun
    | .error e => return some (.error e)
    | .panic p => throw (.panic p)

section Run

variable {α β : Type} {l m : Lexer}

@[simp]
theorem run_pure (a : α) : l.run (pure a) = (.ok a, l) := rfl

@[simp]
theorem run_throw (h : Halt) : l.run (throw h : Action α) = (.error h, l) := rfl

@[simp]
theorem run_get : l.run get = (.ok l, l) := rfl

@[simp]
theorem run_advance (bytes : Nat) :
    l.run (advance bytes) = (.ok (), l.skip bytes) := rfl

theorem run_bind (a : Action α) (f : α → Action β) :
    l.run (a >>= f) = match l.run a with
      | (.ok x, m) => m.run (f x)
      | (.error h, m) => (.error h, m) := by
  change Id.run (StateT.run (ExceptT.run (a >>= f)) l) = _
  rw [ExceptT.run_bind, StateT.run_bind]
  unfold run
  generalize (ExceptT.run a).run l = called
  obtain ⟨_ | _, _⟩ := called <;> rfl

theorem run_tryCatch (a : Action α) (f : Halt → Action α) :
    l.run (tryCatch a f) = match l.run a with
      | (.ok x, m) => (.ok x, m)
      | (.error h, m) => m.run (f h) := by
  simp only [run, tryCatch, tryCatchThe, MonadExceptOf.tryCatch, ExceptT.tryCatch, ExceptT.run_mk,
    StateT.run_bind]
  change Id.run ((ExceptT.run a).run l >>= _) = _
  generalize (ExceptT.run a).run l = called
  obtain ⟨_ | _, _⟩ := called <;> rfl

theorem run_next : l.run next = match l.run nextToken with
    | (.ok none, m) => (.ok none, m)
    | (.ok (some t), m) => (.ok (some (.ok t)), m)
    | (.error (.error e), m) => (.ok (some (.error e)), m)
    | (.error (.panic p), m) => (.error (.panic p), m) := by
  rw [next, run_tryCatch, run_bind]
  obtain ⟨(e | p) | (_ | t), m⟩ := l.run nextToken <;> rfl

end Run

end Lexer

end SearchQuery
