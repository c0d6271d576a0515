import SearchQuery.Error
import SearchQuery.Text.Blank
import SearchQuery.Token

/-!
Splitting characters into tokens. `lex?` cuts one token off the front and fails only on a character
that starts none; a `Splitter` repeats it and keeps count of the bytes behind it. What a lexer finds
by offsets of its text is told by the splitter that has the same characters left.
-/

namespace SearchQuery

namespace Token

/-- A character that ends a word unless a backslash stands before it. -/
def isReserved (c : Char) : Bool :=
  Text.isBlank c || c.isDigit ||
    [':', '&', '|', '?', '*', '\\', '^', '~', '(', ')', '!', '[', ']', '\x7b', '\x7d', '+', '-',
      '/', '>', '<', '=', '"', '.'].contains c

/-- The kind of a character that is a token by itself. -/
def punctuation? (c : Char) : Option Kind :=
  if c = '.' then some .dot
  else if c = '"' then some .quote
  else if c = '/' then some .slash
  else if c = ':' then some .colon
  else if c = '+' then some .plus
  else if c = '-' then some .minus
  else if c = '~' then some .tilde
  else if c = '^' then some .caret
  else if c = '*' ∨ c = '?' then some .wildcard
  else if c = '(' then some .leftParen
  else if c = ')' then some .rightParen
  else if c = '[' then some .leftBracket
  else if c = ']' then some .rightBracket
  else if c = '\x7b' then some .leftBrace
  else if c = '\x7d' then some .rightBrace
  else if c = '&' then some .ampersand
  else if c = '|' then some .bar
  else if c = '!' then some .bang
  else none

/-- Splits off the longest word: unreserved characters, and pairs of a backslash and the
character after it. A backslash at the very end belongs to no word. -/
def splitWord : List Char → List Char × List Char
  | [] => ([], [])
  | c :: cs =>
      if c = '\\' then
        match cs with
        | [] => ([], [c])
        | escaped :: cs => (splitWord cs).map (c :: escaped :: ·) id
      else if isReserved c then ([], c :: cs)
      else (splitWord cs).map (c :: ·) id

theorem splitWord_append (cs : List Char) : (splitWord cs).1 ++ (splitWord cs).2 = cs := by
  fun_induction splitWord cs <;> simp_all

/-- A token of the given characters, and what follows them. -/
def cut (kind : Kind) (chars rest : List Char) : Token × List Char :=
  (⟨kind, String.ofList chars⟩, rest)

/-- The longest run of characters in a class, as a token. -/
def cutRun (kind : Kind) (inClass : Char → Bool) (cs : List Char) : Token × List Char :=
  cut kind (cs.takeWhile inClass) (cs.dropWhile inClass)

/-- Cuts the first token off `c :: cs`. The classes are tried in a fixed order; only a character
that is in none of them yields nothing. -/
def lex? (c : Char) (cs : List Char) : Option (Token × List Char) :=
  if Text.isLineEnd c then some (cutRun .lineEnd Text.isLineEnd (c :: cs))
  else if Text.isBlank c then
    some (cutRun .blank (fun d => Text.isBlank d && !Text.isLineEnd d) (c :: cs))
  else if c = '<' ∨ c = '>' then
    match cs with
    | '=' :: cs => some (cut .comparison [c, '='] cs)
    | _ => some (cut .comparison [c] cs)
  else
    match punctuation? c with
    | some kind => some (cut kind [c] cs)
    | none =>
        if c.isDigit then some (cutRun .number Char.isDigit (c :: cs))
        else
          match splitWord (c :: cs) with
          | ([], _) => if c = '\\' then some (cut .backslash [c] cs) else none
          | (chars, rest) => some (cut .word chars rest)

@[simp]
theorem text_cut (kind : Kind) (chars rest : List Char) :
    (cut kind chars rest).1.text.toList = chars := by
  simp [cut]

@[simp]
theorem rest_cut (kind : Kind) (chars rest : List Char) : (cut kind chars rest).2 = rest := rfl

theorem cutRun_append (kind : Kind) (inClass : Char → Bool) (cs : List Char) :
    (cutRun kind inClass cs).1.text.toList ++ (cutRun kind inClass cs).2 = cs := by
  simp [cutRun, List.takeWhile_append_dropWhile]

theorem cutRun_ne_nil {kind : Kind} {inClass : Char → Bool} {c : Char} {cs : List Char}
    (h : inClass c = true) : (cutRun kind inClass (c :: cs)).1.text.toList ≠ [] := by
  simp [cutRun, h]

/-- A token and what follows it make up the text, and the token is not empty. -/
theorem lex?_eq_some_imp {c : Char} {cs rest : List Char} {t : Token}
    (h : lex? c cs = some (t, rest)) : t.text.toList ++ rest = c :: cs ∧ t.text.toList ≠ [] := by
  unfold lex? at h
  split at h
  · next hc =>
      cases h
      exact ⟨cutRun_append .., cutRun_ne_nil hc⟩
  · next hend =>
      split at h
      · next hc =>
          cases h
          exact ⟨cutRun_append .., cutRun_ne_nil (by simp [hc, hend])⟩
      · split at h
        · split at h <;> cases h <;> simp
        · split at h
          · cases h; simp
          · split at h
            · next hc =>
                cases h
                exact ⟨cutRun_append .., cutRun_ne_nil hc⟩
            · have happ := splitWord_append (c :: cs)
              split at h
              · split at h <;> cases h
                simp
              · next chars tail hne heq =>
                  cases h
                  rw [heq] at happ
                  refine ⟨by simpa using happ, ?_⟩
                  simpa using hne

theorem length_lt_of_lex?_eq_some {c : Char} {cs rest : List Char} {t : Token}
    (h : lex? c cs = some (t, rest)) : rest.length < (c :: cs).length := by
  obtain ⟨happ, hne⟩ := lex?_eq_some_imp h
  have hpos : 0 < t.text.toList.length := List.length_pos_iff.mpr hne
  rw [← happ, List.length_append]
  omega

end Token

/-- A text being split into tokens: what is left of it, and the offset of what is left. -/
structure Splitter where
  rest : List Char
  pos : Nat
deriving DecidableEq, Repr, Inhabited

namespace Splitter

/-- A splitter at the start of a text. -/
def ofString (s : String) : Splitter :=
  ⟨s.toList, 0⟩

/-- What a splitter finds at its position. -/
inductive Step where
  /-- The text is used up. -/
  | done
  /-- A token, and the splitter behind it. -/
  | token (t : Token.Located) (after : Splitter)
  /-- A character that starts no token; the splitter stays where it is. -/
  | stuck (e : Error)
deriving DecidableEq, Repr

/-- The reason why a step yields no token, unless that is the end of the text. -/
def Step.error? : Step → Option Error
  | stuck e => some e
  | _ => none

/-- Reads the next token. -/
def step (l : Splitter) : Step :=
  match l.rest with
  | [] => .done
  | c :: cs =>
      match Token.lex? c cs with
      | some (t, rest) => .token ⟨l.pos, t⟩ ⟨rest, l.pos + t.text.utf8ByteSize⟩
      | none => .stuck (.unrecognised l.pos c)

theorem length_lt_of_step_eq_token {l after : Splitter} {t : Token.Located}
    (h : l.step = .token t after) : after.rest.length < l.rest.length := by
  unfold step at h
  split at h
  · cases h
  · next c cs hrest =>
      split at h
      · next t rest hlex =>
          cases h
          rw [hrest]
          exact Token.length_lt_of_lex?_eq_some hlex
      · cases h

/-- A splitter run to its end: the tokens found, the splitter where it stopped, and why it stopped
if that is not the end of the text. -/
structure Run where
  tokens : List Token.Located
  stop : Splitter
  error? : Option Error
deriving DecidableEq, Repr

/-- The run that finds a token first. -/
def Run.cons (t : Token.Located) (r : Run) : Run :=
  { r with tokens := t :: r.tokens }

/-- Reads tokens until the text is used up or no token starts. -/
def run (l : Splitter) : Run :=
  match h : l.step with
  | .token t after =>
      have := length_lt_of_step_eq_token h
      (run after).cons t
  | stop => ⟨[], l, stop.error?⟩
termination_by l.rest.length

/-- The outcome of a run: its tokens, unless it stopped early. -/
def Run.result (r : Run) : Except Error (List Token.Located) :=
  match r.error? with
  | none => .ok r.tokens
  | some e => .error e

end Splitter

end SearchQuery
