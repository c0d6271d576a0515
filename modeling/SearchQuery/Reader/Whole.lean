import SearchQuery.Reader.Query
import SearchQuery.Token.Tokenize

/-!
Readers for whole texts.
-/

namespace SearchQuery

open Token (Kind)

variable {α : Type}

/-- Reads a whole token list, with space allowed at both ends. Where tokens are left over, the
kinds in `after` were expected instead. -/
def Reader.runWhole (r : Reader α) (after : List Kind) (ts : List Token) : Except Fault α :=
  match r.run (Token.skipSpace ts) with
  | .error fault => .error fault
  | .ok (a, rest) =>
      match Token.skipSpace rest with
      | [] => .ok a
      | rest => .error (.unexpected rest after)

/-- Reads a whole text. The text is split into tokens to its end before any of them is read. -/
def Reader.parse (r : Reader α) (after : List Kind) (limit : Nat) (s : String) : Except Error α :=
  match tokenize s with
  | .error e => .error e
  | .ok located =>
      match r.runWhole after (located.map Token.Located.token) with
      | .error fault => .error (fault.toError s.utf8ByteSize limit)
      | .ok a => .ok a

end SearchQuery
