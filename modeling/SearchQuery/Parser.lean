import SearchQuery.Formula.Clause
import SearchQuery.Keyword
import SearchQuery.Token.Tokenize

/-!
Reading tokens with a cursor. A `Parser` holds the tokens of a text, its place in them, and how many
parentheses are open there. Whatever it reads comes with the parser behind it, and with the evidence
that tokens have been used up, which is what every repetition and every level of nesting ends by.
-/

namespace SearchQuery

open Token (Kind Located)

/-- The number of parentheses that may be open at once, unless told otherwise. -/
def defaultLimit : Nat := 128

/-- The tokens of a text of `size` bytes, the place of the next one among them, and the numbers of
parentheses that are open and that may be. -/
structure Parser where
  tokens : Array Located
  cursor : Nat
  size : Nat
  depth : Nat
  limit : Nat
deriving DecidableEq, Repr

namespace Parser

/-- A parser in front of the first token of a text. -/
def new (s : String) : Except Halt Parser := do
  return ⟨(← Lexer.tokens s).toArray, 0, s.utf8ByteSize, 0, defaultLimit⟩

def withLimit (p : Parser) (limit : Nat) : Parser :=
  { p with limit }

/-- The number of tokens from the cursor on. -/
def left (p : Parser) : Nat :=
  p.tokens.size - p.cursor

/-- Something that has been read, and the parser behind it with fewer than `n` tokens left. -/
structure Found (α : Type) (n : Nat) where
  value : α
  after : Parser
  moved : after.left < n
deriving DecidableEq, Repr

/-- The outcome of reading something in front of which `n - 1` tokens are left at most. -/
abbrev Step (α : Type) (n : Nat) := Except Halt (Found α n)

/-- A way to read something off every parser with fewer than `n` tokens left, which uses up at least
one of them. -/
abbrev Routine (α : Type) (n : Nat) := (p : Parser) → p.left < n → Step α p.left

variable {α β γ C : Type} {n : Nat}

def Found.map (f : α → β) (found : Found α n) : Found β n :=
  { found with value := f found.value }

/-- Goes on with something that need not be there. -/
def Found.with (take : Parser → β × Parser) (left_take_le : ∀ p, (take p).2.left ≤ p.left)
    (f : α → β → γ) (found : Found α n) : Found γ n where
  value := f found.value (take found.after).1
  after := (take found.after).2
  moved := Nat.lt_of_le_of_lt (left_take_le found.after) found.moved

/-! ### The cursor -/

def peek? (p : Parser) : Option Located :=
  p.tokens[p.cursor]?

/-- The kind of a token some places further on. -/
def kindAt? (p : Parser) (places : Nat) : Option Kind :=
  p.tokens[p.cursor + places]?.map fun t => t.token.kind

def kind? (p : Parser) : Option Kind :=
  p.kindAt? 0

/-- The next token is of one of the given kinds. -/
def isAt (p : Parser) (kinds : List Kind) : Bool :=
  p.kind?.any fun k => kinds.contains k

def advance (p : Parser) (places : Nat) : Parser :=
  { p with cursor := p.cursor + places }

def seek (p : Parser) (cursor : Nat) : Parser :=
  { p with cursor }

/-- The next token, if there is one, and the parser behind it. -/
def bump (p : Parser) : Option Token × Parser :=
  match p.peek? with
  | some t => (some t.token, p.advance 1)
  | none => (none, p)

/-- The offset of the next token, or the size of the text behind the last one. -/
def offset (p : Parser) : Nat :=
  (p.peek?.map Located.pos).getD p.size

/-- What is wrong where one of the given kinds has to come next. -/
def unexpected (p : Parser) (expected : List Kind) : Error :=
  match p.peek? with
  | some t => .unexpected t.pos t.token expected
  | none => .unexpectedEnd p.size expected

def reject (p : Parser) (expected : List Kind) : Except Halt α :=
  throw (.error (p.unexpected expected))

theorem left_advance_le (p : Parser) (places : Nat) : (p.advance places).left ≤ p.left := by
  simp only [left, advance]
  omega

theorem left_bump_le (p : Parser) : p.bump.2.left ≤ p.left := by
  unfold bump
  split
  · exact p.left_advance_le 1
  · exact Nat.le_refl _

theorem left_advance_lt {p : Parser} {k : Kind} (h : p.kind? = some k) :
    (p.advance 1).left < p.left := by
  obtain ⟨t, ht, -⟩ := Option.map_eq_some_iff.mp h
  obtain ⟨hlt, -⟩ := Array.getElem?_eq_some_iff.mp ht
  simp only [left, advance]
  omega

theorem bump_of_kind? {p : Parser} {k : Kind} (h : p.kind? = some k) :
    ∃ t, p.bump = (some t, p.advance 1) ∧ t.kind = k := by
  obtain ⟨t, ht, hk⟩ := Option.map_eq_some_iff.mp h
  refine ⟨t.token, ?_, hk⟩
  simp only [bump, peek?, Nat.add_zero] at ht ⊢
  rw [ht]

theorem left_bump_lt {p : Parser} {k : Kind} (h : p.kind? = some k) :
    p.bump.2.left < p.left := by
  obtain ⟨t, ht, -⟩ := bump_of_kind? h
  rw [ht]
  exact left_advance_lt h

theorem exists_kind?_of_isAt {p : Parser} {kinds : List Kind} (h : p.isAt kinds = true) :
    ∃ k, p.kind? = some k ∧ k ∈ kinds := by
  simpa [isAt, Option.any_eq_true] using h

theorem left_bump_lt_of_isAt {p : Parser} {kinds : List Kind} (h : p.isAt kinds = true) :
    p.bump.2.left < p.left := by
  obtain ⟨k, hk, -⟩ := exists_kind?_of_isAt h
  exact left_bump_lt hk

/-! ### Runs of tokens -/

/-- A token of a kind that has to come next. -/
def expect (p : Parser) (kind : Kind) : Step Token p.left :=
  if h : p.isAt [kind] then
    match p.bump.1 with
    | some t => return ⟨t, p.bump.2, left_bump_lt_of_isAt h⟩
    | none => p.reject [kind]
  else p.reject [kind]

/-- The tokens up to the first that is of none of the given kinds. -/
def takeRun (kinds : List Kind) (p : Parser) : List Token × Parser :=
  if h : p.isAt kinds then
    have := left_bump_lt_of_isAt h
    (takeRun kinds p.bump.2).map (p.bump.1.toList ++ ·) id
  else ([], p)
termination_by p.left

/-- The tokens up to the next one of a kind, which is used up as well. -/
def takeDelimited (close : Kind) (p : Parser) : Step (List Token) p.left :=
  match h : p.kind? with
  | some kind =>
      have hbump := left_bump_lt h
      if kind = close then return ⟨[], p.bump.2, hbump⟩
      else do
        let ⟨inner, q, hq⟩ ← takeDelimited close p.bump.2
        return ⟨p.bump.1.toList ++ inner, q, Nat.lt_trans hq hbump⟩
  | none => p.reject [close]
termination_by p.left

def passSpace (p : Parser) : Parser :=
  match h : p.kind? with
  | some kind =>
      have := left_advance_lt h
      if kind.isSpace then passSpace (p.advance 1) else p
  | none => p
termination_by p.left

/-- The number of tokens that are space before the next one that is not, and the parser there. -/
def skipSpace (p : Parser) : Nat × Parser :=
  (p.passSpace.cursor - p.cursor, p.passSpace)

theorem left_skipSpace_le (p : Parser) : p.skipSpace.2.left ≤ p.left := by
  change p.passSpace.left ≤ p.left
  fun_induction passSpace p with
  | case1 p k h hlt _ ih => exact Nat.le_trans ih (Nat.le_of_lt hlt)
  | case2 | case3 => exact Nat.le_refl _

/-- Going back over space restores the parser. -/
@[simp]
theorem seek_skipSpace (p : Parser) : p.skipSpace.2.seek p.cursor = p := by
  have hseek (cursor : Nat) : p.passSpace.seek cursor = p.seek cursor := by
    fun_induction passSpace p with
    | case1 p k h hlt _ ih => exact ih
    | case2 | case3 => rfl
  exact hseek p.cursor

theorem left_takeRun_le (kinds : List Kind) (p : Parser) : (p.takeRun kinds).2.left ≤ p.left := by
  fun_induction takeRun kinds p with
  | case1 p h hlt ih => exact Nat.le_trans ih (Nat.le_of_lt hlt)
  | case2 => exact Nat.le_refl _

/-! ### Keywords -/

/-- The tokens from an index on. -/
def tokensFrom (p : Parser) (start : Nat) : Except Halt (List Located) :=
  if start ≤ p.tokens.size then return p.tokens.toList.drop start
  else throw (.panic (.range start p.tokens.size))

/-- The number of tokens that spell a keyword here, if they do. A word does so only if it stands
alone and something follows that it can apply to: otherwise it is a field name or a literal. -/
def keyword (p : Parser) (k : Keyword) : Except Halt (Option Nat) :=
  match p.peek? with
  | none => return none
  | some t => do
      if t.token.isWord k.words then
        let standsAlone := !(p.kindAt? 1).any fun kind => Keyword.wordContinuations.contains kind
        let next := (← p.tokensFrom (p.cursor + 1)).find? fun t => !t.token.isSpace
        let operandFollows := next.any fun t => t.token.kind != .rightParen
        return if standsAlone && operandFollows then some 1 else none
      else
        let spelled := (List.range k.symbols.length).all fun i => p.kindAt? i == k.symbols[i]?
        return if spelled then some k.symbols.length else none

/-! ### Formulas over any kind of clause -/

/-- An operand: a clause, perhaps with a NOT before it. -/
def operand (clause : Routine C n) : Routine (Operand C) n := fun p hp => do
  match ← p.keyword .not with
  | some length =>
      have hnot := p.left_advance_le length
      have hspace := (p.advance length).left_skipSpace_le
      let ⟨c, q, hq⟩ ← clause (p.advance length).skipSpace.2 (by omega)
      return ⟨⟨true, c⟩, q, by omega⟩
  | none =>
      let ⟨c, q, hq⟩ ← clause p hp
      return ⟨⟨false, c⟩, q, hq⟩

/-- What joins one more operand to a branch: AND, or else space before a NOT. Tells whether AND is
written. If there is nothing of the kind, the parser goes back to where it was. -/
def joint (p : Parser) : Step (Option Bool) (p.left + 1) := do
  let save := p.cursor
  let q := p.skipSpace.2
  have hspace : q.left ≤ p.left := p.left_skipSpace_le
  have hback : q.seek save = p := p.seek_skipSpace
  match ← q.keyword .and with
  | some length =>
      have hand := q.left_advance_le length
      have hspace' := (q.advance length).left_skipSpace_le
      return ⟨some true, (q.advance length).skipSpace.2, by omega⟩
  | none =>
      let negation ← if 0 < p.skipSpace.1 then q.keyword .not else pure none
      if negation.isSome then return ⟨some false, q, by omega⟩
      else return ⟨none, q.seek save, by rw [hback]; omega⟩

/-- What joins one more branch to a formula: OR. If it does not come, the parser goes back to where
it was. -/
def alternative (p : Parser) : Step (Option Unit) (p.left + 1) := do
  let save := p.cursor
  let q := p.skipSpace.2
  have hspace : q.left ≤ p.left := p.left_skipSpace_le
  have hback : q.seek save = p := p.seek_skipSpace
  match ← q.keyword .or with
  | some length =>
      have hor := q.left_advance_le length
      have hspace' := (q.advance length).left_skipSpace_le
      return ⟨some (), (q.advance length).skipSpace.2, by omega⟩
  | none => return ⟨none, q.seek save, by rw [hback]; omega⟩

/-- Items as long as something joins one more to those before. -/
def many (joint : (p : Parser) → Step (Option γ) (p.left + 1)) (item : γ → Routine α n)
    (p : Parser) (hp : p.left < n) : Step (List α) (p.left + 1) := do
  match ← joint p with
  | ⟨none, q, hq⟩ => return ⟨[], q, hq⟩
  | ⟨some g, q, hq⟩ =>
      let ⟨a, r, hr⟩ ← item g q (by omega)
      let ⟨items, s, hs⟩ ← many joint item r (by omega)
      return ⟨a :: items, s, by omega⟩
termination_by p.left

/-- A first item and the further ones that are joined to it. -/
def withMany (first : Routine α n) (joint : (p : Parser) → Step (Option γ) (p.left + 1))
    (item : γ → Routine β n) (f : α → List β → C) : Routine C n := fun p hp => do
  let ⟨a, q, hq⟩ ← first p hp
  let ⟨items, r, hr⟩ ← many joint item q (by omega)
  return ⟨f a items, r, by omega⟩

/-- A further operand of a branch. -/
def link (clause : Routine C n) (explicit : Bool) : Routine (Link C) n := fun p hp =>
  (operand clause p hp).map (Found.map (Link.mk explicit))

/-- Operands joined by AND. -/
def branch (clause : Routine C n) : Routine (Branch C) n :=
  withMany (operand clause) joint (link clause) Branch.mk

/-- Branches joined by OR. -/
def formula (clause : Routine C n) : Routine (Formula C) n :=
  withMany (branch clause) alternative (fun _ => branch clause) Formula.mk

/-! ### Parentheses -/

/-- Counts one more open parenthesis, if there may be one. -/
def enter (p : Parser) : Step Unit (p.left + 1) :=
  if p.limit ≤ p.depth then throw (.error (.tooDeep p.offset p.limit))
  else return ⟨(), { p with depth := p.depth + 1 }, Nat.lt_succ_self _⟩

/-- Counts one open parenthesis less. -/
def leave (p : Parser) : Parser :=
  { p with depth := p.depth - 1 }

/-- A formula between parentheses, with space allowed just inside them. -/
def parenthesized (clause : Routine C n) (p : Parser) (hp : p.left ≤ n) :
    Step (Formula C) p.left := do
  let ⟨_, q, hq⟩ ← p.expect .leftParen
  have hspace := q.left_skipSpace_le
  let ⟨f, r, hr⟩ ← formula clause q.skipSpace.2 (by omega)
  have hspace' := r.left_skipSpace_le
  let ⟨_, s, hs⟩ ← r.skipSpace.2.expect .rightParen
  return ⟨f, s, by omega⟩

/-- A formula in parentheses that count while it is read. -/
def enclosed (clause : Routine C n) (p : Parser) (hp : p.left ≤ n) : Step (Formula C) p.left := do
  let ⟨_, q, hq⟩ ← p.enter
  let ⟨f, r, hr⟩ ← q.parenthesized clause (Nat.le_trans (Nat.le_of_lt_succ hq) hp)
  return ⟨f, r.leave, Nat.lt_of_lt_of_le hr (Nat.le_of_lt_succ hq)⟩

/-- Nothing may be left behind what has been read. -/
def finish (p : Parser) (expected : List Kind) : Except Halt Unit :=
  match p.peek? with
  | some _ => p.reject expected
  | none => return

end Parser

end SearchQuery
