import SearchQuery.Formula.Clause
import SearchQuery.Reader.Keyword

/-!
Formulas over any kind of clause. OR binds least, then AND, then NOT; AND may be left out between
two operands if there is space between them and the second is negated.
-/

namespace SearchQuery

variable {C : Type}

/-- Reads a clause, negated by a NOT before it. -/
def Operand.reader (clause : Reader C) : Reader (Operand C) where
  run ts :=
    match Keyword.not.strip? ts with
    | some rest => (clause.run (Token.skipSpace rest)).map (Operand.mk true)
    | none => (clause.run ts).map (Operand.mk false)
  shorter h := by
    split at h
    · next rest hstrip =>
        obtain ⟨c, hclause, _⟩ := Outcome.map_eq_ok_iff.mp h
        have hclause := clause.shorter hclause
        have hspace := Token.length_skipSpace_le rest
        have hstrip := Keyword.length_le_of_strip? hstrip
        omega
    · obtain ⟨c, hclause, _⟩ := Outcome.map_eq_ok_iff.mp h
      exact clause.shorter hclause

/-- Looks for a further operand of a branch, and tells whether AND is written before it. -/
def Link.ahead? (ts : List Token) : Option (Bool × List Token) :=
  match Keyword.and.strip? (Token.skipSpace ts) with
  | some rest => some (true, Token.skipSpace rest)
  | none =>
      if Token.startsWithSpace ts && (Keyword.not.strip? (Token.skipSpace ts)).isSome then
        some (false, Token.skipSpace ts)
      else none

/-- The test for a further operand. -/
def Link.lookahead : Lookahead Bool where
  find? := ahead?
  start_le {ts _ start} h := by
    have hspace := Token.length_skipSpace_le ts
    unfold ahead? at h
    split at h
    · next rest hstrip =>
        cases h
        have hrest := Keyword.length_le_of_strip? hstrip
        have := Token.length_skipSpace_le rest
        omega
    · split at h
      · cases h
        exact hspace
      · cases h

/-- Reads operands joined by AND. -/
def Branch.reader (clause : Reader C) : Reader (Branch C) :=
  ((Operand.reader clause).withMany Link.lookahead fun explicit =>
    (Operand.reader clause).map (Link.mk explicit)).map fun (head, rest) => ⟨head, rest⟩

/-- Looks for a further branch of a formula. -/
def Branch.ahead? (ts : List Token) : Option (Unit × List Token) :=
  (Keyword.or.strip? (Token.skipSpace ts)).map fun rest => ((), Token.skipSpace rest)

/-- The test for a further branch. -/
def Branch.lookahead : Lookahead Unit where
  find? := ahead?
  start_le {ts _ start} h := by
    simp only [ahead?, Option.map_eq_some_iff, Prod.mk.injEq] at h
    obtain ⟨rest, hstrip, _, rfl⟩ := h
    have hspace := Token.length_skipSpace_le ts
    have hrest := Keyword.length_le_of_strip? hstrip
    have := Token.length_skipSpace_le rest
    omega

/-- Reads branches joined by OR. -/
def Formula.reader (clause : Reader C) : Reader (Formula C) :=
  ((Branch.reader clause).withMany Branch.lookahead fun _ =>
    Branch.reader clause).map fun (head, rest) => ⟨head, rest⟩

theorem Token.length_lt_of_enclosing {ts ts₁ ts₂ rest : List Token} (hopen : ts₁.length < ts.length)
    (hinner : ts₂.length < (skipSpace ts₁).length) (hclose : rest.length < (skipSpace ts₂).length) :
    rest.length < ts.length := by
  have h₁ := length_skipSpace_le ts₁
  have h₂ := length_skipSpace_le ts₂
  omega

/-- Reads something in parentheses, with space allowed just inside them. -/
def Reader.enclosed (inner : Reader C) : Reader C where
  run ts :=
    (Token.expect [.leftParen] ts).andThen fun _ ts =>
      (inner.run (Token.skipSpace ts)).andThen fun a ts =>
        (Token.expect [.rightParen] (Token.skipSpace ts)).map fun _ => a
  shorter {ts _ rest} h := by
    simp only [Outcome.andThen_eq_ok_iff, Outcome.map_eq_ok_iff] at h
    obtain ⟨_, ts₁, hopen, _, ts₂, hinner, _, hclose, _⟩ := h
    exact Token.length_lt_of_enclosing (Token.length_lt_of_expect hopen) (inner.shorter hinner)
      (Token.length_lt_of_expect hclose)

namespace Clause

variable {α : Type}

/-- Reads a leaf by one of the choices, or a formula in parentheses. -/
def reader (leaf : List (Choice α)) (nested : Reader (Formula (Clause α))) : Reader (Clause α) :=
  Choice.read (⟨[.leftParen], nested.map .paren⟩ :: leaf.map (Choice.map .leaf))

/-- Reads a formula in parentheses while `room` further parentheses may be opened. The choices of
leaves may depend on how many may still be opened inside. Readers of inner levels are built only
where a text goes so deep. -/
def nestedReader (leaf : Nat → List (Choice α)) : Nat → Reader (Formula (Clause α))
  | 0 => ⟨fun ts => .error (.tooDeep ts), nofun⟩
  | room + 1 =>
      (Formula.reader (reader (leaf room) (.delay fun _ => nestedReader leaf room))).enclosed

end Clause

end SearchQuery
