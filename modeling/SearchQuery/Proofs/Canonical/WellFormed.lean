import SearchQuery.Parse
import SearchQuery.Proofs.Token.Segmentation

/-!
Trees that their canonical texts stand for. Most of the conditions are on the tokens of one leaf:
they have to be what the lexer would find in the leaf's own text. Two are on the shape of
formulas: a juxtaposed operand has to be negated, and in a group a literal spelled like NOT has to
come last, where nothing is left for a NOT to apply to.
-/

namespace SearchQuery

open Token (Kind SplitsInto)

/-! ### Leaves -/

/-- A run of tokens of some kinds that its own text splits into. -/
structure Token.WellFormedRun (kinds : List Kind) (ts : List Token) : Prop where
  nonempty : ts ≠ []
  kinds : ∀ t ∈ ts, t.kind ∈ kinds
  splits : SplitsInto (join ts) ts

/-- Tokens without a delimiter that their text splits into between two delimiters. -/
structure Token.WellFormedBetween (delimiter : Token) (ts : List Token) : Prop where
  undelimited : ∀ t ∈ ts, t.kind ≠ delimiter.kind
  splits : SplitsInto (delimiter.text ++ join ts ++ delimiter.text)
    (delimiter :: ts ++ [delimiter])

def Literal.WellFormed : Literal → Prop
  | .bare ts => Token.WellFormedRun [.word, .number, .dot, .minus, .wildcard] ts
  | .phrase ts => Token.WellFormedBetween ⟨.quote, "\""⟩ ts

/-- A lone star is not a literal here: it leaves the side unbounded. -/
def Side.WellFormed : Side → Prop
  | .unbounded => True
  | .literal l => l.WellFormed ∧ l ≠ .bare [⟨.wildcard, "*"⟩]

def Range.WellFormed : Range → Prop
  | .comparison _ value => value.WellFormed
  | .interval i => i.left.WellFormed ∧ i.right.WellFormed

/-- One or more ASCII digits. -/
def IsDigits (s : String) : Prop :=
  s ≠ "" ∧ ∀ c ∈ s.toList, c.isDigit = true

/-- The magnitude is missing, whole, or a whole and a fraction. -/
def Boost.WellFormed (b : Boost) : Prop :=
  ∀ m ∈ b.magnitude, IsDigits m ∨ ∃ n f, m = n ++ "." ++ f ∧ IsDigits n ∧ IsDigits f

def Fuzzy.WellFormed (f : Fuzzy) : Prop :=
  ∀ d ∈ f.distance, IsDigits d

def Suffix.WellFormed : Suffix → Prop
  | .fuzzy f => f.WellFormed
  | .boost b => b.WellFormed

def Element.WellFormed : Element → Prop
  | .literal l => l.WellFormed
  | .range r => r.WellFormed

/-! ### Formulas -/

section Formula

variable {α C : Type}

/-- Operands that stand next to the one before them without AND are negated. -/
def Branch.JuxtaposesNegated (b : Branch C) : Prop :=
  ∀ l ∈ b.rest, l.explicit = false → l.operand.negated = true

def Formula.JuxtaposesNegated (e : Formula C) : Prop :=
  ∀ b ∈ e.branches, b.JuxtaposesNegated

/-- Of the operands without NOT only the last one may have such a clause. -/
def Formula.LastOnly (p : C → Prop) (e : Formula C) : Prop :=
  ∀ before o after, e.operands = before ++ o :: after → o.negated = false → p o.clause →
    after = []

/-- Every leaf of the clause and every formula in it, level by level, is well-formed. -/
inductive Clause.WellFormed (leaf : α → Prop) (level : Formula (Clause α) → Prop) :
    Clause α → Prop where
  | leaf {a : α} : leaf a → Clause.WellFormed leaf level (.leaf a)
  | paren {sub : Formula (Clause α)} :
      level sub → (∀ c ∈ sub.clauses, Clause.WellFormed leaf level c) →
      Clause.WellFormed leaf level (.paren sub)

end Formula

/-- A literal that is the one word NOT. -/
def Clause.IsBareNot (c : Clause Element) : Prop :=
  c = .leaf (.literal (.bare [⟨.word, "NOT"⟩])) ∨ c = .leaf (.literal (.bare [⟨.word, "not"⟩]))

/-- One level of parentheses in a group. -/
structure Group.Level (g : Group) : Prop where
  juxtaposed : g.JuxtaposesNegated
  not_last : g.LastOnly Clause.IsBareNot

/-! ### Terms and queries -/

def Term.WellFormed : Term → Prop
  | .regexp ts => Token.WellFormedBetween ⟨.slash, "/"⟩ ts
  | .literal l suffix => l.WellFormed ∧ ∀ s ∈ suffix, s.WellFormed
  | .range r boost => r.WellFormed ∧ ∀ b ∈ boost, b.WellFormed
  | .group g boost =>
      (Clause.paren g).WellFormed Element.WellFormed Group.Level ∧ ∀ b ∈ boost, b.WellFormed

structure FieldClause.WellFormed (c : FieldClause) : Prop where
  field : Token.WellFormedRun [.word, .number, .dot, .minus] c.field.tokens
  term : c.term.WellFormed

/-- The queries that can be read back from their text. -/
structure Query.WellFormed (q : Query) : Prop where
  depth_le : q.depth ≤ defaultLimit
  juxtaposed : Formula.JuxtaposesNegated q
  clauses : ∀ c ∈ Formula.clauses q,
    c.WellFormed FieldClause.WellFormed Formula.JuxtaposesNegated

end SearchQuery
