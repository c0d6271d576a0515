import SearchQuery.Query
import SearchQuery.Reader.Keyword

/-!
The grammar of queries over token lists. A production relates the tokens in front of a phrase to
its tree and to the tokens behind it; repetitions and optional parts may stop anywhere, so that a
list may have many partial derivations. Only keywords and the longest runs of name and term
tokens look at what follows them.
-/

namespace SearchQuery

open Token (Kind)

/-- `p ts a rest`: the tokens `ts` are a phrase with tree `a`, followed by `rest`. -/
abbrev Production (α : Type) := List Token → α → List Token → Prop

variable {α C : Type}

/-! ### Space and keywords -/

/-- Any amount of space. -/
inductive Spaces : List Token → List Token → Prop where
  | none {ts : List Token} : Spaces ts ts
  | more {t : Token} {ts rest : List Token} :
      t.isSpace = true → Spaces ts rest → Spaces (t :: ts) rest

/-- At least one token of space. -/
inductive SomeSpaces : List Token → List Token → Prop where
  | mk {t : Token} {ts rest : List Token} :
      t.isSpace = true → Spaces ts rest → SomeSpaces (t :: ts) rest

namespace Keyword

/-- The kinds that continue a word right before them, so that it is no keyword. -/
def Continues (k : Kind) : Prop :=
  k ∈ [.word, .number, .dot, .minus, .wildcard, .colon, .tilde, .caret, .backslash]

/-- The tokens start with a keyword. A word is one only if nothing continues it and something
other than a closing parenthesis comes next after space. -/
inductive Stands : Keyword → List Token → List Token → Prop where
  | word {k : Keyword} {t u : Token} {ts rest : List Token} :
      t.kind = .word →
      (k, t.text) ∈ [(and, "AND"), (and, "and"), (or, "OR"), (or, "or"), (not, "NOT"),
        (not, "not")] →
      (∀ v ∈ ts.head?, ¬ Continues v.kind) →
      Spaces ts (u :: rest) → u.isSpace = false → u.kind ≠ .rightParen →
      Stands k (t :: ts) ts
  | ampersands {t u : Token} {rest : List Token} :
      t.kind = .ampersand → u.kind = .ampersand → Stands and (t :: u :: rest) rest
  | bars {t u : Token} {rest : List Token} :
      t.kind = .bar → u.kind = .bar → Stands or (t :: u :: rest) rest
  | bang {t : Token} {rest : List Token} : t.kind = .bang → Stands not (t :: rest) rest

end Keyword

/-! ### Repeated, optional and enclosed phrases -/

/-- Any number of phrases in a row. -/
inductive Many (item : Production α) : Production (List α) where
  | nil {ts : List Token} : Many item ts [] ts
  | cons {ts mid rest : List Token} {a : α} {as : List α} :
      item ts a mid → Many item mid as rest → Many item ts (a :: as) rest

/-- A phrase or nothing. -/
inductive Perhaps (item : Production α) : Production (Option α) where
  | none {ts : List Token} : Perhaps item ts none ts
  | some {ts rest : List Token} {a : α} : item ts a rest → Perhaps item ts (some a) rest

/-- A phrase in parentheses, with space allowed just inside them. -/
inductive Enclosed (item : Production α) : Production α where
  | mk {opening closing : Token} {ts start stop rest : List Token} {a : α} :
      opening.kind = .leftParen → Spaces ts start → item start a stop →
      Spaces stop (closing :: rest) → closing.kind = .rightParen →
      Enclosed item (opening :: ts) a rest

/-- A longest run of tokens of some kinds. -/
inductive Fragments (kinds : List Kind) : Production (List Token) where
  | mk {run rest : List Token} :
      run ≠ [] → (∀ t ∈ run, t.kind ∈ kinds) → (∀ t ∈ rest.head?, t.kind ∉ kinds) →
      Fragments kinds (run ++ rest) run rest

/-- Tokens between two of a kind that is not among them. -/
inductive Delimited (delimiter : Kind) : Production (List Token) where
  | mk {opening closing : Token} {inner rest : List Token} :
      opening.kind = delimiter → (∀ t ∈ inner, t.kind ≠ delimiter) → closing.kind = delimiter →
      Delimited delimiter (opening :: (inner ++ closing :: rest)) inner rest

/-! ### Formulas -/

section Formula

variable (clause : Production C)

/-- A clause after NOT, or a clause where no NOT stands. -/
inductive Operand.Derives : Production (Operand C) where
  | negated {ts mid start rest : List Token} {c : C} :
      Keyword.not.Stands ts mid → Spaces mid start → clause start c rest →
      Operand.Derives ts ⟨true, c⟩ rest
  | plain {ts rest : List Token} {c : C} :
      (∀ mid, ¬ Keyword.not.Stands ts mid) → clause ts c rest →
      Operand.Derives ts ⟨false, c⟩ rest

/-- An operand after AND, or an operand after space that starts with NOT. -/
inductive Link.Derives : Production (Link C) where
  | explicit {ts mid after start rest : List Token} {o : Operand C} :
      Spaces ts mid → Keyword.and.Stands mid after → Spaces after start →
      Operand.Derives clause start o rest → Link.Derives ts ⟨true, o⟩ rest
  | juxtaposed {ts start after rest : List Token} {o : Operand C} :
      SomeSpaces ts start → Keyword.not.Stands start after →
      Operand.Derives clause start o rest → Link.Derives ts ⟨false, o⟩ rest

inductive Branch.Derives : Production (Branch C) where
  | mk {ts mid rest : List Token} {o : Operand C} {ls : List (Link C)} :
      Operand.Derives clause ts o mid → Many (Link.Derives clause) mid ls rest →
      Branch.Derives ts ⟨o, ls⟩ rest

/-- A branch after OR. -/
inductive Branch.DerivesNext : Production (Branch C) where
  | mk {ts mid after start rest : List Token} {b : Branch C} :
      Spaces ts mid → Keyword.or.Stands mid after → Spaces after start →
      Branch.Derives clause start b rest → Branch.DerivesNext ts b rest

inductive Formula.Derives : Production (Formula C) where
  | mk {ts mid rest : List Token} {b : Branch C} {bs : List (Branch C)} :
      Branch.Derives clause ts b mid → Many (Branch.DerivesNext clause) mid bs rest →
      Formula.Derives ts ⟨b, bs⟩ rest

end Formula

/-- A leaf, or a formula of clauses in parentheses. -/
inductive Clause.Derives (leaf : Production α) : List Token → Clause α → List Token → Prop where
  | leaf {ts rest : List Token} {a : α} : leaf ts a rest → Clause.Derives leaf ts (.leaf a) rest
  | paren {ts rest : List Token} {sub : Formula (Clause α)} :
      Enclosed (Formula.Derives (Clause.Derives leaf)) ts sub rest →
      Clause.Derives leaf ts (.paren sub) rest

/-! ### Terms -/

/-- A bare run of term tokens, or a phrase between quotes. -/
inductive Literal.Derives : Production Literal where
  | bare {ts run rest : List Token} :
      Fragments [.word, .number, .dot, .minus, .wildcard] ts run rest →
      Literal.Derives ts (.bare run) rest
  | phrase {ts inner rest : List Token} :
      Delimited .quote ts inner rest → Literal.Derives ts (.phrase inner) rest

/-- One side of a range. A lone star is no literal there. -/
inductive Side.Derives : Production Side where
  | unbounded {ts rest : List Token} :
      Literal.Derives ts (.bare [⟨.wildcard, "*"⟩]) rest → Side.Derives ts .unbounded rest
  | literal {ts rest : List Token} {l : Literal} :
      Literal.Derives ts l rest → l ≠ .bare [⟨.wildcard, "*"⟩] →
      Side.Derives ts (.literal l) rest

/-- Two sides in brackets, with TO and space between them. -/
inductive Interval.Derives : Production Interval where
  | mk {opening between closing : Token} {ts₁ ts₂ ts₃ ts₄ ts₅ ts₆ rest : List Token}
      {left right : Side} {leftClosed rightClosed : Bool} :
      opening.kind = (if leftClosed then .leftBracket else .leftBrace) →
      Spaces ts₁ ts₂ → Side.Derives ts₂ left ts₃ →
      SomeSpaces ts₃ (between :: ts₄) → between.kind = .word → between.text = "TO" →
      SomeSpaces ts₄ ts₅ → Side.Derives ts₅ right ts₆ → Spaces ts₆ (closing :: rest) →
      closing.kind = (if rightClosed then .rightBracket else .rightBrace) →
      Interval.Derives (opening :: ts₁) ⟨leftClosed, left, right, rightClosed⟩ rest

inductive Range.Derives : Production Range where
  | comparison {t : Token} {ts rest : List Token} {op : Comparison} {value : Side} :
      t.kind = .comparison → t.text = op.symbol → Side.Derives ts value rest →
      Range.Derives (t :: ts) (.comparison op value) rest
  | interval {ts rest : List Token} {i : Interval} :
      Interval.Derives ts i rest → Range.Derives ts (.interval i) rest

/-- A caret, perhaps with a number or a decimal fraction. -/
inductive Boost.Derives : Production Boost where
  | bare {caret : Token} {rest : List Token} :
      caret.kind = .caret → Boost.Derives (caret :: rest) ⟨none⟩ rest
  | whole {caret n : Token} {rest : List Token} :
      caret.kind = .caret → n.kind = .number →
      Boost.Derives (caret :: n :: rest) ⟨some n.text⟩ rest
  | fraction {caret n dot m : Token} {rest : List Token} :
      caret.kind = .caret → n.kind = .number → dot.kind = .dot → m.kind = .number →
      Boost.Derives (caret :: n :: dot :: m :: rest) ⟨some (n.text ++ "." ++ m.text)⟩ rest

/-- A tilde, perhaps with a number. -/
inductive Fuzzy.Derives : Production Fuzzy where
  | bare {tilde : Token} {rest : List Token} :
      tilde.kind = .tilde → Fuzzy.Derives (tilde :: rest) ⟨none⟩ rest
  | distance {tilde n : Token} {rest : List Token} :
      tilde.kind = .tilde → n.kind = .number →
      Fuzzy.Derives (tilde :: n :: rest) ⟨some n.text⟩ rest

inductive Suffix.Derives : Production Suffix where
  | fuzzy {ts rest : List Token} {f : Fuzzy} :
      Fuzzy.Derives ts f rest → Suffix.Derives ts (.fuzzy f) rest
  | boost {ts rest : List Token} {b : Boost} :
      Boost.Derives ts b rest → Suffix.Derives ts (.boost b) rest

inductive Element.Derives : Production Element where
  | literal {ts rest : List Token} {l : Literal} :
      Literal.Derives ts l rest → Element.Derives ts (.literal l) rest
  | range {ts rest : List Token} {r : Range} :
      Range.Derives ts r rest → Element.Derives ts (.range r) rest

/-- A regular expression, a literal with its suffix, or a range or a group with its weight. -/
inductive Term.Derives : Production Term where
  | regexp {ts inner rest : List Token} :
      Delimited .slash ts inner rest → Term.Derives ts (.regexp inner) rest
  | literal {ts mid rest : List Token} {l : Literal} {suffix : Option Suffix} :
      Literal.Derives ts l mid → Perhaps Suffix.Derives mid suffix rest →
      Term.Derives ts (.literal l suffix) rest
  | range {ts mid rest : List Token} {r : Range} {boost : Option Boost} :
      Range.Derives ts r mid → Perhaps Boost.Derives mid boost rest →
      Term.Derives ts (.range r boost) rest
  | group {ts mid rest : List Token} {g : Group} {boost : Option Boost} :
      Enclosed (Formula.Derives (Clause.Derives Element.Derives)) ts g mid →
      Perhaps Boost.Derives mid boost rest → Term.Derives ts (.group g boost) rest

/-! ### Queries -/

/-- A field name, a colon and a term. -/
inductive FieldClause.Derives : Production FieldClause where
  | mk {ts name mid rest : List Token} {colon : Token} {term : Term} :
      Fragments [.word, .number, .dot, .minus] ts name (colon :: mid) → colon.kind = .colon →
      Term.Derives mid term rest → FieldClause.Derives ts ⟨⟨name⟩, term⟩ rest

/-- Nothing but the phrase, and space around it. -/
def Whole (item : Production α) (ts : List Token) (a : α) : Prop :=
  ∃ start stop, Spaces ts start ∧ item start a stop ∧ Spaces stop []

/-- The token list is a query. -/
def Query.Derives (ts : List Token) (q : Query) : Prop :=
  Whole (Formula.Derives (Clause.Derives FieldClause.Derives)) ts q

end SearchQuery
