import SearchQuery.Proofs.Grammar.Query

/-!
Where phrases break off. A breach relates the tokens in front of a phrase to the fault at which
reading it has to stop: everything up to the tokens left over is the start of such a phrase, and
the next token continues none. Breaches follow the productions of the grammar, with one way to
break for every place where a production asks for something.
-/

namespace SearchQuery

open Token (Kind)

/-- `b ts fault`: the tokens `ts` start a phrase that breaks off with `fault`. -/
abbrev Breach := List Token → Fault → Prop

variable {α C : Type}

/-! ### Formulas -/

/-- Where the clause of an operand starts: after NOT and space, or at once if no NOT stands. -/
inductive Operand.Opens : List Token → List Token → Prop where
  | negated {ts mid start : List Token} :
      Keyword.not.Stands ts mid → Spaces mid start → Operand.Opens ts start
  | plain {ts : List Token} : (∀ mid, ¬ Keyword.not.Stands ts mid) → Operand.Opens ts ts

/-- Where an operand after another one starts: after AND or OR, or after space if it starts with
NOT. -/
inductive Operand.Joins : List Token → List Token → Prop where
  | keyword {k : Keyword} {ts mid after start : List Token} :
      k ≠ .not → Spaces ts mid → k.Stands mid after → Spaces after start → Operand.Joins ts start
  | juxtaposed {ts start after : List Token} :
      SomeSpaces ts start → Keyword.not.Stands start after → Operand.Joins ts start

/-- Where the operands of a formula start, whatever branch they are in. -/
inductive Formula.Reaches (clause : Production C) (ts : List Token) : List Token → Prop where
  | first : Formula.Reaches clause ts ts
  | next {start mid start' : List Token} {o : Operand C} :
      Formula.Reaches clause ts start → Operand.Derives clause start o mid →
      Operand.Joins mid start' → Formula.Reaches clause ts start'

theorem Operand.Opens.suffix {operand clause : List Token} (h : Operand.Opens operand clause) :
    clause <:+ operand := by
  cases h with
  | negated hnot hspaces => exact hspaces.suffix.trans hnot.suffix
  | plain _ => exact List.suffix_refl _

theorem Operand.Joins.suffix {ts start : List Token} (h : Operand.Joins ts start) :
    start <:+ ts := by
  cases h with
  | keyword _ hspaces hstands hspaces' =>
      exact hspaces'.suffix.trans (hstands.suffix.trans hspaces.suffix)
  | juxtaposed hspaces _ => exact hspaces.spaces.suffix

theorem Formula.Reaches.suffix {p : Production C} {ts operand : List Token}
    (hp : ∀ {ts c rest}, p ts c rest → rest <:+ ts) (h : Formula.Reaches p ts operand) :
    operand <:+ ts := by
  induction h with
  | first => exact List.suffix_refl _
  | next _ ho hjoins ih => exact hjoins.suffix.trans ((ho.suffix hp).trans ih)

/-- A clause with a bound on its depth. -/
def Clause.Within (leaf : Production α) (depth : α → Nat) (room : Nat) : Production (Clause α) :=
  fun ts c rest => Clause.Derives leaf ts c rest ∧ c.depth depth ≤ room

/-- Nothing that starts a clause, a leaf that breaks off, a parenthesis too many, or a formula in
parentheses that breaks off or is not closed. -/
inductive Clause.Breaks (leaf : Production α) (depth : α → Nat) (starts : List Kind)
    (leafBreaks : Nat → Breach) : Nat → Breach where
  | start {room : Nat} {ts : List Token} :
      Token.startsWith (.leftParen :: starts) ts = false →
      Clause.Breaks leaf depth starts leafBreaks room ts (.unexpected ts (.leftParen :: starts))
  | leaf {room : Nat} {ts : List Token} {fault : Fault} :
      leafBreaks room ts fault → Clause.Breaks leaf depth starts leafBreaks room ts fault
  | tooDeep {ts : List Token} :
      Token.startsWith [.leftParen] ts = true →
      Clause.Breaks leaf depth starts leafBreaks 0 ts (.tooDeep ts)
  | inside {room : Nat} {opening : Token} {ts start operand clause : List Token} {fault : Fault} :
      opening.kind = .leftParen → Spaces ts start →
      Formula.Reaches (Clause.Within leaf depth room) start operand →
      Operand.Opens operand clause →
      Clause.Breaks leaf depth starts leafBreaks room clause fault →
      Clause.Breaks leaf depth starts leafBreaks (room + 1) (opening :: ts) fault
  | unclosed {room : Nat} {opening : Token} {ts start stop rest : List Token}
      {e : Formula (Clause α)} :
      opening.kind = .leftParen → Spaces ts start →
      Formula.Derives (Clause.Within leaf depth room) start e stop → Spaces stop rest →
      Token.startsWith [.rightParen] rest = false →
      Clause.Breaks leaf depth starts leafBreaks (room + 1) (opening :: ts)
        (.unexpected rest [.rightParen])

/-! ### Terms -/

/-- A delimiter that is not closed. -/
inductive Delimited.Breaks (delimiter : Kind) : Breach where
  | mk {opening : Token} {inner : List Token} :
      opening.kind = delimiter → (∀ t ∈ inner, t.kind ≠ delimiter) →
      Delimited.Breaks delimiter (opening :: inner) (.unexpected [] [delimiter])

/-- Nothing that starts a literal, or a phrase that is not closed. -/
inductive Side.Breaks : Breach where
  | start {ts : List Token} :
      Token.startsWith (.quote :: Literal.bareKinds) ts = false →
      Side.Breaks ts (.unexpected ts (.quote :: Literal.bareKinds))
  | phrase {ts : List Token} {fault : Fault} :
      Delimited.Breaks .quote ts fault → Side.Breaks ts fault

namespace Interval

/-- The right side of an interval, and the bracket after it. -/
inductive Right : List Token → List Token → Prop where
  | mk {ts mid rest : List Token} {closing : Token} {right : Side} :
      Side.Derives ts right mid → Spaces mid (closing :: rest) →
      closing.kind ∈ [.rightBracket, .rightBrace] → Right ts rest

/-- The word TO, space, and what is on its right. -/
inductive To : List Token → List Token → Prop where
  | mk {between : Token} {ts start rest : List Token} :
      between.kind = .word → between.text = "TO" → SomeSpaces ts start → Right start rest →
      To (between :: ts) rest

/-- The left side of an interval, space, and what comes after it. -/
inductive Left : List Token → List Token → Prop where
  | mk {ts mid start rest : List Token} {left : Side} :
      Side.Derives ts left mid → SomeSpaces mid start → To start rest → Left ts rest

/-- An interval is an opening bracket, space, and its two sides. -/
theorem exists_derives_iff {ts rest : List Token} :
    (∃ i, Interval.Derives ts i rest) ↔ ∃ opening us start, ts = opening :: us ∧
      opening.kind ∈ [.leftBracket, .leftBrace] ∧ Spaces us start ∧ Left start rest := by
  have hbracket : ∀ (t : Token) (k l : Kind),
      t.kind ∈ [k, l] ↔ ∃ closed : Bool, t.kind = if closed then k else l := by
    intro t k l
    simp [or_comm]
  constructor
  · intro h
    obtain ⟨i, hopening, hspaces₁, hleft, hspaces₂, hto, htext, hspaces₃, hright, hspaces₄,
      hclosing⟩ := h
    refine ⟨_, _, _, rfl, (hbracket _ _ _).mpr ⟨_, hopening⟩, hspaces₁, .mk hleft hspaces₂ ?_⟩
    exact .mk hto htext hspaces₃ (.mk hright hspaces₄ ((hbracket _ _ _).mpr ⟨_, hclosing⟩))
  · intro h
    obtain ⟨opening, us, start, rfl, hopening, hspaces₁, hleft, hspaces₂, hto, htext, hspaces₃,
      hright, hspaces₄, hclosing⟩ := h
    obtain ⟨leftClosed, hopening⟩ := (hbracket _ _ _).mp hopening
    obtain ⟨rightClosed, hclosing⟩ := (hbracket _ _ _).mp hclosing
    exact ⟨_, .mk hopening hspaces₁ hleft hspaces₂ hto htext hspaces₃ hright hspaces₄ hclosing⟩

inductive RightBreaks : Breach where
  | side {ts : List Token} {fault : Fault} : Side.Breaks ts fault → RightBreaks ts fault
  | closing {ts mid rest : List Token} {right : Side} :
      Side.Derives ts right mid → Spaces mid rest →
      Token.startsWith [.rightBracket, .rightBrace] rest = false →
      RightBreaks ts (.unexpected rest [.rightBracket, .rightBrace])

inductive ToBreaks : Breach where
  | word {ts : List Token} :
      (∀ t ∈ ts.head?, t.isWord ["TO"] = false) → ToBreaks ts (.unexpected ts [.word])
  | space {between : Token} {ts : List Token} :
      between.kind = .word → between.text = "TO" → Token.startsWithSpace ts = false →
      ToBreaks (between :: ts) (.unexpected ts [.blank])
  | right {between : Token} {ts start : List Token} {fault : Fault} :
      between.kind = .word → between.text = "TO" → SomeSpaces ts start →
      RightBreaks start fault → ToBreaks (between :: ts) fault

inductive LeftBreaks : Breach where
  | side {ts : List Token} {fault : Fault} : Side.Breaks ts fault → LeftBreaks ts fault
  | space {ts mid : List Token} {left : Side} :
      Side.Derives ts left mid → Token.startsWithSpace mid = false →
      LeftBreaks ts (.unexpected mid [.blank])
  | next {ts mid start : List Token} {left : Side} {fault : Fault} :
      Side.Derives ts left mid → SomeSpaces mid start → ToBreaks start fault →
      LeftBreaks ts fault

/-- An opening bracket with sides that break off. -/
inductive Breaks : Breach where
  | mk {opening : Token} {ts start : List Token} {fault : Fault} :
      opening.kind ∈ [.leftBracket, .leftBrace] → Spaces ts start → LeftBreaks start fault →
      Breaks (opening :: ts) fault

end Interval

inductive Range.Breaks : Breach where
  | comparison {t : Token} {ts : List Token} {op : Comparison} {fault : Fault} :
      t.kind = .comparison → t.text = op.symbol → Side.Breaks ts fault →
      Range.Breaks (t :: ts) fault
  | unknown {t : Token} {ts : List Token} :
      t.kind = .comparison → Comparison.ofSymbol? t.text = none →
      Range.Breaks (t :: ts) (.badComparison (t :: ts))
  | interval {ts : List Token} {fault : Fault} : Interval.Breaks ts fault → Range.Breaks ts fault

inductive Element.Breaks : Breach where
  | phrase {ts : List Token} {fault : Fault} :
      Delimited.Breaks .quote ts fault → Element.Breaks ts fault
  | range {ts : List Token} {fault : Fault} : Range.Breaks ts fault → Element.Breaks ts fault

/-- The kinds of tokens that elements start with. -/
def Element.starts : List Kind :=
  [.quote, .comparison, .leftBracket, .leftBrace] ++ Literal.bareKinds

/-- A clause of a group that breaks off. -/
abbrev Group.Breaks : Nat → Breach :=
  Clause.Breaks Element.Derives (fun _ => 0) Element.starts fun _ => Element.Breaks

/-- The kinds of tokens that terms start with. -/
def Term.starts : List Kind :=
  [.slash, .quote, .comparison, .leftBracket, .leftBrace, .leftParen] ++ Literal.bareKinds

/-- Nothing that starts a term, a regular expression that is not closed, or an element or a group
that breaks off. -/
inductive Term.Breaks (room : Nat) : Breach where
  | start {ts : List Token} :
      Token.startsWith Term.starts ts = false → Term.Breaks room ts (.unexpected ts Term.starts)
  | regexp {ts : List Token} {fault : Fault} :
      Delimited.Breaks .slash ts fault → Term.Breaks room ts fault
  | group {ts : List Token} {fault : Fault} : Group.Breaks room ts fault → Term.Breaks room ts fault

/-! ### Queries -/

/-- A field name without a colon, or one with a term that breaks off. -/
inductive FieldClause.Breaks (room : Nat) : Breach where
  | colon {ts name rest : List Token} :
      Fragments Field.nameKinds ts name rest → (∀ t ∈ rest.head?, t.kind ≠ .colon) →
      FieldClause.Breaks room ts (.unexpected rest (Field.nameKinds ++ [.colon]))
  | term {ts name mid : List Token} {colon : Token} {fault : Fault} :
      Fragments Field.nameKinds ts name (colon :: mid) → colon.kind = .colon →
      Term.Breaks room mid fault → FieldClause.Breaks room ts fault

/-- A clause of a query that breaks off. -/
abbrev Query.Breaks : Nat → Breach :=
  Clause.Breaks FieldClause.Derives (fun c => c.term.depth) Field.nameKinds FieldClause.Breaks

end SearchQuery
