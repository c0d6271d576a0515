import SearchQuery.Parse
import SearchQuery.Promotion

/-!
Edits of a query. The query may come to be absent when an edit drops all of it.
-/

namespace SearchQuery

namespace Formula

variable {C : Type}

/-- The branches `head :: rest` with the last one changed. -/
def mapLast (f : Branch C → Branch C) (head : Branch C) : List (Branch C) → Formula C
  | [] => ⟨f head, []⟩
  | b :: bs => ⟨head, (mapLast f b bs).branches⟩

/-- Adds the branches of another formula. -/
def disjoin (e f : Formula C) : Formula C :=
  ⟨e.head, e.rest ++ f.branches⟩

/-- Adds an operand to the last branch. -/
def conjoin (explicit : Bool) (o : Operand C) (e : Formula C) : Formula C :=
  mapLast (fun b => ⟨b.head, b.rest ++ [⟨explicit, o⟩]⟩) e.head e.rest

/-- Negates the first operand, or takes its negation away. -/
def negateHead (e : Formula C) : Formula C :=
  ⟨⟨⟨!e.head.head.negated, e.head.head.clause⟩, e.head.rest⟩, e.rest⟩

end Formula

namespace Query

/-- Replaces or drops the field clauses at every depth. -/
def filterFields (f : FieldClause → Option (Clause FieldClause)) (q : Query) : Option Query :=
  q.filterMap (Clause.filterMap f)

/-- Keeps the field clauses with a property. -/
def keepFields (keep : FieldClause → Bool) (q : Query) : Option Query :=
  q.filterFields fun c => if keep c then some (.leaf c) else none

/-- Puts the promotion of every group in its place, in parentheses. -/
def promoteGroups (q : Query) : Option Query :=
  q.filterFields fun c =>
    match c.term with
    | .group g boost => (Group.promote? c.field boost g).map .paren
    | _ => some (.leaf c)

/-- Drops the parentheses of the outermost level with all that is in them. -/
def dropParens (q : Query) : Option Query :=
  q.filterMap fun
    | .leaf c => some (.leaf c)
    | .paren _ => none

/-- The query in parentheses, negated or not. -/
def enclose (negated : Bool) (q : Query) : Query :=
  Formula.ofOperand ⟨negated, .paren q⟩

end Query

/-- One change to a query. -/
inductive Edit where
  /-- Reads the canonical text again. -/
  | reparse
  /-- Reads a new query from a text. -/
  | parse (text : String)
  | promote
  | dropField (name : String)
  /-- Drops the clauses whose term has all of the flags. -/
  | dropFlags (flags : TermFlags)
  | dropParens
  /-- Adds the branches of the query in the text. -/
  | disjoin (text : String)
  /-- Adds the query in the text, in parentheses, to the last branch. -/
  | conjoin (explicit : Bool) (text : String)
  /-- Puts the query in parentheses, with or without a negation. -/
  | enclose (negated : Bool)
  | negateHead
deriving DecidableEq, Repr

/-- The query after an edit. A text that cannot be read is an error; an edit without a text leaves
an absent query absent, and an edit that adds to an absent query starts from the text. -/
def Edit.apply (q : Option Query) : Edit → Except Error (Option Query)
  | reparse => (Query.parse (Query.renderOption q)).map some
  | parse text => (Query.parse text).map some
  | promote => .ok (q.bind Query.promoteGroups)
  | dropField name => .ok (q.bind (Query.keepFields fun c => c.field.name != name))
  | dropFlags flags => .ok (q.bind (Query.keepFields fun c => !c.term.flags.contains flags))
  | dropParens => .ok (q.bind Query.dropParens)
  | disjoin text => (Query.parse text).map fun r =>
      some ((q.map fun q => q.disjoin r).getD r)
  | conjoin explicit text => (Query.parse text).map fun r =>
      some ((q.map fun q => q.conjoin explicit ⟨false, .paren r⟩).getD r)
  | enclose negated => .ok (q.map (Query.enclose negated))
  | negateHead => .ok (q.map Formula.negateHead)

/-- Reading the canonical text gives back the query; where reading fails, an absent one. -/
def Query.isCanonical (q : Option Query) : Bool :=
  (Query.parse (Query.renderOption q)).toOption = q

end SearchQuery
