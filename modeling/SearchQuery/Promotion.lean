import SearchQuery.Query

/-!
Promotion of groups. A group under a field says the same as a query in which the field, and the
weight of the group, stand at every element.
-/

namespace SearchQuery

/-- The clause of a single element, or nothing if the field has no name. -/
def Element.promote? (field : Field) (boost : Option Boost) (e : Element) : Option FieldClause :=
  if field.isEmpty then none
  else
    match e with
    | literal l => some ⟨field, .literal l (boost.map .boost)⟩
    | range r => some ⟨field, .range r boost⟩

/-- The query that a group under a field stands for. -/
def Group.promote? (field : Field) (boost : Option Boost) (g : Group) : Option Query :=
  g.filterMap (Clause.filterMap fun e => (e.promote? field boost).map .leaf)

/-- Promotion of a group with its weight, where both the field and the group may be missing. -/
def Query.ofGroup? (field : Option Field) (group : Option (Group × Option Boost)) :
    Option Query := do
  let field ← field
  let (g, boost) ← group
  Group.promote? field boost g

end SearchQuery
