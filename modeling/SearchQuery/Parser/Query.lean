import SearchQuery.Parser.Term
import SearchQuery.Query

/-!
Reading queries: formulas of field clauses.
-/

namespace SearchQuery

open Token (Kind)

namespace Parser

/-- A field name, a colon and a term. -/
def fieldClause (p : Parser) : Step FieldClause p.left := do
  let name := (p.takeRun Field.nameKinds).1
  let q := (p.takeRun Field.nameKinds).2
  have hname : q.left ≤ p.left := left_takeRun_le Field.nameKinds p
  if q.isAt [.colon] then
    have hcolon := q.left_bump_le
    let ⟨t, r, hr⟩ ← q.bump.2.term
    return ⟨⟨⟨name⟩, t⟩, r, by omega⟩
  else q.reject (Field.nameKinds ++ [.colon])

/-- A clause: a formula in parentheses or a field clause. -/
def clause (p : Parser) : Step (Clause FieldClause) p.left :=
  if p.isAt [.leftParen] then
    (p.enclosed (fun q _ => q.clause) (Nat.le_refl _)).map (Found.map .paren)
  else if p.isAt Field.nameKinds then p.fieldClause.map (Found.map .leaf)
  else p.reject (.leftParen :: Field.nameKinds)
termination_by p.left

end Parser

end SearchQuery
