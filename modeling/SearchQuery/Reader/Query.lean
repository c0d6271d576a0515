import SearchQuery.Query
import SearchQuery.Reader.Term

/-!
Queries: formulas of field clauses.
-/

namespace SearchQuery

open Token (Kind)

/-- Reads a field name and the colon after it. -/
def Field.reader : Reader Field where
  run ts :=
    match (Token.spanKinds nameKinds ts).2 with
    | ⟨.colon, _⟩ :: rest => .ok (⟨(Token.spanKinds nameKinds ts).1⟩, rest)
    | rest => .error (.unexpected rest (nameKinds ++ [.colon]))
  shorter {ts _ _} h := by
    have hle := Token.length_dropWhile_le (fun t => nameKinds.contains t.kind) ts
    split at h
    · next hspan =>
        cases h
        simp only [Token.spanKinds] at hspan
        rw [hspan] at hle
        exact hle
    · cases h

/-- Reads a field clause while `room` further parentheses may be opened. -/
def FieldClause.reader (room : Nat) : Reader FieldClause :=
  Field.reader.andThen (fun field ts => ((Term.reader room).run ts).map (FieldClause.mk field))
    fun h => by
      obtain ⟨_, hterm, _⟩ := Outcome.map_eq_ok_iff.mp h
      exact Nat.le_of_lt ((Term.reader room).shorter hterm)

/-- The one form of leaves in a query. -/
def FieldClause.choices (room : Nat) : List (Choice FieldClause) :=
  [⟨Field.nameKinds, FieldClause.reader room⟩]

/-- Reads a query with at most `limit` open parentheses. -/
def Query.reader (limit : Nat) : Reader Query :=
  Formula.reader
    (Clause.reader (FieldClause.choices limit) (Clause.nestedReader FieldClause.choices limit))

end SearchQuery
