import SearchQuery.Reader.Formula
import SearchQuery.Reader.Range
import SearchQuery.Term

/-!
Terms and the elements of their groups. Only literals take a tilde, and only single terms take
suffixes: an element of a group has none.
-/

namespace SearchQuery

/-- The forms of elements. -/
def Element.choices : List (Choice Element) :=
  ⟨[.quote], Literal.phraseReader.map .literal⟩ ::
    Range.choices.map (Choice.map .range) ++
    [⟨Literal.bareKinds, Literal.bareReader.map .literal⟩]

/-- Reads a group while `room` further parentheses may be opened. -/
def Group.reader (room : Nat) : Reader Group :=
  Clause.nestedReader (fun _ => Element.choices) room

namespace Term

def literalReader (r : Reader Literal) : Reader Term :=
  r.withSuffix.map fun (l, suffix) => .literal l suffix

def rangeReader (r : Reader Range) : Reader Term :=
  r.withBoost.map fun (x, boost) => .range x boost

def groupReader (room : Nat) : Reader Term :=
  (Group.reader room).withBoost.map fun (g, boost) => .group g boost

/-- Reads a term while `room` further parentheses may be opened. -/
def reader (room : Nat) : Reader Term :=
  Choice.read
    (⟨[.slash], (Reader.between .slash).map .regexp⟩ ::
      ⟨[.quote], literalReader Literal.phraseReader⟩ ::
      Range.choices.map (fun c => ⟨c.starts, rangeReader c.reader⟩) ++
      [⟨[.leftParen], .delay fun _ => groupReader room⟩,
        ⟨Literal.bareKinds, literalReader Literal.bareReader⟩])

end Term

end SearchQuery
