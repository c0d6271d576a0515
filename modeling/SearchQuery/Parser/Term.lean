import SearchQuery.Parser
import SearchQuery.Term

/-!
Reading terms. Only literals take a tilde, and only single terms take suffixes: an element of a
group has none.
-/

namespace SearchQuery

open Token (Kind)

namespace Parser

/-! ### Literals and suffixes -/

/-- The kinds that a term may start with. -/
def termKinds : List Kind :=
  [.slash, .quote, .comparison, .leftBracket, .leftBrace, .leftParen] ++ Literal.bareKinds

/-- The kinds that an element of a group, or a group inside it, may start with. -/
def elementKinds : List Kind :=
  [.leftParen, .quote, .comparison, .leftBracket, .leftBrace] ++ Literal.bareKinds

/-- The kinds that a side of a range may start with. -/
def sideKinds : List Kind :=
  .quote :: Literal.bareKinds

theorem left_takeRun_lt {kinds : List Kind} {p : Parser} (h : (p.takeRun kinds).1 ≠ []) :
    (p.takeRun kinds).2.left < p.left := by
  rw [takeRun] at h ⊢
  split at h
  · next hat =>
      rw [dif_pos hat]
      exact Nat.lt_of_le_of_lt (left_takeRun_le kinds p.bump.2) (left_bump_lt_of_isAt hat)
  · exact absurd rfl h

/-- The longest bare literal. -/
def bare (p : Parser) : Step Literal p.left :=
  if h : (p.takeRun Literal.bareKinds).1 = [] then
    (p.takeRun Literal.bareKinds).2.reject Literal.bareKinds
  else
    return ⟨.bare (p.takeRun Literal.bareKinds).1, (p.takeRun Literal.bareKinds).2,
      left_takeRun_lt h⟩

/-- The tokens between two tokens of one kind. -/
def between (delimiter : Kind) (p : Parser) : Step (List Token) p.left := do
  let ⟨_, q, hq⟩ ← p.expect delimiter
  let ⟨inner, r, hr⟩ ← q.takeDelimited delimiter
  return ⟨inner, r, Nat.lt_trans hr hq⟩

def phrase (p : Parser) : Step Literal p.left :=
  (p.between .quote).map (Found.map .phrase)

/-- A tilde and the distance after it. -/
def fuzzySuffix (p : Parser) : Fuzzy × Parser :=
  let q := p.bump.2
  if q.isAt [.number] then (⟨q.bump.1.map Token.text⟩, q.bump.2) else (⟨none⟩, q)

/-- A caret and the magnitude after it: a number, and the fraction of a number if digits follow its
point. -/
def boostSuffix (p : Parser) : Boost × Parser :=
  let q := p.bump.2
  if q.isAt [.number] then
    let whole := (q.bump.1.map Token.text).getD ""
    let r := q.bump.2
    if r.kind? = some .dot ∧ r.kindAt? 1 = some .number then
      let s := r.bump.2
      (⟨some (whole ++ "." ++ (s.bump.1.map Token.text).getD "")⟩, s.bump.2)
    else (⟨some whole⟩, r)
  else (⟨none⟩, q)

def optionalBoost (p : Parser) : Option Boost × Parser :=
  if p.isAt [.caret] then p.boostSuffix.map some id else (none, p)

def optionalSuffix (p : Parser) : Option Suffix × Parser :=
  if p.isAt [.tilde] then p.fuzzySuffix.map (fun f => some (.fuzzy f)) id
  else p.optionalBoost.map (Option.map .boost) id

theorem left_fuzzySuffix_le (p : Parser) : p.fuzzySuffix.2.left ≤ p.left := by
  have h₁ := p.left_bump_le
  have h₂ := p.bump.2.left_bump_le
  simp only [fuzzySuffix]
  split <;> simp only <;> omega

theorem left_boostSuffix_le (p : Parser) : p.boostSuffix.2.left ≤ p.left := by
  have h₁ := p.left_bump_le
  have h₂ := p.bump.2.left_bump_le
  have h₃ := p.bump.2.bump.2.left_bump_le
  have h₄ := p.bump.2.bump.2.bump.2.left_bump_le
  simp only [boostSuffix]
  split
  · split <;> simp only <;> omega
  · simp only
    omega

theorem left_optionalBoost_le (p : Parser) : p.optionalBoost.2.left ≤ p.left := by
  unfold optionalBoost
  split
  · exact p.left_boostSuffix_le
  · exact Nat.le_refl _

theorem left_optionalSuffix_le (p : Parser) : p.optionalSuffix.2.left ≤ p.left := by
  unfold optionalSuffix
  split
  · exact p.left_fuzzySuffix_le
  · exact p.left_optionalBoost_le

/-! ### Ranges -/

/-- One side of a range. -/
def side (p : Parser) : Step Side p.left :=
  if p.isAt [.quote] then p.phrase.map (Found.map .literal)
  else if p.isAt Literal.bareKinds then p.bare.map (Found.map Side.ofBare)
  else p.reject sideKinds

/-- A comparison with a value. -/
def comparison (p : Parser) : Step Range p.left := do
  let ⟨symbol, q, hq⟩ ← p.expect .comparison
  match Comparison.ofSymbol? symbol.text with
  | some op =>
      let ⟨value, r, hr⟩ ← q.side
      return ⟨.comparison op value, r, Nat.lt_trans hr hq⟩
  | none =>
      throw (.error (.internal
        ("bad comparison '" ++ symbol.text ++ "' at " ++ toString p.offset)))

/-- Passes over space, of which there has to be some. -/
def requireSpace (p : Parser) : Step Unit (p.left + 1) :=
  if p.skipSpace.1 = 0 then p.skipSpace.2.reject [.blank]
  else return ⟨(), p.skipSpace.2, Nat.lt_succ_of_le p.left_skipSpace_le⟩

/-- Passes over the word between the two sides of an interval and the space around it. -/
def separator (p : Parser) : Step Unit (p.left + 1) := do
  let ⟨_, q, hq⟩ ← p.requireSpace
  if q.peek?.any fun t => t.token.isWord ["TO"] then
    have hword := q.left_bump_le
    let ⟨_, r, hr⟩ ← q.bump.2.requireSpace
    return ⟨(), r, by omega⟩
  else q.reject [.word]

/-- The bracket at one end of an interval: `true` for the one that closes its side. -/
def bracket (closed opened : Kind) (p : Parser) : Step Bool p.left :=
  match h : p.kind? with
  | some k =>
      if k = closed then return ⟨true, p.bump.2, left_bump_lt h⟩
      else if k = opened then return ⟨false, p.bump.2, left_bump_lt h⟩
      else p.reject [closed, opened]
  | none => p.reject [closed, opened]

/-- An interval with its brackets. -/
def interval (p : Parser) : Step Interval p.left := do
  let ⟨leftClosed, q, hq⟩ ← p.bracket .leftBracket .leftBrace
  have hspace := q.left_skipSpace_le
  let ⟨left, r, hr⟩ ← q.skipSpace.2.side
  let ⟨_, s, hs⟩ ← r.separator
  let ⟨right, t, ht⟩ ← s.side
  have hspace' := t.left_skipSpace_le
  let ⟨rightClosed, u, hu⟩ ← t.skipSpace.2.bracket .rightBracket .rightBrace
  return ⟨⟨leftClosed, left, right, rightClosed⟩, u, by omega⟩

/-! ### Groups -/

def element (p : Parser) : Step Element p.left :=
  if p.isAt [.quote] then p.phrase.map (Found.map .literal)
  else if p.isAt [.comparison] then p.comparison.map (Found.map .range)
  else if p.isAt [.leftBracket, .leftBrace] then
    (p.interval.map (Found.map .interval)).map (Found.map .range)
  else if p.isAt Literal.bareKinds then p.bare.map (Found.map .literal)
  else p.reject elementKinds

/-- A clause of a group: another group in parentheses or an element. -/
def groupClause (p : Parser) : Step (Clause Element) p.left :=
  if p.isAt [.leftParen] then
    (p.enclosed (fun q _ => q.groupClause) (Nat.le_refl _)).map (Found.map .paren)
  else p.element.map (Found.map .leaf)
termination_by p.left

/-! ### Terms -/

def term (p : Parser) : Step Term p.left :=
  if p.isAt [.slash] then (p.between .slash).map (Found.map .regexp)
  else if p.isAt [.quote] then p.phrase.map (.with optionalSuffix left_optionalSuffix_le .literal)
  else if p.isAt [.comparison] then
    p.comparison.map (.with optionalBoost left_optionalBoost_le .range)
  else if p.isAt [.leftBracket, .leftBrace] then
    (p.interval.map (Found.map .interval)).map (.with optionalBoost left_optionalBoost_le .range)
  else if p.isAt [.leftParen] then
    (p.enclosed (fun q _ => q.groupClause) (Nat.le_refl _)).map
      (.with optionalBoost left_optionalBoost_le .group)
  else if p.isAt Literal.bareKinds then
    p.bare.map (.with optionalSuffix left_optionalSuffix_le .literal)
  else p.reject termKinds

end Parser

end SearchQuery
