import Mathlib.Data.List.TakeWhile
import SearchQuery.Parser
import SearchQuery.Reader.Formula

/-!
The tokens that a parser has left. Every operation on the cursor is told by what it does to them,
and moves along the tokens of the same text with the same parentheses open.
-/

namespace SearchQuery

open Token (Kind Located)

namespace Parser

variable {p q r : Parser} {t : Token} {ts : List Token} {kinds : List Kind} {k : Kind}

/-- The tokens from the cursor on. -/
def rest (p : Parser) : List Token :=
  (p.tokens.toList.drop p.cursor).map Located.token

/-- Only the cursor differs: it has not moved back, and not behind the tokens. -/
structure Along (p q : Parser) : Prop where
  tokens : q.tokens = p.tokens
  size : q.size = p.size
  depth : q.depth = p.depth
  limit : q.limit = p.limit
  le : p.cursor ≤ q.cursor
  within : p.cursor ≤ p.tokens.size → q.cursor ≤ q.tokens.size

namespace Along

@[refl]
theorem refl (p : Parser) : p.Along p :=
  ⟨rfl, rfl, rfl, rfl, Nat.le_refl _, id⟩

theorem trans (h : p.Along q) (h' : q.Along r) : p.Along r where
  tokens := h'.tokens.trans h.tokens
  size := h'.size.trans h.size
  depth := h'.depth.trans h.depth
  limit := h'.limit.trans h.limit
  le := Nat.le_trans h.le h'.le
  within hp := h'.within (h.within hp)

theorem left_le (h : p.Along q) : q.left ≤ p.left := by
  have hle := h.le
  simp only [left, h.tokens]
  omega

theorem room (h : p.Along q) : q.limit - q.depth = p.limit - p.depth := by
  rw [h.limit, h.depth]

end Along

/-! ### Looking ahead -/

theorem length_rest (p : Parser) : p.rest.length = p.left := by
  simp [rest, left]

theorem map_peek? (p : Parser) : p.peek?.map Located.token = p.rest.head? := by
  simp [rest, peek?, List.head?_drop]

theorem kindAt?_eq (p : Parser) (places : Nat) :
    p.kindAt? places = p.rest[places]?.map Token.kind := by
  simp [rest, kindAt?, List.getElem?_drop, Function.comp_def]

theorem kind?_eq (p : Parser) : p.kind? = p.rest.head?.map Token.kind := by
  rw [kind?, kindAt?_eq, ← List.head?_eq_getElem?]

theorem isAt_eq (p : Parser) (kinds : List Kind) :
    p.isAt kinds = Token.startsWith kinds p.rest := by
  rw [isAt, kind?_eq, Token.startsWith]
  cases p.rest.head? <;> rfl

/-! ### Moving -/

theorem rest_advance (p : Parser) (places : Nat) :
    (p.advance places).rest = p.rest.drop places := by
  simp [rest, advance, List.drop_drop]

theorem along_advance {places : Nat} (h : places ≤ p.rest.length) : p.Along (p.advance places) where
  tokens := rfl
  size := rfl
  depth := rfl
  limit := rfl
  le := Nat.le_add_right _ _
  within hp := by
    rw [length_rest, left] at h
    simp only [advance]
    omega

theorem bump_of_nil (h : p.rest = []) : p.bump = (none, p) := by
  have hpeek := p.map_peek?
  rw [h, List.head?_nil, Option.map_eq_none_iff] at hpeek
  simp only [bump, hpeek]

theorem bump_of_cons (h : p.rest = t :: ts) :
    p.bump.1 = some t ∧ p.bump.2.rest = ts ∧ p.Along p.bump.2 := by
  have hpeek := p.map_peek?
  rw [h, List.head?_cons, Option.map_eq_some_iff] at hpeek
  obtain ⟨located, hpeek, rfl⟩ := hpeek
  have hlength : 1 ≤ p.rest.length := by simp [h]
  simp only [bump, hpeek, rest_advance, h, List.drop_one, List.tail_cons]
  exact ⟨trivial, trivial, along_advance hlength⟩

/-- The next token is of one of the kinds. -/
theorem exists_rest_of_isAt (h : p.isAt kinds = true) :
    ∃ t ts, p.rest = t :: ts ∧ t.kind ∈ kinds := by
  rw [isAt_eq] at h
  cases hrest : p.rest with
  | nil => simp [hrest, Token.startsWith] at h
  | cons t ts => exact ⟨t, ts, rfl, by simpa [hrest, Token.startsWith] using h⟩

theorem passSpace_rest (p : Parser) :
    p.passSpace.rest = Token.skipSpace p.rest ∧ p.Along p.passSpace := by
  fun_induction passSpace p with
  | case1 p k h hlt hspace ih =>
      rw [kind?_eq, Option.map_eq_some_iff] at h
      obtain ⟨t, ht, rfl⟩ := h
      obtain ⟨ts, hts⟩ := List.head?_eq_some_iff.mp ht
      rw [rest_advance, hts] at ih
      refine ⟨ih.1.trans ?_, (along_advance (by simp [hts])).trans ih.2⟩
      simp [hts, Token.skipSpace, Token.isSpace, hspace]
  | case2 p k h hlt hspace =>
      rw [kind?_eq, Option.map_eq_some_iff] at h
      obtain ⟨t, ht, rfl⟩ := h
      obtain ⟨ts, hts⟩ := List.head?_eq_some_iff.mp ht
      refine ⟨?_, .refl p⟩
      simp [hts, Token.skipSpace, Token.isSpace, hspace]
  | case3 p h =>
      rw [kind?_eq, Option.map_eq_none_iff, List.head?_eq_none_iff] at h
      exact ⟨by rw [h]; rfl, .refl p⟩

@[simp]
theorem rest_skipSpace (p : Parser) : p.skipSpace.2.rest = Token.skipSpace p.rest :=
  p.passSpace_rest.1

theorem along_skipSpace (p : Parser) : p.Along p.skipSpace.2 :=
  p.passSpace_rest.2

/-- The number of spaces passed tells whether there is any. -/
theorem skipSpace_pos_iff (p : Parser) :
    0 < p.skipSpace.1 ↔ Token.startsWithSpace p.rest = true := by
  have hspace := p.kind?_eq
  change 0 < p.passSpace.cursor - p.cursor ↔ _
  rw [passSpace]
  split
  · next k hk =>
      rw [hspace, Option.map_eq_some_iff] at hk
      obtain ⟨t, ht, rfl⟩ := hk
      have hle := (p.advance 1).passSpace_rest.2.le
      simp only [advance] at hle
      cases hkind : t.kind.isSpace <;> simp [Token.startsWithSpace, Token.isSpace, ht, hkind]
      simp only [advance]
      omega
  · next hk =>
      rw [hspace, Option.map_eq_none_iff] at hk
      simp [Token.startsWithSpace, hk]

theorem takeRun_eq (kinds : List Kind) (p : Parser) :
    (p.takeRun kinds).1 = (Token.spanKinds kinds p.rest).1 ∧
      (p.takeRun kinds).2.rest = (Token.spanKinds kinds p.rest).2 ∧
      p.Along (p.takeRun kinds).2 := by
  fun_induction takeRun kinds p with
  | case1 p h hlt ih =>
      obtain ⟨t, ts, hrest, ht⟩ := exists_rest_of_isAt h
      obtain ⟨hbump, hafter, halong⟩ := bump_of_cons hrest
      rw [hafter] at ih
      refine ⟨?_, ?_, halong.trans ih.2.2⟩
      · simp [hbump, ih.1, hrest, Token.spanKinds, ht]
      · simp [ih.2.1, hrest, Token.spanKinds, ht]
  | case2 p h =>
      rw [isAt_eq] at h
      cases hrest : p.rest with
      | nil => exact ⟨rfl, rfl, .refl p⟩
      | cons t ts =>
          have ht : t.kind ∉ kinds := by simpa [hrest, Token.startsWith] using h
          exact ⟨by simp [Token.spanKinds, ht], by simp [Token.spanKinds, ht], .refl p⟩

theorem takeRun_of_not_isAt (h : ¬ p.isAt kinds = true) : p.takeRun kinds = ([], p) := by
  rw [takeRun, dif_neg h]

/-! ### Keywords -/

/-- The tokens behind the next one are there to be looked at. -/
theorem tokensFrom_of_cons (h : p.rest = t :: ts) :
    ∃ located, p.tokensFrom (p.cursor + 1) = .ok located ∧ located.map Located.token = ts := by
  have hleft := p.length_rest
  rw [h, List.length_cons, left] at hleft
  refine ⟨p.tokens.toList.drop (p.cursor + 1), ?_, ?_⟩
  · rw [tokensFrom, if_pos (by omega)]
    rfl
  · have hdrop := p.rest_advance 1
    rw [h] at hdrop
    exact hdrop

theorem kindAt?_of_cons (h : p.rest = t :: ts) : p.kindAt? 1 = ts.head?.map Token.kind := by
  rw [kindAt?_eq, h, List.getElem?_cons_succ, List.head?_eq_getElem?]

theorem suffix_of_stripKinds? {kinds : List Kind} {ts us : List Token}
    (h : Keyword.stripKinds? kinds ts = some us) : us <:+ ts := by
  fun_induction Keyword.stripKinds? kinds ts with
  | case1 => simp_all
  | case2 => simp at h
  | case3 ks t ts ih => exact (ih h).trans (List.suffix_cons t ts)
  | case4 => simp at h

theorem suffix_of_strip? {k : Keyword} {ts us : List Token} (h : k.strip? ts = some us) :
    us <:+ ts := by
  unfold Keyword.strip? at h
  split at h
  · cases h
  · split at h
    · split at h <;> cases h
      exact List.suffix_cons _ _
    · exact suffix_of_stripKinds? h

theorem stripKinds?_symbols (k : Keyword) (ts : List Token) :
    (Keyword.stripKinds? k.symbols ts).map (fun us => ts.length - us.length) =
      if (List.range k.symbols.length).all fun i => ts[i]?.map Token.kind == k.symbols[i]? then
        some k.symbols.length else none := by
  rcases k with _ | _ | _ <;> rcases ts with _ | ⟨t, _ | ⟨u, ts⟩⟩ <;>
    simp [Keyword.symbols, Keyword.stripKinds?, List.range_succ]
  all_goals grind

theorem appliesTo_eq (p : Parser) {next : List Located}
    (h : p.rest = t :: next.map Located.token) :
    (!((p.kindAt? 1).any fun kind => Keyword.wordContinuations.contains kind) &&
        (next.find? fun t => !t.token.isSpace).any fun t => t.token.kind != .rightParen) =
      Keyword.appliesTo (next.map Located.token) := by
  have hfind : (next.find? fun t => !t.token.isSpace).map Located.token =
      (Token.skipSpace (next.map Located.token)).head? := by
    rw [Token.skipSpace, List.dropWhile_map, List.head?_map, List.find?_eq_head?_dropWhile_not]
    simp [Function.comp_def]
  rw [kindAt?_of_cons h, Keyword.appliesTo, Token.startsWith, Keyword.operandFollows, ← hfind]
  simp [Option.any_map, Function.comp_def]

/-- A keyword is looked for without a slice out of range, and found where it is at the front of the
tokens that are left. -/
theorem keyword_eq (p : Parser) (k : Keyword) :
    p.keyword k = .ok ((k.strip? p.rest).map fun ts => p.rest.length - ts.length) := by
  have hpeek := p.map_peek?
  cases hrest : p.rest with
  | nil =>
      rw [hrest, List.head?_nil, Option.map_eq_none_iff] at hpeek
      simp only [keyword, hpeek, Keyword.strip?]
      rfl
  | cons t ts =>
      rw [hrest, List.head?_cons, Option.map_eq_some_iff] at hpeek
      obtain ⟨located, hpeek, rfl⟩ := hpeek
      obtain ⟨next, hnext, rfl⟩ := tokensFrom_of_cons hrest
      simp only [keyword, hpeek, Keyword.strip?]
      split
      · have happlies := appliesTo_eq p hrest
        rw [hnext]
        change Except.ok _ = Except.ok _
        rw [happlies]
        split <;> simp
      · rw [stripKinds?_symbols]
        simp only [kindAt?_eq, hrest]
        rfl

theorem advance_of_strip? {k : Keyword} (h : k.strip? p.rest = some ts) :
    (p.advance (p.rest.length - ts.length)).rest = ts ∧
      p.Along (p.advance (p.rest.length - ts.length)) := by
  obtain ⟨front, hfront⟩ := suffix_of_strip? h
  refine ⟨?_, along_advance (Nat.sub_le _ _)⟩
  rw [rest_advance, ← hfront, List.length_append, Nat.add_sub_cancel, List.drop_left]

end Parser

end SearchQuery
