import SearchQuery.Proofs.Canonical.Spelling
import SearchQuery.Proofs.Grammar.Query

/-!
Queries with a hole in the place of a word. A hole is filled by a token, wherever it stands in the
tree. A tree has just as many holes as the tokens that it is derived from: no word is lost but the
keywords and the TO of ranges.
-/

namespace SearchQuery

open Token (Kind)

variable {α β C : Type}

/-! ### Holes -/

namespace Token

/-- A place that is left open. No text has such a token. -/
def hole : Token := ⟨.word, ""⟩

/-- The token itself, or `y` in the place of a hole. -/
def fill (y t : Token) : Token :=
  if t = hole then y else t

/-- A word that is spelled neither like a keyword nor like TO. -/
def Neutral (t : Token) : Prop :=
  t.kind = .word ∧ t.text ∉ ["AND", "and", "OR", "or", "NOT", "not", "TO"]

instance : DecidablePred Neutral :=
  fun _ => inferInstanceAs (Decidable (_ ∧ _))

theorem neutral_hole : Neutral hole := by decide

theorem kind_fill {y : Token} (hy : y.kind = .word) (t : Token) : (fill y t).kind = t.kind := by
  by_cases ht : t = hole
  · simp [fill, ht, hy, hole]
  · simp [fill, ht]

@[simp]
theorem fill_hole : fill hole = id := by
  funext t
  by_cases ht : t = hole <;> simp [fill, ht]

theorem fill_of_ne {y t : Token} (ht : t ≠ hole) : fill y t = t := by
  simp [fill, ht]

theorem Neutral.ne_of_kind {z t : Token} (hz : z.Neutral) (ht : t.kind ≠ .word) : t ≠ z := by
  rintro rfl
  exact ht hz.1

theorem Neutral.ne_of_text {z t : Token} (hz : z.Neutral)
    (ht : t.text ∈ ["AND", "and", "OR", "or", "NOT", "not", "TO"]) : t ≠ z := by
  rintro rfl
  exact hz.2 ht

end Token

open Token (hole fill)

def Literal.mapTokens (f : Token → Token) : Literal → Literal
  | .bare ts => .bare (ts.map f)
  | .phrase ts => .phrase (ts.map f)

def Side.mapTokens (f : Token → Token) : Side → Side
  | .unbounded => .unbounded
  | .literal l => .literal (l.mapTokens f)

def Interval.mapTokens (f : Token → Token) (i : Interval) : Interval :=
  { i with left := i.left.mapTokens f, right := i.right.mapTokens f }

def Range.mapTokens (f : Token → Token) : Range → Range
  | .comparison op value => .comparison op (value.mapTokens f)
  | .interval i => .interval (i.mapTokens f)

def Element.mapTokens (f : Token → Token) : Element → Element
  | .literal l => .literal (l.mapTokens f)
  | .range r => .range (r.mapTokens f)

def Group.mapTokens (f : Token → Token) (g : Group) : Group :=
  Formula.map (Clause.map (Element.mapTokens f)) g

def Term.mapTokens (f : Token → Token) : Term → Term
  | .regexp ts => .regexp (ts.map f)
  | .literal l suffix => .literal (l.mapTokens f) suffix
  | .range r boost => .range (r.mapTokens f) boost
  | .group g boost => .group (g.mapTokens f) boost

def FieldClause.mapTokens (f : Token → Token) (c : FieldClause) : FieldClause :=
  ⟨⟨c.field.tokens.map f⟩, c.term.mapTokens f⟩

/-- Applies a function to the tokens of all field names, literals and regular expressions. -/
def Query.mapTokens (f : Token → Token) (q : Query) : Query :=
  Formula.map (Clause.map (FieldClause.mapTokens f)) q

/-- The query with `y` in the place of every hole. -/
def Query.fill (y : Token) (q : Query) : Query :=
  q.mapTokens (Token.fill y)

/-! ### Depth, and holes in their own place -/

theorem Formula.sup_congr {measure measure' : C → Nat} {e : Formula C}
    (h : ∀ c ∈ e.clauses, measure c = measure' c) : e.sup measure = e.sup measure' := by
  rw [Formula.sup, Formula.sup, List.map_congr_left h]

theorem Clause.depth_map {depth : β → Nat} {depth' : α → Nat} {f : α → β}
    (h : ∀ a, depth (f a) = depth' a) (c : Clause α) :
    (c.map f).depth depth = c.depth depth' := by
  induction c with
  | leaf a => simp [h]
  | paren sub ih =>
      rw [Clause.map_paren, Clause.depth_paren, Clause.depth_paren, Formula.sup_map]
      exact congrArg (· + 1) (Formula.sup_congr ih)

theorem Term.depth_mapTokens (f : Token → Token) (t : Term) : (t.mapTokens f).depth = t.depth := by
  cases t with
  | group g boost =>
      have hdepth : (Clause.map (Element.mapTokens f) (.paren g)).depth (fun _ => 0) =
          (Clause.paren g).depth fun _ => 0 := Clause.depth_map (fun _ => rfl) _
      rwa [Clause.map_paren] at hdepth
  | regexp | literal | range => rfl

theorem Query.depth_fill (y : Token) (q : Query) : (q.fill y).depth = q.depth := by
  rw [Query.depth, Query.depth, Query.fill, Query.mapTokens, Formula.sup_map]
  apply Formula.sup_congr
  intro c _
  apply Clause.depth_map
  intro c
  exact Term.depth_mapTokens _ c.term

theorem Formula.map_eq_self {f : C → C} {e : Formula C} (h : ∀ c ∈ e.clauses, f c = c) :
    e.map f = e := by
  have hlink : (Link.map id : Link C → Link C) = id := rfl
  have hbranch : (Branch.map id : Branch C → Branch C) = id := by
    funext b
    simp [Branch.map, Operand.map, hlink]
  have hid : e.map id = e := by simp [Formula.map, hbranch]
  exact (Formula.map_congr h).trans hid

theorem Clause.map_eq_self {f : α → α} (h : ∀ a, f a = a) (c : Clause α) : c.map f = c := by
  induction c with
  | leaf a => simp [h]
  | paren sub ih => rw [Clause.map_paren, Formula.map_eq_self ih]

@[simp]
theorem Literal.mapTokens_id (l : Literal) : l.mapTokens id = l := by
  cases l <;> simp [mapTokens]

@[simp]
theorem Side.mapTokens_id (s : Side) : s.mapTokens id = s := by
  cases s <;> simp [mapTokens]

@[simp]
theorem Range.mapTokens_id (r : Range) : r.mapTokens id = r := by
  cases r <;> simp [mapTokens, Interval.mapTokens]

@[simp]
theorem Element.mapTokens_id (e : Element) : e.mapTokens id = e := by
  cases e <;> simp [mapTokens]

@[simp]
theorem Group.mapTokens_id (g : Group) : g.mapTokens id = g :=
  Formula.map_eq_self fun c _ => Clause.map_eq_self Element.mapTokens_id c

@[simp]
theorem Term.mapTokens_id (t : Term) : t.mapTokens id = t := by
  cases t <;> simp [mapTokens]

@[simp]
theorem FieldClause.mapTokens_id (c : FieldClause) : c.mapTokens id = c := by
  simp [mapTokens]

/-- A hole put into the holes changes nothing. -/
theorem Query.fill_hole (q : Query) : q.fill hole = q := by
  rw [Query.fill, Token.fill_hole]
  exact Formula.map_eq_self fun c _ => Clause.map_eq_self FieldClause.mapTokens_id c

/-! ### Words that are kept -/

section Count

variable {z : Token} (hz : z.Neutral) {ts mid rest : List Token}

include hz

theorem Token.Neutral.count_cons {t : Token} {k : Kind} (ht : t.kind = k) (hk : k ≠ .word)
    (ts : List Token) : (t :: ts).count z = ts.count z :=
  List.count_cons_of_ne (hz.ne_of_kind (ht ▸ hk))

theorem Token.Neutral.count_cons_of_text {t : Token}
    (ht : t.text ∈ ["AND", "and", "OR", "or", "NOT", "not", "TO"]) (ts : List Token) :
    (t :: ts).count z = ts.count z :=
  List.count_cons_of_ne (hz.ne_of_text ht)

theorem Spaces.count_eq (h : Spaces ts rest) : ts.count z = rest.count z := by
  induction h with
  | none => rfl
  | more ht _ ih =>
      rw [hz.count_cons rfl ?_, ih]
      intro hkind
      simp [Token.isSpace, hkind, Kind.isSpace] at ht

theorem SomeSpaces.count_eq (h : SomeSpaces ts rest) : ts.count z = rest.count z :=
  h.spaces.count_eq hz

theorem Keyword.Stands.count_eq {k : Keyword} (h : k.Stands ts rest) :
    ts.count z = rest.count z := by
  cases h with
  | word _ htext =>
      apply hz.count_cons_of_text
      simp only [List.mem_cons, Prod.mk.injEq, List.not_mem_nil, or_false] at htext ⊢
      grind
  | ampersands ht hu => rw [hz.count_cons ht (by decide), hz.count_cons hu (by decide)]
  | bars ht hu => rw [hz.count_cons ht (by decide), hz.count_cons hu (by decide)]
  | bang ht => rw [hz.count_cons ht (by decide)]

theorem Delimited.count_eq {delimiter : Kind} {inner : List Token} (hword : delimiter ≠ .word)
    (h : Delimited delimiter ts inner rest) : ts.count z = inner.count z + rest.count z := by
  obtain ⟨hopening, -, hclosing⟩ := h
  rw [hz.count_cons hopening hword, List.count_append, hz.count_cons hclosing hword]

omit hz in
theorem Fragments.count_eq {kinds : List Kind} {run : List Token}
    (h : Fragments kinds ts run rest) : ts.count z = run.count z + rest.count z := by
  obtain ⟨-, -, -⟩ := h
  rw [List.count_append]

theorem Literal.Derives.count_eq {l : Literal} (h : Literal.Derives ts l rest) :
    ts.count z = l.spell.count z + rest.count z := by
  cases h with
  | bare hrun => exact hrun.count_eq
  | phrase hinner =>
      rw [hinner.count_eq hz (by decide), Literal.spell, List.cons_append,
        hz.count_cons rfl (by decide), List.count_append, hz.count_cons rfl (by decide)]
      simp

theorem Side.Derives.count_eq {s : Side} (h : Side.Derives ts s rest) :
    ts.count z = s.spell.count z + rest.count z := by
  cases h with
  | unbounded hl => exact hl.count_eq hz
  | literal hl _ => exact hl.count_eq hz

theorem Interval.count_spell (i : Interval) :
    i.spell.count z = i.left.spell.count z + i.right.spell.count z := by
  obtain ⟨leftClosed, left, right, rightClosed⟩ := i
  have hmark : ∀ (t : Token) ts, t.kind ≠ .word → (t :: ts).count z = ts.count z :=
    fun _ ts ht => hz.count_cons rfl ht ts
  have hto : ∀ ts, (⟨.word, "TO"⟩ :: ts).count z = ts.count z :=
    fun ts => hz.count_cons_of_text (by simp) ts
  cases leftClosed <;> cases rightClosed <;> simp [spell, Token.space, hmark, hto]

theorem Interval.Derives.count_eq {i : Interval} (h : Interval.Derives ts i rest) :
    ts.count z = i.spell.count z + rest.count z := by
  cases h with
  | @mk _ _ _ _ _ _ _ _ _ _ _ _ leftClosed rightClosed hopening hspaces₁ hleft hspaces₂ _ htext
      hspaces₃ hright hspaces₄ hclosing =>
      have hbracket : (if leftClosed then Kind.leftBracket else .leftBrace) ≠ .word := by
        cases leftClosed <;> decide
      have hbracket' : (if rightClosed then Kind.rightBracket else .rightBrace) ≠ .word := by
        cases rightClosed <;> decide
      rw [hz.count_cons hopening hbracket, hspaces₁.count_eq hz, hleft.count_eq hz,
        hspaces₂.count_eq hz, hz.count_cons_of_text (by simp [htext]), hspaces₃.count_eq hz,
        hright.count_eq hz, hspaces₄.count_eq hz, hz.count_cons hclosing hbracket',
        Interval.count_spell hz, Nat.add_assoc]

theorem Range.Derives.count_eq {r : Range} (h : Range.Derives ts r rest) :
    ts.count z = r.spell.count z + rest.count z := by
  cases h with
  | comparison ht _ hvalue =>
      rw [hz.count_cons ht (by decide), hvalue.count_eq hz, Range.spell,
        hz.count_cons rfl (by simp)]
  | interval hi => exact hi.count_eq hz

theorem Boost.Derives.count_eq {b : Boost} (h : Boost.Derives ts b rest) :
    ts.count z = rest.count z := by
  cases h with
  | bare hcaret => exact hz.count_cons hcaret (by decide) _
  | whole hcaret hn => rw [hz.count_cons hcaret (by decide), hz.count_cons hn (by decide)]
  | fraction hcaret hn hdot hm =>
      rw [hz.count_cons hcaret (by decide), hz.count_cons hn (by decide),
        hz.count_cons hdot (by decide), hz.count_cons hm (by decide)]

theorem Suffix.Derives.count_eq {s : Suffix} (h : Suffix.Derives ts s rest) :
    ts.count z = rest.count z := by
  cases h with
  | fuzzy hf =>
      cases hf with
      | bare htilde => exact hz.count_cons htilde (by decide) _
      | distance htilde hn => rw [hz.count_cons htilde (by decide), hz.count_cons hn (by decide)]
  | boost hb => exact hb.count_eq hz

omit hz in
theorem Perhaps.count_eq {p : Production α} {a : Option α}
    (hp : ∀ {ts a rest}, p ts a rest → ts.count z = rest.count z) (h : Perhaps p ts a rest) :
    ts.count z = rest.count z := by
  cases h with
  | none => rfl
  | some ha => exact hp ha

theorem Boost.count_spell (b : Boost) : b.spell.count z = 0 := by
  obtain ⟨magnitude⟩ := b
  rw [Boost.spell, hz.count_cons rfl (by decide)]
  cases magnitude with
  | none => rfl
  | some m =>
      simp only [Option.map_some, Option.getD_some, Boost.spellMagnitude]
      split <;> simp [hz.count_cons]

theorem Suffix.count_spell (s : Suffix) : s.spell.count z = 0 := by
  cases s with
  | fuzzy f =>
      obtain ⟨distance⟩ := f
      rw [Suffix.spell, Fuzzy.spell, hz.count_cons rfl (by decide)]
      cases distance <;> simp [hz.count_cons]
  | boost b => exact Boost.count_spell hz b

theorem Element.Derives.count_eq {e : Element} (h : Element.Derives ts e rest) :
    ts.count z = e.spell.count z + rest.count z := by
  cases h with
  | literal hl => exact hl.count_eq hz
  | range hr => exact hr.count_eq hz

/-! ### Words of formulas -/

section Formula

variable {f : C → List Token} {p : Production C}

theorem Operand.count_spell (o : Operand C) : (o.spell f).count z = (f o.clause).count z := by
  unfold Operand.spell
  split
  · rw [Keyword.token, Token.space, hz.count_cons_of_text (by simp), hz.count_cons rfl (by decide)]
  · rfl

theorem Link.count_spell (l : Link C) :
    (l.spell f).count z = (f l.operand.clause).count z := by
  unfold Link.spell
  split
  · rw [Keyword.token, Token.space, hz.count_cons rfl (by decide), hz.count_cons_of_text (by simp),
      hz.count_cons rfl (by decide), Operand.count_spell hz]
  · rw [Token.space, hz.count_cons rfl (by decide), Operand.count_spell hz]

theorem Branch.count_spellNext (b : Branch C) : (b.spellNext f).count z = (b.spell f).count z := by
  rw [Branch.spellNext, Keyword.token, Token.space, hz.count_cons rfl (by decide),
    hz.count_cons_of_text (by simp), hz.count_cons rfl (by decide)]

theorem Operand.Derives.count_eq {o : Operand C}
    (h : Operand.Derives (fun ts c rest => ts.count z = (f c).count z + rest.count z) ts o rest) :
    ts.count z = (o.spell f).count z + rest.count z := by
  rw [Operand.count_spell hz]
  cases h with
  | negated hnot hspaces hc => rw [hnot.count_eq hz, hspaces.count_eq hz, hc]
  | plain _ hc => exact hc

theorem Link.Derives.count_eq {l : Link C}
    (h : Link.Derives (fun ts c rest => ts.count z = (f c).count z + rest.count z) ts l rest) :
    ts.count z = (l.spell f).count z + rest.count z := by
  rw [Link.count_spell hz, ← Operand.count_spell hz]
  cases h with
  | explicit hspaces hand hspaces' ho =>
      rw [hspaces.count_eq hz, hand.count_eq hz, hspaces'.count_eq hz, ho.count_eq hz]
  | juxtaposed hspaces _ ho => rw [hspaces.count_eq hz, ho.count_eq hz]

omit hz in
theorem Many.count_eq {item : Production α} {g : α → List Token} {as : List α}
    (hitem : ∀ ts a rest, item ts a rest → ts.count z = (g a).count z + rest.count z)
    (h : Many item ts as rest) : ts.count z = (as.flatMap g).count z + rest.count z := by
  induction h with
  | nil => simp
  | cons ha _ ih => rw [hitem _ _ _ ha, ih, List.flatMap_cons, List.count_append, Nat.add_assoc]

theorem Branch.Derives.count_eq {b : Branch C}
    (h : Branch.Derives (fun ts c rest => ts.count z = (f c).count z + rest.count z) ts b rest) :
    ts.count z = (b.spell f).count z + rest.count z := by
  obtain ⟨ho, hls⟩ := h
  rw [ho.count_eq hz, hls.count_eq fun _ _ _ hl => hl.count_eq hz, Branch.spell, List.count_append,
    Nat.add_assoc]

theorem Branch.DerivesNext.count_eq {b : Branch C}
    (h : Branch.DerivesNext (fun ts c rest => ts.count z = (f c).count z + rest.count z) ts b
      rest) : ts.count z = (b.spellNext f).count z + rest.count z := by
  obtain ⟨hspaces, hor, hspaces', hb⟩ := h
  rw [hspaces.count_eq hz, hor.count_eq hz, hspaces'.count_eq hz, hb.count_eq hz,
    Branch.count_spellNext hz]

theorem Formula.Derives.count_eq {e : Formula C}
    (h : Formula.Derives (fun ts c rest => ts.count z = (f c).count z + rest.count z) ts e rest) :
    ts.count z = (e.spell f).count z + rest.count z := by
  obtain ⟨hb, hbs⟩ := h
  rw [hb.count_eq hz, hbs.count_eq fun _ _ _ hb' => hb'.count_eq hz, Formula.spell,
    List.count_append, Nat.add_assoc]

end Formula

theorem Formula.count_spellEnclosed (us : List Token) :
    (Formula.spellEnclosed us).count z = us.count z := by
  simp only [Formula.spellEnclosed, Token.space, List.cons_append]
  rw [hz.count_cons rfl (by decide), hz.count_cons rfl (by decide), List.count_append,
    hz.count_cons rfl (by decide), hz.count_cons rfl (by decide), List.count_nil, Nat.add_zero]

theorem Clause.Derives.count_eq {p : Production α} {f : α → List Token}
    (hp : ∀ ts a rest, p ts a rest → ts.count z = (f a).count z + rest.count z) {c : Clause α}
    (h : Clause.Derives p ts c rest) : ts.count z = (c.spell f).count z + rest.count z := by
  induction c generalizing ts rest with
  | leaf a =>
      cases h with
      | leaf ha => simpa using hp _ _ _ ha
  | paren sub ih =>
      cases h with
      | paren hsub =>
          obtain ⟨hopening, hspaces, hinner, hspaces', hclosing⟩ := hsub
          have hformula := (hinner.imp fun c hc us rest hd => ih c hc hd).count_eq hz
          rw [hz.count_cons hopening (by decide), hspaces.count_eq hz, hformula,
            hspaces'.count_eq hz, hz.count_cons hclosing (by decide), Clause.spell_paren,
            Formula.count_spellEnclosed hz]

theorem Term.Derives.count_eq {t : Term} (h : Term.Derives ts t rest) :
    ts.count z = t.spell.count z + rest.count z := by
  have hboost : ∀ b : Option Boost, ((b.map Boost.spell).getD []).count z = 0 := by
    intro b
    cases b <;> simp [Boost.count_spell hz]
  cases h with
  | regexp hinner =>
      rw [hinner.count_eq hz (by decide), Term.spell, List.cons_append,
        hz.count_cons rfl (by decide), List.count_append, hz.count_cons rfl (by decide)]
      simp
  | @literal _ _ _ _ suffix hl hsuffix =>
      have hnone : ((suffix.map Suffix.spell).getD []).count z = 0 := by
        cases suffix <;> simp [Suffix.count_spell hz]
      rw [hl.count_eq hz, hsuffix.count_eq (Suffix.Derives.count_eq hz), Term.spell,
        List.count_append, hnone, Nat.add_zero]
  | range hr hb =>
      rw [hr.count_eq hz, hb.count_eq (Boost.Derives.count_eq hz), Term.spell, List.count_append,
        hboost, Nat.add_zero]
  | group hg hb =>
      have hclause := (Clause.Derives.paren hg).count_eq hz fun _ _ _ he => he.count_eq hz
      rw [hclause, hb.count_eq (Boost.Derives.count_eq hz), Term.spell, List.count_append, hboost,
        Nat.add_zero, Clause.spell_paren]
      rfl

theorem FieldClause.Derives.count_eq {c : FieldClause} (h : FieldClause.Derives ts c rest) :
    ts.count z = c.spell.count z + rest.count z := by
  obtain ⟨hname, hcolon, hterm⟩ := h
  rw [hname.count_eq, hz.count_cons hcolon (by decide), hterm.count_eq hz, FieldClause.spell,
    List.count_append, hz.count_cons rfl (by decide), Nat.add_assoc]

/-- A query has just the words of its tokens, keywords and TO apart. -/
theorem Query.Derives.count_eq {q : Query} (h : Query.Derives ts q) :
    ts.count z = (Query.spell q).count z := by
  obtain ⟨start, stop, hstart, hq, hstop⟩ := h
  have hclauses : ∀ c ∈ q.clauses, ∀ ts rest, Clause.Derives FieldClause.Derives ts c rest →
      ts.count z = (c.spell FieldClause.spell).count z + rest.count z :=
    fun _ _ _ _ hc => hc.count_eq hz fun _ _ _ hleaf => hleaf.count_eq hz
  rw [hstart.count_eq hz, (hq.imp hclauses).count_eq hz, hstop.count_eq hz, List.count_nil,
    Nat.add_zero]
  rfl

end Count

end SearchQuery
