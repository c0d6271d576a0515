import SearchQuery.Promotion
import SearchQuery.Proofs.Formula.Alike

/-!
Promotion keeps the build of a group: a query is made of it by writing the field before every
element and the weight of the group behind it. So the query has the shape of the group, and is
true just where the group is, whatever the truth of single elements.
-/

namespace SearchQuery

/-! ### Truth -/

/-- What a field clause says of an element, if it is about one: the field, the element, and the
weight. -/
def FieldClause.element? (c : FieldClause) : Option (Field × Element × Option Boost) :=
  match c.term with
  | .literal l none => some (c.field, .literal l, none)
  | .literal l (some (.boost b)) => some (c.field, .literal l, some b)
  | .range r boost => some (c.field, .range r, boost)
  | _ => none

/-- The truth of a query, given the truth of elements at fields with weights. A clause about
anything else counts as false. -/
def Query.eval (truth : Field → Element → Option Boost → Bool) (q : Query) : Bool :=
  Formula.eval (Clause.eval fun c => c.element?.any fun (f, e, boost) => truth f e boost) q

/-- The truth of a group at a field and with a weight. -/
def Group.eval (truth : Field → Element → Option Boost → Bool) (f : Field) (boost : Option Boost)
    (g : Group) : Bool :=
  Formula.eval (Clause.eval fun e => truth f e boost) g

/-! ### Elements -/

/-- The element as a term, with a weight. -/
def Element.toTerm (boost : Option Boost) : Element → Term
  | .literal l => .literal l (boost.map .boost)
  | .range r => .range r boost

/-- The clause says of the element at the field what the group with the weight says of it. -/
structure Element.Promoted (f : Field) (g : Group) (boost : Option Boost) (e : Element)
    (c : FieldClause) : Prop where
  field : c.field = f
  term : c.term = e.toTerm boost
  element : c.element? = some (f, e, boost)
  text : c.render = f.name ++ ":" ++ e.render ++ Boost.renderOption boost
  bound : c.term.bound? = e.summary.bound?
  flags : c.term.flags = e.summary.flags ||| TermFlags.boost.when boost.isSome
  boosted : c.term.flags.contains .boost = boost.isSome
  weight : c.term.weight = (Term.group g boost).weight
  distance : c.term.distance = 0

theorem TermFlags.or_unknown (a : TermFlags) : a ||| .unknown = a := by
  obtain ⟨bits⟩ := a
  exact congrArg TermFlags.mk (BitVec.or_zero)

theorem Element.render_toTerm (boost : Option Boost) (e : Element) :
    (e.toTerm boost).render = e.render ++ Boost.renderOption boost := by
  cases e with
  | literal l => cases boost <;> rfl
  | range r => rfl

theorem Element.flags_toTerm (boost : Option Boost) (e : Element) :
    (e.toTerm boost).flags = e.summary.flags ||| TermFlags.boost.when boost.isSome := by
  cases e with
  | literal l =>
      cases boost with
      | none => exact (TermFlags.or_unknown _).symm
      | some b => rfl
  | range r => rfl

/-- An element has no weight of its own. -/
theorem Element.contains_boost_toTerm (boost : Option Boost) (e : Element) :
    (e.toTerm boost).flags.contains .boost = boost.isSome := by
  have hphrase : ∀ a boosted : Bool, (TermFlags.phrase ||| TermFlags.wildcard.when a |||
      TermFlags.boost.when boosted).contains .boost = boosted := by decide
  have hbare : ∀ a b boosted : Bool, (TermFlags.single ||| TermFlags.wildcard.when a |||
      TermFlags.leading.when b ||| TermFlags.boost.when boosted).contains .boost = boosted := by
    decide
  have hrange : ∀ boosted : Bool,
      (TermFlags.range ||| TermFlags.boost.when boosted).contains .boost = boosted := by decide
  rw [Element.flags_toTerm]
  cases e with
  | literal l =>
      cases l with
      | bare ts => exact hbare _ _ _
      | phrase ts => exact hphrase _ _
  | range r => exact hrange _

theorem Element.promoted_toTerm (f : Field) (g : Group) (boost : Option Boost) (e : Element) :
    Element.Promoted f g boost e ⟨f, e.toTerm boost⟩ where
  field := rfl
  term := rfl
  element := by cases e <;> cases boost <;> rfl
  text := by
    rw [FieldClause.render, Element.render_toTerm]
    exact (String.append_assoc).symm
  bound := by cases e <;> cases boost <;> rfl
  flags := Element.flags_toTerm boost e
  boosted := Element.contains_boost_toTerm boost e
  weight := by cases e <;> cases boost <;> rfl
  distance := by cases e <;> cases boost <;> rfl

theorem Element.promote?_eq_some {f : Field} (hf : f.tokens ≠ []) (boost : Option Boost)
    (e : Element) : e.promote? f boost = some ⟨f, e.toTerm boost⟩ := by
  have hne : f.isEmpty = false := by simpa [Field.isEmpty] using hf
  cases e <;> simp [Element.promote?, hne, Element.toTerm]

/-! ### Groups -/

theorem Group.promote?_eq_some {f : Field} (hf : f.tokens ≠ []) (boost : Option Boost)
    (g : Group) : Group.promote? f boost g =
      some (g.map (Clause.map fun e => ⟨f, e.toTerm boost⟩)) := by
  apply Formula.filterMap_eq_some
  intro c _
  apply Clause.filterMap_eq_some
  intro e
  rw [Element.promote?_eq_some hf, Option.map_some]

theorem Group.promote?_eq_none {f : Field} (hf : f.tokens = []) (boost : Option Boost)
    (g : Group) : Group.promote? f boost g = none := by
  apply Formula.filterMap_eq_none
  intro c _
  apply Clause.filterMap_eq_none
  intro e
  simp [Element.promote?, Field.isEmpty, hf]

/-- The promotion of a group is built like the group, with every element promoted. -/
theorem Group.exists_alike_promote? {f : Field} (hf : f.tokens ≠ []) (boost : Option Boost)
    (g : Group) : ∃ q, Group.promote? f boost g = some q ∧
      Formula.Alike (Clause.Alike (Element.Promoted f g boost)) g q := by
  refine ⟨_, Group.promote?_eq_some hf boost g, Formula.alike_map ?_⟩
  intro c _
  exact Clause.alike_map (Element.promoted_toTerm f g boost) c

theorem Group.shape_promoted {f : Field} {boost : Option Boost} {g h : Group} {q : Query}
    (halike : Formula.Alike (Clause.Alike (Element.Promoted f h boost)) g q) :
    Query.shape q = Group.shape g :=
  halike.shape_eq fun _ _ => Clause.Alike.shape_eq

theorem Group.eval_promoted {f : Field} {boost : Option Boost} {g h : Group} {q : Query}
    (halike : Formula.Alike (Clause.Alike (Element.Promoted f h boost)) g q)
    (truth : Field → Element → Option Boost → Bool) :
    Query.eval truth q = Group.eval truth f boost g := by
  apply halike.eval_eq
  intro c d hclause
  apply hclause.eval_eq
  intro e fc hpromoted
  simp [hpromoted.element]

/-- Promotion transcribes a group at a named field element by element, keeping its build, its
shape and its meaning; it fails only for want of a field, of a name for it, or of a group. -/
theorem Query.ofGroup?_transcribes :
    (∀ (f : Field) (g : Group) (boost : Option Boost), f.tokens ≠ [] →
      ∃ q, Query.ofGroup? (some f) (some (g, boost)) = some q ∧
        Formula.Alike (Clause.Alike (Element.Promoted f g boost)) g q ∧
        Query.shape q = Group.shape g ∧
        ∀ truth, Query.eval truth q = Group.eval truth f boost g) ∧
    ∀ (field : Option Field) (group : Option (Group × Option Boost)),
      Query.ofGroup? field group = none ↔
        field = none ∨ (∃ f ∈ field, f.tokens = []) ∨ group = none := by
  refine ⟨?_, ?_⟩
  · intro f g boost hf
    obtain ⟨q, hq, halike⟩ := Group.exists_alike_promote? hf boost g
    exact ⟨q, hq, halike, Group.shape_promoted halike, Group.eval_promoted halike⟩
  · intro field group
    cases field with
    | none => simp [Query.ofGroup?]
    | some f =>
        cases group with
        | none => simp [Query.ofGroup?]
        | some group =>
            obtain ⟨g, boost⟩ := group
            by_cases hf : f.tokens = []
            · simp [Query.ofGroup?, Group.promote?_eq_none hf, hf]
            · simp [Query.ofGroup?, Group.promote?_eq_some hf, hf]

/-- The group `(a NOT (b))^3` at the field `x`. -/
theorem Query.ofGroup?_transcribes_nested :
    let f : Field := ⟨[⟨.word, "x"⟩]⟩
    let g : Group := ⟨⟨⟨false, .leaf (.literal (.bare [⟨.word, "a"⟩]))⟩,
      [⟨false, true, .paren (.ofOperand ⟨false, .leaf (.literal (.bare [⟨.word, "b"⟩]))⟩)⟩]⟩, []⟩
    let boost : Option Boost := some ⟨some "3"⟩
    f.tokens ≠ [] ∧ (Query.ofGroup? (some f) (some (g, boost))).map Query.render =
        some "x:a^3 NOT ( x:b^3 )" ∧
      ∃ q, Query.ofGroup? (some f) (some (g, boost)) = some q ∧
        Formula.Alike (Clause.Alike (Element.Promoted f g boost)) g q ∧
        Query.shape q = Group.shape g ∧
        ∀ truth, Query.eval truth q = Group.eval truth f boost g := by
  refine ⟨by decide, by decide +kernel, ?_⟩
  exact Query.ofGroup?_transcribes.1 _ _ _ (by decide)

end SearchQuery
