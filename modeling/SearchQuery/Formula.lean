/-!
Boolean formulas: OR over AND over NOT, with clauses of any type at the leaves. Whole queries and
the groups inside terms are formulas over different clauses.

`Formula.filterMapM` rebuilds a formula from the clauses that an effectful function keeps, and
`Formula.filterMap` is what it does with a function that has no effects.
-/

namespace SearchQuery

universe u v

/-- A clause, negated or not. -/
structure Operand (C : Type u) where
  negated : Bool
  clause : C
deriving DecidableEq, Repr

/-- An operand joined to the one before it: by the word AND if `explicit`, and otherwise by
standing next to it. -/
structure Link (C : Type u) where
  explicit : Bool
  operand : Operand C
deriving DecidableEq, Repr

/-- One or more operands, all of which have to hold. -/
structure Branch (C : Type u) where
  head : Operand C
  rest : List (Link C)
deriving DecidableEq, Repr

/-- One or more branches, one of which has to hold. -/
structure Formula (C : Type u) where
  head : Branch C
  rest : List (Branch C)
deriving DecidableEq, Repr

/-- What a formula or a clause is at its outermost level. -/
inductive Shape where
  /-- There is nothing. -/
  | absent
  /-- Two or more branches. -/
  | disjunction
  /-- Two or more operands. -/
  | conjunction
  /-- One negated operand. -/
  | negation
  /-- A formula in parentheses. -/
  | paren
  /-- A clause without further structure. -/
  | field
deriving DecidableEq, Repr, Inhabited

/-- The one-word name of a shape. -/
def Shape.name : Shape → String
  | absent => "Unknown"
  | disjunction => "Or"
  | conjunction => "And"
  | negation => "Not"
  | paren => "Paren"
  | field => "Field"

variable {C : Type u} {D : Type v}

namespace Operand

/-- Applies a function to the clause. -/
def map (f : C → D) (o : Operand C) : Operand D :=
  ⟨o.negated, f o.clause⟩

/-- The canonical text, given the text of clauses. -/
def render (text : C → String) (o : Operand C) : String :=
  (if o.negated then "NOT " else "") ++ text o.clause

/-- The shape, given the shape of clauses. -/
def shape (clause : C → Shape) (o : Operand C) : Shape :=
  if o.negated then .negation else clause o.clause

/-- The truth value, given the truth of clauses. -/
def eval (truth : C → Bool) (o : Operand C) : Bool :=
  o.negated ^^ truth o.clause

end Operand

namespace Link

/-- Applies a function to the clause. -/
def map (f : C → D) (l : Link C) : Link D :=
  ⟨l.explicit, l.operand.map f⟩

/-- The canonical text with the space before it, given the text of clauses. -/
def render (text : C → String) (l : Link C) : String :=
  (if l.explicit then " AND " else " ") ++ l.operand.render text

end Link

namespace Branch

/-- A branch of one operand. -/
def single (o : Operand C) : Branch C :=
  ⟨o, []⟩

/-- The operands as links. The first one counts as explicitly joined. -/
def links (b : Branch C) : List (Link C) :=
  ⟨true, b.head⟩ :: b.rest

/-- The branch of the given operands. How the first one was joined is forgotten. -/
def ofLinks? : List (Link C) → Option (Branch C)
  | [] => none
  | l :: ls => some ⟨l.operand, ls⟩

/-- All operands in order. -/
def operands (b : Branch C) : List (Operand C) :=
  b.head :: b.rest.map Link.operand

/-- All clauses in order. -/
def clauses (b : Branch C) : List C :=
  b.operands.map Operand.clause

/-- Applies a function to every clause. -/
def map (f : C → D) (b : Branch C) : Branch D :=
  ⟨b.head.map f, b.rest.map (Link.map f)⟩

/-- The canonical text, given the text of clauses. -/
def render (text : C → String) (b : Branch C) : String :=
  b.head.render text ++ String.join (b.rest.map (Link.render text))

/-- The shape, given the shape of clauses. -/
def shape (clause : C → Shape) (b : Branch C) : Shape :=
  if b.rest.isEmpty then b.head.shape clause else .conjunction

/-- The truth value, given the truth of clauses. -/
def eval (truth : C → Bool) (b : Branch C) : Bool :=
  b.operands.all (Operand.eval truth)

@[simp]
theorem ofLinks?_links (b : Branch C) : ofLinks? b.links = some b := rfl

end Branch

namespace Formula

/-- A formula of one branch. -/
def single (b : Branch C) : Formula C :=
  ⟨b, []⟩

/-- A formula of one operand. -/
def ofOperand (o : Operand C) : Formula C :=
  single (Branch.single o)

/-- All branches in order. -/
def branches (e : Formula C) : List (Branch C) :=
  e.head :: e.rest

/-- The formula of the given branches. -/
def ofBranches? : List (Branch C) → Option (Formula C)
  | [] => none
  | b :: bs => some ⟨b, bs⟩

/-- All operands in order. -/
def operands (e : Formula C) : List (Operand C) :=
  e.branches.flatMap Branch.operands

/-- All clauses in order. -/
def clauses (e : Formula C) : List C :=
  e.branches.flatMap Branch.clauses

/-- Applies a function to every clause. -/
def map (f : C → D) (e : Formula C) : Formula D :=
  ⟨e.head.map f, e.rest.map (Branch.map f)⟩

/-- The canonical text, given the text of clauses. -/
def render (text : C → String) (e : Formula C) : String :=
  e.head.render text ++ String.join (e.rest.map fun b => " OR " ++ b.render text)

/-- The shape, given the shape of clauses. -/
def shape (clause : C → Shape) (e : Formula C) : Shape :=
  if e.rest.isEmpty then e.head.shape clause else .disjunction

/-- The truth value, given the truth of clauses. -/
def eval (truth : C → Bool) (e : Formula C) : Bool :=
  e.branches.any (Branch.eval truth)

/-- The largest measure of a clause. -/
def sup (measure : C → Nat) (e : Formula C) : Nat :=
  (e.clauses.map measure).foldr max 0

@[simp]
theorem ofBranches?_branches (e : Formula C) : ofBranches? e.branches = some e := rfl

end Formula

/-! ### Filtering -/

section Filter

variable {C D : Type u} {m : Type u → Type v} [Monad m]

/-- Replaces the clause by the result of `f`, if it has one. -/
def Operand.filterMapM (f : C → m (Option D)) (o : Operand C) : m (Option (Operand D)) := do
  return (← f o.clause).map (Operand.mk o.negated)

/-- Replaces the clause by the result of `f`, if it has one. -/
def Link.filterMapM (f : C → m (Option D)) (l : Link C) : m (Option (Link D)) := do
  return (← l.operand.filterMapM f).map (Link.mk l.explicit)

/-- Keeps the operands whose clause has a result under `f`; `f` runs on the clauses in order. -/
def Branch.filterMapM (f : C → m (Option D)) (b : Branch C) : m (Option (Branch D)) := do
  return ofLinks? (← b.links.filterMapM (Link.filterMapM f))

/-- Keeps the clauses that have a result under `f`; `f` runs once on each clause, branch by branch
and in order within a branch. A branch that keeps no operand is dropped, and a formula that keeps no
branch is nothing. -/
def Formula.filterMapM (f : C → m (Option D)) (e : Formula C) : m (Option (Formula D)) := do
  return ofBranches? (← e.branches.filterMapM (Branch.filterMapM f))

/-- Filters a link by a function without effects. -/
def Link.filterMap (f : C → Option D) (l : Link C) : Option (Link D) :=
  Id.run (l.filterMapM fun c => pure (f c))

/-- Filters a branch by a function without effects. -/
def Branch.filterMap (f : C → Option D) (b : Branch C) : Option (Branch D) :=
  Id.run (b.filterMapM fun c => pure (f c))

/-- Filters a formula by a function without effects. -/
def Formula.filterMap (f : C → Option D) (e : Formula C) : Option (Formula D) :=
  Id.run (e.filterMapM fun c => pure (f c))

theorem Link.filterMap_eq (f : C → Option D) (l : Link C) :
    l.filterMap f = ((f l.operand.clause).map (Operand.mk l.operand.negated)).map
      (Link.mk l.explicit) := rfl

/-- A list filtered by a function that has no effects. -/
theorem filterMapM_eq_pure [LawfulMonad m] (f : C → Option D) (xs : List C) :
    xs.filterMapM (fun x => (pure (f x) : m (Option D))) = pure (xs.filterMap f) := by
  induction xs with
  | nil => simp
  | cons x xs ih => cases h : f x <;> simp [List.filterMapM_cons, ih, h]

theorem Branch.filterMap_eq (f : C → Option D) (b : Branch C) :
    b.filterMap f = ofLinks? (b.links.filterMap (Link.filterMap f)) :=
  congrArg (fun ls => ofLinks? (Id.run ls)) (filterMapM_eq_pure (Link.filterMap f) b.links)

theorem Formula.filterMap_eq (f : C → Option D) (e : Formula C) :
    e.filterMap f = ofBranches? (e.branches.filterMap (Branch.filterMap f)) :=
  congrArg (fun bs => ofBranches? (Id.run bs))
    (filterMapM_eq_pure (Branch.filterMap f) e.branches)

end Filter

/-! ### Laws of `map` -/

section Map

variable {E : Type u}

theorem Operand.map_map (g : D → E) (f : C → D) (o : Operand C) :
    (o.map f).map g = o.map (g ∘ f) := rfl

theorem Link.map_map (g : D → E) (f : C → D) (l : Link C) :
    (l.map f).map g = l.map (g ∘ f) := rfl

theorem Branch.map_map (g : D → E) (f : C → D) (b : Branch C) :
    (b.map f).map g = b.map (g ∘ f) := by
  simp [Branch.map, Operand.map_map, Link.map_map, Function.comp_def]

theorem Formula.map_map (g : D → E) (f : C → D) (e : Formula C) :
    (e.map f).map g = e.map (g ∘ f) := by
  simp [Formula.map, Branch.map_map, Function.comp_def]

@[simp]
theorem Branch.clauses_map (f : C → D) (b : Branch C) : (b.map f).clauses = b.clauses.map f := by
  simp [Branch.clauses, Branch.operands, Branch.map, Operand.map, Link.map, Function.comp_def]

@[simp]
theorem Formula.clauses_map (f : C → D) (e : Formula C) : (e.map f).clauses = e.clauses.map f := by
  simp [Formula.clauses, Formula.branches, Formula.map, List.flatMap_map, List.map_flatMap]

theorem Branch.map_congr {f g : C → D} {b : Branch C} (h : ∀ c ∈ b.clauses, f c = g c) :
    b.map f = b.map g := by
  simp only [Branch.clauses, Branch.operands, List.map_cons, List.map_map, List.forall_mem_cons,
    List.forall_mem_map, Function.comp_apply] at h
  simp only [Branch.map, Branch.mk.injEq, List.map_inj_left]
  refine ⟨by simp [Operand.map, h.1], ?_⟩
  intro l hl
  simp [Link.map, Operand.map, h.2 l hl]

theorem Formula.map_congr {f g : C → D} {e : Formula C} (h : ∀ c ∈ e.clauses, f c = g c) :
    e.map f = e.map g := by
  simp only [Formula.clauses, Formula.branches, List.flatMap_cons, List.mem_append,
    List.mem_flatMap] at h
  simp only [Formula.map, Formula.mk.injEq, List.map_inj_left]
  refine ⟨Branch.map_congr fun c hc => h c (Or.inl hc), ?_⟩
  intro b hb
  exact Branch.map_congr fun c hc => h c (Or.inr ⟨b, hb, hc⟩)

theorem Operand.render_map (text : D → String) (f : C → D) (o : Operand C) :
    (o.map f).render text = o.render (text ∘ f) := rfl

theorem Link.render_map (text : D → String) (f : C → D) (l : Link C) :
    (l.map f).render text = l.render (text ∘ f) := rfl

theorem Branch.render_map (text : D → String) (f : C → D) (b : Branch C) :
    (b.map f).render text = b.render (text ∘ f) := by
  simp [Branch.render, Branch.map, Operand.render_map, Link.render_map, Function.comp_def]

theorem Formula.render_map (text : D → String) (f : C → D) (e : Formula C) :
    (e.map f).render text = e.render (text ∘ f) := by
  simp [Formula.render, Formula.map, Branch.render_map, Function.comp_def]

end Map

end SearchQuery
