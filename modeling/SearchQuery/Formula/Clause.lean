import SearchQuery.Formula

/-!
Clauses that nest: a leaf, or a whole formula in parentheses. `Clause.fold` replaces every
parenthesis by the value of the formula inside it; the text, the nesting depth, and the filtered
or relabelled forms of a clause are folds.
-/

namespace SearchQuery

universe u v

/-- A leaf, or a formula in parentheses. -/
inductive Clause (α : Type u) where
  | leaf (a : α)
  | paren (sub : Formula (Clause α))
deriving Repr

namespace Clause

variable {α : Type u} {β : Type v}

mutual

/-- Computes a value for a clause from the values of its leaves; `paren` sees a parenthesised
formula with every clause replaced by its value. -/
def fold (leaf : α → β) (paren : Formula β → β) : Clause α → β
  | .leaf a => leaf a
  | .paren sub => paren (foldFormula leaf paren sub)

/-- The formula with every clause replaced by its value. -/
def foldFormula (leaf : α → β) (paren : Formula β → β) : Formula (Clause α) → Formula β
  | ⟨head, rest⟩ => ⟨foldBranch leaf paren head, foldBranches leaf paren rest⟩

def foldBranches (leaf : α → β) (paren : Formula β → β) :
    List (Branch (Clause α)) → List (Branch β)
  | [] => []
  | b :: bs => foldBranch leaf paren b :: foldBranches leaf paren bs

def foldBranch (leaf : α → β) (paren : Formula β → β) : Branch (Clause α) → Branch β
  | ⟨head, rest⟩ => ⟨foldOperand leaf paren head, foldLinks leaf paren rest⟩

def foldLinks (leaf : α → β) (paren : Formula β → β) : List (Link (Clause α)) → List (Link β)
  | [] => []
  | l :: ls => foldLink leaf paren l :: foldLinks leaf paren ls

def foldLink (leaf : α → β) (paren : Formula β → β) : Link (Clause α) → Link β
  | ⟨explicit, operand⟩ => ⟨explicit, foldOperand leaf paren operand⟩

def foldOperand (leaf : α → β) (paren : Formula β → β) : Operand (Clause α) → Operand β
  | ⟨negated, clause⟩ => ⟨negated, fold leaf paren clause⟩

end

section Fold

variable {leaf : α → β} {paren : Formula β → β}

theorem foldOperand_eq_map (o : Operand (Clause α)) :
    foldOperand leaf paren o = o.map (fold leaf paren) := by
  cases o
  simp [foldOperand, Operand.map]

theorem foldLink_eq_map (l : Link (Clause α)) :
    foldLink leaf paren l = l.map (fold leaf paren) := by
  cases l
  simp [foldLink, foldOperand_eq_map, Link.map]

theorem foldLinks_eq_map (ls : List (Link (Clause α))) :
    foldLinks leaf paren ls = ls.map (Link.map (fold leaf paren)) := by
  induction ls with
  | nil => rfl
  | cons l ls ih => simp [foldLinks, foldLink_eq_map, ih]

theorem foldBranch_eq_map (b : Branch (Clause α)) :
    foldBranch leaf paren b = b.map (fold leaf paren) := by
  cases b
  simp [foldBranch, foldOperand_eq_map, foldLinks_eq_map, Branch.map]

theorem foldBranches_eq_map (bs : List (Branch (Clause α))) :
    foldBranches leaf paren bs = bs.map (Branch.map (fold leaf paren)) := by
  induction bs with
  | nil => rfl
  | cons b bs ih => simp [foldBranches, foldBranch_eq_map, ih]

theorem foldFormula_eq_map (e : Formula (Clause α)) :
    foldFormula leaf paren e = e.map (fold leaf paren) := by
  cases e
  simp [foldFormula, foldBranch_eq_map, foldBranches_eq_map, Formula.map]

@[simp]
theorem fold_leaf (a : α) : fold leaf paren (.leaf a) = leaf a := by
  simp [fold]

@[simp]
theorem fold_paren (sub : Formula (Clause α)) :
    fold leaf paren (.paren sub) = paren (sub.map (fold leaf paren)) := by
  simp [fold, foldFormula_eq_map]

end Fold

/-! ### Induction -/

theorem sizeOf_lt_of_mem_clauses {c : Clause α} {sub : Formula (Clause α)}
    (h : c ∈ sub.clauses) : sizeOf c < sizeOf (Clause.paren sub) := by
  have hoperand : ∀ o : Operand (Clause α), sizeOf o.clause < sizeOf o := by
    intro o
    cases o
    simp
  have hbranch : ∀ b : Branch (Clause α), c ∈ b.clauses → sizeOf c < sizeOf b := by
    intro b hb
    obtain ⟨head, rest⟩ := b
    simp only [Branch.clauses, Branch.operands, List.map_cons, List.map_map, List.mem_cons,
      List.mem_map, Function.comp_apply] at hb
    rcases hb with rfl | ⟨l, hl, rfl⟩
    · have := hoperand head
      simp
      omega
    · have hlink := List.sizeOf_lt_of_mem hl
      obtain ⟨explicit, operand⟩ := l
      have := hoperand operand
      simp at hlink ⊢
      omega
  obtain ⟨head, rest⟩ := sub
  simp only [Formula.clauses, Formula.branches, List.flatMap_cons, List.mem_append,
    List.mem_flatMap] at h
  rcases h with h | ⟨b, hb, h⟩
  · have := hbranch head h
    simp
    omega
  · have := hbranch b h
    have := List.sizeOf_lt_of_mem hb
    simp
    omega

/-- Induction on nested clauses: a parenthesis may assume the statement of every clause in it. -/
@[elab_as_elim, induction_eliminator]
theorem induction {motive : Clause α → Prop} (leaf : ∀ a, motive (.leaf a))
    (paren : ∀ sub, (∀ c ∈ sub.clauses, motive c) → motive (.paren sub)) (c : Clause α) :
    motive c :=
  match c with
  | .leaf a => leaf a
  | .paren sub => paren sub fun c _ => induction leaf paren c
termination_by sizeOf c
decreasing_by exact sizeOf_lt_of_mem_clauses ‹_›

/-! ### Equality -/

section DecidableEq

variable [DecidableEq α]

mutual

/-- Decides equality of clauses, parenthesis by parenthesis. -/
def decEq : (c d : Clause α) → Decidable (c = d)
  | .leaf a, .leaf b => decidable_of_iff (a = b) (by simp)
  | .leaf _, .paren _ => isFalse nofun
  | .paren _, .leaf _ => isFalse nofun
  | .paren e, .paren f =>
      have := decEqFormula e f
      decidable_of_iff (e = f) (by simp)

def decEqFormula : (e f : Formula (Clause α)) → Decidable (e = f)
  | ⟨head, rest⟩, ⟨head', rest'⟩ =>
      have := decEqBranch head head'
      have := decEqBranches rest rest'
      decidable_of_iff (head = head' ∧ rest = rest') (by simp)

def decEqBranches : (bs cs : List (Branch (Clause α))) → Decidable (bs = cs)
  | [], [] => isTrue rfl
  | [], _ :: _ => isFalse nofun
  | _ :: _, [] => isFalse nofun
  | b :: bs, c :: cs =>
      have := decEqBranch b c
      have := decEqBranches bs cs
      decidable_of_iff (b = c ∧ bs = cs) (by simp)

def decEqBranch : (b c : Branch (Clause α)) → Decidable (b = c)
  | ⟨head, rest⟩, ⟨head', rest'⟩ =>
      have := decEqOperand head head'
      have := decEqLinks rest rest'
      decidable_of_iff (head = head' ∧ rest = rest') (by simp)

def decEqLinks : (ls ks : List (Link (Clause α))) → Decidable (ls = ks)
  | [], [] => isTrue rfl
  | [], _ :: _ => isFalse nofun
  | _ :: _, [] => isFalse nofun
  | l :: ls, k :: ks =>
      have := decEqLink l k
      have := decEqLinks ls ks
      decidable_of_iff (l = k ∧ ls = ks) (by simp)

def decEqLink : (l k : Link (Clause α)) → Decidable (l = k)
  | ⟨explicit, operand⟩, ⟨explicit', operand'⟩ =>
      have := decEqOperand operand operand'
      decidable_of_iff (explicit = explicit' ∧ operand = operand') (by simp)

def decEqOperand : (o p : Operand (Clause α)) → Decidable (o = p)
  | ⟨negated, clause⟩, ⟨negated', clause'⟩ =>
      have := decEq clause clause'
      decidable_of_iff (negated = negated' ∧ clause = clause') (by simp)

end

instance : DecidableEq (Clause α) :=
  decEq

end DecidableEq

/-! ### Operations -/

/-- The canonical text, given the text of leaves. -/
def render (text : α → String) : Clause α → String :=
  fold text fun sub => "( " ++ sub.render id ++ " )"

/-- The shape at the outermost level: a leaf is a field. -/
def shape : Clause α → Shape
  | .leaf _ => .field
  | .paren _ => .paren

/-- The number of parentheses around the innermost leaf, given how deep leaves are themselves. -/
def depth (leafDepth : α → Nat) : Clause α → Nat :=
  fold leafDepth fun sub => sub.sup id + 1

/-- The truth value, given the truth of leaves. -/
def eval (truth : α → Bool) : Clause α → Bool :=
  fold truth fun sub => sub.eval id

/-- Applies a function to every leaf. -/
def map (f : α → β) : Clause α → Clause β :=
  fold (fun a => .leaf (f a)) .paren

/-- Replaces every leaf by a clause or drops it. A parenthesis that keeps nothing is dropped. -/
def filterMap (f : α → Option (Clause β)) : Clause α → Option (Clause β) :=
  fold f fun sub => (sub.filterMap id).map .paren

@[simp]
theorem render_leaf (text : α → String) (a : α) : (leaf a).render text = text a := by
  simp [render]

@[simp]
theorem render_paren (text : α → String) (sub : Formula (Clause α)) :
    (paren sub).render text = "( " ++ sub.render (render text) ++ " )" := by
  simp only [render, fold_paren, Formula.render_map]
  rfl

@[simp]
theorem map_leaf (f : α → β) (a : α) : (leaf a).map f = leaf (f a) := by
  simp [map]

@[simp]
theorem map_paren (f : α → β) (sub : Formula (Clause α)) :
    (paren sub).map f = paren (sub.map (map f)) := by
  simp only [map, fold_paren]

end Clause

end SearchQuery
