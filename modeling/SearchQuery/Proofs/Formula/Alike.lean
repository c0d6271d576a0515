import Mathlib.Data.List.Forall2
import SearchQuery.Proofs.Grammar.Clause

/-!
Formulas of the same build. Two formulas are alike if they have the same branches, joins and
negations in the same places, and related clauses there; clauses are alike if they have the same
parentheses around related leaves. What depends only on the build and on the clauses is the same
for formulas that are alike: their shape, their truth, and how deep they nest.
-/

namespace SearchQuery

variable {α β C D : Type}

/-! ### Being alike -/

/-- The same negation, and related clauses. -/
inductive Operand.Alike (r : C → D → Prop) : Operand C → Operand D → Prop where
  | mk {negated : Bool} {c : C} {d : D} : r c d → Operand.Alike r ⟨negated, c⟩ ⟨negated, d⟩

/-- Joined in the same way, with operands that are alike. -/
inductive Link.Alike (r : C → D → Prop) : Link C → Link D → Prop where
  | mk {explicit : Bool} {o : Operand C} {p : Operand D} :
      Operand.Alike r o p → Link.Alike r ⟨explicit, o⟩ ⟨explicit, p⟩

/-- As many operands, alike one by one. -/
inductive Branch.Alike (r : C → D → Prop) : Branch C → Branch D → Prop where
  | mk {o : Operand C} {p : Operand D} {ls : List (Link C)} {ks : List (Link D)} :
      Operand.Alike r o p → List.Forall₂ (Link.Alike r) ls ks → Branch.Alike r ⟨o, ls⟩ ⟨p, ks⟩

/-- As many branches, alike one by one. -/
inductive Formula.Alike (r : C → D → Prop) : Formula C → Formula D → Prop where
  | mk {b : Branch C} {d : Branch D} {bs : List (Branch C)} {ds : List (Branch D)} :
      Branch.Alike r b d → List.Forall₂ (Branch.Alike r) bs ds → Formula.Alike r ⟨b, bs⟩ ⟨d, ds⟩

/-- The same parentheses around related leaves. -/
inductive Clause.Alike (r : α → β → Prop) : Clause α → Clause β → Prop where
  | leaf {a : α} {b : β} : r a b → Clause.Alike r (.leaf a) (.leaf b)
  | paren {e : Formula (Clause α)} {f : Formula (Clause β)} :
      Formula.Alike (Clause.Alike r) e f → Clause.Alike r (.paren e) (.paren f)

/-! ### Mapped formulas -/

section Map

variable {r : C → D → Prop} {f : C → D}

theorem Link.alike_map {l : Link C} (h : r l.operand.clause (f l.operand.clause)) :
    Link.Alike r l (l.map f) :=
  .mk (.mk h)

theorem Branch.alike_map {b : Branch C} (h : ∀ c ∈ b.clauses, r c (f c)) :
    Branch.Alike r b (b.map f) := by
  simp only [clauses, operands, List.map_cons, List.map_map, List.forall_mem_cons,
    List.forall_mem_map, Function.comp_apply] at h
  refine .mk (.mk h.1) (List.forall₂_map_right_iff.mpr ?_)
  exact List.forall₂_same.mpr fun l hl => Link.alike_map (h.2 l hl)

theorem Branch.alike_self {r : C → C → Prop} {b : Branch C} (h : ∀ c ∈ b.clauses, r c c) :
    Branch.Alike r b b := by
  obtain ⟨o, ls⟩ := b
  simp only [clauses, operands, List.map_cons, List.map_map, List.forall_mem_cons,
    List.forall_mem_map, Function.comp_apply] at h
  exact .mk (.mk h.1) (List.forall₂_same.mpr fun l hl => .mk (.mk (h.2 l hl)))

theorem Formula.alike_map {e : Formula C} (h : ∀ c ∈ e.clauses, r c (f c)) :
    Formula.Alike r e (e.map f) := by
  have hbranch : ∀ b ∈ e.branches, Branch.Alike r b (b.map f) :=
    fun b hb => Branch.alike_map fun c hc => h c (List.mem_flatMap.mpr ⟨b, hb, hc⟩)
  refine .mk (hbranch _ List.mem_cons_self) (List.forall₂_map_right_iff.mpr ?_)
  exact List.forall₂_same.mpr fun b hb => hbranch b (List.mem_cons_of_mem _ hb)

end Map

/-- A function on leaves leaves the build of a clause as it is. -/
theorem Clause.alike_map {r : α → β → Prop} {f : α → β} (h : ∀ a, r a (f a)) (c : Clause α) :
    Clause.Alike r c (c.map f) := by
  induction c with
  | leaf a =>
      rw [Clause.map_leaf]
      exact .leaf (h a)
  | paren sub ih =>
      rw [Clause.map_paren]
      exact .paren (Formula.alike_map ih)

/-! ### Filtered formulas -/

theorem Branch.clauses_eq_map_links (b : Branch C) :
    b.clauses = b.links.map fun l => l.operand.clause := by
  simp [clauses, operands, links, Function.comp_def]

theorem Branch.filterMap_map {E : Type} (f : D → Option E) (g : C → D) (b : Branch C) :
    (b.map g).filterMap f = b.filterMap (f ∘ g) := by
  have hlinks : (b.map g).links = b.links.map (Link.map g) := rfl
  rw [filterMap_eq, hlinks, List.filterMap_map, filterMap_eq]
  rfl

theorem Formula.filterMap_map {E : Type} (f : D → Option E) (g : C → D) (e : Formula C) :
    (e.map g).filterMap f = e.filterMap (f ∘ g) := by
  have hbranches : (e.map g).branches = e.branches.map (Branch.map g) := rfl
  rw [filterMap_eq, hbranches, List.filterMap_map, filterMap_eq]
  congr 2
  funext b
  exact Branch.filterMap_map f g b

section Filter

variable {f : C → Option D}

theorem Branch.filterMap_eq_some {g : C → D} {b : Branch C}
    (h : ∀ c ∈ b.clauses, f c = some (g c)) : b.filterMap f = some (b.map g) := by
  rw [clauses_eq_map_links, List.forall_mem_map] at h
  have hlinks : b.links.filterMap (Link.filterMap f) = b.links.map (Link.map g) := by
    rw [← List.filterMap_eq_map]
    apply List.filterMap_congr
    intro l hl
    simp [Link.filterMap_eq, h l hl, Link.map, Operand.map]
  rw [filterMap_eq, hlinks]
  rfl

/-- A formula all of whose clauses have a result keeps its build. -/
theorem Formula.filterMap_eq_some {g : C → D} {e : Formula C}
    (h : ∀ c ∈ e.clauses, f c = some (g c)) : e.filterMap f = some (e.map g) := by
  have hbranches : e.branches.filterMap (Branch.filterMap f) = e.branches.map (Branch.map g) := by
    rw [← List.filterMap_eq_map]
    apply List.filterMap_congr
    intro b hb
    exact Branch.filterMap_eq_some fun c hc => h c (List.mem_flatMap.mpr ⟨b, hb, hc⟩)
  rw [filterMap_eq, hbranches]
  rfl

theorem Branch.filterMap_eq_none {b : Branch C} (h : ∀ c ∈ b.clauses, f c = none) :
    b.filterMap f = none := by
  rw [clauses_eq_map_links, List.forall_mem_map] at h
  have hlinks : b.links.filterMap (Link.filterMap f) = [] := by
    rw [List.filterMap_eq_nil_iff]
    intro l hl
    simp [Link.filterMap_eq, h l hl]
  rw [filterMap_eq, hlinks]
  rfl

/-- A formula none of whose clauses has a result is nothing. -/
theorem Formula.filterMap_eq_none {e : Formula C} (h : ∀ c ∈ e.clauses, f c = none) :
    e.filterMap f = none := by
  have hbranches : e.branches.filterMap (Branch.filterMap f) = [] := by
    rw [List.filterMap_eq_nil_iff]
    intro b hb
    exact Branch.filterMap_eq_none fun c hc => h c (List.mem_flatMap.mpr ⟨b, hb, hc⟩)
  rw [filterMap_eq, hbranches]
  rfl

end Filter

namespace Clause

variable {f : α → Option (Clause β)}

@[simp]
theorem filterMap_leaf (a : α) : (leaf a).filterMap f = f a := by
  simp [filterMap]

theorem filterMap_paren (sub : Formula (Clause α)) :
    (paren sub).filterMap f = (sub.filterMap (filterMap f)).map .paren := by
  rw [filterMap, fold_paren, Formula.filterMap_map]
  rfl

/-- Leaves that all become leaves leave the parentheses as they are. -/
theorem filterMap_eq_some {g : α → β} (h : ∀ a, f a = some (.leaf (g a))) (c : Clause α) :
    c.filterMap f = some (c.map g) := by
  induction c with
  | leaf a => rw [filterMap_leaf, map_leaf, h]
  | paren sub ih => rw [filterMap_paren, map_paren, Formula.filterMap_eq_some ih, Option.map_some]

/-- Where all leaves are dropped, so are the parentheses. -/
theorem filterMap_eq_none (h : ∀ a, f a = none) (c : Clause α) : c.filterMap f = none := by
  induction c with
  | leaf a => rw [filterMap_leaf, h]
  | paren sub ih => rw [filterMap_paren, Formula.filterMap_eq_none ih, Option.map_none]

end Clause

/-! ### What formulas that are alike have in common -/

section Common

variable {r s : C → D → Prop} {e : Formula C} {f : Formula D}

theorem Branch.Alike.imp {b : Branch C} {d : Branch D}
    (h : ∀ x ∈ b.clauses, ∀ y, r x y → s x y) (hb : Branch.Alike r b d) : Branch.Alike s b d := by
  obtain ⟨⟨hclause⟩, hrest⟩ := hb
  simp only [clauses, operands, List.map_cons, List.map_map, List.forall_mem_cons,
    List.forall_mem_map, Function.comp_apply] at h
  obtain ⟨hhead, hlinks⟩ := h
  refine .mk (.mk (hhead _ hclause)) ?_
  clear hclause hhead
  induction hrest with
  | nil => exact .nil
  | cons hl _ ih =>
      rw [List.forall_mem_cons] at hlinks
      obtain ⟨⟨hclause⟩⟩ := hl
      exact .cons (.mk (.mk (hlinks.1 _ hclause))) (ih hlinks.2)

/-- The relation may be replaced for the clauses that there are. -/
theorem Formula.Alike.imp (h : ∀ x ∈ e.clauses, ∀ y, r x y → s x y) (he : Formula.Alike r e f) :
    Formula.Alike s e f := by
  obtain ⟨hhead, hrest⟩ := he
  simp only [clauses, branches, List.flatMap_cons, List.forall_mem_append] at h
  obtain ⟨hb, hbs⟩ := h
  refine .mk (hhead.imp hb) ?_
  clear hhead hb
  induction hrest with
  | nil => exact .nil
  | cons hb _ ih =>
      rw [List.flatMap_cons, List.forall_mem_append] at hbs
      exact .cons (hb.imp hbs.1) (ih hbs.2)

theorem Branch.Alike.operands {b : Branch C} {d : Branch D} (h : Branch.Alike r b d) :
    List.Forall₂ (Operand.Alike r) b.operands d.operands := by
  obtain ⟨ho, hls⟩ := h
  refine .cons ho (List.forall₂_map_left_iff.mpr (List.forall₂_map_right_iff.mpr ?_))
  exact hls.imp fun l k hl => by
    obtain ⟨ho⟩ := hl
    exact ho

theorem Formula.Alike.branches (h : Formula.Alike r e f) :
    List.Forall₂ (Branch.Alike r) e.branches f.branches := by
  obtain ⟨hb, hbs⟩ := h
  exact .cons hb hbs

theorem Formula.Alike.shape_eq {shape : C → Shape} {shape' : D → Shape}
    (hr : ∀ c d, r c d → shape' d = shape c) (h : Formula.Alike r e f) :
    f.shape shape' = e.shape shape := by
  obtain ⟨⟨⟨hclause⟩, hls⟩, hbs⟩ := h
  simp only [Formula.shape, Branch.shape, Operand.shape, hr _ _ hclause]
  cases hbs <;> cases hls <;> simp

theorem Branch.Alike.eval_eq {truth : C → Bool} {truth' : D → Bool} {b : Branch C} {d : Branch D}
    (hr : ∀ x y, r x y → truth' y = truth x) (h : Branch.Alike r b d) :
    d.eval truth' = b.eval truth := by
  have hos := h.operands
  unfold Branch.eval
  generalize b.operands = os, d.operands = ps at hos
  induction hos with
  | nil => rfl
  | cons ho _ ih =>
      obtain ⟨hclause⟩ := ho
      simp [Operand.eval, hr _ _ hclause, ih]

theorem Formula.Alike.eval_eq {truth : C → Bool} {truth' : D → Bool}
    (hr : ∀ x y, r x y → truth' y = truth x) (h : Formula.Alike r e f) :
    f.eval truth' = e.eval truth := by
  have hbs := h.branches
  unfold Formula.eval
  generalize e.branches = bs, f.branches = ds at hbs
  induction hbs with
  | nil => rfl
  | cons hb _ ih => simp [hb.eval_eq hr, ih]

theorem Formula.Alike.clauses (h : Formula.Alike r e f) :
    List.Forall₂ r e.clauses f.clauses := by
  have hbs := h.branches
  unfold Formula.clauses
  generalize e.branches = bs, f.branches = ds at hbs
  induction hbs with
  | nil => exact .nil
  | cons hb _ ih =>
      rw [List.flatMap_cons, List.flatMap_cons]
      refine List.rel_append ?_ ih
      refine List.forall₂_map_left_iff.mpr (List.forall₂_map_right_iff.mpr ?_)
      exact hb.operands.imp fun o p ho => by
        obtain ⟨hclause⟩ := ho
        exact hclause

theorem Formula.Alike.sup_le {measure : C → Nat} {measure' : D → Nat}
    (hr : ∀ c d, r c d → measure' d ≤ measure c) (h : Formula.Alike r e f) :
    f.sup measure' ≤ e.sup measure := by
  have hcs := h.clauses
  unfold Formula.sup
  generalize e.clauses = cs, f.clauses = ds at hcs
  induction hcs with
  | nil => exact Nat.le_refl _
  | cons hclause _ ih =>
      have hle := hr _ _ hclause
      simp only [List.map_cons, List.foldr_cons]
      omega

end Common

namespace Clause

variable {r : α → β → Prop} {c : Clause α} {d : Clause β}

theorem eval_paren (truth : α → Bool) (sub : Formula (Clause α)) :
    (paren sub).eval truth = sub.eval (eval truth) := by
  have hmap : Formula.Alike (fun c v => v = c.eval truth) sub (sub.map (eval truth)) :=
    Formula.alike_map fun _ _ => rfl
  rw [eval, fold_paren]
  exact hmap.eval_eq fun _ _ => id

theorem Alike.shape_eq (h : Clause.Alike r c d) : d.shape = c.shape := by
  cases h <;> rfl

theorem Alike.eval_eq {truth : α → Bool} {truth' : β → Bool}
    (hr : ∀ a b, r a b → truth' b = truth a) (h : Clause.Alike r c d) :
    d.eval truth' = c.eval truth := by
  induction c generalizing d with
  | leaf a =>
      cases h with
      | leaf hleaf => simp [eval, hr _ _ hleaf]
  | paren sub ih =>
      cases h with
      | paren hsub =>
          rw [eval_paren, eval_paren]
          apply Formula.Alike.eval_eq fun _ _ => id
          exact hsub.imp fun x hx y => ih x hx

theorem Alike.depth_le {leafDepth : α → Nat} {leafDepth' : β → Nat}
    (hr : ∀ a b, r a b → leafDepth' b ≤ leafDepth a) (h : Clause.Alike r c d) :
    d.depth leafDepth' ≤ c.depth leafDepth := by
  induction c generalizing d with
  | leaf a =>
      cases h with
      | leaf hleaf => simpa using hr _ _ hleaf
  | paren sub ih =>
      cases h with
      | paren hsub =>
          rw [depth_paren, depth_paren, Nat.add_le_add_iff_right]
          apply Formula.Alike.sup_le fun _ _ => id
          exact hsub.imp fun x hx y => ih x hx

end Clause

end SearchQuery
