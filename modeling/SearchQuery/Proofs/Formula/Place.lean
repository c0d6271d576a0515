import SearchQuery.Proofs.Formula.Alike

/-!
Places of clauses. A clause is found by its branch and its number there, level by level through the
parentheses around it. Putting another clause in its place changes nothing else.
-/

namespace SearchQuery

variable {α C : Type}

/-- A place in a formula: the branch, and the operand within it. -/
structure Place where
  branch : Nat
  operand : Nat
deriving DecidableEq, Repr

/-! ### One level -/

/-- The clause at a place. -/
def Formula.clause? (p : Place) (e : Formula C) : Option C :=
  e.branches[p.branch]?.bind fun b => b.clauses[p.operand]?

/-- Applies a function to the clause of one operand. -/
def Branch.modify (f : C → C) (b : Branch C) : Nat → Branch C
  | 0 => ⟨b.head.map f, b.rest⟩
  | n + 1 => ⟨b.head, b.rest.modify n (Link.map f)⟩

/-- Applies a function to the clause at a place. -/
def Formula.modify (f : C → C) (p : Place) (e : Formula C) : Formula C :=
  match p.branch with
  | 0 => ⟨e.head.modify f p.operand, e.rest⟩
  | n + 1 => ⟨e.head, e.rest.modify n fun b => b.modify f p.operand⟩

theorem forall₂_modify {r : α → α → Prop} {f : α → α} {xs : List α} {n : Nat}
    (hsame : ∀ x ∈ xs, r x x) (hnew : ∀ x ∈ xs[n]?, r x (f x)) :
    List.Forall₂ r xs (xs.modify n f) := by
  induction xs generalizing n with
  | nil => simp
  | cons x xs ih =>
      rw [List.forall_mem_cons] at hsame
      cases n with
      | zero => exact .cons (hnew x rfl) (List.forall₂_same.mpr hsame.2)
      | succ n => exact .cons hsame.1 (ih hsame.2 hnew)

section Modify

variable {r : C → C → Prop} {f : C → C}

theorem Branch.alike_modify {b : Branch C} {n : Nat} (hsame : ∀ c ∈ b.clauses, r c c)
    (hnew : ∀ c ∈ b.clauses[n]?, r c (f c)) : Branch.Alike r b (b.modify f n) := by
  obtain ⟨ho, hls⟩ := Branch.alike_self hsame
  cases n with
  | zero => exact .mk (.mk (hnew _ rfl)) hls
  | succ n =>
      refine .mk ho (forall₂_modify (List.forall₂_same.mp hls) ?_)
      intro l hl
      apply Link.alike_map
      apply hnew
      rw [Option.mem_def] at hl
      simp [clauses, operands, hl]

/-- Only the clause at the place is changed. -/
theorem Formula.alike_modify {e : Formula C} {p : Place} (hsame : ∀ c ∈ e.clauses, r c c)
    (hnew : ∀ c ∈ e.clause? p, r c (f c)) : Formula.Alike r e (e.modify f p) := by
  obtain ⟨b, bs⟩ := e
  obtain ⟨i, j⟩ := p
  have hbranches : ∀ d ∈ branches ⟨b, bs⟩, ∀ c ∈ d.clauses, r c c :=
    fun d hd c hc => hsame c (List.mem_flatMap.mpr ⟨d, hd, hc⟩)
  have hhead := hbranches b List.mem_cons_self
  have hrest := fun d hd => hbranches d (List.mem_cons_of_mem b hd)
  have hself : ∀ d ∈ bs, Branch.Alike r d d := fun d hd => Branch.alike_self (hrest d hd)
  cases i with
  | zero => exact .mk (Branch.alike_modify hhead hnew) (List.forall₂_same.mpr hself)
  | succ i =>
      refine .mk (Branch.alike_self hhead) (forall₂_modify hself ?_)
      intro d hd
      rw [Option.mem_def] at hd
      apply Branch.alike_modify (hrest d (List.mem_of_getElem? hd))
      intro c hc
      rw [Option.mem_def] at hc
      exact hnew c (by simp [clause?, branches, hd, hc])

end Modify

theorem Branch.clauses_modify (f : C → C) (b : Branch C) (n : Nat) :
    (b.modify f n).clauses[n]? = b.clauses[n]?.map f := by
  cases n with
  | zero => rfl
  | succ n => simp [modify, clauses, operands, Function.comp_def, Link.map, Operand.map]

theorem Formula.clause?_modify (f : C → C) (e : Formula C) (p : Place) :
    (e.modify f p).clause? p = (e.clause? p).map f := by
  obtain ⟨i, j⟩ := p
  cases i with
  | zero => exact Branch.clauses_modify f e.head j
  | succ i =>
      simp only [clause?, modify, branches, List.getElem?_cons_succ, List.getElem?_modify_eq]
      cases e.rest[i]? with
      | none => rfl
      | some b => exact Branch.clauses_modify f b j

theorem Formula.mem_clauses_of_clause? {e : Formula C} {p : Place} {c : C}
    (h : e.clause? p = some c) : c ∈ e.clauses := by
  obtain ⟨b, hb, hc⟩ := Option.bind_eq_some_iff.mp h
  exact List.mem_flatMap.mpr ⟨b, List.mem_of_getElem? hb, List.mem_of_getElem? hc⟩

theorem Formula.exists_clause?_of_mem {e : Formula C} {c : C} (h : c ∈ e.clauses) :
    ∃ p, e.clause? p = some c := by
  obtain ⟨b, hb, hc⟩ := List.mem_flatMap.mp h
  obtain ⟨i, hi⟩ := List.getElem?_of_mem hb
  obtain ⟨j, hj⟩ := List.getElem?_of_mem hc
  exact ⟨⟨i, j⟩, Option.bind_eq_some_iff.mpr ⟨b, hi, hj⟩⟩

theorem Formula.le_sup_of_clause? {measure : C → Nat} {e : Formula C} {p : Place} {c : C}
    (h : e.clause? p = some c) : measure c ≤ e.sup measure := by
  apply Formula.sup_le_iff.mp (Nat.le_refl _)
  exact mem_clauses_of_clause? h

/-! ### All levels -/

namespace Clause

/-- The clause at the end of a path through parentheses. -/
def at? : List Place → Clause α → Option (Clause α)
  | [], c => some c
  | p :: path, .paren sub => (sub.clause? p).bind (at? path)
  | _ :: _, .leaf _ => none

/-- Puts a clause at the end of a path. -/
def replaceAt (d : Clause α) : List Place → Clause α → Clause α
  | [], _ => d
  | p :: path, .paren sub => .paren (sub.modify (replaceAt d path) p)
  | _ :: _, .leaf a => .leaf a

theorem at?_replaceAt {c old : Clause α} {path : List Place} (h : c.at? path = some old)
    (d : Clause α) : (replaceAt d path c).at? path = some d := by
  induction path generalizing c with
  | nil => rfl
  | cons p path ih =>
      cases c with
      | leaf a => cases h
      | paren sub =>
          obtain ⟨x, hx, hold⟩ := Option.bind_eq_some_iff.mp h
          simp only [replaceAt, at?, Formula.clause?_modify, hx]
          exact ih hold

theorem depth_le_of_at? {leafDepth : α → Nat} {c d : Clause α} {path : List Place}
    (h : c.at? path = some d) : d.depth leafDepth ≤ c.depth leafDepth := by
  induction path generalizing c with
  | nil =>
      cases h
      exact Nat.le_refl _
  | cons p path ih =>
      cases c with
      | leaf a => cases h
      | paren sub =>
          obtain ⟨x, hx, hd⟩ := Option.bind_eq_some_iff.mp h
          calc d.depth leafDepth
              _ ≤ x.depth leafDepth := ih hd
              _ ≤ sub.sup (depth leafDepth) := Formula.le_sup_of_clause? hx
              _ ≤ (paren sub).depth leafDepth := by simp

/-- The nesting grows no deeper if the new clause is not deeper than the old one. -/
theorem depth_replaceAt_le {leafDepth : α → Nat} {c d old : Clause α} {path : List Place}
    (h : c.at? path = some old) (hd : d.depth leafDepth ≤ old.depth leafDepth) :
    (replaceAt d path c).depth leafDepth ≤ c.depth leafDepth := by
  induction path generalizing c with
  | nil =>
      cases h
      exact hd
  | cons p path ih =>
      cases c with
      | leaf a => cases h
      | paren sub =>
          obtain ⟨x, hx, hold⟩ := Option.bind_eq_some_iff.mp h
          rw [replaceAt, depth_paren, depth_paren, Nat.add_le_add_iff_right]
          apply Formula.Alike.sup_le fun _ _ => id
          apply Formula.alike_modify
          · exact fun y _ => Nat.le_refl _
          · intro y hy
            obtain rfl : x = y := Option.some.inj (hx.symm.trans hy)
            exact ih hold

end Clause

/-- The clause at a place of the formula, and from there at the end of a path. -/
def Formula.clauseAt? (p : Place) (path : List Place) (e : Formula (Clause α)) :
    Option (Clause α) :=
  (e.clause? p).bind (Clause.at? path)

/-- Puts a clause there. -/
def Formula.replaceAt (d : Clause α) (p : Place) (path : List Place) (e : Formula (Clause α)) :
    Formula (Clause α) :=
  e.modify (Clause.replaceAt d path) p

theorem Formula.clauseAt?_replaceAt {e : Formula (Clause α)} {p : Place} {path : List Place}
    {old : Clause α} (h : e.clauseAt? p path = some old) (d : Clause α) :
    (e.replaceAt d p path).clauseAt? p path = some d := by
  have hparen : (Clause.paren e).at? (p :: path) = some old := h
  exact Clause.at?_replaceAt hparen d

theorem Formula.depth_le_of_clauseAt? {leafDepth : α → Nat} {e : Formula (Clause α)} {p : Place}
    {path : List Place} {c : Clause α} (h : e.clauseAt? p path = some c) :
    c.depth leafDepth ≤ e.sup (Clause.depth leafDepth) := by
  obtain ⟨x, hx, hc⟩ := Option.bind_eq_some_iff.mp h
  exact (Clause.depth_le_of_at? hc).trans (le_sup_of_clause? hx)

theorem Formula.depth_replaceAt_le {leafDepth : α → Nat} {e : Formula (Clause α)} {p : Place}
    {path : List Place} {old d : Clause α} (h : e.clauseAt? p path = some old)
    (hd : d.depth leafDepth ≤ old.depth leafDepth) :
    (e.replaceAt d p path).sup (Clause.depth leafDepth) ≤ e.sup (Clause.depth leafDepth) := by
  have hparen : (Clause.paren e).at? (p :: path) = some old := h
  have hle := Clause.depth_replaceAt_le hparen hd
  rw [Clause.replaceAt, Clause.depth_paren, Clause.depth_paren] at hle
  exact Nat.le_of_add_le_add_right hle

end SearchQuery
