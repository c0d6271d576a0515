import Mathlib.Data.List.Forall2
import SearchQuery.Proofs.Canonical.WellFormed
import SearchQuery.Proofs.Formula.Alike

/-!
Filtered formulas. What a filter leaves of a formula is a part of its branches with a part of their
operands, in order and with the negations and joins they had; only how the first operand of a branch
was joined is forgotten. A filter may carry a state from one clause to the next, so that it can tell
equal clauses apart by where they stand.
-/

namespace SearchQuery

variable {α β C D σ : Type}

/-! ### Parts of lists -/

theorem exists_mem_of_sublistForall₂ {r : β → α → Prop} {ys : List β} {xs : List α}
    (h : List.SublistForall₂ r ys xs) : ∀ y ∈ ys, ∃ x ∈ xs, r y x := by
  induction h with
  | nil => simp
  | cons hxy _ ih =>
      rw [List.forall_mem_cons]
      refine ⟨⟨_, List.mem_cons_self, hxy⟩, ?_⟩
      intro y hy
      obtain ⟨x, hx, hr⟩ := ih y hy
      exact ⟨x, List.mem_cons_of_mem _ hx, hr⟩
  | cons_right _ ih =>
      intro y hy
      obtain ⟨x, hx, hr⟩ := ih y hy
      exact ⟨x, List.mem_cons_of_mem _ hx, hr⟩

theorem sublistForall₂_append {r : β → α → Prop} {ys ys' : List β} {xs xs' : List α}
    (h : List.SublistForall₂ r ys xs) (h' : List.SublistForall₂ r ys' xs') :
    List.SublistForall₂ r (ys ++ ys') (xs ++ xs') := by
  rw [List.sublistForall₂_iff] at h h' ⊢
  obtain ⟨zs, hzs, hsub⟩ := h
  obtain ⟨zs', hzs', hsub'⟩ := h'
  exact ⟨zs ++ zs', List.rel_append hzs hzs', hsub.append hsub'⟩

/-- A filter with a state leaves results of a part of the list. -/
theorem sublistForall₂_filterMapM {f : α → StateM σ (Option β)} {r : β → α → Prop} {xs : List α}
    (hf : ∀ x ∈ xs, ∀ st, ∀ y ∈ ((f x).run st).1, r y x) (st : σ) :
    List.SublistForall₂ r ((xs.filterMapM f).run st).1 xs := by
  induction xs generalizing st with
  | nil => exact .nil
  | cons x xs ih =>
      rw [List.forall_mem_cons] at hf
      obtain ⟨hx, hxs⟩ := hf
      have hfound := hx st
      rw [List.filterMapM_cons, StateT.run_bind]
      generalize (f x).run st = found at hfound ⊢
      obtain ⟨_ | y, st'⟩ := found
      · exact .cons_right (ih hxs st')
      · exact .cons (hfound y rfl) (ih hxs st')

/-! ### Parts of formulas -/

/-- What is left of a branch. -/
def Branch.Thinned (r : C → D → Prop) (b : Branch C) (d : Branch D) : Prop :=
  ∃ ks, Branch.ofLinks? ks = some d ∧ List.SublistForall₂ (fun k l => Link.Alike r l k) ks b.links

/-- What is left of a formula. -/
def Formula.Thinned (r : C → D → Prop) (e : Formula C) (f : Formula D) : Prop :=
  List.SublistForall₂ (fun d b => Branch.Thinned r b d) f.branches e.branches

theorem Formula.clauses_eq_map_operands (e : Formula C) :
    e.clauses = e.operands.map Operand.clause := by
  rw [clauses, operands, List.map_flatMap]
  rfl

section Thinned

variable {r : C → D → Prop} {b : Branch C} {d : Branch D} {e : Formula C} {f : Formula D}

/-- The first operand that is left may have stood next to another one, and is negated then. -/
theorem Branch.Thinned.juxtaposesNegated (h : Branch.Thinned r b d) (hb : b.JuxtaposesNegated) :
    d.JuxtaposesNegated := by
  obtain ⟨ks, hks, hsub⟩ := h
  cases ks with
  | nil => cases hks
  | cons k ks =>
      cases hks
      intro k' hk' hexplicit
      obtain ⟨l, hl, hlink⟩ := exists_mem_of_sublistForall₂ hsub k' (List.mem_cons_of_mem k hk')
      rcases List.mem_cons.mp hl with rfl | hl
      · cases hlink
        cases hexplicit
      · obtain ⟨⟨-⟩⟩ := hlink
        exact hb _ hl hexplicit

theorem Formula.Thinned.juxtaposesNegated (h : Formula.Thinned r e f)
    (he : e.JuxtaposesNegated) : f.JuxtaposesNegated := by
  intro d hd
  obtain ⟨b, hb, hthinned⟩ := exists_mem_of_sublistForall₂ h d hd
  exact hthinned.juxtaposesNegated (he b hb)

theorem Branch.Thinned.operands (h : Branch.Thinned r b d) :
    List.SublistForall₂ (fun p o => Operand.Alike r o p) d.operands b.operands := by
  obtain ⟨ks, hks, hsub⟩ := h
  cases ks with
  | nil => cases hks
  | cons k ks =>
      cases hks
      have hmap : List.SublistForall₂ (fun p o => Operand.Alike r o p)
          ((k :: ks).map Link.operand) (b.links.map Link.operand) := by
        rw [List.sublistForall₂_map_left_iff, List.sublistForall₂_map_right_iff]
        rw [List.sublistForall₂_iff] at hsub ⊢
        obtain ⟨ls, hls, hsub⟩ := hsub
        refine ⟨ls, hls.imp ?_, hsub⟩
        rintro k l ⟨ho⟩
        exact ho
      exact hmap

theorem Formula.Thinned.operands (h : Formula.Thinned r e f) :
    List.SublistForall₂ (fun p o => Operand.Alike r o p) f.operands e.operands := by
  unfold Formula.Thinned at h
  unfold Formula.operands
  generalize f.branches = ds, e.branches = bs at h
  induction h with
  | nil => exact .nil
  | cons hbranch _ ih => exact sublistForall₂_append hbranch.operands ih
  | cons_right _ ih => exact sublistForall₂_append .nil ih

/-- Every clause that is left comes from one that there was. -/
theorem Formula.Thinned.exists_of_mem (h : Formula.Thinned r e f) {y : D} (hy : y ∈ f.clauses) :
    ∃ x ∈ e.clauses, r x y := by
  rw [Formula.clauses_eq_map_operands] at hy ⊢
  obtain ⟨p, hp, rfl⟩ := List.mem_map.mp hy
  obtain ⟨o, ho, ⟨hclause⟩⟩ := exists_mem_of_sublistForall₂ h.operands p hp
  exact ⟨_, List.mem_map_of_mem ho, hclause⟩

theorem Formula.Thinned.sup_le {measure : D → Nat} {n : Nat} (h : Formula.Thinned r e f)
    (hr : ∀ x ∈ e.clauses, ∀ y, r x y → measure y ≤ n) : f.sup measure ≤ n := by
  rw [Formula.sup_le_iff]
  intro y hy
  obtain ⟨x, hx, hxy⟩ := h.exists_of_mem hy
  exact hr x hx y hxy

end Thinned

/-! ### Parts with the clauses they had -/

section Unchanged

variable {e f : Formula C}

theorem Operand.alike_eq_iff {o p : Operand C} : Operand.Alike Eq o p ↔ o = p := by
  constructor
  · rintro ⟨rfl⟩
    rfl
  · rintro rfl
    exact .mk rfl

theorem Formula.Thinned.operands_sublist (h : Formula.Thinned Eq e f) :
    f.operands.Sublist e.operands := by
  have hsub := h.operands
  simp only [Operand.alike_eq_iff] at hsub
  obtain ⟨os, hos, hsub⟩ := List.sublistForall₂_iff.mp hsub
  have heq : List.Forall₂ Eq f.operands os := hos.imp fun _ _ => Eq.symm
  rw [List.forall₂_eq_eq_eq] at heq
  exact heq ▸ hsub

/-- What may only come last is followed by nothing that could be put behind it. -/
theorem Formula.lastOnly_iff {p : C → Prop} :
    e.LastOnly p ↔ e.operands.Pairwise fun o _ => o.negated = false → ¬ p o.clause := by
  constructor
  · intro h
    rw [List.pairwise_iff_forall_sublist]
    intro o o' hsub hplain hclause
    obtain ⟨front, back, hsplit, ho, ho'⟩ := List.cons_sublist_iff.mp hsub
    obtain ⟨before, after, rfl⟩ := List.append_of_mem ho
    rw [List.append_assoc, List.cons_append] at hsplit
    have hnil := h before o (after ++ back) hsplit hplain hclause
    rw [(List.append_eq_nil_iff.mp hnil).2] at ho'
    simp at ho'
  · intro h before o after hsplit hplain hclause
    rw [hsplit, List.pairwise_append, List.pairwise_cons] at h
    cases after with
    | nil => rfl
    | cons o' after => exact absurd hclause (h.2.1.1 o' List.mem_cons_self hplain)

theorem Formula.Thinned.lastOnly {p : C → Prop} (h : Formula.Thinned Eq e f)
    (he : e.LastOnly p) : f.LastOnly p := by
  rw [Formula.lastOnly_iff] at he ⊢
  exact he.sublist h.operands_sublist

end Unchanged

/-! ### What filters leave -/

section Filter

variable {f : C → StateM σ (Option D)} {r : C → D → Prop}

theorem Link.alike_filterMapM {l : Link C} {k : Link D} {st : σ}
    (hf : ∀ y ∈ ((f l.operand.clause).run st).1, r l.operand.clause y)
    (h : ((l.filterMapM f).run st).1 = some k) : Link.Alike r l k := by
  have hrun : ((l.filterMapM f).run st).1 =
      (((f l.operand.clause).run st).1.map (Operand.mk l.operand.negated)).map
        (Link.mk l.explicit) := rfl
  rw [hrun, Option.map_map] at h
  obtain ⟨y, hy, rfl⟩ := Option.map_eq_some_iff.mp h
  exact .mk (.mk (hf y hy))

theorem Branch.thinned_filterMapM {b : Branch C} {d : Branch D} {st : σ}
    (hf : ∀ c ∈ b.clauses, ∀ st, ∀ y ∈ ((f c).run st).1, r c y)
    (h : ((b.filterMapM f).run st).1 = some d) : Branch.Thinned r b d := by
  have hrun : ((b.filterMapM f).run st).1 =
      ofLinks? ((b.links.filterMapM (Link.filterMapM f)).run st).1 := rfl
  rw [hrun] at h
  refine ⟨_, h, sublistForall₂_filterMapM ?_ st⟩
  intro l hl st k hk
  rw [clauses_eq_map_links, List.forall_mem_map] at hf
  exact Link.alike_filterMapM (hf l hl st) hk

theorem Formula.thinned_filterMapM {e : Formula C} {e' : Formula D} {st : σ}
    (hf : ∀ c ∈ e.clauses, ∀ st, ∀ y ∈ ((f c).run st).1, r c y)
    (h : ((e.filterMapM f).run st).1 = some e') : Formula.Thinned r e e' := by
  have hrun : ((e.filterMapM f).run st).1 =
      ofBranches? ((e.branches.filterMapM (Branch.filterMapM f)).run st).1 := rfl
  have hsub : List.SublistForall₂ (fun d b => Branch.Thinned r b d)
      ((e.branches.filterMapM (Branch.filterMapM f)).run st).1 e.branches := by
    apply sublistForall₂_filterMapM
    intro b hb st d hd
    exact Branch.thinned_filterMapM (fun c hc => hf c (List.mem_flatMap.mpr ⟨b, hb, hc⟩)) hd
  rw [hrun] at h
  generalize ((e.branches.filterMapM (Branch.filterMapM f)).run st).1 = ds at h hsub
  cases ds with
  | nil => cases h
  | cons d ds =>
      cases h
      exact hsub

end Filter

/-! ### Filters without effects -/

section Pure

variable {m : Type → Type} [Monad m] [LawfulMonad m]

theorem Link.filterMapM_pure (f : C → Option D) :
    Link.filterMapM (fun c => (pure (f c) : m (Option D))) = fun l => pure (l.filterMap f) := by
  funext l
  simp [Link.filterMapM, Operand.filterMapM, Link.filterMap_eq]

theorem Branch.filterMapM_pure (f : C → Option D) :
    Branch.filterMapM (fun c => (pure (f c) : m (Option D))) = fun b => pure (b.filterMap f) := by
  funext b
  simp [Branch.filterMapM, Branch.filterMap_eq, Link.filterMapM_pure, filterMapM_eq_pure]

/-- A filter that uses no effect is the plain one. -/
theorem Formula.filterMapM_pure (f : C → Option D) (e : Formula C) :
    e.filterMapM (fun c => (pure (f c) : m (Option D))) = pure (e.filterMap f) := by
  simp [Formula.filterMapM, Formula.filterMap_eq, Branch.filterMapM_pure, filterMapM_eq_pure]

end Pure

/-- What a plain filter leaves. -/
theorem Formula.thinned_filterMap {f : C → Option D} {r : C → D → Prop} {e : Formula C}
    {e' : Formula D} (hf : ∀ c ∈ e.clauses, ∀ y ∈ f c, r c y) (h : e.filterMap f = some e') :
    Formula.Thinned r e e' := by
  have hrun : ((e.filterMapM fun c => (pure (f c) : StateM Unit (Option D))).run ()).1 =
      some e' := by
    rw [Formula.filterMapM_pure, ← h]
    rfl
  refine Formula.thinned_filterMapM ?_ hrun
  intro c hc st y hy
  exact hf c hc y hy

end SearchQuery
