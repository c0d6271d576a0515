import SearchQuery.Proofs.Formula.Filter

/-!
The calls that a filter makes, and what becomes of their answers. A filter asks about every clause
once, in order, and the answers alone decide what is left: each operand whose clause has an answer
stays in its branch, and branches and formulas without any operand go. Filters compose: one after
another, each with a state of its own, they leave what a single filter leaves that asks the second
one wherever the first one has an answer.
-/

namespace SearchQuery

variable {α β γ C D E σ τ : Type}

/-! ### Steps of a filter -/

section Step

variable {f : α → StateM σ (Option β)} {x : α} {y : β} {xs : List α} {st mid : σ}

theorem run_filterMapM_cons_of_none (h : (f x).run st = (none, mid)) :
    ((x :: xs).filterMapM f).run st = (xs.filterMapM f).run mid := by
  rw [List.filterMapM_cons, StateT.run_bind, h]
  rfl

theorem run_filterMapM_cons_of_some (h : (f x).run st = (some y, mid)) :
    ((x :: xs).filterMapM f).run st =
      (y :: ((xs.filterMapM f).run mid).1, ((xs.filterMapM f).run mid).2) := by
  rw [List.filterMapM_cons, StateT.run_bind, h]
  rfl

end Step

section Link

variable {f : C → StateM σ (Option D)} {l : Link C} {d : D} {st mid : σ}

theorem Link.run_filterMapM_of_none (h : (f l.operand.clause).run st = (none, mid)) :
    (l.filterMapM f).run st = (none, mid) := by
  have hrun : (l.filterMapM f).run st =
      ((((f l.operand.clause).run st).1.map (Operand.mk l.operand.negated)).map
        (Link.mk l.explicit), ((f l.operand.clause).run st).2) := rfl
  rw [hrun, h]
  rfl

theorem Link.run_filterMapM_of_some (h : (f l.operand.clause).run st = (some d, mid)) :
    (l.filterMapM f).run st = (some ⟨l.explicit, ⟨l.operand.negated, d⟩⟩, mid) := by
  have hrun : (l.filterMapM f).run st =
      ((((f l.operand.clause).run st).1.map (Operand.mk l.operand.negated)).map
        (Link.mk l.explicit), ((f l.operand.clause).run st).2) := rfl
  rw [hrun, h]
  rfl

theorem Branch.run_filterMapM (f : C → StateM σ (Option D)) (b : Branch C) (st : σ) :
    (b.filterMapM f).run st =
      (ofLinks? ((b.links.filterMapM (Link.filterMapM f)).run st).1,
        ((b.links.filterMapM (Link.filterMapM f)).run st).2) := rfl

theorem Formula.run_filterMapM (f : C → StateM σ (Option D)) (e : Formula C) (st : σ) :
    (e.filterMapM f).run st =
      (ofBranches? ((e.branches.filterMapM (Branch.filterMapM f)).run st).1,
        ((e.branches.filterMapM (Branch.filterMapM f)).run st).2) := rfl

end Link

/-! ### Answers -/

/-- What some answers, one for each link, leave of a list of links. -/
inductive Link.Answered : List (Link C) → List (Option D) → List (Link D) → Prop where
  | nil : Link.Answered [] [] []
  | kept {l : Link C} {ls : List (Link C)} {answers : List (Option D)} {ks : List (Link D)}
      {d : D} :
      Link.Answered ls answers ks →
      Link.Answered (l :: ls) (some d :: answers) (⟨l.explicit, ⟨l.operand.negated, d⟩⟩ :: ks)
  | dropped {l : Link C} {ls : List (Link C)} {answers : List (Option D)} {ks : List (Link D)} :
      Link.Answered ls answers ks → Link.Answered (l :: ls) (none :: answers) ks

/-- What some answers, one for each clause, leave of a list of branches. How the first operand that
stays in a branch was joined is forgotten. -/
inductive Branch.Answered : List (Branch C) → List (Option D) → List (Branch D) → Prop where
  | nil : Branch.Answered [] [] []
  | kept {b : Branch C} {bs : List (Branch C)} {share answers : List (Option D)} {k : Link D}
      {ks : List (Link D)} {ds : List (Branch D)} :
      Link.Answered b.links share (k :: ks) → Branch.Answered bs answers ds →
      Branch.Answered (b :: bs) (share ++ answers) (⟨k.operand, ks⟩ :: ds)
  | dropped {b : Branch C} {bs : List (Branch C)} {share answers : List (Option D)}
      {ds : List (Branch D)} :
      Link.Answered b.links share [] → Branch.Answered bs answers ds →
      Branch.Answered (b :: bs) (share ++ answers) ds

/-- What some answers, one for each clause, leave of a formula. -/
inductive Formula.Answered (e : Formula C) (answers : List (Option D)) :
    Option (Formula D) → Prop where
  | kept {d : Branch D} {ds : List (Branch D)} :
      Branch.Answered e.branches answers (d :: ds) → Formula.Answered e answers (some ⟨d, ds⟩)
  | dropped : Branch.Answered e.branches answers [] → Formula.Answered e answers none

theorem Link.Answered.eq_nil_iff {ls : List (Link C)} {answers : List (Option D)}
    {ks : List (Link D)} (h : Link.Answered ls answers ks) : ks = [] ↔ ∀ a ∈ answers, a = none := by
  induction h with
  | nil => simp
  | kept _ _ => simp
  | dropped _ ih => simp [ih]

theorem Branch.Answered.eq_nil_iff {bs : List (Branch C)} {answers : List (Option D)}
    {ds : List (Branch D)} (h : Branch.Answered bs answers ds) :
    ds = [] ↔ ∀ a ∈ answers, a = none := by
  induction h with
  | nil => simp
  | kept hlinks _ _ =>
      have hkept := hlinks.eq_nil_iff
      simp only [List.cons_ne_nil, false_iff] at hkept ⊢
      exact fun hnone => hkept fun a ha => hnone a (List.mem_append_left _ ha)
  | dropped hlinks _ ih =>
      rw [List.forall_mem_append, ih]
      exact (and_iff_right (hlinks.eq_nil_iff.mp rfl)).symm

/-- Nothing is left just if there is no answer at all. -/
theorem Formula.Answered.eq_none_iff {e : Formula C} {answers : List (Option D)}
    {f : Option (Formula D)} (h : e.Answered answers f) : f = none ↔ ∀ a ∈ answers, a = none := by
  cases h with
  | kept hbranches => simpa using hbranches.eq_nil_iff
  | dropped hbranches => simpa using hbranches.eq_nil_iff

/-! ### Calls -/

section Calls

variable {f : C → StateM σ (Option D)}

theorem Link.answered_filterMapM (ls : List (Link C)) (st : σ) :
    Link.Answered ls (((ls.map fun l => l.operand.clause).mapM f).run st).1
        ((ls.filterMapM (Link.filterMapM f)).run st).1 ∧
      ((ls.filterMapM (Link.filterMapM f)).run st).2 =
        (((ls.map fun l => l.operand.clause).mapM f).run st).2 := by
  induction ls generalizing st with
  | nil => exact ⟨.nil, rfl⟩
  | cons l ls ih =>
      rw [List.map_cons, List.mapM_cons, StateT.run_bind]
      cases hf : (f l.operand.clause).run st with | mk found mid
      cases found with
      | none =>
          rw [run_filterMapM_cons_of_none (Link.run_filterMapM_of_none hf)]
          exact ⟨.dropped (ih mid).1, (ih mid).2⟩
      | some d =>
          rw [run_filterMapM_cons_of_some (Link.run_filterMapM_of_some hf)]
          exact ⟨.kept (ih mid).1, (ih mid).2⟩

theorem Branch.answered_filterMapM (bs : List (Branch C)) (st : σ) :
    Branch.Answered bs (((bs.flatMap Branch.clauses).mapM f).run st).1
        ((bs.filterMapM (Branch.filterMapM f)).run st).1 ∧
      ((bs.filterMapM (Branch.filterMapM f)).run st).2 =
        (((bs.flatMap Branch.clauses).mapM f).run st).2 := by
  induction bs generalizing st with
  | nil => exact ⟨.nil, rfl⟩
  | cons b bs ih =>
      obtain ⟨hlinks, hmid⟩ := Link.answered_filterMapM (f := f) b.links st
      have hf := Branch.run_filterMapM f b st
      rw [List.flatMap_cons, List.mapM_append, StateT.run_bind, Branch.clauses_eq_map_links]
      generalize (b.links.filterMapM (Link.filterMapM f)).run st = left at hlinks hmid hf
      generalize ((b.links.map fun l => l.operand.clause).mapM f).run st = called at hlinks hmid
      obtain ⟨ks, mid⟩ := left
      obtain ⟨share, mid'⟩ := called
      obtain rfl : mid = mid' := hmid
      cases ks with
      | nil =>
          rw [run_filterMapM_cons_of_none hf]
          exact ⟨.dropped hlinks (ih mid).1, (ih mid).2⟩
      | cons k ks =>
          rw [run_filterMapM_cons_of_some hf]
          exact ⟨.kept hlinks (ih mid).1, (ih mid).2⟩

/-- A filter calls its function on the clauses in order, once on each, and keeps those with an
answer. -/
theorem Formula.answered_filterMapM (e : Formula C) (st : σ) :
    e.Answered ((e.clauses.mapM f).run st).1 ((e.filterMapM f).run st).1 ∧
      ((e.filterMapM f).run st).2 = ((e.clauses.mapM f).run st).2 := by
  obtain ⟨hbranches, hstate⟩ := Branch.answered_filterMapM (f := f) e.branches st
  rw [Formula.run_filterMapM]
  refine ⟨?_, hstate⟩
  unfold Formula.clauses
  generalize ((e.branches.filterMapM (Branch.filterMapM f)).run st).1 = ds at hbranches
  cases ds with
  | nil => exact .dropped hbranches
  | cons d ds => exact .kept hbranches

end Calls

/-! ### One filter after another -/

section Then

/-- First one function, and the other one on what it has for an answer. Each has its own state. -/
def thenFilter (f : α → StateM σ (Option β)) (g : β → StateM τ (Option γ)) :
    α → StateM (σ × τ) (Option γ) :=
  fun a (st, st') =>
    match (f a).run st with
    | (none, mid) => (none, mid, st')
    | (some b, mid) => (((g b).run st').1, mid, ((g b).run st').2)

variable {f : α → StateM σ (Option β)} {g : β → StateM τ (Option γ)} {a : α} {b : β} {st mid : σ}
  {st' : τ}

theorem run_thenFilter_of_none (h : (f a).run st = (none, mid)) :
    (thenFilter f g a).run (st, st') = (none, mid, st') := by
  have hrun : (thenFilter f g a).run (st, st') =
      match (f a).run st with
      | (none, mid) => (none, mid, st')
      | (some b, mid) => (((g b).run st').1, mid, ((g b).run st').2) := rfl
  rw [hrun, h]

theorem run_thenFilter_of_some (h : (f a).run st = (some b, mid)) :
    (thenFilter f g a).run (st, st') = (((g b).run st').1, mid, ((g b).run st').2) := by
  have hrun : (thenFilter f g a).run (st, st') =
      match (f a).run st with
      | (none, mid) => (none, mid, st')
      | (some b, mid) => (((g b).run st').1, mid, ((g b).run st').2) := rfl
  rw [hrun, h]

theorem thenFilter_pure (f : α → Option β) (g : β → Option γ) :
    thenFilter (fun a => (pure (f a) : StateM σ _)) (fun b => (pure (g b) : StateM τ _)) =
      fun a => pure ((f a).bind g) := by
  funext a ⟨st, st'⟩
  cases ha : f a with
  | none => exact run_thenFilter_of_none (congrArg (·, st) ha)
  | some b => exact run_thenFilter_of_some (congrArg (·, st) ha)

/-- The second function could as well wait until the first one has been called everywhere: it is
not called on what that one has dropped, and neither sees the state of the other. -/
theorem run_filterMapM_thenFilter (f : α → StateM σ (Option β)) (g : β → StateM τ (Option γ))
    (xs : List α) (st : σ) (st' : τ) :
    (xs.filterMapM (thenFilter f g)).run (st, st') =
      (((((xs.filterMapM f).run st).1.filterMapM g).run st').1, ((xs.filterMapM f).run st).2,
        ((((xs.filterMapM f).run st).1.filterMapM g).run st').2) := by
  induction xs generalizing st st' with
  | nil => rfl
  | cons x xs ih =>
      cases hf : (f x).run st with | mk found mid
      cases found with
      | none =>
          rw [run_filterMapM_cons_of_none (run_thenFilter_of_none hf),
            run_filterMapM_cons_of_none hf]
          exact ih mid st'
      | some b =>
          rw [run_filterMapM_cons_of_some hf]
          cases hg : (g b).run st' with | mk found' mid'
          have hthen : (thenFilter f g x).run (st, st') = (found', mid, mid') := by
            rw [run_thenFilter_of_some hf, hg]
          cases found' with
          | none =>
              rw [run_filterMapM_cons_of_none hthen, run_filterMapM_cons_of_none hg]
              exact ih mid mid'
          | some c =>
              rw [run_filterMapM_cons_of_some hthen, run_filterMapM_cons_of_some hg, ih mid mid']

end Then

section Formulas

variable (f : C → StateM σ (Option D)) (g : D → StateM τ (Option E))

/-- How the head was joined matters to no filter: a link that comes to be the head joins nothing,
and neither does what is left of it. -/
theorem Branch.run_filterMapM_ofLinks (k : Link C) (ks : List (Link C)) (st : σ) :
    (Branch.filterMapM f ⟨k.operand, ks⟩).run st =
      (ofLinks? (((k :: ks).filterMapM (Link.filterMapM f)).run st).1,
        (((k :: ks).filterMapM (Link.filterMapM f)).run st).2) := by
  have hlinks : (Branch.mk k.operand ks).links = ⟨true, k.operand⟩ :: ks := rfl
  rw [Branch.run_filterMapM, hlinks]
  cases hf : (f k.operand.clause).run st with | mk found mid
  cases found with
  | none =>
      rw [run_filterMapM_cons_of_none (Link.run_filterMapM_of_none (l := ⟨true, k.operand⟩) hf),
        run_filterMapM_cons_of_none (Link.run_filterMapM_of_none hf)]
  | some d =>
      rw [run_filterMapM_cons_of_some (Link.run_filterMapM_of_some (l := ⟨true, k.operand⟩) hf),
        run_filterMapM_cons_of_some (Link.run_filterMapM_of_some hf)]
      rfl

theorem Link.filterMapM_thenFilter :
    Link.filterMapM (thenFilter f g) = thenFilter (Link.filterMapM f) (Link.filterMapM g) := by
  funext l ⟨st, st'⟩
  cases hf : (f l.operand.clause).run st with | mk found mid
  cases found with
  | none =>
      exact (run_filterMapM_of_none (run_thenFilter_of_none hf)).trans
        (run_thenFilter_of_none (run_filterMapM_of_none hf)).symm
  | some d =>
      refine Eq.trans ?_ (run_thenFilter_of_some (run_filterMapM_of_some hf)).symm
      cases hg : (g d).run st' with | mk found' mid'
      have hthen : (thenFilter f g l.operand.clause).run (st, st') = (found', mid, mid') := by
        rw [run_thenFilter_of_some hf, hg]
      cases found' with
      | none =>
          rw [run_filterMapM_of_none (l := ⟨l.explicit, ⟨l.operand.negated, d⟩⟩) hg]
          exact run_filterMapM_of_none hthen
      | some c =>
          rw [run_filterMapM_of_some (l := ⟨l.explicit, ⟨l.operand.negated, d⟩⟩) hg]
          exact run_filterMapM_of_some hthen

theorem Branch.filterMapM_thenFilter :
    Branch.filterMapM (thenFilter f g) =
      thenFilter (Branch.filterMapM f) (Branch.filterMapM g) := by
  funext b ⟨st, st'⟩
  have hlinks := run_filterMapM_thenFilter (Link.filterMapM f) (Link.filterMapM g) b.links st st'
  rw [← Link.filterMapM_thenFilter] at hlinks
  refine (Branch.run_filterMapM (thenFilter f g) b (st, st')).trans ?_
  rw [hlinks]
  have hf := Branch.run_filterMapM f b st
  generalize (b.links.filterMapM (Link.filterMapM f)).run st = called at hf
  obtain ⟨ks, mid⟩ := called
  cases ks with
  | nil => exact (run_thenFilter_of_none hf).symm
  | cons k ks =>
      refine Eq.trans ?_ (run_thenFilter_of_some hf).symm
      rw [Branch.run_filterMapM_ofLinks]

/-- One filter after another is one filter. -/
theorem Formula.filterMapM_thenFilter :
    Formula.filterMapM (thenFilter f g) =
      thenFilter (Formula.filterMapM f) (Formula.filterMapM g) := by
  funext e ⟨st, st'⟩
  have hbranches :=
    run_filterMapM_thenFilter (Branch.filterMapM f) (Branch.filterMapM g) e.branches st st'
  rw [← Branch.filterMapM_thenFilter] at hbranches
  refine (Formula.run_filterMapM (thenFilter f g) e (st, st')).trans ?_
  rw [hbranches]
  have hf := Formula.run_filterMapM f e st
  generalize (e.branches.filterMapM (Branch.filterMapM f)).run st = called at hf
  obtain ⟨ds, mid⟩ := called
  cases ds with
  | nil => exact (run_thenFilter_of_none hf).symm
  | cons d ds => exact (run_thenFilter_of_some (g := Formula.filterMapM g) hf).symm

end Formulas

/-! ### Laws -/

theorem Link.filterMap_some : Link.filterMap (some : C → Option C) = some :=
  rfl

theorem Branch.filterMap_some : Branch.filterMap (some : C → Option C) = some := by
  funext b
  rw [Branch.filterMap_eq, Link.filterMap_some, List.filterMap_some, Branch.ofLinks?_links]

theorem Formula.filterMap_some (e : Formula C) : e.filterMap some = some e := by
  rw [Formula.filterMap_eq, Branch.filterMap_some, List.filterMap_some,
    Formula.ofBranches?_branches]

/-- The stateful law at the functions that use no state. -/
theorem Formula.filterMap_bind (f : C → Option D) (g : D → Option E) (e : Formula C) :
    (e.filterMap f).bind (Formula.filterMap g) = e.filterMap fun c => (f c).bind g := by
  have hplain {A B : Type} (h : A → Option B) :
      Formula.filterMapM (fun a => (pure (h a) : StateM Unit _)) =
        fun e => pure (e.filterMap h) :=
    funext (Formula.filterMapM_pure h)
  have hlaw := Formula.filterMapM_thenFilter (fun c => (pure (f c) : StateM Unit _))
    (fun d => (pure (g d) : StateM Unit _))
  rw [hplain, hplain, thenFilter_pure, thenFilter_pure] at hlaw
  have hrun := congrArg (fun m => (m.run ((), ())).1) (congrFun hlaw e)
  rw [Formula.filterMapM_pure] at hrun
  exact hrun.symm

/-- A function without effects answers each clause by itself. -/
theorem Formula.answered_filterMap (f : C → Option D) (e : Formula C) :
    e.Answered (e.clauses.map f) (e.filterMap f) := by
  have hcalls : e.clauses.mapM (fun c => (pure (f c) : StateM Unit (Option D))) =
      pure (e.clauses.map f) := List.mapM_pure
  have hanswered := (answered_filterMapM (f := fun c => (pure (f c) : StateM Unit _)) e ()).1
  rw [hcalls, Formula.filterMapM_pure] at hanswered
  exact hanswered

/-- To keep everything changes nothing, and two filters in a row are one filter, with a state or
without. A filter calls its function once on each clause, in order and whatever it answers, and
leaves what the answers say; so it leaves nothing just where no clause has an answer. A filter with
a state that its function does not touch is the one without. -/
theorem Formula.filterMapM_lawful :
    (∀ e : Formula C, e.filterMap some = some e) ∧
      (∀ (f : C → Option D) (g : D → Option E) (e : Formula C),
        (e.filterMap f).bind (Formula.filterMap g) = e.filterMap fun c => (f c).bind g) ∧
      (∀ (f : C → StateM σ (Option D)) (g : D → StateM τ (Option E)),
        Formula.filterMapM (thenFilter f g) =
          thenFilter (Formula.filterMapM f) (Formula.filterMapM g)) ∧
      (∀ (f : C → StateM σ (Option D)) (e : Formula C) (st : σ),
        e.Answered ((e.clauses.mapM f).run st).1 ((e.filterMapM f).run st).1 ∧
          ((e.filterMapM f).run st).2 = ((e.clauses.mapM f).run st).2 ∧
          (((e.filterMapM f).run st).1 = none ↔
            ∀ answer ∈ ((e.clauses.mapM f).run st).1, answer = none)) ∧
      ∀ (f : C → Option D) (e : Formula C),
        e.Answered (e.clauses.map f) (e.filterMap f) ∧
          (e.filterMap f = none ↔ ∀ c ∈ e.clauses, f c = none) ∧
          e.filterMapM (fun c => (pure (f c) : StateM σ (Option D))) = pure (e.filterMap f) := by
  refine ⟨filterMap_some, filterMap_bind, filterMapM_thenFilter, ?_, ?_⟩
  · intro f e st
    obtain ⟨hanswered, hstate⟩ := answered_filterMapM (f := f) e st
    exact ⟨hanswered, hstate, hanswered.eq_none_iff⟩
  · intro f e
    have hanswered := answered_filterMap f e
    refine ⟨hanswered, ?_, filterMapM_pure f e⟩
    rw [hanswered.eq_none_iff, List.forall_mem_map]

end SearchQuery
