import SearchQuery.Proofs.Formula.Filter
import SearchQuery.Proofs.Promotion.Canonical

/-!
Filtering what was read. A query whose clauses are dropped, or replaced by clauses of other queries,
is read back from its text; so is a group whose clauses are dropped. In a query that is because
any clause may stand anywhere, in a group because a literal NOT at the end stays there.
-/

namespace SearchQuery

variable {σ : Type}

/-! ### Queries -/

/-- The clause stands somewhere in a query that is accepted under some limit, and it fits the
default limit by itself. -/
structure Clause.Accepted (c : Clause FieldClause) : Prop where
  stands : ∃ limit s, ∃ q : Query, Query.parseWithin limit s = .ok q ∧
    ∃ p path, q.clauseAt? p path = some c
  depth_le : c.depth (fun c => c.term.depth) ≤ defaultLimit

theorem Query.paren_wellFormed_of_parseWithin {limit : Nat} {s : String} {q : Query}
    (h : Query.parseWithin limit s = .ok q) :
    (Clause.paren q).WellFormed FieldClause.WellFormed Formula.JuxtaposesNegated := by
  obtain ⟨ts, -, hseg, hq, -⟩ := Query.parseWithin_eq_ok_iff_segmented.mp h
  exact hq.paren_wellFormed hseg

theorem Clause.Accepted.wellFormed {c : Clause FieldClause} (h : c.Accepted) :
    c.WellFormed FieldClause.WellFormed Formula.JuxtaposesNegated := by
  obtain ⟨limit, s, q, hq, p, path, hat⟩ := h.stands
  have hparen : (Clause.paren q).at? (p :: path) = some c := hat
  exact (Query.paren_wellFormed_of_parseWithin hq).at? hparen

/-- The clauses of an accepted query are accepted. -/
theorem Query.accepted_of_mem {s : String} {q : Query} (hq : Query.parse s = .ok q) :
    ∀ c ∈ Formula.clauses q, Clause.Accepted c := by
  intro c hc
  obtain ⟨p, hp⟩ := Formula.exists_clause?_of_mem hc
  have hat : q.clauseAt? p [] = some c := by rw [Formula.clauseAt?, hp]; rfl
  exact ⟨⟨_, s, q, hq, p, [], hat⟩,
    (Formula.depth_le_of_clauseAt? hat).trans (Query.wellFormed_of_parse hq).depth_le⟩

/-- A part of an accepted query is canonical with any accepted clauses in the place of its own. -/
theorem Query.wellFormed_of_thinned {limit : Nat} {s : String} {q r : Query}
    (hq : Query.parseWithin limit s = .ok q)
    (h : Formula.Thinned (fun _ c => Clause.Accepted c) q r) : r.WellFormed := by
  obtain _ | ⟨hjuxtaposed, -⟩ := Query.paren_wellFormed_of_parseWithin hq
  refine ⟨?_, h.juxtaposesNegated hjuxtaposed, ?_⟩
  · exact h.sup_le fun _ _ c hc => hc.depth_le
  · intro c hc
    obtain ⟨_, -, haccepted⟩ := h.exists_of_mem hc
    exact haccepted.wellFormed

/-! ### Groups -/

/-- A part of a well-formed group is one. -/
theorem Group.wellFormed_of_thinned {g g' : Group}
    (hg : (Clause.paren g).WellFormed Element.WellFormed Group.Level)
    (h : Formula.Thinned Eq g g') :
    (Clause.paren g').WellFormed Element.WellFormed Group.Level := by
  obtain _ | ⟨hlevel, hclauses⟩ := hg
  refine .paren ⟨h.juxtaposesNegated hlevel.juxtaposed, h.lastOnly hlevel.not_last⟩ ?_
  intro c hc
  obtain ⟨_, hmem, rfl⟩ := h.exists_of_mem hc
  exact hclauses _ hmem

theorem Group.depth_le_of_thinned {g g' : Group} {boost boost' : Option Boost}
    (h : Formula.Thinned Eq g g') :
    (Term.group g' boost').depth ≤ (Term.group g boost).depth := by
  simp only [Term.depth, Clause.depth_paren, Nat.add_le_add_iff_right]
  apply h.sup_le
  intro c hc d hd
  subst hd
  exact Formula.sup_le_iff.mp (Nat.le_refl _) c hc

/-- Filtering keeps what was read canonical. A query stays so when clauses are dropped or replaced
by accepted ones, a group when clauses of its outermost level are dropped; the filter may have a
state, so that any subset of the clauses can be dropped. -/
theorem parse_render_filtered :
    (∀ (limit : Nat) (s : String) (q : Query), Query.parseWithin limit s = .ok q →
      (∀ f : Clause FieldClause → Option (Clause FieldClause),
        (∀ c ∈ Formula.clauses q, ∀ d ∈ f c, Clause.Accepted d) →
        ∀ r, Formula.filterMap f q = some r → Query.parse (Query.render r) = .ok r) ∧
      ∀ (σ : Type) (f : Clause FieldClause → StateM σ (Option (Clause FieldClause))),
        (∀ c ∈ Formula.clauses q, ∀ st, ∀ d ∈ ((f c).run st).1, Clause.Accepted d) →
        ∀ st r, ((Formula.filterMapM f q).run st).1 = some r →
          Query.parse (Query.render r) = .ok r) ∧
    ∀ (s : String) (g : Group) (boost : Option Boost), Term.parse s = .ok (.group g boost) →
      ∀ (σ : Type) (f : Clause Element → StateM σ (Option (Clause Element))),
        (∀ c ∈ Formula.clauses g, ∀ st, ∀ d ∈ ((f c).run st).1, d = c) →
        ∀ st g', ((Formula.filterMapM f g).run st).1 = some g' →
          Term.parse (Term.group g' boost).render = .ok (.group g' boost) := by
  refine ⟨fun limit s q hq => ⟨?_, ?_⟩, ?_⟩
  · intro f hf r hr
    exact (Query.wellFormed_of_thinned hq (Formula.thinned_filterMap hf hr)).parse_render
  · intro σ f hf st r hr
    exact (Query.wellFormed_of_thinned hq (Formula.thinned_filterMapM hf hr)).parse_render
  · intro s g boost hg σ f hf st g' hg'
    have hthinned : Formula.Thinned Eq g g' :=
      Formula.thinned_filterMapM (fun c hc st d hd => (hf c hc st d hd).symm) hg'
    obtain ⟨⟨hwell, hboost⟩, hdepth⟩ := Term.wellFormed_of_parse hg
    have hwell' : (Term.group g' boost).WellFormed :=
      ⟨Group.wellFormed_of_thinned hwell hthinned, hboost⟩
    exact hwell'.parse_render ((Group.depth_le_of_thinned hthinned).trans hdepth)

/-- The first operand is dropped, so that one without AND in front comes first, and in one query
the last operand is replaced by a clause of another query. -/
theorem parse_render_filtered_first :
    let clause (name value : String) : Clause FieldClause :=
      .leaf ⟨⟨[⟨.word, name⟩]⟩, .literal (.bare [⟨.word, value⟩]) none⟩
    let literal (text : String) : Clause Element := .leaf (.literal (.bare [⟨.word, text⟩]))
    let group : Clause FieldClause := .leaf ⟨⟨[⟨.word, "w"⟩]⟩,
      .group ⟨⟨⟨false, literal "a"⟩, []⟩, [⟨⟨false, literal "not"⟩, []⟩]⟩ none⟩
    let q : Query := ⟨⟨⟨false, clause "x" "a"⟩, [⟨false, ⟨true, clause "y" "b"⟩⟩,
      ⟨true, ⟨false, .paren (.ofOperand ⟨false, clause "z" "c"⟩)⟩⟩]⟩, []⟩
    let g : Group := ⟨⟨⟨false, literal "a"⟩, [⟨false, ⟨true, literal "b"⟩⟩]⟩,
      [⟨⟨false, literal "not"⟩, []⟩]⟩
    let boost : Option Boost := some ⟨some "2"⟩
    let replace (c : Clause FieldClause) : Option (Clause FieldClause) :=
      match c with
      | .leaf d => if d.field.name = "x" then none else some (.leaf d)
      | .paren _ => some group
    let dropFirst {C : Type} (c : C) : StateM Nat (Option C) :=
      modifyGet fun n => (if n = 0 then none else some c, n + 1)
    (∃ r r' : Query, Query.parse "x:a !y:b && (z:c)" = .ok q ∧
      (∀ c ∈ Formula.clauses q, ∀ d ∈ replace c, Clause.Accepted d) ∧
      Formula.filterMap replace q = some r ∧ Query.render r = "NOT y:b AND w:( a OR not )" ∧
      Query.parse (Query.render r) = .ok r ∧
      (∀ c ∈ Formula.clauses q, ∀ st, ∀ d ∈ ((dropFirst c).run st).1, Clause.Accepted d) ∧
      ((Formula.filterMapM dropFirst q).run 0).1 = some r' ∧
      Query.render r' = "NOT y:b AND ( z:c )" ∧ Query.parse (Query.render r') = .ok r') ∧
    ∃ g' : Group, Term.parse "(a !b or not)^2" = .ok (.group g boost) ∧
      (∀ c ∈ Formula.clauses g, ∀ st, ∀ d ∈ ((dropFirst c).run st).1, d = c) ∧
      ((Formula.filterMapM dropFirst g).run 0).1 = some g' ∧
      (Term.group g' boost).render = "( NOT b OR not )^2" ∧
      Term.parse (Term.group g' boost).render = .ok (.group g' boost) := by
  intro clause literal group q g boost replace dropFirst
  have hkeeps : ∀ {C : Type} (c : C) (st : Nat), ∀ d ∈ ((dropFirst c).run st).1, d = c := by
    intro C c st d hd
    cases st with
    | zero => cases hd
    | succ n => exact (Option.some.inj hd).symm
  have hq : Query.parse "x:a !y:b && (z:c)" = .ok q := by decide +kernel
  have hw : Query.parse "w:(a or not)" = .ok (.ofOperand ⟨false, group⟩) := by decide +kernel
  have hg : Term.parse "(a !b or not)^2" = .ok (.group g boost) := by decide +kernel
  have hreplace : ∀ c ∈ Formula.clauses q, ∀ d ∈ replace c, Clause.Accepted d := by
    intro c hc d hd
    cases c with
    | leaf e =>
        have hd : (if e.field.name = "x" then none else some (.leaf e)) = some d := hd
        split at hd
        · cases hd
        · cases hd
          exact Query.accepted_of_mem hq _ hc
    | paren sub =>
        cases hd
        exact Query.accepted_of_mem hw _ (List.mem_singleton.mpr rfl)
  have hdrop : ∀ c ∈ Formula.clauses q, ∀ st, ∀ d ∈ ((dropFirst c).run st).1,
      Clause.Accepted d := by
    intro c hc st d hd
    rw [hkeeps c st d hd]
    exact Query.accepted_of_mem hq c hc
  obtain ⟨hqueries, hgroups⟩ := parse_render_filtered
  obtain ⟨hplain, hstateful⟩ := hqueries _ _ _ hq
  refine ⟨⟨_, _, hq, hreplace, rfl, ?_, hplain _ hreplace _ rfl, hdrop, rfl, ?_,
    hstateful _ _ hdrop 0 _ rfl⟩, _, hg, fun c _ => hkeeps c, rfl, ?_,
    hgroups _ _ _ hg _ _ (fun c _ => hkeeps c) 0 _ rfl⟩
  all_goals decide +kernel

end SearchQuery
