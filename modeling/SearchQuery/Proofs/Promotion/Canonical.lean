import SearchQuery.Proofs.Canonical.RoundTrip
import SearchQuery.Proofs.Formula.Place
import SearchQuery.Proofs.Promotion.Transcription

/-!
Promotion of what was read. A group at a field of a query that was read is well-formed and fits
the nesting limit, and so is its promotion, by itself and in the group's place: the parentheses
around the promotion are as many as those of the group.
-/

namespace SearchQuery

variable {α β C D : Type}

/-! ### Well-formed clauses -/

theorem forall_mem_of_forall₂ {r : α → β → Prop} {good : α → Prop} {good' : β → Prop}
    {xs : List α} {ys : List β} (hr : ∀ x y, r x y → good x → good' y)
    (h : List.Forall₂ r xs ys) (hxs : ∀ x ∈ xs, good x) : ∀ y ∈ ys, good' y := by
  induction h with
  | nil => simp
  | cons hxy _ ih =>
      rw [List.forall_mem_cons] at hxs ⊢
      exact ⟨hr _ _ hxy hxs.1, ih hxs.2⟩

theorem Branch.Alike.juxtaposesNegated {r : C → D → Prop} {b : Branch C} {d : Branch D}
    (h : Branch.Alike r b d) (hb : b.JuxtaposesNegated) : d.JuxtaposesNegated := by
  obtain ⟨-, hls⟩ := h
  refine forall_mem_of_forall₂ ?_ hls hb
  intro l k hlink hl
  obtain ⟨⟨-⟩⟩ := hlink
  exact hl

theorem Formula.Alike.juxtaposesNegated {r : C → D → Prop} {e : Formula C} {f : Formula D}
    (h : Formula.Alike r e f) (he : e.JuxtaposesNegated) : f.JuxtaposesNegated := by
  refine forall_mem_of_forall₂ ?_ h.branches he
  intro b d hbranch hb
  exact hbranch.juxtaposesNegated hb

namespace Clause

/-- Clauses that are alike are well-formed alike. -/
theorem Alike.wellFormed {r : α → β → Prop} {leaf : α → Prop} {leaf' : β → Prop}
    {level : Formula (Clause α) → Prop} {level' : Formula (Clause β) → Prop}
    (hleaf : ∀ a b, r a b → leaf a → leaf' b)
    (hlevel : ∀ e f, Formula.Alike (Clause.Alike r) e f → level e → level' f)
    {c : Clause α} {d : Clause β} (h : Clause.Alike r c d) (hc : c.WellFormed leaf level) :
    d.WellFormed leaf' level' := by
  induction c generalizing d with
  | leaf a =>
      cases h with
      | leaf hab =>
          cases hc with
          | leaf ha => exact .leaf (hleaf _ _ hab ha)
  | paren sub ih =>
      cases h with
      | paren hsub =>
          cases hc with
          | paren hsublevel hclauses =>
              refine .paren (hlevel _ _ hsub hsublevel) ?_
              have hwell := hsub.imp fun x hx y hxy => ih x hx hxy (hclauses x hx)
              exact forall_mem_of_forall₂ (fun _ _ hy _ => hy) hwell.clauses fun _ _ => trivial

variable {leaf : α → Prop} {level : Formula (Clause α) → Prop} {c d old : Clause α}
  {path : List Place}

theorem WellFormed.at? (h : c.WellFormed leaf level) (hd : c.at? path = some d) :
    d.WellFormed leaf level := by
  induction path generalizing c with
  | nil =>
      cases hd
      exact h
  | cons p path ih =>
      cases h with
      | leaf => cases hd
      | paren _ hclauses =>
          obtain ⟨x, hx, hxd⟩ := Option.bind_eq_some_iff.mp hd
          exact ih (hclauses x (Formula.mem_clauses_of_clause? hx)) hxd

theorem WellFormed.replaceAt
    (hlevel : ∀ e f : Formula (Clause α), Formula.Alike (fun _ _ => True) e f → level e → level f)
    (h : c.WellFormed leaf level) (hd : d.WellFormed leaf level) :
    (replaceAt d path c).WellFormed leaf level := by
  induction path generalizing c with
  | nil => exact hd
  | cons p path ih =>
      cases h with
      | leaf ha => exact .leaf ha
      | paren hsub hclauses =>
          refine .paren (hlevel _ _ ?_ hsub) ?_
          · exact Formula.alike_modify (fun _ _ => trivial) fun _ _ => trivial
          · have hwell : Formula.Alike (fun _ y => y.WellFormed leaf level) _
                (Formula.modify (Clause.replaceAt d path) p _) :=
              Formula.alike_modify hclauses fun x hx =>
                ih (hclauses x (Formula.mem_clauses_of_clause? hx))
            exact forall_mem_of_forall₂ (fun _ _ hy _ => hy) hwell.clauses fun _ _ => trivial

end Clause

theorem Query.wellFormed_iff {q : Query} : q.WellFormed ↔ q.depth ≤ defaultLimit ∧
    (Clause.paren q).WellFormed FieldClause.WellFormed Formula.JuxtaposesNegated := by
  constructor
  · intro h
    exact ⟨h.depth_le, .paren h.juxtaposed h.clauses⟩
  · rintro ⟨hdepth, _ | ⟨hjuxtaposed, hclauses⟩⟩
    exact ⟨hdepth, hjuxtaposed, hclauses⟩

/-! ### Promoted groups -/

section Promoted

variable {f : Field} {g : Group} {boost : Option Boost} {q : Query}

theorem Element.Promoted.wellFormed {e : Element} {c : FieldClause}
    (h : Element.Promoted f g boost e c)
    (hf : Token.WellFormedRun [.word, .number, .dot, .minus] f.tokens)
    (hboost : ∀ b ∈ boost, b.WellFormed) (he : e.WellFormed) : c.WellFormed := by
  refine ⟨h.field ▸ hf, ?_⟩
  rw [h.term]
  cases e with
  | literal l =>
      refine ⟨he, ?_⟩
      intro s hs
      obtain ⟨b, hb, rfl⟩ := Option.map_eq_some_iff.mp hs
      exact hboost b hb
  | range r => exact ⟨he, hboost⟩

theorem Element.Promoted.depth_eq {e : Element} {c : FieldClause}
    (h : Element.Promoted f g boost e c) : c.term.depth = 0 := by
  rw [h.term]
  cases e <;> rfl

/-- The promotion of a group nests no deeper than the group. -/
theorem Group.depth_promoted {h : Group}
    (halike : Formula.Alike (Clause.Alike (Element.Promoted f h boost)) g q) :
    (Clause.paren q).depth (fun c => c.term.depth) ≤
      (Clause.leaf (FieldClause.mk f (.group g boost))).depth fun c => c.term.depth := by
  have hparen : Clause.Alike (Element.Promoted f h boost) (.paren g) (.paren q) := .paren halike
  rw [Clause.depth_leaf]
  apply hparen.depth_le
  intro e c hpromoted
  exact Nat.le_of_eq hpromoted.depth_eq

theorem Group.wellFormed_promoted {h : Group}
    (halike : Formula.Alike (Clause.Alike (Element.Promoted f h boost)) g q)
    (hwell : FieldClause.WellFormed ⟨f, .group g boost⟩) :
    (Clause.paren q).WellFormed FieldClause.WellFormed Formula.JuxtaposesNegated := by
  obtain ⟨hfield, hgroup, hboost⟩ := hwell
  have hparen : Clause.Alike (Element.Promoted f h boost) (.paren g) (.paren q) := .paren halike
  refine hparen.wellFormed ?_ ?_ hgroup
  · intro e c hpromoted he
    exact hpromoted.wellFormed hfield hboost he
  · intro sub sub' hsub hlevel
    exact hsub.juxtaposesNegated hlevel.juxtaposed

end Promoted

/-- A group at a field of a query that was read has a promotion that is read back from its text,
both by itself and in parentheses in the place of the group. -/
theorem Query.parse_render_promoted {s : String} {t : Query} (ht : Query.parse s = .ok t)
    {p : Place} {path : List Place} {f : Field} {g : Group} {boost : Option Boost}
    (hg : t.clauseAt? p path = some (.leaf ⟨f, .group g boost⟩)) :
    ∃ q, Query.ofGroup? (some f) (some (g, boost)) = some q ∧
      Query.parse (Query.render q) = .ok q ∧
      (t.replaceAt (.paren q) p path).clauseAt? p path = some (.paren q) ∧
      Query.parse (Query.render (t.replaceAt (.paren q) p path)) =
        .ok (t.replaceAt (.paren q) p path) := by
  obtain ⟨hdepth, hwell⟩ := Query.wellFormed_iff.mp (Query.wellFormed_of_parse ht)
  have hat : (Clause.paren t).at? (p :: path) = some (.leaf ⟨f, .group g boost⟩) := hg
  obtain ⟨hclause⟩ := hwell.at? hat
  obtain ⟨q, hq, halike⟩ := Group.exists_alike_promote? hclause.field.nonempty boost g
  have hqwell := Group.wellFormed_promoted halike hclause
  have hqdepth := Group.depth_promoted halike
  have hfits := (hqdepth.trans (Formula.depth_le_of_clauseAt? hg)).trans hdepth
  rw [Clause.depth_paren] at hfits
  have hqcanonical : q.WellFormed := Query.wellFormed_iff.mpr ⟨Nat.le_of_succ_le hfits, hqwell⟩
  have htcanonical : Query.WellFormed (t.replaceAt (.paren q) p path) := by
    refine Query.wellFormed_iff.mpr ⟨?_, ?_⟩
    · exact (Formula.depth_replaceAt_le hg hqdepth).trans hdepth
    · have hreplaced : (Clause.replaceAt (.paren q) (p :: path) (.paren t)).WellFormed
          FieldClause.WellFormed Formula.JuxtaposesNegated :=
        hwell.replaceAt (fun _ _ => Formula.Alike.juxtaposesNegated) hqwell
      exact hreplaced
  exact ⟨q, hq, hqcanonical.parse_render, Formula.clauseAt?_replaceAt hg _,
    htcanonical.parse_render⟩

/-- A group in parentheses, at a field called NOT and with the literal NOT at its end. -/
theorem Query.parse_render_promoted_not :
    let f : Field := ⟨[⟨.word, "NOT"⟩]⟩
    let g : Group := ⟨⟨⟨false, .leaf (.literal (.bare [⟨.word, "b"⟩]))⟩, []⟩,
      [⟨⟨false, .paren (.ofOperand ⟨false, .leaf (.literal (.bare [⟨.word, "not"⟩]))⟩)⟩, []⟩]⟩
    let boost : Option Boost := some ⟨some "2"⟩
    let p : Place := ⟨1, 0⟩
    let path : List Place := [⟨0, 0⟩]
    ∃ t, Query.parse "z:1 || (NOT:(b || (not))^2)" = .ok t ∧
      t.clauseAt? p path = some (.leaf ⟨f, .group g boost⟩) ∧
      ∃ q, Query.ofGroup? (some f) (some (g, boost)) = some q ∧
        Query.parse (Query.render q) = .ok q ∧
        (t.replaceAt (.paren q) p path).clauseAt? p path = some (.paren q) ∧
        Query.parse (Query.render (t.replaceAt (.paren q) p path)) =
          .ok (t.replaceAt (.paren q) p path) := by
  intro f g boost p path
  have ht : Query.parse "z:1 || (NOT:(b || (not))^2)" = .ok
      ⟨⟨⟨false, .leaf ⟨⟨[⟨.word, "z"⟩]⟩, .literal (.bare [⟨.number, "1"⟩]) none⟩⟩, []⟩,
        [⟨⟨false, .paren (.ofOperand ⟨false, .leaf ⟨f, .group g boost⟩⟩)⟩, []⟩]⟩ := by
    decide +kernel
  exact ⟨_, ht, rfl, Query.parse_render_promoted ht rfl⟩

end SearchQuery
