import SearchQuery.Proofs.Fault.Completion

/-!
Terms by themselves and terms of fields. Behind a field name and a colon a text is the term that it
is when read alone: the name is spelled in tokens that the colon always ends, no NOT stands in front
of it, and what may follow a term is the same at the end of a text in both places.
-/

namespace SearchQuery

open Token (Kind Located Segmented chars join)

variable {α C : Type} {name ts rest : List Token}

/-! ### Names in front of terms -/

theorem Token.Segmented.not_isSpace_head?_iff (h : Segmented ts) :
    (∀ t ∈ ts.head?, t.isSpace = false) ↔ ∀ c ∈ (chars ts).head?, Text.isBlank c = false := by
  cases ts with
  | nil => simp
  | cons t ts =>
      have hlexical := h.lexical t List.mem_cons_self
      obtain ⟨c, cs, htext⟩ := hlexical.exists_cons
      simp [htext, hlexical.isSpace_eq_isBlank htext]

theorem Token.not_isSpace_of_mem_nameKinds {t : Token} (h : t.kind ∈ Field.nameKinds) :
    t.isSpace = false := by
  revert h
  simp only [Token.isSpace]
  cases t.kind <;> decide

/-- A colon ends a name, and starts anew behind it. -/
theorem Token.segmented_name_iff (hkinds : ∀ t ∈ name, t.kind ∈ Field.nameKinds) :
    Segmented (name ++ ⟨.colon, ":"⟩ :: ts) ↔ Segmented name ∧ Segmented ts := by
  have hcolon : (⟨.colon, ":"⟩ : Token).IsSymbol ':' := ⟨rfl, rfl⟩
  apply hcolon.segmented_append_iff
  intro t ht hback
  have hkind := hkinds t (List.mem_of_getLast? ht)
  rw [List.mem_singleton.mp hback] at hkind
  exact absurd hkind (by decide)

/-! ### One clause -/

theorem Whole.of_not_isSpace {p : Production α} {a : α} (h : Whole p ts a)
    (hstart : ∀ t ∈ ts.head?, t.isSpace = false) : ∃ stop, p ts a stop ∧ Spaces stop [] := by
  obtain ⟨start, stop, hspaces, ha, hstop⟩ := h
  cases hspaces with
  | none => exact ⟨stop, ha, hstop⟩
  | more ht _ => simp [hstart _ rfl] at ht

theorem FieldClause.derives_iff {c : FieldClause} :
    FieldClause.Derives ts c rest ↔
      ∃ colon mid, Fragments Field.nameKinds ts c.field.tokens (colon :: mid) ∧
        colon.kind = .colon ∧ Term.Derives mid c.term rest := by
  constructor
  · rintro ⟨hname, hcolon, hterm⟩
    exact ⟨_, _, hname, hcolon, hterm⟩
  · rintro ⟨colon, mid, hname, hcolon, hterm⟩
    exact .mk hname hcolon hterm

/-- A formula of one operand without NOT is its clause, where the clause tells that no NOT stands
in front of it. -/
theorem Formula.derives_ofOperand_iff {p : Production C} {c : C}
    (hp : ∀ {ts rest mid}, p ts c rest → ¬ Keyword.not.Stands ts mid) :
    Formula.Derives p ts (Formula.ofOperand ⟨false, c⟩) rest ↔ p ts c rest := by
  constructor
  · rintro ⟨⟨hoperand, hlinks⟩, hbranches⟩
    cases hbranches
    cases hlinks
    cases hoperand with
    | plain _ hc => exact hc
  · intro hc
    exact .mk (.mk (.plain (fun _ => hp hc) hc) .nil) .nil

theorem Query.derives_ofOperand_iff {c : FieldClause} :
    Formula.Derives (Clause.Derives FieldClause.Derives) ts
      (Formula.ofOperand ⟨false, .leaf c⟩) rest ↔ FieldClause.Derives ts c rest := by
  rw [Formula.derives_ofOperand_iff]
  · constructor
    · rintro ⟨hc⟩
      exact hc
    · exact .leaf
  · rintro ts rest mid ⟨hc⟩
    exact hc.not_stands

@[simp]
theorem Query.depth_ofOperand_leaf {c : FieldClause} (negated : Bool) :
    Query.depth (Formula.ofOperand ⟨negated, .leaf c⟩) = c.term.depth := by
  simp [Query.depth, Formula.sup, Formula.ofOperand, Formula.clauses, Formula.single,
    Formula.branches, Branch.single, Branch.clauses, Branch.operands]

/-! ### Whole texts -/

/-- A query of one field clause is the field name, a colon and nothing but the term. -/
theorem Query.Derives.exists_name {c : FieldClause}
    (h : Query.Derives ts (Formula.ofOperand ⟨false, .leaf c⟩))
    (hstart : ∀ u ∈ ts.head?, u.isSpace = false) :
    ∃ colon mid, ts = c.field.tokens ++ colon :: mid ∧ colon.kind = .colon ∧
      Whole Term.Derives mid c.term := by
  obtain ⟨stop, hquery, hstop⟩ := Whole.of_not_isSpace h hstart
  obtain ⟨colon, mid, hname, hcolon, hterm⟩ :=
    FieldClause.derives_iff.mp (Query.derives_ofOperand_iff.mp hquery)
  exact ⟨colon, mid, hname.exists_append.1, hcolon, mid, stop, .none, hterm, hstop⟩

theorem Query.derives_of_name {colon : Token} {t : Term} (hne : name ≠ [])
    (hkinds : ∀ u ∈ name, u.kind ∈ Field.nameKinds) (hcolon : colon.kind = .colon)
    (hstart : ∀ u ∈ ts.head?, u.isSpace = false) (h : Whole Term.Derives ts t) :
    Query.Derives (name ++ colon :: ts) (Formula.ofOperand ⟨false, .leaf ⟨⟨name⟩, t⟩⟩) := by
  obtain ⟨stop, hterm, hstop⟩ := h.of_not_isSpace hstart
  have hname : Fragments Field.nameKinds (name ++ colon :: ts) name (colon :: ts) := by
    refine .mk hne hkinds ?_
    simp only [List.head?_cons, Option.mem_def, Option.some.injEq, forall_eq', hcolon]
    decide
  exact ⟨_, stop, .none, Query.derives_ofOperand_iff.mpr (.mk hname hcolon hterm), hstop⟩

/-- A term alone and behind a field name: a text is read as a term just if the field clause that
ends in it is read as that one clause with that term. -/
theorem Term.parseWithin_eq_ok_iff_field {field term : String} {located : List Located}
    (hfield : tokenize field = .ok located) (hne : located ≠ [])
    (hkinds : ∀ u ∈ located, u.token.kind ∈ [.word, .number, .dot, .minus])
    (hterm : ∀ c ∈ term.toList.head?, Text.isBlank c = false) (limit : Nat) (t : Term) :
    Term.parseWithin limit term = .ok t ↔
      Query.parseWithin limit (field ++ ":" ++ term) =
        .ok (Formula.ofOperand ⟨false, .leaf ⟨⟨located.map Located.token⟩, t⟩⟩) := by
  obtain ⟨hjoin, hseg, -⟩ := tokenize_eq_ok_iff.mp hfield
  have hkinds : ∀ u ∈ located.map Located.token, u.kind ∈ Field.nameKinds :=
    List.forall_mem_map.mpr hkinds
  have hne : located.map Located.token ≠ [] := by simpa using hne
  generalize located.map Located.token = name at *
  rw [Term.parseWithin_eq_ok_iff_segmented, Query.parseWithin_eq_ok_iff_segmented,
    Query.depth_ofOperand_leaf]
  constructor
  · rintro ⟨ts, hts, hsegts, hwhole, hdepth⟩
    have hstart : ∀ u ∈ ts.head?, u.isSpace = false := by
      rwa [hsegts.not_isSpace_head?_iff, ← Token.toList_join, hts]
    refine ⟨name ++ ⟨.colon, ":"⟩ :: ts, ?_, ?_, ?_, hdepth⟩
    · simp [← String.toList_inj, ← hjoin, ← hts]
    · exact (Token.segmented_name_iff hkinds).mpr ⟨hseg, hsegts⟩
    · exact Query.derives_of_name hne hkinds rfl hstart hwhole
  · rintro ⟨us, hus, hsegus, hderives, hdepth⟩
    have hstart : ∀ u ∈ us.head?, u.isSpace = false := by
      rw [hsegus.not_isSpace_head?_iff, ← Token.toList_join, hus, ← hjoin]
      obtain ⟨u, name, rfl⟩ := List.exists_cons_of_ne_nil hne
      obtain ⟨c, cs, htext⟩ := (hseg.lexical u List.mem_cons_self).exists_cons
      have hspace := Token.not_isSpace_of_mem_nameKinds (hkinds u List.mem_cons_self)
      rw [(hseg.lexical u List.mem_cons_self).isSpace_eq_isBlank htext] at hspace
      simpa [htext] using hspace
    obtain ⟨colon, ts, rfl, hcolon, hwhole⟩ := hderives.exists_name hstart
    obtain rfl := Token.eq_of_lexical (c := ':') rfl hcolon (hsegus.lexical colon (by simp))
    refine ⟨ts, ?_, ((Token.segmented_name_iff hkinds).mp hsegus).2, hwhole, hdepth⟩
    simpa [← String.toList_inj, ← hjoin] using hus

/-- A field called NOT, with a group that ends in the literal NOT, a weight and space. -/
theorem Term.parseWithin_eq_ok_iff_field_not :
    let located : List Located := [⟨0, ⟨.word, "NOT"⟩⟩]
    let t : Term := .group ⟨⟨⟨false, .leaf (.literal (.bare [⟨.word, "a"⟩]))⟩, []⟩,
      [⟨⟨false, .leaf (.literal (.bare [⟨.word, "NOT"⟩]))⟩, []⟩]⟩ (some ⟨some "2"⟩)
    (tokenize "NOT" = .ok located ∧ located ≠ [] ∧
      (∀ u ∈ located, u.token.kind ∈ [.word, .number, .dot, .minus]) ∧
      ∀ c ∈ "(a OR NOT)^2 ".toList.head?, Text.isBlank c = false) ∧
    Term.parseWithin 1 "(a OR NOT)^2 " = .ok t ∧
      Query.parseWithin 1 "NOT:(a OR NOT)^2 " =
        .ok (Formula.ofOperand ⟨false, .leaf ⟨⟨[⟨.word, "NOT"⟩]⟩, t⟩⟩) := by
  intro located t
  have hfield : tokenize "NOT" = .ok located := by decide +kernel
  have hne : located ≠ [] := List.cons_ne_nil _ _
  have hkinds : ∀ u ∈ located, u.token.kind ∈ [.word, .number, .dot, .minus] := by decide
  have hterm : ∀ c ∈ "(a OR NOT)^2 ".toList.head?, Text.isBlank c = false := by
    rintro c ⟨⟩
    decide
  have ht : Term.parseWithin 1 "(a OR NOT)^2 " = .ok t := by decide +kernel
  exact ⟨⟨hfield, hne, hkinds, hterm⟩, ht,
    (Term.parseWithin_eq_ok_iff_field hfield hne hkinds hterm 1 t).mp ht⟩

-- Space in front of a term is skipped, but not behind a colon.
example : (Term.parse " a").toOption.isSome = true ∧ (Query.parse "x: a").toOption = none := by
  decide +kernel

end SearchQuery
