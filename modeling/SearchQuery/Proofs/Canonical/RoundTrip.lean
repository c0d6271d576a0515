import SearchQuery.Proofs.Canonical.Derivation

/-!
Reading canonical texts. Every tree that is read is well-formed, every well-formed tree is read
from its canonical text, and so reading fixes what it once has read.
-/

namespace SearchQuery

open Token (Kind Segmented SplitsInto join)

variable {α C : Type}

/-! ### Leaves of segmented lists -/

theorem Fragments.wellFormed {kinds : List Kind} {ts run rest : List Token}
    (h : Fragments kinds ts run rest) (hseg : Segmented ts) : Token.WellFormedRun kinds run := by
  obtain ⟨hne, hrun, -⟩ := h
  have hsplits := (Token.segmented_append.mp hseg).1
  exact ⟨hne, hrun, Token.splitsInto_iff.mpr ⟨rfl, hsplits⟩⟩

theorem Delimited.wellFormed {delimiter : Token} {ts inner rest : List Token}
    (hunique : ∀ t : Token, t.kind = delimiter.kind → t.Lexical → t = delimiter)
    (h : Delimited delimiter.kind ts inner rest) (hseg : Segmented ts) :
    Token.WellFormedBetween delimiter inner := by
  obtain ⟨hopening, hinner, hclosing⟩ := h
  obtain rfl := hunique _ hopening (hseg.lexical _ List.mem_cons_self)
  obtain rfl := hunique _ hclosing (hseg.lexical _ (by simp))
  refine ⟨hinner, Token.splitsInto_iff.mpr ⟨by simp [String.append_assoc], ?_⟩⟩
  apply hseg.of_infix
  exact ⟨[], rest, by simp⟩

/-- A kind with one symbol has one token. -/
theorem Token.eq_of_lexical {kind : Kind} {c : Char} (hsymbols : kind.symbols = [c])
    {t : Token} (hkind : t.kind = kind) (ht : t.Lexical) : t = ⟨kind, String.ofList [c]⟩ := by
  obtain ⟨-, hholds⟩ := ht
  obtain ⟨_, text⟩ := t
  subst hkind
  obtain ⟨d, hd, htext⟩ := (Kind.holds_iff_of_mem_symbols (c := c) (by simp [hsymbols])).mp hholds
  rw [hsymbols, List.mem_singleton] at hd
  rw [← hd, ← htext, String.ofList_toList]

theorem Literal.Derives.wellFormed {ts rest : List Token} {l : Literal}
    (h : Literal.Derives ts l rest) (hseg : Segmented ts) : l.WellFormed := by
  cases h with
  | bare hrun => exact hrun.wellFormed hseg
  | phrase hinner => exact hinner.wellFormed (fun t => Token.eq_of_lexical rfl) hseg

theorem Side.Derives.wellFormed {ts rest : List Token} {s : Side} (h : Side.Derives ts s rest)
    (hseg : Segmented ts) : s.WellFormed := by
  cases h with
  | unbounded => trivial
  | literal hl hne => exact ⟨hl.wellFormed hseg, hne⟩

theorem Range.Derives.wellFormed {ts rest : List Token} {r : Range} (h : Range.Derives ts r rest)
    (hseg : Segmented ts) : r.WellFormed := by
  cases h with
  | comparison _ _ hvalue => exact hvalue.wellFormed (hseg.of_suffix (List.suffix_cons _ _))
  | interval hi =>
      obtain ⟨-, hspaces₁, hleft, hspaces₂, -, -, hspaces₃, hright, -, -⟩ := hi
      have hstart := (hseg.of_suffix (List.suffix_cons _ _)).of_suffix hspaces₁.suffix
      have hto := (List.suffix_cons _ _).trans (hspaces₂.spaces.suffix.trans hleft.suffix)
      have hnext := hstart.of_suffix (hspaces₃.spaces.suffix.trans hto)
      exact ⟨hleft.wellFormed hstart, hright.wellFormed hnext⟩

theorem Element.Derives.wellFormed {ts rest : List Token} {e : Element}
    (h : Element.Derives ts e rest) (hseg : Segmented ts) : e.WellFormed := by
  cases h with
  | literal hl => exact hl.wellFormed hseg
  | range hr => exact hr.wellFormed hseg

theorem Token.Segmented.isDigits {ts : List Token} (hseg : Segmented ts) {t : Token} (ht : t ∈ ts)
    (hkind : t.kind = .number) : IsDigits t.text := by
  obtain ⟨hne, hholds⟩ := hseg.lexical t ht
  rw [hkind] at hholds
  exact ⟨hne, hholds⟩

theorem Boost.Derives.wellFormed {ts rest : List Token} {b : Boost} (h : Boost.Derives ts b rest)
    (hseg : Segmented ts) : b.WellFormed := by
  intro m hm
  cases h with
  | bare => cases hm
  | whole _ hn =>
      cases hm
      exact Or.inl (hseg.isDigits (by simp) hn)
  | fraction _ hn _ hf =>
      cases hm
      exact Or.inr ⟨_, _, rfl, hseg.isDigits (by simp) hn, hseg.isDigits (by simp) hf⟩

theorem Suffix.Derives.wellFormed {ts rest : List Token} {s : Suffix}
    (h : Suffix.Derives ts s rest) (hseg : Segmented ts) : s.WellFormed := by
  cases h with
  | boost hb => exact hb.wellFormed hseg
  | fuzzy hf =>
      intro d hd
      cases hf with
      | bare => cases hd
      | distance _ hn =>
          cases hd
          exact hseg.isDigits (by simp) hn

theorem Perhaps.forall_mem {p : Production α} {good : α → Prop} {ts rest : List Token}
    {a : Option α} (hp : ∀ {a}, p ts a rest → good a) (h : Perhaps p ts a rest) :
    ∀ b ∈ a, good b := by
  cases h with
  | none => exact nofun
  | some ha =>
      intro b hb
      cases hb
      exact hp ha

/-! ### Formulas -/

section Formula

variable {p : Production C} {bareNot : C → Prop} {ts rest : List Token}

theorem Many.forall_mem {p : Production α} {good : α → Prop} {ts rest : List Token} {as : List α}
    (hp : ∀ {ts a rest}, p ts a rest → good a) (h : Many p ts as rest) : ∀ a ∈ as, good a := by
  induction h with
  | nil => exact nofun
  | cons ha _ ih => exact List.forall_mem_cons.mpr ⟨hp ha, ih⟩

theorem Link.Derives.negated_of_juxtaposed {l : Link C} (h : Link.Derives p ts l rest) :
    l.explicit = false → l.operand.negated = true := by
  cases h with
  | explicit => exact nofun
  | juxtaposed _ hnot ho =>
      cases ho with
      | negated => exact fun _ => rfl
      | plain hfree => exact absurd hnot (hfree _)

theorem Branch.Derives.juxtaposesNegated {b : Branch C} (h : Branch.Derives p ts b rest) :
    b.JuxtaposesNegated := by
  obtain ⟨-, hls⟩ := h
  exact hls.forall_mem Link.Derives.negated_of_juxtaposed

theorem Formula.Derives.juxtaposesNegated {e : Formula C} (h : Formula.Derives p ts e rest) :
    e.JuxtaposesNegated := by
  obtain ⟨hb, hbs⟩ := h
  refine List.forall_mem_cons.mpr ⟨hb.juxtaposesNegated, hbs.forall_mem ?_⟩
  intro us b mid hnext
  obtain ⟨vs, -, hbranch⟩ := hnext.exists_branch
  exact hbranch.juxtaposesNegated

theorem Link.Derives.not_closes {l : Link C} (h : Link.Derives p ts l rest) : ¬ Closes ts := by
  intro hcloses
  cases h with
  | explicit hspaces hand =>
      have hskip := hspaces.skipSpace_eq.trans hand.skipSpace_eq
      exact hcloses.not_stands (hskip ▸ hand)
  | juxtaposed hspaces hnot =>
      have hskip := hspaces.spaces.skipSpace_eq.trans hnot.skipSpace_eq
      exact hcloses.not_stands (hskip ▸ hnot)

theorem Branch.DerivesNext.not_closes {b : Branch C} (h : Branch.DerivesNext p ts b rest) :
    ¬ Closes ts := by
  intro hcloses
  obtain ⟨hspaces, hor, -, -⟩ := h
  have hskip := hspaces.skipSpace_eq.trans hor.skipSpace_eq
  exact hcloses.not_stands (hskip ▸ hor)

theorem Many.eq_nil_of_closes {p : Production α} {as : List α} (h : Many p ts as rest)
    (hp : ∀ {ts a rest}, p ts a rest → ¬ Closes ts) (hcloses : Closes ts) :
    as = [] ∧ Closes rest := by
  cases h with
  | nil => exact ⟨rfl, hcloses⟩
  | cons ha _ => exact absurd hcloses (hp ha)

theorem Link.many_of_closes {ls : List (Link C)} (h : Many (Link.Derives p) ts ls rest)
    (hcloses : Closes ts) : ls.map Link.operand = [] ∧ Closes rest := by
  obtain ⟨rfl, hrest⟩ := h.eq_nil_of_closes Link.Derives.not_closes hcloses
  exact ⟨rfl, hrest⟩

theorem Branch.many_of_closes {bs : List (Branch C)} (h : Many (Branch.DerivesNext p) ts bs rest)
    (hcloses : Closes ts) : bs.flatMap Branch.operands = [] ∧ Closes rest := by
  obtain ⟨rfl, hrest⟩ := h.eq_nil_of_closes Branch.DerivesNext.not_closes hcloses
  exact ⟨rfl, hrest⟩

theorem BareAtEnd.append {os us : List (Operand C)} {mid : List Token}
    (hos : BareAtEnd bareNot os mid) (hus : BareAtEnd bareNot us rest)
    (hmid : Closes mid → us = [] ∧ Closes rest) : BareAtEnd bareNot (os ++ us) rest := by
  -- an operand of the first part that needs the end forces the second part to be empty
  induction os with
  | nil => exact hus
  | cons o os ih =>
      obtain ⟨hhead, htail⟩ := bareAtEnd_cons_iff.mp hos
      refine bareAtEnd_cons_iff.mpr ⟨?_, ih htail⟩
      intro hplain hnot
      obtain ⟨rfl, hcloses⟩ := hhead hplain hnot
      exact hmid hcloses

/-- Such clauses stand without a NOT only where a formula ends. -/
def OnlyAtEnd (p : Production C) (bareNot : C → Prop) : Prop :=
  ∀ ts c rest, p ts c rest → bareNot c → (∀ mid, ¬ Keyword.not.Stands ts mid) → Closes rest

section Bare

variable (hp : OnlyAtEnd p bareNot)

include hp

theorem Operand.Derives.bareAtEnd {o : Operand C} (h : Operand.Derives p ts o rest) :
    BareAtEnd bareNot [o] rest := by
  refine bareAtEnd_cons_iff.mpr ⟨?_, by simp [BareAtEnd]⟩
  intro hplain hnot
  cases h with
  | negated => cases hplain
  | plain hfree hc => exact ⟨rfl, hp _ _ _ hc hnot hfree⟩

theorem Link.many_bareAtEnd {ls : List (Link C)} (h : Many (Link.Derives p) ts ls rest) :
    BareAtEnd bareNot (ls.map Link.operand) rest := by
  induction h with
  | nil => simp [BareAtEnd]
  | cons hl hls ih =>
      obtain ⟨us, -, ho⟩ := hl.exists_operand
      exact (ho.bareAtEnd hp).append ih (Link.many_of_closes hls)

theorem Branch.Derives.bareAtEnd {b : Branch C} (h : Branch.Derives p ts b rest) :
    BareAtEnd bareNot b.operands rest := by
  obtain ⟨ho, hls⟩ := h
  exact (ho.bareAtEnd hp).append (Link.many_bareAtEnd hp hls) (Link.many_of_closes hls)

theorem Branch.many_bareAtEnd {bs : List (Branch C)}
    (h : Many (Branch.DerivesNext p) ts bs rest) :
    BareAtEnd bareNot (bs.flatMap Branch.operands) rest := by
  induction h with
  | nil => simp [BareAtEnd]
  | cons hnext hbs ih =>
      obtain ⟨us, -, hb⟩ := hnext.exists_branch
      exact (hb.bareAtEnd hp).append ih (Branch.many_of_closes hbs)

theorem Formula.Derives.lastOnly {e : Formula C} (h : Formula.Derives p ts e rest) :
    e.LastOnly bareNot := by
  obtain ⟨hb, hbs⟩ := h
  have hbare := (hb.bareAtEnd hp).append (Branch.many_bareAtEnd hp hbs)
    (Branch.many_of_closes hbs)
  intro before o after ho hplain hnot
  exact (hbare before o after ho hplain hnot).1

end Bare

end Formula

/-! ### Clauses -/

theorem Clause.Derives.wellFormed {p : Production α} {leaf : α → Prop}
    {level : Formula (Clause α) → Prop} (hsuffix : ∀ {ts a rest}, p ts a rest → rest <:+ ts)
    (hleaf : ∀ {ts a rest}, p ts a rest → Segmented ts → leaf a)
    (hlevel : ∀ {ts sub rest}, Formula.Derives (Clause.Derives p) ts sub rest → Closes rest →
      level sub) {ts rest : List Token} {c : Clause α} (h : Clause.Derives p ts c rest)
    (hseg : Segmented ts) : c.WellFormed leaf level := by
  induction c generalizing ts rest with
  | leaf a =>
      cases h with
      | leaf ha => exact .leaf (hleaf ha hseg)
  | paren sub ih =>
      cases h with
      | paren hsub =>
          obtain ⟨-, hspaces, hformula, hspaces', hclosing⟩ := hsub
          have hstart := (hseg.of_suffix (List.suffix_cons _ _)).of_suffix hspaces.suffix
          refine .paren (hlevel hformula (hspaces'.closes_cons hclosing)) ?_
          intro c hc
          obtain ⟨us, mid, hus, hclause⟩ :=
            hformula.exists_of_mem (fun hc => hc.suffix hsuffix) hc
          exact ih c hc hclause (hstart.of_suffix hus)

/-- A literal spelled like NOT is read as one only if nothing is left for NOT to apply to. -/
theorem Element.onlyAtEnd :
    OnlyAtEnd (Followed (Clause.Derives Element.Derives)) Clause.IsBareNot := by
  intro ts c rest h hbare hfree
  obtain ⟨hclause, hfollows⟩ := h
  obtain ⟨text, htext, rfl⟩ : ∃ text ∈ ["NOT", "not"],
      c = .leaf (.literal (.bare [⟨.word, text⟩])) := by
    rcases hbare with rfl | rfl
    · exact ⟨"NOT", by simp, rfl⟩
    · exact ⟨"not", by simp, rfl⟩
  cases hclause with
  | leaf helement =>
      cases helement with
      | literal hl =>
          cases hl with
          | bare hrun =>
              obtain ⟨-, -, hrest⟩ := hrun
              have hnext : ∀ v ∈ rest.head?, ¬ Keyword.Continues v.kind := by
                intro v hv
                have hkind := hfollows v hv
                have hword := hrest v hv
                revert hkind hword
                cases v.kind <;> simp [Keyword.Continues]
              -- anything else behind the word would make it the keyword
              by_contra hcloses
              have hword : Token.kind ⟨.word, text⟩ = .word := rfl
              obtain ⟨mid, hstands⟩ := Keyword.exists_not_stands_iff.mpr
                (Or.inr ⟨hword, htext, hnext, hcloses⟩)
              exact hfree mid hstands

theorem Group.level_of_derives {ts rest : List Token} {g : Group}
    (h : Formula.Derives (Clause.Derives Element.Derives) ts g rest) (hrest : Closes rest) :
    Group.Level g :=
  ⟨h.juxtaposesNegated, (h.followed hrest.follows).lastOnly Element.onlyAtEnd⟩

/-! ### Terms and queries -/

theorem Term.Derives.wellFormed {ts rest : List Token} {t : Term} (h : Term.Derives ts t rest)
    (hseg : Segmented ts) : t.WellFormed := by
  cases h with
  | regexp hinner => exact hinner.wellFormed (fun t => Token.eq_of_lexical rfl) hseg
  | literal hl hsuffix =>
      have hmid := hseg.of_suffix hl.suffix
      exact ⟨hl.wellFormed hseg, hsuffix.forall_mem fun hs => hs.wellFormed hmid⟩
  | range hr hboost =>
      have hmid := hseg.of_suffix hr.suffix
      exact ⟨hr.wellFormed hseg, hboost.forall_mem fun hb => hb.wellFormed hmid⟩
  | group hg hboost =>
      have hclause : Clause.Derives Element.Derives ts (.paren _) _ := .paren hg
      have hmid := hseg.of_suffix (hclause.suffix Element.Derives.suffix)
      refine ⟨Clause.Derives.wellFormed ?_ ?_ Group.level_of_derives hclause hseg,
        hboost.forall_mem fun hb => hb.wellFormed hmid⟩
      · exact Element.Derives.suffix
      · exact Element.Derives.wellFormed

theorem FieldClause.Derives.wellFormed {ts rest : List Token} {c : FieldClause}
    (h : FieldClause.Derives ts c rest) (hseg : Segmented ts) : c.WellFormed := by
  obtain ⟨hname, -, hterm⟩ := h
  have hmid := (hseg.of_suffix hname.suffix).of_suffix (List.suffix_cons _ _)
  exact ⟨hname.wellFormed hseg, hterm.wellFormed hmid⟩

theorem Query.Derives.paren_wellFormed {ts : List Token} {q : Query} (h : Query.Derives ts q)
    (hseg : Segmented ts) :
    (Clause.paren q).WellFormed FieldClause.WellFormed Formula.JuxtaposesNegated := by
  obtain ⟨start, stop, hspaces, hformula, -⟩ := h
  refine .paren hformula.juxtaposesNegated ?_
  intro c hc
  obtain ⟨us, mid, hus, hclause⟩ :=
    hformula.exists_of_mem (fun hc => hc.suffix FieldClause.Derives.suffix) hc
  refine Clause.Derives.wellFormed ?_ ?_ ?_ hclause (hseg.of_suffix (hus.trans hspaces.suffix))
  · exact FieldClause.Derives.suffix
  · exact FieldClause.Derives.wellFormed
  · intro us sub rest hsub _
    exact hsub.juxtaposesNegated

theorem Query.Derives.wellFormed {ts : List Token} {q : Query} (h : Query.Derives ts q)
    (hseg : Segmented ts) (hdepth : q.depth ≤ defaultLimit) : q.WellFormed := by
  obtain _ | ⟨hjuxtaposed, hclauses⟩ := h.paren_wellFormed hseg
  exact ⟨hdepth, hjuxtaposed, hclauses⟩

/-! ### Whole texts -/

theorem Reader.parse_eq_ok_iff_segmented {r : Reader α} {after : List Kind} {limit : Nat}
    {s : String} {a : α} :
    r.parse after limit s = .ok a ↔
      ∃ ts, join ts = s ∧ Segmented ts ∧ r.runWhole after ts = .ok a := by
  rw [Reader.parse_eq_ok_iff]
  constructor
  · intro h
    obtain ⟨located, htokens, hrun⟩ := h
    obtain ⟨hjoin, hseg, -⟩ := tokenize_eq_ok_iff.mp htokens
    exact ⟨_, hjoin, hseg, hrun⟩
  · intro h
    obtain ⟨ts, hjoin, hseg, hrun⟩ := h
    refine ⟨Token.locate 0 ts, tokenize_eq_ok_iff.mpr ?_, ?_⟩
    · rw [Token.map_token_locate]
      exact ⟨hjoin, hseg, rfl⟩
    · rw [Token.map_token_locate]
      exact hrun

theorem Query.parseWithin_eq_ok_iff_segmented {limit : Nat} {s : String} {q : Query} :
    Query.parseWithin limit s = .ok q ↔
      ∃ ts, Token.join ts = s ∧ Segmented ts ∧ Query.Derives ts q ∧ q.depth ≤ limit := by
  simp only [Query.parseWithin_eq, Reader.parse_eq_ok_iff_segmented, Query.runWhole_eq_ok_iff]

theorem Term.parseWithin_eq_ok_iff_segmented {limit : Nat} {s : String} {t : Term} :
    Term.parseWithin limit s = .ok t ↔
      ∃ ts, Token.join ts = s ∧ Segmented ts ∧ Whole Term.Derives ts t ∧ t.depth ≤ limit := by
  simp only [Term.parseWithin_eq, Reader.parse_eq_ok_iff_segmented, Term.runWhole_eq_ok_iff]

theorem Query.wellFormed_of_parse {s : String} {q : Query} (h : Query.parse s = .ok q) :
    q.WellFormed := by
  obtain ⟨ts, -, hseg, hderives, hdepth⟩ := Query.parseWithin_eq_ok_iff_segmented.mp h
  exact hderives.wellFormed hseg hdepth

theorem Query.WellFormed.parse_render {q : Query} (h : q.WellFormed) :
    Query.parse (Query.render q) = .ok q := by
  have hsolid : Token.Solid (Query.spell q) :=
    Formula.solid_spell fun c hc => (h.clauses c hc).solid FieldClause.WellFormed.solid
  exact Query.parseWithin_eq_ok_iff_segmented.mpr
    ⟨Query.spell q, Query.join_spell q, hsolid.segmented, h.derives, h.depth_le⟩

theorem Term.wellFormed_of_parse {s : String} {t : Term} (h : Term.parse s = .ok t) :
    t.WellFormed ∧ t.depth ≤ defaultLimit := by
  obtain ⟨ts, -, hseg, ⟨start, stop, hspaces, hterm, -⟩, hdepth⟩ :=
    Term.parseWithin_eq_ok_iff_segmented.mp h
  exact ⟨hterm.wellFormed (hseg.of_suffix hspaces.suffix), hdepth⟩

theorem Term.WellFormed.parse_render {t : Term} (h : t.WellFormed)
    (hdepth : t.depth ≤ defaultLimit) : Term.parse t.render = .ok t := by
  have hderives := h.derives parted_nil
  rw [List.append_nil] at hderives
  exact Term.parseWithin_eq_ok_iff_segmented.mpr
    ⟨t.spell, t.join_spell, h.solid.segmented, ⟨t.spell, [], .none, hderives, .none⟩, hdepth⟩

/-- The well-formed queries are those that are read back from their canonical text. -/
theorem Query.parse_render_eq_ok_iff (q : Query) :
    Query.parse (Query.render q) = .ok q ↔ q.WellFormed :=
  ⟨Query.wellFormed_of_parse, Query.WellFormed.parse_render⟩

-- A literal NOT in front is taken for the keyword, and the last word is left over.
example : (Query.parse "x:( NOT OR a )").toOption = none := by decide +kernel

/-- A canonical text is its own: reading what was read, once it is written out, changes nothing. -/
theorem parse_render_of_parse (s : String) :
    (∀ q, Query.parse s = .ok q → Query.parse (Query.render q) = .ok q) ∧
      ∀ t, Term.parse s = .ok t → Term.parse t.render = .ok t := by
  refine ⟨?_, ?_⟩
  · intro q hq
    exact (Query.wellFormed_of_parse hq).parse_render
  · intro t ht
    obtain ⟨hwell, hdepth⟩ := Term.wellFormed_of_parse ht
    exact hwell.parse_render hdepth

/-- A negated field called NOT, and a group that ends in the literal NOT. -/
theorem parse_render_of_parse_not :
    (∃ q, Query.parse "!NOT:a" = .ok q ∧ Query.render q = "NOT NOT:a" ∧
        Query.parse (Query.render q) = .ok q) ∧
      ∃ t, Term.parse "(b||\tnot)^2" = .ok t ∧ t.render = "( b OR not )^2" ∧
        Term.parse t.render = .ok t := by
  have hq : Query.parse "!NOT:a" = .ok ⟨⟨⟨true, .leaf ⟨⟨[⟨.word, "NOT"⟩]⟩,
      .literal (.bare [⟨.word, "a"⟩]) none⟩⟩, []⟩, []⟩ := by decide +kernel
  have ht : Term.parse "(b||\tnot)^2" = .ok (.group ⟨⟨⟨false,
      .leaf (.literal (.bare [⟨.word, "b"⟩]))⟩, []⟩, [⟨⟨false,
      .leaf (.literal (.bare [⟨.word, "not"⟩]))⟩, []⟩]⟩ (some ⟨some "2"⟩)) := by decide +kernel
  exact ⟨⟨_, hq, by decide +kernel, (parse_render_of_parse _).1 _ hq⟩,
    ⟨_, ht, by decide +kernel, (parse_render_of_parse _).2 _ ht⟩⟩

end SearchQuery
