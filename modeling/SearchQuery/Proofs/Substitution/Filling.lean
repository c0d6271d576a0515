import SearchQuery.Proofs.Fault.Report
import SearchQuery.Proofs.Substitution.Context

/-!
Phrases with a hole. Where a word of a query is neither a keyword nor the TO of a range, the query
is derived in the same way with any word in its place that cannot be taken for one of these: all
else in the grammar looks at the kinds of tokens only.
-/

namespace SearchQuery

open Token (Kind hole fill Neutral)

variable {α β C : Type}

/-! ### Reserved words -/

/-- The second list starts with the TO between the sides of an interval. -/
inductive Interval.Reserves : List Token → List Token → Prop where
  | mk {opening between : Token} {ts start mid rest : List Token} {left : Side} :
      opening.kind ∈ [.leftBracket, .leftBrace] → Spaces ts start → Side.Derives start left mid →
      SomeSpaces mid (between :: rest) → between.kind = .word → between.text = "TO" →
      Interval.Reserves (opening :: ts) (between :: rest)

/-- A formula reserves the NOT in front of its operands, the AND and OR behind them, and what its
clauses do. -/
inductive Formula.Reserves (clause : Production C) (within : List Token → List Token → Prop) :
    List Token → List Token → Prop where
  | negation {ts us after : List Token} :
      Formula.Reaches clause ts us → Keyword.not.Stands us after →
      Formula.Reserves clause within ts us
  | joint {k : Keyword} {ts operand mid us after : List Token} {o : Operand C} :
      Formula.Reaches clause ts operand → Operand.Derives clause operand o mid → Spaces mid us →
      k ≠ .not → k.Stands us after → Formula.Reserves clause within ts us
  | clause {ts operand start us : List Token} :
      Formula.Reaches clause ts operand → Operand.Opens operand start → within start us →
      Formula.Reserves clause within ts us

inductive Clause.Reserves (leaf : Production α) (leafReserves : List Token → List Token → Prop) :
    List Token → List Token → Prop where
  | leaf {ts us : List Token} :
      leafReserves ts us → Clause.Reserves leaf leafReserves ts us
  | paren {opening : Token} {ts start us : List Token} :
      opening.kind = .leftParen → Spaces ts start →
      Formula.Reserves (Clause.Derives leaf) (Clause.Reserves leaf leafReserves) start us →
      Clause.Reserves leaf leafReserves (opening :: ts) us

/-- A term reserves what a clause of a group would. -/
abbrev Term.Reserves : List Token → List Token → Prop :=
  Clause.Reserves Element.Derives Interval.Reserves

inductive FieldClause.Reserves : List Token → List Token → Prop where
  | mk {ts name mid us : List Token} {colon : Token} :
      Fragments Field.nameKinds ts name (colon :: mid) → colon.kind = .colon →
      Term.Reserves mid us → FieldClause.Reserves ts us

/-- In the query `ts`, the word that `us` starts with is a keyword or the TO of a range. -/
def Query.Reserves (ts us : List Token) : Prop :=
  ∃ start, Spaces ts start ∧ Formula.Reserves (Clause.Derives FieldClause.Derives)
    (Clause.Reserves FieldClause.Derives FieldClause.Reserves) start us

/-! ### Filling tokens -/

namespace Token

variable {x y t : Token} {us : List Token}

theorem fill_of_kind (ht : t.kind ≠ .word) (y : Token) : fill y t = t := by
  apply fill_of_ne
  rintro rfl
  exact ht rfl

theorem isSpace_fill (hy : y.kind = .word) (t : Token) : (fill y t).isSpace = t.isSpace := by
  simp [isSpace, kind_fill hy]

theorem skipSpace_map_fill (hy : y.kind = .word) (us : List Token) :
    skipSpace (us.map (fill y)) = (skipSpace us).map (fill y) := by
  have hspace : isSpace ∘ fill y = isSpace := funext fun t => isSpace_fill hy t
  rw [skipSpace, skipSpace, List.dropWhile_map, hspace]

theorem startsWith_map_fill (hy : y.kind = .word) (kinds : List Kind) (us : List Token) :
    startsWith kinds (us.map (fill y)) = startsWith kinds us := by
  cases us <;> simp [startsWith, kind_fill hy]

end Token

theorem Keyword.appliesTo_map_fill {y : Token} (hy : y.kind = .word) (us : List Token) :
    Keyword.appliesTo (us.map (fill y)) = Keyword.appliesTo us := by
  have hfollows : Keyword.operandFollows (us.map (fill y)) = Keyword.operandFollows us := by
    rw [Keyword.operandFollows, Keyword.operandFollows, Token.skipSpace_map_fill hy]
    cases Token.skipSpace us <;> simp [Token.kind_fill hy]
  rw [Keyword.appliesTo, Keyword.appliesTo, Token.startsWith_map_fill hy, hfollows]

/-! ### Space and keywords -/

section Filled

variable {x : Token} (hx : x.kind = .word) {us rest : List Token}

include hx

theorem Spaces.exists_fill (h : Spaces (us.map (fill x)) rest) :
    ∃ rest', rest'.map (fill x) = rest ∧ rest' <:+ us ∧
      ∀ y, y.kind = .word → Spaces (us.map (fill y)) (rest'.map (fill y)) := by
  obtain ⟨gap, hus, hgap⟩ := spaces_iff.mp h
  obtain ⟨us₁, us₂, rfl, rfl, rfl⟩ := List.map_eq_append_iff.mp hus
  refine ⟨us₂, rfl, List.suffix_append _ _, ?_⟩
  intro y hy
  rw [List.map_append]
  apply spaces_append
  simpa [Token.isSpace_fill hx, Token.isSpace_fill hy] using hgap

theorem SomeSpaces.exists_fill (h : SomeSpaces (us.map (fill x)) rest) :
    ∃ rest', rest'.map (fill x) = rest ∧ rest' <:+ us ∧
      ∀ y, y.kind = .word → SomeSpaces (us.map (fill y)) (rest'.map (fill y)) := by
  generalize hts : us.map (fill x) = ts at h
  obtain ⟨ht, hspaces⟩ := h
  obtain ⟨t, us, rfl, rfl, rfl⟩ := List.map_eq_cons_iff.mp hts
  obtain ⟨rest', hrest, hsuffix, hfill⟩ := hspaces.exists_fill hx
  refine ⟨rest', hrest, hsuffix.trans (List.suffix_cons _ _), ?_⟩
  intro y hy
  rw [Token.isSpace_fill hx] at ht
  exact .mk ((Token.isSpace_fill hy t).trans ht) (hfill y hy)

/-- A keyword outside of the hole is one whatever fills the hole. -/
theorem Keyword.Stands.exists_fill {k : Keyword} (h : k.Stands (us.map (fill x)) rest)
    (hhead : us.head? ≠ some hole) :
    ∃ rest', rest'.map (fill x) = rest ∧ rest' <:+ us ∧
      ∀ y, y.kind = .word → k.Stands (us.map (fill y)) (rest'.map (fill y)) := by
  generalize hts : us.map (fill x) = ts at h
  cases h with
  | word hkind htext hfirst hspaces hu hparen =>
      obtain ⟨t, us, rfl, rfl, rfl⟩ := List.map_eq_cons_iff.mp hts
      have ht : t ≠ hole := by
        rintro rfl
        exact hhead rfl
      have happlies : Keyword.appliesTo us = true := by
        rw [← Keyword.appliesTo_map_fill hx]
        exact Keyword.appliesTo_iff.mpr ⟨hfirst, _, _, hspaces, hu, hparen⟩
      refine ⟨us, rfl, List.suffix_cons _ _, ?_⟩
      intro y hy
      rw [← Keyword.appliesTo_map_fill hy] at happlies
      obtain ⟨hfirst', u', rest', hspaces', hu', hparen'⟩ := Keyword.appliesTo_iff.mp happlies
      rw [Token.fill_of_ne ht] at hkind htext
      rw [List.map_cons, Token.fill_of_ne ht]
      exact .word hkind htext hfirst' hspaces' hu' hparen'
  | ampersands ht hu =>
      obtain ⟨t, _, rfl, rfl, hts'⟩ := List.map_eq_cons_iff.mp hts
      obtain ⟨u, us, rfl, rfl, rfl⟩ := List.map_eq_cons_iff.mp hts'
      rw [Token.kind_fill hx] at ht hu
      refine ⟨us, rfl, (List.suffix_cons _ _).trans (List.suffix_cons _ _), ?_⟩
      intro y hy
      exact .ampersands ((Token.kind_fill hy t).trans ht) ((Token.kind_fill hy u).trans hu)
  | bars ht hu =>
      obtain ⟨t, _, rfl, rfl, hts'⟩ := List.map_eq_cons_iff.mp hts
      obtain ⟨u, us, rfl, rfl, rfl⟩ := List.map_eq_cons_iff.mp hts'
      rw [Token.kind_fill hx] at ht hu
      refine ⟨us, rfl, (List.suffix_cons _ _).trans (List.suffix_cons _ _), ?_⟩
      intro y hy
      exact .bars ((Token.kind_fill hy t).trans ht) ((Token.kind_fill hy u).trans hu)
  | bang ht =>
      obtain ⟨t, us, rfl, rfl, rfl⟩ := List.map_eq_cons_iff.mp hts
      rw [Token.kind_fill hx] at ht
      refine ⟨us, rfl, List.suffix_cons _ _, ?_⟩
      intro y hy
      exact .bang ((Token.kind_fill hy t).trans ht)

end Filled

/-! ### Literals and suffixes -/

/-- The phrases that are filled with `x`, and are phrases of the same tree with holes whatever
neutral word fills them instead. -/
def Production.Fills (p : Production α) (put : (Token → Token) → α → α) (x : Token) :
    Production α :=
  fun us a rest => ∃ a' rest', put (fill x) a' = a ∧ rest'.map (fill x) = rest ∧ rest' <:+ us ∧
    ∀ y, y.Neutral → p (us.map (fill y)) (put (fill y) a') (rest'.map (fill y))

theorem Production.Fills.imp {p : Production α} {q : Production β}
    {put : (Token → Token) → α → α} {put' : (Token → Token) → β → β} {x : Token}
    {us rest : List Token} {a : α} (h : p.Fills put x us a rest) (f : α → β)
    (hput : ∀ g a, put' g (f a) = f (put g a)) (hpq : ∀ ts a rest, p ts a rest → q ts (f a) rest) :
    q.Fills put' x us (f a) rest := by
  obtain ⟨a', rest', rfl, rfl, hsuffix, hfill⟩ := h
  refine ⟨f a', rest', hput _ _, rfl, hsuffix, ?_⟩
  intro y hy
  rw [hput]
  exact hpq _ _ _ (hfill y hy)

section Phrases

variable {x : Token} (hx : x.kind = .word) {us rest : List Token}

include hx

theorem Fragments.fills {kinds : List Kind} {run : List Token}
    (h : Fragments kinds (us.map (fill x)) run rest) :
    (Fragments kinds).Fills List.map x us run rest := by
  generalize hts : us.map (fill x) = ts at h
  obtain ⟨hne, hrun, hrest⟩ := h
  obtain ⟨us₁, us₂, rfl, rfl, rfl⟩ := List.map_eq_append_iff.mp hts
  refine ⟨us₁, us₂, rfl, rfl, List.suffix_append _ _, ?_⟩
  intro y hy
  rw [List.map_append]
  refine .mk (by simpa using hne) ?_ ?_
  · simpa [Token.kind_fill hx, Token.kind_fill hy.1] using hrun
  · simpa [Token.kind_fill hx, Token.kind_fill hy.1] using hrest

theorem Delimited.fills {delimiter : Kind} {inner : List Token}
    (h : Delimited delimiter (us.map (fill x)) inner rest) :
    (Delimited delimiter).Fills List.map x us inner rest := by
  generalize hts : us.map (fill x) = ts at h
  obtain ⟨hopening, hinner, hclosing⟩ := h
  obtain ⟨opening, _, rfl, rfl, hbehind⟩ := List.map_eq_cons_iff.mp hts
  obtain ⟨us₁, _, rfl, rfl, hclose⟩ := List.map_eq_append_iff.mp hbehind
  obtain ⟨closing, us₂, rfl, rfl, rfl⟩ := List.map_eq_cons_iff.mp hclose
  rw [Token.kind_fill hx] at hopening hclosing
  have hsuffix : us₂ <:+ us₁ ++ closing :: us₂ :=
    (List.suffix_cons _ _).trans (List.suffix_append _ _)
  refine ⟨us₁, us₂, rfl, rfl, hsuffix.trans (List.suffix_cons _ _), ?_⟩
  intro y hy
  rw [List.map_cons, List.map_append, List.map_cons]
  refine .mk ((Token.kind_fill hy.1 _).trans hopening) ?_ ((Token.kind_fill hy.1 _).trans hclosing)
  simpa [Token.kind_fill hx, Token.kind_fill hy.1] using hinner

theorem Literal.Derives.fills {l : Literal} (h : Literal.Derives (us.map (fill x)) l rest) :
    Literal.Derives.Fills Literal.mapTokens x us l rest := by
  cases h with
  | bare hrun =>
      exact (hrun.fills hx).imp Literal.bare (fun _ _ => rfl) fun _ _ _ => Literal.Derives.bare
  | phrase hinner =>
      exact (hinner.fills hx).imp Literal.phrase (fun _ _ => rfl)
        fun _ _ _ => Literal.Derives.phrase

/-- A word makes no star. -/
theorem Literal.mapTokens_fill_eq_star_iff {l : Literal} :
    l.mapTokens (fill x) = .bare [⟨.wildcard, "*"⟩] ↔ l = .bare [⟨.wildcard, "*"⟩] := by
  constructor
  · intro h
    cases l with
    | phrase ts => cases h
    | bare ts =>
        have hmap : ts.map (fill x) = [⟨.wildcard, "*"⟩] := by simpa [mapTokens] using h
        obtain ⟨t, _, rfl, ht, hnil⟩ := List.map_eq_cons_iff.mp hmap
        obtain rfl := List.map_eq_nil_iff.mp hnil
        have hkind : t.kind = .wildcard := by rw [← Token.kind_fill hx, ht]
        rw [Token.fill_of_kind (by simp [hkind])] at ht
        rw [ht]
  · rintro rfl
    rfl

theorem Side.Derives.fills {s : Side} (h : Side.Derives (us.map (fill x)) s rest) :
    Side.Derives.Fills Side.mapTokens x us s rest := by
  cases h with
  | unbounded hl =>
      obtain ⟨l, rest', hl', hrest, hsuffix, hfill⟩ := hl.fills hx
      obtain rfl := (Literal.mapTokens_fill_eq_star_iff hx).mp hl'
      exact ⟨.unbounded, rest', rfl, hrest, hsuffix, fun y hy => .unbounded (hfill y hy)⟩
  | literal hl hne =>
      obtain ⟨l, rest', rfl, hrest, hsuffix, hfill⟩ := hl.fills hx
      rw [ne_eq, Literal.mapTokens_fill_eq_star_iff hx] at hne
      refine ⟨.literal l, rest', rfl, hrest, hsuffix, ?_⟩
      intro y hy
      exact .literal (hfill y hy) ((Literal.mapTokens_fill_eq_star_iff hy.1).not.mpr hne)

theorem Boost.Derives.fills {b : Boost} (h : Boost.Derives (us.map (fill x)) b rest) :
    Boost.Derives.Fills (fun _ b => b) x us b rest := by
  generalize hts : us.map (fill x) = ts at h
  cases h with
  | bare hcaret =>
      obtain ⟨caret, us, rfl, rfl, rfl⟩ := List.map_eq_cons_iff.mp hts
      rw [Token.kind_fill hx] at hcaret
      refine ⟨_, us, rfl, rfl, List.suffix_cons _ _, ?_⟩
      intro y hy
      exact .bare ((Token.kind_fill hy.1 _).trans hcaret)
  | whole hcaret hn =>
      obtain ⟨caret, _, rfl, rfl, hbehind⟩ := List.map_eq_cons_iff.mp hts
      obtain ⟨n, us, rfl, rfl, rfl⟩ := List.map_eq_cons_iff.mp hbehind
      rw [Token.kind_fill hx] at hcaret hn
      have hnumber : ∀ y, fill y n = n := Token.fill_of_kind (by simp [hn])
      refine ⟨_, us, rfl, rfl, List.suffix_append [_, _] us, ?_⟩
      intro y hy
      rw [hnumber, List.map_cons, List.map_cons, hnumber]
      exact .whole ((Token.kind_fill hy.1 _).trans hcaret) hn
  | fraction hcaret hn hdot hm =>
      obtain ⟨caret, _, rfl, rfl, hbehind⟩ := List.map_eq_cons_iff.mp hts
      obtain ⟨n, _, rfl, rfl, hbehind₁⟩ := List.map_eq_cons_iff.mp hbehind
      obtain ⟨dot, _, rfl, rfl, hbehind₂⟩ := List.map_eq_cons_iff.mp hbehind₁
      obtain ⟨m, us, rfl, rfl, rfl⟩ := List.map_eq_cons_iff.mp hbehind₂
      rw [Token.kind_fill hx] at hcaret hn hdot hm
      have hnumber : ∀ y, fill y n = n := Token.fill_of_kind (by simp [hn])
      have hnumber' : ∀ y, fill y m = m := Token.fill_of_kind (by simp [hm])
      refine ⟨_, us, rfl, rfl, List.suffix_append [_, _, _, _] us, ?_⟩
      intro y hy
      rw [hnumber, hnumber', List.map_cons, List.map_cons, List.map_cons, List.map_cons, hnumber,
        hnumber']
      exact .fraction ((Token.kind_fill hy.1 _).trans hcaret) hn
        ((Token.kind_fill hy.1 _).trans hdot) hm

theorem Fuzzy.Derives.fills {f : Fuzzy} (h : Fuzzy.Derives (us.map (fill x)) f rest) :
    Fuzzy.Derives.Fills (fun _ f => f) x us f rest := by
  generalize hts : us.map (fill x) = ts at h
  cases h with
  | bare htilde =>
      obtain ⟨tilde, us, rfl, rfl, rfl⟩ := List.map_eq_cons_iff.mp hts
      rw [Token.kind_fill hx] at htilde
      refine ⟨_, us, rfl, rfl, List.suffix_cons _ _, ?_⟩
      intro y hy
      exact .bare ((Token.kind_fill hy.1 _).trans htilde)
  | distance htilde hn =>
      obtain ⟨tilde, _, rfl, rfl, hbehind⟩ := List.map_eq_cons_iff.mp hts
      obtain ⟨n, us, rfl, rfl, rfl⟩ := List.map_eq_cons_iff.mp hbehind
      rw [Token.kind_fill hx] at htilde hn
      have hnumber : ∀ y, fill y n = n := Token.fill_of_kind (by simp [hn])
      refine ⟨_, us, rfl, rfl, List.suffix_append [_, _] us, ?_⟩
      intro y hy
      rw [hnumber, List.map_cons, List.map_cons, hnumber]
      exact .distance ((Token.kind_fill hy.1 _).trans htilde) hn

theorem Suffix.Derives.fills {s : Suffix} (h : Suffix.Derives (us.map (fill x)) s rest) :
    Suffix.Derives.Fills (fun _ s => s) x us s rest := by
  cases h with
  | fuzzy hf => exact (hf.fills hx).imp Suffix.fuzzy (fun _ _ => rfl) fun _ _ _ => .fuzzy
  | boost hb => exact (hb.fills hx).imp Suffix.boost (fun _ _ => rfl) fun _ _ _ => .boost

omit hx in
theorem Perhaps.fills {p : Production α} {a : Option α}
    (hp : ∀ us a rest, p (us.map (fill x)) a rest → p.Fills (fun _ a => a) x us a rest)
    (h : Perhaps p (us.map (fill x)) a rest) :
    (Perhaps p).Fills (fun _ a => a) x us a rest := by
  cases h with
  | none => exact ⟨Option.none, us, rfl, rfl, List.suffix_refl _, fun _ _ => .none⟩
  | some ha => exact (hp _ _ _ ha).imp Option.some (fun _ _ => rfl) fun _ _ _ => .some

end Phrases

/-! ### Free holes -/

/-- No hole of `us` is in the place of a reserved word. -/
def Token.Free (reserves : List Token → List Token → Prop) (x : Token) (us : List Token) : Prop :=
  ∀ us', hole :: us' <:+ us → ¬ reserves (us.map (fill x)) ((hole :: us').map (fill x))

open Token (Free)

theorem Token.Free.mono {reserves reserves' : List Token → List Token → Prop} {x : Token}
    {us vs : List Token} (h : Free reserves x us) (hvs : vs <:+ us)
    (hreserves : ∀ ws, reserves' (vs.map (fill x)) ws → reserves (us.map (fill x)) ws) :
    Free reserves' x vs :=
  fun us' hus' hreserved => h us' (hus'.trans hvs) (hreserves _ hreserved)

/-- What is reserved is no hole. -/
theorem Token.Free.head?_ne {reserves : List Token → List Token → Prop} {x : Token}
    {us vs : List Token} (h : Free reserves x us) (hvs : vs <:+ us)
    (hreserves : reserves (us.map (fill x)) (vs.map (fill x))) : vs.head? ≠ some hole := by
  intro hhead
  obtain ⟨us', rfl⟩ := List.head?_eq_some_iff.mp hhead
  exact h us' hvs hreserves

/-- A neutral word is no keyword. -/
theorem Token.Neutral.not_stands {y : Token} {ts rest : List Token} {k : Keyword}
    (hy : y.Neutral) : ¬ k.Stands (y :: ts) rest := by
  obtain ⟨hkind, htext⟩ := hy
  intro h
  cases h with
  | word _ hk => simp at hk htext; grind
  | ampersands ht => simp [hkind] at ht
  | bars ht => simp [hkind] at ht
  | bang ht => simp [hkind] at ht

/-! ### Ranges -/

section Ranges

variable {x : Token} (hx : x.kind = .word) {us rest : List Token}

include hx

theorem Interval.Derives.fills {i : Interval} (hfree : Free Interval.Reserves x us)
    (h : Interval.Derives (us.map (fill x)) i rest) :
    Interval.Derives.Fills Interval.mapTokens x us i rest := by
  generalize hts : us.map (fill x) = ts at h
  cases h with
  | @mk _ _ _ _ _ _ _ _ _ _ _ _ leftClosed rightClosed hopening hspaces₁ hleft hspaces₂ hto htext
      hspaces₃ hright hspaces₄ hclosing =>
      obtain ⟨opening, us₁, rfl, rfl, rfl⟩ := List.map_eq_cons_iff.mp hts
      obtain ⟨us₂, rfl, hus₂, hfill₂⟩ := hspaces₁.exists_fill hx
      obtain ⟨left, us₃, rfl, rfl, hus₃, hfill₃⟩ := hleft.fills hx
      obtain ⟨us₄, hmap₄, hus₄, hfill₄⟩ := hspaces₂.exists_fill hx
      have hsuffix₄ : us₄ <:+ opening :: us₁ :=
        (hus₄.trans (hus₃.trans hus₂)).trans (List.suffix_cons _ _)
      have hbracket : (fill x opening).kind ∈ [.leftBracket, .leftBrace] := by
        rw [hopening]
        cases leftClosed <;> decide
      have hhead : us₄.head? ≠ some hole := by
        apply hfree.head?_ne hsuffix₄
        rw [hmap₄]
        exact .mk hbracket hspaces₁ hleft hspaces₂ hto htext
      obtain ⟨between, us₅, rfl, rfl, rfl⟩ := List.map_eq_cons_iff.mp hmap₄
      have hbetween : ∀ y, fill y between = between := by
        intro y
        apply Token.fill_of_ne
        rintro rfl
        exact hhead rfl
      obtain ⟨us₆, rfl, hus₆, hfill₆⟩ := hspaces₃.exists_fill hx
      obtain ⟨right, us₇, rfl, rfl, hus₇, hfill₇⟩ := hright.fills hx
      obtain ⟨us₈, hmap₈, hus₈, hfill₈⟩ := hspaces₄.exists_fill hx
      obtain ⟨closing, rest', rfl, rfl, rfl⟩ := List.map_eq_cons_iff.mp hmap₈
      have hsuffix : rest' <:+ opening :: us₁ :=
        ((List.suffix_cons closing rest').trans (hus₈.trans (hus₇.trans hus₆))).trans
          ((List.suffix_cons between us₅).trans hsuffix₄)
      rw [Token.kind_fill hx] at hopening hclosing
      rw [hbetween] at hto htext
      refine ⟨⟨leftClosed, left, right, rightClosed⟩, rest', rfl, rfl, hsuffix, ?_⟩
      intro y hy
      have hspaces₂' := hfill₄ y hy.1
      rw [List.map_cons, hbetween] at hspaces₂'
      exact .mk ((Token.kind_fill hy.1 _).trans hopening) (hfill₂ y hy.1) (hfill₃ y hy) hspaces₂'
        hto htext (hfill₆ y hy.1) (hfill₇ y hy) (hfill₈ y hy.1)
        ((Token.kind_fill hy.1 _).trans hclosing)

theorem Range.Derives.fills {r : Range} (hfree : Free Interval.Reserves x us)
    (h : Range.Derives (us.map (fill x)) r rest) :
    Range.Derives.Fills Range.mapTokens x us r rest := by
  generalize hts : us.map (fill x) = ts at h
  cases h with
  | @comparison _ _ _ op _ ht htext hvalue =>
      obtain ⟨t, us, rfl, rfl, rfl⟩ := List.map_eq_cons_iff.mp hts
      obtain ⟨value, rest', rfl, rfl, hsuffix, hfill⟩ := hvalue.fills hx
      rw [Token.kind_fill hx] at ht
      have hsymbol : ∀ y, fill y t = t := Token.fill_of_kind (by simp [ht])
      rw [hsymbol] at htext
      refine ⟨.comparison op value, rest', rfl, rfl, hsuffix.trans (List.suffix_cons _ _), ?_⟩
      intro y hy
      rw [List.map_cons, hsymbol]
      exact .comparison ht htext (hfill y hy)
  | interval hi =>
      subst hts
      exact (hi.fills hx hfree).imp Range.interval (fun _ _ => rfl)
        fun _ _ _ => Range.Derives.interval

theorem Element.Derives.fills {e : Element} (hfree : Free Interval.Reserves x us)
    (h : Element.Derives (us.map (fill x)) e rest) :
    Element.Derives.Fills Element.mapTokens x us e rest := by
  cases h with
  | literal hl =>
      exact (hl.fills hx).imp Element.literal (fun _ _ => rfl) fun _ _ _ => Element.Derives.literal
  | range hr =>
      exact (hr.fills hx hfree).imp Element.range (fun _ _ => rfl)
        fun _ _ _ => Element.Derives.range

end Ranges

/-! ### Formulas -/

section Formula

variable {p : Production C} {within : List Token → List Token → Prop}
  {put : (Token → Token) → C → C} {x : Token} {start us rest : List Token}

/-- The clauses that can be filled where they have no hole in the place of a reserved word. -/
def Production.Fillable (p : Production C) (within : List Token → List Token → Prop)
    (put : (Token → Token) → C → C) (x : Token) : Production C :=
  fun ts c rest => p ts c rest ∧
    ∀ us, us.map (fill x) = ts → Free within x us → p.Fills put x us c rest

/-- An operand of the formula ends in front of `ts`. -/
def Formula.Passes (p : Production C) (start ts : List Token) : Prop :=
  ∃ operand o, Formula.Reaches p start operand ∧ Operand.Derives p operand o ts

variable (hx : x.kind = .word) (hfree : Free (Formula.Reserves p within) x start)

include hx hfree

theorem Operand.Derives.fills {o : Operand C} (hus : us <:+ start)
    (hreaches : Formula.Reaches p (start.map (fill x)) (us.map (fill x)))
    (h : Operand.Derives (p.Fillable within put x) (us.map (fill x)) o rest) :
    (Operand.Derives p).Fills (fun g => Operand.map (put g)) x us o rest := by
  cases h with
  | negated hnot hspaces hc =>
      have hhead := hfree.head?_ne hus (.negation hreaches hnot)
      obtain ⟨mid, rfl, hmid, hnot'⟩ := hnot.exists_fill hx hhead
      obtain ⟨us', rfl, hus', hspaces'⟩ := hspaces.exists_fill hx
      have hsuffix := hus'.trans hmid
      have hclause : Free within x us' := hfree.mono (hsuffix.trans hus) fun _ hreserved =>
        .clause hreaches (.negated hnot hspaces) hreserved
      obtain ⟨c, rest', rfl, rfl, hrest, hfill⟩ := hc.2 us' rfl hclause
      refine ⟨⟨true, c⟩, rest', rfl, rfl, hrest.trans hsuffix, ?_⟩
      intro y hy
      exact .negated (hnot' y hy.1) (hspaces' y hy.1) (hfill y hy)
  | plain hnot hc =>
      have hclause : Free within x us :=
        hfree.mono hus fun _ hreserved => .clause hreaches (.plain hnot) hreserved
      obtain ⟨c, rest', rfl, rfl, hrest, hfill⟩ := hc.2 us rfl hclause
      refine ⟨⟨false, c⟩, rest', rfl, rfl, hrest, ?_⟩
      intro y hy
      refine .plain ?_ (hfill y hy)
      -- a NOT in front of the filled clause would not be in the hole, and so have stood before
      intro mid hstands
      have hhead : us.head? ≠ some hole := by
        intro hhead
        obtain ⟨us', rfl⟩ := List.head?_eq_some_iff.mp hhead
        exact hy.not_stands hstands
      obtain ⟨mid', -, -, hnot'⟩ := hstands.exists_fill hy.1 hhead
      exact hnot _ (hnot' x hx)

theorem Link.Derives.fills {l : Link C} (hus : us <:+ start)
    (hpasses : Formula.Passes p (start.map (fill x)) (us.map (fill x)))
    (h : Link.Derives (p.Fillable within put x) (us.map (fill x)) l rest) :
    (Link.Derives p).Fills (fun g => Link.map (put g)) x us l rest := by
  obtain ⟨operand, o, hreaches, ho⟩ := hpasses
  cases h with
  | explicit hspaces hand hspaces' ho' =>
      obtain ⟨mid, rfl, hmid, hfill₁⟩ := hspaces.exists_fill hx
      have hhead := hfree.head?_ne (hmid.trans hus) (.joint hreaches ho hspaces (by decide) hand)
      obtain ⟨after, rfl, hafter, hfill₂⟩ := hand.exists_fill hx hhead
      obtain ⟨us', rfl, hus', hfill₃⟩ := hspaces'.exists_fill hx
      have hsuffix := hus'.trans (hafter.trans hmid)
      have hnext := hreaches.next ho (.keyword (by decide) hspaces hand hspaces')
      obtain ⟨o', rest', rfl, rfl, hrest, hfill₄⟩ := ho'.fills hx hfree (hsuffix.trans hus) hnext
      refine ⟨⟨true, o'⟩, rest', rfl, rfl, hrest.trans hsuffix, ?_⟩
      intro y hy
      exact .explicit (hfill₁ y hy.1) (hfill₂ y hy.1) (hfill₃ y hy.1) (hfill₄ y hy)
  | juxtaposed hspaces hnot ho' =>
      obtain ⟨us', rfl, hus', hfill₁⟩ := hspaces.exists_fill hx
      have hnext := hreaches.next ho (.juxtaposed hspaces hnot)
      have hnegated := ho'.stands_iff.mp ⟨_, hnot⟩
      obtain ⟨o', rest', rfl, rfl, hrest, hfill₂⟩ := ho'.fills hx hfree (hus'.trans hus) hnext
      refine ⟨⟨false, o'⟩, rest', rfl, rfl, hrest.trans hus', ?_⟩
      intro y hy
      obtain ⟨after, hnot'⟩ := (hfill₂ y hy).stands_iff.mpr hnegated
      exact .juxtaposed (hfill₁ y hy.1) hnot' (hfill₂ y hy)

omit hx hfree in
/-- A repetition, with a fact that holds between its items. -/
theorem Many.fills {item item' : Production β} {put : (Token → Token) → β → β}
    {between : List Token → Prop} {bs : List β}
    (hitem : ∀ us b rest, us <:+ start → between (us.map (fill x)) →
      item (us.map (fill x)) b rest → item'.Fills put x us b rest ∧ between rest)
    (hus : us <:+ start) (hbetween : between (us.map (fill x)))
    (h : Many item (us.map (fill x)) bs rest) :
    (Many item').Fills (fun g => List.map (put g)) x us bs rest := by
  generalize hts : us.map (fill x) = ts at h
  induction h generalizing us with
  | nil =>
      subst hts
      exact ⟨[], us, rfl, rfl, List.suffix_refl _, fun _ _ => .nil⟩
  | cons hb _ ih =>
      subst hts
      obtain ⟨⟨b, us', rfl, rfl, hus', hfill₁⟩, hbetween'⟩ := hitem us _ _ hus hbetween hb
      obtain ⟨bs, rest', rfl, rfl, hrest, hfill₂⟩ := ih (hus'.trans hus) hbetween' rfl
      exact ⟨b :: bs, rest', rfl, rfl, hrest.trans hus',
        fun y hy => .cons (hfill₁ y hy) (hfill₂ y hy)⟩

theorem Branch.Derives.fills {b : Branch C} (hus : us <:+ start)
    (hreaches : Formula.Reaches p (start.map (fill x)) (us.map (fill x)))
    (h : Branch.Derives (p.Fillable within put x) (us.map (fill x)) b rest) :
    (Branch.Derives p).Fills (fun g => Branch.map (put g)) x us b rest := by
  obtain ⟨ho, hls⟩ := h
  have hpasses : Formula.Passes p (start.map (fill x)) _ :=
    ⟨_, _, hreaches, ho.imp fun _ hc => hc.1⟩
  obtain ⟨o, us', rfl, rfl, hus', hfill₁⟩ := ho.fills hx hfree hus hreaches
  have hlink : ∀ us l rest, us <:+ start →
      Formula.Passes p (start.map (fill x)) (us.map (fill x)) →
      Link.Derives (p.Fillable within put x) (us.map (fill x)) l rest →
      (Link.Derives p).Fills (fun g => Link.map (put g)) x us l rest ∧
        Formula.Passes p (start.map (fill x)) rest := by
    intro us l rest hus hpasses hl
    obtain ⟨next, hjoins, ho'⟩ := (hl.imp fun _ hc => hc.1).joins
    obtain ⟨operand, o, hreaches, ho⟩ := hpasses
    exact ⟨hl.fills hx hfree hus ⟨operand, o, hreaches, ho⟩, next, _, hreaches.next ho hjoins, ho'⟩
  obtain ⟨ls, rest', rfl, rfl, hrest, hfill₂⟩ := hls.fills hlink (hus'.trans hus) hpasses
  exact ⟨⟨o, ls⟩, rest', rfl, rfl, hrest.trans hus', fun y hy => .mk (hfill₁ y hy) (hfill₂ y hy)⟩

theorem Branch.DerivesNext.fills {b : Branch C} (hus : us <:+ start)
    (hpasses : Formula.Passes p (start.map (fill x)) (us.map (fill x)))
    (h : Branch.DerivesNext (p.Fillable within put x) (us.map (fill x)) b rest) :
    (Branch.DerivesNext p).Fills (fun g => Branch.map (put g)) x us b rest ∧
      Formula.Passes p (start.map (fill x)) rest := by
  obtain ⟨operand, o, hreaches, ho⟩ := hpasses
  obtain ⟨hspaces, hor, hspaces', hb⟩ := h
  have hnext := hreaches.next ho (.keyword (by decide) hspaces hor hspaces')
  refine ⟨?_, (hb.imp fun _ _ _ _ hc => hc.1).reaches hnext⟩
  obtain ⟨mid, rfl, hmid, hfill₁⟩ := hspaces.exists_fill hx
  have hhead := hfree.head?_ne (hmid.trans hus) (.joint hreaches ho hspaces (by decide) hor)
  obtain ⟨after, rfl, hafter, hfill₂⟩ := hor.exists_fill hx hhead
  obtain ⟨us', rfl, hus', hfill₃⟩ := hspaces'.exists_fill hx
  have hsuffix := hus'.trans (hafter.trans hmid)
  obtain ⟨b, rest', rfl, rfl, hrest, hfill₄⟩ := hb.fills hx hfree (hsuffix.trans hus) hnext
  exact ⟨b, rest', rfl, rfl, hrest.trans hsuffix,
    fun y hy => .mk (hfill₁ y hy.1) (hfill₂ y hy.1) (hfill₃ y hy.1) (hfill₄ y hy)⟩

theorem Formula.Derives.fills {e : Formula C}
    (h : Formula.Derives (p.Fillable within put x) (start.map (fill x)) e rest) :
    (Formula.Derives p).Fills (fun g => Formula.map (put g)) x start e rest := by
  obtain ⟨hb, hbs⟩ := h
  have hpasses : Formula.Passes p (start.map (fill x)) _ :=
    (hb.imp fun _ _ _ _ hc => hc.1).reaches .first
  obtain ⟨b, us, rfl, rfl, hus, hfill₁⟩ := hb.fills hx hfree (List.suffix_refl _) .first
  obtain ⟨bs, rest', rfl, rfl, hrest, hfill₂⟩ :=
    hbs.fills (fun _ _ _ hus hpasses hnext => hnext.fills hx hfree hus hpasses) hus hpasses
  exact ⟨⟨b, bs⟩, rest', rfl, rfl, hrest.trans hus,
    fun y hy => .mk (hfill₁ y hy) (hfill₂ y hy)⟩

end Formula

/-! ### Clauses and queries -/

section Clauses

variable {leaf : Production α} {leafReserves : List Token → List Token → Prop}
  {put : (Token → Token) → α → α} {x : Token} (hx : x.kind = .word) {us rest : List Token}

include hx

theorem Enclosed.fills {e : Formula (Clause α)}
    (hclause : ∀ c ∈ e.clauses, ∀ us rest, Free (Clause.Reserves leaf leafReserves) x us →
      Clause.Derives leaf (us.map (fill x)) c rest →
      Production.Fills (Clause.Derives leaf) (fun g => Clause.map (put g)) x us c rest)
    (hfree : Free (Clause.Reserves leaf leafReserves) x us)
    (h : Enclosed (Formula.Derives (Clause.Derives leaf)) (us.map (fill x)) e rest) :
    (Enclosed (Formula.Derives (Clause.Derives leaf))).Fills
      (fun g => Formula.map (Clause.map (put g))) x us e rest := by
  generalize hts : us.map (fill x) = ts at h
  obtain ⟨hopening, hspaces, he, hspaces', hclosing⟩ := h
  obtain ⟨opening, us₁, rfl, rfl, rfl⟩ := List.map_eq_cons_iff.mp hts
  obtain ⟨us₂, rfl, hus₂, hfill₁⟩ := hspaces.exists_fill hx
  have hsuffix : us₂ <:+ opening :: us₁ := hus₂.trans (List.suffix_cons _ _)
  have hinner := hfree.mono hsuffix fun _ hreserved => .paren hopening hspaces hreserved
  have hfillable : Formula.Derives (Production.Fillable (Clause.Derives leaf)
      (Clause.Reserves leaf leafReserves) (fun g => Clause.map (put g)) x) _ e _ :=
    he.imp fun c hc _ _ hd => ⟨hd, fun us hus hfree => hclause c hc us _ hfree (hus ▸ hd)⟩
  obtain ⟨e, us₃, rfl, rfl, hus₃, hfill₂⟩ := hfillable.fills hx hinner
  obtain ⟨us₄, hmap, hus₄, hfill₃⟩ := hspaces'.exists_fill hx
  obtain ⟨closing, rest', rfl, rfl, rfl⟩ := List.map_eq_cons_iff.mp hmap
  rw [Token.kind_fill hx] at hopening hclosing
  refine ⟨e, rest', rfl, rfl, ?_, ?_⟩
  · exact ((List.suffix_cons _ _).trans (hus₄.trans hus₃)).trans hsuffix
  · intro y hy
    exact .mk ((Token.kind_fill hy.1 _).trans hopening) (hfill₁ y hy.1) (hfill₂ y hy)
      (hfill₃ y hy.1) ((Token.kind_fill hy.1 _).trans hclosing)

theorem Clause.Derives.fills
    (hleaf : ∀ us a rest, Free leafReserves x us → leaf (us.map (fill x)) a rest →
      leaf.Fills put x us a rest)
    {c : Clause α} (hfree : Free (Clause.Reserves leaf leafReserves) x us)
    (h : Clause.Derives leaf (us.map (fill x)) c rest) :
    Production.Fills (Clause.Derives leaf) (fun g => Clause.map (put g)) x us c rest := by
  induction c generalizing us rest with
  | leaf a =>
      cases h with
      | leaf ha =>
          have hleafFree : Free leafReserves x us :=
            hfree.mono (List.suffix_refl _) fun _ hreserved => .leaf hreserved
          exact (hleaf us a rest hleafFree ha).imp Clause.leaf (fun _ _ => Clause.map_leaf _ _)
            fun _ _ _ => Clause.Derives.leaf
  | paren sub ih =>
      cases h with
      | paren hsub =>
          exact (hsub.fills hx (fun c hc _ _ => ih c hc) hfree).imp Clause.paren
            (fun _ _ => Clause.map_paren _ _) fun _ _ _ => Clause.Derives.paren

end Clauses

section Queries

variable {x : Token} (hx : x.kind = .word) {us rest : List Token}

include hx

theorem Term.Derives.fills {t : Term} (hfree : Free Term.Reserves x us)
    (h : Term.Derives (us.map (fill x)) t rest) :
    Term.Derives.Fills Term.mapTokens x us t rest := by
  have hboost : ∀ us (b : Option Boost) rest, Perhaps Boost.Derives (us.map (fill x)) b rest →
      (Perhaps Boost.Derives).Fills (fun _ b => b) x us b rest :=
    fun _ _ _ hb => hb.fills fun _ _ _ hb => hb.fills hx
  have hinterval : Free Interval.Reserves x us :=
    hfree.mono (List.suffix_refl _) fun _ hreserved => .leaf hreserved
  cases h with
  | regexp hinner =>
      exact (hinner.fills hx).imp Term.regexp (fun _ _ => rfl) fun _ _ _ => Term.Derives.regexp
  | literal hl hs =>
      obtain ⟨l, us', rfl, rfl, hus', hfill₁⟩ := hl.fills hx
      obtain ⟨s, rest', rfl, rfl, hrest, hfill₂⟩ := hs.fills fun _ _ _ hs => hs.fills hx
      exact ⟨.literal l s, rest', rfl, rfl, hrest.trans hus',
        fun y hy => .literal (hfill₁ y hy) (hfill₂ y hy)⟩
  | range hr hb =>
      obtain ⟨r, us', rfl, rfl, hus', hfill₁⟩ := hr.fills hx hinterval
      obtain ⟨b, rest', rfl, rfl, hrest, hfill₂⟩ := hboost _ _ _ hb
      exact ⟨.range r b, rest', rfl, rfl, hrest.trans hus',
        fun y hy => .range (hfill₁ y hy) (hfill₂ y hy)⟩
  | group hg hb =>
      have helement : ∀ us e rest, Free Interval.Reserves x us →
          Element.Derives (us.map (fill x)) e rest →
          Element.Derives.Fills Element.mapTokens x us e rest :=
        fun _ _ _ hfree he => he.fills hx hfree
      obtain ⟨g, us', rfl, rfl, hus', hfill₁⟩ :=
        hg.fills hx (fun _ _ _ _ hfree hc => hc.fills hx helement hfree) hfree
      obtain ⟨b, rest', rfl, rfl, hrest, hfill₂⟩ := hboost _ _ _ hb
      exact ⟨.group g b, rest', rfl, rfl, hrest.trans hus',
        fun y hy => .group (hfill₁ y hy) (hfill₂ y hy)⟩

theorem FieldClause.Derives.fills {c : FieldClause} (hfree : Free FieldClause.Reserves x us)
    (h : FieldClause.Derives (us.map (fill x)) c rest) :
    FieldClause.Derives.Fills FieldClause.mapTokens x us c rest := by
  obtain ⟨hname, hcolon, hterm⟩ := h
  obtain ⟨name, us₁, rfl, hmap, hus₁, hfill₁⟩ := hname.fills hx
  obtain ⟨colon, us₂, rfl, rfl, rfl⟩ := List.map_eq_cons_iff.mp hmap
  have hus₂ : us₂ <:+ us := (List.suffix_cons _ _).trans hus₁
  have hfreeTerm : Free Term.Reserves x us₂ :=
    hfree.mono hus₂ fun _ hreserved => .mk hname hcolon hreserved
  obtain ⟨t, rest', rfl, rfl, hrest, hfill₂⟩ := hterm.fills hx hfreeTerm
  rw [Token.kind_fill hx] at hcolon
  refine ⟨⟨⟨name⟩, t⟩, rest', rfl, rfl, hrest.trans hus₂, ?_⟩
  intro y hy
  exact .mk (hfill₁ y hy) ((Token.kind_fill hy.1 _).trans hcolon) (hfill₂ y hy)

/-- A query with free holes is one whatever neutral word fills them. -/
theorem Query.Derives.exists_fill {q : Query} (hfree : Free Query.Reserves x us)
    (h : Query.Derives (us.map (Token.fill x)) q) :
    ∃ context : Query, context.fill x = q ∧
      ∀ y, y.Neutral → Query.Derives (us.map (Token.fill y)) (context.fill y) := by
  obtain ⟨start, stop, hstart, hq, hstop⟩ := h
  obtain ⟨us₁, rfl, hus₁, hfill₁⟩ := hstart.exists_fill hx
  have hformula := hfree.mono hus₁ fun _ hreserved => ⟨_, hstart, hreserved⟩
  have hfillable : Formula.Derives (Production.Fillable (Clause.Derives FieldClause.Derives)
      (Clause.Reserves FieldClause.Derives FieldClause.Reserves)
      (fun g => Clause.map (FieldClause.mapTokens g)) x) _ q _ :=
    hq.imp fun c _ _ _ hd => ⟨hd, fun us hus hfree => Clause.Derives.fills hx
      (fun _ _ _ hfree hc => hc.fills hx hfree) hfree (hus ▸ hd)⟩
  obtain ⟨q, us₂, rfl, rfl, -, hfill₂⟩ := hfillable.fills hx hformula
  obtain ⟨us₃, hmap, -, hfill₃⟩ := hstop.exists_fill hx
  obtain rfl := List.map_eq_nil_iff.mp hmap
  exact ⟨q, rfl, fun y hy => ⟨_, _, hfill₁ y hy.1, hfill₂ y hy, hfill₃ y hy.1⟩⟩

end Queries

end SearchQuery
