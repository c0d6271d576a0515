import SearchQuery.Proofs.Parser.Query
import SearchQuery.Proofs.Grammar.Clause

/-!
Terms and queries, up to whole texts: the parser accepts a text with a tree just if its tokens
derive that tree and the tree is not deeper than the limit.
-/

namespace SearchQuery

open Token (Kind)

variable {α : Type}

/-! ### Where phrases end -/

theorem Fragments.suffix {kinds : List Kind} {ts run rest : List Token}
    (h : Fragments kinds ts run rest) : rest <:+ ts := by
  obtain ⟨-, -, -⟩ := h
  exact List.suffix_append _ _

theorem Delimited.suffix {delimiter : Kind} {ts inner rest : List Token}
    (h : Delimited delimiter ts inner rest) : rest <:+ ts := by
  obtain ⟨-, -, -⟩ := h
  exact (List.suffix_cons _ rest).trans
    ((List.suffix_append inner _).trans (List.suffix_cons _ _))

theorem Literal.Derives.suffix {ts rest : List Token} {l : Literal}
    (h : Literal.Derives ts l rest) : rest <:+ ts := by
  cases h with
  | bare hrun => exact hrun.suffix
  | phrase hinner => exact hinner.suffix

theorem Side.Derives.suffix {ts rest : List Token} {s : Side} (h : Side.Derives ts s rest) :
    rest <:+ ts := by
  cases h with
  | unbounded hl => exact hl.suffix
  | literal hl _ => exact hl.suffix

theorem Range.Derives.suffix {ts rest : List Token} {r : Range} (h : Range.Derives ts r rest) :
    rest <:+ ts := by
  cases h with
  | comparison _ _ hvalue => exact hvalue.suffix.trans (List.suffix_cons _ _)
  | interval hi =>
      obtain ⟨-, hspaces₁, hleft, hspaces₂, -, -, hspaces₃, hright, hspaces₄, -⟩ := hi
      have hto := (List.suffix_cons _ _).trans (hspaces₂.spaces.suffix.trans hleft.suffix)
      have hend := (List.suffix_cons _ rest).trans (hspaces₄.suffix.trans hright.suffix)
      exact (hend.trans (hspaces₃.spaces.suffix.trans hto)).trans
        (hspaces₁.suffix.trans (List.suffix_cons _ _))

theorem Perhaps.suffix {p : Production α} (hp : ∀ {ts a rest}, p ts a rest → rest <:+ ts)
    {ts rest : List Token} {a : Option α} (h : Perhaps p ts a rest) : rest <:+ ts := by
  cases h with
  | none => exact List.suffix_refl _
  | some ha => exact hp ha

theorem Boost.Derives.suffix {ts rest : List Token} {b : Boost} (h : Boost.Derives ts b rest) :
    rest <:+ ts := by
  cases h with
  | bare => exact List.suffix_cons _ _
  | whole => exact ⟨[_, _], rfl⟩
  | fraction => exact ⟨[_, _, _, _], rfl⟩

theorem Suffix.Derives.suffix {ts rest : List Token} {s : Suffix} (h : Suffix.Derives ts s rest) :
    rest <:+ ts := by
  cases h with
  | fuzzy hf =>
      cases hf with
      | bare => exact List.suffix_cons _ _
      | distance => exact ⟨[_, _], rfl⟩
  | boost hb => exact hb.suffix

theorem Element.Derives.suffix {ts rest : List Token} {e : Element}
    (h : Element.Derives ts e rest) : rest <:+ ts := by
  cases h with
  | literal hl => exact hl.suffix
  | range hr => exact hr.suffix

theorem Term.Derives.suffix {ts rest : List Token} {t : Term} (h : Term.Derives ts t rest) :
    rest <:+ ts := by
  cases h with
  | regexp hinner => exact hinner.suffix
  | literal hl hsuffix => exact (hsuffix.suffix Suffix.Derives.suffix).trans hl.suffix
  | range hr hboost => exact (hboost.suffix Boost.Derives.suffix).trans hr.suffix
  | group hg hboost =>
      apply (hboost.suffix Boost.Derives.suffix).trans
      apply hg.suffix
      intro us rest hformula
      exact hformula.suffix fun hc => hc.suffix Element.Derives.suffix

theorem FieldClause.Derives.suffix {ts rest : List Token} {c : FieldClause}
    (h : FieldClause.Derives ts c rest) : rest <:+ ts := by
  obtain ⟨hname, -, hterm⟩ := h
  exact hterm.suffix.trans ((List.suffix_cons _ _).trans hname.suffix)

/-! ### Elements -/

theorem Element.reads_choices_iff {ts rest : List Token} {e : Element} :
    (Choice.read Element.choices).Reads ts e rest ↔ Element.Derives ts e rest := by
  rw [Choice.reads_read_iff (by decide)]
  constructor
  · intro h
    obtain ⟨c, hc, hstart, hread⟩ := h
    simp only [choices, List.cons_append, List.mem_cons, List.mem_append, List.mem_map,
      List.not_mem_nil, or_false] at hc
    rcases hc with rfl | ⟨c, hc, rfl⟩ | rfl
    · obtain ⟨l, hl, rfl⟩ := Reader.reads_map_iff.mp hread
      exact .literal (Literal.derives_iff.mpr (Or.inl hl))
    · obtain ⟨r, hr, rfl⟩ := Reader.reads_map_iff.mp hread
      exact .range (Range.exists_mem_choices_iff.mp ⟨c, hc, hstart, hr⟩)
    · obtain ⟨l, hl, rfl⟩ := Reader.reads_map_iff.mp hread
      exact .literal (Literal.derives_iff.mpr (Or.inr hl))
  · intro h
    cases h with
    | literal hl =>
        rcases Literal.derives_iff.mp hl with hl | hl
        · exact ⟨⟨[.quote], Literal.phraseReader.map .literal⟩, by simp [choices],
            Literal.startsWith_of_reads_phraseReader hl, Reader.reads_map_iff.mpr ⟨_, hl, rfl⟩⟩
        · exact ⟨⟨Literal.bareKinds, Literal.bareReader.map .literal⟩, by simp [choices],
            Literal.startsWith_of_reads_bareReader hl, Reader.reads_map_iff.mpr ⟨_, hl, rfl⟩⟩
    | range hr =>
        obtain ⟨c, hc, hstart, hread⟩ := Range.exists_mem_choices_iff.mpr hr
        refine ⟨c.map .range, ?_, hstart, Reader.reads_map_iff.mpr ⟨_, hread, rfl⟩⟩
        simp only [choices, List.cons_append, List.mem_cons, List.mem_append, List.mem_map]
        exact Or.inr (Or.inl ⟨c, hc, rfl⟩)

theorem Element.Derives.startsWith {ts rest : List Token} {e : Element}
    (h : Element.Derives ts e rest) :
    Token.startsWith
      (.quote :: Literal.bareKinds ++ [.comparison, .leftBracket, .leftBrace]) ts = true := by
  cases h with
  | literal hl => exact Token.startsWith_mono (List.subset_append_left _ _) hl.startsWith
  | range hr => exact Token.startsWith_mono (List.subset_append_right _ _) hr.startsWith

theorem Element.exact : Choice.Exact (fun _ => Element.choices) Element.Derives fun _ => 0 where
  disjoint _ := by decide
  starts {_ c} hc := by
    have hstarts : ∀ ks ∈ choices.map Choice.starts, .leftParen ∉ ks := by decide
    exact hstarts _ (List.mem_map_of_mem hc)
  sound h := ⟨Element.reads_choices_iff.mp h, Nat.zero_le _⟩
  complete h _ _ := Element.reads_choices_iff.mpr h
  skipSpace_eq h := Token.skipSpace_eq_of_startsWith h.startsWith (by decide)
  suffix := Element.Derives.suffix

theorem Group.reads_reader_iff {room : Nat} {ts rest : List Token} {g : Group} :
    (Group.reader room).Reads ts g rest ↔
      Enclosed (Formula.Derives (Clause.Derives Element.Derives)) ts g rest ∧
        (Clause.paren g).depth (fun _ => 0) ≤ room :=
  Element.exact.reads_nestedReader_iff

/-! ### Terms -/

theorem Reader.reads_withSuffix_iff {r : Reader α} {ts rest : List Token} {a : α}
    {suffix : Option Suffix} :
    r.withSuffix.Reads ts (a, suffix) rest ↔
      ∃ mid, r.Reads ts a mid ∧ Suffix.take mid = (suffix, rest) := by
  simp only [Reads, withSuffix, andThen, Outcome.andThen_eq_ok_iff, Except.ok.injEq, Prod.ext_iff]
  grind

theorem Reader.reads_withBoost_iff {r : Reader α} {ts rest : List Token} {a : α}
    {boost : Option Boost} :
    r.withBoost.Reads ts (a, boost) rest ↔
      ∃ mid, r.Reads ts a mid ∧ Boost.take mid = (boost, rest) := by
  simp only [Reads, withBoost, andThen, Outcome.andThen_eq_ok_iff, Except.ok.injEq, Prod.ext_iff]
  grind

theorem Term.reads_literalReader_iff {r : Reader Literal} {ts rest : List Token} {t : Term} :
    (Term.literalReader r).Reads ts t rest ↔
      ∃ l suffix mid, r.Reads ts l mid ∧ Suffix.take mid = (suffix, rest) ∧
        t = .literal l suffix := by
  simp only [literalReader, Reader.reads_map_iff, Prod.exists, Reader.reads_withSuffix_iff]
  grind

theorem Term.reads_rangeReader_iff {r : Reader Range} {ts rest : List Token} {t : Term} :
    (Term.rangeReader r).Reads ts t rest ↔
      ∃ x boost mid, r.Reads ts x mid ∧ Boost.take mid = (boost, rest) ∧
        t = .range x boost := by
  simp only [rangeReader, Reader.reads_map_iff, Prod.exists, Reader.reads_withBoost_iff]
  grind

theorem Term.reads_groupReader_iff {room : Nat} {ts rest : List Token} {t : Term} :
    (Term.groupReader room).Reads ts t rest ↔
      ∃ g boost mid, (Group.reader room).Reads ts g mid ∧ Boost.take mid = (boost, rest) ∧
        t = .group g boost := by
  simp only [groupReader, Reader.reads_map_iff, Prod.exists, Reader.reads_withBoost_iff]
  grind

/-- The forms of terms, with the tokens taken after them. -/
theorem Term.reads_reader_iff {room : Nat} {ts rest : List Token} {t : Term} :
    (Term.reader room).Reads ts t rest ↔
      (∃ inner, Delimited .slash ts inner rest ∧ t = .regexp inner) ∨
      (∃ l suffix mid, Literal.Derives ts l mid ∧ Suffix.take mid = (suffix, rest) ∧
        t = .literal l suffix) ∨
      (∃ r boost mid, Range.Derives ts r mid ∧ Boost.take mid = (boost, rest) ∧
        t = .range r boost) ∨
      ∃ g boost mid, (Group.reader room).Reads ts g mid ∧ Boost.take mid = (boost, rest) ∧
        t = .group g boost := by
  have hdisjoint : List.Pairwise (fun ks ls => ∀ k ∈ ks, k ∉ ls) [[Kind.slash], [.quote],
      [.comparison], [.leftBracket, .leftBrace], [.leftParen], Literal.bareKinds] := by
    decide
  rw [reader, Choice.reads_read_iff (by exact hdisjoint)]
  simp only [List.cons_append, List.mem_cons, List.mem_append, List.mem_map, List.not_mem_nil,
    or_false, or_and_right, exists_or, exists_eq_left, exists_exists_and_eq_and,
    Reader.reads_map_iff, Reader.reads_between_iff, Reader.delay_eq, reads_literalReader_iff,
    reads_rangeReader_iff, reads_groupReader_iff]
  constructor
  · rintro (⟨-, inner, hinner, rfl⟩ | ⟨-, l, suffix, mid, hl, hrest⟩ |
      ⟨c, hc, hstart, r, boost, mid, hr, hrest⟩ | ⟨-, hgroup⟩ | ⟨-, l, suffix, mid, hl, hrest⟩)
    · exact Or.inl ⟨inner, hinner, rfl⟩
    · exact Or.inr (Or.inl ⟨l, suffix, mid, Literal.derives_iff.mpr (Or.inl hl), hrest⟩)
    · have hr := Range.exists_mem_choices_iff.mp ⟨c, hc, hstart, hr⟩
      exact Or.inr (Or.inr (Or.inl ⟨r, boost, mid, hr, hrest⟩))
    · exact Or.inr (Or.inr (Or.inr hgroup))
    · exact Or.inr (Or.inl ⟨l, suffix, mid, Literal.derives_iff.mpr (Or.inr hl), hrest⟩)
  · rintro (⟨inner, hinner, rfl⟩ | ⟨l, suffix, mid, hl, hrest⟩ | ⟨r, boost, mid, hr, hrest⟩ |
      ⟨g, boost, mid, hg, hrest⟩)
    · exact Or.inl ⟨hinner.startsWith, inner, hinner, rfl⟩
    · rcases Literal.derives_iff.mp hl with hl | hl
      · exact Or.inr (Or.inl
          ⟨Literal.startsWith_of_reads_phraseReader hl, l, suffix, mid, hl, hrest⟩)
      · exact Or.inr (Or.inr (Or.inr (Or.inr
          ⟨Literal.startsWith_of_reads_bareReader hl, l, suffix, mid, hl, hrest⟩)))
    · obtain ⟨c, hc, hstart, hread⟩ := Range.exists_mem_choices_iff.mpr hr
      exact Or.inr (Or.inr (Or.inl ⟨c, hc, hstart, r, boost, mid, hread, hrest⟩))
    · have hstart := (Group.reads_reader_iff.mp hg).1.startsWith
      exact Or.inr (Or.inr (Or.inr (Or.inl ⟨hstart, g, boost, mid, hg, hrest⟩)))

theorem Term.derives_of_reads {room : Nat} {ts rest : List Token} {t : Term}
    (h : (Term.reader room).Reads ts t rest) : Term.Derives ts t rest ∧ t.depth ≤ room := by
  rcases Term.reads_reader_iff.mp h with ⟨inner, hinner, rfl⟩ |
    ⟨l, suffix, mid, hl, hrest, rfl⟩ | ⟨r, boost, mid, hr, hrest, rfl⟩ |
    ⟨g, boost, mid, hg, hrest, rfl⟩
  · exact ⟨.regexp hinner, Nat.zero_le _⟩
  · have hsuffix := Suffix.derives_take mid
    rw [hrest] at hsuffix
    exact ⟨.literal hl hsuffix, Nat.zero_le _⟩
  · have hboost := Boost.derives_take mid
    rw [hrest] at hboost
    exact ⟨.range hr hboost, Nat.zero_le _⟩
  · have hboost := Boost.derives_take mid
    rw [hrest] at hboost
    obtain ⟨hg, hdepth⟩ := Group.reads_reader_iff.mp hg
    exact ⟨.group hg hboost, hdepth⟩

theorem Term.reads_of_derives {room : Nat} {ts rest : List Token} {t : Term}
    (h : Term.Derives ts t rest) (hdepth : t.depth ≤ room) (hrest : Follows rest) :
    (Term.reader room).Reads ts t rest := by
  apply Term.reads_reader_iff.mpr
  cases h with
  | regexp hinner => exact Or.inl ⟨_, hinner, rfl⟩
  | literal hl hsuffix =>
      have htake := Suffix.take_eq_of_derives hsuffix hrest
      exact Or.inr (Or.inl ⟨_, _, _, hl, htake, rfl⟩)
  | range hr hboost =>
      have htake := Boost.take_eq_of_derives hboost hrest
      exact Or.inr (Or.inr (Or.inl ⟨_, _, _, hr, htake, rfl⟩))
  | group hg hboost =>
      have htake := Boost.take_eq_of_derives hboost hrest
      have hread := Group.reads_reader_iff.mpr ⟨hg, hdepth⟩
      exact Or.inr (Or.inr (Or.inr ⟨_, _, _, hread, htake, rfl⟩))

theorem Term.Derives.skipSpace_eq {ts rest : List Token} {t : Term} (h : Term.Derives ts t rest) :
    Token.skipSpace ts = ts := by
  cases h with
  | regexp hinner => exact Token.skipSpace_eq_of_startsWith hinner.startsWith (by decide)
  | literal hl _ => exact Token.skipSpace_eq_of_startsWith hl.startsWith (by decide)
  | range hr _ => exact Token.skipSpace_eq_of_startsWith hr.startsWith (by decide)
  | group hg _ => exact Token.skipSpace_eq_of_startsWith hg.startsWith (by decide)

/-! ### Queries -/

theorem Field.reads_reader_iff {ts rest : List Token} {f : Field} :
    Field.reader.Reads ts f rest ∧ Token.startsWith Field.nameKinds ts = true ↔
      ∃ colon, colon.kind = .colon ∧ Fragments Field.nameKinds ts f.tokens (colon :: rest) := by
  simp only [Reader.Reads, reader, Token.fragments_iff]
  constructor
  · intro h
    obtain ⟨h, hstart⟩ := h
    split at h
    · next text tail hspan =>
        cases h
        exact ⟨⟨.colon, text⟩, rfl, hstart, Prod.ext rfl hspan⟩
    · cases h
  · intro h
    obtain ⟨⟨kind, text⟩, hcolon, hstart, hspan⟩ := h
    obtain rfl : kind = .colon := hcolon
    rw [hspan]
    exact ⟨rfl, hstart⟩

theorem FieldClause.reads_choices_iff {room : Nat} {ts rest : List Token} {c : FieldClause} :
    (Choice.read (FieldClause.choices room)).Reads ts c rest ↔
      ∃ colon mid, colon.kind = .colon ∧
        Fragments Field.nameKinds ts c.field.tokens (colon :: mid) ∧
        (Term.reader room).Reads mid c.term rest := by
  have hreader : (FieldClause.reader room).Reads ts c rest ↔
      ∃ mid, Field.reader.Reads ts c.field mid ∧ (Term.reader room).Reads mid c.term rest := by
    simp only [Reader.Reads, reader, Reader.andThen, Outcome.andThen_eq_ok_iff,
      Outcome.map_eq_ok_iff]
    grind
  rw [Choice.reads_read_iff (by simp [choices])]
  simp only [choices, List.mem_singleton, exists_eq_left, hreader]
  constructor
  · intro h
    obtain ⟨hstart, mid, hfield, hterm⟩ := h
    obtain ⟨colon, hcolon, hname⟩ := Field.reads_reader_iff.mp ⟨hfield, hstart⟩
    exact ⟨colon, mid, hcolon, hname, hterm⟩
  · intro h
    obtain ⟨colon, mid, hcolon, hname, hterm⟩ := h
    obtain ⟨hfield, hstart⟩ := Field.reads_reader_iff.mpr ⟨colon, hcolon, hname⟩
    exact ⟨hstart, mid, hfield, hterm⟩

theorem FieldClause.exact :
    Choice.Exact FieldClause.choices FieldClause.Derives fun c => c.term.depth where
  disjoint _ := by simp [choices]
  starts {room c} hc := by
    obtain rfl := List.mem_singleton.mp hc
    simp [Field.nameKinds]
  sound {room ts rest c} h := by
    obtain ⟨colon, mid, hcolon, hname, hterm⟩ := FieldClause.reads_choices_iff.mp h
    obtain ⟨hterm, hdepth⟩ := Term.derives_of_reads hterm
    exact ⟨.mk hname hcolon hterm, hdepth⟩
  complete {room ts rest c} h hdepth hrest := by
    obtain ⟨hname, hcolon, hterm⟩ := h
    exact FieldClause.reads_choices_iff.mpr
      ⟨_, _, hcolon, hname, Term.reads_of_derives hterm hdepth hrest⟩
  skipSpace_eq h := by
    obtain ⟨hname, -, -⟩ := h
    exact Token.skipSpace_eq_of_startsWith hname.startsWith (by decide)
  suffix := FieldClause.Derives.suffix

theorem Query.derives_of_reads {limit : Nat} {ts rest : List Token} {q : Query}
    (h : (Query.reader limit).Reads ts q rest) :
    Formula.Derives (Clause.Derives FieldClause.Derives) ts q rest ∧ q.depth ≤ limit := by
  obtain ⟨hformula, hdepth⟩ :=
    FieldClause.exact.formula_derives_of_reads FieldClause.exact.reads_nestedReader_iff h
  exact ⟨hformula, Formula.sup_le_iff.mpr hdepth⟩

theorem Query.reads_of_derives {limit : Nat} {ts rest : List Token} {q : Query}
    (h : Formula.Derives (Clause.Derives FieldClause.Derives) ts q rest) (hdepth : q.depth ≤ limit)
    (hrest : Stops rest) : (Query.reader limit).Reads ts q rest :=
  FieldClause.exact.formula_reads_of_derives FieldClause.exact.reads_nestedReader_iff h
    (Formula.sup_le_iff.mp hdepth) hrest

/-! ### Whole texts -/

section Whole

variable {r : Reader α} {p : Production α} {depth : α → Nat} {limit : Nat}
  {after : List Kind} {s : String} {ts : List Token} {a : α}

theorem Reader.runWhole_eq_ok_iff :
    r.runWhole after ts = .ok a ↔
      ∃ stop, r.Reads (Token.skipSpace ts) a stop ∧ Token.skipSpace stop = [] := by
  simp only [Reads, runWhole]
  cases hrun : r.run (Token.skipSpace ts) with
  | error fault => simp
  | ok found =>
      obtain ⟨b, stop⟩ := found
      cases hskip : Token.skipSpace stop with
      | nil => grind
      | cons t us => grind

theorem Reader.parse_eq_ok_iff :
    r.parse after limit s = .ok a ↔
      ∃ located, tokenize s = .ok located ∧
        r.runWhole after (located.map Token.Located.token) = .ok a := by
  simp only [parse]
  cases htokens : tokenize s with
  | error e => simp
  | ok located =>
      cases hrun : r.runWhole after (located.map Token.Located.token) with
      | error fault => simp [hrun]
      | ok b => simp [hrun]

variable (hskip : ∀ {ts a rest}, p ts a rest → Token.skipSpace ts = ts)
  (hsound : ∀ {ts a rest}, r.Reads ts a rest → p ts a rest ∧ depth a ≤ limit)
  (hcomplete : ∀ {ts a rest}, p ts a rest → depth a ≤ limit → Stops rest → r.Reads ts a rest)

include hskip hsound hcomplete

theorem Reader.runWhole_eq_ok_iff_whole :
    r.runWhole after ts = .ok a ↔ Whole p ts a ∧ depth a ≤ limit := by
  rw [Reader.runWhole_eq_ok_iff]
  constructor
  · intro h
    obtain ⟨stop, hread, hstop⟩ := h
    obtain ⟨hderives, hdepth⟩ := hsound hread
    exact ⟨⟨_, stop, spaces_skipSpace ts, hderives, hstop ▸ spaces_skipSpace stop⟩, hdepth⟩
  · intro h
    obtain ⟨⟨start, stop, hstart, hderives, hstop⟩, hdepth⟩ := h
    rw [hstart.skipSpace_eq, hskip hderives]
    exact ⟨stop, hcomplete hderives hdepth hstop.closes_nil.stops, hstop.skipSpace_eq⟩

end Whole

theorem Query.runWhole_eq_ok_iff {limit : Nat} {after : List Kind} {ts : List Token} {q : Query} :
    (Query.reader limit).runWhole after ts = .ok q ↔ Query.Derives ts q ∧ q.depth ≤ limit := by
  apply Reader.runWhole_eq_ok_iff_whole ?_ Query.derives_of_reads Query.reads_of_derives
  intro ts q rest h
  exact h.skipSpace_eq fun hc => hc.skipSpace_eq FieldClause.exact.skipSpace_eq

theorem Term.runWhole_eq_ok_iff {limit : Nat} {after : List Kind} {ts : List Token} {t : Term} :
    (Term.reader limit).runWhole after ts = .ok t ↔ Whole Term.Derives ts t ∧ t.depth ≤ limit :=
  Reader.runWhole_eq_ok_iff_whole Term.Derives.skipSpace_eq Term.derives_of_reads
    fun h hdepth hrest => Term.reads_of_derives h hdepth hrest.follows

/-- The parser accepts its grammar: no derivation is lost by committing to an operator or to the
longest run, and none is added. -/
theorem Query.parseWithin_eq_ok_iff_derives (s : String) (limit : Nat) (q : Query) :
    Query.parseWithin limit s = .ok q ↔
      ∃ located, tokenize s = .ok located ∧
        Query.Derives (located.map Token.Located.token) q ∧ q.depth ≤ limit := by
  simp only [parseWithin_eq, Reader.parse_eq_ok_iff, Query.runWhole_eq_ok_iff]

end SearchQuery
