import SearchQuery.Proofs.Canonical.RoundTrip

/-!
Terms in the texts they are read from. Apart from the space that is allowed around it and in an
interval, a term stands there as its canonical text does, up to the body of a group: the tokens of
its literals are kept as written, and its suffix follows directly. The texts that a decoder is meant
to see are pieces of it.
-/

namespace SearchQuery

open Token (Kind Segmented join)

variable {ts rest : List Token} {s : String} {limit : Nat}

/-- Nothing but space. -/
def Text.IsGap (w : String) : Prop :=
  ∀ c ∈ w.toList, Text.isBlank c = true

open Text (IsGap)

/-! ### What is written -/

/-- How a side is written, and the texts in it that a decoder gets to see. -/
inductive Side.Written : Side → String → List String → Prop where
  | star : Side.Written .unbounded "*" []
  | bare {ts : List Token} :
      join ts ≠ "*" → Side.Written (.literal (.bare ts)) (join ts) [join ts]
  | phrase {ts : List Token} :
      Side.Written (.literal (.phrase ts)) ("\"" ++ join ts ++ "\"") [join ts]

/-- How a range is written, and the texts in it that a decoder gets to see. -/
inductive Range.Written : Range → String → List String → Prop where
  | comparison {op : Comparison} {value : Side} {w : String} {texts : List String} :
      value.Written w texts → Range.Written (.comparison op value) (op.symbol ++ w) texts
  | interval {leftClosed rightClosed : Bool} {left right : Side}
      {gap₁ w₁ gap₂ gap₃ w₂ gap₄ : String} {texts₁ texts₂ : List String} :
      IsGap gap₁ → left.Written w₁ texts₁ → IsGap gap₂ → gap₂ ≠ "" →
      IsGap gap₃ → gap₃ ≠ "" → right.Written w₂ texts₂ → IsGap gap₄ →
      Range.Written (.interval ⟨leftClosed, left, right, rightClosed⟩)
        ((if leftClosed then "[" else "\x7b") ++ gap₁ ++ w₁ ++ gap₂ ++ "TO" ++ gap₃ ++ w₂ ++ gap₄ ++
          (if rightClosed then "]" else "\x7d"))
        (texts₁ ++ texts₂)

/-- How a term is written up to its suffix, and the texts that a decoder gets to see. For a group
that is its canonical text, however it is written. -/
inductive Term.Written : Term → String → List String → Prop where
  | regexp {ts : List Token} : Term.Written (.regexp ts) ("/" ++ join ts ++ "/") [join ts]
  | bare {ts : List Token} {suffix : Option Suffix} :
      Term.Written (.literal (.bare ts) suffix) (join ts) [join ts]
  | phrase {ts : List Token} {suffix : Option Suffix} :
      Term.Written (.literal (.phrase ts) suffix) ("\"" ++ join ts ++ "\"") [join ts]
  | range {r : Range} {boost : Option Boost} {w : String} {texts : List String} :
      r.Written w texts → Term.Written (.range r boost) w texts
  | group {g : Group} {boost : Option Boost} {inner : String} :
      Term.Written (.group g boost) ("(" ++ inner ++ ")") [(Term.group g boost).render]

/-- The suffix as written. -/
def Term.suffixText : Term → String
  | regexp _ => ""
  | literal _ suffix => (suffix.map Suffix.render).getD ""
  | range _ boost | group _ boost => Boost.renderOption boost

/-! ### Space -/

theorem Text.IsGap.append {v w : String} (hv : IsGap v) (hw : IsGap w) : IsGap (v ++ w) := by
  intro c hc
  rw [String.toList_append, List.mem_append] at hc
  exact hc.elim (hv c) (hw c)

theorem Spaces.exists_gap (h : Spaces ts rest) (hseg : Segmented ts) :
    ∃ gap, IsGap gap ∧ join ts = gap ++ join rest := by
  induction h with
  | none => exact ⟨"", by simp [IsGap], by simp⟩
  | more ht _ ih =>
      obtain ⟨hlexical, htail, -⟩ := Token.segmented_cons.mp hseg
      obtain ⟨gap, hgap, hjoin⟩ := ih htail
      have hblank : IsGap _ := hlexical.isBlank_of_isSpace ht
      exact ⟨_, hblank.append hgap, by simp [hjoin, String.append_assoc]⟩

theorem SomeSpaces.exists_gap (h : SomeSpaces ts rest) (hseg : Segmented ts) :
    ∃ gap, IsGap gap ∧ gap ≠ "" ∧ join ts = gap ++ join rest := by
  obtain ⟨ht, hspaces⟩ := h
  obtain ⟨hlexical, htail, -⟩ := Token.segmented_cons.mp hseg
  obtain ⟨gap, hgap, hjoin⟩ := hspaces.exists_gap htail
  have hblank : IsGap _ := hlexical.isBlank_of_isSpace ht
  exact ⟨_, hblank.append hgap, by simp [hlexical.1], by simp [hjoin, String.append_assoc]⟩

/-! ### Pieces -/

/-- A token of a kind with one symbol is that symbol. -/
theorem Token.Segmented.text_eq (hseg : Segmented ts) {t : Token} (ht : t ∈ ts) {k : Kind}
    {c : Char} (hk : t.kind = k) (hsymbols : k.symbols = [c]) : t.text = String.ofList [c] :=
  congrArg Token.text (Token.eq_of_lexical hsymbols hk (hseg.lexical t ht))

theorem Fragments.join_eq {kinds : List Kind} {run : List Token} (h : Fragments kinds ts run rest) :
    join ts = join run ++ join rest := by
  obtain ⟨-, -, -⟩ := h
  exact Token.join_append _ _

theorem Delimited.join_eq {delimiter : Kind} {c : Char} {inner : List Token}
    (h : Delimited delimiter ts inner rest) (hc : delimiter.symbols = [c]) (hseg : Segmented ts) :
    join ts = String.ofList [c] ++ join inner ++ String.ofList [c] ++ join rest := by
  obtain ⟨hopening, -, hclosing⟩ := h
  have hfirst := hseg.text_eq List.mem_cons_self hopening hc
  have hlast := hseg.text_eq (by simp) hclosing hc
  simp [hfirst, hlast, ← String.toList_inj]

theorem Literal.Derives.join_eq {l : Literal} (h : Literal.Derives ts l rest)
    (hseg : Segmented ts) : join ts = l.render ++ join rest := by
  cases h with
  | bare hrun => exact hrun.join_eq
  | phrase hinner => exact hinner.join_eq rfl hseg

theorem Boost.Derives.join_eq {b : Boost} (h : Boost.Derives ts b rest) (hseg : Segmented ts) :
    join ts = b.render ++ join rest := by
  cases h with
  | bare hcaret =>
      have hfirst := hseg.text_eq List.mem_cons_self hcaret rfl
      simp [hfirst, Boost.render]
  | whole hcaret =>
      have hfirst := hseg.text_eq List.mem_cons_self hcaret rfl
      simp [hfirst, Boost.render, String.append_assoc]
  | fraction hcaret _ hdot =>
      have hfirst := hseg.text_eq List.mem_cons_self hcaret rfl
      have hpoint := hseg.text_eq (by simp) hdot rfl
      simp [hfirst, hpoint, Boost.render, String.append_assoc]

theorem Suffix.Derives.join_eq {x : Suffix} (h : Suffix.Derives ts x rest) (hseg : Segmented ts) :
    join ts = x.render ++ join rest := by
  cases h with
  | boost hb => exact hb.join_eq hseg
  | fuzzy hf =>
      cases hf with
      | bare htilde =>
          have hfirst := hseg.text_eq List.mem_cons_self htilde rfl
          simp [hfirst, Suffix.render, Fuzzy.render]
      | distance htilde =>
          have hfirst := hseg.text_eq List.mem_cons_self htilde rfl
          simp [hfirst, Suffix.render, Fuzzy.render, String.append_assoc]

theorem Perhaps.join_eq {α : Type} {item : Production α} {text : α → String} {a : Option α}
    (hitem : ∀ {a}, item ts a rest → join ts = text a ++ join rest)
    (h : Perhaps item ts a rest) : join ts = (a.map text).getD "" ++ join rest := by
  cases h with
  | none => simp
  | some ha => exact hitem ha

/-! ### Sides and ranges -/

/-- A text splits into tokens in one way only. -/
theorem Token.WellFormedRun.eq_star {kinds : List Kind} (h : Token.WellFormedRun kinds ts)
    (hjoin : join ts = "*") : ts = [⟨.wildcard, "*"⟩] := by
  have hsplits : Token.SplitsInto "*" ts := hjoin ▸ h.splits
  have hstar : Token.SplitsInto "*" [⟨.wildcard, "*"⟩] := by decide +kernel
  exact Except.ok.inj (hsplits.symm.trans hstar)

theorem Side.Derives.exists_written {x : Side} (h : Side.Derives ts x rest) (hseg : Segmented ts) :
    ∃ w texts, x.Written w texts ∧ join ts = w ++ join rest := by
  cases h with
  | unbounded hl => exact ⟨"*", [], .star, hl.join_eq hseg⟩
  | @literal _ _ l hl hne =>
      have hjoin := hl.join_eq hseg
      have hwell := hl.wellFormed hseg
      cases l with
      | bare run =>
          have hstar : join run ≠ "*" := by
            intro htext
            exact hne (congrArg Literal.bare (Token.WellFormedRun.eq_star hwell htext))
          exact ⟨_, _, .bare hstar, hjoin⟩
      | phrase inner => exact ⟨_, _, .phrase, hjoin⟩

theorem Interval.Derives.exists_written {i : Interval} (h : Interval.Derives ts i rest)
    (hseg : Segmented ts) :
    ∃ w texts, (Range.interval i).Written w texts ∧ join ts = w ++ join rest := by
  obtain ⟨hopening, hspaces₁, hleft, hspaces₂, -, hto, hspaces₃, hright, hspaces₄, hclosing⟩ := h
  rename_i opening between closing ts₁ ts₂ ts₃ ts₄ ts₅ ts₆ left right leftClosed rightClosed
  -- each part of the interval starts where the part in front of it ends
  have hseg₁ := hseg.of_suffix (List.suffix_cons opening ts₁)
  have hseg₂ := hseg₁.of_suffix hspaces₁.suffix
  have hseg₃ := hseg₂.of_suffix hleft.suffix
  have hseg₄ := (hseg₃.of_suffix hspaces₂.spaces.suffix).of_suffix (List.suffix_cons between ts₄)
  have hseg₅ := hseg₄.of_suffix hspaces₃.spaces.suffix
  have hseg₆ := hseg₅.of_suffix hright.suffix
  obtain ⟨gap₁, hgap₁, hjoin₁⟩ := hspaces₁.exists_gap hseg₁
  obtain ⟨w₁, texts₁, hwritten₁, hjoin₂⟩ := hleft.exists_written hseg₂
  obtain ⟨gap₂, hgap₂, hne₂, hjoin₃⟩ := hspaces₂.exists_gap hseg₃
  obtain ⟨gap₃, hgap₃, hne₃, hjoin₄⟩ := hspaces₃.exists_gap hseg₄
  obtain ⟨w₂, texts₂, hwritten₂, hjoin₅⟩ := hright.exists_written hseg₅
  obtain ⟨gap₄, hgap₄, hjoin₆⟩ := hspaces₄.exists_gap hseg₆
  have hfirst : opening.text = if leftClosed then "[" else "\x7b" := by
    cases leftClosed
    · exact hseg.text_eq List.mem_cons_self hopening rfl
    · exact hseg.text_eq List.mem_cons_self hopening rfl
  have hlast : closing.text = if rightClosed then "]" else "\x7d" := by
    have hmem : closing ∈ ts₆ := hspaces₄.suffix.subset List.mem_cons_self
    cases rightClosed
    · exact hseg₆.text_eq hmem hclosing rfl
    · exact hseg₆.text_eq hmem hclosing rfl
  refine ⟨_, _, .interval hgap₁ hwritten₁ hgap₂ hne₂ hgap₃ hne₃ hwritten₂ hgap₄, ?_⟩
  rw [Token.join_cons] at hjoin₃ hjoin₆
  rw [Token.join_cons, hjoin₁, hjoin₂, hjoin₃, hjoin₄, hjoin₅, hjoin₆, hfirst, hto, hlast]
  simp only [String.append_assoc]

theorem Range.Derives.exists_written {r : Range} (h : Range.Derives ts r rest)
    (hseg : Segmented ts) : ∃ w texts, r.Written w texts ∧ join ts = w ++ join rest := by
  cases h with
  | comparison _ htext hvalue =>
      obtain ⟨w, texts, hwritten, hjoin⟩ :=
        hvalue.exists_written (hseg.of_suffix (List.suffix_cons _ _))
      exact ⟨_, _, .comparison hwritten, by simp [htext, hjoin, String.append_assoc]⟩
  | interval hi => exact hi.exists_written hseg

/-! ### Terms -/

theorem Enclosed.exists_inner {α : Type} {item : Production α} {a : α}
    (hitem : ∀ {ts a rest}, item ts a rest → rest <:+ ts) (h : Enclosed item ts a rest)
    (hseg : Segmented ts) : ∃ inner, join ts = "(" ++ inner ++ ")" ++ join rest := by
  obtain ⟨hopening, hspaces, ha, hspaces', hclosing⟩ := h
  rename_i opening closing ts start stop
  obtain ⟨front, hfront⟩ := (hspaces'.suffix.trans (hitem ha)).trans hspaces.suffix
  have hmem : closing ∈ ts := by simp [← hfront]
  have hfirst := hseg.text_eq List.mem_cons_self hopening rfl
  have hlast := hseg.text_eq (List.mem_cons_of_mem opening hmem) hclosing rfl
  refine ⟨join front, ?_⟩
  rw [← hfront]
  simp [hfirst, hlast, ← String.toList_inj]

theorem Term.Derives.exists_written {t : Term} (h : Term.Derives ts t rest)
    (hseg : Segmented ts) :
    ∃ w texts, t.Written w texts ∧ join ts = w ++ t.suffixText ++ join rest := by
  cases h with
  | regexp hinner =>
      exact ⟨_, _, .regexp, by simpa [suffixText] using hinner.join_eq rfl hseg⟩
  | @literal _ mid _ l suffix hl hsuffix =>
      have hmid := hsuffix.join_eq fun hs => hs.join_eq (hseg.of_suffix hl.suffix)
      have hjoin := hl.join_eq hseg
      rw [hmid, ← String.append_assoc] at hjoin
      cases l with
      | bare run => exact ⟨_, _, .bare, hjoin⟩
      | phrase inner => exact ⟨_, _, .phrase, hjoin⟩
  | range hr hboost =>
      have hmid := hboost.join_eq fun hb => hb.join_eq (hseg.of_suffix hr.suffix)
      obtain ⟨w, texts, hwritten, hjoin⟩ := hr.exists_written hseg
      rw [hmid, ← String.append_assoc] at hjoin
      exact ⟨w, texts, .range hwritten, hjoin⟩
  | group hg hboost =>
      have hsuffix : ∀ {ts g rest},
          Formula.Derives (Clause.Derives Element.Derives) ts g rest → rest <:+ ts :=
        fun hformula => hformula.suffix fun hc => hc.suffix Element.Derives.suffix
      have hmid := hboost.join_eq fun hb => hb.join_eq (hseg.of_suffix (hg.suffix hsuffix))
      obtain ⟨inner, hjoin⟩ := hg.exists_inner hsuffix hseg
      rw [hmid, ← String.append_assoc] at hjoin
      exact ⟨_, _, .group, hjoin⟩

/-- Where an accepted term stands in its source. -/
theorem Term.exists_written_of_parse {t : Term} (h : Term.parse s = .ok t) :
    ∃ front w back texts, s = front ++ (w ++ t.suffixText) ++ back ∧ IsGap front ∧ IsGap back ∧
      t.Written w texts := by
  obtain ⟨ts, rfl, hseg, ⟨start, stop, hspaces, hterm, hspaces'⟩, -⟩ :=
    Term.parseWithin_eq_ok_iff_segmented.mp h
  have hstart := hseg.of_suffix hspaces.suffix
  obtain ⟨front, hfront, hjoin⟩ := hspaces.exists_gap hseg
  obtain ⟨w, texts, hwritten, hjoin'⟩ := hterm.exists_written hstart
  obtain ⟨back, hback, hjoin''⟩ := hspaces'.exists_gap (hstart.of_suffix hterm.suffix)
  refine ⟨front, w, back, texts, ?_, hfront, hback, hwritten⟩
  rw [hjoin, hjoin', hjoin'']
  simp [String.append_assoc]

end SearchQuery
