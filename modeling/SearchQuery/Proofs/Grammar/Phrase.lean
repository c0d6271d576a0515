import SearchQuery.Proofs.Grammar.Basic
import SearchQuery.Reader.Range

/-!
Readers and productions of the phrases without clauses in them: literals, ranges and suffixes. All
but the suffixes are read exactly as derived; a suffix is, if what follows the term could not
belong to it.
-/

namespace SearchQuery

open Token (Kind)

/-! ### Literals -/

theorem Literal.reads_bareReader_iff {ts rest : List Token} {l : Literal} :
    Literal.bareReader.Reads ts l rest ↔
      ∃ run, Fragments Literal.bareKinds ts run rest ∧ l = .bare run := by
  simp only [Reader.Reads, bareReader, Token.fragments_iff]
  by_cases hstart : Token.startsWith bareKinds ts = true
  · simp only [hstart, if_true, Except.ok.injEq, Prod.mk.injEq, true_and]
    constructor
    · rintro ⟨rfl, rfl⟩
      exact ⟨_, rfl, rfl⟩
    · rintro ⟨run, hspan, rfl⟩
      rw [hspan]
      exact ⟨rfl, rfl⟩
  · simp [hstart]

theorem Literal.derives_iff {ts rest : List Token} {l : Literal} :
    Literal.Derives ts l rest ↔
      Literal.phraseReader.Reads ts l rest ∨ Literal.bareReader.Reads ts l rest := by
  rw [reads_bareReader_iff, phraseReader, Reader.reads_map_iff]
  simp only [Reader.reads_between_iff]
  constructor
  · intro h
    cases h with
    | bare hrun => exact Or.inr ⟨_, hrun, rfl⟩
    | phrase hinner => exact Or.inl ⟨_, hinner, rfl⟩
  · rintro (⟨inner, hinner, rfl⟩ | ⟨run, hrun, rfl⟩)
    · exact .phrase hinner
    · exact .bare hrun

theorem Delimited.startsWith {delimiter : Kind} {ts inner rest : List Token}
    (h : Delimited delimiter ts inner rest) : Token.startsWith [delimiter] ts = true := by
  obtain ⟨hopening, -, -⟩ := h
  exact Token.startsWith_cons.mpr (by simp [hopening])

theorem Literal.startsWith_of_reads_bareReader {ts rest : List Token} {l : Literal}
    (h : Literal.bareReader.Reads ts l rest) : Token.startsWith Literal.bareKinds ts = true := by
  obtain ⟨run, hrun, -⟩ := reads_bareReader_iff.mp h
  exact hrun.startsWith

theorem Literal.startsWith_of_reads_phraseReader {ts rest : List Token} {l : Literal}
    (h : Literal.phraseReader.Reads ts l rest) : Token.startsWith [.quote] ts = true := by
  obtain ⟨inner, hinner, -⟩ := Reader.reads_map_iff.mp h
  exact (Reader.reads_between_iff.mp hinner).startsWith

theorem Literal.Derives.startsWith {ts rest : List Token} {l : Literal}
    (h : Literal.Derives ts l rest) :
    Token.startsWith (.quote :: Literal.bareKinds) ts = true := by
  cases h with
  | bare hrun => exact Token.startsWith_mono (List.subset_cons_self _ _) hrun.startsWith
  | phrase hinner => exact Token.startsWith_mono (by simp) hinner.startsWith

/-! ### Sides and ranges -/

theorem Token.isLoneStar_iff {ts : List Token} :
    Token.isLoneStar ts = true ↔ ts = [⟨.wildcard, "*"⟩] := by
  match ts with
  | [] => simp [isLoneStar]
  | [t] =>
      obtain ⟨kind, text⟩ := t
      simp [isLoneStar, isStar]
  | t :: u :: ts => simp [isLoneStar]

theorem Side.reads_reader_iff {ts rest : List Token} {s : Side} :
    Side.reader.Reads ts s rest ↔ Side.Derives ts s rest := by
  rw [reader, Choice.reads_read_iff (by decide)]
  simp only [List.mem_cons, List.not_mem_nil, or_false, exists_eq_or_imp, exists_eq_left,
    Reader.reads_map_iff]
  constructor
  · rintro (⟨-, l, hl, rfl⟩ | ⟨-, l, hl, rfl⟩)
    · refine .literal (Literal.derives_iff.mpr (Or.inl hl)) ?_
      rintro rfl
      obtain ⟨inner, -, hinner⟩ := Reader.reads_map_iff.mp hl
      cases hinner
    · have hderives := Literal.derives_iff.mpr (Or.inr hl)
      obtain ⟨run, hrun, rfl⟩ := Literal.reads_bareReader_iff.mp hl
      by_cases hstar : Token.isLoneStar run = true
      · rw [Token.isLoneStar_iff.mp hstar] at hderives
        simpa [ofBare, hstar] using Side.Derives.unbounded hderives
      · have hne : Literal.bare run ≠ .bare [⟨.wildcard, "*"⟩] := by
          simpa [Token.isLoneStar_iff] using hstar
        simpa [ofBare, hstar] using Side.Derives.literal hderives hne
  · intro h
    cases h with
    | unbounded hl =>
        cases hl with
        | bare hrun =>
            exact Or.inr ⟨hrun.startsWith, _, Literal.reads_bareReader_iff.mpr ⟨_, hrun, rfl⟩, rfl⟩
    | literal hl hne =>
        rcases Literal.derives_iff.mp hl with hread | hread
        · exact Or.inl ⟨Literal.startsWith_of_reads_phraseReader hread, _, hread, rfl⟩
        · refine Or.inr ⟨Literal.startsWith_of_reads_bareReader hread, _, hread, ?_⟩
          obtain ⟨run, -, rfl⟩ := Literal.reads_bareReader_iff.mp hread
          have hstar : Token.isLoneStar run ≠ true := by
            simpa [Token.isLoneStar_iff] using hne
          simp [ofBare, hstar]

theorem Side.Derives.skipSpace_eq {ts rest : List Token} {s : Side} (h : Side.Derives ts s rest) :
    Token.skipSpace ts = ts := by
  have hstart : Token.startsWith (.quote :: Literal.bareKinds) ts = true := by
    cases h with
    | unbounded hl => exact hl.startsWith
    | literal hl _ => exact hl.startsWith
  exact Token.skipSpace_eq_of_startsWith hstart (by decide)

theorem Range.reads_comparisonReader_iff {ts rest : List Token} {r : Range} :
    Range.comparisonReader.Reads ts r rest ↔
      ∃ t us op value, ts = t :: us ∧ t.kind = .comparison ∧ t.text = op.symbol ∧
        Side.Derives us value rest ∧ r = .comparison op value := by
  simp only [Reader.Reads, comparisonReader, Comparison.reader, Outcome.andThen_eq_ok_iff,
    Outcome.map_eq_ok_iff, Token.expect_eq_ok_iff, List.mem_singleton]
  constructor
  · rintro ⟨op, us, ⟨t, mid, ⟨rfl, ht⟩, hop⟩, value, hvalue, rfl⟩
    split at hop
    · next op' hsymbol =>
        cases hop
        exact ⟨t, us, op, value, rfl, ht, Comparison.ofSymbol?_eq_some_iff.mp hsymbol,
          Side.reads_reader_iff.mp hvalue, rfl⟩
    · cases hop
  · rintro ⟨t, us, op, value, rfl, ht, htext, hvalue, rfl⟩
    refine ⟨op, us, ⟨t, us, ⟨rfl, ht⟩, ?_⟩, value, Side.reads_reader_iff.mpr hvalue, rfl⟩
    simp [Comparison.ofSymbol?_eq_some_iff.mpr htext]

theorem Interval.requireSpace_eq_ok_iff {ts rest : List Token} {u : Unit} :
    Interval.requireSpace ts = .ok (u, rest) ↔
      Token.startsWithSpace ts = true ∧ rest = Token.skipSpace ts := by
  unfold requireSpace
  by_cases hstart : Token.startsWithSpace ts = true
  · simp [hstart, eq_comm]
  · simp [hstart]

theorem Interval.separator_eq_ok_iff {ts rest : List Token} {u : Unit} :
    Interval.separator ts = .ok (u, rest) ↔
      Token.startsWithSpace ts = true ∧ ∃ between us, Token.skipSpace ts = between :: us ∧
        between.kind = .word ∧ between.text = "TO" ∧ Token.startsWithSpace us = true ∧
        rest = Token.skipSpace us := by
  simp only [separator, Outcome.andThen_eq_ok_iff, requireSpace_eq_ok_iff]
  constructor
  · rintro ⟨_, mid, ⟨hstart, rfl⟩, h⟩
    refine ⟨hstart, ?_⟩
    split at h
    · cases h
    · next between us hskip =>
        split at h
        · next hto =>
            obtain ⟨hspace, rfl⟩ := requireSpace_eq_ok_iff.mp h
            have hword : between.kind = .word ∧ between.text = "TO" := by
              simpa [Token.isWord] using hto
            exact ⟨between, us, hskip, hword.1, hword.2, hspace, rfl⟩
        · cases h
  · rintro ⟨hstart, between, us, hskip, hkind, htext, hspace, rfl⟩
    refine ⟨(), _, ⟨hstart, rfl⟩, ?_⟩
    simp [hskip, Token.isWord, hkind, htext, requireSpace_eq_ok_iff, hspace]

theorem Interval.reads_reader_iff {ts rest : List Token} {i : Interval} :
    Interval.reader.Reads ts i rest ↔ Interval.Derives ts i rest := by
  simp only [Reader.Reads, reader, Outcome.andThen_eq_ok_iff, Outcome.map_eq_ok_iff,
    Token.expect_eq_ok_iff, separator_eq_ok_iff]
  constructor
  · rintro ⟨opening, ts₁, ⟨rfl, hopening⟩, left, ts₃, hleft, _, ts₅,
      ⟨hspace₁, between, ts₄, hskip, hto, htext, hspace₂, rfl⟩, right, ts₆, hright, closing,
      ⟨hclose, hclosing⟩, rfl⟩
    refine .mk ?_ (spaces_skipSpace ts₁) (Side.reads_reader_iff.mp hleft)
      (hskip ▸ someSpaces_skipSpace hspace₁) hto htext (someSpaces_skipSpace hspace₂)
      (Side.reads_reader_iff.mp hright) (hclose ▸ spaces_skipSpace ts₆) ?_
    · simp only [List.mem_cons, List.not_mem_nil, or_false] at hopening
      rcases hopening with hkind | hkind <;> simp [hkind]
    · simp only [List.mem_cons, List.not_mem_nil, or_false] at hclosing
      rcases hclosing with hkind | hkind <;> simp [hkind]
  · intro h
    cases h with
    | @mk opening between closing ts₁ ts₂ ts₃ ts₄ ts₅ ts₆ _ left right leftClosed rightClosed
        hopening
        hspaces₁ hleft hsome₁ hto htext hsome₂ hright hspaces₂ hclosing =>
        have hskip₁ : Token.skipSpace ts₁ = ts₂ := hspaces₁.skipSpace_eq.trans hleft.skipSpace_eq
        have hskip₂ : Token.skipSpace ts₃ = between :: ts₄ := by
          apply hsome₁.spaces.skipSpace_eq_cons
          simp [Token.isSpace, Kind.isSpace, hto]
        have hskip₃ : Token.skipSpace ts₄ = ts₅ :=
          hsome₂.spaces.skipSpace_eq.trans hright.skipSpace_eq
        have hskip₄ : Token.skipSpace ts₆ = closing :: rest := by
          apply hspaces₂.skipSpace_eq_cons
          cases rightClosed <;> simp [Token.isSpace, Kind.isSpace, hclosing]
        refine ⟨opening, ts₁, ⟨rfl, ?_⟩, left, ts₃, ?_, (), ts₅, ?_, right, ts₆,
          Side.reads_reader_iff.mpr hright, closing, ⟨hskip₄, ?_⟩, ?_⟩
        · cases leftClosed <;> simp [hopening]
        · rw [hskip₁]
          exact Side.reads_reader_iff.mpr hleft
        · exact ⟨hsome₁.startsWithSpace, between, ts₄, hskip₂, hto, htext, hsome₂.startsWithSpace,
            hskip₃.symm⟩
        · cases rightClosed <;> simp [hclosing]
        · cases leftClosed <;> cases rightClosed <;> simp [hopening, hclosing]

theorem Interval.Derives.startsWith {ts rest : List Token} {i : Interval}
    (h : Interval.Derives ts i rest) : Token.startsWith [.leftBracket, .leftBrace] ts = true := by
  cases h with
  | @mk opening _ _ _ _ _ _ _ _ _ _ _ leftClosed _ hopening =>
      apply Token.startsWith_cons.mpr
      cases leftClosed <;> simp [hopening]

theorem Range.exists_mem_choices_iff {ts rest : List Token} {r : Range} :
    (∃ c ∈ Range.choices, Token.startsWith c.starts ts = true ∧ c.reader.Reads ts r rest) ↔
      Range.Derives ts r rest := by
  simp only [choices, List.mem_cons, List.not_mem_nil, or_false, exists_eq_or_imp, exists_eq_left,
    reads_comparisonReader_iff, Reader.reads_map_iff, Interval.reads_reader_iff]
  constructor
  · rintro (⟨-, t, us, op, value, rfl, ht, htext, hvalue, rfl⟩ | ⟨-, i, hi, rfl⟩)
    · exact .comparison ht htext hvalue
    · exact .interval hi
  · intro h
    cases h with
    | comparison ht htext hvalue =>
        exact Or.inl ⟨Token.startsWith_cons.mpr (by simp [ht]), _, _, _, _, rfl, ht, htext, hvalue,
          rfl⟩
    | interval hi => exact Or.inr ⟨hi.startsWith, _, hi, rfl⟩

theorem Range.Derives.startsWith {ts rest : List Token} {r : Range} (h : Range.Derives ts r rest) :
    Token.startsWith [.comparison, .leftBracket, .leftBrace] ts = true := by
  cases h with
  | comparison ht => exact Token.startsWith_cons.mpr (by simp [ht])
  | interval hi => exact Token.startsWith_mono (List.subset_cons_self _ _) hi.startsWith

/-! ### Suffixes -/

/-- What may follow a term: nothing, space, a closing parenthesis, or a keyword. -/
def Follows (ts : List Token) : Prop :=
  ∀ t ∈ ts.head?, t.kind ∈ [.blank, .lineEnd, .rightParen, .ampersand, .bar, .bang, .word]

theorem Follows.ne {ts : List Token} (h : Follows ts) {k : Kind}
    (hk : k ∉ [Kind.blank, .lineEnd, .rightParen, .ampersand, .bar, .bang, .word]) :
    ∀ t ∈ ts.head?, t.kind ≠ k := by
  rintro t ht rfl
  exact hk (h t ht)

theorem Boost.derives_take (ts : List Token) :
    Perhaps Boost.Derives ts (Boost.take ts).1 (Boost.take ts).2 := by
  fun_cases Boost.take ts with
  | case1 text rest =>
      fun_cases Boost.takeMagnitude rest with
      | case1 whole dot fraction rest => exact .some (.fraction rfl rfl rfl rfl)
      | case2 whole rest => exact .some (.whole rfl rfl)
      | case3 => exact .some (.bare rfl)
  | case2 => exact .none

theorem Boost.takeMagnitude_eq_none {ts : List Token} (h : ∀ t ∈ ts.head?, t.kind ≠ .number) :
    Boost.takeMagnitude ts = (none, ts) := by
  fun_cases Boost.takeMagnitude ts with
  | case1 whole dot fraction rest => exact absurd rfl (h _ rfl)
  | case2 whole rest => exact absurd rfl (h _ rfl)
  | case3 => rfl

theorem Boost.takeMagnitude_eq_whole {n : Token} {ts : List Token} (hn : n.kind = .number)
    (h : ∀ t ∈ ts.head?, t.kind ≠ .dot) : Boost.takeMagnitude (n :: ts) = (some n.text, ts) := by
  obtain ⟨kind, text⟩ := n
  obtain rfl : kind = .number := hn
  match ts with
  | [] => rfl
  | ⟨kind, dot⟩ :: ts =>
      have hdot : kind ≠ .dot := h _ rfl
      cases kind <;> first | rfl | exact absurd rfl hdot

theorem Boost.take_eq_of_derives {ts rest : List Token} {boost : Option Boost}
    (h : Perhaps Boost.Derives ts boost rest) (hfollows : Follows rest) :
    Boost.take ts = (boost, rest) := by
  cases h with
  | none =>
      have hcaret := hfollows.ne (show Kind.caret ∉ _ by decide)
      fun_cases Boost.take ts with
      | case1 text rest => exact absurd rfl (hcaret _ rfl)
      | case2 => rfl
  | some h =>
      have hnumber := hfollows.ne (show Kind.number ∉ _ by decide)
      have hdot := hfollows.ne (show Kind.dot ∉ _ by decide)
      cases h with
      | @bare caret _ hcaret =>
          obtain ⟨kind, text⟩ := caret
          obtain rfl : kind = .caret := hcaret
          simp [Boost.take, takeMagnitude_eq_none hnumber]
      | @whole caret n _ hcaret hn =>
          obtain ⟨kind, text⟩ := caret
          obtain rfl : kind = .caret := hcaret
          simp [Boost.take, takeMagnitude_eq_whole hn hdot]
      | @fraction caret n dot m _ hcaret hn hd hm =>
          obtain ⟨kind, text⟩ := caret
          obtain ⟨nkind, n⟩ := n
          obtain ⟨dkind, dot⟩ := dot
          obtain ⟨mkind, m⟩ := m
          obtain rfl : kind = .caret := hcaret
          obtain rfl : nkind = .number := hn
          obtain rfl : dkind = .dot := hd
          obtain rfl : mkind = .number := hm
          rfl

theorem Suffix.derives_take (ts : List Token) :
    Perhaps Suffix.Derives ts (Suffix.take ts).1 (Suffix.take ts).2 := by
  fun_cases Suffix.take ts with
  | case1 text rest =>
      fun_cases Fuzzy.takeDistance rest with
      | case1 digits rest => exact .some (.fuzzy (.distance rfl rfl))
      | case2 => exact .some (.fuzzy (.bare rfl))
  | case2 =>
      have h := Boost.derives_take ts
      generalize Boost.take ts = taken at h ⊢
      obtain ⟨boost, rest⟩ := taken
      cases h with
      | none => exact .none
      | some hb => exact .some (.boost hb)

theorem Suffix.take_eq_of_derives {ts rest : List Token} {suffix : Option Suffix}
    (h : Perhaps Suffix.Derives ts suffix rest) (hfollows : Follows rest) :
    Suffix.take ts = (suffix, rest) := by
  have hboost : ∀ b, Perhaps Boost.Derives ts b rest → (∀ t ∈ ts.head?, t.kind ≠ .tilde) →
      Suffix.take ts = (b.map .boost, rest) := by
    intro b hb htilde
    fun_cases Suffix.take ts with
    | case1 text rest => exact absurd rfl (htilde _ rfl)
    | case2 => rw [Boost.take_eq_of_derives hb hfollows]; rfl
  cases h with
  | none => exact hboost none .none (hfollows.ne (by decide))
  | some h =>
      cases h with
      | @boost _ _ b hb =>
          refine hboost (some b) (.some hb) ?_
          cases hb <;> simp_all
      | fuzzy hf =>
          have hnumber := hfollows.ne (show Kind.number ∉ _ by decide)
          cases hf with
          | @bare tilde _ htilde =>
              obtain ⟨kind, text⟩ := tilde
              obtain rfl : kind = .tilde := htilde
              have hnone : Fuzzy.takeDistance rest = (none, rest) := by
                fun_cases Fuzzy.takeDistance rest with
                | case1 digits rest => exact absurd rfl (hnumber _ rfl)
                | case2 => rfl
              simp [Suffix.take, hnone]
          | @distance tilde n _ htilde hn =>
              obtain ⟨kind, text⟩ := tilde
              obtain ⟨nkind, n⟩ := n
              obtain rfl : kind = .tilde := htilde
              obtain rfl : nkind = .number := hn
              rfl

end SearchQuery
