import SearchQuery.Proofs.Fault
import SearchQuery.Proofs.Token.Stray

/-!
Faults of readers. Wherever a reader stops with a fault, the phrase that it reads breaks off there.
-/

namespace SearchQuery

open Token (Kind)

variable {α β γ C : Type}

/-- The faults that a reader ends with. -/
def Reader.Fails (r : Reader α) : Breach :=
  fun ts fault => r.run ts = .error fault

/-! ### Combinators -/

theorem Outcome.map_eq_error_iff {f : α → β} {o : Outcome α} {fault : Fault} :
    o.map f = .error fault ↔ o = .error fault := by
  cases o <;> simp [Outcome.map]

theorem Outcome.andThen_eq_error_iff {o : Outcome α} {next : α → List Token → Outcome β}
    {fault : Fault} :
    o.andThen next = .error fault ↔
      o = .error fault ∨ ∃ a mid, o = .ok (a, mid) ∧ next a mid = .error fault := by
  cases o with
  | error e => simp [Outcome.andThen]
  | ok found =>
      obtain ⟨a, mid⟩ := found
      simp only [Outcome.andThen, reduceCtorEq, false_or, Except.ok.injEq, Prod.mk.injEq]
      constructor
      · intro h
        exact ⟨a, mid, ⟨rfl, rfl⟩, h⟩
      · rintro ⟨_, _, ⟨rfl, rfl⟩, h⟩
        exact h

/-- What cannot fail itself fails only with what is before it. -/
theorem Outcome.eq_error_of_andThen_ok {o : Outcome α} {next : α → List Token → β × List Token}
    {fault : Fault} (h : (o.andThen fun a ts => .ok (next a ts)) = .error fault) :
    o = .error fault := by
  rcases Outcome.andThen_eq_error_iff.mp h with hfirst | ⟨a, mid, -, hnext⟩
  · exact hfirst
  · cases hnext

theorem Reader.fails_map_iff {r : Reader α} {f : α → β} {ts : List Token} {fault : Fault} :
    (r.map f).Fails ts fault ↔ r.Fails ts fault :=
  Outcome.map_eq_error_iff

theorem Token.expect_eq_error_iff {kinds : List Kind} {ts : List Token} {fault : Fault} :
    Token.expect kinds ts = .error fault ↔
      Token.startsWith kinds ts = false ∧ fault = .unexpected ts kinds := by
  cases ts with
  | nil => simp [expect, startsWith, eq_comm]
  | cons t ts => by_cases ht : t.kind ∈ kinds <;> simp [expect, startsWith, ht, eq_comm]

/-- A repetition fails where one of its rounds does. -/
theorem Reader.exists_of_many_eq_error {ahead : Lookahead γ} {item : γ → Reader α}
    {ts : List Token} {fault : Fault} (h : Reader.many ahead item ts = .error fault) :
    ∃ items mid g start, Many (Reader.Round ahead item) ts items mid ∧
      ahead.find? mid = some (g, start) ∧ (item g).Fails start fault := by
  fun_induction Reader.many ahead item ts with
  | case1 => cases h
  | case2 ts g start hahead e hread =>
      cases h
      exact ⟨[], ts, g, start, .nil, hahead, hread⟩
  | case3 ts g start hahead a rest hread _ ih =>
      obtain ⟨items, mid, g', start', hmany, hahead', hfails⟩ := ih (Outcome.map_eq_error_iff.mp h)
      exact ⟨a :: items, mid, g', start', .cons ⟨g, start, hahead, hread⟩ hmany, hahead', hfails⟩

theorem Reader.fails_withMany {first : Reader α} {ahead : Lookahead γ} {item : γ → Reader β}
    {ts : List Token} {fault : Fault} (h : (first.withMany ahead item).Fails ts fault) :
    first.Fails ts fault ∨ ∃ a mid items mid' g start, first.Reads ts a mid ∧
      Many (Reader.Round ahead item) mid items mid' ∧ ahead.find? mid' = some (g, start) ∧
      (item g).Fails start fault := by
  rcases Outcome.andThen_eq_error_iff.mp h with hfirst | ⟨a, mid, hfirst, hmany⟩
  · exact Or.inl hfirst
  · obtain ⟨items, mid', g, start, hitems, hahead, hfails⟩ :=
      Reader.exists_of_many_eq_error (Outcome.map_eq_error_iff.mp hmany)
    exact Or.inr ⟨a, mid, items, mid', g, start, hfirst, hitems, hahead, hfails⟩

/-- A list of choices fails in the one that is called for, or because none is. -/
theorem Choice.fails_read {choices : List (Choice α)} {ts : List Token} {fault : Fault}
    (h : (Choice.read choices).Fails ts fault) :
    (∃ c ∈ choices, Token.startsWith c.starts ts = true ∧ c.reader.Fails ts fault) ∨
      Token.startsWith (choices.flatMap Choice.starts) ts = false ∧
        fault = .unexpected ts (choices.flatMap Choice.starts) := by
  simp only [Reader.Fails, read] at h
  split at h
  · next c hfind =>
      exact Or.inl ⟨c, List.mem_of_find?_eq_some hfind, by simpa using List.find?_some hfind, h⟩
  · next hfind =>
      cases h
      refine Or.inr ⟨?_, rfl⟩
      cases ts with
      | nil => rfl
      | cons t ts =>
          simp only [List.find?_eq_none, Token.startsWith_cons] at hfind
          simpa [Token.startsWith] using hfind

/-! ### Formulas -/

section Formula

variable {clause : Reader C} {p : Production C} {ts start rest : List Token} {fault : Fault}

theorem Operand.exists_opens_of_fails (h : (Operand.reader clause).Fails ts fault) :
    ∃ us, Operand.Opens ts us ∧ clause.Fails us fault := by
  simp only [Reader.Fails, reader] at h
  split at h
  · next mid hstrip =>
      exact ⟨_, .negated (Keyword.strip?_eq_some_iff.mp hstrip) (spaces_skipSpace mid),
        Outcome.map_eq_error_iff.mp h⟩
  · next hstrip =>
      refine ⟨ts, .plain ?_, Outcome.map_eq_error_iff.mp h⟩
      intro mid hstands
      rw [Keyword.strip?_eq_some_iff.mpr hstands] at hstrip
      cases hstrip

theorem Link.joins_of_ahead? {explicit : Bool} (h : Link.ahead? ts = some (explicit, start)) :
    Operand.Joins ts start := by
  rcases Link.ahead?_eq_some_iff.mp h with ⟨-, after, hand, rfl⟩ | ⟨-, hspace, rfl, after, hnot⟩
  · exact .keyword (by decide) (spaces_skipSpace ts) hand (spaces_skipSpace after)
  · exact .juxtaposed (someSpaces_skipSpace hspace) hnot

theorem Branch.joins_of_ahead? {u : Unit} (h : Branch.ahead? ts = some (u, start)) :
    Operand.Joins ts start := by
  obtain ⟨after, hor, rfl⟩ := Branch.ahead?_eq_some_iff.mp h
  exact .keyword (by decide) (spaces_skipSpace ts) hor (spaces_skipSpace after)

theorem Link.Derives.joins {l : Link C} (h : Link.Derives p ts l rest) :
    ∃ us, Operand.Joins ts us ∧ Operand.Derives p us l.operand rest := by
  cases h with
  | explicit hspaces hand hspaces' ho => exact ⟨_, .keyword (by decide) hspaces hand hspaces', ho⟩
  | juxtaposed hspaces hnot ho => exact ⟨_, .juxtaposed hspaces hnot, ho⟩

/-- The last of the operands that a formula passes ends where the formula does. -/
theorem Link.many_reaches {ls : List (Link C)} {o : Operand C} {mid : List Token}
    (hreaches : Formula.Reaches p ts start) (ho : Operand.Derives p start o mid)
    (h : Many (Link.Derives p) mid ls rest) :
    ∃ us u, Formula.Reaches p ts us ∧ Operand.Derives p us u rest := by
  induction h generalizing start o with
  | nil => exact ⟨start, o, hreaches, ho⟩
  | cons hl _ ih =>
      obtain ⟨us, hjoins, hoperand⟩ := hl.joins
      exact ih (hreaches.next ho hjoins) hoperand

theorem Branch.Derives.reaches {b : Branch C} (hreaches : Formula.Reaches p ts start)
    (h : Branch.Derives p start b rest) :
    ∃ us u, Formula.Reaches p ts us ∧ Operand.Derives p us u rest := by
  obtain ⟨ho, hls⟩ := h
  exact Link.many_reaches hreaches ho hls

theorem Branch.many_reaches {bs : List (Branch C)} {o : Operand C} {mid : List Token}
    (hreaches : Formula.Reaches p ts start) (ho : Operand.Derives p start o mid)
    (h : Many (Branch.DerivesNext p) mid bs rest) :
    ∃ us u, Formula.Reaches p ts us ∧ Operand.Derives p us u rest := by
  induction h generalizing start o with
  | nil => exact ⟨start, o, hreaches, ho⟩
  | cons hnext _ ih =>
      obtain ⟨hspaces, hor, hspaces', hb⟩ := hnext
      have hjoins := Operand.Joins.keyword (by decide) hspaces hor hspaces'
      obtain ⟨us, u, hus, hoperand⟩ := hb.reaches (hreaches.next ho hjoins)
      exact ih hus hoperand

theorem Formula.Derives.reaches {e : Formula C} (h : Formula.Derives p ts e rest) :
    ∃ us u, Formula.Reaches p ts us ∧ Operand.Derives p us u rest := by
  obtain ⟨hb, hbs⟩ := h
  obtain ⟨us, u, hus, ho⟩ := hb.reaches .first
  exact Branch.many_reaches hus ho hbs

theorem Branch.exists_reaches_of_fails (hreaches : Formula.Reaches clause.Reads ts start)
    (h : (Branch.reader clause).Fails start fault) :
    ∃ operand us, Formula.Reaches clause.Reads ts operand ∧ Operand.Opens operand us ∧
      clause.Fails us fault := by
  rcases Reader.fails_withMany (Reader.fails_map_iff.mp h) with
    hfirst | ⟨o, mid, ls, mid', explicit, next, hfirst, hls, hahead, hfails⟩
  · obtain ⟨us, hopens, hclause⟩ := Operand.exists_opens_of_fails hfirst
    exact ⟨start, us, hreaches, hopens, hclause⟩
  · have hlinks := hls.imp fun _ _ _ _ => Link.derives_of_round
    obtain ⟨last, u, hlast, hoperand⟩ :=
      Link.many_reaches hreaches (Operand.derives_of_reads hfirst) hlinks
    obtain ⟨us, hopens, hclause⟩ :=
      Operand.exists_opens_of_fails (Reader.fails_map_iff.mp hfails)
    exact ⟨next, us, hlast.next hoperand (Link.joins_of_ahead? hahead), hopens, hclause⟩

/-- A formula fails where one of its clauses does. -/
theorem Formula.exists_reaches_of_fails (h : (Formula.reader clause).Fails ts fault) :
    ∃ operand us, Formula.Reaches clause.Reads ts operand ∧ Operand.Opens operand us ∧
      clause.Fails us fault := by
  rcases Reader.fails_withMany (Reader.fails_map_iff.mp h) with
    hfirst | ⟨b, mid, bs, mid', _, next, hfirst, hbs, hahead, hfails⟩
  · exact Branch.exists_reaches_of_fails .first hfirst
  · have hbranches := hbs.imp fun _ _ _ _ => Branch.derivesNext_of_round
    have hformula := Formula.Derives.mk (Branch.derives_of_reads hfirst) hbranches
    obtain ⟨last, u, hlast, hoperand⟩ := hformula.reaches
    have hnext := hlast.next hoperand (Branch.joins_of_ahead? hahead)
    exact Branch.exists_reaches_of_fails hnext hfails

theorem Formula.Reaches.imp {q : Production C} (hpq : ∀ {ts c rest}, p ts c rest → q ts c rest)
    (h : Formula.Reaches p ts start) : Formula.Reaches q ts start := by
  induction h with
  | first => exact .first
  | next _ ho hjoins ih => exact ih.next (ho.imp fun _ => hpq) hjoins

end Formula

/-! ### Nested clauses -/

section Clause

variable {leaf : Nat → List (Choice α)} {p : Production α} {depth : α → Nat} {starts : List Kind}
  {leafBreaks : Nat → Breach} (hstarts : ∀ room, (leaf room).flatMap Choice.starts = starts)
  (hleaf : ∀ {room c ts fault}, c ∈ leaf room → Token.startsWith c.starts ts = true →
    c.reader.Fails ts fault → leafBreaks room ts fault)

include hstarts hleaf

theorem Clause.breaks_of_fails {room : Nat} {nested : Reader (Formula (Clause α))}
    (hnested : ∀ {ts fault}, Token.startsWith [.leftParen] ts = true → nested.Fails ts fault →
      Clause.Breaks p depth starts leafBreaks room ts fault) {ts : List Token} {fault : Fault}
    (h : (Clause.reader (leaf room) nested).Fails ts fault) :
    Clause.Breaks p depth starts leafBreaks room ts fault := by
  rcases Choice.fails_read h with ⟨c, hc, hstart, hread⟩ | ⟨hstart, rfl⟩
  · rcases List.mem_cons.mp hc with rfl | hc
    · exact hnested hstart (Reader.fails_map_iff.mp hread)
    · obtain ⟨d, hd, rfl⟩ := List.mem_map.mp hc
      exact .leaf (hleaf hd hstart (Reader.fails_map_iff.mp hread))
  · have hkinds : (⟨[.leftParen], nested.map .paren⟩ ::
        (leaf room).map (Choice.map Clause.leaf)).flatMap Choice.starts = .leftParen :: starts := by
      rw [List.flatMap_cons, List.flatMap_map, ← hstarts room]
      rfl
    rw [hkinds] at hstart ⊢
    exact .start hstart

/-- The readers of all levels fail where their clauses break off. -/
theorem Choice.Exact.breaks_of_fails (hexact : Choice.Exact leaf p depth) {room : Nat}
    {ts : List Token} {fault : Fault} (hstart : Token.startsWith [.leftParen] ts = true)
    (h : (Clause.nestedReader leaf room).Fails ts fault) :
    Clause.Breaks p depth starts leafBreaks room ts fault := by
  induction room generalizing ts fault with
  | zero =>
      cases h
      exact .tooDeep hstart
  | succ room ih =>
      have hreads : ∀ {ts c rest},
          (Clause.reader (leaf room) (Clause.nestedReader leaf room)).Reads ts c rest →
            Clause.Within p depth room ts c rest :=
        fun hc => hexact.derives_of_reads_reader hexact.reads_nestedReader_iff hc
      rcases Outcome.andThen_eq_error_iff.mp h with hopen | ⟨opening, us, hopen, hbehind⟩
      · obtain ⟨hclosed, -⟩ := Token.expect_eq_error_iff.mp hopen
        rw [hstart] at hclosed
        cases hclosed
      · obtain ⟨rfl, hopening⟩ := Token.expect_eq_ok_iff.mp hopen
        rw [List.mem_singleton] at hopening
        rcases Outcome.andThen_eq_error_iff.mp hbehind with hinner | ⟨e, stop, hinner, hclose⟩
        · obtain ⟨operand, clause, hreaches, hopens, hfault⟩ :=
            Formula.exists_reaches_of_fails hinner
          exact .inside hopening (spaces_skipSpace us) (hreaches.imp hreads) hopens
            (Clause.breaks_of_fails hstarts hleaf ih hfault)
        · obtain ⟨hclosing, rfl⟩ :=
            Token.expect_eq_error_iff.mp (Outcome.map_eq_error_iff.mp hclose)
          have hformula := (Formula.derives_of_reads hinner).imp fun _ _ _ _ => hreads
          exact .unclosed hopening (spaces_skipSpace us) hformula (spaces_skipSpace stop) hclosing

end Clause

/-! ### Terms -/

theorem Delimited.breaks_of_fails {delimiter : Kind} {ts : List Token} {fault : Fault}
    (hstart : Token.startsWith [delimiter] ts = true)
    (h : (Reader.between delimiter).Fails ts fault) : Delimited.Breaks delimiter ts fault := by
  rcases Outcome.andThen_eq_error_iff.mp h with hopen | ⟨opening, inner, hopen, hclose⟩
  · obtain ⟨hclosed, -⟩ := Token.expect_eq_error_iff.mp hopen
    rw [hstart] at hclosed
    cases hclosed
  · obtain ⟨rfl, hopening⟩ := Token.expect_eq_ok_iff.mp hopen
    unfold Token.takeUntil at hclose
    split at hclose
    · next hdrop =>
        cases hclose
        refine .mk (List.mem_singleton.mp hopening) ?_
        simpa [List.dropWhile_eq_nil_iff] using hdrop
    · cases hclose

theorem Literal.not_fails_bareReader {ts : List Token} {fault : Fault}
    (hstart : Token.startsWith Literal.bareKinds ts = true) :
    ¬ Literal.bareReader.Fails ts fault := by
  simp [Reader.Fails, bareReader, hstart]

theorem Side.breaks_of_fails {ts : List Token} {fault : Fault} (h : Side.reader.Fails ts fault) :
    Side.Breaks ts fault := by
  rcases Choice.fails_read h with ⟨c, hc, hstart, hread⟩ | ⟨hstart, rfl⟩
  · simp only [List.mem_cons, List.not_mem_nil, or_false] at hc
    rcases hc with rfl | rfl
    · have hbetween := Reader.fails_map_iff.mp (Reader.fails_map_iff.mp hread)
      exact .phrase (Delimited.breaks_of_fails hstart hbetween)
    · exact absurd (Reader.fails_map_iff.mp hread) (Literal.not_fails_bareReader hstart)
  · exact .start hstart

namespace Interval

theorem requireSpace_eq_error_iff {ts : List Token} {fault : Fault} :
    requireSpace ts = .error fault ↔
      Token.startsWithSpace ts = false ∧ fault = .unexpected ts [.blank] := by
  unfold requireSpace
  cases Token.startsWithSpace ts <;> simp [eq_comm]

theorem toBreaks_of_separator {ts : List Token} {fault : Fault} (h : separator ts = .error fault) :
    Token.startsWithSpace ts = false ∧ fault = .unexpected ts [.blank] ∨
      SomeSpaces ts (Token.skipSpace ts) ∧ ToBreaks (Token.skipSpace ts) fault := by
  rcases Outcome.andThen_eq_error_iff.mp h with hspace | ⟨_, mid, hspace, h⟩
  · exact Or.inl (requireSpace_eq_error_iff.mp hspace)
  · obtain ⟨hstart, rfl⟩ := requireSpace_eq_ok_iff.mp hspace
    refine Or.inr ⟨someSpaces_skipSpace hstart, ?_⟩
    split at h
    · next hskip =>
        cases h
        rw [hskip]
        exact .word (by simp)
    · next t rest hskip =>
        rw [hskip]
        split at h
        · next hto =>
            obtain ⟨hspace', rfl⟩ := requireSpace_eq_error_iff.mp h
            have hword : t.kind = .word ∧ t.text = "TO" := by simpa [Token.isWord] using hto
            exact .space hword.1 hword.2 hspace'
        · next hto =>
            cases h
            rw [← hskip]
            exact .word (by simpa [hskip] using hto)

theorem breaks_of_fails {ts : List Token} {fault : Fault}
    (hstart : Token.startsWith [.leftBracket, .leftBrace] ts = true)
    (h : Interval.reader.Fails ts fault) : Interval.Breaks ts fault := by
  rcases Outcome.andThen_eq_error_iff.mp h with hopen | ⟨opening, ts₁, hopen, hsides⟩
  · obtain ⟨hclosed, -⟩ := Token.expect_eq_error_iff.mp hopen
    rw [hstart] at hclosed
    cases hclosed
  · obtain ⟨rfl, hopening⟩ := Token.expect_eq_ok_iff.mp hopen
    refine .mk hopening (spaces_skipSpace ts₁) ?_
    rcases Outcome.andThen_eq_error_iff.mp hsides with hleft | ⟨left, ts₂, hleft, hto⟩
    · exact .side (Side.breaks_of_fails hleft)
    · have hleft := Side.reads_reader_iff.mp hleft
      rcases Outcome.andThen_eq_error_iff.mp hto with hseparator | ⟨_, ts₃, hseparator, hside⟩
      · rcases toBreaks_of_separator hseparator with ⟨hspace, rfl⟩ | ⟨hspaces, hbreaks⟩
        · exact .space hleft hspace
        · exact .next hleft hspaces hbreaks
      · obtain ⟨hspace, between, us, hskip, hkind, htext, hspace', rfl⟩ :=
          separator_eq_ok_iff.mp hseparator
        refine .next hleft (someSpaces_skipSpace hspace) ?_
        rw [hskip]
        refine .right hkind htext (someSpaces_skipSpace hspace') ?_
        rcases Outcome.andThen_eq_error_iff.mp hside with hright | ⟨right, ts₄, hright, hclose⟩
        · exact .side (Side.breaks_of_fails hright)
        · obtain ⟨hclosing, rfl⟩ :=
            Token.expect_eq_error_iff.mp (Outcome.map_eq_error_iff.mp hclose)
          exact .closing (Side.reads_reader_iff.mp hright) (spaces_skipSpace ts₄) hclosing

end Interval

theorem Range.breaks_of_fails {c : Choice Range} {ts : List Token} {fault : Fault}
    (hc : c ∈ Range.choices) (hstart : Token.startsWith c.starts ts = true)
    (h : c.reader.Fails ts fault) : Range.Breaks ts fault := by
  simp only [choices, List.mem_cons, List.not_mem_nil, or_false] at hc
  rcases hc with rfl | rfl
  · rcases Outcome.andThen_eq_error_iff.mp h with hop | ⟨op, us, hop, hside⟩
    · rcases Outcome.andThen_eq_error_iff.mp hop with hexpect | ⟨t, us, hexpect, hop⟩
      · obtain ⟨hclosed, -⟩ := Token.expect_eq_error_iff.mp hexpect
        rw [hstart] at hclosed
        cases hclosed
      · obtain ⟨rfl, ht⟩ := Token.expect_eq_ok_iff.mp hexpect
        split at hop
        · cases hop
        · next hsymbol =>
            cases hop
            exact .unknown (List.mem_singleton.mp ht) hsymbol
    · obtain ⟨t, us', hexpect, hop⟩ := Outcome.andThen_eq_ok_iff.mp hop
      obtain ⟨rfl, ht⟩ := Token.expect_eq_ok_iff.mp hexpect
      split at hop
      · next op' hsymbol =>
          cases hop
          exact .comparison (List.mem_singleton.mp ht) (Comparison.ofSymbol?_eq_some_iff.mp hsymbol)
            (Side.breaks_of_fails (Outcome.map_eq_error_iff.mp hside))
      · cases hop
  · exact .interval (Interval.breaks_of_fails hstart (Reader.fails_map_iff.mp h))

theorem Element.breaks_of_fails {c : Choice Element} {ts : List Token} {fault : Fault}
    (hc : c ∈ Element.choices) (hstart : Token.startsWith c.starts ts = true)
    (h : c.reader.Fails ts fault) : Element.Breaks ts fault := by
  simp only [choices, List.cons_append, List.mem_cons, List.mem_append, List.mem_map,
    List.not_mem_nil, or_false] at hc
  rcases hc with rfl | ⟨d, hd, rfl⟩ | rfl
  · have hbetween := Reader.fails_map_iff.mp (Reader.fails_map_iff.mp h)
    exact .phrase (Delimited.breaks_of_fails hstart hbetween)
  · exact .range (Range.breaks_of_fails hd hstart (Reader.fails_map_iff.mp h))
  · exact absurd (Reader.fails_map_iff.mp h) (Literal.not_fails_bareReader hstart)

theorem Group.breaks_of_fails {room : Nat} {ts : List Token} {fault : Fault}
    (hstart : Token.startsWith [.leftParen] ts = true) (h : (Group.reader room).Fails ts fault) :
    Group.Breaks room ts fault :=
  Element.exact.breaks_of_fails (fun _ => rfl) Element.breaks_of_fails hstart h

theorem Term.breaks_of_fails {room : Nat} {ts : List Token} {fault : Fault}
    (h : (Term.reader room).Fails ts fault) : Term.Breaks room ts fault := by
  rcases Choice.fails_read h with ⟨c, hc, hstart, hread⟩ | ⟨hstart, rfl⟩
  · simp only [List.cons_append, List.mem_cons, List.mem_append, List.mem_map, List.not_mem_nil,
      or_false] at hc
    rcases hc with rfl | rfl | ⟨d, hd, rfl⟩ | rfl | rfl
    · exact .regexp (Delimited.breaks_of_fails hstart (Reader.fails_map_iff.mp hread))
    · have hphrase : Literal.phraseReader.Fails ts fault :=
        Outcome.eq_error_of_andThen_ok (Outcome.map_eq_error_iff.mp hread)
      have hbetween := Reader.fails_map_iff.mp hphrase
      exact .group (.leaf (.phrase (Delimited.breaks_of_fails hstart hbetween)))
    · have hrange : d.reader.Fails ts fault :=
        Outcome.eq_error_of_andThen_ok (Outcome.map_eq_error_iff.mp hread)
      exact .group (.leaf (.range (Range.breaks_of_fails hd hstart hrange)))
    · have hgroup : (Group.reader room).Fails ts fault :=
        Outcome.eq_error_of_andThen_ok (Outcome.map_eq_error_iff.mp hread)
      exact .group (Group.breaks_of_fails hstart hgroup)
    · have hbare : Literal.bareReader.Fails ts fault :=
        Outcome.eq_error_of_andThen_ok (Outcome.map_eq_error_iff.mp hread)
      exact absurd hbare (Literal.not_fails_bareReader hstart)
  · exact .start hstart

/-! ### Queries -/

theorem FieldClause.breaks_of_fails {room : Nat} {c : Choice FieldClause} {ts : List Token}
    {fault : Fault} (hc : c ∈ FieldClause.choices room)
    (hstart : Token.startsWith c.starts ts = true) (h : c.reader.Fails ts fault) :
    FieldClause.Breaks room ts fault := by
  obtain rfl := List.mem_singleton.mp hc
  have hspan := Token.fragments_iff.mpr ⟨hstart, rfl⟩
  rcases Outcome.andThen_eq_error_iff.mp h with hfield | ⟨field, mid, hfield, hterm⟩
  · simp only [Field.reader] at hfield
    split at hfield
    · cases hfield
    · next hcolon =>
        cases hfield
        refine .colon hspan ?_
        intro t ht hkind
        obtain ⟨us, hus⟩ := List.head?_eq_some_iff.mp ht
        obtain ⟨kind, text⟩ := t
        obtain rfl : kind = .colon := hkind
        exact hcolon text us hus
  · obtain ⟨colon, hcolon, hname⟩ := Field.reads_reader_iff.mp ⟨hfield, hstart⟩
    exact .term hname hcolon (Term.breaks_of_fails (Outcome.map_eq_error_iff.mp hterm))

/-- A query fails where one of its clauses breaks off. -/
theorem Query.breaks_of_fails {limit : Nat} {ts : List Token} {fault : Fault}
    (h : (Query.reader limit).Fails ts fault) :
    ∃ operand clause, Formula.Reaches
        (Clause.Within FieldClause.Derives (fun c => c.term.depth) limit) ts operand ∧
      Operand.Opens operand clause ∧ Query.Breaks limit clause fault := by
  have hstarts : ∀ room, (FieldClause.choices room).flatMap Choice.starts = Field.nameKinds :=
    fun _ => rfl
  have hleaf : ∀ {room c ts fault}, c ∈ FieldClause.choices room →
      Token.startsWith c.starts ts = true → c.reader.Fails ts fault →
        FieldClause.Breaks room ts fault := FieldClause.breaks_of_fails
  obtain ⟨operand, clause, hreaches, hopens, hfails⟩ := Formula.exists_reaches_of_fails h
  refine ⟨operand, clause, hreaches.imp fun hc => ?_, hopens, ?_⟩
  · exact FieldClause.exact.derives_of_reads_reader FieldClause.exact.reads_nestedReader_iff hc
  · exact Clause.breaks_of_fails hstarts hleaf (FieldClause.exact.breaks_of_fails hstarts hleaf)
      hfails

/-! ### Whole texts -/

/-- Splitting into tokens fails only because of a character. -/
theorem tokenize_eq_error_imp {s : String} {e : Error} (h : tokenize s = .error e) :
    ∃ pos c, e = .unrecognised pos c := by
  obtain ⟨before, -, rfl⟩ := tokenize_eq_error_iff.mp h
  exact ⟨_, _, rfl⟩

section Whole

variable {r : Reader α} {after : List Kind} {ts : List Token} {fault : Fault}

/-- A reader of a whole list fails where it does, or at the first token behind what it reads. -/
theorem Reader.runWhole_eq_error_iff :
    r.runWhole after ts = .error fault ↔
      r.Fails (Token.skipSpace ts) fault ∨
        ∃ a stop, r.Reads (Token.skipSpace ts) a stop ∧ Token.skipSpace stop ≠ [] ∧
          fault = .unexpected (Token.skipSpace stop) after := by
  simp only [Fails, Reads, runWhole]
  cases hrun : r.run (Token.skipSpace ts) with
  | error e => simp
  | ok found =>
      obtain ⟨a, stop⟩ := found
      cases hskip : Token.skipSpace stop with
      | nil => grind
      | cons t us => grind

theorem Reader.exists_of_parse_eq_error {limit : Nat} {s : String} {e : Error}
    (h : r.parse after limit s = .error e) :
    (∃ pos c, e = .unrecognised pos c) ∨
      ∃ located fault, tokenize s = .ok located ∧
        r.runWhole after (located.map Token.Located.token) = .error fault ∧
        e = fault.toError s.utf8ByteSize limit := by
  unfold parse at h
  split at h
  · next htokens =>
      cases h
      exact Or.inl (tokenize_eq_error_imp htokens)
  · next located htokens =>
      split at h
      · next fault hrun =>
          cases h
          exact Or.inr ⟨located, fault, htokens, hrun, rfl⟩
      · cases h

end Whole

end SearchQuery
