import SearchQuery.Proofs.Composition
import SearchQuery.Proofs.Fault.Resumption

/-!
Texts behind a query. A query goes on with space, with a word, with an operand joined to it by a
symbol, and with a negation if there is space in front of that.
-/

namespace SearchQuery

open Token (Kind Segmented Lexical LastNot chars filler)

variable {α β C : Type} {ts us mid start rest : List Token} {k : Kind}
  {r r' : List Token → List Token → Prop}

/-! ### Words behind a query -/

/-- Right behind the tokens anything may come and they end in no word, or a letter makes them a
longer phrase. -/
def TakesWord (r : List Token → List Token → Prop) (ts : List Token) : Prop :=
  (LastNot [.word, .backslash] ts ∧ ∀ rest, r (ts ++ rest) rest) ∨
    ∃ full, Segmented full ∧ chars full = chars ts ++ ['a'] ∧
      full.head?.map Token.kind = ts.head?.map Token.kind ∧ r full []

theorem TakesWord.imp (h : TakesWord r ts) (hr : ∀ ts rest, r ts rest → r' ts rest) :
    TakesWord r' ts := by
  rcases h with ⟨hlast, hread⟩ | ⟨full, hseg, hchars, hhead, hfull⟩
  · exact Or.inl ⟨hlast, fun rest => hr _ _ (hread rest)⟩
  · exact Or.inr ⟨full, hseg, hchars, hhead, hr _ _ hfull⟩

theorem TakesWord.append_left (h : TakesWord r ts) (hseg : Segmented (us ++ ts)) (hne : us ≠ [])
    (hts : ts ≠ []) (hr : ∀ ts rest, r ts rest → r' (us ++ ts) rest) : TakesWord r' (us ++ ts) := by
  rcases h with ⟨hlast, hread⟩ | ⟨full, hsegfull, hchars, hhead, hfull⟩
  · refine Or.inl ⟨?_, ?_⟩
    · rwa [LastNot, List.getLast?_append_of_ne_nil _ hts]
    · intro rest
      rw [List.append_assoc]
      exact hr _ _ (hread rest)
  · refine Or.inr ⟨us ++ full, hseg.append_of_kind hsegfull hhead, by simp [hchars], ?_,
      hr _ _ hfull⟩
    rw [List.head?_append_of_ne_nil _ hne, List.head?_append_of_ne_nil _ hne]

theorem Production.Replay.append_nil {p : Production α} {a : α}
    (h : p.Replay (fun _ _ => True) ts a []) (rest : List Token) : p (ts ++ rest) a rest := by
  obtain ⟨phrase, rfl, -, hread⟩ := h
  simpa using hread rest trivial

theorem Delimited.lastNot_and_append {delimiter : Kind} {inner : List Token}
    (h : Delimited delimiter ts inner []) (hkind : delimiter ∉ [.word, .backslash]) :
    LastNot [.word, .backslash] ts ∧ ∀ rest, Delimited delimiter (ts ++ rest) inner rest := by
  obtain ⟨hopening, hinner, hclosing⟩ := h
  refine ⟨?_, ?_⟩
  · rw [← List.cons_append]
    exact Token.lastNot_of_suffix (List.suffix_append _ _) (hclosing ▸ hkind)
  · intro rest
    simpa using Delimited.mk hopening hinner hclosing

theorem Literal.Derives.takesWord {l : Literal} (h : Literal.Derives ts l [])
    (hseg : Segmented ts) : TakesWord Literal.Derives.Spans ts := by
  cases h with
  | @bare _ run _ hrun =>
      obtain ⟨rfl, hne, hkinds, -⟩ := hrun.exists_append
      rw [List.append_nil] at hseg ⊢
      have hlast := (firm_of_forall_mem hne hkinds (by decide)).lastNot
      obtain ⟨run', hseg', hchars, hlast', hmem, hhead⟩ :=
        hseg.exists_glue hlast (show Lexical filler by decide)
      have hne' : run' ≠ [] := by
        rintro rfl
        cases hlast'
      have hkinds' : ∀ t ∈ run', t.kind ∈ Literal.bareKinds := by
        intro t ht
        rcases hmem t ht with hold | hnew
        · exact hkinds t hold
        · rw [hnew]
          decide
      have hrun' : Fragments Literal.bareKinds (run' ++ []) run' [] := .mk hne' hkinds' nofun
      rw [List.append_nil] at hrun'
      exact Or.inr ⟨run', hseg', hchars, hhead hne, .bare run', .bare hrun'⟩
  | phrase hinner =>
      obtain ⟨hlast, hread⟩ := hinner.lastNot_and_append (by decide)
      exact Or.inl ⟨hlast, fun rest => ⟨_, .phrase (hread rest)⟩⟩

theorem Side.Derives.takesWord {s : Side} (h : Side.Derives ts s []) (hseg : Segmented ts) :
    TakesWord Side.Derives.Spans ts := by
  cases h with
  | unbounded hl => exact (hl.takesWord hseg).imp fun _ _ => Side.spans_of_literal
  | literal hl _ => exact (hl.takesWord hseg).imp fun _ _ => Side.spans_of_literal

theorem Interval.Derives.lastNot {i : Interval} (h : Interval.Derives ts i []) :
    LastNot [.word, .backslash] ts := by
  cases h with
  | @mk _ _ _ _ _ _ _ _ _ _ _ _ _ rightClosed _ hspaces₁ hleft hspaces₂ _ _ hspaces₃ hright
      hspaces₄ hclosing =>
      have hright' := (hspaces₄.suffix.trans hright.replay.suffix).trans hspaces₃.spaces.suffix
      have hleft' := (hright'.trans (List.suffix_cons _ _)).trans hspaces₂.spaces.suffix
      have hall := (hleft'.trans hleft.replay.suffix).trans hspaces₁.suffix
      refine Token.lastNot_of_suffix (hall.trans (List.suffix_cons _ _)) ?_
      rw [hclosing]
      cases rightClosed <;> decide

theorem Range.Derives.takesWord {r : Range} (h : Range.Derives ts r []) (hseg : Segmented ts) :
    TakesWord Range.Derives.Spans ts := by
  cases h with
  | @comparison t us _ _ _ ht htext hvalue =>
      have hsegvalue := (Token.segmented_cons.mp hseg).2.1
      change TakesWord Range.Derives.Spans ([t] ++ us)
      refine (hvalue.takesWord hsegvalue).append_left hseg (by simp) ?_ ?_
      · obtain ⟨phrase, rfl, hfirm, -⟩ := hvalue.replay
        simpa using hfirm.ne_nil
      · intro ts rest hside
        obtain ⟨side, hside⟩ := hside
        exact ⟨_, .comparison ht htext hside⟩
  | interval hi =>
      exact Or.inl ⟨hi.lastNot, fun rest => ⟨_, .interval (hi.replay.append_nil rest)⟩⟩

/-- A phrase and another one right after it. -/
theorem Production.Replay.append {p : Production α} {q : Production β} {a : α} {b : β}
    (hp : p.Replay Kept ts a mid) (hq : q.Replay (fun _ _ => True) mid b []) (rest : List Token) :
    ∃ mid', p (ts ++ rest) a mid' ∧ q mid' b rest := by
  obtain ⟨phrase, rfl, -, hreplay⟩ := hp
  obtain ⟨phrase', rfl, hfirm, hreplay'⟩ := hq
  refine ⟨phrase' ++ rest, ?_, hreplay' rest trivial⟩
  have hp' := hreplay (phrase' ++ rest) (kept_append hfirm.ne_nil [] rest)
  simpa using hp'

theorem Boost.Derives.lastNot {b : Boost} (h : Boost.Derives ts b []) :
    LastNot [.word, .backslash] ts := by
  cases h with
  | bare hcaret => simp [LastNot, hcaret]
  | whole _ hn => simp [LastNot, hn]
  | fraction _ _ _ hm => simp [LastNot, hm]

theorem Suffix.Derives.lastNot {s : Suffix} (h : Suffix.Derives ts s []) :
    LastNot [.word, .backslash] ts := by
  cases h with
  | fuzzy hf =>
      cases hf with
      | bare htilde => simp [LastNot, htilde]
      | distance _ hn => simp [LastNot, hn]
  | boost hb => exact hb.lastNot

/-- The last token is that of a phrase at the end. -/
theorem Token.LastNot.of_suffix {kinds : List Kind} (h : LastNot kinds us) (hus : us <:+ ts)
    (hne : us ≠ []) : LastNot kinds ts := by
  obtain ⟨vs, rfl⟩ := hus
  rwa [LastNot, List.getLast?_append_of_ne_nil _ hne]

theorem Enclosed.lastNot_and_append {p : Production α} {a : α} (h : Enclosed p ts a [])
    (hp : ∀ {ts rest}, p ts a rest → p.Replay Swaps ts a rest) :
    LastNot [.word, .backslash] ts ∧ ∀ rest, Enclosed p (ts ++ rest) a rest := by
  refine ⟨?_, (h.replay hp).append_nil⟩
  obtain ⟨-, hspaces, ha, hspaces', hclosing⟩ := h
  have hsuffix := (hspaces'.suffix.trans (hp ha).suffix).trans hspaces.suffix
  exact Token.lastNot_of_suffix (hsuffix.trans (List.suffix_cons _ _)) (by simp [hclosing])

/-- A phrase with a suffix ends where that does. -/
theorem Production.Replay.takesWord {p : Production α} {q : Production β} {a : α} {b : β}
    (hp : p.Replay Kept ts a mid) (hq : q.Replay (fun _ _ => True) mid b [])
    (hlast : LastNot [.word, .backslash] mid)
    (hr : ∀ {ts mid rest}, p ts a mid → q mid b rest → r ts rest) : TakesWord r ts := by
  have hne : mid ≠ [] := by
    obtain ⟨phrase, rfl, hfirm, -⟩ := hq
    simpa using hfirm.ne_nil
  refine Or.inl ⟨hlast.of_suffix hp.suffix hne, ?_⟩
  intro rest
  obtain ⟨mid', hp', hq'⟩ := hp.append hq rest
  exact hr hp' hq'

theorem Clause.Derives.takesWord {leaf : Production α}
    (hleaf : ∀ {ts a rest}, leaf ts a rest → leaf.Replay Kept ts a rest)
    (htakes : ∀ {ts a}, leaf ts a [] → Segmented ts → TakesWord leaf.Spans ts) {c : Clause α}
    (h : Clause.Derives leaf ts c []) (hseg : Segmented ts) :
    TakesWord (Production.Spans (Clause.Derives leaf)) ts := by
  cases h with
  | leaf ha =>
      apply (htakes ha hseg).imp
      intro ts rest hspans
      obtain ⟨a, ha⟩ := hspans
      exact ⟨_, .leaf ha⟩
  | paren hsub =>
      obtain ⟨hlast, hread⟩ := hsub.lastNot_and_append fun hformula =>
        (hformula.imp fun _ _ _ _ hc => hc.replay hleaf).replay
      exact Or.inl ⟨hlast, fun rest => ⟨_, .paren (hread rest)⟩⟩

theorem Term.Derives.takesWord {t : Term} (h : Term.Derives ts t []) (hseg : Segmented ts) :
    TakesWord Term.Derives.Spans ts := by
  cases h with
  | regexp hinner =>
      obtain ⟨hlast, hread⟩ := hinner.lastNot_and_append (by decide)
      exact Or.inl ⟨hlast, fun rest => ⟨_, .regexp (hread rest)⟩⟩
  | literal hl hsuffix =>
      cases hsuffix with
      | none =>
          apply (hl.takesWord hseg).imp
          intro ts rest hspans
          obtain ⟨l, hl⟩ := hspans
          exact ⟨_, .literal hl .none⟩
      | some hs =>
          exact hl.replay.takesWord hs.replay hs.lastNot
            fun hl hs => ⟨_, .literal hl (.some hs)⟩
  | range hr hboost =>
      cases hboost with
      | none =>
          apply (hr.takesWord hseg).imp
          intro ts rest hspans
          obtain ⟨r, hr⟩ := hspans
          exact ⟨_, .range hr .none⟩
      | some hb =>
          exact hr.replay.takesWord hb.replay hb.lastNot
            fun hr hb => ⟨_, .range hr (.some hb)⟩
  | group hg hboost =>
      have hgroup : ∀ {ts rest} {g : Group},
          Formula.Derives (Clause.Derives Element.Derives) ts g rest →
            (Formula.Derives (Clause.Derives Element.Derives)).Replay Swaps ts g rest :=
        fun hformula => (hformula.imp fun _ _ _ _ hc => hc.replay Element.Derives.replay).replay
      cases hboost with
      | none =>
          obtain ⟨hlast, hread⟩ := hg.lastNot_and_append hgroup
          exact Or.inl ⟨hlast, fun rest => ⟨_, .group (hread rest) .none⟩⟩
      | some hb =>
          have hreplay : Production.Replay (Enclosed _) Kept _ _ _ :=
            (hg.replay hgroup).mono fun _ _ _ => trivial
          exact hreplay.takesWord hb.replay hb.lastNot fun hg hb => ⟨_, .group hg (.some hb)⟩

theorem FieldClause.Derives.takesWord {c : FieldClause} (h : FieldClause.Derives ts c [])
    (hseg : Segmented ts) : TakesWord FieldClause.Derives.Spans ts := by
  cases h with
  | @mk _ name us _ colon _ hname hcolon hterm =>
      obtain ⟨rfl, -, -, hreplay⟩ := hname.exists_append
      rw [List.append_cons] at hseg ⊢
      have htakes := hterm.takesWord (Token.segmented_append.mp hseg).2.1
      refine htakes.append_left hseg (by simp) ?_ ?_
      · obtain ⟨phrase, rfl, hfirm, -⟩ := hterm.replay
        simpa using hfirm.ne_nil
      · intro ts rest hspans
        obtain ⟨t, hterm'⟩ := hspans
        rw [← List.append_cons]
        exact ⟨_, .mk (hreplay (colon :: ts) (Or.inl rfl)) hcolon hterm'⟩

/-! ### Texts behind a query -/

/-- The first token of the text is of the kind. -/
def Token.StartsText (k : Kind) (s : String) : Prop :=
  ∃ t ts, Token.SplitsInto s (t :: ts) ∧ t.kind = k

theorem Token.Begins.startsText (h : Token.Begins k ts) : Token.StartsText k (Token.join ts) := by
  obtain ⟨t, us, rfl, hkind⟩ := h.exists_cons
  exact ⟨t, us, Token.splitsInto_iff.mpr ⟨rfl, h.segmented⟩, hkind⟩

/-- The text is accepted with `u` behind it, under some limit. -/
def Continues (parse : Nat → String → Except Error α) (s u : String) : Prop :=
  ∃ limit a, parse limit (s ++ u) = .ok a

/-- Space can be put behind a whole text. -/
theorem Whole.exists_blank {p : Production α} {a : α}
    (hp : ∀ {ts rest}, p ts a rest → p.Replay Swaps ts a rest) (hts : Segmented ts)
    (h : Whole p ts a) :
    ∃ full, Segmented full ∧ chars full = chars ts ++ [' '] ∧ Whole p full a := by
  obtain ⟨start, stop, hstart, ha, hstop⟩ := h
  obtain ⟨gap, rfl, hgap⟩ := spaces_iff.mp hstart
  obtain ⟨phrase, rfl, hfirm, hreplay⟩ := hp ha
  obtain ⟨gap', rfl, hgap'⟩ := spaces_iff.mp hstop
  rw [List.append_nil, ← List.append_assoc] at hts
  obtain ⟨hsegleft, hsegback, -⟩ := Token.segmented_append.mp hts
  obtain ⟨back, hseg, hback, hchars⟩ := Token.exists_segmented_of_isBlank (chars gap' ++ [' '])
    (List.forall_mem_append.mpr
      ⟨hsegback.isBlank_of_mem hgap', List.forall_mem_singleton.mpr (by decide)⟩)
  have hne : back ≠ [] := by
    rintro rfl
    simp at hchars
  have hspaces : Spaces back [] := spaces_iff.mpr ⟨back, by simp, hback⟩
  have hall := hsegleft.append_spaced (hfirm.append gap) hseg hne hback Token.segmented_nil nofun
  rw [List.append_nil, List.append_assoc] at hall
  exact ⟨gap ++ (phrase ++ back), hall, by simp [hchars], phrase ++ back, back,
    spaces_append hgap _, hreplay _ (hspaces.closes_nil.swaps _), hspaces⟩

section Whole

variable {r : Nat → Reader α} {p : Production α} {depth : α → Nat} {after : List Kind}
  {parse : Nat → String → Except Error α}
  (hparse : ∀ limit, parse limit = (r limit).parse after limit)
  (hwhole : ∀ {limit ts a}, (r limit).runWhole after ts = .ok a ↔ Whole p ts a ∧ depth a ≤ limit)

include hparse hwhole

theorem Whole.continues {s u : String} {a : α} (hts : Segmented ts)
    (hchars : chars ts = s.toList ++ u.toList) (h : Whole p ts a) :
    Continues parse s u := by
  refine ⟨depth a, a, ?_⟩
  rw [hparse]
  refine Reader.parse_eq_ok_iff_segmented.mpr ⟨ts, ?_, hts, hwhole.mpr ⟨h, Nat.le_refl _⟩⟩
  rw [← String.toList_inj, Token.toList_join, hchars, String.toList_append]

theorem Whole.continues_blank {a : α} (hp : ∀ {ts rest}, p ts a rest → p.Replay Swaps ts a rest)
    (hts : Segmented ts) (h : Whole p ts a) :
    Continues parse (Token.join ts) " " := by
  obtain ⟨full, hfull, hchars, hall⟩ := h.exists_blank hp hts
  exact hall.continues hparse hwhole hfull (by simp [hchars])

end Whole

/-- A field clause of one letter each. -/
def FieldClause.sample : List Token := [filler, ⟨.colon, ":"⟩, filler]

theorem FieldClause.firm_sample : Firm FieldClause.sample :=
  Token.firm_filler.append [_, _]

/-- That clause after AND and space. -/
def FieldClause.conjunct : List Token :=
  ⟨.word, "AND"⟩ :: ⟨.blank, " "⟩ :: FieldClause.sample

theorem FieldClause.begins_conjunct : Token.Begins .word FieldClause.conjunct :=
  ⟨by decide, FieldClause.firm_sample.append [_, _], rfl⟩

theorem FieldClause.stands_conjunct :
    Keyword.and.Stands FieldClause.conjunct (⟨.blank, " "⟩ :: FieldClause.sample) :=
  .word rfl (by decide) (by simp [Keyword.Continues]) (.more rfl .none) rfl nofun

theorem Operand.Derives.exists_opens {p : Production C} {o : Operand C}
    (h : Operand.Derives p ts o rest) : ∃ us, Operand.Opens ts us ∧ p us o.clause rest := by
  cases h with
  | negated hnot hspaces hc => exact ⟨_, .negated hnot hspaces, hc⟩
  | plain hnot hc => exact ⟨_, .plain hnot, hc⟩

namespace Query

theorem exists_clause_sample (limit : Nat) : ∃ c, Clauses limit FieldClause.sample c [] := by
  have hplain : (FieldClause.Derives.Within (fun c => c.term.depth) limit).Plain
      ([filler] ++ ⟨.colon, ":"⟩ :: filler :: []) [] :=
    FieldClause.plain_filler (by simp) (by decide) nofun
  obtain ⟨a, ha⟩ := hplain
  cases ha with
  | plain _ ha => exact ⟨.leaf a, .leaf ha.1, by simpa using ha.2⟩

theorem exists_operand_sample (limit : Nat) :
    ∃ o, Operand.Derives (Clauses limit) FieldClause.sample o [] := by
  obtain ⟨c, hc⟩ := exists_clause_sample limit
  exact ⟨_, .plain (fun _ => hc.1.not_stands) hc⟩

namespace Frame

variable {limit : Nat} {s : String} {q : Query} {more after : List Token}

/-- A query goes on with an operand joined to it. -/
theorem exists_parse_of_joins (f : Frame limit s q) {o : Operand (Clause FieldClause)}
    (hmore : Segmented more) (hends : f.back = [] → EndsRun more)
    (hspace : f.back ≠ [] → ∀ u ∈ more.head?, u.isSpace = false)
    (hjoins : Operand.Joins (f.back ++ more) start)
    (ho : Operand.Derives (Clauses limit) start o []) :
    ∃ q', Query.parseWithin limit (s ++ Token.join more) = .ok q' := by
  have hall : Segmented ((f.front ++ f.phrase) ++ (f.back ++ more)) ∧ EndsRun (f.back ++ more) := by
    by_cases hback : f.back = []
    · rw [hback, List.nil_append]
      have hborder := (f.firm.append f.front).apart (hends hback)
      exact ⟨Token.segmented_append.mpr ⟨f.segmented_left, hmore, hborder⟩, hends hback⟩
    · exact ⟨f.segmented_left.append_spaced (f.firm.append f.front)
        (Token.segmented_append.mp f.segmented_right).2.1 hback f.space_back hmore (hspace hback),
        endsRun_append_of_isSpace hback f.space_back more⟩
  obtain ⟨q', hq'⟩ := (f.derives _ hall.2).exists_join hjoins ho
  have hseg := hall.1
  rw [List.append_assoc] at hseg
  refine ⟨q', parseWithin_of_derives f.front ?_ hseg f.space_front hq' (by simp)⟩
  simp [← f.text]

theorem continues_keyword (f : Frame limit s q) {keyword : Keyword} (hkeyword : keyword ≠ .not)
    (hbegins : Token.Begins k more) (hspace : k.isSpace = false)
    (hbare : f.back = [] → k ∉ Literal.bareKinds) (hstands : keyword.Stands more after)
    (hafter : Spaces after FieldClause.sample) :
    ∃ u, Token.StartsText k u ∧ Continues Query.parseWithin s u := by
  obtain ⟨o, ho⟩ := Query.exists_operand_sample limit
  obtain ⟨t, us, rfl, hkind⟩ := hbegins.exists_cons
  have hspaces := spaces_append f.space_back (t :: us)
  obtain ⟨q', hq'⟩ := f.exists_parse_of_joins hbegins.segmented
    (fun hback => endsRun_cons hkind (hbare hback)) (by simp [Token.isSpace, hkind, hspace])
    (.keyword hkeyword hspaces hstands hafter) ho
  exact ⟨_, hbegins.startsText, limit, q', hq'⟩

/-- A NOT comes after space, which is put in front of it if there is none. -/
theorem continues_bang (f : Frame limit s q) :
    ∃ gap u, (gap = "" ∨ gap = " " ∧ f.back = []) ∧ Token.StartsText .bang u ∧
      Continues Query.parseWithin (s ++ gap) u := by
  obtain ⟨c, hc⟩ := Query.exists_clause_sample limit
  have hbegins : Token.Begins .bang (⟨.bang, "!"⟩ :: FieldClause.sample) :=
    ⟨by decide, FieldClause.firm_sample.cons _, rfl⟩
  have ho : Operand.Derives (Clauses limit) (⟨.bang, "!"⟩ :: FieldClause.sample) ⟨true, c⟩ [] :=
    .negated (.bang rfl) .none hc
  by_cases hback : f.back = []
  · have hspaces : SomeSpaces (f.back ++ ⟨.blank, " "⟩ :: ⟨.bang, "!"⟩ :: FieldClause.sample)
        (⟨.bang, "!"⟩ :: FieldClause.sample) := by
      rw [hback]
      exact .mk rfl .none
    obtain ⟨q', hq'⟩ := f.exists_parse_of_joins (by decide)
      (fun _ => endsRun_cons rfl (by decide)) (fun hne => absurd hback hne)
      (.juxtaposed hspaces (.bang rfl)) ho
    refine ⟨" ", _, Or.inr ⟨rfl, hback⟩, hbegins.startsText, limit, q', ?_⟩
    rw [← hq', String.append_assoc]
    rfl
  · have hspaces : SomeSpaces (f.back ++ ⟨.bang, "!"⟩ :: FieldClause.sample)
        (⟨.bang, "!"⟩ :: FieldClause.sample) :=
      someSpaces_iff.mpr ⟨f.back, hback, rfl, f.space_back⟩
    obtain ⟨q', hq'⟩ := f.exists_parse_of_joins hbegins.segmented
      (fun _ => endsRun_cons rfl (by decide)) (by simp [Token.isSpace, Kind.isSpace])
      (.juxtaposed hspaces (.bang rfl)) ho
    refine ⟨"", _, Or.inl rfl, hbegins.startsText, limit, q', ?_⟩
    simpa using hq'

/-- The last clause of a query can be replaced by any other that starts with a token of the same
kind. -/
theorem exists_last (f : Frame limit s q) (hback : f.back = []) :
    ∃ lead clause c, f.phrase = lead ++ clause ∧ Clause.Derives FieldClause.Derives clause c [] ∧
      ∀ more c' tail, more.head?.map Token.kind = clause.head?.map Token.kind →
        Clause.Derives FieldClause.Derives more c' tail →
        ∃ start e, Spaces ((f.front ++ lead) ++ more) start ∧
          Formula.Derives (Clause.Derives FieldClause.Derives) start e tail := by
  have hq := (f.derives f.back f.endsRun_back).imp fun _ _ _ _ hc => hc.1
  rw [hback] at hq
  obtain ⟨us, o, hreaches, ho⟩ := hq.reaches
  obtain ⟨clause, hopens, hc⟩ := ho.exists_opens
  obtain ⟨lead, hphrase, -, hresume⟩ :=
    hreaches.resume (fun _ _ _ hd => hd.replay FieldClause.Derives.replay) hopens
  rw [List.append_nil] at hphrase
  have hspace : ∃ t ∈ clause.head?, t.isSpace = false := by
    have hself := hc.skipSpace_eq FieldClause.exact.skipSpace_eq
    obtain ⟨phrase, rfl, hfirm, -⟩ := hc.replay FieldClause.Derives.replay
    obtain ⟨t, phrase, rfl⟩ := List.exists_cons_of_ne_nil hfirm.ne_nil
    have hmem : t ∈ (Token.skipSpace (t :: phrase ++ [])).head? := by
      rw [hself]
      rfl
    exact ⟨t, rfl, isSpace_head?_skipSpace hmem⟩
  refine ⟨lead, clause, o.clause, hphrase, hc, ?_⟩
  intro more c' tail hhead hc'
  have hpersists : Keyword.Persists lead clause more :=
    fun _ _ gap _ _ hgap => Keyword.carries_of_kind hhead hspace gap hgap
  obtain ⟨start, e, hstart, he⟩ :=
    hresume more more c' tail .none hpersists (.plain (fun _ => hc'.not_stands) hc')
  rw [List.append_assoc]
  exact ⟨start, e, (spaces_append f.space_front _).trans hstart, he⟩

/-- A word right behind a query goes on with its last literal, or is a keyword. -/
theorem continues_word (f : Frame limit s q) (hback : f.back = []) :
    ∃ u, Token.StartsText .word u ∧ Continues Query.parseWithin s u := by
  obtain ⟨lead, clause, c, hphrase, hc, hlast⟩ := f.exists_last hback
  have hseg : Segmented ((f.front ++ lead) ++ clause) := by
    have hleft := f.segmented_left
    rwa [hphrase, ← List.append_assoc] at hleft
  have htext : chars ((f.front ++ lead) ++ clause) = s.toList := by
    rw [← f.text, hback, hphrase]
    simp
  have hne : clause ≠ [] := by
    obtain ⟨phrase, rfl, hfirm, -⟩ := hc.replay FieldClause.Derives.replay
    simpa using hfirm.ne_nil
  rcases hc.takesWord FieldClause.Derives.replay FieldClause.Derives.takesWord
    (hseg.of_suffix (List.suffix_append _ _)) with
    ⟨hend, hread⟩ | ⟨full, hsegfull, hchars, hhead, c', hc'⟩
  · -- AND, and another clause
    obtain ⟨c', hc'⟩ := hread FieldClause.conjunct
    obtain ⟨start, e, hstart, he⟩ :=
      hlast _ c' _ (by rw [List.head?_append_of_ne_nil _ hne]) hc'
    obtain ⟨o, ho⟩ := Query.exists_operand_sample 0
    obtain ⟨e', he'⟩ := he.exists_join
      (.keyword (by decide) .none FieldClause.stands_conjunct (.more rfl .none))
      (ho.imp fun _ hd => hd.1)
    have hall : Query.Derives _ e' := ⟨start, [], hstart, he', .none⟩
    refine ⟨_, FieldClause.begins_conjunct.startsText,
      Whole.continues Query.parseWithin_eq Query.runWhole_eq_ok_iff ?_ ?_ hall⟩
    · rw [← List.append_assoc]
      refine Token.segmented_append.mpr ⟨hseg, FieldClause.begins_conjunct.segmented, ?_⟩
      intro t ht u hu
      cases hu
      rw [List.getLast?_append_of_ne_nil _ hne] at ht
      have hkind := hend t ht
      simp only [List.mem_cons, List.not_mem_nil, or_false, not_or] at hkind
      exact ⟨hkind.2, fun _ => hkind.1⟩
    · rw [← List.append_assoc, Token.chars_append, htext, Token.toList_join]
  · obtain ⟨start, e, hstart, he⟩ := hlast full c' [] hhead hc'
    have hbegins : Token.Begins .word [filler] := ⟨by decide, Token.firm_filler, rfl⟩
    have hall : Query.Derives _ e := ⟨start, [], hstart, he, .none⟩
    refine ⟨_, hbegins.startsText,
      Whole.continues Query.parseWithin_eq Query.runWhole_eq_ok_iff ?_ ?_ hall⟩
    · exact hseg.append_of_kind hsegfull hhead
    · rw [Token.chars_append, hchars, ← List.append_assoc, ← Token.chars_append, htext,
        Token.toList_join]
      rfl

end Frame

end Query

end SearchQuery
