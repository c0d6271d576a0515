import SearchQuery.Proofs.Fault.Completion

/-!
What could have stood in the place of a fault. A token of each of the kinds that are said to be
expected there could: with it, what was read before is the start of a complete phrase. Twice this
needs space in front of the token, where it would otherwise be taken for a part of the keyword
before it, or be a NOT right behind a clause.
-/

namespace SearchQuery

open Token (Kind Segmented Apart Lexical LastNot chars filler)

variable {α : Type} {ts us vs rest pre full more : List Token} {fault : Fault} {k : Kind}
  {expected : List Kind} {fresh fresh' : List Kind → Prop} {r r' : List Token → List Token → Prop}

/-! ### Tokens put behind others -/

theorem Token.Kind.holds_append {cs ds : List Char} (hk : k.isRun = true) (hcs : k.Holds cs)
    (hds : k.Holds ds) : k.Holds (cs ++ ds) := by
  cases k <;> try cases hk
  case word => exact hcs.append hds
  all_goals exact List.forall_mem_append.mpr ⟨hcs, hds⟩

theorem Token.Lexical.append {t u : Token} (ht : t.Lexical) (hu : u.Lexical)
    (hrun : t.kind.isRun = true) (hkind : t.kind = u.kind) :
    Lexical ⟨t.kind, t.text ++ u.text⟩ := by
  refine ⟨fun hempty => hu.1 (String.append_eq_empty_iff.mp hempty).2, ?_⟩
  have hholds := hu.2
  rw [← hkind] at hholds
  simpa using Kind.holds_append hrun ht.2 hholds

/-- A token behind others is part of the last one if that is a run of its kind. -/
theorem Token.Segmented.exists_glue {t : Token} (h : Segmented ts) (hts : LastNot [.backslash] ts)
    (ht : t.Lexical) :
    ∃ us, Segmented us ∧ chars us = chars ts ++ t.text.toList ∧
      us.getLast?.map Token.kind = some t.kind ∧ (∀ u ∈ us, u ∈ ts ∨ u.kind = t.kind) ∧
      (ts ≠ [] → us.head?.map Token.kind = ts.head?.map Token.kind) := by
  by_cases hfuse : ∃ u ∈ ts.getLast?, u.kind.isRun = true ∧ u.kind = t.kind
  · obtain ⟨u, hu, hrun, hkind⟩ := hfuse
    obtain ⟨vs, rfl⟩ := List.getLast?_eq_some_iff.mp hu
    obtain ⟨hsegvs, hsegu, hborder⟩ := segmented_append.mp h
    have hlexical := (hsegu.lexical u List.mem_cons_self).append ht hrun hkind
    refine ⟨vs ++ [⟨u.kind, u.text ++ t.text⟩], ?_, by simp, by simp [hkind], ?_, ?_⟩
    · have hsegfused := segmented_cons.mpr ⟨hlexical, segmented_nil, by simp⟩
      refine segmented_append.mpr ⟨hsegvs, hsegfused, ?_⟩
      intro v hv w hw
      cases hw
      exact hborder v hv u rfl
    · intro v hv
      rcases List.mem_append.mp hv with hv | hv
      · exact Or.inl (List.mem_append_left _ hv)
      · rw [List.mem_singleton.mp hv]
        exact Or.inr hkind
    · intro _
      cases vs <;> rfl
  · refine ⟨ts ++ [t], ?_, by simp, by simp, ?_, ?_⟩
    · refine segmented_append.mpr ⟨h, segmented_cons.mpr ⟨ht, segmented_nil, by simp⟩, ?_⟩
      intro u hu v hv
      cases hv
      exact ⟨List.mem_singleton.not.mp (hts u hu), fun hrun hkind => hfuse ⟨u, hu, hrun, hkind⟩⟩
    · intro u hu
      rcases List.mem_append.mp hu with hu | hu
      · exact Or.inl hu
      · rw [List.mem_singleton.mp hu]
        exact Or.inr rfl
    · intro hne
      rw [List.head?_append_of_ne_nil _ hne]

/-- Tokens may stand where others do that start with a token of the same kind. -/
theorem Token.Segmented.append_of_kind (h : Segmented (us ++ ts)) (hvs : Segmented vs)
    (hhead : vs.head?.map Token.kind = ts.head?.map Token.kind) : Segmented (us ++ vs) := by
  obtain ⟨hus, -, hborder⟩ := segmented_append.mp h
  refine segmented_append.mpr ⟨hus, hvs, ?_⟩
  intro t ht v hv
  obtain ⟨vs, rfl⟩ := List.head?_eq_some_iff.mp hv
  cases ts with
  | nil => cases hhead
  | cons u ts =>
      have hkind : v.kind = u.kind := by simpa using hhead
      simpa [Apart, hkind] using hborder t ht u rfl

/-- Tokens that can be put behind others, the first of which is of the kind. -/
structure Token.Begins (k : Kind) (ts : List Token) : Prop where
  segmented : Segmented ts
  firm : Firm ts
  starts : Token.startsWith [k] ts = true

theorem Token.Begins.exists_cons (h : Token.Begins k ts) : ∃ t us, ts = t :: us ∧ t.kind = k := by
  obtain ⟨hseg, -, hstart⟩ := h
  cases ts with
  | nil => cases hstart
  | cons t us => exact ⟨t, us, rfl, List.mem_singleton.mp (Token.startsWith_cons.mp hstart)⟩

theorem Token.Begins.append (h : Token.Begins k ts) (hus : Segmented us) (hfirm : Firm us)
    (hends : EndsRun us) : Token.Begins k (ts ++ us) where
  segmented := Token.segmented_append.mpr ⟨h.segmented, hus, h.firm.apart hends⟩
  firm := hfirm.append ts
  starts := by
    obtain ⟨t, vs, rfl, hkind⟩ := h.exists_cons
    exact Token.startsWith_cons.mpr (by simp [hkind])

/-! ### Tokens in the place of a fault -/

/-- Tokens whose text is that of others with `gap` and a token of kind `k` behind it. They may stand
where those may: they start alike, or with that token if there was nothing. -/
structure Extends (k : Kind) (gap : String) (pre full : List Token) : Prop where
  segmented : Segmented full
  firm : Firm full
  chars : ∃ more, Token.Begins k more ∧ chars full = chars pre ++ (gap.toList ++ chars more)
  head : full.head?.map Token.kind = pre.head?.map Token.kind ∨
    pre = [] ∧ gap = "" ∧ Token.startsWith [k] full = true ∧ k ∈ Term.starts

/-- Behind nothing they start with that token, right away. -/
theorem Extends.of_nil {gap : String} (h : Extends k gap [] full) :
    gap = "" ∧ Token.startsWith [k] full = true ∧ k ∈ Term.starts := by
  rcases h.head with hhead | ⟨-, hgap⟩
  · exact absurd (by simpa using hhead) h.firm.ne_nil
  · exact hgap

theorem Extends.append_right {gap : String} (h : Extends k gap pre full) (hmore : Segmented more)
    (hfirm : Firm more) (hends : EndsRun more) : Extends k gap pre (full ++ more) where
  segmented := Token.segmented_append.mpr ⟨h.segmented, hmore, h.firm.apart hends⟩
  firm := hfirm.append full
  chars := by
    obtain ⟨us, hus, hchars⟩ := h.chars
    refine ⟨us ++ more, hus.append hmore hfirm hends, ?_⟩
    simp [hchars]
  head := by
    rw [List.head?_append_of_ne_nil _ h.firm.ne_nil]
    rcases h.head with hhead | ⟨hpre, hgap, hstart, hk⟩
    · exact Or.inl hhead
    · obtain ⟨t, us, rfl⟩ := List.exists_cons_of_ne_nil h.firm.ne_nil
      exact Or.inr ⟨hpre, hgap, hstart, hk⟩

theorem Extends.append_left {gap : String} (h : Extends k gap pre full)
    (hseg : Segmented (us ++ (pre ++ rest)))
    (hus : pre = [] → ∀ t ∈ us.getLast?, ∀ u : Token, u.kind = k → Apart t u) :
    Extends k gap (us ++ pre) (us ++ full) where
  segmented := by
    rcases h.head with hhead | ⟨rfl, -, hstart, -⟩
    · rw [← List.append_assoc] at hseg
      exact (Token.segmented_append.mp hseg).1.append_of_kind h.segmented hhead
    · refine Token.segmented_append.mpr ⟨(Token.segmented_append.mp hseg).1, h.segmented, ?_⟩
      intro t ht u hu
      obtain ⟨full, rfl⟩ := List.head?_eq_some_iff.mp hu
      exact hus rfl t ht u (List.mem_singleton.mp (Token.startsWith_cons.mp hstart))
  firm := h.firm.append us
  chars := by
    obtain ⟨more, hmore, hchars⟩ := h.chars
    exact ⟨more, hmore, by simp [hchars]⟩
  head := by
    by_cases hne : us = []
    · subst hne
      exact h.head
    · rw [List.head?_append_of_ne_nil _ hne, List.head?_append_of_ne_nil _ hne]
      exact Or.inl rfl

/-- Behind a word, what starts a term comes after space. -/
theorem Extends.spaced (h : Extends k "" [] full) (hus : Segmented us)
    (hword : ∃ t ∈ us.getLast?, t.kind = .word) :
    Extends k " " us (us ++ (⟨.blank, " "⟩ :: full)) where
  segmented := by
    obtain ⟨-, hstart, hk⟩ := h.of_nil
    have hspaced : Segmented (⟨.blank, " "⟩ :: full) := by
      refine Token.segmented_cons.mpr ⟨by decide, h.segmented, ?_⟩
      intro u hu
      obtain ⟨full, rfl⟩ := List.head?_eq_some_iff.mp hu
      have hkind : u.kind = k := List.mem_singleton.mp (Token.startsWith_cons.mp hstart)
      refine ⟨by decide, fun _ hblank => ?_⟩
      rw [← hkind, ← hblank] at hk
      revert hk
      decide
    refine Token.segmented_append.mpr ⟨hus, hspaced, ?_⟩
    obtain ⟨t, ht, hkind⟩ := hword
    intro v hv b hb
    cases hb
    cases Option.mem_unique ht hv
    simp [Apart, hkind]
  firm := (h.firm.cons _).append us
  chars := by
    obtain ⟨more, hmore, hchars⟩ := h.chars
    refine ⟨more, hmore, ?_⟩
    rw [Token.chars_append, Token.chars_cons, hchars]
    simp
  head := by
    obtain ⟨t, ht, -⟩ := hword
    obtain ⟨vs, rfl⟩ := List.getLast?_eq_some_iff.mp ht
    rw [List.head?_append_of_ne_nil _ (by simp)]
    exact Or.inl rfl

theorem extends_append (hpre : Segmented pre) (hne : pre ≠ []) (hmore : Token.Begins k more)
    (hborder : ∀ t ∈ pre.getLast?, ∀ u ∈ more.head?, Apart t u) :
    Extends k "" pre (pre ++ more) where
  segmented := Token.segmented_append.mpr ⟨hpre, hmore.segmented, hborder⟩
  firm := hmore.firm.append pre
  chars := ⟨more, hmore, by simp⟩
  head := by
    rw [List.head?_append_of_ne_nil _ hne]
    exact Or.inl rfl

/-- With `gap` and a token of kind `k` behind it, `pre` is the start of a phrase, whatever comes
behind the whole. -/
def Takes (r : List Token → List Token → Prop) (k : Kind) (gap : String) (pre : List Token) :
    Prop :=
  ∃ full, Extends k gap pre full ∧ ∀ tail, EndsRun tail → r (full ++ tail) tail

namespace Takes

variable {gap : String}

theorem imp (h : Takes r k gap pre) (hr : ∀ ts rest, r ts rest → r' ts rest) :
    Takes r' k gap pre := by
  obtain ⟨full, hfull, hread⟩ := h
  exact ⟨full, hfull, fun tail htail => hr _ _ (hread tail htail)⟩

/-- Further tokens behind what is complete otherwise. -/
theorem append_right (h : Takes r k gap pre) (hmore : Segmented more) (hfirm : Firm more)
    (hends : EndsRun more) (hr : ∀ ts tail, r ts (more ++ tail) → r' ts tail) :
    Takes r' k gap pre := by
  obtain ⟨full, hfull, hread⟩ := h
  refine ⟨full ++ more, hfull.append_right hmore hfirm hends, ?_⟩
  intro tail _
  rw [List.append_assoc]
  apply hr
  apply hread
  rwa [EndsRun, List.head?_append_of_ne_nil _ hfirm.ne_nil]

theorem append_left (h : Takes r k gap pre) (hseg : Segmented (us ++ (pre ++ rest)))
    (hus : pre = [] → ∀ t ∈ us.getLast?, ∀ u : Token, u.kind = k → Apart t u)
    (hr : ∀ ts rest, r ts rest → r' (us ++ ts) rest) : Takes r' k gap (us ++ pre) := by
  obtain ⟨full, hfull, hread⟩ := h
  refine ⟨us ++ full, hfull.append_left hseg hus, ?_⟩
  intro tail htail
  rw [List.append_assoc]
  exact hr _ _ (hread tail htail)

/-- No phrase starts with a symbol that joins. -/
theorem ne_nil_of_ampersand (h : Takes r .ampersand gap pre) : pre ≠ [] := by
  rintro rfl
  obtain ⟨full, hfull, -⟩ := h
  exact absurd hfull.of_nil.2.2 (by decide)

end Takes

/-- Where a token of kind `k` is not read as such right behind others: NOT behind a clause, and,
where a clause is expected, what continues a word right behind AND or OR, or right behind a NOT that
comes where AND could. -/
def NeedsSpace (joinable : List Token → Prop) (expected : List Kind) (k : Kind)
    (pre : List Token) : Prop :=
  (k = .bang ∧ ∀ t ∈ pre.getLast?, t.isSpace = false) ∨
    (.leftParen ∈ expected ∧ k ∈ Literal.bareKinds) ∧ ∃ before t, pre = before ++ [t] ∧
      (t.isWord (Keyword.and.words ++ Keyword.or.words) = true ∨
        t.isWord Keyword.not.words = true ∧ joinable before)

section NeedsSpace

variable {joinable joinable' : List Token → Prop}

theorem NeedsSpace.imp (h : NeedsSpace joinable expected k pre)
    (hj : ∀ before, joinable before → joinable' before) : NeedsSpace joinable' expected k pre := by
  refine h.imp_right fun ⟨hk, before, t, hpre, ht⟩ => ⟨hk, before, t, hpre, ?_⟩
  exact ht.imp_right fun ⟨hnot, hbefore⟩ => ⟨hnot, hj before hbefore⟩

theorem NeedsSpace.append_left (h : NeedsSpace joinable expected k pre) (hpre : pre ≠ [])
    (us : List Token) (hj : ∀ before, before <+: pre → joinable before → joinable' (us ++ before)) :
    NeedsSpace joinable' expected k (us ++ pre) := by
  rcases h with ⟨hk, hlast⟩ | ⟨hk, before, t, rfl, ht⟩
  · exact Or.inl ⟨hk, by rwa [List.getLast?_append_of_ne_nil _ hpre]⟩
  · refine Or.inr ⟨hk, us ++ before, t, by simp, ?_⟩
    exact ht.imp_right fun ⟨hnot, hbefore⟩ =>
      ⟨hnot, hj before (List.prefix_append before [t]) hbefore⟩

end NeedsSpace

/-- What was read before the fault can go on with a token of each kind expected. Where nothing was
read, `fresh` says what is expected. -/
def Admits (fresh : List Kind → Prop) (r : List Token → List Token → Prop) : Breach :=
  fun ts fault => ∀ rest expected, fault = .unexpected rest expected → ∀ k ∈ expected,
    ∃ gap pre, ts = pre ++ rest ∧ (pre = [] → fresh expected) ∧
      (gap = "" ∨ gap = " " ∧ NeedsSpace (Takes r .ampersand "") expected k pre) ∧
      Takes r k gap pre

theorem Admits.imp (h : Admits fresh r ts fault) (hr : ∀ ts rest, r ts rest → r' ts rest) :
    Admits fresh r' ts fault := by
  intro rest expected hfault k hk
  obtain ⟨gap, pre, hts, hpre, hgap, htakes⟩ := h rest expected hfault k hk
  exact ⟨gap, pre, hts, hpre,
    hgap.imp_right fun ⟨hgap, hneeds⟩ => ⟨hgap, hneeds.imp fun _ hbefore => hbefore.imp hr⟩,
    htakes.imp hr⟩

theorem Admits.weaken (h : Admits fresh r ts fault) : Admits (fun _ => True) r ts fault := by
  intro rest expected hfault k hk
  obtain ⟨gap, pre, hts, -, htakes⟩ := h rest expected hfault k hk
  exact ⟨gap, pre, hts, fun _ => trivial, htakes⟩

/-- Where nothing has been read, there is a phrase for each kind that it may start with. -/
theorem admits_start (hfresh : fresh expected) (hstarts : expected ⊆ Term.starts)
    (hmore : ∀ k ∈ expected, ∃ more, Token.Begins k more ∧
      ∀ tail, EndsRun tail → r (more ++ tail) tail) :
    Admits fresh r ts (.unexpected ts expected) := by
  intro rest expected hfault k hk
  cases hfault
  obtain ⟨more, hbegins, hread⟩ := hmore k hk
  refine ⟨"", [], rfl, fun _ => hfresh, Or.inl rfl, more, ?_, hread⟩
  exact ⟨hbegins.segmented, hbegins.firm, ⟨more, hbegins, by simp⟩,
    Or.inr ⟨rfl, rfl, hbegins.starts, hstarts hk⟩⟩

/-- Where some tokens have been read, others are put behind them. -/
theorem admits_append (hseg : Segmented (us ++ rest)) (hus : us ≠ [])
    (hmore : ∀ k ∈ expected, ∃ more, Token.Begins k more ∧
      (∀ t ∈ us.getLast?, ∀ u ∈ more.head?, Apart t u) ∧
      ∀ tail, EndsRun tail → r (us ++ (more ++ tail)) tail) :
    Admits fresh r (us ++ rest) (.unexpected rest expected) := by
  intro rest expected hfault k hk
  cases hfault
  obtain ⟨more, hbegins, hborder, hread⟩ := hmore k hk
  refine ⟨"", us, rfl, fun hnil => absurd hnil hus, Or.inl rfl, us ++ more,
    extends_append (Token.segmented_append.mp hseg).1 hus hbegins hborder, ?_⟩
  intro tail htail
  rw [List.append_assoc]
  exact hread tail htail

/-- Further tokens behind what is complete otherwise. -/
theorem Admits.append_right (h : Admits fresh r ts fault) (hmore : Segmented more)
    (hfirm : Firm more) (hends : EndsRun more) (hr : ∀ ts tail, r ts (more ++ tail) → r' ts tail) :
    Admits fresh r' ts fault := by
  intro rest expected hfault k hk
  obtain ⟨gap, pre, hts, hpre, hgap, htakes⟩ := h rest expected hfault k hk
  refine ⟨gap, pre, hts, hpre, ?_, htakes.append_right hmore hfirm hends hr⟩
  exact hgap.imp_right fun ⟨hgap, hneeds⟩ =>
    ⟨hgap, hneeds.imp fun _ hbefore => hbefore.append_right hmore hfirm hends hr⟩

/-- What starts a term can stand right behind anything but a word or a number. -/
theorem Token.LastNot.apart_of_mem_starts (h : LastNot [.word, .number, .backslash] us)
    (hk : k ∈ Term.starts) : ∀ t ∈ us.getLast?, ∀ u : Token, u.kind = k → Apart t u := by
  intro t ht u hu
  have hkind := h t ht
  simp only [List.mem_cons, List.not_mem_nil, or_false, not_or] at hkind
  refine ⟨hkind.2.2, ?_⟩
  intro hrun heq
  rw [hu] at heq
  revert hk hkind hrun
  rw [heq]
  cases k <;> decide

/-- Tokens in front, after which anything may come that starts a term. -/
theorem admits_append_left (hseg : Segmented (us ++ ts)) (hne : us ≠ [])
    (h : Segmented ts → Admits fresh r ts fault) (hus : LastNot [.word, .number, .backslash] us)
    (hr : ∀ ts rest, r ts rest → r' (us ++ ts) rest) : Admits fresh' r' (us ++ ts) fault := by
  intro rest expected hfault k hk
  obtain ⟨gap, pre, rfl, -, hgap, htakes⟩ :=
    h (Token.segmented_append.mp hseg).2.1 rest expected hfault k hk
  refine ⟨gap, us ++ pre, by simp, ?_, ?_, htakes.append_left hseg ?_ hr⟩
  · intro hnil
    exact absurd (List.append_eq_nil_iff.mp hnil).1 hne
  · rcases hgap with hgap | ⟨rfl, hneeds⟩
    · exact Or.inl hgap
    · refine Or.inr ⟨rfl, hneeds.append_left ?_ us ?_⟩
      · rintro rfl
        obtain ⟨full, hfull, -⟩ := htakes
        exact absurd hfull.of_nil.1 (by decide)
      · rintro before ⟨after, rfl⟩ hbefore
        rw [List.append_assoc] at hseg
        exact hbefore.append_left hseg (fun hnil => absurd hnil hbefore.ne_nil_of_ampersand) hr
  · rintro rfl
    obtain ⟨full, hfull, -⟩ := htakes
    exact hus.apart_of_mem_starts hfull.of_nil.2.2

/-! ### Delimiters that are not closed -/

section Delimited

variable {delimiter : Kind} {opening : Token} {inner : List Token} {c : Char}
  (hopening : opening.kind = delimiter) (hinner : ∀ t ∈ inner, t.kind ≠ delimiter)
  (hseg : Segmented (opening :: inner)) (hrun : delimiter.isRun = false)
  (hkind : delimiter.isSpace = false ∧ delimiter ≠ .backslash)

include hopening hinner hseg hrun hkind

/-- Behind a backslash the delimiter is escaped, and closes if it comes twice. -/
theorem Delimited.exists_escaped (hc : c ∈ delimiter.symbols)
    (hlast : ∃ t ∈ inner.getLast?, t.kind = .backslash) :
    ∃ full, Extends delimiter "" (opening :: inner) full ∧
      ∀ tail, (Delimited delimiter).Spans (full ++ tail) tail := by
  obtain ⟨b, hb, hback⟩ := hlast
  obtain ⟨inner, rfl⟩ := List.getLast?_eq_some_iff.mp hb
  obtain ⟨hlexical, hseginner, -⟩ := Token.segmented_cons.mp hseg
  have hfirm : Firm [opening] := firm_singleton hopening hkind
  have hsegopen : Segmented [opening] :=
    Token.segmented_cons.mpr ⟨hlexical, Token.segmented_nil, by simp⟩
  have hapart : ∀ u : Token, Apart opening u := by
    intro u
    rw [Apart, hopening, hrun]
    exact ⟨hkind.2, by simp⟩
  obtain ⟨d, hd, hsymbol⟩ : ∃ d ∈ delimiter.symbols, opening.text.toList = [d] := by
    apply (Kind.holds_iff_of_mem_symbols hc).mp
    rw [← hopening]
    exact hlexical.2
  -- the backslash and the first delimiter are part of a word
  obtain ⟨us, w, hsegw, hw, hsub, hchars⟩ := hseginner.exists_word d hback
  have hlastw : LastNot [.backslash] (us ++ [w]) :=
    Token.lastNot_of_suffix (List.suffix_append _ _) (by simp [hw])
  have hinner' : ∀ t ∈ us ++ [w], t.kind ≠ delimiter := by
    intro t ht
    rcases List.mem_append.mp ht with ht | ht
    · exact hinner t (List.mem_append_left _ (hsub ht))
    · rw [List.mem_singleton.mp ht, hw]
      rintro rfl
      cases hrun
  refine ⟨opening :: ((us ++ [w]) ++ [opening]),
    ⟨?_, (hfirm.append (us ++ [w])).cons opening, ⟨[opening, opening], ?_, ?_⟩, Or.inl rfl⟩, ?_⟩
  · refine Token.segmented_cons.mpr ⟨hlexical, Token.segmented_append.mpr
      ⟨hsegw, hsegopen, hlastw.apart (by simpa [hopening] using hrun)⟩, fun u _ => hapart u⟩
  · exact ⟨Token.segmented_cons.mpr ⟨hlexical, hsegopen, fun u _ => hapart u⟩,
      hfirm.cons opening, Token.startsWith_cons.mpr (List.mem_singleton.mpr hopening)⟩
  · rw [Token.chars_cons, Token.chars_append, hchars]
    simp [hsymbol]
  · intro tail
    refine ⟨us ++ [w], ?_⟩
    simpa using Delimited.mk hopening hinner' hopening

theorem Delimited.exists_closed (hlast : LastNot [.backslash] inner) :
    ∃ full, Extends delimiter "" (opening :: inner) full ∧
      ∀ tail, (Delimited delimiter).Spans (full ++ tail) tail := by
  have hfirm : Firm [opening] := firm_singleton hopening hkind
  have hlexical := (Token.segmented_cons.mp hseg).1
  have hbegins : Token.Begins delimiter [opening] :=
    ⟨Token.segmented_cons.mpr ⟨hlexical, Token.segmented_nil, by simp⟩, hfirm,
      Token.startsWith_cons.mpr (List.mem_singleton.mpr hopening)⟩
  have hall : LastNot [.backslash] (opening :: inner) := hfirm.lastNot.append hlast
  refine ⟨(opening :: inner) ++ [opening], extends_append hseg (by simp) hbegins
    (hall.apart (by simpa [hopening] using hrun)), ?_⟩
  intro tail
  refine ⟨inner, ?_⟩
  simpa using Delimited.mk hopening hinner hopening

end Delimited

theorem Delimited.Breaks.admits {delimiter : Kind} {c : Char}
    (h : Delimited.Breaks delimiter ts fault) (hseg : Segmented ts) (hc : c ∈ delimiter.symbols)
    (hrun : delimiter.isRun = false) (hkind : delimiter.isSpace = false ∧ delimiter ≠ .backslash) :
    Admits fresh (Delimited delimiter).Spans ts fault := by
  cases h with
  | @mk opening inner hopening hinner =>
      have hfull : ∃ full, Extends delimiter "" (opening :: inner) full ∧
          ∀ tail, (Delimited delimiter).Spans (full ++ tail) tail := by
        by_cases hlast : ∃ t ∈ inner.getLast?, t.kind = .backslash
        · exact Delimited.exists_escaped hopening hinner hseg hrun hkind hc hlast
        · refine Delimited.exists_closed hopening hinner hseg hrun hkind ?_
          intro t ht hmem
          exact hlast ⟨t, ht, List.mem_singleton.mp hmem⟩
      obtain ⟨full, hextends, hread⟩ := hfull
      intro rest expected hfault k hk
      cases hfault
      cases List.mem_singleton.mp hk
      exact ⟨"", opening :: inner, by simp, nofun, Or.inl rfl, full, hextends,
        fun tail _ => hread tail⟩

/-! ### Ranges -/

/-- A token of a kind that bare runs are made of. -/
def Token.sample : Kind → Token
  | .number => ⟨.number, "1"⟩
  | .dot => ⟨.dot, "."⟩
  | .minus => ⟨.minus, "-"⟩
  | .wildcard => ⟨.wildcard, "*"⟩
  | _ => filler

theorem Token.kind_sample (hk : k ∈ Literal.bareKinds) : (Token.sample k).kind = k := by
  revert hk
  cases k <;> decide

theorem Token.begins_sample (hk : k ∈ Literal.bareKinds) : Token.Begins k [Token.sample k] := by
  refine ⟨?_, ?_, Token.startsWith_cons.mpr (List.mem_singleton.mpr (Token.kind_sample hk))⟩
  · revert hk
    cases k <;> decide
  · refine firm_singleton (Token.kind_sample hk) ?_
    revert hk
    cases k <;> decide

theorem Literal.derives_sample (hk : k ∈ Literal.bareKinds) (h : EndsRun rest) :
    Literal.Derives (Token.sample k :: rest) (.bare [Token.sample k]) rest := by
  have hrun : Fragments Literal.bareKinds ([Token.sample k] ++ rest) [Token.sample k] rest := by
    refine .mk (by simp) ?_ h
    simpa [Token.kind_sample hk] using hk
  exact .bare hrun

/-- A phrase with nothing in it. -/
def Literal.emptyPhrase : List Token := [⟨.quote, "\""⟩, ⟨.quote, "\""⟩]

theorem Literal.begins_emptyPhrase : Token.Begins .quote Literal.emptyPhrase :=
  ⟨by decide, (firm_singleton rfl (by decide)).cons _, rfl⟩

theorem Literal.derives_emptyPhrase (rest : List Token) :
    Literal.Derives (Literal.emptyPhrase ++ rest) (.phrase []) rest := by
  have hinner : Delimited .quote (⟨.quote, "\""⟩ :: ([] ++ ⟨.quote, "\""⟩ :: rest)) [] rest :=
    .mk rfl (by simp) rfl
  exact .phrase hinner

theorem Literal.exists_begins (hk : k ∈ .quote :: Literal.bareKinds) :
    ∃ more, Token.Begins k more ∧
      ∀ tail, EndsRun tail → Literal.Derives.Spans (more ++ tail) tail := by
  rcases List.mem_cons.mp hk with rfl | hk
  · exact ⟨_, Literal.begins_emptyPhrase, fun tail _ => ⟨_, Literal.derives_emptyPhrase tail⟩⟩
  · exact ⟨_, Token.begins_sample hk, fun tail htail => ⟨_, Literal.derives_sample hk htail⟩⟩

/-- Every literal is a side of a range. -/
theorem Side.spans_of_literal (h : Literal.Derives.Spans ts rest) : Side.Derives.Spans ts rest := by
  obtain ⟨l, hl⟩ := h
  by_cases hstar : l = .bare [⟨.wildcard, "*"⟩]
  · subst hstar
    exact ⟨_, .unbounded hl⟩
  · exact ⟨_, .literal hl hstar⟩

theorem Side.Breaks.admits (h : Side.Breaks ts fault) (hseg : Segmented ts) :
    Admits (fun _ => True) Side.Derives.Spans ts fault := by
  cases h with
  | start =>
      refine admits_start trivial (by decide) ?_
      intro k hk
      obtain ⟨more, hbegins, hread⟩ := Literal.exists_begins hk
      exact ⟨more, hbegins, fun tail htail => Side.spans_of_literal (hread tail htail)⟩
  | phrase hphrase =>
      apply (hphrase.admits hseg List.mem_cons_self rfl (by decide)).imp
      intro ts rest hinner
      obtain ⟨inner, hinner⟩ := hinner
      exact Side.spans_of_literal ⟨_, .phrase hinner⟩

namespace Interval

theorem begins_bracket : Token.Begins .rightBracket bracket :=
  ⟨by decide, firm_bracket, rfl⟩

theorem begins_remainder : Token.Begins .word remainder :=
  ⟨by decide, firm_bracket.append [_, _, _], rfl⟩

theorem begins_remainderSpaced : Token.Begins .blank remainderSpaced :=
  ⟨by decide, firm_remainderSpaced, rfl⟩

theorem RightBreaks.admits (h : RightBreaks ts fault) (hseg : Segmented ts) :
    Admits (fun _ => True) Right ts fault := by
  cases h with
  | side hside =>
      refine (hside.admits hseg).append_right (by decide) firm_bracket (endsRun_bracket []) ?_
      intro ts tail hright
      obtain ⟨right, hright⟩ := hright
      exact .mk hright .none (by decide)
  | closing hright hspaces _ =>
      obtain ⟨phrase, rfl, hfirm, hreplay⟩ := hright.replay
      obtain ⟨gap, rfl, hgap⟩ := spaces_iff.mp hspaces
      have hlast : LastNot [.backslash] (phrase ++ gap) :=
        hfirm.lastNot.append (Token.lastNot_of_forall_isSpace hgap (by decide))
      have hclose : ∀ closing : Token, closing.kind ∈ [.rightBracket, .rightBrace] →
          ∀ tail, Right ((phrase ++ gap) ++ ([closing] ++ tail)) tail := by
        intro closing hclosing tail
        have hspaces' : Spaces (gap ++ closing :: tail) (closing :: tail) := spaces_append hgap _
        have hends : EndsRun (closing :: tail) := by
          refine endsRun_cons rfl ?_
          revert hclosing
          cases closing.kind <;> decide
        rw [List.append_assoc]
        exact .mk (hreplay _ (Or.inr (.of_spaces hspaces' hends))) hspaces' hclosing
      rw [← List.append_assoc] at hseg ⊢
      refine admits_append hseg (by simp [hfirm.ne_nil]) ?_
      intro k hk
      simp only [List.mem_cons, List.not_mem_nil, or_false] at hk
      rcases hk with rfl | rfl
      · exact ⟨bracket, begins_bracket, hlast.apart (by decide),
          fun tail _ => hclose _ (by simp) tail⟩
      · refine ⟨[⟨.rightBrace, "\x7d"⟩], ⟨by decide, firm_singleton rfl (by decide), rfl⟩,
          hlast.apart (by decide), fun tail _ => hclose _ (by simp) tail⟩

theorem ToBreaks.admits (h : ToBreaks ts fault) (hseg : Segmented ts) :
    Admits (fun _ => True) To ts fault := by
  cases h with
  | word =>
      refine admits_start trivial (by decide) ?_
      intro k hk
      rw [List.mem_singleton.mp hk]
      exact ⟨remainder, begins_remainder, fun tail _ => to_remainder tail⟩
  | @space between us hto htext _ =>
      have hbetween : Firm [between] := firm_singleton hto (by decide)
      have hbegins : Token.Begins .blank (⟨.blank, " "⟩ :: filler :: bracket) :=
        ⟨by decide, firm_bracket.append [_, _], rfl⟩
      change Admits _ To ([between] ++ us) _
      refine admits_append hseg (by simp) ?_
      intro k hk
      rw [List.mem_singleton.mp hk]
      refine ⟨_, hbegins, hbetween.apart (endsRun_cons rfl (by decide)), ?_⟩
      intro tail _
      exact .mk hto htext (.mk rfl .none) (right_filler tail)
  | @right between us start _ hto htext hspaces hright =>
      obtain ⟨gap, hne, rfl, hgap⟩ := someSpaces_iff.mp hspaces
      have hlast : LastNot [.word, .number, .backslash] ([between] ++ gap) :=
        Token.lastNot_append_spaces hne hgap (by decide)
      change Admits _ To (([between] ++ gap) ++ start) _
      apply admits_append_left hseg (by simp) hright.admits hlast
      intro ts rest hright'
      exact .mk hto htext (someSpaces_iff.mpr ⟨gap, hne, rfl, hgap⟩) hright'

theorem LeftBreaks.admits (h : LeftBreaks ts fault) (hseg : Segmented ts) :
    Admits (fun _ => True) Left ts fault := by
  cases h with
  | side hside =>
      refine (hside.admits hseg).append_right (by decide) firm_remainderSpaced
        (endsRun_remainderSpaced []) ?_
      intro ts tail hleft
      obtain ⟨left, hleft⟩ := hleft
      exact .mk hleft (.mk rfl .none) (to_remainder tail)
  | space hleft _ =>
      obtain ⟨phrase, rfl, hphrase, hreplay⟩ := hleft.replay
      refine admits_append hseg hphrase.ne_nil ?_
      intro k hk
      rw [List.mem_singleton.mp hk]
      refine ⟨_, begins_remainderSpaced, hphrase.apart (endsRun_remainderSpaced []), ?_⟩
      intro tail _
      exact .mk (hreplay _ (Or.inr (endsRun_remainderSpaced tail))) (.mk rfl .none)
        (to_remainder tail)
  | @next _ _ start _ _ hleft hspaces hto =>
      obtain ⟨phrase, rfl, hphrase, hreplay⟩ := hleft.replay
      obtain ⟨gap, hne, rfl, hgap⟩ := someSpaces_iff.mp hspaces
      have hlast : LastNot [.word, .number, .backslash] (phrase ++ gap) :=
        Token.lastNot_append_spaces hne hgap (by decide)
      rw [← List.append_assoc] at hseg ⊢
      apply admits_append_left hseg (by simp [hne]) hto.admits hlast
      intro ts rest hto'
      rw [List.append_assoc]
      exact .mk (hreplay _ (kept_append hne start ts))
        (someSpaces_iff.mpr ⟨gap, hne, rfl, hgap⟩) hto'

theorem Breaks.admits (h : Interval.Breaks ts fault) (hseg : Segmented ts) :
    Admits fresh Interval.Derives.Spans ts fault := by
  cases h with
  | @mk opening _ start _ hopening hspaces hleft =>
      obtain ⟨gap, rfl, hgap⟩ := spaces_iff.mp hspaces
      have hbracket : LastNot [.word, .number, .backslash] [opening] := by
        simp only [List.mem_cons, List.not_mem_nil, or_false] at hopening
        rcases hopening with hkind | hkind <;> exact Token.lastNot_singleton hkind (by decide)
      have hlast : LastNot [.word, .number, .backslash] ([opening] ++ gap) :=
        hbracket.append (Token.lastNot_of_forall_isSpace hgap (by decide))
      change Admits _ Interval.Derives.Spans (([opening] ++ gap) ++ start) _
      apply admits_append_left hseg (by simp) hleft.admits hlast
      intro ts rest hleft'
      exact exists_derives_iff.mpr
        ⟨opening, gap ++ ts, ts, rfl, hopening, spaces_append hgap _, hleft'⟩

/-- A whole interval, by its opening bracket. -/
theorem exists_begins (hk : k ∈ [.leftBracket, .leftBrace]) :
    ∃ more, Token.Begins k more ∧ ∀ tail, Interval.Derives.Spans (more ++ tail) tail := by
  have hleft : ∀ tail, Left (filler :: (remainderSpaced ++ tail)) tail := fun tail =>
    .mk (Side.derives_filler (endsRun_remainderSpaced tail)) (.mk rfl .none) (to_remainder tail)
  have hfirm : Firm (filler :: remainderSpaced) := firm_remainderSpaced.cons filler
  simp only [List.mem_cons, List.not_mem_nil, or_false] at hk
  rcases hk with rfl | rfl
  · refine ⟨⟨.leftBracket, "["⟩ :: filler :: remainderSpaced, ⟨by decide, hfirm.cons _, rfl⟩, ?_⟩
    exact fun tail => exists_derives_iff.mpr ⟨_, _, _, rfl, by decide, .none, hleft tail⟩
  · refine ⟨⟨.leftBrace, "\x7b"⟩ :: filler :: remainderSpaced,
      ⟨by decide, hfirm.cons _, rfl⟩, ?_⟩
    exact fun tail => exists_derives_iff.mpr ⟨_, _, _, rfl, by decide, .none, hleft tail⟩

end Interval

/-! ### Elements -/

theorem Element.exists_begins (hk : k ∈ Element.starts) :
    ∃ more, Token.Begins k more ∧
      ∀ tail, EndsRun tail → Element.Derives.Spans (more ++ tail) tail := by
  have hcases : k ∈ .quote :: Literal.bareKinds ∨ k = .comparison ∨
      k ∈ [.leftBracket, .leftBrace] := by
    revert hk
    cases k <;> decide
  rcases hcases with hk | rfl | hk
  · obtain ⟨more, hbegins, hread⟩ := Literal.exists_begins hk
    refine ⟨more, hbegins, ?_⟩
    intro tail htail
    obtain ⟨l, hl⟩ := hread tail htail
    exact ⟨_, .literal hl⟩
  · refine ⟨[⟨.comparison, "<"⟩, filler], ⟨by decide, Token.firm_filler.cons _, rfl⟩, ?_⟩
    intro tail htail
    have hrange : Range.Derives (⟨.comparison, "<"⟩ :: filler :: tail) (.comparison .lt _) tail :=
      .comparison rfl rfl (Side.derives_filler htail)
    exact ⟨_, .range hrange⟩
  · obtain ⟨more, hbegins, hread⟩ := Interval.exists_begins hk
    refine ⟨more, hbegins, ?_⟩
    intro tail _
    obtain ⟨i, hi⟩ := hread tail
    exact ⟨_, .range (.interval hi)⟩

theorem Element.Breaks.admits (h : Element.Breaks ts fault) (hseg : Segmented ts) :
    Admits fresh Element.Derives.Plain ts fault := by
  have hplain : ∀ {ts rest} {e : Element}, Element.Derives ts e rest →
      Token.startsWith [.quote, .comparison, .leftBracket, .leftBrace] ts = true →
        Element.Derives.Plain ts rest :=
    fun he hstart => Production.plain_of_startsWith he hstart (by decide)
  cases h with
  | phrase hphrase =>
      apply (hphrase.admits hseg List.mem_cons_self rfl (by decide)).imp
      intro ts rest hinner
      obtain ⟨inner, hinner⟩ := hinner
      exact hplain (.literal (.phrase hinner)) (Token.startsWith_mono (by simp) hinner.startsWith)
  | range hrange =>
      cases hrange with
      | @comparison t us op _ ht htext hside =>
          have hlast : LastNot [.word, .number, .backslash] [t] :=
            Token.lastNot_singleton ht (by decide)
          change Admits _ _ ([t] ++ us) _
          apply admits_append_left hseg (by simp) hside.admits hlast
          intro ts rest hvalue
          obtain ⟨value, hvalue⟩ := hvalue
          exact hplain (.range (.comparison ht htext hvalue))
            (Token.startsWith_cons.mpr (by simp [ht]))
      | unknown => exact nofun
      | interval hi =>
          apply (hi.admits hseg).imp
          intro ts rest hi'
          obtain ⟨i, hi'⟩ := hi'
          exact hplain (.range (.interval hi')) (Token.startsWith_mono (by simp) hi'.startsWith)

/-- No NOT stands where an element starts with any of these tokens. -/
theorem Element.exists_begins_plain (hk : k ∈ Element.starts) :
    ∃ more, Token.Begins k more ∧
      ∀ tail, EndsRun tail → Element.Derives.Plain (more ++ tail) tail := by
  by_cases hword : k = .word
  · subst hword
    refine ⟨[filler], Token.begins_sample (by decide), ?_⟩
    intro tail htail
    exact ⟨_, .plain (fun _ => Token.not_stands_filler) (.literal (Literal.derives_filler htail))⟩
  · obtain ⟨more, hbegins, hread⟩ := Element.exists_begins hk
    refine ⟨more, hbegins, ?_⟩
    intro tail htail
    obtain ⟨e, he⟩ := hread tail htail
    obtain ⟨t, us, rfl, hkind⟩ := hbegins.exists_cons
    refine Production.plain_of_startsWith he
      (Token.startsWith_cons.mpr (List.mem_singleton.mpr hkind)) ?_
    intro k' hk'
    rw [List.mem_singleton.mp hk']
    revert hk hword
    cases k <;> decide

end SearchQuery
