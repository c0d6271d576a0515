import SearchQuery.Proofs.Grammar.Phrase
import SearchQuery.Reader.Formula

/-!
Readers and productions of formulas. Whatever a formula's reader takes has a derivation; and a
derivation that stops where the formula could not go on is found, though the reader commits to the
first operator that it sees.
-/

namespace SearchQuery

open Token (Kind)

variable {α β γ C D : Type}

/-! ### Repetition -/

theorem Many.imp {p q : Production α} {ts rest : List Token} {as : List α}
    (h : ∀ a ∈ as, ∀ ts rest, p ts a rest → q ts a rest) (hmany : Many p ts as rest) :
    Many q ts as rest := by
  induction hmany with
  | nil => exact .nil
  | cons ha _ ih =>
      refine .cons (h _ List.mem_cons_self _ _ ha) (ih ?_)
      intro a hmem
      exact h a (List.mem_cons_of_mem _ hmem)

theorem Many.suffix {p : Production α} {ts rest : List Token} {as : List α}
    (hp : ∀ {ts a rest}, p ts a rest → rest <:+ ts) (h : Many p ts as rest) : rest <:+ ts := by
  induction h with
  | nil => exact List.suffix_refl _
  | cons ha _ ih => exact ih.trans (hp ha)

theorem Many.exists_of_mem {p : Production α} {ts rest : List Token} {as : List α}
    (hp : ∀ {ts a rest}, p ts a rest → rest <:+ ts) (h : Many p ts as rest) {a : α} (ha : a ∈ as) :
    ∃ us mid, us <:+ ts ∧ p us a mid := by
  induction h with
  | nil => simp at ha
  | cons hb _ ih =>
      rcases List.mem_cons.mp ha with rfl | ha
      · exact ⟨_, _, List.suffix_refl _, hb⟩
      · obtain ⟨us, mid, hus, hread⟩ := ih ha
        exact ⟨us, mid, hus.trans (hp hb), hread⟩

/-- The phrases that one round of a repetition takes. -/
def Reader.Round (ahead : Lookahead γ) (item : γ → Reader α) : Production α :=
  fun ts a rest => ∃ g start, ahead.find? ts = some (g, start) ∧ (item g).Reads start a rest

/-- A repetition goes on as long as its test finds something. -/
theorem Reader.many_eq_ok_iff {ahead : Lookahead γ} {item : γ → Reader α} {ts rest : List Token}
    {items : List α} :
    Reader.many ahead item ts = .ok (items, rest) ↔
      Many (Reader.Round ahead item) ts items rest ∧ ahead.find? rest = none := by
  constructor
  · intro h
    fun_induction Reader.many ahead item ts generalizing items rest with
    | case1 ts hnone =>
        cases h
        exact ⟨.nil, hnone⟩
    | case2 => cases h
    | case3 ts g start hahead a mid hread hlt ih =>
        obtain ⟨tail, htail, rfl⟩ := Outcome.map_eq_ok_iff.mp h
        obtain ⟨hmany, hnone⟩ := ih htail
        exact ⟨.cons ⟨g, start, hahead, hread⟩ hmany, hnone⟩
  · rintro ⟨hmany, hnone⟩
    induction hmany with
    | nil =>
        rw [Reader.many_eq]
        simp [hnone]
    | cons ha _ ih =>
        obtain ⟨g, start, hahead, hread⟩ := ha
        rw [Reader.many_eq]
        simp only [hahead, Outcome.andThen_eq_ok_iff, Outcome.map_eq_ok_iff]
        exact ⟨_, _, hread, _, ih hnone, rfl⟩

theorem Reader.reads_withMany_iff {first : Reader α} {ahead : Lookahead γ} {item : γ → Reader β}
    {ts rest : List Token} {a : α} {items : List β} :
    (first.withMany ahead item).Reads ts (a, items) rest ↔
      ∃ mid, first.Reads ts a mid ∧ Many (Reader.Round ahead item) mid items rest ∧
        ahead.find? rest = none := by
  simp only [Reads, withMany, andThen, Outcome.andThen_eq_ok_iff, Outcome.map_eq_ok_iff,
    many_eq_ok_iff, Prod.mk.injEq]
  constructor
  · rintro ⟨_, mid, hfirst, _, hmany, rfl, rfl⟩
    exact ⟨mid, hfirst, hmany⟩
  · rintro ⟨mid, hfirst, hmany⟩
    exact ⟨a, mid, hfirst, items, hmany, rfl, rfl⟩

theorem Reader.reads_enclosed_iff {inner : Reader α} {ts rest : List Token} {a : α} :
    inner.enclosed.Reads ts a rest ↔
      ∃ opening closing us stop, ts = opening :: us ∧ opening.kind = .leftParen ∧
        inner.Reads (Token.skipSpace us) a stop ∧ Token.skipSpace stop = closing :: rest ∧
        closing.kind = .rightParen := by
  simp only [Reads, enclosed, Outcome.andThen_eq_ok_iff, Outcome.map_eq_ok_iff,
    Token.expect_eq_ok_iff, List.mem_singleton]
  constructor
  · rintro ⟨opening, us, ⟨rfl, hopening⟩, _, stop, hinner, closing, ⟨hclose, hclosing⟩, rfl⟩
    exact ⟨opening, closing, us, stop, rfl, hopening, hinner, hclose, hclosing⟩
  · rintro ⟨opening, closing, us, stop, rfl, hopening, hinner, hclose, hclosing⟩
    exact ⟨opening, us, ⟨rfl, hopening⟩, a, stop, hinner, closing, ⟨hclose, hclosing⟩, rfl⟩

/-! ### Replacing the production of clauses -/

section Imp

variable {p q : Production C} {ts rest : List Token}

theorem Operand.Derives.imp {o : Operand C} (h : ∀ ts, p ts o.clause rest → q ts o.clause rest)
    (ho : Operand.Derives p ts o rest) : Operand.Derives q ts o rest := by
  cases ho with
  | negated hnot hspaces hc => exact .negated hnot hspaces (h _ hc)
  | plain hnot hc => exact .plain hnot (h _ hc)

theorem Link.Derives.imp {l : Link C}
    (h : ∀ ts, p ts l.operand.clause rest → q ts l.operand.clause rest)
    (hl : Link.Derives p ts l rest) : Link.Derives q ts l rest := by
  cases hl with
  | explicit hspaces hand hspaces' ho => exact .explicit hspaces hand hspaces' (ho.imp h)
  | juxtaposed hspaces hnot ho => exact .juxtaposed hspaces hnot (ho.imp h)

theorem Branch.Derives.imp {b : Branch C}
    (h : ∀ c ∈ b.clauses, ∀ ts rest, p ts c rest → q ts c rest)
    (hb : Branch.Derives p ts b rest) : Branch.Derives q ts b rest := by
  cases hb with
  | mk ho hls =>
      refine .mk (ho.imp fun ts => h _ ?_ ts _) (hls.imp ?_)
      · simp [Branch.clauses, Branch.operands]
      · intro l hl ts rest hlink
        refine hlink.imp fun ts => h _ ?_ ts _
        simp only [Branch.clauses, Branch.operands, List.map_cons, List.map_map, List.mem_cons,
          List.mem_map, Function.comp_apply]
        exact Or.inr ⟨l, hl, rfl⟩

theorem Formula.Derives.imp {e : Formula C}
    (h : ∀ c ∈ e.clauses, ∀ ts rest, p ts c rest → q ts c rest)
    (he : Formula.Derives p ts e rest) : Formula.Derives q ts e rest := by
  cases he with
  | mk hb hbs =>
      have hmem : ∀ b c, b ∈ Formula.branches ⟨_, _⟩ → c ∈ b.clauses → _ :=
        fun b c hb hc => h c (List.mem_flatMap.mpr ⟨b, hb, hc⟩)
      refine .mk (hb.imp fun c => hmem _ c List.mem_cons_self) (hbs.imp ?_)
      intro b hb ts rest hnext
      obtain ⟨hspaces, hor, hspaces', hbranch⟩ := hnext
      exact .mk hspaces hor hspaces' (hbranch.imp fun c => hmem b c (List.mem_cons_of_mem _ hb))

end Imp

/-! ### Where clauses stand -/

section Suffix

variable {p : Production C} {ts rest : List Token}

theorem Operand.Derives.exists_clause {o : Operand C} (h : Operand.Derives p ts o rest) :
    ∃ us, us <:+ ts ∧ p us o.clause rest := by
  cases h with
  | negated hnot hspaces hc => exact ⟨_, hspaces.suffix.trans hnot.suffix, hc⟩
  | plain _ hc => exact ⟨_, List.suffix_refl _, hc⟩

theorem Link.Derives.exists_operand {l : Link C} (h : Link.Derives p ts l rest) :
    ∃ us, us <:+ ts ∧ Operand.Derives p us l.operand rest := by
  cases h with
  | explicit hspaces hand hspaces' ho =>
      exact ⟨_, (hspaces'.suffix.trans hand.suffix).trans hspaces.suffix, ho⟩
  | juxtaposed hspaces _ ho => exact ⟨_, hspaces.spaces.suffix, ho⟩

theorem Branch.DerivesNext.exists_branch {b : Branch C} (h : Branch.DerivesNext p ts b rest) :
    ∃ us, us <:+ ts ∧ Branch.Derives p us b rest := by
  obtain ⟨hspaces, hor, hspaces', hb⟩ := h
  exact ⟨_, (hspaces'.suffix.trans hor.suffix).trans hspaces.suffix, hb⟩

variable (hp : ∀ {ts c rest}, p ts c rest → rest <:+ ts)

include hp

theorem Operand.Derives.suffix {o : Operand C} (h : Operand.Derives p ts o rest) :
    rest <:+ ts := by
  obtain ⟨us, hus, hc⟩ := h.exists_clause
  exact (hp hc).trans hus

theorem Link.Derives.suffix {l : Link C} (h : Link.Derives p ts l rest) : rest <:+ ts := by
  obtain ⟨us, hus, ho⟩ := h.exists_operand
  exact (ho.suffix hp).trans hus

theorem Branch.Derives.suffix {b : Branch C} (h : Branch.Derives p ts b rest) : rest <:+ ts := by
  obtain ⟨ho, hls⟩ := h
  exact (hls.suffix (Link.Derives.suffix hp)).trans (ho.suffix hp)

theorem Branch.DerivesNext.suffix {b : Branch C} (h : Branch.DerivesNext p ts b rest) :
    rest <:+ ts := by
  obtain ⟨us, hus, hb⟩ := h.exists_branch
  exact (hb.suffix hp).trans hus

theorem Formula.Derives.suffix {e : Formula C} (h : Formula.Derives p ts e rest) :
    rest <:+ ts := by
  obtain ⟨hb, hbs⟩ := h
  exact (hbs.suffix (Branch.DerivesNext.suffix hp)).trans (hb.suffix hp)

theorem Branch.Derives.exists_of_mem {b : Branch C} {c : C} (h : Branch.Derives p ts b rest)
    (hc : c ∈ b.clauses) : ∃ us mid, us <:+ ts ∧ p us c mid := by
  obtain ⟨ho, hls⟩ := h
  simp only [Branch.clauses, Branch.operands, List.map_cons, List.map_map, List.mem_cons,
    List.mem_map, Function.comp_apply] at hc
  rcases hc with rfl | ⟨l, hl, rfl⟩
  · obtain ⟨us, hus, hclause⟩ := ho.exists_clause
    exact ⟨us, _, hus, hclause⟩
  · obtain ⟨vs, mid, hvs, hlink⟩ := hls.exists_of_mem (Link.Derives.suffix hp) hl
    obtain ⟨ws, hws, ho'⟩ := hlink.exists_operand
    obtain ⟨us, hus, hclause⟩ := ho'.exists_clause
    exact ⟨us, mid, ((hus.trans hws).trans hvs).trans (ho.suffix hp), hclause⟩

/-- Every clause of a formula stands somewhere in its tokens. -/
theorem Formula.Derives.exists_of_mem {e : Formula C} {c : C} (h : Formula.Derives p ts e rest)
    (hc : c ∈ e.clauses) : ∃ us mid, us <:+ ts ∧ p us c mid := by
  obtain ⟨hb, hbs⟩ := h
  obtain ⟨b, hmem, hcb⟩ := List.mem_flatMap.mp hc
  rcases List.mem_cons.mp hmem with rfl | hmem
  · exact hb.exists_of_mem hp hcb
  · obtain ⟨vs, mid, hvs, hnext⟩ := hbs.exists_of_mem (Branch.DerivesNext.suffix hp) hmem
    obtain ⟨ws, hws, hbranch⟩ := hnext.exists_branch
    obtain ⟨us, mid', hus, hclause⟩ := hbranch.exists_of_mem hp hcb
    exact ⟨us, mid', ((hus.trans hws).trans hvs).trans (hb.suffix hp), hclause⟩

end Suffix

/-! ### What formulas are read from -/

theorem Operand.derives_of_reads {clause : Reader C} {ts rest : List Token} {o : Operand C}
    (h : (Operand.reader clause).Reads ts o rest) : Operand.Derives clause.Reads ts o rest := by
  simp only [Reader.Reads, reader] at h
  split at h
  · next mid hstrip =>
      obtain ⟨c, hc, rfl⟩ := Outcome.map_eq_ok_iff.mp h
      exact .negated (Keyword.strip?_eq_some_iff.mp hstrip) (spaces_skipSpace mid) hc
  · next hstrip =>
      obtain ⟨c, hc, rfl⟩ := Outcome.map_eq_ok_iff.mp h
      refine .plain ?_ hc
      intro mid hstands
      rw [Keyword.strip?_eq_some_iff.mpr hstands] at hstrip
      cases hstrip

theorem Link.ahead?_eq_some_iff {ts start : List Token} {explicit : Bool} :
    Link.ahead? ts = some (explicit, start) ↔
      (explicit = true ∧ ∃ after, Keyword.and.Stands (Token.skipSpace ts) after ∧
          start = Token.skipSpace after) ∨
        explicit = false ∧ Token.startsWithSpace ts = true ∧ start = Token.skipSpace ts ∧
          ∃ after, Keyword.not.Stands start after := by
  unfold Link.ahead?
  cases hand : Keyword.and.strip? (Token.skipSpace ts) with
  | some after =>
      have hstands := Keyword.strip?_eq_some_iff.mp hand
      constructor
      · intro h
        cases h
        exact Or.inl ⟨rfl, after, hstands, rfl⟩
      · rintro (⟨rfl, after', hstands', rfl⟩ | ⟨-, -, rfl, after', hnot⟩)
        · rw [Keyword.strip?_eq_some_iff.mpr hstands'] at hand
          cases hand
          rfl
        · cases hstands.unique hnot
  | none =>
      have hnone : ∀ after, ¬ Keyword.and.Stands (Token.skipSpace ts) after := by
        intro after hstands
        rw [Keyword.strip?_eq_some_iff.mpr hstands] at hand
        cases hand
      simp only [Option.ite_none_right_eq_some, Bool.and_eq_true, Option.isSome_iff_exists,
        Keyword.strip?_eq_some_iff, Option.some.injEq, Prod.mk.injEq]
      constructor
      · rintro ⟨⟨hspace, hnot⟩, rfl, rfl⟩
        exact Or.inr ⟨rfl, hspace, rfl, hnot⟩
      · rintro (⟨-, after, hstands, -⟩ | ⟨rfl, hspace, rfl, hnot⟩)
        · exact absurd hstands (hnone after)
        · exact ⟨⟨hspace, hnot⟩, rfl, rfl⟩

theorem Branch.ahead?_eq_some_iff {ts start : List Token} {u : Unit} :
    Branch.ahead? ts = some (u, start) ↔
      ∃ after, Keyword.or.Stands (Token.skipSpace ts) after ∧ start = Token.skipSpace after := by
  simp only [Branch.ahead?, Option.map_eq_some_iff, Keyword.strip?_eq_some_iff, Prod.mk.injEq,
    true_and]
  simp only [eq_comm]

/-- The further operands that the reader of a branch takes. -/
abbrev Link.Round (clause : Reader C) : Production (Link C) :=
  Reader.Round Link.lookahead fun explicit => (Operand.reader clause).map (Link.mk explicit)

/-- The further branches that the reader of a formula takes. -/
abbrev Branch.Round (clause : Reader C) : Production (Branch C) :=
  Reader.Round Branch.lookahead fun _ => Branch.reader clause

theorem Link.derives_of_round {clause : Reader C} {ts rest : List Token} {l : Link C}
    (h : Link.Round clause ts l rest) : Link.Derives clause.Reads ts l rest := by
  obtain ⟨explicit, start, hahead, hread⟩ := h
  obtain ⟨o, ho, rfl⟩ := Reader.reads_map_iff.mp hread
  have ho := Operand.derives_of_reads ho
  rcases Link.ahead?_eq_some_iff.mp hahead with
    ⟨rfl, after, hand, rfl⟩ | ⟨rfl, hspace, rfl, after, hnot⟩
  · exact .explicit (spaces_skipSpace ts) hand (spaces_skipSpace after) ho
  · exact .juxtaposed (someSpaces_skipSpace hspace) hnot ho

theorem Branch.reads_reader_iff {clause : Reader C} {ts rest : List Token} {b : Branch C} :
    (Branch.reader clause).Reads ts b rest ↔
      ∃ mid, (Operand.reader clause).Reads ts b.head mid ∧
        Many (Link.Round clause) mid b.rest rest ∧ Link.ahead? rest = none := by
  simp only [reader, Reader.reads_map_iff, Prod.exists, Reader.reads_withMany_iff]
  constructor
  · rintro ⟨o, ls, h, rfl⟩
    exact h
  · intro h
    exact ⟨b.head, b.rest, h, rfl⟩

theorem Formula.reads_reader_iff {clause : Reader C} {ts rest : List Token} {e : Formula C} :
    (Formula.reader clause).Reads ts e rest ↔
      ∃ mid, (Branch.reader clause).Reads ts e.head mid ∧
        Many (Branch.Round clause) mid e.rest rest ∧ Branch.ahead? rest = none := by
  simp only [reader, Reader.reads_map_iff, Prod.exists, Reader.reads_withMany_iff]
  constructor
  · rintro ⟨b, bs, h, rfl⟩
    exact h
  · intro h
    exact ⟨e.head, e.rest, h, rfl⟩

theorem Branch.derives_of_reads {clause : Reader C} {ts rest : List Token} {b : Branch C}
    (h : (Branch.reader clause).Reads ts b rest) : Branch.Derives clause.Reads ts b rest := by
  obtain ⟨mid, ho, hls, -⟩ := Branch.reads_reader_iff.mp h
  exact .mk (Operand.derives_of_reads ho) (hls.imp fun _ _ _ _ => Link.derives_of_round)

theorem Branch.derivesNext_of_round {clause : Reader C} {ts rest : List Token} {b : Branch C}
    (h : Branch.Round clause ts b rest) : Branch.DerivesNext clause.Reads ts b rest := by
  obtain ⟨_, start, hahead, hread⟩ := h
  obtain ⟨after, hor, rfl⟩ := Branch.ahead?_eq_some_iff.mp hahead
  exact .mk (spaces_skipSpace ts) hor (spaces_skipSpace after) (Branch.derives_of_reads hread)

/-- What the reader of formulas takes has a derivation from the clauses that it takes. -/
theorem Formula.derives_of_reads {clause : Reader C} {ts rest : List Token} {e : Formula C}
    (h : (Formula.reader clause).Reads ts e rest) : Formula.Derives clause.Reads ts e rest := by
  obtain ⟨mid, hb, hbs, -⟩ := Formula.reads_reader_iff.mp h
  exact .mk (Branch.derives_of_reads hb) (hbs.imp fun _ _ _ _ => Branch.derivesNext_of_round)

/-! ### What follows clauses -/

/-- Nothing but space up to the end or to a closing parenthesis. -/
def Closes (ts : List Token) : Prop :=
  ∀ t ∈ (Token.skipSpace ts).head?, t.kind = .rightParen

theorem follows_of_startsWithSpace {ts : List Token} (h : Token.startsWithSpace ts = true) :
    Follows ts := by
  cases ts with
  | nil => simp [Token.startsWithSpace] at h
  | cons t ts =>
      intro u hu
      cases hu
      have hkind : t.kind.isSpace = true := by simpa [Token.startsWithSpace, Token.isSpace] using h
      revert hkind
      cases t.kind <;> decide

/-- Something that follows terms still does after space. -/
theorem Follows.of_spaces {ts rest : List Token} (hspaces : Spaces ts rest) (h : Follows rest) :
    Follows ts := by
  cases hspaces with
  | none => exact h
  | more ht _ => exact follows_of_startsWithSpace (by simpa [Token.startsWithSpace] using ht)

theorem Closes.follows {ts : List Token} (h : Closes ts) : Follows ts := by
  apply Follows.of_spaces (spaces_skipSpace ts)
  intro t ht
  simp [h t ht]

theorem Keyword.Stands.follows {k : Keyword} {ts rest : List Token} (h : k.Stands ts rest) :
    Follows ts := by
  obtain ⟨t, us, rfl, -, hkind, -⟩ := h.exists_cons
  intro u hu
  cases hu
  revert hkind
  cases t.kind <;> decide

theorem Keyword.Stands.skipSpace_eq {k : Keyword} {ts rest : List Token} (h : k.Stands ts rest) :
    Token.skipSpace ts = ts := by
  obtain ⟨t, us, rfl, ht, -⟩ := h.exists_cons
  exact skipSpace_eq_self (by simpa using ht)

theorem Link.Derives.follows {p : Production C} {ts rest : List Token} {l : Link C}
    (h : Link.Derives p ts l rest) : Follows ts := by
  cases h with
  | explicit hspaces hand => exact .of_spaces hspaces hand.follows
  | juxtaposed hspaces => exact follows_of_startsWithSpace hspaces.startsWithSpace

theorem Branch.DerivesNext.follows {p : Production C} {ts rest : List Token} {b : Branch C}
    (h : Branch.DerivesNext p ts b rest) : Follows ts := by
  obtain ⟨hspaces, hor, -, -⟩ := h
  exact .of_spaces hspaces hor.follows

/-- A clause, and something that may follow it. -/
def Followed (p : Production C) : Production C :=
  fun ts c rest => p ts c rest ∧ Follows rest

/-- What may follow a formula and does not go on with it. -/
structure Stops (ts : List Token) : Prop where
  follows : Follows ts
  link : Link.ahead? ts = none
  branch : Branch.ahead? ts = none

theorem Link.many_followed {p : Production C} {ts rest : List Token} {ls : List (Link C)}
    (h : Many (Link.Derives p) ts ls rest) (hrest : Follows rest) :
    Many (Link.Derives (Followed p)) ts ls rest ∧ Follows ts := by
  induction h with
  | nil => exact ⟨.nil, hrest⟩
  | cons hl _ ih =>
      obtain ⟨hls, hmid⟩ := ih hrest
      exact ⟨.cons (hl.imp fun _ hc => ⟨hc, hmid⟩) hls, hl.follows⟩

theorem Branch.Derives.followed {p : Production C} {ts rest : List Token} {b : Branch C}
    (h : Branch.Derives p ts b rest) (hrest : Follows rest) :
    Branch.Derives (Followed p) ts b rest := by
  obtain ⟨ho, hls⟩ := h
  obtain ⟨hls, hmid⟩ := Link.many_followed hls hrest
  exact .mk (ho.imp fun _ hc => ⟨hc, hmid⟩) hls

theorem Branch.many_followed {p : Production C} {ts rest : List Token} {bs : List (Branch C)}
    (h : Many (Branch.DerivesNext p) ts bs rest) (hrest : Follows rest) :
    Many (Branch.DerivesNext (Followed p)) ts bs rest ∧ Follows ts := by
  induction h with
  | nil => exact ⟨.nil, hrest⟩
  | cons hnext _ ih =>
      obtain ⟨hbs, hmid⟩ := ih hrest
      have hfollows := hnext.follows
      obtain ⟨hspaces, hor, hspaces', hb⟩ := hnext
      exact ⟨.cons (.mk hspaces hor hspaces' (hb.followed hmid)) hbs, hfollows⟩

/-- Whatever stands behind a clause of a derivation may follow it. -/
theorem Formula.Derives.followed {p : Production C} {ts rest : List Token} {e : Formula C}
    (h : Formula.Derives p ts e rest) (hrest : Follows rest) :
    Formula.Derives (Followed p) ts e rest := by
  obtain ⟨hb, hbs⟩ := h
  obtain ⟨hbs, hmid⟩ := Branch.many_followed hbs hrest
  exact .mk (hb.followed hmid) hbs

/-! ### Where formulas start and end -/

section Ends

variable {p : Production C} {ts rest : List Token}

theorem Operand.Derives.skipSpace_eq {o : Operand C}
    (hp : ∀ {ts c rest}, p ts c rest → Token.skipSpace ts = ts)
    (h : Operand.Derives p ts o rest) : Token.skipSpace ts = ts := by
  cases h with
  | negated hnot _ _ => exact hnot.skipSpace_eq
  | plain _ hc => exact hp hc

theorem Branch.Derives.skipSpace_eq {b : Branch C}
    (hp : ∀ {ts c rest}, p ts c rest → Token.skipSpace ts = ts)
    (h : Branch.Derives p ts b rest) : Token.skipSpace ts = ts := by
  obtain ⟨ho, -⟩ := h
  exact ho.skipSpace_eq hp

theorem Formula.Derives.skipSpace_eq {e : Formula C}
    (hp : ∀ {ts c rest}, p ts c rest → Token.skipSpace ts = ts)
    (h : Formula.Derives p ts e rest) : Token.skipSpace ts = ts := by
  obtain ⟨hb, -⟩ := h
  exact hb.skipSpace_eq hp

theorem Spaces.closes_nil (h : Spaces ts []) : Closes ts := by
  intro t ht
  rw [h.skipSpace_eq] at ht
  cases ht

theorem Spaces.closes_cons {closing : Token} (h : Spaces ts (closing :: rest))
    (hclosing : closing.kind = .rightParen) : Closes ts := by
  intro t ht
  rw [h.skipSpace_eq_cons (by simp [Token.isSpace, Kind.isSpace, hclosing])] at ht
  cases ht
  exact hclosing

end Ends

/-! ### How derivations are read -/

section Complete

variable {clause : Reader C} {ts rest : List Token}

theorem Closes.not_stands {k : Keyword} {after : List Token} (h : Closes ts) :
    ¬ k.Stands (Token.skipSpace ts) after := by
  intro hstands
  obtain ⟨t, us, heq, -, hkind, -⟩ := hstands.exists_cons
  have hparen := h t (by simp [heq])
  simp [hparen] at hkind

theorem Link.ahead?_eq_none (hand : ∀ after, ¬ Keyword.and.Stands (Token.skipSpace ts) after)
    (hnot : ∀ after, ¬ Keyword.not.Stands (Token.skipSpace ts) after) : Link.ahead? ts = none := by
  cases hahead : Link.ahead? ts with
  | none => rfl
  | some found =>
      obtain ⟨explicit, start⟩ := found
      rcases Link.ahead?_eq_some_iff.mp hahead with
        ⟨-, after, hstands, -⟩ | ⟨-, -, rfl, after, hstands⟩
      · exact absurd hstands (hand after)
      · exact absurd hstands (hnot after)

theorem Branch.ahead?_eq_none (hor : ∀ after, ¬ Keyword.or.Stands (Token.skipSpace ts) after) :
    Branch.ahead? ts = none := by
  cases hahead : Branch.ahead? ts with
  | none => rfl
  | some found =>
      obtain ⟨after, hstands, -⟩ := Branch.ahead?_eq_some_iff.mp hahead
      exact absurd hstands (hor after)

theorem Closes.stops (h : Closes ts) : Stops ts where
  follows := h.follows
  link := Link.ahead?_eq_none (fun _ => h.not_stands) fun _ => h.not_stands
  branch := Branch.ahead?_eq_none fun _ => h.not_stands

variable (hclause : ∀ {ts c rest}, clause.Reads ts c rest → Token.skipSpace ts = ts)

include hclause

theorem Operand.reads_of_derives {o : Operand C} (h : Operand.Derives clause.Reads ts o rest) :
    (Operand.reader clause).Reads ts o rest := by
  simp only [Reader.Reads, reader]
  cases h with
  | negated hnot hspaces hc =>
      have hstart := hspaces.skipSpace_eq.trans (hclause hc)
      rw [Keyword.strip?_eq_some_iff.mpr hnot]
      simp only [hstart, Outcome.map_eq_ok_iff]
      exact ⟨_, hc, rfl⟩
  | plain hnot hc =>
      have hstrip : Keyword.not.strip? ts = none := by
        cases hstrip : Keyword.not.strip? ts with
        | none => rfl
        | some mid => exact absurd (Keyword.strip?_eq_some_iff.mp hstrip) (hnot mid)
      rw [hstrip]
      simp only [Outcome.map_eq_ok_iff]
      exact ⟨_, hc, rfl⟩

theorem Link.round_of_derives {l : Link C} (h : Link.Derives clause.Reads ts l rest) :
    Link.Round clause ts l rest := by
  cases h with
  | explicit hspaces hand hspaces' ho =>
      have hskip := hspaces.skipSpace_eq.trans hand.skipSpace_eq
      have hstart := hspaces'.skipSpace_eq.trans (ho.skipSpace_eq hclause)
      refine ⟨true, _, Link.ahead?_eq_some_iff.mpr
        (Or.inl ⟨rfl, _, hskip ▸ hand, hstart.symm⟩), ?_⟩
      rw [Reader.reads_map_iff]
      exact ⟨_, Operand.reads_of_derives hclause ho, rfl⟩
  | juxtaposed hspaces hnot ho =>
      have hskip := hspaces.spaces.skipSpace_eq.trans hnot.skipSpace_eq
      refine ⟨false, _, Link.ahead?_eq_some_iff.mpr
        (Or.inr ⟨rfl, hspaces.startsWithSpace, hskip.symm, _, hnot⟩), ?_⟩
      rw [Reader.reads_map_iff]
      exact ⟨_, Operand.reads_of_derives hclause ho, rfl⟩

theorem Branch.reads_of_derives {b : Branch C} (h : Branch.Derives clause.Reads ts b rest)
    (hrest : Link.ahead? rest = none) : (Branch.reader clause).Reads ts b rest := by
  obtain ⟨ho, hls⟩ := h
  exact Branch.reads_reader_iff.mpr ⟨_, Operand.reads_of_derives hclause ho,
    hls.imp fun _ _ _ _ => Link.round_of_derives hclause, hrest⟩

theorem Branch.round_of_derivesNext {b : Branch C} (h : Branch.DerivesNext clause.Reads ts b rest)
    (hrest : Link.ahead? rest = none) : Branch.Round clause ts b rest ∧ Link.ahead? ts = none := by
  obtain ⟨hspaces, hor, hspaces', hb⟩ := h
  have hskip := hspaces.skipSpace_eq.trans hor.skipSpace_eq
  refine ⟨⟨(), _, Branch.ahead?_eq_some_iff.mpr ⟨_, hskip ▸ hor, rfl⟩, ?_⟩, ?_⟩
  · rw [hspaces'.skipSpace_eq, hb.skipSpace_eq hclause]
    exact Branch.reads_of_derives hclause hb hrest
  · apply Link.ahead?_eq_none
    · intro after hand
      cases (hskip ▸ hand).unique hor
    · intro after hnot
      cases (hskip ▸ hnot).unique hor

theorem Branch.many_round_of_derivesNext {bs : List (Branch C)}
    (h : Many (Branch.DerivesNext clause.Reads) ts bs rest) (hrest : Link.ahead? rest = none) :
    Many (Branch.Round clause) ts bs rest ∧ Link.ahead? ts = none := by
  -- the second part tells the branch before that it has no further operand
  induction h with
  | nil => exact ⟨.nil, hrest⟩
  | cons hnext _ ih =>
      obtain ⟨hbs, hmid⟩ := ih hrest
      obtain ⟨hround, hahead⟩ := Branch.round_of_derivesNext hclause hnext hmid
      exact ⟨.cons hround hbs, hahead⟩

/-- A derivation that ends where the formula has to end is the one that is read. -/
theorem Formula.reads_of_derives {e : Formula C} (h : Formula.Derives clause.Reads ts e rest)
    (hrest : Stops rest) : (Formula.reader clause).Reads ts e rest := by
  obtain ⟨hb, hbs⟩ := h
  obtain ⟨hbs, hmid⟩ := Branch.many_round_of_derivesNext hclause hbs hrest.link
  exact Formula.reads_reader_iff.mpr
    ⟨_, Branch.reads_of_derives hclause hb hmid, hbs, hrest.branch⟩

end Complete

end SearchQuery
