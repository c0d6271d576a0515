import SearchQuery.Proofs.Canonical.Spelling
import SearchQuery.Proofs.Grammar.Query

/-!
Spellings of well-formed trees derive these trees. What stands behind a clause in a canonical text
is space or the end, so that no run goes on and no keyword is joined to anything.
-/

namespace SearchQuery

open Token (Kind Solid space)

variable {α C : Type}

/-! ### Leaves -/

/-- Space or the end. -/
def Parted (ts : List Token) : Prop :=
  ∀ t ∈ ts.head?, t.isSpace = true

theorem Parted.notMem {ts : List Token} (h : Parted ts) {kinds : List Kind}
    (hkinds : ∀ k ∈ kinds, k.isSpace = false) : ∀ t ∈ ts.head?, t.kind ∉ kinds := by
  intro t ht hmem
  have hspace := h t ht
  simp [Token.isSpace, hkinds t.kind hmem] at hspace

theorem parted_nil : Parted [] :=
  nofun

theorem parted_space (ts : List Token) : Parted (space :: ts) := by
  intro t ht
  cases ht
  rfl

theorem Literal.WellFormed.derives {l : Literal} {rest : List Token} (h : l.WellFormed)
    (hrest : ∀ t ∈ rest.head?, t.kind ∉ Literal.bareKinds) :
    Literal.Derives (l.spell ++ rest) l rest := by
  cases l with
  | bare ts => exact .bare (.mk h.nonempty h.kinds hrest)
  | phrase ts =>
      simp only [spell, List.cons_append, List.append_assoc, List.nil_append]
      exact .phrase (.mk rfl h.undelimited rfl)

theorem Side.WellFormed.derives {s : Side} {rest : List Token} (h : s.WellFormed)
    (hrest : ∀ t ∈ rest.head?, t.kind ∉ Literal.bareKinds) :
    Side.Derives (s.spell ++ rest) s rest := by
  cases s with
  | unbounded => exact .unbounded (.bare (.mk (by simp [spell]) (by simp [spell]) hrest))
  | literal l => exact .literal (h.1.derives hrest) h.2

theorem Interval.derives_spell {i : Interval} {rest : List Token} (hleft : i.left.WellFormed)
    (hright : i.right.WellFormed) : Interval.Derives (i.spell ++ rest) i rest := by
  obtain ⟨leftClosed, left, right, rightClosed⟩ := i
  simp only [spell, List.cons_append, List.append_assoc, List.nil_append]
  refine .mk (by cases leftClosed <;> rfl) .none (hleft.derives ?_) (.mk rfl .none) rfl rfl
    (.mk rfl .none) (hright.derives ?_) .none (by cases rightClosed <;> rfl)
  · exact (parted_space _).notMem (by decide)
  · cases rightClosed <;> simp [Literal.bareKinds]

theorem Range.WellFormed.derives {r : Range} {rest : List Token} (h : r.WellFormed)
    (hrest : ∀ t ∈ rest.head?, t.kind ∉ Literal.bareKinds) :
    Range.Derives (r.spell ++ rest) r rest := by
  cases r with
  | comparison op value => exact .comparison rfl rfl (Side.WellFormed.derives h hrest)
  | interval i => exact .interval (Interval.derives_spell h.1 h.2)

theorem Element.WellFormed.derives {e : Element} {rest : List Token} (h : e.WellFormed)
    (hrest : Parted rest) : Element.Derives (e.spell ++ rest) e rest := by
  have hrest := hrest.notMem (show ∀ k ∈ Literal.bareKinds, k.isSpace = false by decide)
  cases e with
  | literal l => exact .literal (Literal.WellFormed.derives h hrest)
  | range r => exact .range (Range.WellFormed.derives h hrest)

theorem Boost.WellFormed.derives {b : Boost} {rest : List Token} (h : b.WellFormed) :
    Boost.Derives (b.spell ++ rest) b rest := by
  obtain ⟨magnitude⟩ := b
  cases magnitude with
  | none => exact .bare rfl
  | some m =>
      rcases h m rfl with hm | ⟨n, f, rfl, hn, hf⟩
      · simp only [spell, Option.map_some, Option.getD_some, spellMagnitude_whole hm]
        exact .whole rfl rfl
      · simp only [spell, Option.map_some, Option.getD_some, spellMagnitude_fraction hn]
        exact .fraction rfl rfl rfl rfl

theorem Suffix.derives_spell {s : Suffix} {rest : List Token} (h : s.WellFormed) :
    Suffix.Derives (s.spell ++ rest) s rest := by
  cases s with
  | boost b => exact .boost (Boost.WellFormed.derives h)
  | fuzzy f =>
      obtain ⟨distance⟩ := f
      cases distance with
      | none => exact .fuzzy (.bare rfl)
      | some d => exact .fuzzy (.distance rfl rfl)

theorem Boost.perhaps_derives {boost : Option Boost} {rest : List Token}
    (h : ∀ b ∈ boost, b.WellFormed) :
    Perhaps Boost.Derives ((boost.map Boost.spell).getD [] ++ rest) boost rest := by
  cases boost with
  | none => exact .none
  | some b => exact .some (h b rfl).derives

/-! ### Keywords -/

theorem not_closes_iff {ts : List Token} :
    ¬ Closes ts ↔ ∃ u rest, Spaces ts (u :: rest) ∧ u.isSpace = false ∧ u.kind ≠ .rightParen := by
  constructor
  · intro h
    cases hskip : Token.skipSpace ts with
    | nil => exact absurd (by simp [Closes, hskip]) h
    | cons u rest =>
        have hhead : u ∈ (Token.skipSpace ts).head? := by simp [hskip]
        refine ⟨u, rest, hskip ▸ spaces_skipSpace ts, isSpace_head?_skipSpace hhead, ?_⟩
        intro hkind
        exact h (by simp [Closes, hskip, hkind])
  · intro h
    obtain ⟨u, rest, hspaces, hu, hkind⟩ := h
    intro hcloses
    exact hkind (hcloses u (by simp [hspaces.skipSpace_eq_cons hu]))

/-- Where a word NOT is a keyword. -/
theorem Keyword.exists_not_stands_iff {t : Token} {ts : List Token} :
    (∃ mid, Keyword.not.Stands (t :: ts) mid) ↔
      t.kind = .bang ∨ t.kind = .word ∧ t.text ∈ ["NOT", "not"] ∧
        (∀ v ∈ ts.head?, ¬ Continues v.kind) ∧ ¬ Closes ts := by
  rw [not_closes_iff]
  constructor
  · intro h
    obtain ⟨mid, hstands⟩ := h
    cases hstands with
    | word hkind htext hnext hspaces hu hparen =>
        exact Or.inr ⟨hkind, by simpa using htext, hnext, _, _, hspaces, hu, hparen⟩
    | bang hkind => exact Or.inl hkind
  · intro h
    rcases h with hkind | ⟨hkind, htext, hnext, u, rest, hspaces, hu, hparen⟩
    · exact ⟨_, .bang hkind⟩
    · exact ⟨_, .word hkind (by simpa using htext) hnext hspaces hu hparen⟩

theorem Keyword.continues_of_mem_bareKinds {k : Kind} (h : k ∈ Literal.bareKinds) :
    Continues k := by
  revert h
  cases k <;> simp [Literal.bareKinds, Continues]

/-- A run of tokens that continue words starts with NOT only if it is that word alone. -/
theorem Keyword.Stands.not_run {run rest mid : List Token}
    (h : Keyword.not.Stands (run ++ rest) mid) (hne : run ≠ [])
    (hrun : ∀ t ∈ run, Continues t.kind) :
    (run = [⟨.word, "NOT"⟩] ∨ run = [⟨.word, "not"⟩]) ∧
      (∀ v ∈ rest.head?, ¬ Continues v.kind) ∧ ¬ Closes rest := by
  obtain ⟨t, us, rfl⟩ := List.exists_cons_of_ne_nil hne
  rcases Keyword.exists_not_stands_iff.mp ⟨mid, h⟩ with hbang | ⟨hkind, htext, hnext, hcloses⟩
  · have ht := hrun t List.mem_cons_self
    simp [Continues, hbang] at ht
  · cases us with
    | nil =>
        refine ⟨?_, hnext, hcloses⟩
        obtain ⟨kind, text⟩ := t
        simp only [List.mem_cons, List.not_mem_nil, or_false] at hkind htext
        rcases htext with rfl | rfl <;> simp [hkind]
    | cons v vs => exact absurd (hrun v (by simp)) (hnext v rfl)

/-- A canonical keyword applies to any solid list that does not close a parenthesis. -/
theorem Keyword.stands_of_solid (k : Keyword) {ts : List Token} (hts : Solid ts)
    (hparen : ∀ t ∈ ts.head?, t.kind ≠ .rightParen) (rest : List Token) :
    k.Stands (k.token :: space :: ts ++ rest) (space :: ts ++ rest) := by
  obtain ⟨t, us, rfl⟩ := List.exists_cons_of_ne_nil hts.ne_nil
  refine .word ?_ ?_ ?_ (.more rfl .none) (hts.first t rfl) (hparen t rfl)
  · cases k <;> rfl
  · cases k <;> decide
  · simp [Continues, space]

/-! ### Formulas -/

/-- Of the operands without NOT only the last one may be such a clause, and only if nothing but the
formula's end follows. -/
def BareAtEnd (bareNot : C → Prop) (os : List (Operand C)) (rest : List Token) : Prop :=
  ∀ before o after, os = before ++ o :: after → o.negated = false → bareNot o.clause →
    after = [] ∧ Closes rest

section BareAtEnd

variable {bareNot : C → Prop} {o : Operand C} {os us : List (Operand C)} {rest : List Token}

theorem bareAtEnd_cons_iff :
    BareAtEnd bareNot (o :: os) rest ↔
      (o.negated = false → bareNot o.clause → os = [] ∧ Closes rest) ∧
        BareAtEnd bareNot os rest := by
  constructor
  · intro h
    refine ⟨h [] o os rfl, ?_⟩
    intro before u after hos
    exact h (o :: before) u after (by rw [hos, List.cons_append])
  · intro h before u after hos
    cases before with
    | nil =>
        rw [List.nil_append, List.cons.injEq] at hos
        obtain ⟨rfl, rfl⟩ := hos
        exact h.1
    | cons v before =>
        rw [List.cons_append, List.cons.injEq] at hos
        exact h.2 before u after hos.2

theorem BareAtEnd.of_append_right (h : BareAtEnd bareNot (os ++ us) rest) :
    BareAtEnd bareNot us rest := by
  intro before u after hus
  exact h (os ++ before) u after (by rw [hus, List.append_assoc])

/-- Before a further branch there is no such operand at all. -/
theorem BareAtEnd.of_append_flatMap {f : Branch C → List Token} (bs : List (Branch C))
    (h : BareAtEnd bareNot (os ++ bs.flatMap Branch.operands) rest) :
    BareAtEnd bareNot os (bs.flatMap f ++ rest) := by
  intro before u after hos hplain hnot
  obtain ⟨hnil, hcloses⟩ := h before u (after ++ bs.flatMap Branch.operands)
    (by rw [hos, List.append_assoc, List.cons_append]) hplain hnot
  obtain ⟨hafter, hbranches⟩ := List.append_eq_nil_iff.mp hnil
  cases bs with
  | nil => exact ⟨hafter, hcloses⟩
  | cons b bs => simp [Branch.operands] at hbranches

end BareAtEnd

/-- The tokens spell a clause: they derive it wherever a canonical text may put them, and no NOT
stands there. If `bareNot` holds of the clause that is so only where a formula ends. -/
structure Spells (p : Production C) (bareNot : C → Prop) (ts : List Token) (c : C) : Prop where
  solid : Solid ts
  opens : ∀ t ∈ ts.head?, t.kind ≠ .rightParen
  derives {rest : List Token} : Parted rest → p (ts ++ rest) c rest
  free {rest mid : List Token} :
    Parted rest → (bareNot c → Closes rest) → ¬ Keyword.not.Stands (ts ++ rest) mid

section Formula

variable {p : Production C} {bareNot : C → Prop} {f : C → List Token} {rest : List Token}

theorem Operand.opens_spell {o : Operand C} (h : Spells p bareNot (f o.clause) o.clause) :
    ∀ t ∈ (o.spell f).head?, t.kind ≠ .rightParen := by
  obtain ⟨negated, c⟩ := o
  cases negated with
  | false => exact h.opens
  | true => simp [spell, Keyword.token]

theorem Operand.derives_spell {o : Operand C} (h : Spells p bareNot (f o.clause) o.clause)
    (hrest : Parted rest) (hbare : o.negated = false → bareNot o.clause → Closes rest) :
    Operand.Derives p (o.spell f ++ rest) o rest := by
  obtain ⟨negated, c⟩ := o
  cases negated with
  | false => exact .plain (fun mid => h.free hrest (hbare rfl)) (h.derives hrest)
  | true =>
      have hstands := Keyword.not.stands_of_solid h.solid h.opens rest
      exact .negated hstands (.more rfl .none) (h.derives hrest)

theorem Link.derives_spell {l : Link C} (h : Spells p bareNot (f l.operand.clause) l.operand.clause)
    (hjuxtaposed : l.explicit = false → l.operand.negated = true) (hrest : Parted rest)
    (hbare : l.operand.negated = false → bareNot l.operand.clause → Closes rest) :
    Link.Derives p (l.spell f ++ rest) l rest := by
  have ho := Operand.derives_spell h hrest hbare
  obtain ⟨explicit, o⟩ := l
  cases explicit with
  | true =>
      have hand := Keyword.and.stands_of_solid (Operand.solid_spell h.solid)
        (Operand.opens_spell h) rest
      exact .explicit (.more rfl .none) hand (.more rfl .none) ho
  | false =>
      obtain ⟨negated, c⟩ := o
      obtain rfl : negated = true := hjuxtaposed rfl
      have hnot := Keyword.not.stands_of_solid h.solid h.opens rest
      exact .juxtaposed (.mk rfl .none) hnot ho

theorem Link.parted_flatMap_spell (ls : List (Link C)) (hrest : Parted rest) :
    Parted (ls.flatMap (Link.spell f) ++ rest) := by
  cases ls with
  | nil => exact hrest
  | cons l ls =>
      obtain ⟨explicit, o⟩ := l
      cases explicit <;> exact parted_space _

theorem Link.many_derives_spell {ls : List (Link C)}
    (h : ∀ l ∈ ls, Spells p bareNot (f l.operand.clause) l.operand.clause)
    (hjuxtaposed : ∀ l ∈ ls, l.explicit = false → l.operand.negated = true) (hrest : Parted rest)
    (hbare : BareAtEnd bareNot (ls.map Link.operand) rest) :
    Many (Link.Derives p) (ls.flatMap (Link.spell f) ++ rest) ls rest := by
  induction ls with
  | nil => exact .nil
  | cons l ls ih =>
      obtain ⟨hhead, htail⟩ := bareAtEnd_cons_iff.mp hbare
      rw [List.flatMap_cons, List.append_assoc]
      refine .cons (Link.derives_spell (h l List.mem_cons_self)
        (hjuxtaposed l List.mem_cons_self) (Link.parted_flatMap_spell ls hrest) ?_) (ih ?_ ?_ htail)
      · intro hplain hnot
        -- a bare NOT has no operand behind it, so the end of the formula follows it at once
        obtain ⟨hnil, hcloses⟩ := hhead hplain hnot
        rw [List.map_eq_nil_iff.mp hnil]
        exact hcloses
      · intro k hk
        exact h k (List.mem_cons_of_mem l hk)
      · intro k hk
        exact hjuxtaposed k (List.mem_cons_of_mem l hk)

theorem Branch.derives_spell {b : Branch C} (h : ∀ c ∈ b.clauses, Spells p bareNot (f c) c)
    (hjuxtaposed : b.JuxtaposesNegated) (hrest : Parted rest)
    (hbare : BareAtEnd bareNot b.operands rest) : Branch.Derives p (b.spell f ++ rest) b rest := by
  obtain ⟨o, ls⟩ := b
  simp only [clauses, operands, List.map_cons, List.map_map, List.forall_mem_cons,
    List.forall_mem_map, Function.comp_apply] at h
  obtain ⟨ho, hls⟩ := h
  obtain ⟨hhead, htail⟩ := bareAtEnd_cons_iff.mp hbare
  rw [spell, List.append_assoc]
  refine .mk (Operand.derives_spell ho (Link.parted_flatMap_spell ls hrest) ?_)
    (Link.many_derives_spell hls hjuxtaposed hrest htail)
  intro hplain hnot
  obtain ⟨hnil, hcloses⟩ := hhead hplain hnot
  rw [List.map_eq_nil_iff.mp hnil]
  exact hcloses

theorem Branch.opens_spell {b : Branch C} (h : ∀ c ∈ b.clauses, Spells p bareNot (f c) c) :
    ∀ t ∈ (b.spell f).head?, t.kind ≠ .rightParen := by
  have ho := h b.head.clause (by simp [clauses, operands])
  rw [spell, List.head?_append_of_ne_nil _ (Operand.solid_spell ho.solid).ne_nil]
  exact Operand.opens_spell ho

theorem Branch.parted_flatMap_spellNext (bs : List (Branch C)) (hrest : Parted rest) :
    Parted (bs.flatMap (Branch.spellNext f) ++ rest) := by
  cases bs with
  | nil => exact hrest
  | cons b bs => exact parted_space _

theorem Branch.many_derives_spell {bs : List (Branch C)}
    (h : ∀ b ∈ bs, ∀ c ∈ b.clauses, Spells p bareNot (f c) c)
    (hjuxtaposed : ∀ b ∈ bs, b.JuxtaposesNegated)
    (hrest : Parted rest) (hbare : BareAtEnd bareNot (bs.flatMap Branch.operands) rest) :
    Many (Branch.DerivesNext p) (bs.flatMap (Branch.spellNext f) ++ rest) bs rest := by
  induction bs with
  | nil => exact .nil
  | cons b bs ih =>
      have hb := h b List.mem_cons_self
      rw [List.flatMap_cons, List.append_assoc]
      have hor := Keyword.or.stands_of_solid (Branch.solid_spell fun c hc => (hb c hc).solid)
        (Branch.opens_spell hb) (bs.flatMap (Branch.spellNext f) ++ rest)
      have hparted : Parted (bs.flatMap (Branch.spellNext f) ++ rest) :=
        Branch.parted_flatMap_spellNext bs hrest
      have hbranch := Branch.derives_spell hb (hjuxtaposed b List.mem_cons_self) hparted
        (hbare.of_append_flatMap bs)
      refine .cons (.mk (.more rfl .none) hor (.more rfl .none) hbranch) (ih ?_ ?_ ?_)
      · intro d hd
        exact h d (List.mem_cons_of_mem b hd)
      · intro d hd
        exact hjuxtaposed d (List.mem_cons_of_mem b hd)
      · exact hbare.of_append_right

/-- The spelling of a formula derives it, whatever comes behind the space after it. -/
theorem Formula.derives_spell {e : Formula C} (h : ∀ c ∈ e.clauses, Spells p bareNot (f c) c)
    (hjuxtaposed : e.JuxtaposesNegated) (hrest : Parted rest)
    (hbare : BareAtEnd bareNot e.operands rest) :
    Formula.Derives p (e.spell f ++ rest) e rest := by
  obtain ⟨b, bs⟩ := e
  have hbranch : ∀ d ∈ branches ⟨b, bs⟩, ∀ c ∈ d.clauses, Spells p bareNot (f c) c :=
    fun d hd c hc => h c (List.mem_flatMap.mpr ⟨d, hd, hc⟩)
  rw [spell, List.append_assoc]
  refine .mk (Branch.derives_spell (hbranch b List.mem_cons_self)
    (hjuxtaposed b List.mem_cons_self) (Branch.parted_flatMap_spellNext bs hrest)
    (hbare.of_append_flatMap bs)) (Branch.many_derives_spell ?_ ?_ hrest hbare.of_append_right)
  · intro d hd
    exact hbranch d (List.mem_cons_of_mem b hd)
  · intro d hd
    exact hjuxtaposed d (List.mem_cons_of_mem b hd)

end Formula

theorem Formula.LastOnly.bareAtEnd {bareNot : C → Prop} {e : Formula C} {rest : List Token}
    (h : e.LastOnly bareNot) (hrest : Closes rest) : BareAtEnd bareNot e.operands rest := by
  intro before o after ho hplain hnot
  exact ⟨h before o after ho hplain hnot, hrest⟩

/-! ### Clauses -/

theorem Enclosed.of_spelled {p : Production α} {a : α} {ts rest : List Token}
    (h : ∀ {stop}, Parted stop → Closes stop → p (ts ++ stop) a stop) :
    Enclosed p (Formula.spellEnclosed ts ++ rest) a rest := by
  have hclose : Spaces (space :: ⟨.rightParen, ")"⟩ :: rest) (⟨.rightParen, ")"⟩ :: rest) :=
    .more rfl .none
  have hitem := h (parted_space _) (hclose.closes_cons rfl)
  simp only [Formula.spellEnclosed, List.cons_append, List.append_assoc, List.nil_append]
  exact .mk rfl (.more rfl .none) hitem hclose rfl

/-- If the leaves are spelled by `f`, so are the clauses. -/
theorem Clause.WellFormed.spells {p : Production α} {leaf : α → Prop}
    {level : Formula (Clause α) → Prop} {bareNot : Clause α → Prop} {f : α → List Token}
    (hleaf : ∀ {a}, leaf a → Spells (Clause.Derives p) bareNot (f a) (.leaf a))
    (hlevel : ∀ {sub}, level sub → sub.JuxtaposesNegated ∧ sub.LastOnly bareNot) {c : Clause α}
    (h : c.WellFormed leaf level) : Spells (Clause.Derives p) bareNot (c.spell f) c := by
  induction c with
  | leaf a =>
      cases h with
      | leaf ha => simpa using hleaf ha
  | paren sub ih =>
      cases h with
      | paren hsub hclauses =>
          obtain ⟨hjuxtaposed, hlast⟩ := hlevel hsub
          have hspells := fun c hc => ih c hc (hclauses c hc)
          rw [Clause.spell_paren]
          have hsolid := Formula.solid_spell fun c hc => (hspells c hc).solid
          refine ⟨Formula.solid_spellEnclosed hsolid, ?_, ?_, ?_⟩
          · simp [Formula.spellEnclosed]
          · intro rest hrest
            apply Clause.Derives.paren
            apply Enclosed.of_spelled
            intro stop hstop hcloses
            exact Formula.derives_spell hspells hjuxtaposed hstop (hlast.bareAtEnd hcloses)
          · intro rest mid _ _ hstands
            have hopen : Token.startsWith [.leftParen]
                (Formula.spellEnclosed (sub.spell (Clause.spell f)) ++ rest) = true := rfl
            exact Token.startsWith_disjoint hstands.startsWith hopen (by decide)

theorem Token.kind_of_startsWith {kinds : List Kind} {ts rest : List Token} {t : Token}
    (h : Token.startsWith kinds (ts ++ rest) = true) (ht : t ∈ ts.head?) : t.kind ∈ kinds := by
  obtain ⟨us, rfl⟩ := List.head?_eq_some_iff.mp ht
  exact Token.startsWith_cons.mp h

theorem Element.WellFormed.spells {e : Element} (h : e.WellFormed) :
    Spells (Clause.Derives Element.Derives) Clause.IsBareNot e.spell (.leaf e) where
  solid := h.solid
  opens t ht hparen := by
    have hkind := Token.kind_of_startsWith (h.derives parted_nil).startsWith ht
    rw [hparen] at hkind
    revert hkind
    decide
  derives hrest := .leaf (h.derives hrest)
  free {rest mid} hrest hbare hstands := by
    cases h.derives hrest with
    | literal hl =>
        cases hl with
        | @bare _ run _ _ =>
            have hwell : Token.WellFormedRun _ run := h
            have hrun : ∀ t ∈ run, Keyword.Continues t.kind :=
              fun t ht => Keyword.continues_of_mem_bareKinds (hwell.kinds t ht)
            obtain ⟨hnot, -, hcloses⟩ := hstands.not_run hwell.nonempty hrun
            apply hcloses
            apply hbare
            rcases hnot with rfl | rfl
            · exact Or.inl rfl
            · exact Or.inr rfl
        | phrase hinner =>
            exact Token.startsWith_disjoint hstands.startsWith hinner.startsWith (by decide)
    | range hr => exact Token.startsWith_disjoint hstands.startsWith hr.startsWith (by decide)

/-! ### Terms and queries -/

theorem Term.WellFormed.derives {t : Term} {rest : List Token} (h : t.WellFormed)
    (hrest : Parted rest) : Term.Derives (t.spell ++ rest) t rest := by
  have hfree := hrest.notMem (show ∀ k ∈ Literal.bareKinds, k.isSpace = false by decide)
  cases t with
  | regexp ts =>
      simp only [spell, List.cons_append, List.append_assoc, List.nil_append]
      exact .regexp (.mk rfl h.undelimited rfl)
  | literal l suffix =>
      obtain ⟨hl, hsuffix⟩ := h
      rw [spell, List.append_assoc]
      cases suffix with
      | none => exact .literal (hl.derives hfree) .none
      | some s =>
          refine .literal (hl.derives ?_) (.some (Suffix.derives_spell (hsuffix s rfl)))
          cases s <;> simp [Suffix.spell, Fuzzy.spell, Boost.spell, Literal.bareKinds]
  | range r boost =>
      obtain ⟨hr, hboost⟩ := h
      rw [spell, List.append_assoc]
      refine .range (hr.derives ?_) (Boost.perhaps_derives hboost)
      cases boost with
      | none => exact hfree
      | some b => simp [Boost.spell, Literal.bareKinds]
  | group g boost =>
      obtain ⟨hg, hboost⟩ := h
      cases hg with
      | paren hlevel hclauses =>
          rw [spell, List.append_assoc]
          refine .group (Enclosed.of_spelled ?_) (Boost.perhaps_derives hboost)
          intro stop hstop hcloses
          have hbare := hlevel.not_last.bareAtEnd hcloses
          refine Formula.derives_spell ?_ hlevel.juxtaposed hstop hbare
          intro c hc
          exact (hclauses c hc).spells Element.WellFormed.spells
            fun hlevel => ⟨hlevel.juxtaposed, hlevel.not_last⟩

theorem FieldClause.WellFormed.derives {c : FieldClause} {rest : List Token} (h : c.WellFormed)
    (hrest : Parted rest) : FieldClause.Derives (c.spell ++ rest) c rest := by
  rw [spell, List.append_assoc, List.cons_append]
  exact .mk (.mk h.field.nonempty h.field.kinds (by simp)) rfl (h.term.derives hrest)

theorem FieldClause.WellFormed.spells {c : FieldClause} (h : c.WellFormed) :
    Spells (Clause.Derives FieldClause.Derives) (fun _ => False) c.spell (.leaf c) where
  solid := h.solid
  opens t ht hparen := by
    have hname : Token.startsWith Field.nameKinds (c.spell ++ []) = true := by
      obtain ⟨hname, -, -⟩ := h.derives parted_nil
      exact hname.startsWith
    have hkind := Token.kind_of_startsWith hname ht
    rw [hparen] at hkind
    revert hkind
    decide
  derives hrest := .leaf (h.derives hrest)
  free {rest mid} _ _ hstands := by
    have hrun : ∀ t ∈ c.field.tokens, Keyword.Continues t.kind := by
      intro t ht
      apply Keyword.continues_of_mem_bareKinds
      exact List.mem_append_left [.wildcard] (h.field.kinds t ht)
    rw [spell, List.append_assoc] at hstands
    -- the colon continues even a name that is spelled like the keyword
    obtain ⟨-, hcolon, -⟩ := hstands.not_run h.field.nonempty hrun
    exact hcolon _ rfl (by simp [Keyword.Continues])

theorem Query.WellFormed.derives {q : Query} (h : q.WellFormed) :
    Query.Derives (Query.spell q) q := by
  refine ⟨Query.spell q, [], .none, ?_, .none⟩
  have hspells : ∀ c ∈ Formula.clauses q, Spells (Clause.Derives FieldClause.Derives)
      (fun _ => False) (c.spell FieldClause.spell) c := by
    intro c hc
    apply (h.clauses c hc).spells FieldClause.WellFormed.spells
    intro sub hsub
    exact ⟨hsub, nofun⟩
  have hderives := Formula.derives_spell hspells h.juxtaposed parted_nil nofun
  simpa [Query.spell] using hderives

end SearchQuery
