import SearchQuery.Proofs.Grammar.Query

/-!
Phrases before other tokens. A phrase depends on the tokens behind it only so far as a bare run has
to end there, and as a word NOT must have nothing there to apply to. Before other tokens of which
this is true as well, the tokens of the phrase derive the same tree.
-/

namespace SearchQuery

open Token (Kind)

variable {α β C : Type} {ts us mid rest : List Token}

/-! ### Space -/

theorem spaces_iff :
    Spaces ts rest ↔ ∃ gap, ts = gap ++ rest ∧ ∀ t ∈ gap, t.isSpace = true := by
  constructor
  · intro h
    induction h with
    | none => exact ⟨[], rfl, by simp⟩
    | @more t _ _ ht _ ih =>
        obtain ⟨gap, rfl, hgap⟩ := ih
        exact ⟨t :: gap, rfl, List.forall_mem_cons.mpr ⟨ht, hgap⟩⟩
  · intro h
    obtain ⟨gap, rfl, hgap⟩ := h
    induction gap with
    | nil => exact .none
    | cons t gap ih =>
        rw [List.forall_mem_cons] at hgap
        exact .more hgap.1 (ih hgap.2)

theorem spaces_append {gap : List Token} (hgap : ∀ t ∈ gap, t.isSpace = true) (ts : List Token) :
    Spaces (gap ++ ts) ts :=
  spaces_iff.mpr ⟨gap, rfl, hgap⟩

theorem someSpaces_iff :
    SomeSpaces ts rest ↔
      ∃ gap, gap ≠ [] ∧ ts = gap ++ rest ∧ ∀ t ∈ gap, t.isSpace = true := by
  constructor
  · intro h
    obtain ⟨ht, hspaces⟩ := h
    obtain ⟨gap, rfl, hgap⟩ := spaces_iff.mp hspaces
    exact ⟨_ :: gap, List.cons_ne_nil _ _, rfl, List.forall_mem_cons.mpr ⟨ht, hgap⟩⟩
  · intro h
    obtain ⟨gap, hne, rfl, hgap⟩ := h
    cases gap with
    | nil => exact absurd rfl hne
    | cons t gap =>
        rw [List.forall_mem_cons] at hgap
        exact .mk hgap.1 (spaces_append hgap.2 rest)

/-! ### The ends of phrases -/

/-- The last token is neither space nor a backslash with nothing to escape. -/
def Firm (ts : List Token) : Prop :=
  ∃ t ∈ ts.getLast?, t.isSpace = false ∧ t.kind ≠ .backslash

theorem Firm.append (h : Firm us) (ts : List Token) : Firm (ts ++ us) := by
  obtain ⟨t, ht, hfirm⟩ := h
  rw [Option.mem_def] at ht
  exact ⟨t, by simp [ht], hfirm⟩

theorem Firm.cons (h : Firm us) (t : Token) : Firm (t :: us) :=
  h.append [t]

theorem Firm.ne_nil (h : Firm ts) : ts ≠ [] := by
  rintro rfl
  obtain ⟨t, ht, -⟩ := h
  cases ht

theorem Firm.exists_isSpace_eq_false (h : Firm ts) : ∃ t ∈ ts, t.isSpace = false := by
  obtain ⟨t, ht, hspace, -⟩ := h
  exact ⟨t, List.mem_of_getLast? ht, hspace⟩

/-- A run of kinds among which there is neither space nor a backslash. -/
theorem firm_of_forall_mem {kinds : List Kind} (hne : ts ≠ []) (hts : ∀ t ∈ ts, t.kind ∈ kinds)
    (hkinds : ∀ k ∈ kinds, k.isSpace = false ∧ k ≠ .backslash) : Firm ts :=
  ⟨ts.getLast hne, List.getLast?_eq_some_getLast hne,
    hkinds _ (hts _ (List.getLast_mem hne))⟩

theorem firm_singleton {t : Token} {k : Kind} (ht : t.kind = k)
    (hk : k.isSpace = false ∧ k ≠ .backslash) : Firm [t] := by
  subst ht
  exact ⟨t, rfl, hk⟩

/-! ### What keywords apply to -/

theorem Keyword.appliesTo_eq (hhead : ts.head? = us.head?)
    (hskip : (Token.skipSpace ts).head? = (Token.skipSpace us).head?) :
    Keyword.appliesTo ts = Keyword.appliesTo us := by
  simp [appliesTo, operandFollows, Token.startsWith, hhead, hskip]

/-- Only the tokens up to the first one that is not space tell whether a keyword applies. -/
theorem Keyword.appliesTo_append_eq (h : ∃ t ∈ ts, t.isSpace = false) (us vs : List Token) :
    Keyword.appliesTo (ts ++ us) = Keyword.appliesTo (ts ++ vs) := by
  obtain ⟨t, ht, hspace⟩ := h
  have hne : ts.dropWhile Token.isSpace ≠ [] := by
    intro hnil
    simp [List.dropWhile_eq_nil_iff.mp hnil t ht] at hspace
  obtain ⟨u, rest, hdrop⟩ := List.exists_cons_of_ne_nil hne
  apply Keyword.appliesTo_eq
  · cases ts with
    | nil => cases ht
    | cons u ts => rfl
  · simp [Token.skipSpace, List.dropWhile_append, hdrop]

/-- A keyword, with space after it, that applies to some tokens applies to others as well. -/
def Keyword.Carries (us vs : List Token) : Prop :=
  ∀ gap, (∀ t ∈ gap, t.isSpace = true) →
    Keyword.appliesTo (gap ++ us) = true → Keyword.appliesTo (gap ++ vs) = true

theorem Keyword.carries_append_of_exists (h : ∃ t ∈ ts, t.isSpace = false) (us vs : List Token) :
    Keyword.Carries (ts ++ us) (ts ++ vs) := by
  intro gap _ happlies
  obtain ⟨t, ht, hspace⟩ := h
  rw [← List.append_assoc] at happlies ⊢
  rwa [← Keyword.appliesTo_append_eq ⟨t, List.mem_append_right gap ht, hspace⟩ us vs]

/-- The same tokens may stand before both. -/
theorem Keyword.Carries.append {us vs : List Token} (h : Keyword.Carries us vs)
    (ts : List Token) : Keyword.Carries (ts ++ us) (ts ++ vs) := by
  by_cases hts : ∀ t ∈ ts, t.isSpace = true
  · intro gap hgap happlies
    rw [← List.append_assoc] at happlies ⊢
    exact h _ (List.forall_mem_append.mpr ⟨hgap, hts⟩) happlies
  · simp only [not_forall, Bool.not_eq_true] at hts
    obtain ⟨t, ht, hspace⟩ := hts
    exact Keyword.carries_append_of_exists ⟨t, ht, hspace⟩ us vs

theorem Closes.not_appliesTo (h : Closes ts) : Keyword.appliesTo ts = false := by
  have hfollows : Keyword.operandFollows ts = false := by
    simp only [Keyword.operandFollows]
    cases hskip : (Token.skipSpace ts).head? with
    | none => rfl
    | some t => simp [h t hskip]
  simp [Keyword.appliesTo, hfollows]

/-- A word that is spelled like a keyword. -/
def Token.SpellsKeyword (t : Token) : Prop :=
  ∃ k : Keyword, t.isWord k.words = true

theorem Token.SpellsKeyword.kind_eq {t : Token} (h : t.SpellsKeyword) : t.kind = .word := by
  obtain ⟨k, hword⟩ := h
  exact (Keyword.isWord_words_iff.mp hword).1

/-- The last token, if there is one, is a keyword, or takes up no word or number behind it. -/
def Keyword.Leads (ts : List Token) : Prop :=
  ∀ t ∈ ts.getLast?, t.SpellsKeyword ∨ t.kind ∉ [.word, .number, .backslash]

/-- A keyword stands before other tokens as well, if it is no word or applies to those. -/
theorem Keyword.Stands.exists_append {k : Keyword} (h : k.Stands ts rest) :
    ∃ lead, ts = lead ++ rest ∧ Firm lead ∧ Keyword.Leads lead ∧ ∀ rest',
      (∀ t, lead = [t] → t.SpellsKeyword →
        Keyword.appliesTo rest = true → Keyword.appliesTo rest' = true) →
      k.Stands (lead ++ rest') rest' := by
  cases h with
  | @word _ t _ _ _ hkind htext hfirst hspaces hu hparen =>
      have hword : t.SpellsKeyword := ⟨k, Keyword.isWord_words_iff.mpr ⟨hkind, htext⟩⟩
      refine ⟨[t], rfl, firm_singleton hkind (by decide), by simpa [Leads] using Or.inl hword, ?_⟩
      intro rest' happlies
      obtain ⟨hfirst', u', rest'', hspaces', hu', hparen'⟩ := Keyword.appliesTo_iff.mp
        (happlies _ rfl hword (Keyword.appliesTo_iff.mpr ⟨hfirst, _, _, hspaces, hu, hparen⟩))
      exact .word hkind htext hfirst' hspaces' hu' hparen'
  | ampersands ht hu =>
      exact ⟨[_, _], rfl, (firm_singleton hu (by decide)).cons _, by simp [Leads, hu],
        fun _ _ => .ampersands ht hu⟩
  | bars ht hu =>
      exact ⟨[_, _], rfl, (firm_singleton hu (by decide)).cons _, by simp [Leads, hu],
        fun _ _ => .bars ht hu⟩
  | bang ht =>
      exact ⟨[_], rfl, firm_singleton ht (by decide), by simp [Leads, ht], fun _ _ => .bang ht⟩

/-- A keyword that `lead` ends with, space behind it aside, applies to `vs` if it is a word and
applies to `us`. -/
def Keyword.Persists (lead us vs : List Token) : Prop :=
  ∀ front t gap, lead = front ++ t :: gap → t.SpellsKeyword → (∀ u ∈ gap, u.isSpace = true) →
    Keyword.appliesTo (gap ++ us) = true → Keyword.appliesTo (gap ++ vs) = true

theorem Keyword.Persists.of_append {front lead us vs : List Token}
    (h : Keyword.Persists (front ++ lead) us vs) : Keyword.Persists lead us vs := by
  rintro front' t gap rfl
  exact h (front ++ front') t gap (by simp)

/-- The same tokens at the end of what stands before, and at the front of what comes behind. -/
theorem Keyword.Persists.shift {front lead us vs : List Token}
    (h : Keyword.Persists (front ++ lead) us vs) :
    Keyword.Persists front (lead ++ us) (lead ++ vs) := by
  rintro front' t gap rfl ht hgap happlies
  by_cases hlead : ∀ u ∈ lead, u.isSpace = true
  · rw [← List.append_assoc] at happlies ⊢
    exact h front' t (gap ++ lead) (by simp) ht (List.forall_mem_append.mpr ⟨hgap, hlead⟩) happlies
  · simp only [not_forall, Bool.not_eq_true] at hlead
    obtain ⟨u, hu, hspace⟩ := hlead
    exact Keyword.carries_append_of_exists ⟨u, hu, hspace⟩ us vs gap hgap happlies

/-! ### Replacing what stands behind -/

/-- Nothing at the front continues a bare run. -/
def EndsRun (ts : List Token) : Prop :=
  ∀ t ∈ ts.head?, t.kind ∉ Literal.bareKinds

/-- Other tokens behind a clause: they start alike, or with nothing that continues a bare run. -/
def Kept (mid mid' : List Token) : Prop :=
  mid'.head? = mid.head? ∨ EndsRun mid'

/-- Other tokens behind an operand, which may also end with a word NOT: no keyword applies to them
unless it did before. -/
structure Swaps (mid mid' : List Token) : Prop where
  kept : Kept mid mid'
  carries : Keyword.Carries mid' mid

theorem kept_append (h : ts ≠ []) (us vs : List Token) : Kept (ts ++ us) (ts ++ vs) := by
  obtain ⟨t, ts, rfl⟩ := List.exists_cons_of_ne_nil h
  exact Or.inl rfl

theorem Kept.append {mid' : List Token} (h : Kept mid mid') (ts : List Token) :
    Kept (ts ++ mid) (ts ++ mid') := by
  by_cases hts : ts = []
  · subst hts
    exact h
  · exact kept_append hts mid mid'

theorem Swaps.append {mid' : List Token} (h : Swaps mid mid') (ts : List Token) :
    Swaps (ts ++ mid) (ts ++ mid') where
  kept := h.kept.append ts
  carries := h.carries.append ts

theorem Firm.swaps (h : Firm ts) (us vs : List Token) : Swaps (ts ++ us) (ts ++ vs) where
  kept := kept_append h.ne_nil us vs
  carries := Keyword.carries_append_of_exists h.exists_isSpace_eq_false vs us

theorem Closes.endsRun (h : Closes ts) : EndsRun ts := by
  intro t ht
  by_cases hspace : t.isSpace = true
  · revert hspace
    simp only [Token.isSpace]
    cases t.kind <;> decide
  · have hskip : Token.skipSpace ts = ts := by
      apply skipSpace_eq_self
      intro u hu
      cases Option.mem_unique ht hu
      simpa using hspace
    rw [h t (hskip.symm ▸ ht)]
    decide

theorem Closes.swaps (h : Closes ts) (mid : List Token) : Swaps mid ts where
  kept := Or.inr h.endsRun
  carries := by
    intro gap hgap happlies
    have hcloses : Closes (gap ++ ts) := by
      intro t ht
      rw [(spaces_append hgap ts).skipSpace_eq] at ht
      exact h t ht
    rw [hcloses.not_appliesTo] at happlies
    cases happlies

/-- The phrases whose tokens derive the same tree before any other tokens that are allowed. -/
def Production.Replay (p : Production α) (allowed : List Token → List Token → Prop) :
    Production α :=
  fun ts a mid => ∃ phrase, ts = phrase ++ mid ∧ Firm phrase ∧
    ∀ mid', allowed mid mid' → p (phrase ++ mid') a mid'

section Replay

variable {p : Production α} {q : Production β} {a : α} {b : β}
  {allowed allowed' : List Token → List Token → Prop}

theorem Production.Replay.imp (h : p.Replay allowed ts a mid)
    (hpq : ∀ ts mid, p ts a mid → q ts b mid) : q.Replay allowed ts b mid := by
  obtain ⟨phrase, rfl, hfirm, hreplay⟩ := h
  exact ⟨phrase, rfl, hfirm, fun mid' hmid' => hpq _ _ (hreplay mid' hmid')⟩

theorem Production.Replay.mono (h : p.Replay allowed ts a mid)
    (hallowed : ∀ mid mid', allowed' mid mid' → allowed mid mid') :
    p.Replay allowed' ts a mid := by
  obtain ⟨phrase, rfl, hfirm, hreplay⟩ := h
  exact ⟨phrase, rfl, hfirm, fun mid' hmid' => hreplay mid' (hallowed _ _ hmid')⟩

end Replay

/-! ### Terms -/

theorem Fragments.exists_append {kinds : List Kind} {run : List Token}
    (h : Fragments kinds ts run rest) :
    ts = run ++ rest ∧ run ≠ [] ∧ (∀ t ∈ run, t.kind ∈ kinds) ∧
      ∀ rest', rest'.head? = rest.head? ∨ (∀ t ∈ rest'.head?, t.kind ∉ kinds) →
        Fragments kinds (run ++ rest') run rest' := by
  obtain ⟨hne, hrun, hrest⟩ := h
  refine ⟨rfl, hne, hrun, ?_⟩
  intro rest' h
  refine .mk hne hrun ?_
  rcases h with hhead | hends
  · rwa [hhead]
  · exact hends

theorem Delimited.replay {delimiter : Kind} {inner : List Token}
    (h : Delimited delimiter ts inner rest)
    (hkind : delimiter.isSpace = false ∧ delimiter ≠ .backslash) :
    (Delimited delimiter).Replay (fun _ _ => True) ts inner rest := by
  cases h with
  | @mk opening closing _ _ hopening hinner hclosing =>
      refine ⟨opening :: (inner ++ [closing]), by simp,
        ((firm_singleton hclosing hkind).append inner).cons opening, ?_⟩
      intro rest' _
      simpa using Delimited.mk hopening hinner hclosing

theorem Literal.Derives.replay {l : Literal} (h : Literal.Derives ts l rest) :
    Literal.Derives.Replay Kept ts l rest := by
  cases h with
  | bare hrun =>
      obtain ⟨rfl, hne, hkinds, hreplay⟩ := hrun.exists_append
      exact ⟨_, rfl, firm_of_forall_mem hne hkinds (by decide),
        fun rest' hrest' => .bare (hreplay rest' hrest')⟩
  | phrase hinner =>
      have hreplay := (hinner.replay (by decide)).imp fun _ _ => Literal.Derives.phrase
      exact hreplay.mono fun _ _ _ => trivial

theorem Side.Derives.replay {s : Side} (h : Side.Derives ts s rest) :
    Side.Derives.Replay Kept ts s rest := by
  cases h with
  | unbounded hl => exact hl.replay.imp fun _ _ => Side.Derives.unbounded
  | literal hl hne => exact hl.replay.imp fun _ _ hl' => Side.Derives.literal hl' hne

theorem Interval.Derives.replay {i : Interval} (h : Interval.Derives ts i rest) :
    Interval.Derives.Replay (fun _ _ => True) ts i rest := by
  cases h with
  | @mk opening between closing _ _ _ _ _ _ _ left right _ rightClosed hopening hspaces₁ hleft
      hspaces₂ hto htext hspaces₃ hright hspaces₄ hclosing =>
      obtain ⟨gap₁, rfl, hgap₁⟩ := spaces_iff.mp hspaces₁
      obtain ⟨phrase₁, rfl, -, hleft⟩ := hleft.replay
      obtain ⟨gap₂, hne₂, rfl, hgap₂⟩ := someSpaces_iff.mp hspaces₂
      obtain ⟨gap₃, hne₃, rfl, hgap₃⟩ := someSpaces_iff.mp hspaces₃
      obtain ⟨phrase₂, rfl, hfirm, hright⟩ := hright.replay
      obtain ⟨gap₄, rfl, hgap₄⟩ := spaces_iff.mp hspaces₄
      have hclosed : Firm [closing] := by
        refine firm_singleton hclosing ?_
        cases rightClosed <;> decide
      refine ⟨opening :: (gap₁ ++ (phrase₁ ++ (gap₂ ++ between :: (gap₃ ++ (phrase₂ ++
        (gap₄ ++ [closing])))))), by simp, ?_, ?_⟩
      · simp only [← List.cons_append, ← List.append_assoc]
        exact hclosed.append _
      · intro rest' _
        have hright' : Side.Derives (phrase₂ ++ (gap₄ ++ closing :: rest')) right
            (gap₄ ++ closing :: rest') := by
          apply hright
          simpa using kept_append (show gap₄ ++ [closing] ≠ [] by simp) rest rest'
        have hleft' := hleft (gap₂ ++ between :: (gap₃ ++ (phrase₂ ++ (gap₄ ++ closing :: rest'))))
          (kept_append hne₂ _ _)
        simpa using Interval.Derives.mk hopening (spaces_append hgap₁ _) hleft'
          (someSpaces_iff.mpr ⟨gap₂, hne₂, rfl, hgap₂⟩) hto htext
          (someSpaces_iff.mpr ⟨gap₃, hne₃, rfl, hgap₃⟩) hright'
          (spaces_append hgap₄ _) hclosing

theorem Range.Derives.replay {r : Range} (h : Range.Derives ts r rest) :
    Range.Derives.Replay Kept ts r rest := by
  cases h with
  | comparison ht htext hvalue =>
      obtain ⟨phrase, rfl, hfirm, hreplay⟩ := hvalue.replay
      exact ⟨_ :: phrase, rfl, hfirm.cons _,
        fun rest' hrest' => .comparison ht htext (hreplay rest' hrest')⟩
  | interval hi =>
      exact (hi.replay.imp fun _ _ => Range.Derives.interval).mono fun _ _ _ => trivial

theorem Element.Derives.replay {e : Element} (h : Element.Derives ts e rest) :
    Element.Derives.Replay Kept ts e rest := by
  cases h with
  | literal hl => exact hl.replay.imp fun _ _ => Element.Derives.literal
  | range hr => exact hr.replay.imp fun _ _ => Element.Derives.range

theorem Boost.Derives.replay {b : Boost} (h : Boost.Derives ts b rest) :
    Boost.Derives.Replay (fun _ _ => True) ts b rest := by
  cases h with
  | bare hcaret => exact ⟨[_], rfl, firm_singleton hcaret (by decide), fun _ _ => .bare hcaret⟩
  | whole hcaret hn =>
      exact ⟨[_, _], rfl, (firm_singleton hn (by decide)).cons _, fun _ _ => .whole hcaret hn⟩
  | fraction hcaret hn hdot hm =>
      exact ⟨[_, _, _, _], rfl, (((firm_singleton hm (by decide)).cons _).cons _).cons _,
        fun _ _ => .fraction hcaret hn hdot hm⟩

theorem Suffix.Derives.replay {s : Suffix} (h : Suffix.Derives ts s rest) :
    Suffix.Derives.Replay (fun _ _ => True) ts s rest := by
  cases h with
  | fuzzy hf =>
      cases hf with
      | bare htilde =>
          exact ⟨[_], rfl, firm_singleton htilde (by decide), fun _ _ => .fuzzy (.bare htilde)⟩
      | distance htilde hn =>
          exact ⟨[_, _], rfl, (firm_singleton hn (by decide)).cons _,
            fun _ _ => .fuzzy (.distance htilde hn)⟩
  | boost hb => exact hb.replay.imp fun _ _ => Suffix.Derives.boost

/-- A phrase, and an optional one right after it. -/
theorem Production.Replay.perhaps {p : Production α} {q : Production β} {a : α} {b : Option β}
    (hp : p.Replay Kept ts a mid) (hq : Perhaps (q.Replay fun _ _ => True) mid b rest) :
    ∃ phrase, ts = phrase ++ rest ∧ Firm phrase ∧ ∀ rest', Kept rest rest' →
      ∃ mid', p (phrase ++ rest') a mid' ∧ Perhaps q mid' b rest' := by
  obtain ⟨phrase, rfl, hfirm, hreplay⟩ := hp
  cases hq with
  | none => exact ⟨phrase, rfl, hfirm, fun rest' hrest' => ⟨rest', hreplay rest' hrest', .none⟩⟩
  | some hb =>
      obtain ⟨phrase', rfl, hfirm', hreplay'⟩ := hb
      refine ⟨phrase ++ phrase', by simp, hfirm'.append phrase, ?_⟩
      intro rest' _
      rw [List.append_assoc]
      exact ⟨_, hreplay _ (kept_append hfirm'.ne_nil rest rest'), .some (hreplay' rest' trivial)⟩

theorem Perhaps.imp {p q : Production α} {a : Option α}
    (hpq : ∀ ts a rest, p ts a rest → q ts a rest) (h : Perhaps p ts a rest) :
    Perhaps q ts a rest := by
  cases h with
  | none => exact .none
  | some ha => exact .some (hpq _ _ _ ha)

/-! ### Formulas -/

/-- A keyword with space after it stands before other tokens as what follows it does. -/
theorem Keyword.Stands.replay {k : Keyword} {after start : List Token} {p : Production α} {a : α}
    {allowed : List Token → List Token → Prop} (hk : k.Stands ts after)
    (hspaces : Spaces after start) (hp : p.Replay allowed start a rest) :
    ∃ phrase, ts = phrase ++ rest ∧ Firm phrase ∧ ∀ rest', allowed rest rest' →
      ∃ after' start', k.Stands (phrase ++ rest') after' ∧ Spaces after' start' ∧
        p start' a rest' := by
  obtain ⟨lead, rfl, -, -, hstands⟩ := hk.exists_append
  obtain ⟨gap, rfl, hgap⟩ := spaces_iff.mp hspaces
  obtain ⟨phrase, rfl, hfirm, hreplay⟩ := hp
  have hfirm' : Firm (gap ++ phrase) := hfirm.append gap
  refine ⟨lead ++ (gap ++ phrase), by simp, hfirm'.append lead, ?_⟩
  intro rest' hrest'
  refine ⟨gap ++ (phrase ++ rest'), phrase ++ rest', ?_, spaces_append hgap _,
    hreplay rest' hrest'⟩
  simp only [List.append_assoc]
  apply hstands
  simp only [← List.append_assoc]
  rw [Keyword.appliesTo_append_eq hfirm'.exists_isSpace_eq_false rest rest']
  exact fun _ _ _ => id

/-- No NOT stands at the front of a phrase before other tokens, if none did. -/
theorem Swaps.not_stands {mid' after : List Token} (h : Swaps mid mid') (hfirm : Firm ts)
    (hnot : ∀ after, ¬ Keyword.not.Stands (ts ++ mid) after) :
    ¬ Keyword.not.Stands (ts ++ mid') after := by
  obtain ⟨t, ts, rfl⟩ := List.exists_cons_of_ne_nil hfirm.ne_nil
  intro hstands
  rw [List.cons_append] at hstands hnot
  cases hstands with
  | word hkind htext hfirst hspaces hu hparen =>
      have happlies := (h.append ts).carries [] (by simp)
        (Keyword.appliesTo_iff.mpr ⟨hfirst, _, _, hspaces, hu, hparen⟩)
      obtain ⟨hfirst', u', rest', hspaces', hu', hparen'⟩ := Keyword.appliesTo_iff.mp happlies
      exact hnot _ (.word hkind htext hfirst' hspaces' hu' hparen')
  | bang ht => exact hnot _ (.bang ht)

theorem Operand.Derives.stands_iff {p : Production C} {o : Operand C}
    (h : Operand.Derives p ts o rest) :
    (∃ after, Keyword.not.Stands ts after) ↔ o.negated = true := by
  cases h with
  | negated hnot => simpa using ⟨_, hnot⟩
  | plain hnot => simpa using hnot

/-- Other tokens may come behind the clauses of a formula as `allowed` says: the clauses stay what
they are, and no NOT comes to stand in front of one. -/
structure Production.Tolerates (p : Production C)
    (allowed : List Token → List Token → Prop) : Prop where
  kept : ∀ {mid mid'}, allowed mid mid' → Kept mid mid'
  append : ∀ {mid mid'}, allowed mid mid' → ∀ ts, allowed (ts ++ mid) (ts ++ mid')
  not_stands : ∀ {phrase mid mid' after c}, allowed mid mid' → Firm phrase →
    p (phrase ++ mid') c mid' → (∀ after, ¬ Keyword.not.Stands (phrase ++ mid) after) →
      ¬ Keyword.not.Stands (phrase ++ mid') after

theorem Production.tolerates_swaps (p : Production C) : p.Tolerates Swaps where
  kept h := h.kept
  append h := h.append
  not_stands h hfirm _ := h.not_stands hfirm

/-- Clauses in front of which no NOT can stand do not look at what is behind them. -/
theorem Production.tolerates_kept {p : Production C}
    (hp : ∀ {ts c rest after}, p ts c rest → ¬ Keyword.not.Stands ts after) : p.Tolerates Kept where
  kept h := h
  append h := h.append
  not_stands _ _ hc _ := hp hc

section Formula

variable {p : Production C} {allowed : List Token → List Token → Prop} (hp : p.Tolerates allowed)

include hp

theorem Operand.Derives.replay {o : Operand C} (h : Operand.Derives (p.Replay Kept) ts o rest) :
    (Operand.Derives p).Replay allowed ts o rest := by
  cases h with
  | negated hnot hspaces hc =>
      obtain ⟨phrase, rfl, hfirm, hreplay⟩ := hnot.replay hspaces hc
      refine ⟨phrase, rfl, hfirm, ?_⟩
      intro rest' hrest'
      obtain ⟨after', start', hnot', hspaces', hc'⟩ := hreplay rest' (hp.kept hrest')
      exact .negated hnot' hspaces' hc'
  | plain hnot hc =>
      obtain ⟨phrase, rfl, hfirm, hreplay⟩ := hc
      refine ⟨phrase, rfl, hfirm, ?_⟩
      intro rest' hrest'
      have hc' := hreplay rest' (hp.kept hrest')
      exact .plain (fun _ => hp.not_stands hrest' hfirm hc' hnot) hc'

theorem Link.Derives.replay {l : Link C} (h : Link.Derives (p.Replay Kept) ts l rest) :
    (Link.Derives p).Replay allowed ts l rest := by
  cases h with
  | explicit hspaces hand hspaces' ho =>
      obtain ⟨gap, rfl, hgap⟩ := spaces_iff.mp hspaces
      obtain ⟨phrase, rfl, hfirm, hreplay⟩ := hand.replay hspaces' (ho.replay hp)
      refine ⟨gap ++ phrase, by simp, hfirm.append gap, ?_⟩
      intro rest' hrest'
      obtain ⟨after', start', hand', hspaces', ho'⟩ := hreplay rest' hrest'
      rw [List.append_assoc]
      exact .explicit (spaces_append hgap _) hand' hspaces' ho'
  | juxtaposed hspaces hnot ho =>
      obtain ⟨gap, hne, rfl, hgap⟩ := someSpaces_iff.mp hspaces
      have hnegated := ho.stands_iff.mp ⟨_, hnot⟩
      obtain ⟨phrase, rfl, hfirm, hreplay⟩ := ho.replay hp
      refine ⟨gap ++ phrase, by simp, hfirm.append gap, ?_⟩
      intro rest' hrest'
      obtain ⟨after', hnot'⟩ := (hreplay rest' hrest').stands_iff.mpr hnegated
      rw [List.append_assoc]
      exact .juxtaposed (someSpaces_iff.mpr ⟨gap, hne, rfl, hgap⟩) hnot' (hreplay rest' hrest')

omit hp in
/-- A phrase, and a repetition of others after it. -/
theorem Production.Replay.many {p : Production α} {item item' : Production β} {a : α}
    {bs : List β} (hp : p.Replay allowed ts a mid)
    (happend : ∀ {mid mid'}, allowed mid mid' → ∀ ts, allowed (ts ++ mid) (ts ++ mid'))
    (hitem : ∀ {ts b rest}, item ts b rest → item'.Replay allowed ts b rest)
    (hmany : Many item mid bs rest) :
    ∃ phrase, ts = phrase ++ rest ∧ Firm phrase ∧ ∀ rest', allowed rest rest' →
      ∃ mid', p (phrase ++ rest') a mid' ∧ Many item' mid' bs rest' := by
  obtain ⟨phrase, rfl, hfirm, hreplay⟩ := hp
  have htail : ∃ tail, mid = tail ++ rest ∧ Firm (phrase ++ tail) ∧
      ∀ rest', allowed rest rest' → Many item' (tail ++ rest') bs rest' := by
    clear hreplay
    induction hmany generalizing phrase with
    | nil => exact ⟨[], rfl, by simpa using hfirm, fun _ _ => .nil⟩
    | cons hb _ ih =>
        obtain ⟨phrase', rfl, hfirm', hreplay'⟩ := hitem hb
        obtain ⟨tail, rfl, htail, hmany⟩ := ih phrase' hfirm'
        refine ⟨phrase' ++ tail, by simp, htail.append phrase, ?_⟩
        intro rest' hrest'
        rw [List.append_assoc]
        exact .cons (hreplay' _ (happend hrest' tail)) (hmany rest' hrest')
  obtain ⟨tail, rfl, htail, hmany⟩ := htail
  refine ⟨phrase ++ tail, by simp, htail, ?_⟩
  intro rest' hrest'
  rw [List.append_assoc]
  exact ⟨_, hreplay _ (happend hrest' tail), hmany rest' hrest'⟩

theorem Branch.Derives.replay {b : Branch C} (h : Branch.Derives (p.Replay Kept) ts b rest) :
    (Branch.Derives p).Replay allowed ts b rest := by
  obtain ⟨ho, hls⟩ := h
  obtain ⟨phrase, rfl, hfirm, hreplay⟩ :=
    (ho.replay hp).many hp.append (Link.Derives.replay hp) hls
  refine ⟨phrase, rfl, hfirm, ?_⟩
  intro rest' hrest'
  obtain ⟨mid', ho', hls'⟩ := hreplay rest' hrest'
  exact .mk ho' hls'

theorem Branch.DerivesNext.replay {b : Branch C}
    (h : Branch.DerivesNext (p.Replay Kept) ts b rest) :
    (Branch.DerivesNext p).Replay allowed ts b rest := by
  obtain ⟨hspaces, hor, hspaces', hb⟩ := h
  obtain ⟨gap, rfl, hgap⟩ := spaces_iff.mp hspaces
  obtain ⟨phrase, rfl, hfirm, hreplay⟩ := hor.replay hspaces' (hb.replay hp)
  refine ⟨gap ++ phrase, by simp, hfirm.append gap, ?_⟩
  intro rest' hrest'
  obtain ⟨after', start', hor', hspaces', hb'⟩ := hreplay rest' hrest'
  rw [List.append_assoc]
  exact .mk (spaces_append hgap _) hor' hspaces' hb'

theorem Formula.Derives.replay_of_tolerates {e : Formula C}
    (h : Formula.Derives (p.Replay Kept) ts e rest) :
    (Formula.Derives p).Replay allowed ts e rest := by
  obtain ⟨hb, hbs⟩ := h
  obtain ⟨phrase, rfl, hfirm, hreplay⟩ :=
    (hb.replay hp).many hp.append (Branch.DerivesNext.replay hp) hbs
  refine ⟨phrase, rfl, hfirm, ?_⟩
  intro rest' hrest'
  obtain ⟨mid', hb', hbs'⟩ := hreplay rest' hrest'
  exact .mk hb' hbs'

omit hp in
/-- A formula of clauses that can be derived before other tokens can be so itself. -/
theorem Formula.Derives.replay {e : Formula C} (h : Formula.Derives (p.Replay Kept) ts e rest) :
    (Formula.Derives p).Replay Swaps ts e rest :=
  h.replay_of_tolerates p.tolerates_swaps

end Formula

/-! ### Clauses and terms -/

theorem Enclosed.replay {p q : Production α} {a : α} (h : Enclosed p ts a rest)
    (hpq : ∀ {ts rest}, p ts a rest → q.Replay Swaps ts a rest) :
    (Enclosed q).Replay (fun _ _ => True) ts a rest := by
  cases h with
  | @mk opening closing _ _ _ _ _ hopening hspaces ha hspaces' hclosing =>
      obtain ⟨gap, rfl, hgap⟩ := spaces_iff.mp hspaces
      obtain ⟨phrase, rfl, -, hreplay⟩ := hpq ha
      obtain ⟨gap', rfl, hgap'⟩ := spaces_iff.mp hspaces'
      have hfirm : Firm (gap' ++ [closing]) := (firm_singleton hclosing (by decide)).append gap'
      refine ⟨opening :: (gap ++ (phrase ++ (gap' ++ [closing]))), by simp,
        ((hfirm.append phrase).append gap).cons opening, ?_⟩
      intro rest' _
      have ha' : q (phrase ++ (gap' ++ closing :: rest')) a (gap' ++ closing :: rest') := by
        apply hreplay
        simpa using hfirm.swaps rest rest'
      simpa using Enclosed.mk hopening (spaces_append hgap _) ha'
        (spaces_append hgap' _) hclosing

theorem Clause.Derives.replay {p : Production α}
    (hp : ∀ {ts a rest}, p ts a rest → p.Replay Kept ts a rest) {c : Clause α}
    (h : Clause.Derives p ts c rest) : Production.Replay (Clause.Derives p) Kept ts c rest := by
  induction c generalizing ts rest with
  | leaf a =>
      cases h with
      | leaf ha => exact (hp ha).imp fun _ _ => Clause.Derives.leaf
  | paren sub ih =>
      cases h with
      | paren hsub =>
          have hreplay := hsub.replay fun hformula =>
            (hformula.imp fun c hc us rest hd => ih c hc hd).replay
          exact (hreplay.imp fun _ _ => Clause.Derives.paren).mono fun _ _ _ => trivial

theorem Term.Derives.replay {t : Term} (h : Term.Derives ts t rest) :
    Term.Derives.Replay Kept ts t rest := by
  cases h with
  | regexp hinner =>
      have hreplay := (hinner.replay (by decide)).imp fun _ _ => Term.Derives.regexp
      exact hreplay.mono fun _ _ _ => trivial
  | literal hl hsuffix =>
      obtain ⟨phrase, rfl, hfirm, hreplay⟩ :=
        hl.replay.perhaps (hsuffix.imp fun _ _ _ => Suffix.Derives.replay)
      refine ⟨phrase, rfl, hfirm, ?_⟩
      intro rest' hrest'
      obtain ⟨mid', hl', hsuffix'⟩ := hreplay rest' hrest'
      exact .literal hl' hsuffix'
  | range hr hboost =>
      obtain ⟨phrase, rfl, hfirm, hreplay⟩ :=
        hr.replay.perhaps (hboost.imp fun _ _ _ => Boost.Derives.replay)
      refine ⟨phrase, rfl, hfirm, ?_⟩
      intro rest' hrest'
      obtain ⟨mid', hr', hboost'⟩ := hreplay rest' hrest'
      exact .range hr' hboost'
  | group hg hboost =>
      have hclause := (Clause.Derives.paren hg).replay Element.Derives.replay
      obtain ⟨phrase, rfl, hfirm, hreplay⟩ :=
        hclause.perhaps (hboost.imp fun _ _ _ => Boost.Derives.replay)
      refine ⟨phrase, rfl, hfirm, ?_⟩
      intro rest' hrest'
      obtain ⟨mid', hclause', hboost'⟩ := hreplay rest' hrest'
      cases hclause' with
      | paren hg' => exact .group hg' hboost'

theorem FieldClause.Derives.replay {c : FieldClause} (h : FieldClause.Derives ts c rest) :
    FieldClause.Derives.Replay Kept ts c rest := by
  cases h with
  | @mk _ name _ _ colon _ hname hcolon hterm =>
      obtain ⟨rfl, -, -, hname⟩ := hname.exists_append
      obtain ⟨phrase, rfl, hfirm, hreplay⟩ := hterm.replay
      refine ⟨name ++ colon :: phrase, by simp, (hfirm.cons colon).append name, ?_⟩
      intro rest' hrest'
      rw [List.append_assoc, List.cons_append]
      exact .mk (hname _ (Or.inl rfl)) hcolon (hreplay rest' hrest')

end SearchQuery
