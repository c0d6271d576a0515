import SearchQuery.Proofs.Canonical.RoundTrip
import SearchQuery.Proofs.Fault.Reading
import SearchQuery.Proofs.Fault.Viable

/-!
Errors of syntax are found in time. Wherever the parser reports one, the text before that place is
the start of another text that is accepted: the formulas around the fault are resumed by a complete
clause, and what is open is closed.
-/

namespace SearchQuery

open Token (Kind Segmented Apart LastNot chars filler)

variable {α C : Type} {ts us mid start operand clause rest : List Token} {fault : Fault}

/-! ### Longer formulas -/

theorem Spaces.trans (h : Spaces ts mid) (h' : Spaces mid rest) : Spaces ts rest := by
  induction h with
  | none => exact h'
  | more ht _ ih => exact .more ht (ih h')

theorem Many.append {p : Production α} {as bs : List α} (h : Many p ts as mid)
    (h' : Many p mid bs rest) : Many p ts (as ++ bs) rest := by
  induction h with
  | nil => exact h'
  | cons ha _ ih => exact .cons ha (ih h')

section Formula

variable {p : Production C}

theorem Branch.Derives.append {b : Branch C} {l : Link C} (h : Branch.Derives p ts b mid)
    (hl : Link.Derives p mid l rest) : Branch.Derives p ts ⟨b.head, b.rest ++ [l]⟩ rest := by
  obtain ⟨ho, hls⟩ := h
  exact .mk ho (hls.append (.cons hl .nil))

/-- A further operand belongs to the last branch. -/
theorem Branch.exists_many_append {bs : List (Branch C)} {l : Link C}
    (h : Many (Branch.DerivesNext p) ts bs mid) (hbs : bs ≠ []) (hl : Link.Derives p mid l rest) :
    ∃ bs', Many (Branch.DerivesNext p) ts bs' rest := by
  induction h with
  | nil => exact absurd rfl hbs
  | @cons _ _ _ b bs hnext hmany ih =>
      by_cases hlast : bs = []
      · subst hlast
        cases hmany
        obtain ⟨hspaces, hor, hspaces', hb⟩ := hnext
        exact ⟨_, .cons (.mk hspaces hor hspaces' (hb.append hl)) .nil⟩
      · obtain ⟨bs', hbs'⟩ := ih hlast hl
        exact ⟨b :: bs', .cons hnext hbs'⟩

theorem Formula.Derives.exists_append_link {e : Formula C} {l : Link C}
    (h : Formula.Derives p ts e mid) (hl : Link.Derives p mid l rest) :
    ∃ e', Formula.Derives p ts e' rest := by
  cases h with
  | @mk _ _ _ b bs hb hbs =>
      by_cases hlast : bs = []
      · subst hlast
        cases hbs
        exact ⟨_, .mk (hb.append hl) .nil⟩
      · obtain ⟨bs', hbs'⟩ := Branch.exists_many_append hbs hlast hl
        exact ⟨⟨b, bs'⟩, .mk hb hbs'⟩

/-- A formula, and an operand joined to it. -/
theorem Formula.Derives.exists_join {e : Formula C} {o : Operand C}
    (h : Formula.Derives p ts e mid) (hjoins : Operand.Joins mid start)
    (ho : Operand.Derives p start o rest) : ∃ e', Formula.Derives p ts e' rest := by
  cases hjoins with
  | @keyword k _ _ _ _ hk hspaces hstands hspaces' =>
      cases k with
      | and => exact h.exists_append_link (.explicit hspaces hstands hspaces' ho)
      | or =>
          obtain ⟨hb, hbs⟩ := h
          have hnext := Branch.DerivesNext.mk hspaces hstands hspaces' (.mk ho .nil)
          exact ⟨_, .mk hb (hbs.append (.cons hnext .nil))⟩
      | not => exact absurd rfl hk
  | juxtaposed hspaces hnot => exact h.exists_append_link (.juxtaposed hspaces hnot ho)

/-- An operand is the first one, or joined to a formula. -/
theorem Formula.Reaches.exists_formula (h : Formula.Reaches p ts start) :
    start = ts ∨ ∃ e mid, Formula.Derives p ts e mid ∧ Operand.Joins mid start := by
  induction h with
  | first => exact Or.inl rfl
  | next _ ho hjoins ih =>
      rcases ih with rfl | ⟨e, mid, hformula, hjoins'⟩
      · exact Or.inr ⟨_, _, .mk (.mk ho .nil) .nil, hjoins⟩
      · obtain ⟨e', hformula'⟩ := hformula.exists_join hjoins' ho
        exact Or.inr ⟨e', _, hformula', hjoins⟩

end Formula

/-! ### Resuming formulas -/

theorem Keyword.Leads.append (hts : Keyword.Leads ts) (hus : Keyword.Leads us) :
    Keyword.Leads (ts ++ us) := by
  intro t ht
  by_cases hne : us = []
  · subst hne
    exact hts t (by simpa using ht)
  · rw [List.getLast?_append_of_ne_nil _ hne] at ht
    exact hus t ht

theorem Keyword.leads_of_forall_isSpace (hts : ∀ t ∈ ts, t.isSpace = true) :
    Keyword.Leads ts := by
  intro t ht
  have hspace := hts t (List.mem_of_getLast? ht)
  refine Or.inr ?_
  revert hspace
  simp only [Token.isSpace]
  cases t.kind <;> decide

theorem Keyword.Leads.lastNot (h : Keyword.Leads ts) : LastNot [.backslash] ts := by
  intro t ht
  rcases h t ht with hword | hkind
  · simp [hword.kind_eq]
  · simp only [List.mem_cons, List.not_mem_nil, or_false, not_or] at hkind ⊢
    exact hkind.2.2

theorem Keyword.appliesTo_of_spaces {gap : List Token} {t : Token} (hne : gap ≠ [])
    (hgap : ∀ t ∈ gap, t.isSpace = true) (ht : t.isSpace = false) (hparen : t.kind ≠ .rightParen) :
    Keyword.appliesTo (gap ++ t :: ts) = true := by
  refine Keyword.appliesTo_iff.mpr ⟨?_, t, ts, spaces_append hgap _, ht, hparen⟩
  obtain ⟨u, gap, rfl⟩ := List.exists_cons_of_ne_nil hne
  intro v hv
  cases hv
  have hspace := hgap u List.mem_cons_self
  revert hspace
  simp only [Token.isSpace, Keyword.Continues]
  cases u.kind <;> decide

/-- A keyword before space applies to any keyword behind that. -/
theorem Keyword.Stands.swaps {key : Keyword} {gap after : List Token} (h : key.Stands start after)
    (hne : gap ≠ []) (hgap : ∀ t ∈ gap, t.isSpace = true) (us : List Token) :
    Swaps (gap ++ start) (gap ++ us) where
  kept := kept_append hne start us
  carries := by
    obtain ⟨t, ts, rfl, ht, hkind, -⟩ := h.exists_cons
    intro front hfront _
    rw [← List.append_assoc]
    apply Keyword.appliesTo_of_spaces (by simp [hne]) ?_ ht
    · intro hparen
      simp [hparen] at hkind
    · exact List.forall_mem_append.mpr ⟨hfront, hgap⟩

/-- Other tokens in the place of an operand behind AND or OR. -/
theorem Operand.Joins.resume_keyword {key : Keyword} {word after : List Token} (hkey : key ≠ .not)
    (hspaces : Spaces mid word) (hstands : key.Stands word after) (hspaces' : Spaces after start) :
    ∃ lead, mid = lead ++ start ∧ lead ≠ [] ∧ Keyword.Leads lead ∧
      ∀ us us', Spaces us us' → Keyword.Persists lead start us →
        Operand.Joins (lead ++ us) us' ∧ Swaps mid (lead ++ us) := by
  obtain ⟨gap, rfl, hgap⟩ := spaces_iff.mp hspaces
  obtain ⟨word, rfl, hfirm, hleads, hreplay⟩ := hstands.exists_append
  obtain ⟨gap', rfl, hgap'⟩ := spaces_iff.mp hspaces'
  refine ⟨gap ++ (word ++ gap'), by simp, by simp [hfirm.ne_nil], ?_, ?_⟩
  · exact (Keyword.leads_of_forall_isSpace hgap).append
      (hleads.append (Keyword.leads_of_forall_isSpace hgap'))
  · intro us us' hus hpersists
    simp only [List.append_assoc]
    have hspaces₁ : Spaces (gap ++ (word ++ (gap' ++ us))) (word ++ (gap' ++ us)) :=
      spaces_append hgap _
    have hspaces₂ : Spaces (gap' ++ us) us' :=
      (spaces_append hgap' _).trans hus
    refine ⟨.keyword hkey hspaces₁ (hreplay _ ?_) hspaces₂, (hfirm.swaps _ _).append gap⟩
    rintro t rfl ht
    exact hpersists gap t gap' (by simp) ht hgap'

/-- Other tokens in the place of an operand that is joined to a formula. -/
theorem Operand.Joins.resume (h : Operand.Joins mid start) :
    ∃ lead, mid = lead ++ start ∧ lead ≠ [] ∧ Keyword.Leads lead ∧
      ∀ us us', Spaces us us' → Keyword.Persists lead start us →
        ((∃ after, Keyword.not.Stands start after) → ∃ after, Keyword.not.Stands us' after) →
        Operand.Joins (lead ++ us) us' ∧ Swaps mid (lead ++ us) := by
  cases h with
  | keyword hk hspaces hstands hspaces' =>
      obtain ⟨lead, hmid, hne, hleads, hresume⟩ :=
        Operand.Joins.resume_keyword hk hspaces hstands hspaces'
      exact ⟨lead, hmid, hne, hleads, fun us us' hus hpersists _ => hresume us us' hus hpersists⟩
  | juxtaposed hspaces hnot =>
      obtain ⟨gap, hne, rfl, hgap⟩ := someSpaces_iff.mp hspaces
      refine ⟨gap, rfl, hne, Keyword.leads_of_forall_isSpace hgap, ?_⟩
      intro us us' hus _ hnot'
      obtain ⟨after, hafter⟩ := hnot' ⟨_, hnot⟩
      obtain ⟨gap', rfl, hgap'⟩ := spaces_iff.mp hus
      have hspaces' : SomeSpaces (gap ++ (gap' ++ us')) us' :=
        someSpaces_iff.mpr
          ⟨gap ++ gap', by simp [hne], by simp, List.forall_mem_append.mpr ⟨hgap, hgap'⟩⟩
      exact ⟨.juxtaposed hspaces' hafter, hnot.swaps hne hgap _⟩

/-- Another clause in the place of the one of an operand. -/
theorem Operand.Opens.resume (p : Production C) (h : Operand.Opens operand clause) :
    ∃ lead, operand = lead ++ clause ∧ Keyword.Leads lead ∧
      ∀ us us' c tail, Spaces us us' → Keyword.Persists lead clause us →
        Operand.Derives p us' ⟨false, c⟩ tail →
        ∃ start o, Spaces (lead ++ us) start ∧ Operand.Derives p start o tail ∧
          ((∃ after, Keyword.not.Stands operand after) →
            ∃ after, Keyword.not.Stands start after) := by
  cases h with
  | negated hnot hspaces =>
      obtain ⟨word, rfl, -, hleads, hreplay⟩ := hnot.exists_append
      obtain ⟨gap, rfl, hgap⟩ := spaces_iff.mp hspaces
      refine ⟨word ++ gap, by simp, hleads.append (Keyword.leads_of_forall_isSpace hgap), ?_⟩
      intro us us' c tail hus hpersists hc
      rw [List.append_assoc]
      have hnot' : Keyword.not.Stands (word ++ (gap ++ us)) (gap ++ us) := by
        apply hreplay
        rintro t rfl ht
        exact hpersists [] t gap rfl ht hgap
      cases hc with
      | plain _ hclause =>
          have hspaces' : Spaces (gap ++ us) us' := (spaces_append hgap _).trans hus
          exact ⟨_, _, .none, .negated hnot' hspaces' hclause, fun _ => ⟨_, hnot'⟩⟩
  | plain hnot =>
      refine ⟨[], rfl, by simp [Keyword.Leads], ?_⟩
      intro us us' c tail hus _ hc
      refine ⟨us', _, hus, hc, ?_⟩
      intro hstands
      obtain ⟨after, hafter⟩ := hstands
      exact absurd hafter (hnot after)

/-- Behind `lead` a formula goes on with any clause in the place of one, if a keyword right before
it still applies. -/
def Formula.Resumes (p : Production C) (lead clause : List Token) : Prop :=
  ∀ us us' c tail, Spaces us us' → Keyword.Persists lead clause us →
    Operand.Derives p us' ⟨false, c⟩ tail →
    ∃ start e, Spaces (lead ++ us) start ∧ Formula.Derives p start e tail

section Reaches

variable {p : Production C} (hp : ∀ ts c rest, p ts c rest → p.Replay Kept ts c rest)

include hp

/-- A formula goes on with any clause in the place of one that it reaches. -/
theorem Formula.Reaches.resume (h : Formula.Reaches p ts operand)
    (hopens : Operand.Opens operand clause) :
    ∃ lead, ts = lead ++ clause ∧ Keyword.Leads lead ∧ Formula.Resumes p lead clause := by
  obtain ⟨lead, rfl, hleads, hresume⟩ := hopens.resume p
  rcases h.exists_formula with rfl | ⟨e, mid, hformula, hjoins⟩
  · refine ⟨lead, rfl, hleads, ?_⟩
    intro us us' c tail hus hpersists hc
    obtain ⟨start, o, hstart, ho, -⟩ := hresume us us' c tail hus hpersists hc
    exact ⟨start, _, hstart, .mk (.mk ho .nil) .nil⟩
  · obtain ⟨phrase, rfl, -, hreplay⟩ := (hformula.imp fun c _ us rest => hp us c rest).replay
    obtain ⟨joint, rfl, hne, hjoint, hjoin⟩ := hjoins.resume
    refine ⟨phrase ++ (joint ++ lead), by simp, ?_, ?_⟩
    · intro t ht
      rw [List.getLast?_append_of_ne_nil _ (by simp [hne])] at ht
      exact hjoint.append hleads t ht
    intro us us' c tail hus hpersists hc
    have hpersists : Keyword.Persists (joint ++ lead) clause us := hpersists.of_append
    obtain ⟨start, o, hstart, ho, hnot⟩ := hresume us us' c tail hus hpersists.of_append hc
    obtain ⟨hjoins', hswaps⟩ := hjoin _ _ hstart hpersists.shift hnot
    obtain ⟨e', he'⟩ := (hreplay _ hswaps).exists_join hjoins' ho
    exact ⟨_, e', by simpa using Spaces.none, he'⟩

/-- An operand that a formula reaches is at its start or behind AND or OR, where any other could
stand, or behind space, where AND could. -/
theorem Formula.Reaches.exists_place (h : Formula.Reaches p ts operand) :
    ∃ lead, ts = lead ++ operand ∧
      ((∀ us o tail, Keyword.Persists lead operand us → Operand.Derives p us o tail →
          ∃ e, Formula.Derives p (lead ++ us) e tail) ∨
        (∃ t ∈ lead.getLast?, t.isSpace = true) ∧ ∀ us us' o tail, Keyword.and.Stands us us' →
          Operand.Derives p us' o tail → ∃ e, Formula.Derives p (lead ++ us) e tail) := by
  rcases h.exists_formula with rfl | ⟨e, mid, hformula, hjoins⟩
  · exact ⟨[], rfl, Or.inl fun _ _ _ _ ho => ⟨_, .mk (.mk ho .nil) .nil⟩⟩
  · obtain ⟨phrase, rfl, -, hreplay⟩ := (hformula.imp fun c _ us rest => hp us c rest).replay
    cases hjoins with
    | keyword hk hspaces hstands hspaces' =>
        obtain ⟨joint, rfl, -, -, hjoin⟩ :=
          Operand.Joins.resume_keyword hk hspaces hstands hspaces'
        refine ⟨phrase ++ joint, by simp, Or.inl ?_⟩
        intro us o tail hpersists ho
        obtain ⟨hjoins, hswaps⟩ := hjoin us us .none hpersists.of_append
        rw [List.append_assoc]
        exact (hreplay _ hswaps).exists_join hjoins ho
    | juxtaposed hspaces hnot =>
        obtain ⟨gap, hne, rfl, hgap⟩ := someSpaces_iff.mp hspaces
        have hlast := List.getLast?_eq_some_getLast hne
        refine ⟨phrase ++ gap, by simp, Or.inr ⟨⟨gap.getLast hne, ?_, ?_⟩, ?_⟩⟩
        · rwa [List.getLast?_append_of_ne_nil _ hne]
        · exact hgap _ (List.getLast_mem hne)
        · intro us us' o tail hand ho
          have hjoins : Operand.Joins (gap ++ us) us' :=
            .keyword (by decide) (spaces_append hgap us) hand .none
          rw [List.append_assoc]
          exact (hreplay _ (hnot.swaps hne hgap us)).exists_join hjoins ho

end Reaches

/-! ### Completing formulas -/

/-- Space that does not fuse with a token before it. -/
theorem Token.exists_space_apart {t : Token} (ht : t.kind ≠ .backslash) :
    ∃ u, u.isSpace = true ∧ Segmented [u] ∧ Apart t u := by
  by_cases hblank : t.kind = .blank
  · exact ⟨⟨.lineEnd, "\n"⟩, rfl, by decide, ht, fun _ => by simp [hblank]⟩
  · exact ⟨⟨.blank, " "⟩, rfl, by decide, ht, fun _ => hblank⟩

/-- Space is put between what has been read of a formula and a clause of which nothing has. -/
theorem Completes.exists_gap {lead pre full : List Token} (h : Completes pre full)
    (hseg : Segmented (lead ++ (pre ++ rest))) (hlead : LastNot [.backslash] lead) :
    ∃ gap, (∀ t ∈ gap, t.isSpace = true) ∧ Completes (lead ++ pre) (lead ++ (gap ++ full)) ∧
      (gap = [] → pre = [] → lead = []) ∧ (pre ≠ [] → gap = []) := by
  by_cases hgap : pre = [] ∧ lead ≠ []
  · obtain ⟨rfl, hne⟩ := hgap
    have hlast : lead.getLast? = some (lead.getLast hne) := List.getLast?_eq_some_getLast hne
    obtain ⟨u, hspace, hsegu, hapart⟩ :=
      Token.exists_space_apart (List.mem_singleton.not.mp (hlead _ hlast))
    have hgap : ∀ t ∈ [u], t.isSpace = true := by simpa using hspace
    have hsegspaced : Segmented ((lead ++ [u]) ++ ([] ++ [])) := by
      rw [List.append_nil, List.append_nil]
      refine Token.segmented_append.mpr ⟨(Token.segmented_append.mp hseg).1, hsegu, ?_⟩
      intro t ht v hv
      cases Option.mem_unique hlast ht
      cases hv
      exact hapart
    have hspaced := h.append_left hsegspaced fun _ =>
      Token.lastNot_append_spaces (List.cons_ne_nil u []) hgap (by decide)
    rw [List.append_assoc, List.append_assoc] at hspaced
    refine ⟨[u], hgap, ⟨hspaced.segmented, hspaced.firm, by simp, Or.inl ?_⟩, by simp, by simp⟩
    rw [List.head?_append_of_ne_nil _ hne, List.head?_append_of_ne_nil _ hne]
  · have hnil : pre = [] → lead = [] := by
      intro hpre
      by_contra hne
      exact hgap ⟨hpre, hne⟩
    refine ⟨[], by simp, h.append_left hseg fun hpre => ?_, fun _ => hnil, fun _ => rfl⟩
    simp [hnil hpre, LastNot]

/-- Space, and a phrase after it. -/
def Production.Spaced (p : Production α) (ts rest : List Token) : Prop :=
  ∃ start a, Spaces ts start ∧ p start a rest

/-- A formula can be completed if the clause can that breaks off in it. -/
theorem Formula.viable {p : Production C}
    (hp : ∀ ts c rest, p ts c rest → p.Replay Kept ts c rest)
    (hskip : ∀ {ts c rest}, p ts c rest → Token.skipSpace ts = ts)
    (hreaches : Formula.Reaches p ts operand) (hopens : Operand.Opens operand clause)
    (hclause : Segmented clause → Viable p.Plain clause fault) (hseg : Segmented ts) :
    Viable (Formula.Derives p).Spaced ts fault := by
  obtain ⟨lead, rfl, hleads, hresume⟩ := hreaches.resume hp hopens
  obtain ⟨pre, full, rfl, hfull, hread⟩ := hclause (hseg.of_suffix (List.suffix_append _ _))
  obtain ⟨gap, hgap, hcompletes, hempty, hpre⟩ := hfull.exists_gap hseg hleads.lastNot
  refine ⟨lead ++ pre, lead ++ (gap ++ full), by simp, hcompletes, ?_⟩
  intro tail htail
  obtain ⟨c, hc⟩ := hread tail htail
  have hpersists : Keyword.Persists lead (pre ++ fault.rest) (gap ++ (full ++ tail)) := by
    intro front' key front hlead _ hfront happlies
    have hlead : lead ≠ [] := by simp [hlead]
    obtain ⟨t, full, rfl⟩ := List.exists_cons_of_ne_nil hfull.firm.ne_nil
    rcases hfull.head with hhead | ⟨hnil, text, hhead⟩
    · obtain ⟨pre, rfl⟩ := List.head?_eq_some_iff.mp hhead.symm
      rw [hpre (List.cons_ne_nil _ _)]
      have hspace : t.isSpace = false := by
        cases hc with
        | plain _ hderives =>
            have hself : Token.skipSpace (t :: full ++ tail) = t :: full ++ tail := hskip hderives
            have hmem : t ∈ (Token.skipSpace (t :: full ++ tail)).head? := by
              rw [hself]
              rfl
            exact isSpace_head?_skipSpace hmem
      exact Keyword.carries_append_of_exists ⟨t, List.mem_singleton_self t, hspace⟩ _ _ front
        hfront happlies
    · cases hhead
      rw [← List.append_assoc]
      refine Keyword.appliesTo_of_spaces ?_ ?_ rfl (by simp)
      · intro hempty'
        exact hlead (hempty (List.append_eq_nil_iff.mp hempty').2 hnil)
      · exact List.forall_mem_append.mpr ⟨hfront, hgap⟩
  obtain ⟨start, e, hstart, he⟩ :=
    hresume (gap ++ (full ++ tail)) _ c tail (spaces_append hgap _) hpersists hc
  exact ⟨start, e, by simpa using hstart, he⟩

/-- What was read of a formula whose parenthesis is not closed, with one behind it. -/
theorem Formula.Derives.exists_closed {p : Production C} {e : Formula C} {opening : Token}
    (h : Formula.Derives p start e mid)
    (hp : ∀ {ts c rest}, p ts c rest → p.Replay Kept ts c rest)
    (hopening : opening.kind = .leftParen) (hstart : Spaces ts start) (hmid : Spaces mid rest) :
    ∃ pre, opening :: ts = pre ++ rest ∧ pre ≠ [] ∧ LastNot [.backslash] pre ∧
      ∀ tail, Enclosed (Formula.Derives p) (pre ++ ⟨.rightParen, ")"⟩ :: tail) e tail := by
  obtain ⟨gap, rfl, hgap⟩ := spaces_iff.mp hstart
  obtain ⟨phrase, rfl, hfirm, hreplay⟩ := (h.imp fun _ _ _ _ hc => hp hc).replay
  obtain ⟨gap', rfl, hgap'⟩ := spaces_iff.mp hmid
  refine ⟨([opening] ++ gap ++ phrase) ++ gap', by simp, by simp, ?_, ?_⟩
  · exact (hfirm.append ([opening] ++ gap)).lastNot.append
      (Token.lastNot_of_forall_isSpace hgap' (by decide))
  · intro tail
    have hspaces : Spaces (gap' ++ ⟨.rightParen, ")"⟩ :: tail) (⟨.rightParen, ")"⟩ :: tail) :=
      spaces_append hgap' _
    have he := hreplay _ ((hspaces.closes_cons rfl).swaps (gap' ++ rest))
    simpa using Enclosed.mk hopening (spaces_append hgap _) he hspaces rfl

/-! ### Completing clauses -/

section Clause

variable {leaf : Production α} {depth : α → Nat} {starts : List Kind} {leafBreaks : Nat → Breach}
  {room : Nat} (hleaf : ∀ {ts a rest}, leaf ts a rest → leaf.Replay Kept ts a rest)

theorem Production.Replay.suffix {p : Production α} {allowed : List Token → List Token → Prop}
    {a : α} (h : p.Replay allowed ts a rest) : rest <:+ ts := by
  obtain ⟨phrase, rfl, -, -⟩ := h
  exact List.suffix_append _ _

include hleaf

theorem Clause.Within.replay {c : Clause α} (h : Clause.Within leaf depth room ts c rest) :
    (Clause.Within leaf depth room).Replay Kept ts c rest := by
  obtain ⟨hderives, hdepth⟩ := h
  exact (hderives.replay hleaf).imp fun _ _ hc => ⟨hc, hdepth⟩

theorem Formula.Derives.of_within {e : Formula (Clause α)}
    (h : Formula.Derives (Clause.Within leaf depth room) ts e rest) :
    Formula.Derives (Clause.Derives leaf) ts e rest ∧
      ∀ c ∈ e.clauses, c.depth depth ≤ room := by
  refine ⟨h.imp fun _ _ _ _ hc => hc.1, ?_⟩
  intro c hc
  obtain ⟨us, mid, -, hclause⟩ :=
    h.exists_of_mem (fun hclause => hclause.1.suffix fun ha => (hleaf ha).suffix) hc
  exact hclause.2

theorem Clause.plain_paren {e : Formula (Clause α)}
    (h : Enclosed (Formula.Derives (Clause.Within leaf depth room)) ts e rest) :
    Production.Plain (Clause.Within leaf depth (room + 1)) ts rest := by
  have hstart := h.startsWith
  obtain ⟨hopening, hspaces, he, hspaces', hclosing⟩ := h
  obtain ⟨he, hdepth⟩ := he.of_within hleaf
  have hclause : Clause.Within leaf depth (room + 1) _ (.paren e) rest :=
    ⟨.paren (.mk hopening hspaces he hspaces' hclosing), Clause.depth_paren_le_iff.mpr hdepth⟩
  exact Production.plain_of_startsWith hclause hstart (by decide)

/-- Clauses can be completed if leaves can. -/
theorem Clause.Breaks.viable
    (hskip : ∀ {ts a rest}, leaf ts a rest → Token.skipSpace ts = ts)
    (hfresh : ∀ {room ts fault}, fault.rest = ts → Viable (leaf.Within depth room).Plain ts fault)
    (hbreaks : ∀ {room ts fault}, leafBreaks room ts fault → Segmented ts →
      Viable (leaf.Within depth room).Plain ts fault)
    (h : Clause.Breaks leaf depth starts leafBreaks room ts fault) (hseg : Segmented ts) :
    Viable (Production.Plain (Clause.Within leaf depth room)) ts fault := by
  have hplain : ∀ {room ts fault}, Viable (leaf.Within depth room).Plain ts fault →
      Viable (Production.Plain (Clause.Within leaf depth room)) ts fault := by
    intro room ts fault hviable
    apply hviable.imp
    intro ts rest ha
    obtain ⟨a, ha⟩ := ha
    cases ha with
    | plain hnot ha => exact ⟨.leaf a, .plain hnot ⟨.leaf ha.1, by simpa using ha.2⟩⟩
  have hclosing : Firm [⟨.rightParen, ")"⟩] := firm_singleton rfl (by decide)
  induction h with
  | start => exact hplain (hfresh rfl)
  | leaf hleafBreaks => exact hplain (hbreaks hleafBreaks hseg)
  | tooDeep => exact hplain (hfresh rfl)
  | @inside room opening _ start operand clause fault hopening hspaces hreaches hopens _ ih =>
      obtain ⟨gap, rfl, hgap⟩ := spaces_iff.mp hspaces
      have hclosed (hsegstart : Segmented start) : Viable (fun ts rest => (Formula.Derives
          (Clause.Within leaf depth room)).Spaced ts (⟨.rightParen, ")"⟩ :: rest)) start fault := by
        have hformula := Formula.viable (fun _ _ _ hc => hc.replay hleaf)
          (fun hc => hc.1.skipSpace_eq hskip) hreaches hopens ih hsegstart
        exact hformula.append_right (by decide) hclosing (endsRun_cons rfl (by decide))
          fun _ _ => id
      have hlast : LastNot [.word, .backslash] ([opening] ++ gap) :=
        (Token.lastNot_singleton hopening (by decide)).append
          (Token.lastNot_of_forall_isSpace hgap (by decide))
      change Viable _ (([opening] ++ gap) ++ start) _
      apply viable_append_left hseg hclosed hlast
      intro ts rest hinner
      obtain ⟨us, e, hus, he⟩ := hinner
      have hspaced : Spaces (gap ++ ts) us := (spaces_append hgap _).trans hus
      exact Clause.plain_paren hleaf (.mk hopening hspaced he .none rfl)
  | @unclosed room opening _ _ _ rest e hopening hspaces hformula hspaces' _ =>
      obtain ⟨pre, hpre, hne, hlast, hclose⟩ :=
        hformula.exists_closed (fun hc => hc.replay hleaf) hopening hspaces hspaces'
      rw [hpre] at hseg ⊢
      refine viable_append rfl hseg hne (by decide) hclosing (hlast.apart (by decide)) ?_
      intro tail _
      exact Clause.plain_paren hleaf (hclose tail)

end Clause

/-! ### Completing terms and queries -/

/-- Every clause of a group is a term by itself. -/
theorem Term.exists_derives_of_clause {room : Nat} {c : Clause Element}
    (h : Clause.Within Element.Derives (fun _ => 0) room ts c rest) :
    ∃ t, (Term.Derives.Within Term.depth room) ts t rest := by
  obtain ⟨hderives, hdepth⟩ := h
  cases hderives with
  | leaf he =>
      cases he with
      | literal hl => exact ⟨.literal _ none, .literal hl .none, Nat.zero_le room⟩
      | range hr => exact ⟨.range _ none, .range hr .none, Nat.zero_le room⟩
  | paren hg => exact ⟨.group _ none, .group hg .none, hdepth⟩

theorem Group.Breaks.viable {room : Nat} (h : Group.Breaks room ts fault) (hseg : Segmented ts) :
    Viable (Production.Plain (Clause.Within Element.Derives (fun _ => 0) room)) ts fault :=
  Clause.Breaks.viable Element.Derives.replay Element.exact.skipSpace_eq
    Element.viable_of_rest_eq Element.Breaks.viable h hseg

theorem Term.Breaks.viable {room : Nat} (h : Term.Breaks room ts fault) (hseg : Segmented ts) :
    Viable (Term.Derives.Within Term.depth room).Spans ts fault := by
  cases h with
  | start =>
      refine viable_filler rfl ?_
      intro tail htail
      exact ⟨.literal _ none, .literal (Literal.derives_filler htail) .none, Nat.zero_le room⟩
  | regexp hregexp =>
      apply (hregexp.viable hseg rfl (by decide)).imp
      intro ts rest hinner
      obtain ⟨inner, hinner⟩ := hinner
      exact ⟨.regexp inner, .regexp hinner, Nat.zero_le room⟩
  | group hgroup =>
      apply (hgroup.viable hseg).imp
      intro ts rest hclause
      obtain ⟨c, hclause⟩ := hclause
      cases hclause with
      | plain _ hc => exact Term.exists_derives_of_clause hc

/-- A NOT that belongs to a field name is no keyword. -/
theorem FieldClause.Derives.not_stands {c : FieldClause} (h : FieldClause.Derives ts c rest) :
    ¬ Keyword.not.Stands ts mid := by
  cases h with
  | @mk _ name us _ colon _ hname hcolon _ =>
      obtain ⟨rfl, hne, hkinds, -⟩ := hname.exists_append
      obtain ⟨t, name, rfl⟩ := List.exists_cons_of_ne_nil hne
      intro hnot
      rw [List.cons_append] at hnot
      cases hnot with
      | word _ _ hfirst =>
          obtain ⟨v, hv, hcontinues⟩ : ∃ v ∈ (name ++ colon :: us).head?,
              Keyword.Continues v.kind := by
            cases name with
            | nil => exact ⟨colon, rfl, by simp [Keyword.Continues, hcolon]⟩
            | cons v name =>
                refine ⟨v, rfl, ?_⟩
                have hkind := hkinds v (by simp)
                revert hkind
                simp only [Keyword.Continues]
                cases v.kind <;> decide
          exact hfirst v hv hcontinues
      | bang hbang => simpa [hbang] using hkinds t List.mem_cons_self

/-- A field name with the filler as its term. -/
theorem FieldClause.plain_filler {room : Nat} {name tail : List Token} (hne : name ≠ [])
    (hkinds : ∀ t ∈ name, t.kind ∈ Field.nameKinds) (htail : EndsRun tail) :
    (FieldClause.Derives.Within (fun c => c.term.depth) room).Plain
      (name ++ ⟨.colon, ":"⟩ :: filler :: tail) tail := by
  have hname : Fragments Field.nameKinds (name ++ ⟨.colon, ":"⟩ :: filler :: tail) name
      (⟨.colon, ":"⟩ :: filler :: tail) := by
    refine .mk hne hkinds ?_
    intro t ht
    cases ht
    decide
  have hterm : Term.Derives (filler :: tail) (.literal _ none) tail :=
    .literal (Literal.derives_filler htail) .none
  have hclause := FieldClause.Derives.mk hname rfl hterm
  exact ⟨_, .plain (fun _ => hclause.not_stands) ⟨hclause, Nat.zero_le room⟩⟩

theorem FieldClause.viable_of_rest_eq {room : Nat} (hrest : fault.rest = ts) :
    Viable (FieldClause.Derives.Within (fun c => c.term.depth) room).Plain ts fault := by
  have hfirm : Firm [filler, ⟨.colon, ":"⟩, filler] := Token.firm_filler.append [_, _]
  refine SearchQuery.viable_of_rest_eq hrest (by decide) hfirm rfl ?_
  intro tail htail
  exact FieldClause.plain_filler (List.cons_ne_nil filler []) (by decide) htail

theorem FieldClause.Breaks.viable {room : Nat} (h : FieldClause.Breaks room ts fault)
    (hseg : Segmented ts) :
    Viable (FieldClause.Derives.Within (fun c => c.term.depth) room).Plain ts fault := by
  cases h with
  | @colon _ name rest hname _ =>
      obtain ⟨rfl, hne, hkinds, -⟩ := hname.exists_append
      have hfill : Firm [⟨.colon, ":"⟩, filler] := Token.firm_filler.cons _
      have hlast : LastNot [.backslash] name :=
        (firm_of_forall_mem hne hkinds (by decide)).lastNot
      exact viable_append rfl hseg hne (by decide) hfill (hlast.apart (by decide))
        fun tail htail => FieldClause.plain_filler hne hkinds htail
  | @term _ name us colon _ hname hcolon hterm =>
      obtain ⟨rfl, -, -, hreplay⟩ := hname.exists_append
      have hlast : LastNot [.word, .backslash] (name ++ [colon]) := by
        intro t ht
        rw [List.getLast?_concat] at ht
        cases ht
        simp [hcolon]
      rw [List.append_cons] at hseg ⊢
      apply viable_append_left hseg hterm.viable hlast
      intro ts rest hterm'
      obtain ⟨t, hterm', hdepth⟩ := hterm'
      rw [← List.append_cons]
      have hclause := FieldClause.Derives.mk (hreplay (colon :: ts) (Or.inl rfl)) hcolon hterm'
      exact ⟨_, .plain (fun _ => hclause.not_stands) ⟨hclause, hdepth⟩⟩

theorem Query.Breaks.viable {room : Nat} (h : Query.Breaks room ts fault) (hseg : Segmented ts) :
    Viable (Production.Plain
      (Clause.Within FieldClause.Derives (fun c => c.term.depth) room)) ts fault :=
  Clause.Breaks.viable FieldClause.Derives.replay FieldClause.exact.skipSpace_eq
    FieldClause.viable_of_rest_eq FieldClause.Breaks.viable h hseg

/-! ### Whole texts -/

/-- Space in front of something that can be completed. -/
theorem viable_of_spaces {p : Production α} (hspaces : Spaces ts start)
    (h : Segmented start → Viable p.Spaced start fault) (hseg : Segmented ts) :
    Viable p.Spaced ts fault := by
  obtain ⟨gap, rfl, hgap⟩ := spaces_iff.mp hspaces
  apply viable_append_left hseg h (Token.lastNot_of_forall_isSpace hgap (by decide))
  intro us rest hp
  obtain ⟨us', a, hus, ha⟩ := hp
  exact ⟨us', a, (spaces_append hgap us).trans hus, ha⟩

theorem Query.viable_of_fails {limit : Nat}
    (h : (Query.reader limit).Fails (Token.skipSpace ts) fault) (hseg : Segmented ts) :
    Viable ((Formula.Derives (Clause.Derives FieldClause.Derives)).Within Query.depth limit).Spaced
      ts fault := by
  obtain ⟨operand, clause, hreaches, hopens, hbreaks⟩ := Query.breaks_of_fails h
  refine viable_of_spaces (spaces_skipSpace ts) (fun hsegstart => ?_) hseg
  have hformula := Formula.viable (fun _ _ _ hc => hc.replay FieldClause.Derives.replay)
    (fun hc => hc.1.skipSpace_eq FieldClause.exact.skipSpace_eq) hreaches hopens hbreaks.viable
    hsegstart
  apply hformula.imp
  intro us rest hq
  obtain ⟨start, q, hstart, hq⟩ := hq
  obtain ⟨hderives, hdepth⟩ := hq.of_within FieldClause.Derives.replay
  exact ⟨start, q, hstart, hderives, Formula.sup_le_iff.mpr hdepth⟩

theorem Term.viable_of_fails {limit : Nat}
    (h : (Term.reader limit).Fails (Token.skipSpace ts) fault) (hseg : Segmented ts) :
    Viable (Term.Derives.Within Term.depth limit).Spaced ts fault := by
  refine viable_of_spaces (spaces_skipSpace ts) (fun hsegstart => ?_) hseg
  apply ((Term.breaks_of_fails h).viable hsegstart).imp
  intro us rest ht
  obtain ⟨t, ht⟩ := ht
  exact ⟨us, t, .none, ht⟩

/-- The offset of an error in the order of tokens, as opposed to one in their spelling. -/
def Error.syntaxPos? : Error → Option Nat
  | unexpected pos _ _ | unexpectedEnd pos _ | tooDeep pos _ => some pos
  | unrecognised _ _ | internal _ => none

theorem Fault.syntaxPos?_toError {size limit pos : Nat}
    (h : (fault.toError size limit).syntaxPos? = some pos) :
    pos = size - Token.bytes fault.rest := by
  rcases fault with ⟨_ | ⟨t, rest⟩, expected⟩ | rest | rest <;>
    simp_all [toError, Error.syntaxPos?, Fault.rest, Token.bytes]

section Whole

variable {r : Reader α} {p : Production α} {depth : α → Nat} {after : List Kind} {limit : Nat}

/-- What was read before tokens that are left over is a whole phrase. -/
theorem Production.Replay.exists_whole {a : α} {stop : List Token}
    (h : p.Replay Swaps (Token.skipSpace ts) a stop) (hseg : Segmented ts) :
    ∃ pre, ts = pre ++ Token.skipSpace stop ∧ Segmented pre ∧ Whole p pre a := by
  obtain ⟨gap, hts, hgap⟩ := spaces_iff.mp (spaces_skipSpace ts)
  obtain ⟨phrase, hphrase, -, hreplay⟩ := h
  obtain ⟨gap', hstop, hgap'⟩ := spaces_iff.mp (spaces_skipSpace stop)
  have hspaces : Spaces gap' [] := spaces_iff.mpr ⟨gap', by simp, hgap'⟩
  have hderives := hreplay gap' (hspaces.closes_nil.swaps stop)
  have hsplit : ts = (gap ++ (phrase ++ gap')) ++ Token.skipSpace stop := by
    calc ts = gap ++ Token.skipSpace ts := hts
      _ = gap ++ (phrase ++ stop) := by rw [hphrase]
      _ = (gap ++ (phrase ++ gap')) ++ Token.skipSpace stop := by
        rw [List.append_assoc, List.append_assoc, ← hstop]
  rw [hsplit] at hseg
  exact ⟨gap ++ (phrase ++ gap'), hsplit, (Token.segmented_append.mp hseg).1, phrase ++ gap', gap',
    spaces_append hgap _, hderives, hspaces⟩

variable (hwhole : ∀ {ts a}, r.runWhole after ts = .ok a ↔ Whole p ts a ∧ depth a ≤ limit)
  (hreads : ∀ {ts a rest}, r.Reads ts a rest →
    p.Replay Swaps ts a rest ∧ depth a ≤ limit)
  (hfails : ∀ {ts fault}, r.Fails (Token.skipSpace ts) fault → Segmented ts →
    Viable (p.Within depth limit).Spaced ts fault)

include hwhole hreads hfails

/-- The tokens before a fault are those of an accepted list, or start like one. -/
theorem Reader.exists_runWhole_eq_ok (h : r.runWhole after ts = .error fault)
    (hseg : Segmented ts) :
    ∃ pre full a, ts = pre ++ fault.rest ∧ Segmented full ∧ chars pre <+: chars full ∧
      r.runWhole after full = .ok a := by
  rcases Reader.runWhole_eq_error_iff.mp h with hfault | ⟨a, stop, hread, -, rfl⟩
  · obtain ⟨pre, full, rfl, hfull, hcomplete⟩ := hfails hfault hseg
    obtain ⟨start, a, hstart, ha, hdepth⟩ := hcomplete [] (by simp [EndsRun])
    rw [List.append_nil] at hstart
    exact ⟨pre, full, a, rfl, hfull.segmented, hfull.chars,
      hwhole.mpr ⟨⟨start, [], hstart, ha, .none⟩, hdepth⟩⟩
  · obtain ⟨hreplay, hdepth⟩ := hreads hread
    obtain ⟨pre, hts, hpre, hall⟩ := hreplay.exists_whole hseg
    exact ⟨pre, pre, a, hts, hpre, List.prefix_refl _, hwhole.mpr ⟨hall, hdepth⟩⟩

theorem Reader.exists_parse_eq_ok {s : String} {e : Error} {pos : Nat}
    (h : r.parse after limit s = .error e) (hpos : e.syntaxPos? = some pos) :
    ∃ front back u a, s = front ++ back ∧ front.utf8ByteSize = pos ∧
      r.parse after limit (front ++ u) = .ok a := by
  rcases Reader.exists_of_parse_eq_error h with ⟨_, _, rfl⟩ | ⟨located, fault, htokens, hrun, rfl⟩
  · cases hpos
  · obtain ⟨hjoin, hseg, -⟩ := tokenize_eq_ok_iff.mp htokens
    generalize located.map Token.Located.token = ts at hjoin hseg hrun
    obtain ⟨pre, full, a, rfl, hfull, ⟨cs, hcs⟩, hok⟩ :=
      Reader.exists_runWhole_eq_ok hwhole hreads hfails hrun hseg
    rw [Token.join_append] at hjoin
    have htext : Token.join full = Token.join pre ++ String.ofList cs := by
      rw [← String.toList_inj, String.toList_append, Token.toList_join, Token.toList_join,
        String.toList_ofList, hcs]
    refine ⟨Token.join pre, Token.join fault.rest, String.ofList cs, a, hjoin.symm, ?_, ?_⟩
    · rw [Fault.syntaxPos?_toError hpos, ← hjoin, String.utf8ByteSize_append,
        Token.utf8ByteSize_join fault.rest, Nat.add_sub_cancel]
    · exact Reader.parse_eq_ok_iff_segmented.mpr ⟨full, htext, hfull, hok⟩

end Whole

/-- An error of syntax is reported no later than where it is: what stands before it in the text is
the start of a text that is accepted under the same limit. -/
theorem parseWithin_extends_at_syntaxPos (s : String) (limit pos : Nat) :
    (∀ e, Query.parseWithin limit s = .error e → e.syntaxPos? = some pos →
      ∃ front back u q, s = front ++ back ∧ front.utf8ByteSize = pos ∧
        Query.parseWithin limit (front ++ u) = .ok q) ∧
    ∀ e, Term.parseWithin limit s = .error e → e.syntaxPos? = some pos →
      ∃ front back u t, s = front ++ back ∧ front.utf8ByteSize = pos ∧
        Term.parseWithin limit (front ++ u) = .ok t := by
  refine ⟨?_, ?_⟩
  · intro e he hpos
    rw [Query.parseWithin_eq] at he ⊢
    refine Reader.exists_parse_eq_ok Query.runWhole_eq_ok_iff ?_ Query.viable_of_fails he hpos
    intro ts q rest hread
    obtain ⟨hq, hdepth⟩ := Query.derives_of_reads hread
    exact ⟨(hq.imp fun _ _ _ _ hc => hc.replay FieldClause.Derives.replay).replay, hdepth⟩
  · intro e he hpos
    rw [Term.parseWithin_eq] at he ⊢
    refine Reader.exists_parse_eq_ok Term.runWhole_eq_ok_iff ?_ Term.viable_of_fails he hpos
    intro ts t rest hread
    obtain ⟨ht, hdepth⟩ := Term.derives_of_reads hread
    exact ⟨ht.replay.mono fun _ _ hswaps => hswaps.kept, hdepth⟩

/-- A phrase that ends in a backslash behind NOT and a parenthesis, and a parenthesis too many
behind OR. -/
theorem parseWithin_extends_at_syntaxPos_backslash :
    let s := "x:a AND (!y:\"b\\"
    let s' := "(a OR ((b))"
    (Query.parseWithin 1 s = .error (.unexpectedEnd 15 [.quote]) ∧
      ∃ front back u q, s = front ++ back ∧ front.utf8ByteSize = 15 ∧
        Query.parseWithin 1 (front ++ u) = .ok q) ∧
    Term.parseWithin 1 s' = .error (.tooDeep 6 1) ∧
      ∃ front back u t, s' = front ++ back ∧ front.utf8ByteSize = 6 ∧
        Term.parseWithin 1 (front ++ u) = .ok t := by
  intro s s'
  have hs : Query.parseWithin 1 s = .error (.unexpectedEnd 15 [.quote]) := by decide +kernel
  have hs' : Term.parseWithin 1 s' = .error (.tooDeep 6 1) := by decide +kernel
  exact ⟨⟨hs, (parseWithin_extends_at_syntaxPos s 1 15).1 _ hs rfl⟩,
    hs', (parseWithin_extends_at_syntaxPos s' 1 6).2 _ hs' rfl⟩

end SearchQuery
