import SearchQuery.Edit
import SearchQuery.Proofs.Fault.Completion

/-!
Queries out of the texts of queries. Put next to each other with OR, AND or space between them, or
in parentheses, two accepted texts are read as they were read alone, and their trees are put
together in the same way. What a query says does not depend on what comes behind it because no NOT
can stand in front of a field name; of the bodies of groups this is not true.
-/

namespace SearchQuery

open Token (Kind Segmented Apart LastNot chars)

variable {C : Type} {ts us mid start rest : List Token}

/-! ### Space -/

theorem Token.Segmented.isBlank_of_mem {gap : List Token} (h : Segmented gap)
    (hgap : ∀ t ∈ gap, t.isSpace = true) : ∀ c ∈ chars gap, Text.isBlank c = true := by
  intro c hc
  obtain ⟨t, ht, hmem⟩ := List.mem_flatMap.mp hc
  exact (h.lexical t ht).isBlank_of_isSpace (hgap t ht) c hmem

/-- A blank character is a token of space by itself, and continues a run of its kind. -/
theorem Token.exists_kind_of_isBlank {c : Char} (h : Text.isBlank c = true) :
    ∃ k : Kind, k.isSpace = true ∧ ∀ cs, k.Holds cs → k.Holds (c :: cs) := by
  by_cases hline : Text.isLineEnd c = true
  · exact ⟨.lineEnd, rfl, fun cs hcs => List.forall_mem_cons.mpr ⟨hline, hcs⟩⟩
  · refine ⟨.blank, rfl, fun cs hcs => List.forall_mem_cons.mpr ⟨⟨h, ?_⟩, hcs⟩⟩
    simpa using hline

/-- Blank characters are split into space. -/
theorem Token.exists_segmented_of_isBlank (cs : List Char) (hcs : ∀ c ∈ cs, Text.isBlank c = true) :
    ∃ gap, Segmented gap ∧ (∀ t ∈ gap, t.isSpace = true) ∧ chars gap = cs := by
  induction cs with
  | nil => exact ⟨[], Token.segmented_nil, by simp, rfl⟩
  | cons c cs ih =>
      rw [List.forall_mem_cons] at hcs
      obtain ⟨gap, hseg, hgap, hchars⟩ := ih hcs.2
      obtain ⟨k, hk, hholds⟩ := Token.exists_kind_of_isBlank hcs.1
      have hback : k ≠ .backslash := by
        rintro rfl
        cases hk
      by_cases hhead : ∃ u ∈ gap.head?, u.kind = k
      · -- the first run of space takes up the character
        obtain ⟨u, hu, rfl⟩ := hhead
        obtain ⟨gap, rfl⟩ := List.head?_eq_some_iff.mp hu
        obtain ⟨hlexical, hsegrest, hborder⟩ := Token.segmented_cons.mp hseg
        refine ⟨⟨u.kind, String.ofList (c :: u.text.toList)⟩ :: gap, ?_, ?_, ?_⟩
        · refine Token.segmented_cons.mpr ⟨⟨by simp, ?_⟩, hsegrest, hborder⟩
          simpa using hholds _ hlexical.2
        · exact List.forall_mem_cons.mpr ⟨hk, (List.forall_mem_cons.mp hgap).2⟩
        · simpa using hchars
      · refine ⟨⟨k, String.ofList [c]⟩ :: gap, ?_, List.forall_mem_cons.mpr ⟨hk, hgap⟩, ?_⟩
        · refine Token.segmented_cons.mpr ⟨⟨by simp, ?_⟩, hseg, ?_⟩
          · have hnil : k.Holds [] := by
              revert hk
              cases k <;> simp [Kind.isSpace, Kind.Holds]
            simpa using hholds [] hnil
          · intro u hu
            exact ⟨hback, fun _ hkind => hhead ⟨u, hu, hkind.symm⟩⟩
        · simp [hchars]

/-- Space ends a bare run. -/
theorem endsRun_append_of_isSpace {gap : List Token} (hne : gap ≠ [])
    (hgap : ∀ t ∈ gap, t.isSpace = true) (ts : List Token) : EndsRun (gap ++ ts) := by
  obtain ⟨t, gap, rfl⟩ := List.exists_cons_of_ne_nil hne
  have hspace := hgap t List.mem_cons_self
  intro u hu
  cases hu
  revert hspace
  simp only [Token.isSpace]
  cases t.kind <;> decide

theorem Token.Segmented.append_spaced {gap : List Token} (hts : Segmented ts) (hfirm : Firm ts)
    (hgap : Segmented gap) (hne : gap ≠ []) (hspace : ∀ t ∈ gap, t.isSpace = true)
    (hus : Segmented us) (hhead : ∀ u ∈ us.head?, u.isSpace = false) :
    Segmented (ts ++ (gap ++ us)) := by
  have hright : Segmented (gap ++ us) := by
    refine Token.segmented_append.mpr ⟨hgap, hus, ?_⟩
    intro t ht u hu
    have ht' := hspace t (List.mem_of_getLast? ht)
    have hu' := hhead u hu
    refine ⟨?_, ?_⟩
    · intro hkind
      simp [Token.isSpace, hkind, Kind.isSpace] at ht'
    · intro _ hkind
      simp [Token.isSpace, ← hkind] at ht' hu'
      simp [ht'] at hu'
  exact Token.segmented_append.mpr
    ⟨hts, hright, hfirm.apart (endsRun_append_of_isSpace hne hspace us)⟩

/-! ### Formulas in a row -/

namespace Formula

variable {p : Production C}

/-- The branches of `e` but the last, that one with the operands of the first branch of `f` behind
its own, and the other branches of `f`. -/
def chain (explicit : Bool) (e f : Formula C) : List (Branch C) :=
  let last := e.branches.getLast (List.cons_ne_nil _ _)
  e.branches.dropLast ++ ⟨last.head, last.rest ++ ⟨explicit, f.head.head⟩ :: f.head.rest⟩ :: f.rest

theorem branches_mapLast (change : Branch C → Branch C) (b : Branch C) (bs : List (Branch C)) :
    (mapLast change b bs).branches =
      (b :: bs).dropLast ++ [change ((b :: bs).getLast (List.cons_ne_nil b bs))] := by
  induction bs generalizing b with
  | nil => rfl
  | cons b' bs ih =>
      have hbranches : (mapLast change b (b' :: bs)).branches =
          b :: (mapLast change b' bs).branches := rfl
      rw [hbranches, ih]
      simp

theorem Derives.disjoin {e f : Formula C} {mid' after : List Token}
    (he : Formula.Derives p ts e mid) (hspaces : Spaces mid mid')
    (hor : Keyword.or.Stands mid' after) (hspaces' : Spaces after start)
    (hf : Formula.Derives p start f rest) : Formula.Derives p ts (e.disjoin f) rest := by
  obtain ⟨hb, hbs⟩ := he
  obtain ⟨hb', hbs'⟩ := hf
  exact .mk hb (hbs.append (.cons (.mk hspaces hor hspaces' hb') hbs'))

theorem derives_iff {e : Formula C} :
    Formula.Derives p ts e rest ↔
      ∃ mid, Branch.Derives p ts e.head mid ∧ Many (Branch.DerivesNext p) mid e.rest rest := by
  constructor
  · rintro ⟨hb, hbs⟩
    exact ⟨_, hb, hbs⟩
  · rintro ⟨mid, hb, hbs⟩
    exact .mk hb hbs

/-- Further operands belong to the last branch. -/
theorem derives_mapLast {b : Branch C} {bs : List (Branch C)} {ls : List (Link C)}
    {mid' : List Token} (hb : Branch.Derives p ts b mid)
    (hbs : Many (Branch.DerivesNext p) mid bs mid') (hls : Many (Link.Derives p) mid' ls rest) :
    Formula.Derives p ts (mapLast (fun b => ⟨b.head, b.rest ++ ls⟩) b bs) rest := by
  induction bs generalizing ts b mid with
  | nil =>
      cases hbs
      obtain ⟨ho, hls'⟩ := hb
      exact .mk (.mk ho (hls'.append hls)) .nil
  | cons b' bs ih =>
      cases hbs with
      | cons hnext hbs =>
          obtain ⟨hspaces, hor, hspaces', hb'⟩ := hnext
          obtain ⟨mid'', hhead, hrest⟩ := derives_iff.mp (ih hb' hbs)
          exact .mk hb (.cons (.mk hspaces hor hspaces' hhead) hrest)

theorem Derives.exists_chain {e f : Formula C} {explicit : Bool}
    (he : Formula.Derives p ts e mid)
    (hlink : ∀ rest, Operand.Derives p start f.head.head rest →
      Link.Derives p mid ⟨explicit, f.head.head⟩ rest)
    (hf : Formula.Derives p start f rest) :
    ∃ g, Formula.Derives p ts g rest ∧ g.branches = e.chain explicit f := by
  obtain ⟨mid₁, hb, hbs⟩ := derives_iff.mp he
  obtain ⟨mid₂, hb', hbs'⟩ := derives_iff.mp hf
  have hls : Many (Link.Derives p) mid (⟨explicit, f.head.head⟩ :: f.head.rest) mid₂ := by
    obtain ⟨⟨o, ls⟩, bs⟩ := f
    obtain ⟨ho, hls⟩ := hb'
    exact .cons (hlink _ ho) hls
  have hjoined := derives_mapLast hb hbs hls
  obtain ⟨mid₃, hhead, hrest⟩ := derives_iff.mp hjoined
  refine ⟨⟨_, _⟩, .mk hhead (hrest.append hbs'), ?_⟩
  have hbranches := congrArg (· ++ f.rest) (branches_mapLast
    (fun b => ⟨b.head, b.rest ++ ⟨explicit, f.head.head⟩ :: f.head.rest⟩) e.head e.rest)
  refine hbranches.trans ?_
  simp [chain, branches]

end Formula

/-! ### Queries before other tokens -/

theorem Clause.Derives.not_stands {c : Clause FieldClause} {after : List Token}
    (h : Clause.Derives FieldClause.Derives ts c rest) : ¬ Keyword.not.Stands ts after := by
  cases h with
  | leaf hleaf => exact hleaf.not_stands
  | paren hsub =>
      intro hnot
      exact Token.startsWith_disjoint hsub.startsWith hnot.startsWith (by decide)

/-- A query starts with a parenthesis, a field name or a negation. -/
theorem Formula.Derives.startsWith {limit : Nat} {q : Query}
    (h : Formula.Derives (Clause.Within FieldClause.Derives (fun c => c.term.depth) limit) ts q
      rest) :
    Token.startsWith [.leftParen, .word, .number, .dot, .minus, .ampersand, .bar, .bang] ts =
      true := by
  obtain ⟨⟨ho, -⟩, -⟩ := h
  cases ho with
  | negated hnot _ _ => exact Token.startsWith_mono (by decide) hnot.startsWith
  | plain _ hc =>
      obtain ⟨hc, -⟩ := hc
      cases hc with
      | leaf hleaf =>
          obtain ⟨hname, -, -⟩ := hleaf
          exact Token.startsWith_mono (by decide) hname.startsWith
      | paren hsub => exact Token.startsWith_mono (by decide) hsub.startsWith

namespace Query

/-- The clauses of queries with at most `limit` open parentheses. -/
abbrev Clauses (limit : Nat) : Production (Clause FieldClause) :=
  Clause.Within FieldClause.Derives (fun c => c.term.depth) limit

/-- A text as space, a query and space. The query is the same before anything that does not go on
with its last literal. -/
structure Frame (limit : Nat) (s : String) (q : Query) where
  front : List Token
  phrase : List Token
  back : List Token
  text : chars front ++ (chars phrase ++ chars back) = s.toList
  segmented : Segmented (front ++ (phrase ++ back))
  space_front : ∀ t ∈ front, t.isSpace = true
  space_back : ∀ t ∈ back, t.isSpace = true
  firm : Firm phrase
  derives : ∀ rest, EndsRun rest → Formula.Derives (Clauses limit) (phrase ++ rest) q rest

variable {limit : Nat} {s s₁ s₂ : String} {q q₁ q₂ : Query}

/-- Every accepted text is such. -/
theorem nonempty_frame (h : Query.parseWithin limit s = .ok q) : Nonempty (Frame limit s q) := by
  obtain ⟨ts, rfl, hseg, ⟨start, stop, hstart, hq, hstop⟩, hdepth⟩ :=
    parseWithin_eq_ok_iff_segmented.mp h
  have hreplay : ∀ c ∈ q.clauses, ∀ ts rest, Clause.Derives FieldClause.Derives ts c rest →
      (Clauses limit).Replay Kept ts c rest :=
    fun c hc _ _ hd =>
      Clause.Within.replay FieldClause.Derives.replay ⟨hd, Formula.sup_le_iff.mp hdepth c hc⟩
  have htolerates : (Clauses limit).Tolerates Kept :=
    Production.tolerates_kept fun hc => hc.1.not_stands
  obtain ⟨gap, rfl, hgap⟩ := spaces_iff.mp hstart
  obtain ⟨phrase, rfl, hfirm, hderives⟩ := (hq.imp hreplay).replay_of_tolerates htolerates
  obtain ⟨gap', rfl, hgap'⟩ := spaces_iff.mp hstop
  rw [List.append_nil] at hseg ⊢
  exact ⟨gap, phrase, gap', by simp, hseg, hgap, hgap', hfirm,
    fun rest hrest => hderives rest (Or.inr hrest)⟩

/-- A text is accepted if it splits into space, a query and space. -/
theorem parseWithin_of_derives (front : List Token) {back : List Token}
    (htext : chars (front ++ ts) = s.toList)
    (hseg : Segmented (front ++ ts)) (hfront : ∀ t ∈ front, t.isSpace = true)
    (hq : Formula.Derives (Clauses limit) ts q back) (hback : ∀ t ∈ back, t.isSpace = true) :
    Query.parseWithin limit s = .ok q := by
  obtain ⟨hderives, hdepth⟩ := hq.of_within FieldClause.Derives.replay
  have hwhole : Query.Derives (front ++ ts) q :=
    ⟨ts, back, spaces_append hfront ts, hderives, spaces_iff.mpr ⟨back, by simp, hback⟩⟩
  refine parseWithin_eq_ok_iff_segmented.mpr
    ⟨front ++ ts, ?_, hseg, hwhole, Formula.sup_le_iff.mpr hdepth⟩
  rw [← String.toList_inj, Token.toList_join, htext]

namespace Frame

theorem endsRun_back (f : Frame limit s q) : EndsRun f.back := by
  by_cases hne : f.back = []
  · simp [EndsRun, hne]
  · simpa using endsRun_append_of_isSpace hne f.space_back []

theorem exists_cons (f : Frame limit s q) :
    ∃ t ts, f.phrase = t :: ts ∧ t.isSpace = false ∧ t.kind ≠ .rightParen := by
  have hstart := (f.derives f.back f.endsRun_back).startsWith
  obtain ⟨t, ts, hphrase⟩ := List.exists_cons_of_ne_nil f.firm.ne_nil
  rw [hphrase, List.cons_append, Token.startsWith_cons] at hstart
  refine ⟨t, ts, hphrase, ?_⟩
  revert hstart
  simp only [Token.isSpace]
  cases t.kind <;> decide

theorem isSpace_head (f : Frame limit s q) :
    ∀ t ∈ (f.phrase ++ f.back).head?, t.isSpace = false := by
  obtain ⟨t, ts, hphrase, hspace, -⟩ := f.exists_cons
  simpa [hphrase] using hspace

theorem segmented_left (f : Frame limit s q) : Segmented (f.front ++ f.phrase) := by
  have hseg := f.segmented
  rw [← List.append_assoc] at hseg
  exact (Token.segmented_append.mp hseg).1

theorem segmented_right (f : Frame limit s q) : Segmented (f.phrase ++ f.back) :=
  f.segmented.of_suffix (List.suffix_append _ _)

theorem splitsInto (f : Frame limit s q) :
    Token.SplitsInto s (f.front ++ (f.phrase ++ f.back)) := by
  refine Token.splitsInto_iff.mpr ⟨?_, f.segmented⟩
  rw [← String.toList_inj, Token.toList_join, Token.chars_append, Token.chars_append, f.text]

theorem isBlank_front (f : Frame limit s q) : ∀ c ∈ chars f.front, Text.isBlank c = true :=
  (Token.segmented_append.mp f.segmented).1.isBlank_of_mem f.space_front

theorem isBlank_back (f : Frame limit s q) : ∀ c ∈ chars f.back, Text.isBlank c = true :=
  (Token.segmented_append.mp f.segmented_right).2.1.isBlank_of_mem f.space_back

/-- Space behind a query, and other tokens. -/
theorem exists_spaced (f : Frame limit s q) (hus : Segmented us)
    (hhead : ∀ t ∈ us.head?, t.isSpace = false) :
    ∃ gap, gap ≠ [] ∧ (∀ t ∈ gap, t.isSpace = true) ∧
      Segmented (f.front ++ (f.phrase ++ (gap ++ us))) ∧
      chars (f.front ++ (f.phrase ++ (gap ++ us))) = s.toList ++ ' ' :: chars us := by
  obtain ⟨gap, hseg, hgap, hchars⟩ := Token.exists_segmented_of_isBlank (chars f.back ++ [' '])
    (List.forall_mem_append.mpr ⟨f.isBlank_back, List.forall_mem_singleton.mpr (by decide)⟩)
  have hne : gap ≠ [] := by
    rintro rfl
    simp at hchars
  have hall := f.segmented_left.append_spaced (f.firm.append f.front) hseg hne hgap hus hhead
  rw [List.append_assoc] at hall
  exact ⟨gap, hne, hgap, hall, by simp [hchars, ← f.text]⟩

/-- The tokens of two queries with a word and space between them. -/
theorem exists_joined (f₁ : Frame limit s₁ q₁) (f₂ : Frame limit s₂ q₂) (word : Token)
    (hlexical : word.Lexical) (hword : word.kind = .word) :
    ∃ gap gap', gap ≠ [] ∧ gap' ≠ [] ∧ (∀ t ∈ gap, t.isSpace = true) ∧
      (∀ t ∈ gap', t.isSpace = true) ∧
      Segmented (f₁.front ++ (f₁.phrase ++ (gap ++ word :: (gap' ++ (f₂.phrase ++ f₂.back))))) ∧
      chars (f₁.front ++ (f₁.phrase ++ (gap ++ word :: (gap' ++ (f₂.phrase ++ f₂.back))))) =
        s₁.toList ++ (' ' :: word.text.toList ++ ' ' :: s₂.toList) := by
  obtain ⟨gap', hseg', hgap', hchars'⟩ := Token.exists_segmented_of_isBlank (' ' :: chars f₂.front)
    (List.forall_mem_cons.mpr ⟨by decide, f₂.isBlank_front⟩)
  have hne' : gap' ≠ [] := by
    rintro rfl
    simp at hchars'
  have hsegword : Segmented [word] :=
    Token.segmented_cons.mpr ⟨hlexical, Token.segmented_nil, by simp⟩
  have hright : Segmented (word :: (gap' ++ (f₂.phrase ++ f₂.back))) :=
    hsegword.append_spaced (firm_singleton hword (by decide)) hseg' hne' hgap' f₂.segmented_right
      f₂.isSpace_head
  obtain ⟨gap, hne, hgap, hall, hchars⟩ :=
    f₁.exists_spaced hright (by simp [Token.isSpace, hword, Kind.isSpace])
  refine ⟨gap, gap', hne, hne', hgap, hgap', hall, ?_⟩
  rw [hchars, ← f₂.text]
  simp [hchars']

/-- A word is a keyword before space and a query. -/
theorem stands (f : Frame limit s q) (k : Keyword) (text : String) {gap : List Token}
    (hk : (k, text) ∈ [(.and, "AND"), (.and, "and"), (.or, "OR"), (.or, "or"), (.not, "NOT"),
      (.not, "not")])
    (hne : gap ≠ []) (hgap : ∀ t ∈ gap, t.isSpace = true) (ts : List Token) :
    k.Stands (⟨.word, text⟩ :: (gap ++ (f.phrase ++ ts))) (gap ++ (f.phrase ++ ts)) := by
  obtain ⟨t, us, hphrase, hspace, hparen⟩ := f.exists_cons
  have happlies : Keyword.appliesTo (gap ++ t :: (us ++ ts)) = true :=
    Keyword.appliesTo_of_spaces hne hgap hspace hparen
  obtain ⟨hfirst, u, rest, hspaces, hu, hparen'⟩ := Keyword.appliesTo_iff.mp happlies
  rw [hphrase]
  exact .word rfl hk hfirst hspaces hu hparen'

theorem parse_or (f₁ : Frame limit s₁ q₁) (f₂ : Frame limit s₂ q₂) :
    Query.parseWithin limit (s₁ ++ " OR " ++ s₂) = .ok (q₁.disjoin q₂) := by
  obtain ⟨gap, gap', hne, hne', hgap, hgap', hseg, hchars⟩ :=
    f₁.exists_joined f₂ ⟨.word, "OR"⟩ (by decide) rfl
  have hor := f₂.stands .or "OR" (by decide) hne' hgap' f₂.back
  have hq := (f₁.derives _ (endsRun_append_of_isSpace hne hgap _)).disjoin (spaces_append hgap _)
    hor (spaces_append hgap' _) (f₂.derives f₂.back f₂.endsRun_back)
  refine parseWithin_of_derives f₁.front ?_ hseg f₁.space_front hq f₂.space_back
  rw [hchars]
  simp

theorem parse_and (f₁ : Frame limit s₁ q₁) (f₂ : Frame limit s₂ q₂) :
    ∃ q, Query.parseWithin limit (s₁ ++ " AND " ++ s₂) = .ok q ∧
      q.branches = q₁.chain true q₂ := by
  obtain ⟨gap, gap', hne, hne', hgap, hgap', hseg, hchars⟩ :=
    f₁.exists_joined f₂ ⟨.word, "AND"⟩ (by decide) rfl
  have hand := f₂.stands .and "AND" (by decide) hne' hgap' f₂.back
  obtain ⟨q, hq, hbranches⟩ := (f₁.derives _ (endsRun_append_of_isSpace hne hgap _)).exists_chain
    (fun _ ho => .explicit (spaces_append hgap _) hand (spaces_append hgap' _) ho)
    (f₂.derives f₂.back f₂.endsRun_back)
  refine ⟨q, parseWithin_of_derives f₁.front ?_ hseg f₁.space_front hq f₂.space_back, hbranches⟩
  rw [hchars]
  simp

theorem parse_juxtaposed (f₁ : Frame limit s₁ q₁) (f₂ : Frame limit s₂ q₂)
    (hnegated : q₂.head.head.negated = true) :
    ∃ q, Query.parseWithin limit (s₁ ++ " " ++ s₂) = .ok q ∧ q.branches = q₁.chain false q₂ := by
  obtain ⟨gap, hseg, hgap, hchars⟩ :=
    Token.exists_segmented_of_isBlank (chars f₁.back ++ ' ' :: chars f₂.front)
      (List.forall_mem_append.mpr
        ⟨f₁.isBlank_back, List.forall_mem_cons.mpr ⟨by decide, f₂.isBlank_front⟩⟩)
  have hne : gap ≠ [] := by
    rintro rfl
    simp at hchars
  have hall := f₁.segmented_left.append_spaced (f₁.firm.append f₁.front) hseg hne hgap
    f₂.segmented_right f₂.isSpace_head
  rw [List.append_assoc] at hall
  have hspaces : SomeSpaces (gap ++ (f₂.phrase ++ f₂.back)) (f₂.phrase ++ f₂.back) :=
    someSpaces_iff.mpr ⟨gap, hne, rfl, hgap⟩
  have hlink : ∀ rest, Operand.Derives (Clauses limit) (f₂.phrase ++ f₂.back) q₂.head.head rest →
      Link.Derives (Clauses limit) (gap ++ (f₂.phrase ++ f₂.back)) ⟨false, q₂.head.head⟩ rest := by
    intro rest ho
    obtain ⟨after, hnot⟩ := ho.stands_iff.mpr hnegated
    exact .juxtaposed hspaces hnot ho
  obtain ⟨q, hq, hbranches⟩ := (f₁.derives _ (endsRun_append_of_isSpace hne hgap _)).exists_chain
    hlink (f₂.derives f₂.back f₂.endsRun_back)
  refine ⟨q, parseWithin_of_derives f₁.front ?_ hall f₁.space_front hq f₂.space_back, hbranches⟩
  simp only [Token.chars_append, hchars, String.toList_append, ← f₁.text, ← f₂.text]
  simp

/-- The tokens of a query in parentheses. -/
def enclosed (f : Frame limit s q) : List Token :=
  ⟨.leftParen, "("⟩ :: (f.front ++ (f.phrase ++ (f.back ++ [⟨.rightParen, ")"⟩])))

theorem segmented_enclosed (f : Frame limit s q) : Segmented f.enclosed := by
  have hlast : LastNot [.backslash] (f.front ++ (f.phrase ++ f.back)) :=
    (Token.lastNot_of_forall_isSpace f.space_front (by decide)).append
      (f.firm.lastNot.append (Token.lastNot_of_forall_isSpace f.space_back (by decide)))
  have hopening : (⟨.leftParen, "("⟩ : Token).IsSymbol '(' := ⟨rfl, rfl⟩
  have hclosing : (⟨.rightParen, ")"⟩ : Token).IsSymbol ')' := ⟨rfl, rfl⟩
  have hinner := (hclosing.segmented_append_iff hlast).mpr ⟨f.segmented, Token.segmented_nil⟩
  have hnil : LastNot [.backslash] [] := nofun
  have houter := (hopening.segmented_append_iff hnil).mpr ⟨Token.segmented_nil, hinner⟩
  simpa [enclosed] using houter

theorem derives_enclosed (f : Frame limit s q) (hdepth : q.depth < limit) :
    Clauses limit f.enclosed (.paren q) [] := by
  have hclosing : Spaces (f.back ++ [⟨.rightParen, ")"⟩]) [⟨.rightParen, ")"⟩] :=
    spaces_append f.space_back _
  have hends : EndsRun (f.back ++ [⟨.rightParen, ")"⟩]) :=
    .of_spaces hclosing (endsRun_cons rfl (by decide))
  have hinner := ((f.derives _ hends).of_within FieldClause.Derives.replay).1
  refine ⟨.paren (.mk rfl (spaces_append f.space_front _) hinner hclosing rfl), ?_⟩
  rw [Clause.depth_paren]
  exact hdepth

theorem parse_enclose (f : Frame limit s q) (hdepth : q.depth < limit) :
    Query.parseWithin limit ("(" ++ s ++ ")") = .ok (Query.enclose false q) ∧
      Query.parseWithin limit ("NOT (" ++ s ++ ")") = .ok (Query.enclose true q) := by
  have hclause := f.derives_enclosed hdepth
  have hchars : chars f.enclosed = ("(" ++ s ++ ")").toList := by
    simp [enclosed, ← f.text]
  have hnil : ∀ t ∈ ([] : List Token), t.isSpace = true := by simp
  refine ⟨?_, ?_⟩
  · have hq : Formula.Derives (Clauses limit) f.enclosed (Query.enclose false q) [] :=
      .mk (.mk (.plain (fun _ => hclause.1.not_stands) hclause) .nil) .nil
    exact parseWithin_of_derives [] hchars f.segmented_enclosed hnil hq hnil
  · have hspace : Spaces (⟨.blank, " "⟩ :: f.enclosed) f.enclosed := .more rfl .none
    have hnot : Keyword.not.Stands (⟨.word, "NOT"⟩ :: ⟨.blank, " "⟩ :: f.enclosed)
        (⟨.blank, " "⟩ :: f.enclosed) :=
      .word rfl (by decide) (by simp [Keyword.Continues]) hspace rfl nofun
    have hq : Formula.Derives (Clauses limit) (⟨.word, "NOT"⟩ :: ⟨.blank, " "⟩ :: f.enclosed)
        (Query.enclose true q) [] := .mk (.mk (.negated hnot hspace hclause) .nil) .nil
    have hseg : Segmented ([⟨.word, "NOT"⟩, ⟨.blank, " "⟩] ++ f.enclosed) := by
      refine Token.segmented_append.mpr ⟨by decide, f.segmented_enclosed, ?_⟩
      simp [enclosed, Apart]
    refine parseWithin_of_derives [] ?_ hseg hnil hq hnil
    simp [hchars]

end Frame

end Query

/-- Texts of queries are put together as their trees are: OR gives the branches of both, AND and
space put the first branch of the second behind the last of the first, and parentheses make one
clause. Space does so only before a negation, and parentheses take up one level of nesting. -/
theorem Query.parseWithin_compose {limit : Nat} {s₁ s₂ : String} {q₁ q₂ : Query}
    (h₁ : Query.parseWithin limit s₁ = .ok q₁) (h₂ : Query.parseWithin limit s₂ = .ok q₂) :
    (∃ q, Query.parseWithin limit (s₁ ++ " OR " ++ s₂) = .ok q ∧
      q.branches = q₁.branches ++ q₂.branches) ∧
    (∃ q, Query.parseWithin limit (s₁ ++ " AND " ++ s₂) = .ok q ∧
      q.branches = q₁.chain true q₂) ∧
    (q₂.head.head.negated = true → ∃ q, Query.parseWithin limit (s₁ ++ " " ++ s₂) = .ok q ∧
      q.branches = q₁.chain false q₂) ∧
    (q₁.depth < limit →
      Query.parseWithin limit ("(" ++ s₁ ++ ")") = .ok (Formula.ofOperand ⟨false, .paren q₁⟩) ∧
      Query.parseWithin limit ("NOT (" ++ s₁ ++ ")") =
        .ok (Formula.ofOperand ⟨true, .paren q₁⟩)) := by
  obtain ⟨f₁⟩ := Query.nonempty_frame h₁
  obtain ⟨f₂⟩ := Query.nonempty_frame h₂
  refine ⟨⟨_, f₁.parse_or f₂, ?_⟩, f₁.parse_and f₂, f₁.parse_juxtaposed f₂, f₁.parse_enclose⟩
  simp [Formula.branches, Formula.disjoin]

/-- Two branches, the second of which ends in a weight and space, before a negation with a line end
in front of it. -/
theorem Query.parseWithin_compose_negated :
    let s₁ := "x:1 OR y:a^2 "
    let s₂ := "\n!not:b"
    let clause (name : String) (value : Token) (suffix : Option Suffix) : Clause FieldClause :=
      .leaf ⟨⟨[⟨.word, name⟩]⟩, .literal (.bare [value]) suffix⟩
    let q₁ : Query := ⟨⟨⟨false, clause "x" ⟨.number, "1"⟩ none⟩, []⟩,
      [⟨⟨false, clause "y" ⟨.word, "a"⟩ (some (.boost ⟨some "2"⟩))⟩, []⟩]⟩
    let q₂ : Query := ⟨⟨⟨true, clause "not" ⟨.word, "b"⟩ none⟩, []⟩, []⟩
    (Query.parseWithin 1 s₁ = .ok q₁ ∧ Query.parseWithin 1 s₂ = .ok q₂) ∧
    (∃ q, Query.parseWithin 1 (s₁ ++ " OR " ++ s₂) = .ok q ∧
      q.branches = q₁.branches ++ q₂.branches) ∧
    (∃ q, Query.parseWithin 1 (s₁ ++ " AND " ++ s₂) = .ok q ∧ q.branches = q₁.chain true q₂) ∧
    (q₂.head.head.negated = true ∧ ∃ q, Query.parseWithin 1 (s₁ ++ " " ++ s₂) = .ok q ∧
      q.branches = q₁.chain false q₂) ∧
    q₁.depth < 1 ∧
      Query.parseWithin 1 ("(" ++ s₁ ++ ")") = .ok (Formula.ofOperand ⟨false, .paren q₁⟩) ∧
      Query.parseWithin 1 ("NOT (" ++ s₁ ++ ")") = .ok (Formula.ofOperand ⟨true, .paren q₁⟩) := by
  intro s₁ s₂ clause q₁ q₂
  have h₁ : Query.parseWithin 1 s₁ = .ok q₁ := by decide +kernel
  have h₂ : Query.parseWithin 1 s₂ = .ok q₂ := by decide +kernel
  have hdepth : q₁.depth < 1 := by decide +kernel
  obtain ⟨hor, hand, hspace, hparen⟩ := Query.parseWithin_compose h₁ h₂
  exact ⟨⟨h₁, h₂⟩, hor, hand, ⟨rfl, hspace rfl⟩, hdepth, hparen hdepth⟩

-- In a group the NOT that ends the first text would apply to what comes behind it.
example : (Term.parse "(a OR NOT)").toOption.isSome = true ∧
    (Term.parse "(a OR NOT AND b)").toOption = none := by decide +kernel

end SearchQuery
