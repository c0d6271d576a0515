import SearchQuery.Proofs.Fault.Admission

/-!
Faults inside formulas, clauses and field names. A clause is expected where a formula starts, and
behind a keyword, which stays one before any of the tokens that a clause can start with. Tokens that
would continue a keyword that is a word are put behind space, or taken for a longer word together
with it where that starts a clause as well.
-/

namespace SearchQuery

open Token (Kind Segmented Apart Lexical LastNot chars filler)

variable {α C : Type} {ts us mid start operand clause rest pre full : List Token} {fault : Fault}
  {k : Kind} {expected : List Kind} {fresh : List Kind → Prop}

/-! ### Keywords that are continued -/

theorem Keyword.not_stands_of_word {t : Token} (hkind : t.kind = .word)
    (h : t.SpellsKeyword → ∃ u ∈ ts.head?, Keyword.Continues u.kind) {j : Keyword}
    {after : List Token} : ¬ j.Stands (t :: ts) after := by
  intro hstands
  cases hstands with
  | word _ htext hfirst =>
      obtain ⟨u, hu, hcontinues⟩ := h ⟨j, Keyword.isWord_words_iff.mpr ⟨hkind, htext⟩⟩
      exact hfirst u hu hcontinues
  | ampersands hk => simp [hkind] at hk
  | bars hk => simp [hkind] at hk
  | bang hk => simp [hkind] at hk

theorem Token.SpellsKeyword.lexical {t : Token} (h : t.SpellsKeyword) : t.Lexical := by
  obtain ⟨k, hword⟩ := h
  obtain ⟨hkind, htext⟩ := Keyword.isWord_words_iff.mp hword
  obtain ⟨kind, text⟩ := t
  obtain rfl : kind = .word := hkind
  simp only [List.mem_cons, Prod.mk.injEq, List.not_mem_nil, or_false] at htext
  rcases htext with ⟨-, rfl⟩ | ⟨-, rfl⟩ | ⟨-, rfl⟩ | ⟨-, rfl⟩ | ⟨-, rfl⟩ | ⟨-, rfl⟩ <;> decide

/-- No keyword is the start of another one. -/
theorem Token.SpellsKeyword.not_append {t v : Token} (ht : t.SpellsKeyword) (hv : v.text ≠ "") :
    ¬ Token.SpellsKeyword ⟨.word, t.text ++ v.text⟩ := by
  rintro ⟨j, hj⟩
  obtain ⟨i, hi⟩ := ht
  obtain ⟨-, htext⟩ := Keyword.isWord_words_iff.mp hi
  obtain ⟨-, hall⟩ := Keyword.isWord_words_iff.mp hj
  simp only [List.mem_cons, Prod.mk.injEq, List.not_mem_nil, or_false] at htext hall
  rcases htext with ⟨-, h⟩ | ⟨-, h⟩ | ⟨-, h⟩ | ⟨-, h⟩ | ⟨-, h⟩ | ⟨-, h⟩ <;>
    simp [h, ← String.toList_inj, hv] at hall

/-- A word that is spelled like a keyword fuses with a word behind it, and is none before anything
else that continues it. -/
theorem Token.SpellsKeyword.exists_continued {t v : Token} (ht : t.SpellsKeyword)
    (hv : Keyword.Continues v.kind) (hus : Segmented (v :: us)) :
    ∃ w ws, w.kind = .word ∧ ws ⊆ v :: us ∧ Segmented (w :: ws) ∧
      chars (w :: ws) = t.text.toList ++ chars (v :: us) ∧
      ∀ rest k after, ¬ Keyword.Stands k (w :: (ws ++ rest)) after := by
  obtain ⟨hlexical, hsegus, hborder⟩ := Token.segmented_cons.mp hus
  by_cases hfuse : v.kind = .word
  · have hall : Lexical ⟨.word, t.text ++ v.text⟩ := by
      have happend := ht.lexical.append hlexical (by simp [ht.kind_eq, Kind.isRun])
        (ht.kind_eq.trans hfuse.symm)
      rwa [ht.kind_eq] at happend
    refine ⟨⟨.word, t.text ++ v.text⟩, us, rfl, List.subset_cons_self v us, ?_, by simp, ?_⟩
    · refine Token.segmented_cons.mpr ⟨hall, hsegus, ?_⟩
      intro u hu
      simpa [Apart, hfuse] using hborder u hu
    · exact fun _ _ _ => Keyword.not_stands_of_word rfl
        fun hspells => absurd hspells (ht.not_append hlexical.1)
  · refine ⟨t, v :: us, ht.kind_eq, List.Subset.refl _,
      Token.segmented_cons.mpr ⟨ht.lexical, hus, ?_⟩, rfl, ?_⟩
    · intro u hu
      cases hu
      simpa [Apart, ht.kind_eq, Kind.isRun] using Ne.symm hfuse
    · exact fun _ _ _ => Keyword.not_stands_of_word ht.kind_eq fun _ => ⟨v, rfl, hv⟩

/-! ### Keywords that are not -/

/-- Tokens that start with the same kind, which is no space, are the same to a keyword. -/
theorem Keyword.carries_of_kind (hhead : us.head?.map Token.kind = ts.head?.map Token.kind)
    (hts : ∃ t ∈ ts.head?, t.isSpace = false) : Keyword.Carries ts us := by
  obtain ⟨t, ht, hspace⟩ := hts
  obtain ⟨ts, rfl⟩ := List.head?_eq_some_iff.mp ht
  cases us with
  | nil => cases hhead
  | cons u us =>
      have hkind : u.kind = t.kind := by simpa using hhead
      have hspace' : u.isSpace = false := by rwa [Token.isSpace, hkind]
      intro gap hgap happlies
      obtain ⟨hfirst, v, rest, hspaces, hv, hparen⟩ := Keyword.appliesTo_iff.mp happlies
      have hskip := hspaces.skipSpace_eq_cons hv
      rw [(spaces_append hgap _).skipSpace_eq_cons hspace] at hskip
      cases hskip
      refine Keyword.appliesTo_iff.mpr ⟨?_, u, us, spaces_append hgap _, hspace', by rwa [hkind]⟩
      cases gap with
      | nil =>
          intro w hw
          cases hw
          rw [hkind]
          exact hfirst t rfl
      | cons g gap => exact hfirst

/-- A keyword applies to what a term can start with, unless that would continue it. -/
theorem Keyword.appliesTo_of_mem_starts {gap : List Token} {t : Token}
    (hgap : ∀ u ∈ gap, u.isSpace = true) (ht : t.kind ∈ Term.starts)
    (hbare : gap = [] → t.kind ∉ Literal.bareKinds) :
    Keyword.appliesTo (gap ++ t :: ts) = true := by
  have hspace : t.isSpace = false ∧ t.kind ≠ .rightParen := by
    revert ht
    simp only [Token.isSpace]
    cases t.kind <;> decide
  by_cases hne : gap = []
  · subst hne
    refine Keyword.appliesTo_iff.mpr ⟨?_, t, ts, .none, hspace.1, hspace.2⟩
    intro v hv
    cases hv
    have hkind := hbare rfl
    revert ht hkind
    simp only [Keyword.Continues]
    cases t.kind <;> decide
  · exact Keyword.appliesTo_of_spaces hne hgap hspace.1 hspace.2

theorem Keyword.Leads.apart (h : Keyword.Leads us) (hk : k ∈ Term.starts)
    (hword : k ∈ Literal.bareKinds → ∀ t ∈ us.getLast?, ¬ t.SpellsKeyword) :
    ∀ t ∈ us.getLast?, ∀ u : Token, u.kind = k → Apart t u := by
  intro t ht u hu
  rcases h t ht with hspells | hkind
  · refine ⟨by simp [hspells.kind_eq], ?_⟩
    intro _ heq
    refine hword ?_ t ht hspells
    rw [← hu, ← heq, hspells.kind_eq]
    decide
  · have hlast : LastNot [.word, .number, .backslash] [t] := by simpa [LastNot] using hkind
    exact hlast.apart_of_mem_starts hk t rfl u hu

/-! ### Formulas -/

/-- Space that ends where a token comes next is none, if that is no space. -/
theorem Spaces.eq_of_cons_suffix {key : Token} (h : Spaces ts rest) (hts : ts <:+ us)
    (hkey : key :: rest <:+ us) (hspace : key.isSpace = false) : ts = rest := by
  obtain ⟨gap, rfl, hgap⟩ := spaces_iff.mp h
  by_contra hne
  have hlength : (key :: rest).length ≤ (gap ++ rest).length := by
    cases gap with
    | nil => exact absurd rfl hne
    | cons t gap => simp
  obtain ⟨front, hfront⟩ := List.suffix_of_suffix_length_le hkey hts hlength
  obtain rfl : front ++ [key] = gap := List.append_cancel_right (by simpa using hfront)
  simp [hgap key (by simp)] at hspace

/-- A word right before what comes behind a keyword is that keyword. -/
theorem Keyword.Stands.of_cons_suffix {j : Keyword} {key : Token} (h : j.Stands ts rest)
    (hts : ts <:+ us) (hkey : key :: rest <:+ us) (hkind : key.kind = .word) :
    ts = key :: rest ∧ key.isWord j.words = true := by
  have hlast : ∀ t, t :: rest <:+ us → t = key := by
    intro t ht
    have hsame := (List.suffix_of_suffix_length_le ht hkey (by simp)).eq_of_length (by simp)
    exact (List.cons.inj hsame).1
  cases h with
  | word hword htext =>
      obtain rfl := hlast _ hts
      exact ⟨rfl, Keyword.isWord_words_iff.mpr ⟨hword, htext⟩⟩
  | ampersands _ hb | bars _ hb =>
      obtain rfl := hlast _ ((List.suffix_cons _ _).trans hts)
      simp [hkind] at hb
  | bang ha =>
      obtain rfl := hlast _ hts
      simp [hkind] at ha

/-- What is spelled like a keyword right before a clause is AND or OR, or the NOT in front of it. -/
theorem Formula.Reaches.spelled_before {p : Production C} {before : List Token} {key : Token}
    (hp : ∀ {ts c rest}, p ts c rest → rest <:+ ts)
    (h : Formula.Reaches p (before ++ key :: clause) operand)
    (hopens : Operand.Opens operand clause) (hkey : key.SpellsKeyword) :
    key.isWord (Keyword.and.words ++ Keyword.or.words) = true ∨
      key.isWord Keyword.not.words = true ∧ operand = key :: clause := by
  have hsuffix : key :: clause <:+ before ++ key :: clause := List.suffix_append _ _
  have hspace : key.isSpace = false := by simp [Token.isSpace, hkey.kind_eq, Kind.isSpace]
  cases hopens with
  | negated hnot hspaces =>
      have hoperand := h.suffix hp
      obtain rfl := hspaces.eq_of_cons_suffix (hnot.suffix.trans hoperand) hsuffix hspace
      exact Or.inr (hnot.of_cons_suffix hoperand hsuffix hkey.kind_eq).symm
  | plain _ =>
      generalize hall : before ++ key :: operand = all at h hsuffix
      cases h with
      | first =>
          have hlength := congrArg List.length hall
          simp only [List.length_append, List.length_cons] at hlength
          omega
      | @next _ mid _ _ hreaches ho hjoins =>
          have hmid : mid <:+ all := (ho.suffix hp).trans (hreaches.suffix hp)
          cases hjoins with
          | juxtaposed hspaces _ =>
              have hsame := hspaces.spaces.eq_of_cons_suffix hmid hsuffix hspace
              obtain ⟨gap, hne, hgap, -⟩ := someSpaces_iff.mp hspaces
              exact absurd (List.append_left_eq_self.mp (hgap.symm.trans hsame)) hne
          | @keyword j _ _ _ _ hj hspaces hstands hspaces' =>
              have hword := hspaces.suffix.trans hmid
              obtain rfl := hspaces'.eq_of_cons_suffix (hstands.suffix.trans hword) hsuffix hspace
              obtain ⟨-, hspelled⟩ := hstands.of_cons_suffix hword hsuffix hkey.kind_eq
              refine Or.inl ?_
              cases j with
              | and | or => simp_all [Token.isWord]
              | not => exact absurd rfl hj

section Formula

variable {p : Production C} (hskip : ∀ {ts c rest}, p ts c rest → Token.skipSpace ts = ts)

include hskip

/-- A clause of which something has been read starts as before, so that a keyword in front of it
applies as before. -/
theorem Takes.resume {gap : String} {lead : List Token} (h : Takes p.Plain k gap pre)
    (hresume : Formula.Resumes p lead (pre ++ rest)) (hseg : Segmented (lead ++ (pre ++ rest)))
    (hpre : pre ≠ []) : Takes (Formula.Derives p).Spaced k gap (lead ++ pre) := by
  obtain ⟨full, hfull, hread⟩ := h
  obtain ⟨t, full, rfl⟩ := List.exists_cons_of_ne_nil hfull.firm.ne_nil
  obtain ⟨v, pre, rfl⟩ := List.exists_cons_of_ne_nil hpre
  have hhead : t.kind = v.kind := by simpa using hfull.head
  refine ⟨lead ++ t :: full, hfull.append_left hseg fun hnil => absurd hnil hpre, ?_⟩
  intro tail htail
  obtain ⟨c, hc⟩ := hread tail htail
  have hspace : t.isSpace = false := by
    cases hc with
    | plain _ hderives =>
        have hself := hskip hderives
        have hmem : t ∈ (Token.skipSpace (t :: full ++ tail)).head? := by
          rw [hself]
          rfl
        exact isSpace_head?_skipSpace hmem
  have hpersists : Keyword.Persists lead (v :: pre ++ rest) (t :: full ++ tail) :=
    fun _ _ gap _ _ hgap => Keyword.carries_of_kind (by simp [hhead])
      ⟨v, rfl, by rwa [Token.isSpace, ← hhead]⟩ gap hgap
  obtain ⟨start, e, hstart, he⟩ := hresume _ _ c tail .none hpersists hc
  exact ⟨start, e, by simpa using hstart, he⟩

omit hskip

/-- A clause of which nothing has been read comes behind a keyword with no space between, unless
its first token would continue the keyword. -/
theorem Takes.resume_start {gap : String} {lead : List Token} (h : Takes p.Plain k "" [])
    (hresume : Formula.Resumes p lead clause) (spaces : List Token)
    (hspaces : ∀ t ∈ spaces, t.isSpace = true)
    (hlead : k ∈ Literal.bareKinds → spaces = [] → ∀ t ∈ lead.getLast?, ¬ t.SpellsKeyword)
    (hextends : ∀ full, Extends k "" [] full → Extends k gap lead (lead ++ (spaces ++ full))) :
    Takes (Formula.Derives p).Spaced k gap lead := by
  obtain ⟨full, hfull, hread⟩ := h
  obtain ⟨-, hstart, hkstart⟩ := hfull.of_nil
  obtain ⟨t, full, rfl⟩ := List.exists_cons_of_ne_nil hfull.firm.ne_nil
  have hkind : t.kind = k := List.mem_singleton.mp (Token.startsWith_cons.mp hstart)
  refine ⟨lead ++ (spaces ++ t :: full), hextends _ hfull, ?_⟩
  intro tail htail
  obtain ⟨c, hc⟩ := hread tail htail
  have hpersists : Keyword.Persists lead clause (spaces ++ (t :: full ++ tail)) := by
    rintro front key gap' rfl hspells hgap' _
    rw [← List.append_assoc]
    refine Keyword.appliesTo_of_mem_starts (List.forall_mem_append.mpr ⟨hgap', hspaces⟩)
      (hkind ▸ hkstart) ?_
    intro hnil hbare
    obtain ⟨rfl, rfl⟩ := List.append_eq_nil_iff.mp hnil
    exact hlead (hkind ▸ hbare) rfl key (by simp) hspells
  obtain ⟨start, e, hstart, he⟩ := hresume _ _ c tail (spaces_append hspaces _) hpersists hc
  exact ⟨start, e, by simpa using hstart, he⟩

variable (hp : ∀ ts c rest, p ts c rest → p.Replay Kept ts c rest)

include hp

/-- What continues a word that is spelled like a keyword comes after space, unless the word is a NOT
that is as good as the start of a clause. -/
theorem Formula.Reaches.takes_continued {before : List Token} {key : Token}
    (hreaches : Formula.Reaches p (before ++ key :: clause) operand)
    (hopens : Operand.Opens operand clause) (hkey : key.SpellsKeyword)
    (hseg : Segmented (before ++ key :: clause)) (hparen : .leftParen ∈ expected)
    (hbare : k ∈ Literal.bareKinds) (hstart : Takes p.Plain k "" [])
    (hcontinued : Takes p.Plain k "" [key]) :
    NeedsSpace (Takes (Formula.Derives p).Spaced .ampersand "") expected k (before ++ [key]) ∨
      Takes (Formula.Derives p).Spaced k "" (before ++ [key]) := by
  rcases hreaches.spelled_before (fun hc => (hp _ _ _ hc).suffix) hopens hkey with
    hword | ⟨hnot, rfl⟩
  · exact Or.inl (Or.inr ⟨⟨hparen, hbare⟩, before, key, rfl, Or.inl hword⟩)
  obtain ⟨lead, hlead, hplace⟩ := hreaches.exists_place hp
  obtain rfl : before = lead := List.append_cancel_right hlead
  rcases hplace with hplace | ⟨⟨last, hlast, hspace⟩, hplace⟩
  · -- no keyword in front of the NOT tells it from another word
    obtain ⟨full, hfull, hread⟩ := hcontinued
    refine Or.inr ⟨before ++ full, hfull.append_left hseg (by simp), ?_⟩
    intro tail htail
    obtain ⟨c, hc⟩ := hread tail htail
    have hhead : (full ++ tail).head?.map Token.kind = (key :: clause).head?.map Token.kind := by
      rw [List.head?_append_of_ne_nil _ hfull.firm.ne_nil]
      simpa using hfull.head
    have hpersists : Keyword.Persists before (key :: clause) (full ++ tail) :=
      fun _ _ gap _ _ hgap => Keyword.carries_of_kind hhead
        ⟨key, rfl, by simp [Token.isSpace, hkey.kind_eq, Kind.isSpace]⟩ gap hgap
    obtain ⟨e, he⟩ := hplace _ _ tail hpersists hc
    exact ⟨_, e, .none, by simpa using he⟩
  · -- where a NOT comes without a keyword before it, AND could come as well
    refine Or.inl (Or.inr ⟨⟨hparen, hbare⟩, before, key, rfl, Or.inr ⟨hnot, ?_⟩⟩)
    obtain ⟨full, hfull, hread⟩ := hstart
    have hbegins : Token.Begins .ampersand ([⟨.ampersand, "&"⟩, ⟨.ampersand, "&"⟩] ++ full) := by
      refine ⟨Token.segmented_append.mpr ⟨by decide, hfull.segmented, ?_⟩, hfull.firm.append _, rfl⟩
      simp [Apart, Kind.isRun]
    have hne : before ≠ [] := by
      rintro rfl
      cases hlast
    refine ⟨_, extends_append (Token.segmented_append.mp hseg).1 hne hbegins ?_, ?_⟩
    · intro t ht u hu
      cases Option.mem_unique hlast ht
      cases hu
      revert hspace
      simp only [Token.isSpace, Apart]
      cases last.kind <;> decide
    · intro tail htail
      obtain ⟨c, hc⟩ := hread tail htail
      have hand : Keyword.and.Stands
          (⟨.ampersand, "&"⟩ :: ⟨.ampersand, "&"⟩ :: (full ++ tail)) (full ++ tail) :=
        .ampersands rfl rfl
      obtain ⟨e, he⟩ := hplace _ _ _ tail hand hc
      exact ⟨_, e, .none, by simpa using he⟩

include hskip

/-- Behind a keyword that is a word, what would continue it comes after space. -/
theorem Formula.admits {starts : List Kind}
    (hcontinued : ∀ key : Token, key.SpellsKeyword → ∀ k ∈ starts, k ∈ Literal.bareKinds →
      Takes p.Plain k "" [key])
    (hreaches : Formula.Reaches p ts operand) (hopens : Operand.Opens operand clause)
    (hclause : Segmented clause → Admits (· = .leftParen :: starts) p.Plain clause fault)
    (hseg : Segmented ts) : Admits (fun _ => True) (Formula.Derives p).Spaced ts fault := by
  obtain ⟨lead, rfl, hleads, hresume⟩ := hreaches.resume hp hopens
  intro rest expected hfault k hk
  obtain ⟨gap, pre, rfl, hfresh, hgap, htakes⟩ :=
    hclause (hseg.of_suffix (List.suffix_append _ _)) rest expected hfault k hk
  by_cases hpre : pre = []
  · subst hpre
    obtain rfl : expected = .leftParen :: starts := hfresh rfl
    obtain ⟨rfl, hkstart⟩ : gap = "" ∧ k ∈ Term.starts := by
      obtain ⟨full, hfull, -⟩ := htakes
      exact ⟨hfull.of_nil.1, hfull.of_nil.2.2⟩
    by_cases hspelled : k ∈ Literal.bareKinds ∧ ∃ key ∈ lead.getLast?, key.SpellsKeyword
    · obtain ⟨hbare, key, hlast, hkey⟩ := hspelled
      obtain ⟨before, rfl⟩ := List.getLast?_eq_some_iff.mp hlast
      have hstarts : k ∈ starts := by
        refine (List.mem_cons.mp hk).resolve_left ?_
        rintro rfl
        exact absurd hbare (by decide)
      have hseglead := (Token.segmented_append.mp hseg).1
      have hparen : Kind.leftParen ∈ Kind.leftParen :: starts := List.mem_cons_self
      rw [List.append_assoc] at hreaches hseg
      have hcases := hreaches.takes_continued hp hopens hkey hseg hparen hbare htakes
        (hcontinued key hkey k hstarts hbare)
      rcases hcases with hneeds | hcontinues
      · refine ⟨" ", before ++ [key], by simp, fun _ => trivial, Or.inr ⟨rfl, hneeds⟩,
          htakes.resume_start hresume [⟨.blank, " "⟩] (by decide) (by simp) ?_⟩
        intro full hfull
        exact hfull.spaced hseglead ⟨key, hlast, hkey.kind_eq⟩
      · exact ⟨"", before ++ [key], by simp, fun _ => trivial, Or.inl rfl, hcontinues⟩
    · have hword : k ∈ Literal.bareKinds → ∀ t ∈ lead.getLast?, ¬ t.SpellsKeyword :=
        fun hbare t ht hspells => hspelled ⟨hbare, t, ht, hspells⟩
      refine ⟨"", lead, by simp, fun _ => trivial, Or.inl rfl,
        htakes.resume_start hresume [] (by simp) (fun hbare _ => hword hbare) ?_⟩
      intro full hfull
      simpa using hfull.append_left hseg fun _ => hleads.apart hkstart hword
  · refine ⟨gap, lead ++ pre, by simp, fun _ => trivial, ?_, htakes.resume hskip hresume hseg hpre⟩
    refine hgap.imp_right fun ⟨hgap, hneeds⟩ => ⟨hgap, hneeds.append_left hpre lead ?_⟩
    rintro before ⟨after, rfl⟩ hbefore
    rw [List.append_assoc] at hresume hseg
    exact hbefore.resume hskip hresume hseg hbefore.ne_nil_of_ampersand

end Formula

/-! ### Clauses -/

section Clause

variable {leaf : Production α} {depth : α → Nat} {starts : List Kind} {leafBreaks : Nat → Breach}
  {room : Nat} (hleaf : ∀ {ts a rest}, leaf ts a rest → leaf.Replay Kept ts a rest)

theorem Clause.plain_of_enclosed {e : Formula (Clause α)}
    (h : Enclosed (Formula.Derives (Clause.Derives leaf)) ts e rest) :
    Production.Plain (Clause.Derives leaf) ts rest :=
  Production.plain_of_startsWith (Clause.Derives.paren h) h.startsWith (by decide)

theorem Clause.plain_of_leaf (h : leaf.Plain ts rest) :
    Production.Plain (Clause.Derives leaf) ts rest := by
  obtain ⟨a, ha⟩ := h
  cases ha with
  | plain hnot ha => exact ⟨.leaf a, .plain hnot (.leaf ha)⟩

/-- A parenthesis, a leaf, and a parenthesis. -/
theorem Clause.exists_begins (hbegins : Token.Begins k us)
    (hread : ∀ tail, EndsRun tail → leaf.Plain (us ++ tail) tail) :
    ∃ more, Token.Begins .leftParen more ∧
      ∀ tail, Production.Plain (Clause.Derives leaf) (more ++ tail) tail := by
  have hclosing : Firm [⟨.rightParen, ")"⟩] := firm_singleton rfl (by decide)
  have hends : ∀ tail, EndsRun (⟨.rightParen, ")"⟩ :: tail) :=
    fun tail => endsRun_cons rfl (by decide)
  have hclosed := hbegins.append (by decide) hclosing (hends [])
  refine ⟨⟨.leftParen, "("⟩ :: (us ++ [⟨.rightParen, ")"⟩]), ⟨?_, hclosed.firm.cons _, rfl⟩, ?_⟩
  · refine Token.segmented_cons.mpr ⟨by decide, hclosed.segmented, ?_⟩
    intro u _
    simp [Apart, Kind.isRun]
  · intro tail
    obtain ⟨a, ha⟩ := Clause.plain_of_leaf (hread _ (hends tail))
    have hformula : Formula.Derives (Clause.Derives leaf) (us ++ ⟨.rightParen, ")"⟩ :: tail) _ _ :=
      .mk (.mk ha .nil) .nil
    simpa using Clause.plain_of_enclosed (.mk rfl .none hformula .none rfl)

include hleaf

theorem Clause.Breaks.admits
    (hskip : ∀ {ts a rest}, leaf ts a rest → Token.skipSpace ts = ts)
    (hword : .word ∈ starts) (hstarts : .leftParen :: starts ⊆ Term.starts)
    (hbegins : ∀ k ∈ starts, ∃ more, Token.Begins k more ∧
      ∀ tail, EndsRun tail → leaf.Plain (more ++ tail) tail)
    (hcontinued : ∀ key : Token, key.SpellsKeyword → ∀ k ∈ starts, k ∈ Literal.bareKinds →
      Takes leaf.Plain k "" [key])
    (hbreaks : ∀ {room ts fault}, leafBreaks room ts fault → Segmented ts →
      Admits (· = .leftParen :: starts) leaf.Plain ts fault)
    (h : Clause.Breaks leaf depth starts leafBreaks room ts fault) (hseg : Segmented ts) :
    Admits (· = .leftParen :: starts) (Production.Plain (Clause.Derives leaf)) ts fault := by
  have hclosing : Firm [⟨.rightParen, ")"⟩] := firm_singleton rfl (by decide)
  have hreplay : ∀ ts c rest, Clause.Derives leaf ts c rest →
      Production.Replay (Clause.Derives leaf) Kept ts c rest :=
    fun _ _ _ hc => hc.replay hleaf
  induction h with
  | start =>
      refine admits_start rfl hstarts ?_
      intro k hk
      rcases List.mem_cons.mp hk with rfl | hk
      · obtain ⟨us, hus, hread⟩ := hbegins .word hword
        obtain ⟨more, hmore, hplain⟩ := Clause.exists_begins hus hread
        exact ⟨more, hmore, fun tail _ => hplain tail⟩
      · obtain ⟨more, hmore, hread⟩ := hbegins k hk
        exact ⟨more, hmore, fun tail htail => Clause.plain_of_leaf (hread tail htail)⟩
  | leaf hleafBreaks =>
      exact (hbreaks hleafBreaks hseg).imp fun _ _ => Clause.plain_of_leaf
  | tooDeep => exact nofun
  | @inside room opening _ start operand clause fault hopening hspaces hreaches hopens _ ih =>
      obtain ⟨gap, rfl, hgap⟩ := spaces_iff.mp hspaces
      have hclosed (hsegstart : Segmented start) : Admits (fun _ => True) (fun ts rest =>
          (Formula.Derives (Clause.Derives leaf)).Spaced ts (⟨.rightParen, ")"⟩ :: rest)) start
          fault := by
        have hformula := Formula.admits (fun hc => hc.skipSpace_eq hskip) hreplay
          (fun key hkey k hk hbare =>
            (hcontinued key hkey k hk hbare).imp fun _ _ => Clause.plain_of_leaf)
          (hreaches.imp fun hc => hc.1) hopens ih hsegstart
        exact hformula.append_right (by decide) hclosing (endsRun_cons rfl (by decide))
          fun _ _ => id
      have hlast : LastNot [.word, .number, .backslash] ([opening] ++ gap) :=
        (Token.lastNot_singleton hopening (by decide)).append
          (Token.lastNot_of_forall_isSpace hgap (by decide))
      change Admits _ _ (([opening] ++ gap) ++ start) _
      apply admits_append_left hseg (by simp) hclosed hlast
      intro ts rest hinner
      obtain ⟨us, e, hus, he⟩ := hinner
      have hspaced : Spaces (gap ++ ts) us := (spaces_append hgap _).trans hus
      exact Clause.plain_of_enclosed (.mk hopening hspaced he .none rfl)
  | @unclosed room opening _ _ _ rest e hopening hspaces hformula hspaces' _ =>
      obtain ⟨pre, hpre, hne, hlast, hclose⟩ := (hformula.imp fun _ _ _ _ hc => hc.1).exists_closed
        (fun hc => hreplay _ _ _ hc) hopening hspaces hspaces'
      rw [hpre] at hseg ⊢
      refine admits_append hseg hne ?_
      intro k hk
      rw [List.mem_singleton.mp hk]
      exact ⟨[⟨.rightParen, ")"⟩], ⟨by decide, hclosing, rfl⟩, hlast.apart (by decide),
        fun tail _ => Clause.plain_of_enclosed (hclose tail)⟩

end Clause

/-! ### Terms and field clauses -/

/-- A literal that starts like a keyword. -/
theorem Element.takes_continued {key : Token} (hkey : key.SpellsKeyword)
    (hk : k ∈ Literal.bareKinds) : Takes Element.Derives.Plain k "" [key] := by
  have hsample := Token.begins_sample hk
  have hcontinues : Keyword.Continues (Token.sample k).kind := by
    rw [Token.kind_sample hk]
    exact Keyword.continues_of_mem_bareKinds hk
  obtain ⟨w, ws, hw, hws, hseg, hchars, hstands⟩ :=
    hkey.exists_continued hcontinues hsample.segmented
  have hkinds : ∀ t ∈ w :: ws, t.kind ∈ Literal.bareKinds := by
    intro t ht
    rcases List.mem_cons.mp ht with rfl | ht
    · rw [hw]
      decide
    · rwa [List.mem_singleton.mp (hws ht), Token.kind_sample hk]
  have hfirm : Firm (w :: ws) := firm_of_forall_mem (List.cons_ne_nil w ws) hkinds (by decide)
  refine ⟨w :: ws, ⟨hseg, hfirm, ⟨_, hsample, by simpa using hchars⟩, Or.inl ?_⟩, ?_⟩
  · simp [hw, hkey.kind_eq]
  · intro tail htail
    have hrun : Fragments Literal.bareKinds (w :: ws ++ tail) (w :: ws) tail :=
      .mk (List.cons_ne_nil w ws) hkinds htail
    exact ⟨_, .plain (fun after => hstands tail .not after) (.literal (.bare hrun))⟩

theorem Group.Breaks.admits {room : Nat} (h : Group.Breaks room ts fault) (hseg : Segmented ts) :
    Admits (· = .leftParen :: Element.starts) (Production.Plain (Clause.Derives Element.Derives))
      ts fault :=
  Clause.Breaks.admits Element.Derives.replay Element.exact.skipSpace_eq (by decide) (by decide)
    (fun _ hk => Element.exists_begins_plain hk)
    (fun _ hkey _ _ hbare => Element.takes_continued hkey hbare) Element.Breaks.admits h hseg

theorem Term.spans_of_plain (h : Production.Plain (Clause.Derives Element.Derives) ts rest) :
    Term.Derives.Spans ts rest := by
  obtain ⟨c, hc⟩ := h
  cases hc with
  | plain _ hderives =>
      obtain ⟨t, ht, -⟩ := Term.exists_derives_of_clause ⟨hderives, Nat.le_refl _⟩
      exact ⟨t, ht⟩

theorem Term.exists_begins (hk : k ∈ Term.starts) :
    ∃ more, Token.Begins k more ∧
      ∀ tail, EndsRun tail → Term.Derives.Spans (more ++ tail) tail := by
  have hcases : k = .slash ∨ k = .leftParen ∨ k ∈ Element.starts := by
    revert hk
    cases k <;> decide
  rcases hcases with rfl | rfl | hk
  · refine ⟨[⟨.slash, "/"⟩, ⟨.slash, "/"⟩],
      ⟨by decide, (firm_singleton rfl (by decide)).cons _, rfl⟩, ?_⟩
    intro tail _
    have hinner : Delimited .slash (⟨.slash, "/"⟩ :: ([] ++ ⟨.slash, "/"⟩ :: tail)) [] tail :=
      .mk rfl (by simp) rfl
    exact ⟨_, .regexp hinner⟩
  · obtain ⟨us, hus, hread⟩ := Element.exists_begins_plain (k := .word) (by decide)
    obtain ⟨more, hmore, hplain⟩ := Clause.exists_begins hus hread
    exact ⟨more, hmore, fun tail _ => Term.spans_of_plain (hplain tail)⟩
  · obtain ⟨more, hmore, hplain⟩ := Element.exists_begins_plain hk
    exact ⟨more, hmore, fun tail htail =>
      Term.spans_of_plain (Clause.plain_of_leaf (hplain tail htail))⟩

theorem Term.Breaks.admits {room : Nat} (h : Term.Breaks room ts fault) (hseg : Segmented ts) :
    Admits (fun _ => True) Term.Derives.Spans ts fault := by
  cases h with
  | start =>
      exact admits_start trivial (List.Subset.refl _) fun k hk => Term.exists_begins hk
  | regexp hregexp =>
      apply (hregexp.admits hseg List.mem_cons_self rfl (by decide)).imp
      intro ts rest hinner
      obtain ⟨inner, hinner⟩ := hinner
      exact ⟨.regexp inner, .regexp hinner⟩
  | group hgroup => exact (hgroup.admits hseg).weaken.imp fun _ _ => Term.spans_of_plain

/-- A field name with the filler as its term. -/
theorem FieldClause.plain_of_name {name tail : List Token} (hne : name ≠ [])
    (hkinds : ∀ t ∈ name, t.kind ∈ Field.nameKinds) (htail : EndsRun tail) :
    FieldClause.Derives.Plain (name ++ ⟨.colon, ":"⟩ :: filler :: tail) tail := by
  have hplain : (FieldClause.Derives.Within (fun c => c.term.depth) 0).Plain
      (name ++ ⟨.colon, ":"⟩ :: filler :: tail) tail := FieldClause.plain_filler hne hkinds htail
  obtain ⟨c, hc⟩ := hplain
  exact ⟨c, hc.imp fun _ hd => hd.1⟩

theorem FieldClause.exists_begins (hk : k ∈ Field.nameKinds) :
    ∃ more, Token.Begins k more ∧
      ∀ tail, EndsRun tail → FieldClause.Derives.Plain (more ++ tail) tail := by
  have hbare : k ∈ Literal.bareKinds := by
    revert hk
    cases k <;> decide
  have hfill : Firm [⟨.colon, ":"⟩, filler] := Token.firm_filler.cons _
  refine ⟨[Token.sample k] ++ [⟨.colon, ":"⟩, filler],
    (Token.begins_sample hbare).append (by decide) hfill (endsRun_cons rfl (by decide)), ?_⟩
  intro tail htail
  refine FieldClause.plain_of_name (List.cons_ne_nil _ []) ?_ htail
  simpa [Token.kind_sample hbare] using hk

/-- A field name goes on with further tokens of its kinds. -/
theorem FieldClause.takes_name {name : List Token} (hseg : Segmented name) (hne : name ≠ [])
    (hkinds : ∀ t ∈ name, t.kind ∈ Field.nameKinds) (hk : k ∈ Field.nameKinds) :
    Takes FieldClause.Derives.Plain k "" name := by
  have hbare : k ∈ Literal.bareKinds := by
    revert hk
    cases k <;> decide
  have hlast : LastNot [.backslash] name := (firm_of_forall_mem hne hkinds (by decide)).lastNot
  have hfill : Firm [⟨.colon, ":"⟩, filler] := Token.firm_filler.cons _
  have hsegfill : Segmented [⟨.colon, ":"⟩, filler] := by decide
  have hends : EndsRun [⟨.colon, ":"⟩, filler] := endsRun_cons rfl (by decide)
  have hsample := Token.begins_sample hbare
  obtain ⟨name', hseg', hchars, hlast', hmem, hhead⟩ :=
    hseg.exists_glue hlast (hsample.segmented.lexical _ List.mem_cons_self)
  rw [Token.kind_sample hbare] at hlast' hmem
  have hne' : name' ≠ [] := by
    rintro rfl
    cases hlast'
  have hkinds' : ∀ t ∈ name', t.kind ∈ Field.nameKinds := by
    intro t ht
    rcases hmem t ht with hold | hnew
    · exact hkinds t hold
    · rwa [hnew]
  have hfirm : Firm name' := firm_of_forall_mem hne' hkinds' (by decide)
  refine ⟨name' ++ [⟨.colon, ":"⟩, filler], ⟨?_, hfill.append name',
    ⟨[Token.sample k] ++ [⟨.colon, ":"⟩, filler], ?_, ?_⟩, Or.inl ?_⟩, ?_⟩
  · exact Token.segmented_append.mpr ⟨hseg', hsegfill, hfirm.apart hends⟩
  · exact hsample.append hsegfill hfill hends
  · simp [hchars]
  · rw [List.head?_append_of_ne_nil _ hne']
    exact hhead hne
  · intro tail htail
    simpa using FieldClause.plain_of_name hne' hkinds' htail

/-- A field name that starts like a keyword. -/
theorem FieldClause.takes_continued {key : Token} (hkey : key.SpellsKeyword)
    (hk : k ∈ Field.nameKinds) : Takes FieldClause.Derives.Plain k "" [key] := by
  refine FieldClause.takes_name ?_ (by simp) ?_ hk
  · exact Token.segmented_cons.mpr ⟨hkey.lexical, Token.segmented_nil, by simp⟩
  · simp only [List.mem_singleton, forall_eq, hkey.kind_eq]
    decide

theorem FieldClause.admits_name {name : List Token} (hseg : Segmented (name ++ rest))
    (hne : name ≠ []) (hkinds : ∀ t ∈ name, t.kind ∈ Field.nameKinds) :
    Admits fresh FieldClause.Derives.Plain (name ++ rest)
      (.unexpected rest (Field.nameKinds ++ [.colon])) := by
  have hsegname := (Token.segmented_append.mp hseg).1
  intro rest expected hfault k hk
  cases hfault
  refine ⟨"", name, rfl, fun hnil => absurd hnil hne, Or.inl rfl, ?_⟩
  rcases List.mem_append.mp hk with hk | hk
  · exact FieldClause.takes_name hsegname hne hkinds hk
  · rw [List.mem_singleton.mp hk]
    have hlast : LastNot [.backslash] name := (firm_of_forall_mem hne hkinds (by decide)).lastNot
    have hcolon : Token.Begins .colon [⟨.colon, ":"⟩, filler] :=
      ⟨by decide, Token.firm_filler.cons _, rfl⟩
    refine ⟨_, extends_append hsegname hne hcolon (hlast.apart (by decide)), ?_⟩
    intro tail htail
    simpa using FieldClause.plain_of_name hne hkinds htail

theorem FieldClause.Breaks.admits {room : Nat} (h : FieldClause.Breaks room ts fault)
    (hseg : Segmented ts) : Admits fresh FieldClause.Derives.Plain ts fault := by
  cases h with
  | @colon _ name rest hname _ =>
      obtain ⟨rfl, hne, hkinds, -⟩ := hname.exists_append
      exact FieldClause.admits_name hseg hne hkinds
  | @term _ name us colon _ hname hcolon hterm =>
      obtain ⟨rfl, -, -, hreplay⟩ := hname.exists_append
      have hlast : LastNot [.word, .number, .backslash] (name ++ [colon]) := by
        intro t ht
        rw [List.getLast?_concat] at ht
        cases ht
        simp [hcolon]
      rw [List.append_cons] at hseg ⊢
      apply admits_append_left hseg (by simp) hterm.admits hlast
      intro ts rest hterm'
      obtain ⟨t, hterm'⟩ := hterm'
      rw [← List.append_cons]
      have hclause := FieldClause.Derives.mk (hreplay (colon :: ts) (Or.inl rfl)) hcolon hterm'
      exact ⟨_, .plain (fun _ => hclause.not_stands) hclause⟩

theorem Query.Breaks.admits {room : Nat} (h : Query.Breaks room ts fault) (hseg : Segmented ts) :
    Admits (· = .leftParen :: Field.nameKinds)
      (Production.Plain (Clause.Derives FieldClause.Derives)) ts fault :=
  Clause.Breaks.admits FieldClause.Derives.replay FieldClause.exact.skipSpace_eq (by decide)
    (by decide) (fun _ hk => FieldClause.exists_begins hk)
    (fun _ hkey _ hk _ => FieldClause.takes_continued hkey hk) FieldClause.Breaks.admits h hseg

end SearchQuery
