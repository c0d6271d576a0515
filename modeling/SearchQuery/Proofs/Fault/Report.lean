import SearchQuery.Proofs.Fault.Reading
import SearchQuery.Proofs.Fault.Viable

/-!
What errors report. A fault arises at a place in the token list and asks for something there, so
that its error names a token of the text, or its end, at the byte offset where that stands. A
comparison without a meaning is in no text, and neither a lexer nor a parser slices out of range.
-/

namespace SearchQuery

open Token (Kind Segmented Located locate)

variable {α C : Type} {ts us start operand clause rest : List Token} {fault : Fault}

/-! ### Places of faults -/

/-- A fault at a place in the token list that asks for something there, or for a parenthesis there
to be left out. -/
inductive Fault.Arises (ts : List Token) : Fault → Prop where
  | unexpected {rest : List Token} {expected : List Kind} :
      rest <:+ ts → expected ≠ [] → Fault.Arises ts (.unexpected rest expected)
  | tooDeep {opening : Token} {rest : List Token} :
      opening.kind = .leftParen → opening :: rest <:+ ts →
      Fault.Arises ts (.tooDeep (opening :: rest))

theorem Fault.Arises.of_suffix (h : fault.Arises us) (hus : us <:+ ts) : fault.Arises ts := by
  cases h with
  | unexpected hrest hne => exact .unexpected (hrest.trans hus) hne
  | tooDeep hopening hrest => exact .tooDeep hopening (hrest.trans hus)

theorem Fault.Arises.cons (h : fault.Arises us) (t : Token) : fault.Arises (t :: us) :=
  h.of_suffix (List.suffix_cons t us)

/-! ### Formulas -/

/-- What a clause in parentheses or in a formula reports is reported of what is around it. -/
theorem Clause.Breaks.arises {leaf : Production α} {depth : α → Nat} {starts : List Kind}
    {leafBreaks : Nat → Breach} {room : Nat}
    (hleaf : ∀ {ts a rest}, leaf ts a rest → rest <:+ ts)
    (hbreaks : ∀ {room ts fault}, leafBreaks room ts fault → Segmented ts → fault.Arises ts)
    (h : Clause.Breaks leaf depth starts leafBreaks room ts fault) (hseg : Segmented ts) :
    fault.Arises ts := by
  have hwithin : ∀ {room ts c rest}, Clause.Within leaf depth room ts c rest → rest <:+ ts :=
    fun hc => hc.1.suffix hleaf
  induction h with
  | start _ => exact .unexpected (List.suffix_refl _) (List.cons_ne_nil _ _)
  | leaf hl => exact hbreaks hl hseg
  | tooDeep hstart =>
      obtain ⟨opening, us, rfl, hopening⟩ := Token.startsWith_iff.mp hstart
      exact .tooDeep (List.mem_singleton.mp hopening) (List.suffix_refl _)
  | @inside _ opening us _ _ clause _ _ hspaces hreaches hopens _ ih =>
      have hclause : clause <:+ opening :: us :=
        (hopens.suffix.trans ((hreaches.suffix hwithin).trans hspaces.suffix)).trans
          (List.suffix_cons opening us)
      exact (ih (hseg.of_suffix hclause)).of_suffix hclause
  | @unclosed _ opening us _ _ rest _ _ hspaces he hspaces' _ =>
      have hrest : rest <:+ us := hspaces'.suffix.trans ((he.suffix hwithin).trans hspaces.suffix)
      exact .unexpected (hrest.trans (List.suffix_cons opening us)) (List.cons_ne_nil _ _)

/-! ### Terms -/

theorem Delimited.Breaks.arises {delimiter : Kind} (h : Delimited.Breaks delimiter ts fault) :
    fault.Arises ts := by
  cases h with
  | mk _ _ => exact .unexpected (List.nil_suffix) (List.cons_ne_nil _ _)

theorem Side.Breaks.arises (h : Side.Breaks ts fault) : fault.Arises ts := by
  cases h with
  | start _ => exact .unexpected (List.suffix_refl _) (List.cons_ne_nil _ _)
  | phrase hphrase => exact hphrase.arises

namespace Interval

theorem RightBreaks.arises (h : RightBreaks ts fault) : fault.Arises ts := by
  cases h with
  | side hside => exact hside.arises
  | closing hright hspaces _ =>
      exact .unexpected (hspaces.suffix.trans hright.suffix) (List.cons_ne_nil _ _)

theorem ToBreaks.arises (h : ToBreaks ts fault) : fault.Arises ts := by
  cases h with
  | word _ => exact .unexpected (List.suffix_refl _) (List.cons_ne_nil _ _)
  | space _ _ _ => exact .unexpected (List.suffix_cons _ _) (List.cons_ne_nil _ _)
  | right _ _ hspaces hright => exact (hright.arises.of_suffix hspaces.spaces.suffix).cons _

theorem LeftBreaks.arises (h : LeftBreaks ts fault) : fault.Arises ts := by
  cases h with
  | side hside => exact hside.arises
  | space hleft _ => exact .unexpected hleft.suffix (List.cons_ne_nil _ _)
  | next hleft hspaces hto =>
      exact hto.arises.of_suffix (hspaces.spaces.suffix.trans hleft.suffix)

theorem Breaks.arises (h : Interval.Breaks ts fault) : fault.Arises ts := by
  cases h with
  | mk _ hspaces hleft => exact (hleft.arises.of_suffix hspaces.suffix).cons _

end Interval

/-- Every comparison of a text has a meaning. -/
theorem Token.Lexical.exists_symbol {t : Token} (h : t.Lexical) (ht : t.kind = .comparison) :
    ∃ op : Comparison, t.text = op.symbol := by
  have hholds := h.2
  rw [ht] at hholds
  have htext : ∀ cs, t.text.toList = cs → t.text = String.ofList cs := by
    rintro cs rfl
    exact String.ofList_toList.symm
  rcases hholds with hcs | hcs | hcs | hcs
  · exact ⟨.lt, htext _ hcs⟩
  · exact ⟨.le, htext _ hcs⟩
  · exact ⟨.gt, htext _ hcs⟩
  · exact ⟨.ge, htext _ hcs⟩

theorem Range.Breaks.arises (h : Range.Breaks ts fault) (hseg : Segmented ts) :
    fault.Arises ts := by
  cases h with
  | comparison _ _ hside => exact hside.arises.cons _
  | unknown ht hsymbol =>
      obtain ⟨op, htext⟩ := (hseg.lexical _ List.mem_cons_self).exists_symbol ht
      rw [Comparison.ofSymbol?_eq_some_iff.mpr htext] at hsymbol
      cases hsymbol
  | interval hi => exact hi.arises

theorem Element.Breaks.arises (h : Element.Breaks ts fault) (hseg : Segmented ts) :
    fault.Arises ts := by
  cases h with
  | phrase hphrase => exact hphrase.arises
  | range hr => exact hr.arises hseg

theorem Term.Breaks.arises {room : Nat} (h : Term.Breaks room ts fault) (hseg : Segmented ts) :
    fault.Arises ts := by
  cases h with
  | start _ => exact .unexpected (List.suffix_refl _) (List.cons_ne_nil _ _)
  | regexp hregexp => exact hregexp.arises
  | group hg => exact hg.arises Element.Derives.suffix Element.Breaks.arises hseg

/-! ### Queries -/

theorem FieldClause.Breaks.arises {room : Nat} (h : FieldClause.Breaks room ts fault)
    (hseg : Segmented ts) : fault.Arises ts := by
  cases h with
  | colon hname _ => exact .unexpected hname.suffix (by decide)
  | @term _ _ mid colon _ hname _ hterm =>
      have hmid : mid <:+ ts := (List.suffix_cons colon mid).trans hname.suffix
      exact (hterm.arises (hseg.of_suffix hmid)).of_suffix hmid

theorem Query.arises_of_fails {limit : Nat} (h : (Query.reader limit).Fails ts fault)
    (hseg : Segmented ts) : fault.Arises ts := by
  obtain ⟨operand, clause, hreaches, hopens, hbreaks⟩ := Query.breaks_of_fails h
  have hclause : clause <:+ ts :=
    hopens.suffix.trans (hreaches.suffix fun hc => hc.1.suffix FieldClause.Derives.suffix)
  have harises := hbreaks.arises FieldClause.Derives.suffix FieldClause.Breaks.arises
    (hseg.of_suffix hclause)
  exact harises.of_suffix hclause

theorem Term.arises_of_fails {limit : Nat} (h : (Term.reader limit).Fails ts fault)
    (hseg : Segmented ts) : fault.Arises ts :=
  (Term.breaks_of_fails h).arises hseg

/-! ### Readers -/

section Reader

variable {r : Reader α} {after : List Kind}

theorem Reader.arises_of_runWhole (hafter : after ≠ [])
    (hreads : ∀ {ts a rest}, r.Reads ts a rest → rest <:+ ts)
    (hfails : ∀ {ts fault}, r.Fails ts fault → Segmented ts → fault.Arises ts)
    (h : r.runWhole after ts = .error fault) (hseg : Segmented ts) : fault.Arises ts := by
  have hskip := (spaces_skipSpace ts).suffix
  rcases Reader.runWhole_eq_error_iff.mp h with hfault | ⟨a, stop, hread, -, rfl⟩
  · exact (hfails hfault (hseg.of_suffix hskip)).of_suffix hskip
  · exact .unexpected ((spaces_skipSpace stop).suffix.trans ((hreads hread).trans hskip)) hafter

end Reader

theorem Query.suffix_of_reads {limit : Nat} {q : Query} (h : (Query.reader limit).Reads ts q rest) :
    rest <:+ ts :=
  (Query.derives_of_reads h).1.suffix fun hc => hc.suffix FieldClause.Derives.suffix

theorem Term.suffix_of_reads {limit : Nat} {t : Term} (h : (Term.reader limit).Reads ts t rest) :
    rest <:+ ts :=
  (Term.derives_of_reads h).1.suffix

/-! ### Lexers -/

/-- The lexers that are met on the way from one, whatever they give out. -/
inductive Lexer.Reaches (l : Lexer) : Lexer → Prop where
  | start : Lexer.Reaches l l
  | call {m : Lexer} : Lexer.Reaches l m → Lexer.Reaches l (m.run nextToken).2

theorem Lexer.Reaches.exists_standsBehind {l m : Lexer} {s : String} (h : l.Reaches m)
    (hl : ∃ front, l.StandsBehind front s) : ∃ front, m.StandsBehind front s := by
  induction h with
  | start => exact hl
  | @call m _ ih =>
      obtain ⟨front, hfront⟩ := ih
      have hcalled := hfront.run_nextToken
      rcases hcall : m.run nextToken with ⟨(_ | _) | (_ | t), after⟩ <;> rw [hcall] at hcalled
      · exact ⟨front, hcalled.1 ▸ hfront⟩
      · exact hcalled.elim
      · exact ⟨front, hcalled.1 ▸ hfront⟩
      · exact ⟨_, hcalled.2.2⟩

/-! ### Errors -/

/-- What an error says holds of the text: a character that starts no token is where splitting the
text stops, and any other error is at a token of the text or at its end, and asks for something.
No error is internal. -/
def Error.Faithful (s : String) (limit : Nat) : Error → Prop
  | unrecognised pos char => tokenize s = .error (.unrecognised pos char)
  | unexpected pos found expected =>
      (∃ located, tokenize s = .ok located ∧ ⟨pos, found⟩ ∈ located) ∧ expected ≠ []
  | unexpectedEnd pos expected =>
      (∃ located, tokenize s = .ok located) ∧ pos = s.utf8ByteSize ∧ expected ≠ []
  | tooDeep pos limit' =>
      (∃ located opening, tokenize s = .ok located ∧ ⟨pos, opening⟩ ∈ located ∧
        opening.kind = .leftParen) ∧ limit' = limit
  | internal _ => False

theorem Token.locate_append (pos : Nat) (ts us : List Token) :
    locate pos (ts ++ us) = locate pos ts ++ locate (pos + Token.bytes ts) us := by
  induction ts generalizing pos with
  | nil => rfl
  | cons t ts ih => simp [locate, ih, Token.bytes, Nat.add_assoc]

/-- The size of what is left tells where its first token stands. -/
theorem Token.mem_locate_of_suffix {t : Token} (h : t :: us <:+ ts) :
    ⟨Token.bytes ts - Token.bytes (t :: us), t⟩ ∈ locate 0 ts := by
  obtain ⟨pre, rfl⟩ := h
  rw [Token.locate_append, Token.bytes_append, Nat.add_sub_cancel, Nat.zero_add]
  exact List.mem_append_right _ List.mem_cons_self

theorem Fault.Arises.faithful {located : List Located} {s : String} {limit : Nat}
    (htokens : tokenize s = .ok located) (h : fault.Arises (located.map Located.token)) :
    (fault.toError s.utf8ByteSize limit).Faithful s limit := by
  obtain ⟨hjoin, -, hlocate⟩ := tokenize_eq_ok_iff.mp htokens
  have hsize : s.utf8ByteSize = Token.bytes (located.map Located.token) := by
    rw [← hjoin, Token.utf8ByteSize_join]
  have hmem : ∀ {t us}, t :: us <:+ located.map Located.token →
      ⟨s.utf8ByteSize - Token.bytes (t :: us), t⟩ ∈ located := by
    intro t us hus
    rw [hsize, hlocate, Token.map_token_locate]
    exact Token.mem_locate_of_suffix hus
  cases h with
  | @unexpected rest expected hrest hne =>
      cases rest with
      | nil => exact ⟨⟨located, htokens⟩, rfl, hne⟩
      | cons t us => exact ⟨⟨located, htokens, hmem hrest⟩, hne⟩
  | tooDeep hopening hrest => exact ⟨⟨located, _, htokens, hmem hrest, hopening⟩, rfl⟩

theorem Reader.faithful_of_parse_eq_error {r : Reader α} {after : List Kind} {limit : Nat}
    {s : String} {e : Error} (hafter : after ≠ [])
    (hreads : ∀ {ts a rest}, r.Reads ts a rest → rest <:+ ts)
    (hfails : ∀ {ts fault}, r.Fails ts fault → Segmented ts → fault.Arises ts)
    (h : r.parse after limit s = .error e) : e.Faithful s limit := by
  unfold parse at h
  split at h
  · next htokens =>
      cases h
      obtain ⟨pos, c, rfl⟩ := tokenize_eq_error_imp htokens
      exact htokens
  · next located htokens =>
      split at h
      · next fault hrun =>
          cases h
          obtain ⟨-, hseg, -⟩ := tokenize_eq_ok_iff.mp htokens
          exact (Reader.arises_of_runWhole hafter hreads hfails hrun hseg).faithful htokens
      · cases h

/-- Every error tells the truth about its text, whatever the limit: it is the one that splitting
the text into tokens stops with, or names a token of the text and its offset, or the end of the
text. On the way no slice is out of range, neither of the tokens, from wherever they are read, nor
of the text: the lexer stands between two characters, with the token that it finds right behind
it. -/
theorem parseWithin_error_faithful (s : String) (limit : Nat) :
    (∀ e, Query.parseWithin limit s = .error e → e.Faithful s limit) ∧
    (∀ e, Term.parseWithin limit s = .error e → e.Faithful s limit) ∧
    (∀ panic, Query.runWithin limit s ≠ .error (.panic panic) ∧
      Term.runWithin limit s ≠ .error (.panic panic)) ∧
    (∀ l, (Lexer.ofString s).Reaches l → ∃ front, l.StandsBehind front s ∧
      (∀ panic, (l.run Lexer.nextToken).1 ≠ .error (.panic panic)) ∧
      ∀ t after, l.run Lexer.nextToken = (.ok (some t), after) →
        t.pos = l.pos ∧ after.StandsBehind (front ++ t.token.text) s) ∧
    ∀ (p : Parser) panic, (∀ k, p.keyword k ≠ .error (.panic panic)) ∧
      p.query ≠ .error (.panic panic) ∧ p.term ≠ .error (.panic panic) := by
  refine ⟨?_, ?_, ?_, ?_, ?_⟩
  · intro e he
    rw [Query.parseWithin_eq] at he
    exact Reader.faithful_of_parse_eq_error (by decide) Query.suffix_of_reads
      Query.arises_of_fails he
  · intro e he
    rw [Term.parseWithin_eq] at he
    exact Reader.faithful_of_parse_eq_error (by decide) Term.suffix_of_reads
      Term.arises_of_fails he
  · intro panic
    rw [Query.runWithin_eq, Term.runWithin_eq]
    exact ⟨mapError_error_ne_panic _ panic, mapError_error_ne_panic _ panic⟩
  · intro l hl
    obtain ⟨front, hfront⟩ := hl.exists_standsBehind ⟨"", Lexer.standsBehind_ofString s⟩
    have hcalled := hfront.run_nextToken
    refine ⟨front, hfront, ?_, ?_⟩
    · intro panic hpanic
      rcases hcall : l.run Lexer.nextToken with ⟨result, after⟩
      rw [hcall] at hcalled hpanic
      obtain rfl : result = .error (.panic panic) := hpanic
      exact hcalled
    · intro t after hcall
      rw [hcall] at hcalled
      exact ⟨hcalled.1, hcalled.2.2⟩
  · intro p panic
    refine ⟨fun k => ?_, (p.agrees_query rfl).ne_panic panic, (p.agrees_term rfl).ne_panic panic⟩
    rw [Parser.keyword_eq]
    exact nofun

/-- A group without its closing parenthesis after a field name of one letter and two bytes, which
as a term would have to end there; behind that letter the lexer finds the colon. -/
theorem parseWithin_error_faithful_accent :
    let s := "é:(1 2)"
    let e := Error.unexpected 6 ⟨.number, "2"⟩ [.rightParen]
    let e' := Error.unexpected 2 ⟨.colon, ":"⟩ [.blank]
    let l : Lexer := ⟨s.toList, 2⟩
    (Query.parseWithin 1 s = .error e ∧ e.Faithful s 1) ∧
    (Term.parseWithin 1 s = .error e' ∧ e'.Faithful s 1) ∧
    (Lexer.ofString s).Reaches l ∧ ∃ front, l.StandsBehind front s ∧
      (∀ panic, (l.run Lexer.nextToken).1 ≠ .error (.panic panic)) ∧
      ∀ t after, l.run Lexer.nextToken = (.ok (some t), after) →
        t.pos = l.pos ∧ after.StandsBehind (front ++ t.token.text) s := by
  intro s e e' l
  obtain ⟨hquery, hterm, -, hlexer, -⟩ := parseWithin_error_faithful s 1
  have he : Query.parseWithin 1 s = .error e := by decide +kernel
  have he' : Term.parseWithin 1 s = .error e' := by decide +kernel
  have hcall : ((Lexer.ofString s).run Lexer.nextToken).2 = l := by decide +kernel
  have hl : (Lexer.ofString s).Reaches l := hcall ▸ .call .start
  exact ⟨⟨he, hquery e he⟩, ⟨he', hterm e' he'⟩, hl, hlexer l hl⟩

end SearchQuery
