import SearchQuery.Proofs.Fault.Continuation

/-!
Expected kinds are acceptable. Where the parser says what it expected, a token of each of these
kinds could have come next, and what was read before is the start of an accepted text with it. Not
all of them can come at once: a NOT needs space between a query and itself, and so does what would
continue AND or OR, or a NOT that comes without either.
-/

namespace SearchQuery

open Token (Kind Segmented)

variable {α : Type} {ts start : List Token} {fault : Fault} {k : Kind} {expected : List Kind}
  {fresh : List Kind → Prop}

/-! ### Expected kinds -/

/-- Where an error says what was expected, and the kinds that were. -/
def Error.expectation? : Error → Option (Nat × List Kind)
  | unexpected pos _ expected | unexpectedEnd pos expected => some (pos, expected)
  | unrecognised _ _ | tooDeep _ _ | internal _ => none

theorem Fault.of_expectation? {size limit pos : Nat}
    (h : (fault.toError size limit).expectation? = some (pos, expected)) :
    ∃ rest, fault = .unexpected rest expected ∧ pos = size - Token.bytes rest := by
  rcases fault with ⟨_ | ⟨t, rest⟩, expected⟩ | rest | rest <;>
    simp_all [toError, Error.expectation?, Token.bytes]

/-- A token of the kind can come right behind the tokens: with it they are the start of an accepted
text. -/
def Extendable (parse : Nat → String → Except Error α) (k : Kind) (pre : List Token) : Prop :=
  ∃ u, Token.StartsText k u ∧ Continues parse (Token.join pre) u

/-- The kinds are acceptable at the place: with a token of any of them there, what stands before it
in the text is the start of an accepted one. It may need space in front of it. -/
def Admitted (parse : Nat → String → Except Error α) (s : String) (pos : Nat)
    (expected : List Kind) : Prop :=
  ∀ k ∈ expected, ∃ pre rest gap u, Token.SplitsInto s (pre ++ rest) ∧ Token.bytes pre = pos ∧
    (gap = "" ∨ gap = " " ∧ NeedsSpace (Extendable parse .ampersand) expected k pre) ∧
    Token.StartsText k u ∧ Continues parse (Token.join pre ++ gap) u

/-- Space in front of something else. -/
theorem admits_of_spaces {p : Production α} (hspaces : Spaces ts start)
    (h : Segmented start → Admits fresh p.Spaced start fault) (hseg : Segmented ts) :
    Admits (fun _ => True) p.Spaced ts fault := by
  obtain ⟨gap, rfl, hgap⟩ := spaces_iff.mp hspaces
  by_cases hne : gap = []
  · subst hne
    exact (h hseg).weaken
  · apply admits_append_left hseg hne h (Token.lastNot_of_forall_isSpace hgap (by decide))
    intro us rest hp
    obtain ⟨us', a, hus, ha⟩ := hp
    exact ⟨us', a, (spaces_append hgap us).trans hus, ha⟩

theorem Query.admits_of_fails {limit : Nat}
    (h : (Query.reader limit).Fails (Token.skipSpace ts) fault) (hseg : Segmented ts) :
    Admits (fun _ => True) (Formula.Derives (Clause.Derives FieldClause.Derives)).Spaced ts
      fault := by
  obtain ⟨operand, clause, hreaches, hopens, hbreaks⟩ := Query.breaks_of_fails h
  have hformula := Formula.admits (fun hc => hc.skipSpace_eq FieldClause.exact.skipSpace_eq)
    (fun _ _ _ hc => hc.replay FieldClause.Derives.replay)
    (fun _ hkey _ hk _ =>
      (FieldClause.takes_continued hkey hk).imp fun _ _ => Clause.plain_of_leaf)
    (hreaches.imp fun hc => hc.1) hopens hbreaks.admits
  exact admits_of_spaces (spaces_skipSpace ts) hformula hseg

theorem Term.admits_of_fails {limit : Nat}
    (h : (Term.reader limit).Fails (Token.skipSpace ts) fault) (hseg : Segmented ts) :
    Admits (fun _ => True) Term.Derives.Spaced ts fault := by
  have hterm (hsegstart : Segmented (Token.skipSpace ts)) :
      Admits (fun _ => True) Term.Derives.Spaced (Token.skipSpace ts) fault := by
    apply ((Term.breaks_of_fails h).admits hsegstart).imp
    intro us rest ht
    obtain ⟨t, ht⟩ := ht
    exact ⟨us, t, .none, ht⟩
  exact admits_of_spaces (spaces_skipSpace ts) hterm hseg

section Whole

variable {r : Nat → Reader α} {p : Production α} {depth : α → Nat} {after : List Kind}
  {parse : Nat → String → Except Error α}
  (hparse : ∀ limit, parse limit = (r limit).parse after limit)
  (hwhole : ∀ {limit ts a}, (r limit).runWhole after ts = .ok a ↔ Whole p ts a ∧ depth a ≤ limit)

include hparse hwhole

/-- A whole text that is accepted starts with what takes more, space and all. -/
theorem Takes.continues {gap : String} {pre : List Token} (h : Takes p.Spaced k gap pre) :
    ∃ u, Token.StartsText k u ∧ Continues parse (Token.join pre ++ gap) u := by
  obtain ⟨full, hfull, hread⟩ := h
  obtain ⟨start, a, hstart, ha⟩ := hread [] nofun
  rw [List.append_nil] at hstart
  obtain ⟨more, hmore, hchars⟩ := hfull.chars
  have hall : Whole p full a := ⟨start, [], hstart, ha, .none⟩
  exact ⟨_, hmore.startsText, hall.continues hparse hwhole hfull.segmented (by simp [hchars])⟩

/-- Faults in a phrase and tokens left over behind one are all there is. -/
theorem Reader.admitted
    (hreads : ∀ {limit ts a rest}, (r limit).Reads ts a rest → p.Replay Swaps ts a rest)
    (hfails : ∀ {limit ts fault}, (r limit).Fails (Token.skipSpace ts) fault → Segmented ts →
      Admits (fun _ => True) p.Spaced ts fault)
    (hafter : ∀ {ts a}, Segmented ts → Whole p ts a → ∀ k ∈ after, ∃ gap u,
      (gap = "" ∨ gap = " " ∧ NeedsSpace (Extendable parse .ampersand) after k ts) ∧
      Token.StartsText k u ∧ Continues parse (Token.join ts ++ gap) u)
    {limit pos : Nat} {s : String} {e : Error} (h : parse limit s = .error e)
    (hexpectation : e.expectation? = some (pos, expected)) :
    Admitted parse s pos expected := by
  intro k hk
  rw [hparse] at h
  rcases Reader.exists_of_parse_eq_error h with ⟨_, _, rfl⟩ | ⟨located, fault, htokens, hrun, rfl⟩
  · cases hexpectation
  · obtain ⟨hjoin, hseg, -⟩ := tokenize_eq_ok_iff.mp htokens
    obtain ⟨rest, rfl, rfl⟩ := Fault.of_expectation? hexpectation
    generalize located.map Token.Located.token = ts at hjoin hseg hrun
    have hplace : ∃ pre gap u, ts = pre ++ rest ∧
        (gap = "" ∨ gap = " " ∧ NeedsSpace (Extendable parse .ampersand) expected k pre) ∧
        Token.StartsText k u ∧ Continues parse (Token.join pre ++ gap) u := by
      rcases Reader.runWhole_eq_error_iff.mp hrun with hfault | ⟨a, stop, hread, -, hstop⟩
      · obtain ⟨gap, pre, hts, -, hgap, htakes⟩ := hfails hfault hseg rest expected rfl k hk
        obtain ⟨u, hu, hcontinues⟩ := htakes.continues hparse hwhole
        refine ⟨pre, gap, u, hts, hgap.imp_right fun ⟨hgap, hneeds⟩ => ⟨hgap, ?_⟩, hu, hcontinues⟩
        refine hneeds.imp fun before hbefore => ?_
        have hextendable := hbefore.continues hparse hwhole
        rwa [String.append_empty] at hextendable
      · cases hstop
        obtain ⟨pre, hts, hpre, hall⟩ := (hreads hread).exists_whole hseg
        obtain ⟨gap, u, hgap, hu, hcontinues⟩ := hafter hpre hall k hk
        exact ⟨pre, gap, u, hts, hgap, hu, hcontinues⟩
    obtain ⟨pre, gap, u, rfl, hgap, hu, hcontinues⟩ := hplace
    refine ⟨pre, rest, gap, u, Token.splitsInto_iff.mpr ⟨hjoin, hseg⟩, ?_, hgap, hu, hcontinues⟩
    rw [← hjoin, Token.join_append, String.utf8ByteSize_append, Token.utf8ByteSize_join,
      Token.utf8ByteSize_join, Nat.add_sub_cancel]

end Whole

theorem Token.startsText_blank : Token.StartsText .blank " " :=
  ⟨⟨.blank, " "⟩, [], by decide +kernel, rfl⟩

/-- Each of the kinds that may come behind a query. -/
theorem Query.continues_after {q : Query} (hts : Segmented ts) (h : Query.Derives ts q)
    (hk : k ∈ [.blank, .word, .ampersand, .bar, .bang]) :
    ∃ gap u, (gap = "" ∨
        gap = " " ∧ NeedsSpace (Extendable Query.parseWithin .ampersand) expected k ts) ∧
      Token.StartsText k u ∧ Continues Query.parseWithin (Token.join ts ++ gap) u := by
  have hparse : Query.parseWithin q.depth (Token.join ts) = .ok q :=
    Query.parseWithin_eq_ok_iff_segmented.mpr ⟨ts, rfl, hts, h, Nat.le_refl _⟩
  obtain ⟨f⟩ := Query.nonempty_frame hparse
  have hsplit : ts = f.front ++ (f.phrase ++ f.back) :=
    Except.ok.inj ((Token.splitsInto_iff.mpr ⟨rfl, hts⟩).symm.trans f.splitsInto)
  have hdirect : Extendable Query.parseWithin k ts →
      ∃ gap u, (gap = "" ∨
          gap = " " ∧ NeedsSpace (Extendable Query.parseWithin .ampersand) expected k ts) ∧
        Token.StartsText k u ∧ Continues Query.parseWithin (Token.join ts ++ gap) u := by
    rintro ⟨u, hu, hcontinues⟩
    exact ⟨"", u, Or.inl rfl, hu, by rwa [String.append_empty]⟩
  have hand : Token.Begins .ampersand ([⟨.ampersand, "&"⟩, ⟨.ampersand, "&"⟩] ++
      FieldClause.sample) := ⟨by decide, FieldClause.firm_sample.append _, rfl⟩
  have hor : Token.Begins .bar ([⟨.bar, "|"⟩, ⟨.bar, "|"⟩] ++ FieldClause.sample) :=
    ⟨by decide, FieldClause.firm_sample.append _, rfl⟩
  simp only [List.mem_cons, List.not_mem_nil, or_false] at hk
  rcases hk with rfl | rfl | rfl | rfl | rfl
  case inl =>
    refine hdirect ⟨" ", Token.startsText_blank, ?_⟩
    refine Whole.continues_blank Query.parseWithin_eq Query.runWhole_eq_ok_iff ?_ hts h
    exact fun hq => (hq.imp fun _ _ _ _ hc => hc.replay FieldClause.Derives.replay).replay
  · by_cases hback : f.back = []
    · exact hdirect (f.continues_word hback)
    · exact hdirect (f.continues_keyword (by decide) FieldClause.begins_conjunct rfl
        (fun hnil => absurd hnil hback) FieldClause.stands_conjunct (.more rfl .none))
  · exact hdirect (f.continues_keyword (by decide) hand rfl (fun _ => by decide)
      (.ampersands rfl rfl) .none)
  · exact hdirect (f.continues_keyword (by decide) hor rfl (fun _ => by decide)
      (.bars rfl rfl) .none)
  · obtain ⟨gap, u, hgap, hu, hcontinues⟩ := f.continues_bang
    refine ⟨gap, u, hgap.imp_right fun hback => ⟨hback.1, Or.inl ⟨rfl, ?_⟩⟩, hu, hcontinues⟩
    have hfirm := f.firm.append f.front
    rw [hsplit, hback.2, List.append_nil]
    intro t ht
    obtain ⟨t', ht', hspace, -⟩ := hfirm
    cases Option.mem_unique ht ht'
    exact hspace

/-- Expected kinds are truthful: in the place of each error, each of the kinds that it says were
expected can come, and lead to an accepted text under some limit. It may need space in front: a NOT
does behind a query that ends without any, and so does what would continue AND or OR right before
it, or a NOT in whose place AND could come. -/
theorem parseWithin_expectation_admitted (s : String) (limit pos : Nat) (expected : List Kind) :
    (∀ e, Query.parseWithin limit s = .error e → e.expectation? = some (pos, expected) →
      Admitted Query.parseWithin s pos expected) ∧
    ∀ e, Term.parseWithin limit s = .error e → e.expectation? = some (pos, expected) →
      Admitted Term.parseWithin s pos expected := by
  refine ⟨?_, ?_⟩
  · intro e he hexpectation
    refine Reader.admitted Query.parseWithin_eq Query.runWhole_eq_ok_iff ?_ Query.admits_of_fails ?_
      he hexpectation
    · intro limit ts q rest hread
      obtain ⟨hq, -⟩ := Query.derives_of_reads hread
      exact (hq.imp fun _ _ _ _ hc => hc.replay FieldClause.Derives.replay).replay
    · intro ts q hts hq k hk
      exact Query.continues_after hts hq hk
  · intro e he hexpectation
    refine Reader.admitted Term.parseWithin_eq Term.runWhole_eq_ok_iff ?_ Term.admits_of_fails ?_
      he hexpectation
    · intro limit ts t rest hread
      obtain ⟨ht, -⟩ := Term.derives_of_reads hread
      exact ht.replay.mono fun _ _ hswaps => hswaps.kept
    · intro ts t hts ht k hk
      cases List.mem_singleton.mp hk
      refine ⟨"", " ", Or.inl rfl, Token.startsText_blank, ?_⟩
      rw [String.append_empty]
      refine Whole.continues_blank Term.parseWithin_eq Term.runWhole_eq_ok_iff ?_ hts ht
      exact fun ht => ht.replay.mono fun _ _ hswaps => hswaps.kept

/-- A parenthesis too many behind a query, and what starts no element behind OR. -/
theorem parseWithin_expectation_admitted_or :
    let s := "x:1)"
    let s' := "(a OR/"
    let elements : List Kind := [.leftParen, .quote, .comparison, .leftBracket, .leftBrace, .word,
      .number, .dot, .minus, .wildcard]
    (Query.parseWithin 1 s =
        .error (.unexpected 3 ⟨.rightParen, ")"⟩ [.blank, .word, .ampersand, .bar, .bang]) ∧
      Admitted Query.parseWithin s 3 [.blank, .word, .ampersand, .bar, .bang]) ∧
    Term.parseWithin 1 s' = .error (.unexpected 5 ⟨.slash, "/"⟩ elements) ∧
      Admitted Term.parseWithin s' 5 elements := by
  intro s s' elements
  have hs : Query.parseWithin 1 s =
      .error (.unexpected 3 ⟨.rightParen, ")"⟩ [.blank, .word, .ampersand, .bar, .bang]) := by
    decide +kernel
  have hs' : Term.parseWithin 1 s' = .error (.unexpected 5 ⟨.slash, "/"⟩ elements) := by
    decide +kernel
  exact ⟨⟨hs, (parseWithin_expectation_admitted s 1 3 _).1 _ hs rfl⟩,
    hs', (parseWithin_expectation_admitted s' 1 5 _).2 _ hs' rfl⟩

end SearchQuery
