import SearchQuery.Proofs.Fault.Continuation

/-!
Kinds that need space. A query is all that is read where nothing behind it goes on with it: a NOT
right behind its last token does not, nor does a word that is spelled like a keyword but continued.
-/

namespace SearchQuery

open Token (Kind Segmented Apart Lexical chars)

variable {ts us rest pre : List Token} {k : Kind} {limit : Nat} {s u : String} {q : Query}

/-! ### What stops a formula -/

theorem Stops.of_bang {t : Token} (ht : t.kind = .bang) : Stops (t :: ts) := by
  have hspace : t.isSpace = false := by simp [Token.isSpace, ht, Kind.isSpace]
  have hskip : Token.skipSpace (t :: ts) = t :: ts := skipSpace_eq_self (by simpa using hspace)
  have hnot : Keyword.not.Stands (t :: ts) ts := .bang ht
  refine ⟨hnot.follows, ?_, ?_⟩
  · cases hahead : Link.ahead? (t :: ts) with
    | none => rfl
    | some found =>
        rcases Link.ahead?_eq_some_iff.mp hahead with ⟨-, after, hand, -⟩ | ⟨-, hstart, -⟩
        · rw [hskip] at hand
          cases hand.unique hnot
        · simp [Token.startsWithSpace, hspace] at hstart
  · apply Branch.ahead?_eq_none
    intro after hor
    rw [hskip] at hor
    cases hor.unique hnot

theorem Stops.of_not_stands (hstart : Token.startsWithSpace ts = true)
    (h : ∀ k after, ¬ Keyword.Stands k (Token.skipSpace ts) after) : Stops ts where
  follows := follows_of_startsWithSpace hstart
  link := Link.ahead?_eq_none (h .and) (h .not)
  branch := Branch.ahead?_eq_none (h .or)

namespace Query

namespace Frame

/-- Tokens that do not go on with a query are left over behind it. -/
theorem not_continues (f : Frame limit s q) (hrest : EndsRun rest) (hstops : Stops rest)
    (hne : Token.skipSpace rest ≠ []) (hseg : Segmented (f.front ++ (f.phrase ++ rest)))
    {text : String} (htext : chars (f.front ++ (f.phrase ++ rest)) = text.toList ++ u.toList) :
    ¬ Continues Query.parseWithin text u := by
  rintro ⟨limit', q', hparse⟩
  obtain ⟨ts, hjoin, hts, hq', hdepth'⟩ := parseWithin_eq_ok_iff_segmented.mp hparse
  obtain rfl : ts = f.front ++ (f.phrase ++ rest) := by
    have hsplit : Token.SplitsInto (text ++ u) ts := Token.splitsInto_iff.mpr ⟨hjoin, hts⟩
    have hsplit' : Token.SplitsInto (text ++ u) (f.front ++ (f.phrase ++ rest)) := by
      refine Token.splitsInto_iff.mpr ⟨?_, hseg⟩
      rw [← String.toList_inj, Token.toList_join, htext, String.toList_append]
    exact Except.ok.inj (hsplit.symm.trans hsplit')
  -- under a limit for both, the query is all that is read
  obtain ⟨hq, hdepth⟩ := (f.derives rest hrest).of_within FieldClause.Derives.replay
  have hroom : q.depth ≤ max limit q'.depth :=
    (Formula.sup_le_iff.mpr hdepth).trans (Nat.le_max_left _ _)
  have hread : (Query.reader (max limit q'.depth)).Reads (f.phrase ++ rest) q rest :=
    Query.reads_of_derives hq hroom hstops
  have hwhole : (Query.reader (max limit q'.depth)).runWhole [] (f.front ++ (f.phrase ++ rest)) =
      .ok q' := Query.runWhole_eq_ok_iff.mpr ⟨hq', Nat.le_max_right _ _⟩
  obtain ⟨stop, hread', hstop⟩ := Reader.runWhole_eq_ok_iff.mp hwhole
  rw [(spaces_append f.space_front _).skipSpace_eq,
    hq.skipSpace_eq fun hc => hc.skipSpace_eq FieldClause.exact.skipSpace_eq] at hread'
  cases hread.symm.trans hread'
  exact hne hstop

end Frame

/-- A NOT right behind a query is not part of one. -/
theorem not_continues_bang (h : Query.parseWithin limit s = .ok q) (hs : Token.SplitsInto s pre)
    (hlast : ∀ t ∈ pre.getLast?, t.isSpace = false) (hu : Token.StartsText .bang u) :
    ¬ Continues Query.parseWithin s u := by
  obtain ⟨f⟩ := Query.nonempty_frame h
  obtain ⟨t, us, hsplit, ht⟩ := hu
  obtain ⟨rfl, hus⟩ := Token.splitsInto_iff.mp hsplit
  have hback : f.back = [] := by
    by_contra hne
    obtain rfl : pre = f.front ++ (f.phrase ++ f.back) :=
      Except.ok.inj (hs.symm.trans f.splitsInto)
    have hmem := List.getLast?_eq_some_getLast hne
    rw [List.getLast?_append_of_ne_nil _ (by simp [hne]),
      List.getLast?_append_of_ne_nil _ hne] at hlast
    have hspace := f.space_back _ (List.getLast_mem hne)
    rw [hlast _ hmem] at hspace
    cases hspace
  have hends : EndsRun (t :: us) := endsRun_cons ht (by decide)
  apply f.not_continues hends (.of_bang ht)
  · simp [Token.skipSpace, Token.isSpace, ht, Kind.isSpace]
  · rw [← List.append_assoc]
    exact Token.segmented_append.mpr ⟨f.segmented_left, hus, (f.firm.append f.front).apart hends⟩
  · rw [Token.toList_join, ← f.text, hback]
    simp

/-- A word behind a query that is spelled like a keyword is none with what continues a word right
behind it. -/
theorem not_continues_keyword {t : Token} (h : Query.parseWithin limit s = .ok q)
    (ht : t.SpellsKeyword) (hk : Keyword.Continues k) (hu : Token.StartsText k u) :
    ¬ Continues Query.parseWithin (s ++ " " ++ t.text) u := by
  obtain ⟨f⟩ := Query.nonempty_frame h
  obtain ⟨v, us, hsplit, hv⟩ := hu
  obtain ⟨rfl, hus⟩ := Token.splitsInto_iff.mp hsplit
  obtain ⟨w, ws, hkind, -, hseg, hchars, hstands⟩ := ht.exists_continued (hv ▸ hk) hus
  have hspace : w.isSpace = false := by simp [Token.isSpace, hkind, Kind.isSpace]
  obtain ⟨gap, hne, hgap, hall, htext⟩ := f.exists_spaced hseg (by simpa using hspace)
  have hskip : Token.skipSpace (gap ++ w :: ws) = w :: ws :=
    (spaces_append hgap _).skipSpace_eq_cons hspace
  have hstart : Token.startsWithSpace (gap ++ w :: ws) = true := by
    obtain ⟨t, gap, rfl⟩ := List.exists_cons_of_ne_nil hne
    simpa [Token.startsWithSpace] using hgap t List.mem_cons_self
  refine f.not_continues (endsRun_append_of_isSpace hne hgap _) ?_ (by simp [hskip]) hall ?_
  · exact .of_not_stands hstart (by simpa [hskip] using hstands [])
  · rw [htext, hchars, Token.toList_join]
    simp

/-- A NOT is said to be expected right behind this query, where none can be. What continues a word
is said to be expected right behind AND, and behind a NOT that comes without it. -/
theorem expected_bang_not_admitted :
    (Query.parse "x:1)" =
        .error (.unexpected 3 ⟨.rightParen, ")"⟩ [.blank, .word, .ampersand, .bar, .bang]) ∧
      ¬ ∃ u, Token.StartsText .bang u ∧ Continues Query.parseWithin "x:1" u) ∧
    ∀ word ∈ ["AND", "NOT"],
      Query.parse ("x:1 " ++ word ++ "/y/") =
          .error (.unexpected 7 ⟨.slash, "/"⟩ [.leftParen, .word, .number, .dot, .minus]) ∧
        ∀ k ∈ [Kind.word, .number, .dot, .minus],
          ¬ ∃ u, Token.StartsText k u ∧ Continues Query.parseWithin ("x:1 " ++ word) u := by
  let q : Query := ⟨⟨⟨false, .leaf ⟨⟨[⟨.word, "x"⟩]⟩, .literal (.bare [⟨.number, "1"⟩]) none⟩⟩,
    []⟩, []⟩
  have hq : Query.parseWithin 1 "x:1" = .ok q := by decide +kernel
  refine ⟨⟨by decide +kernel, ?_⟩, ?_⟩
  · rintro ⟨u, hu, hcontinues⟩
    have hs : Token.SplitsInto "x:1" [⟨.word, "x"⟩, ⟨.colon, ":"⟩, ⟨.number, "1"⟩] := by
      decide +kernel
    exact not_continues_bang hq hs (by decide) hu hcontinues
  · intro word hword
    refine ⟨?_, ?_⟩
    · revert word
      decide +kernel
    · rintro k hk ⟨u, hu, hcontinues⟩
      have hspells : Token.SpellsKeyword ⟨.word, word⟩ := by
        simp only [List.mem_cons, List.not_mem_nil, or_false] at hword
        rcases hword with rfl | rfl
        · exact ⟨.and, by decide⟩
        · exact ⟨.not, by decide⟩
      have hbare : [Kind.word, .number, .dot, .minus] ⊆ Literal.bareKinds := by decide
      exact not_continues_keyword hq hspells (Keyword.continues_of_mem_bareKinds (hbare hk)) hu
        hcontinues

end Query

end SearchQuery
