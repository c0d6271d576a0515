import SearchQuery.Proofs.Substitution.Filling

/-!
Escaped words. With a backslash before each of its characters, any text is a single word that is
no keyword, and it can stand for any word of a query that is none either: nothing else of the query
is read differently for it.
-/

namespace SearchQuery

open Token (Kind Segmented Apart Lexical hole)

variable {α C : Type}

/-! ### Escaped words -/

/-- The text with a backslash before each of its characters. -/
def Text.backslashed (w : String) : String :=
  String.ofList (w.toList.flatMap fun c => ['\\', c])

namespace Token

theorem isWordText_backslashed (cs : List Char) :
    IsWordText (cs.flatMap fun c => ['\\', c]) := by
  induction cs with
  | nil => exact .nil
  | cons c cs ih => exact .escaped c ih

theorem lexical_backslashed {w : String} (hw : w ≠ "") : Lexical ⟨.word, Text.backslashed w⟩ := by
  refine ⟨?_, ?_⟩
  · have hne : w.toList ≠ [] := by simpa using hw
    obtain ⟨c, cs, hlist⟩ := List.exists_cons_of_ne_nil hne
    simp [Text.backslashed, hlist]
  · simpa [Kind.Holds, Text.backslashed] using isWordText_backslashed w.toList

/-- No reserved word has a backslash. -/
theorem neutral_backslashed {w : String} (hw : w ≠ "") : Neutral ⟨.word, Text.backslashed w⟩ := by
  refine ⟨rfl, ?_⟩
  intro hmem
  obtain ⟨c, cs, hlist⟩ : ∃ c cs, w.toList = c :: cs := by
    apply List.exists_cons_of_ne_nil
    simpa using hw
  have hback : '\\' ∈ (Text.backslashed w).toList := by simp [Text.backslashed, hlist]
  have hnone : ∀ text ∈ ["AND", "and", "OR", "or", "NOT", "not", "TO"], '\\' ∉ text.toList := by
    decide
  exact hnone _ hmem hback

/-- A token can be replaced by another one of its kind. -/
theorem Segmented.replace {pre post : List Token} {x y : Token} (h : Segmented (pre ++ x :: post))
    (hkind : y.kind = x.kind) (hy : y.Lexical) : Segmented (pre ++ y :: post) := by
  obtain ⟨hpre, hright, hborder⟩ := segmented_append.mp h
  obtain ⟨-, hpost, hnext⟩ := segmented_cons.mp hright
  refine segmented_append.mpr ⟨hpre, segmented_cons.mpr ⟨hy, hpost, ?_⟩, ?_⟩
  · intro u hu
    simpa [Apart, hkind] using hnext u hu
  · intro t ht u hu
    cases hu
    simpa [Apart, hkind] using hborder t ht x rfl

theorem Lexical.ne_hole {t : Token} (h : t.Lexical) : t ≠ hole := by
  rintro rfl
  exact h.1 rfl

theorem Segmented.hole_notMem {ts : List Token} (h : Segmented ts) : hole ∉ ts :=
  fun hmem => (h.lexical _ hmem).ne_hole rfl

theorem map_fill_append_hole {pre post : List Token} (hpre : hole ∉ pre) (hpost : hole ∉ post)
    (y : Token) : (pre ++ hole :: post).map (fill y) = pre ++ y :: post := by
  have hfill : ∀ {ts : List Token}, hole ∉ ts → ts.map (fill y) = ts := by
    intro ts hts
    rw [List.map_congr_left fun t ht => fill_of_ne (ne_of_mem_of_not_mem ht hts), List.map_id']
  rw [List.map_append, List.map_cons, hfill hpre, hfill hpost]
  simp [fill]

end Token

/-! ### Reserved words -/

/-- The tokens start with a keyword, or with the word TO. -/
def Token.Reserved (us : List Token) : Prop :=
  (∃ k after, Keyword.Stands k us after) ∨ ∃ t ∈ us.head?, t.kind = .word ∧ t.text = "TO"

theorem Interval.Reserves.reserved {ts us : List Token} (h : Interval.Reserves ts us) :
    Token.Reserved us := by
  obtain ⟨-, -, -, -, hkind, htext⟩ := h
  exact Or.inr ⟨_, rfl, hkind, htext⟩

theorem Clause.Reserves.reserved {leaf : Production α}
    {leafReserves : List Token → List Token → Prop}
    (hleaf : ∀ ts us, leafReserves ts us → Token.Reserved us) {ts us : List Token}
    (h : Clause.Reserves leaf leafReserves ts us) : Token.Reserved us := by
  match h with
  | .leaf hreserved => exact hleaf _ _ hreserved
  | .paren _ _ hreserved =>
      match hreserved with
      | .negation _ hnot => exact Or.inl ⟨_, _, hnot⟩
      | .joint _ _ _ _ hjoint => exact Or.inl ⟨_, _, hjoint⟩
      | .clause _ _ hwithin => exact Clause.Reserves.reserved hleaf hwithin

theorem FieldClause.Reserves.reserved {ts us : List Token} (h : FieldClause.Reserves ts us) :
    Token.Reserved us := by
  obtain ⟨-, -, hterm⟩ := h
  exact hterm.reserved fun _ _ => Interval.Reserves.reserved

theorem Query.Reserves.reserved {ts us : List Token} (h : Query.Reserves ts us) :
    Token.Reserved us := by
  obtain ⟨start, -, hreserved⟩ := h
  cases hreserved with
  | negation _ hnot => exact Or.inl ⟨_, _, hnot⟩
  | joint _ _ _ _ hjoint => exact Or.inl ⟨_, _, hjoint⟩
  | clause _ _ hwithin => exact hwithin.reserved fun _ _ => FieldClause.Reserves.reserved

/-! ### Words of queries -/

/-- A hole in the place of a word that is not reserved is free. -/
theorem Token.free_of_not_reserves {pre post : List Token} {x : Token} (hpre : hole ∉ pre)
    (hpost : hole ∉ post) (hx : ¬ Query.Reserves (pre ++ x :: post) (x :: post)) :
    Token.Free Query.Reserves x (pre ++ hole :: post) := by
  intro us' hsuffix
  obtain ⟨front, hfront⟩ := hsuffix
  obtain ⟨-, -, rfl⟩ := (List.append_cons_inj_of_notMem hpre hpost).mp hfront.symm
  have hback := Token.map_fill_append_hole List.not_mem_nil hpost x
  rw [List.nil_append, List.nil_append] at hback
  rwa [Token.map_fill_append_hole hpre hpost, hback]

theorem Query.parseWithin_eq_ok_iff_of_splitsInto {limit : Nat} {s : String} {ts : List Token}
    {q : Query} (hsplit : Token.SplitsInto s ts) :
    Query.parseWithin limit s = .ok q ↔ Query.Derives ts q ∧ q.depth ≤ limit := by
  obtain ⟨located, htokens, rfl⟩ : ∃ located, tokenize s = .ok located ∧
      located.map Token.Located.token = ts := by
    unfold Token.SplitsInto at hsplit
    cases htokens : tokenize s with
    | error e => simp [htokens, Except.map] at hsplit
    | ok located => exact ⟨located, rfl, by simpa [htokens, Except.map] using hsplit⟩
  simp [Query.parseWithin_eq, Reader.parse_eq_ok_iff, Query.runWhole_eq_ok_iff, htokens]

/-- A word of an accepted query that is neither a keyword nor the TO of a range can be replaced by
any escaped text. The other tokens stay, and the tree changes in the place of that word only. -/
theorem Query.parseWithin_backslashed {limit : Nat} {s x : String} {q : Query}
    {pre post : List Token} (hparse : Query.parseWithin limit s = .ok q)
    (hsplit : Token.SplitsInto s (pre ++ ⟨.word, x⟩ :: post))
    (hword : ¬ Query.Reserves (pre ++ ⟨.word, x⟩ :: post) (⟨.word, x⟩ :: post)) :
    ∃ context : Query, Query.Derives (pre ++ hole :: post) context ∧
      (Query.spell context).count hole = 1 ∧ context.fill ⟨.word, x⟩ = q ∧
      ∀ w, w ≠ "" →
        let s' := Token.join pre ++ Text.backslashed w ++ Token.join post
        Token.SplitsInto s' (pre ++ ⟨.word, Text.backslashed w⟩ :: post) ∧
          Query.parseWithin limit s' = .ok (context.fill ⟨.word, Text.backslashed w⟩) := by
  obtain ⟨rfl, hseg⟩ := Token.splitsInto_iff.mp hsplit
  obtain ⟨hderives, hdepth⟩ := (Query.parseWithin_eq_ok_iff_of_splitsInto hsplit).mp hparse
  obtain ⟨hsegpre, hsegright, -⟩ := Token.segmented_append.mp hseg
  have hpre := hsegpre.hole_notMem
  have hpost := (Token.segmented_cons.mp hsegright).2.1.hole_notMem
  have hfill := Token.map_fill_append_hole hpre hpost
  rw [← hfill] at hderives
  obtain ⟨context, rfl, hcontext⟩ :=
    hderives.exists_fill rfl (Token.free_of_not_reserves hpre hpost hword)
  simp only [hfill] at hcontext
  have hopen : Query.Derives (pre ++ hole :: post) context := by
    simpa [Query.fill_hole] using hcontext hole Token.neutral_hole
  refine ⟨context, hopen, ?_, rfl, ?_⟩
  · rw [← hopen.count_eq Token.neutral_hole, List.count_append, List.count_cons_self,
      List.count_eq_zero_of_not_mem hpre, List.count_eq_zero_of_not_mem hpost]
  · intro w hw s'
    have hsplit' : Token.SplitsInto s' (pre ++ ⟨.word, Text.backslashed w⟩ :: post) := by
      refine Token.splitsInto_iff.mpr ⟨?_, hseg.replace rfl (Token.lexical_backslashed hw)⟩
      simp [← String.toList_inj, s', Token.chars]
    refine ⟨hsplit', (Query.parseWithin_eq_ok_iff_of_splitsInto hsplit').mpr ⟨?_, ?_⟩⟩
    · exact hcontext _ (Token.neutral_backslashed hw)
    · rwa [Query.depth_fill] at hdepth ⊢

/-- A literal NOT at the end of a group, before a NOT that is a keyword, is replaced by a text with
a keyword, a parenthesis and a quote. -/
theorem Query.parseWithin_backslashed_not :
    let s := "x:(a OR NOT) NOT y:1"
    let pre : List Token := [⟨.word, "x"⟩, ⟨.colon, ":"⟩, ⟨.leftParen, "("⟩, ⟨.word, "a"⟩,
      ⟨.blank, " "⟩, ⟨.word, "OR"⟩, ⟨.blank, " "⟩]
    let post : List Token := [⟨.rightParen, ")"⟩, ⟨.blank, " "⟩, ⟨.word, "NOT"⟩, ⟨.blank, " "⟩,
      ⟨.word, "y"⟩, ⟨.colon, ":"⟩, ⟨.number, "1"⟩]
    let element (text : String) : Branch (Clause Element) :=
      ⟨⟨false, .leaf (.literal (.bare [⟨.word, text⟩]))⟩, []⟩
    let group : FieldClause := ⟨⟨[⟨.word, "x"⟩]⟩, .group ⟨element "a", [element "NOT"]⟩ none⟩
    let negated : FieldClause := ⟨⟨[⟨.word, "y"⟩]⟩, .literal (.bare [⟨.number, "1"⟩]) none⟩
    let q : Query := ⟨⟨⟨false, .leaf group⟩, [⟨false, ⟨true, .leaf negated⟩⟩]⟩, []⟩
    let w := "AND ) \""
    Query.parseWithin 1 s = .ok q ∧ Token.SplitsInto s (pre ++ ⟨.word, "NOT"⟩ :: post) ∧
    ¬ Query.Reserves (pre ++ ⟨.word, "NOT"⟩ :: post) (⟨.word, "NOT"⟩ :: post) ∧
    ∃ context : Query, Query.Derives (pre ++ hole :: post) context ∧
      (Query.spell context).count hole = 1 ∧ context.fill ⟨.word, "NOT"⟩ = q ∧ w ≠ "" ∧
      let s' := Token.join pre ++ Text.backslashed w ++ Token.join post
      Token.SplitsInto s' (pre ++ ⟨.word, Text.backslashed w⟩ :: post) ∧
        Query.parseWithin 1 s' = .ok (context.fill ⟨.word, Text.backslashed w⟩) := by
  intro s pre post element group negated q w
  have hparse : Query.parseWithin 1 s = .ok q := by decide +kernel
  have hsplit : Token.SplitsInto s (pre ++ ⟨.word, "NOT"⟩ :: post) := by decide +kernel
  have hword : ¬ Query.Reserves (pre ++ ⟨.word, "NOT"⟩ :: post) (⟨.word, "NOT"⟩ :: post) := by
    intro h
    rcases h.reserved with ⟨k, after, hstands⟩ | ⟨t, ht, -, hto⟩
    · have hstrip := Keyword.strip?_eq_some_iff.mpr hstands
      cases k <;> cases hstrip
    · cases ht
      revert hto
      decide
  obtain ⟨context, hopen, hcount, hcontext, hfill⟩ :=
    Query.parseWithin_backslashed hparse hsplit hword
  exact ⟨hparse, hsplit, hword, context, hopen, hcount, hcontext, by decide, hfill w (by decide)⟩

end SearchQuery
