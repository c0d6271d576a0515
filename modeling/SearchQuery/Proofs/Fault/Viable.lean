import SearchQuery.Proofs.Fault
import SearchQuery.Proofs.Grammar.Replay
import SearchQuery.Proofs.Token.Segmentation

/-!
What a phrase that breaks off could have been. Everything up to the tokens left over can be
completed: by a closing delimiter, by the missing side of a range, or by a word where nothing has
been read yet. A backslash that ends the text is completed by a character to escape.
-/

namespace SearchQuery

open Token (Kind Segmented Apart Lexical chars)

variable {α C : Type} {ts us vs mid rest : List Token} {fault : Fault}
  {r r' : List Token → List Token → Prop}

/-! ### Borders -/

/-- The last token, if there is one, is of none of the kinds. -/
def Token.LastNot (kinds : List Kind) (ts : List Token) : Prop :=
  ∀ t ∈ ts.getLast?, t.kind ∉ kinds

open Token (LastNot)

theorem Token.LastNot.append {kinds : List Kind} (hts : LastNot kinds ts)
    (hus : LastNot kinds us) : LastNot kinds (ts ++ us) := by
  intro t ht
  by_cases hne : us = []
  · subst hne
    exact hts t (by simpa using ht)
  · rw [List.getLast?_append_of_ne_nil _ hne] at ht
    exact hus t ht

theorem Token.lastNot_of_forall_isSpace {kinds : List Kind} (hts : ∀ t ∈ ts, t.isSpace = true)
    (hkinds : ∀ k ∈ kinds, k.isSpace = false) : LastNot kinds ts := by
  intro t ht hmem
  have hspace := hts t (List.mem_of_getLast? ht)
  simp [Token.isSpace, hkinds _ hmem] at hspace

theorem Token.lastNot_of_suffix {kinds : List Kind} {t : Token} (h : [t] <:+ ts)
    (ht : t.kind ∉ kinds) : LastNot kinds ts := by
  obtain ⟨us, rfl⟩ := h
  simpa [LastNot] using ht

theorem Token.lastNot_singleton {kinds : List Kind} {t : Token} {k : Kind} (ht : t.kind = k)
    (hk : k ∉ kinds) : LastNot kinds [t] := by
  simpa [LastNot, ht] using hk

/-- Behind space that is there, anything may come. -/
theorem Token.lastNot_append_spaces {kinds : List Kind} (hne : us ≠ [])
    (hus : ∀ t ∈ us, t.isSpace = true) (hkinds : ∀ k ∈ kinds, k.isSpace = false) :
    LastNot kinds (ts ++ us) := by
  intro t ht
  rw [List.getLast?_append_of_ne_nil _ hne] at ht
  exact Token.lastNot_of_forall_isSpace hus hkinds t ht

theorem Firm.lastNot (h : Firm ts) : LastNot [.backslash] ts := by
  obtain ⟨t, ht, -, hback⟩ := h
  intro u hu
  cases Option.mem_unique ht hu
  simpa using hback

theorem Token.LastNot.apart (h : LastNot [.backslash] ts)
    (hus : ∀ u ∈ us.head?, u.kind.isRun = false) :
    ∀ t ∈ ts.getLast?, ∀ u ∈ us.head?, Apart t u := by
  intro t ht u hu
  refine ⟨by simpa using h t ht, ?_⟩
  intro hrun hkind
  rw [hkind, hus u hu] at hrun
  cases hrun

/-- The character makes a token by itself, and the only one of its kind. -/
structure Token.IsSymbol (t : Token) (c : Char) : Prop where
  symbols : t.kind.symbols = [c]
  text : t.text = String.ofList [c]

section Symbol

variable {t : Token} {c : Char}

theorem Token.IsSymbol.lexical (h : t.IsSymbol c) : t.Lexical := by
  have hmem : c ∈ t.kind.symbols := by simp [h.symbols]
  refine ⟨by simp [h.text], ?_⟩
  rw [Kind.holds_iff_of_mem_symbols hmem]
  exact ⟨c, hmem, by simp [h.text]⟩

theorem Token.IsSymbol.kind_plain (h : t.IsSymbol c) :
    t.kind ≠ .backslash ∧ t.kind.isRun = false := by
  have hsymbols := h.symbols
  cases hkind : t.kind <;> simp [hkind, Kind.symbols] at hsymbols <;> simp [Kind.isRun]

/-- A symbol fuses with nothing behind it, and with nothing in front that is no lone backslash. -/
theorem Token.IsSymbol.segmented_append_iff (h : t.IsSymbol c) (hts : LastNot [.backslash] ts) :
    Segmented (ts ++ t :: us) ↔ Segmented ts ∧ Segmented us := by
  obtain ⟨hback, hrun⟩ := h.kind_plain
  have hfront : ∀ u ∈ ts.getLast?, ∀ v ∈ (t :: us).head?, Apart u v := hts.apart (by simp [hrun])
  rw [Token.segmented_append, Token.segmented_cons]
  constructor
  · rintro ⟨hseg, ⟨-, hrest, -⟩, -⟩
    exact ⟨hseg, hrest⟩
  · rintro ⟨hseg, hrest⟩
    exact ⟨hseg, ⟨h.lexical, hrest, fun u _ => ⟨hback, by simp [hrun]⟩⟩, hfront⟩

end Symbol

/-- A run before something that does not continue bare runs is no bare run. -/
theorem Firm.apart (h : Firm ts) (hus : EndsRun us) :
    ∀ t ∈ ts.getLast?, ∀ u ∈ us.head?, Apart t u := by
  obtain ⟨t, ht, hspace, hback⟩ := h
  intro t' ht' u hu
  cases Option.mem_unique ht ht'
  refine ⟨hback, ?_⟩
  intro hrun hkind
  apply hus u hu
  rw [← hkind]
  revert hspace hrun
  simp only [Token.isSpace]
  cases t.kind <;> decide

theorem endsRun_cons {t : Token} {k : Kind} (ht : t.kind = k)
    (hk : k ∉ Literal.bareKinds) : EndsRun (t :: ts) := by
  intro u hu
  cases hu
  rwa [ht]

theorem EndsRun.of_spaces (hspaces : Spaces ts rest) (h : EndsRun rest) : EndsRun ts := by
  cases hspaces with
  | none => exact h
  | @more t _ _ ht _ =>
      intro u hu
      cases hu
      revert ht
      simp only [Token.isSpace]
      cases t.kind <;> decide

/-! ### Completions -/

/-- Tokens whose text goes on from that of others, and that may stand where those may: they start
alike, or with a word if there was nothing. -/
structure Completes (pre full : List Token) : Prop where
  segmented : Segmented full
  firm : Firm full
  chars : chars pre <+: chars full
  head : full.head? = pre.head? ∨ pre = [] ∧ ∃ text, full.head? = some ⟨.word, text⟩

/-- What was read before the fault can be completed, whatever comes behind it. -/
def Viable (r : List Token → List Token → Prop) : Breach :=
  fun ts fault => ∃ pre full, ts = pre ++ fault.rest ∧ Completes pre full ∧
    ∀ tail, EndsRun tail → r (full ++ tail) tail

theorem Viable.imp (h : Viable r ts fault) (hr : ∀ ts rest, r ts rest → r' ts rest) :
    Viable r' ts fault := by
  obtain ⟨pre, full, hts, hfull, hread⟩ := h
  exact ⟨pre, full, hts, hfull, fun tail htail => hr _ _ (hread tail htail)⟩

/-- Where nothing has been read, anything will do that starts with a word. -/
theorem viable_of_rest_eq {full : List Token} {text : String} (hrest : fault.rest = ts)
    (hseg : Segmented full) (hfirm : Firm full) (hhead : full.head? = some ⟨.word, text⟩)
    (hr : ∀ tail, EndsRun tail → r (full ++ tail) tail) : Viable r ts fault :=
  ⟨[], full, hrest.symm,
    ⟨hseg, hfirm, List.nil_prefix, Or.inr ⟨rfl, text, hhead⟩⟩, hr⟩

/-- Where some tokens have been read, others are put behind them. -/
theorem viable_append {fill : List Token} (hrest : fault.rest = rest)
    (hseg : Segmented (us ++ rest)) (hus : us ≠ []) (hfill : Segmented fill) (hfirm : Firm fill)
    (hborder : ∀ t ∈ us.getLast?, ∀ u ∈ fill.head?, Apart t u)
    (hr : ∀ tail, EndsRun tail → r (us ++ (fill ++ tail)) tail) :
    Viable r (us ++ rest) fault := by
  refine ⟨us, us ++ fill, by rw [hrest], ⟨?_, hfirm.append us, by simp, Or.inl ?_⟩, ?_⟩
  · exact Token.segmented_append.mpr ⟨(Token.segmented_append.mp hseg).1, hfill, hborder⟩
  · exact List.head?_append_of_ne_nil us hus
  · intro tail htail
    rw [List.append_assoc]
    exact hr tail htail

/-- Further tokens behind a completion. -/
theorem Viable.append_right {fill : List Token} (h : Viable r ts fault) (hfill : Segmented fill)
    (hfirm : Firm fill) (hends : EndsRun fill) (hr : ∀ ts tail, r ts (fill ++ tail) → r' ts tail) :
    Viable r' ts fault := by
  obtain ⟨pre, full, hts, hfull, hread⟩ := h
  refine ⟨pre, full ++ fill, hts, ⟨?_, hfirm.append full, ?_, ?_⟩, ?_⟩
  · exact Token.segmented_append.mpr ⟨hfull.segmented, hfill, hfull.firm.apart hends⟩
  · rw [Token.chars_append]
    exact hfull.chars.trans (List.prefix_append _ _)
  · rw [List.head?_append_of_ne_nil _ hfull.firm.ne_nil]
    exact hfull.head
  · intro tail _
    rw [List.append_assoc]
    apply hr
    apply hread
    rwa [EndsRun, List.head?_append_of_ne_nil _ hfirm.ne_nil]

theorem Completes.append_left {pre full : List Token} (h : Completes pre full)
    (hseg : Segmented (us ++ (pre ++ rest))) (hus : pre = [] → LastNot [.word, .backslash] us) :
    Completes (us ++ pre) (us ++ full) where
  segmented := by
    obtain ⟨hsegus, -, hborder⟩ := Token.segmented_append.mp hseg
    refine Token.segmented_append.mpr ⟨hsegus, h.segmented, ?_⟩
    intro t ht u hu
    rcases h.head with hhead | ⟨hpre, text, hhead⟩
    · apply hborder t ht
      rw [hhead] at hu
      simp [Option.mem_def.mp hu]
    · rw [hhead] at hu
      cases hu
      have hkind := hus hpre t ht
      simp only [List.mem_cons, List.not_mem_nil, or_false, not_or] at hkind
      exact ⟨hkind.2, fun _ => hkind.1⟩
  firm := h.firm.append us
  chars := by
    rw [Token.chars_append, Token.chars_append]
    exact (List.prefix_append_right_inj _).mpr h.chars
  head := by
    by_cases hne : us = []
    · subst hne
      exact h.head
    · rw [List.head?_append_of_ne_nil _ hne, List.head?_append_of_ne_nil _ hne]
      exact Or.inl rfl

/-- Tokens in front of a completion, after which a word may come. -/
theorem viable_append_left (hseg : Segmented (us ++ ts)) (h : Segmented ts → Viable r ts fault)
    (hus : LastNot [.word, .backslash] us) (hr : ∀ ts rest, r ts rest → r' (us ++ ts) rest) :
    Viable r' (us ++ ts) fault := by
  obtain ⟨pre, full, rfl, hfull, hread⟩ := h (Token.segmented_append.mp hseg).2.1
  refine ⟨us ++ pre, us ++ full, by simp, hfull.append_left hseg fun _ => hus, ?_⟩
  intro tail htail
  rw [List.append_assoc]
  exact hr _ _ (hread tail htail)

/-! ### Delimiters that are not closed -/

theorem Token.IsWordText.append {cs ds : List Char} (hcs : IsWordText cs) (hds : IsWordText ds) :
    IsWordText (cs ++ ds) := by
  induction hcs with
  | nil => exact hds
  | plain hc _ ih => exact .plain hc ih
  | escaped c _ ih => exact .escaped c ih

/-- A backslash at the end of a text gets a character to escape, and is part of the word before it
if there is one. -/
theorem Token.Segmented.exists_word {b : Token} (c : Char) (h : Segmented (ts ++ [b]))
    (hb : b.kind = .backslash) :
    ∃ us w, Segmented (us ++ [w]) ∧ w.kind = .word ∧ us ⊆ ts ∧
      chars (us ++ [w]) = chars (ts ++ [b]) ++ [c] := by
  obtain ⟨hseg, hsegb, hborder⟩ := segmented_append.mp h
  have hchars : b.text.toList = ['\\'] := by
    have hholds := (hsegb.lexical b List.mem_cons_self).2
    rwa [hb] at hholds
  have hescaped : IsWordText ['\\', c] := .escaped c .nil
  by_cases hlast : ∃ t ∈ ts.getLast?, t.kind = .word
  · obtain ⟨t, ht, hkind⟩ := hlast
    obtain ⟨us, rfl⟩ := List.getLast?_eq_some_iff.mp ht
    obtain ⟨hsegus, hsegt, hborder'⟩ := segmented_append.mp hseg
    have hword : Lexical ⟨.word, t.text ++ String.ofList ['\\', c]⟩ := by
      refine ⟨fun hempty => by simpa using congrArg String.toList hempty, ?_⟩
      have hholds := (hsegt.lexical t List.mem_cons_self).2
      rw [hkind] at hholds
      simpa [Kind.Holds] using IsWordText.append hholds hescaped
    refine ⟨us, ⟨.word, t.text ++ String.ofList ['\\', c]⟩, ?_, rfl,
      List.subset_append_left us [t], by simp [hchars]⟩
    refine segmented_append.mpr ⟨hsegus, segmented_cons.mpr ⟨hword, segmented_nil, by simp⟩, ?_⟩
    intro u hu v hv
    cases hv
    obtain ⟨hback, hrun⟩ := hborder' u hu t rfl
    exact ⟨hback, by simpa [hkind] using hrun⟩
  · have hword : Lexical ⟨.word, String.ofList ['\\', c]⟩ :=
      ⟨fun hempty => by simpa using congrArg String.toList hempty,
        by simpa [Kind.Holds] using hescaped⟩
    refine ⟨ts, ⟨.word, String.ofList ['\\', c]⟩, ?_, rfl, List.Subset.refl ts, by simp [hchars]⟩
    refine segmented_append.mpr ⟨hseg, segmented_cons.mpr ⟨hword, segmented_nil, by simp⟩, ?_⟩
    intro u hu v hv
    cases hv
    exact ⟨(hborder u hu b rfl).1, fun _ hkind => hlast ⟨u, hu, hkind⟩⟩

/-- Every text can go on with something other than an escaped character. -/
theorem Token.Segmented.exists_lastNot (h : Segmented ts) :
    ∃ us, Segmented us ∧ LastNot [.backslash] us ∧ chars ts <+: chars us ∧
      ∀ t ∈ us, t.kind = .word ∨ t ∈ ts := by
  by_cases hlast : ∃ t ∈ ts.getLast?, t.kind = .backslash
  · obtain ⟨b, hb, hkind⟩ := hlast
    obtain ⟨us, rfl⟩ := List.getLast?_eq_some_iff.mp hb
    obtain ⟨vs, w, hseg, hw, hsub, hchars⟩ := h.exists_word 'a' hkind
    refine ⟨vs ++ [w], hseg, ?_, ⟨['a'], hchars.symm⟩, ?_⟩
    · intro t ht
      rw [List.getLast?_concat] at ht
      cases ht
      simp [hw]
    · intro t ht
      rcases List.mem_append.mp ht with ht | ht
      · exact Or.inr (List.mem_append_left _ (hsub ht))
      · rw [List.mem_singleton.mp ht]
        exact Or.inl hw
  · refine ⟨ts, h, ?_, List.prefix_refl _, fun t ht => Or.inr ht⟩
    intro t ht hkind
    exact hlast ⟨t, ht, List.mem_singleton.mp hkind⟩

/-- The phrases of a production, whatever their trees. -/
def Production.Spans (p : Production α) (ts rest : List Token) : Prop :=
  ∃ a, p ts a rest

theorem Delimited.Breaks.viable {delimiter : Kind} (h : Delimited.Breaks delimiter ts fault)
    (hseg : Segmented ts) (hrun : delimiter.isRun = false)
    (hkind : delimiter.isSpace = false ∧ delimiter ≠ .backslash) :
    Viable (Delimited delimiter).Spans ts fault := by
  cases h with
  | @mk opening inner hopening hinner =>
      obtain ⟨hlexical, hseginner, -⟩ := Token.segmented_cons.mp hseg
      obtain ⟨us, hsegus, hlast, hchars, hmem⟩ := hseginner.exists_lastNot
      have hsegopen : Segmented [opening] :=
        Token.segmented_cons.mpr ⟨hlexical, Token.segmented_nil, by simp⟩
      have hfirm : Firm [opening] := firm_singleton hopening hkind
      refine ⟨opening :: inner, opening :: (us ++ [opening]), by simp [Fault.rest],
        ⟨?_, (hfirm.append us).cons opening, ?_, Or.inl rfl⟩, ?_⟩
      · refine Token.segmented_cons.mpr ⟨hlexical, Token.segmented_append.mpr
          ⟨hsegus, hsegopen, hlast.apart (by simpa [hopening] using hrun)⟩, ?_⟩
        intro u _
        refine ⟨by rw [hopening]; exact hkind.2, ?_⟩
        intro hisRun
        rw [hopening, hrun] at hisRun
        cases hisRun
      · rw [Token.chars_cons, Token.chars_cons, Token.chars_append]
        exact (List.prefix_append_right_inj _).mpr (hchars.trans (List.prefix_append _ _))
      · intro tail _
        refine ⟨us, ?_⟩
        have hus : ∀ t ∈ us, t.kind ≠ delimiter := by
          intro t ht heq
          rcases hmem t ht with hword | hold
          · rw [← heq, hword] at hrun
            cases hrun
          · exact hinner t hold heq
        simpa using Delimited.mk hopening hus hopening

/-! ### Ranges -/

/-- The word that is put where a literal is missing. -/
def Token.filler : Token := ⟨.word, "a"⟩

open Token (filler)

theorem Token.firm_filler : Firm [filler] :=
  firm_singleton rfl (by decide)

theorem Literal.derives_filler (h : EndsRun rest) :
    Literal.Derives (filler :: rest) (.bare [filler]) rest := by
  have hrun : Fragments Literal.bareKinds ([filler] ++ rest) [filler] rest :=
    .mk (by simp) (by decide) h
  exact .bare hrun

theorem Side.derives_filler (h : EndsRun rest) :
    Side.Derives (filler :: rest) (.literal (.bare [filler])) rest :=
  .literal (Literal.derives_filler h) (by decide)

theorem viable_filler (hrest : fault.rest = ts)
    (hr : ∀ tail, EndsRun tail → r (filler :: tail) tail) : Viable r ts fault :=
  viable_of_rest_eq hrest (by decide) Token.firm_filler rfl hr

theorem Side.Breaks.viable (h : Side.Breaks ts fault) (hseg : Segmented ts) :
    Viable Side.Derives.Spans ts fault := by
  cases h with
  | start => exact viable_filler rfl fun tail htail => ⟨_, Side.derives_filler htail⟩
  | phrase hphrase =>
      apply (hphrase.viable hseg rfl (by decide)).imp
      intro ts rest hinner
      obtain ⟨inner, hinner⟩ := hinner
      exact ⟨_, .literal (.phrase hinner) (by simp)⟩

namespace Interval

/-- What closes an interval. -/
def bracket : List Token := [⟨.rightBracket, "]"⟩]

/-- An interval from the word TO on. -/
def remainder : List Token := [⟨.word, "TO"⟩, ⟨.blank, " "⟩, filler, ⟨.rightBracket, "]"⟩]

/-- An interval from behind its left side on. -/
def remainderSpaced : List Token := ⟨.blank, " "⟩ :: remainder

theorem firm_bracket : Firm bracket :=
  firm_singleton rfl (by decide)

theorem firm_remainderSpaced : Firm remainderSpaced :=
  firm_bracket.append [_, _, _, _]

theorem endsRun_bracket (tail : List Token) : EndsRun (bracket ++ tail) :=
  endsRun_cons rfl (by decide)

theorem endsRun_remainderSpaced (tail : List Token) : EndsRun (remainderSpaced ++ tail) :=
  endsRun_cons rfl (by decide)

theorem right_filler (tail : List Token) : Right (filler :: (bracket ++ tail)) tail :=
  .mk (Side.derives_filler (endsRun_bracket tail)) .none (by decide)

theorem to_remainder (tail : List Token) : To (remainder ++ tail) tail :=
  .mk rfl rfl (.mk rfl .none) (right_filler tail)

theorem RightBreaks.viable (h : RightBreaks ts fault) (hseg : Segmented ts) :
    Viable Right ts fault := by
  cases h with
  | side hside =>
      refine (hside.viable hseg).append_right (by decide) firm_bracket (endsRun_bracket []) ?_
      intro ts tail hright
      obtain ⟨right, hright⟩ := hright
      exact .mk hright .none (by decide)
  | closing hright hspaces _ =>
      obtain ⟨phrase, rfl, hfirm, hreplay⟩ := hright.replay
      obtain ⟨gap, rfl, hgap⟩ := spaces_iff.mp hspaces
      rw [← List.append_assoc] at hseg ⊢
      have hlast : LastNot [.backslash] (phrase ++ gap) :=
        hfirm.lastNot.append (Token.lastNot_of_forall_isSpace hgap (by decide))
      refine viable_append rfl hseg (by simp [hfirm.ne_nil]) (by decide) firm_bracket
        (hlast.apart (by decide)) ?_
      intro tail _
      have hspaces' : Spaces (gap ++ (bracket ++ tail)) (bracket ++ tail) :=
        spaces_append hgap _
      have hends : EndsRun (gap ++ (bracket ++ tail)) := .of_spaces hspaces' (endsRun_bracket tail)
      rw [List.append_assoc]
      exact .mk (hreplay _ (Or.inr hends)) hspaces' (by decide)

theorem ToBreaks.viable (h : ToBreaks ts fault) (hseg : Segmented ts) : Viable To ts fault := by
  cases h with
  | word =>
      exact viable_of_rest_eq rfl (by decide) (firm_bracket.append [_, _, _]) rfl
        fun tail _ => to_remainder tail
  | @space between us hto htext _ =>
      change Viable To ([between] ++ us) _
      have hbetween : Firm [between] := firm_singleton hto (by decide)
      have hfill : Firm (⟨.blank, " "⟩ :: filler :: bracket) := firm_bracket.append [_, _]
      refine viable_append rfl hseg (by simp) (by decide) hfill
        (hbetween.apart (endsRun_cons rfl (by decide))) ?_
      intro tail _
      exact .mk hto htext (.mk rfl .none) (right_filler tail)
  | @right between us start _ hto htext hspaces hright =>
      obtain ⟨gap, hne, rfl, hgap⟩ := someSpaces_iff.mp hspaces
      have hlast : LastNot [.word, .backslash] ([between] ++ gap) :=
        Token.lastNot_append_spaces hne hgap (by decide)
      change Viable To (([between] ++ gap) ++ start) _
      apply viable_append_left hseg hright.viable hlast
      intro ts rest hright'
      exact .mk hto htext (someSpaces_iff.mpr ⟨gap, hne, rfl, hgap⟩) hright'

theorem LeftBreaks.viable (h : LeftBreaks ts fault) (hseg : Segmented ts) :
    Viable Left ts fault := by
  cases h with
  | side hside =>
      refine (hside.viable hseg).append_right (by decide) firm_remainderSpaced
        (endsRun_remainderSpaced []) ?_
      intro ts tail hleft
      obtain ⟨left, hleft⟩ := hleft
      exact .mk hleft (.mk rfl .none) (to_remainder tail)
  | space hleft _ =>
      obtain ⟨phrase, rfl, hphrase, hreplay⟩ := hleft.replay
      refine viable_append rfl hseg hphrase.ne_nil (by decide) firm_remainderSpaced
        (hphrase.apart (endsRun_remainderSpaced [])) ?_
      intro tail _
      exact .mk (hreplay _ (Or.inr (endsRun_remainderSpaced tail))) (.mk rfl .none)
        (to_remainder tail)
  | @next _ _ start _ _ hleft hspaces hto =>
      obtain ⟨phrase, rfl, hphrase, hreplay⟩ := hleft.replay
      obtain ⟨gap, hne, rfl, hgap⟩ := someSpaces_iff.mp hspaces
      have hlast : LastNot [.word, .backslash] (phrase ++ gap) :=
        Token.lastNot_append_spaces hne hgap (by decide)
      rw [← List.append_assoc] at hseg ⊢
      apply viable_append_left hseg hto.viable hlast
      intro ts rest hto'
      rw [List.append_assoc]
      exact .mk (hreplay _ (kept_append hne start ts))
        (someSpaces_iff.mpr ⟨gap, hne, rfl, hgap⟩) hto'

theorem Breaks.viable (h : Interval.Breaks ts fault) (hseg : Segmented ts) :
    Viable Interval.Derives.Spans ts fault := by
  cases h with
  | @mk opening _ start _ hopening hspaces hleft =>
      obtain ⟨gap, rfl, hgap⟩ := spaces_iff.mp hspaces
      have hbracket : LastNot [.word, .backslash] [opening] := by
        simp only [List.mem_cons, List.not_mem_nil, or_false] at hopening
        rcases hopening with hkind | hkind <;> exact Token.lastNot_singleton hkind (by decide)
      have hlast : LastNot [.word, .backslash] ([opening] ++ gap) :=
        hbracket.append (Token.lastNot_of_forall_isSpace hgap (by decide))
      change Viable Interval.Derives.Spans (([opening] ++ gap) ++ start) _
      apply viable_append_left hseg hleft.viable hlast
      intro ts rest hleft'
      exact exists_derives_iff.mpr
        ⟨opening, gap ++ ts, ts, rfl, hopening, spaces_append hgap _, hleft'⟩

end Interval

/-! ### Elements -/

/-- A phrase with a bound on its depth. -/
def Production.Within (p : Production α) (depth : α → Nat) (room : Nat) : Production α :=
  fun ts a rest => p ts a rest ∧ depth a ≤ room

/-- A phrase in front of which no NOT stands. -/
def Production.Plain (p : Production α) (ts rest : List Token) : Prop :=
  ∃ a, Operand.Derives p ts ⟨false, a⟩ rest

theorem Production.plain_of_startsWith {p : Production α} {kinds : List Kind} {a : α}
    (h : p ts a rest) (hstart : Token.startsWith kinds ts = true)
    (hkinds : ∀ k ∈ kinds, k ∉ [Kind.word, .ampersand, .bar, .bang]) :
    p.Plain ts rest :=
  ⟨a, .plain (fun _ hnot => Token.startsWith_disjoint hstart hnot.startsWith hkinds) h⟩

theorem Token.not_stands_filler : ¬ Keyword.not.Stands (filler :: ts) rest := by
  intro h
  cases h with
  | word _ htext => revert htext; decide
  | bang hkind => revert hkind; decide

theorem Element.viable_of_rest_eq {room : Nat} (hrest : fault.rest = ts) :
    Viable (Element.Derives.Within (fun _ => 0) room).Plain ts fault :=
  viable_filler hrest fun _ htail => ⟨_, .plain (fun _ => Token.not_stands_filler)
    ⟨.literal (Literal.derives_filler htail), Nat.zero_le room⟩⟩

theorem Element.Breaks.viable {room : Nat} (h : Element.Breaks ts fault) (hseg : Segmented ts) :
    Viable (Element.Derives.Within (fun _ => 0) room).Plain ts fault := by
  have hplain : ∀ {ts rest} {e : Element}, Element.Derives ts e rest →
      Token.startsWith [.quote, .comparison, .leftBracket, .leftBrace] ts = true →
        (Element.Derives.Within (fun _ => 0) room).Plain ts rest := by
    intro ts rest e he hstart
    exact Production.plain_of_startsWith ⟨he, Nat.zero_le room⟩ hstart (by decide)
  cases h with
  | phrase hphrase =>
      apply (hphrase.viable hseg rfl (by decide)).imp
      intro ts rest hinner
      obtain ⟨inner, hinner⟩ := hinner
      exact hplain (.literal (.phrase hinner)) (Token.startsWith_mono (by simp) hinner.startsWith)
  | range hrange =>
      cases hrange with
      | @comparison t us op _ ht htext hside =>
          have hlast : LastNot [.word, .backslash] [t] := Token.lastNot_singleton ht (by decide)
          change Viable _ ([t] ++ us) _
          apply viable_append_left hseg hside.viable hlast
          intro ts rest hvalue
          obtain ⟨value, hvalue⟩ := hvalue
          exact hplain (.range (.comparison ht htext hvalue))
            (Token.startsWith_cons.mpr (by simp [ht]))
      | unknown => exact Element.viable_of_rest_eq rfl
      | interval hi =>
          apply (hi.viable hseg).imp
          intro ts rest hi'
          obtain ⟨i, hi'⟩ := hi'
          exact hplain (.range (.interval hi')) (Token.startsWith_mono (by simp) hi'.startsWith)

end SearchQuery
