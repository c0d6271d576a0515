import SearchQuery.Proofs.Quotation
import SearchQuery.Proofs.Term.Source
import SearchQuery.Proofs.Token.Wildcard

/-!
The flags of a term in terms of its source. Every term is of one class. Its suffix shows in the
character behind it, and its wildcards in the text that a decoder gets to see: a star or a question
mark counts there unless a backslash takes it up, between quotes as well as without.
-/

namespace SearchQuery

open Text (IsGap HasWildcard IsLeading)
open Token (Segmented)

/-! ### Sets of flags -/

namespace TermFlags

/-- The flags of which a term has exactly one. -/
def classes : List TermFlags :=
  [single, phrase, regexp, range, group]

/-- A class, and which of the other flags come on top. -/
def assemble (c : TermFlags) (wild leads fuzzed boosted : Bool) : TermFlags :=
  c ||| wildcard.when wild ||| leading.when leads ||| fuzzy.when fuzzed ||| boost.when boosted

/-- No two of the flags share a bit. -/
theorem contains_assemble : ∀ c ∈ classes, ∀ wild leads fuzzed boosted : Bool,
    (∀ d ∈ classes, (assemble c wild leads fuzzed boosted).contains d = true ↔ c = d) ∧
      (assemble c wild leads fuzzed boosted).contains wildcard = wild ∧
      (assemble c wild leads fuzzed boosted).contains leading = leads ∧
      (assemble c wild leads fuzzed boosted).contains fuzzy = fuzzed ∧
      (assemble c wild leads fuzzed boosted).contains boost = boosted := by
  decide

theorem single_eq_assemble : ∀ wild leads : Bool,
    single ||| wildcard.when wild ||| leading.when leads =
      single.assemble wild leads false false := by
  decide

theorem phrase_eq_assemble : ∀ wild : Bool,
    phrase ||| wildcard.when wild = phrase.assemble wild false false false := by
  decide

theorem regexp_eq_assemble : regexp = regexp.assemble false false false false := by
  decide

theorem when_eq_assemble : ∀ c ∈ classes, ∀ boosted : Bool,
    c ||| boost.when boosted = c.assemble false false false boosted := by
  decide

theorem assemble_fuzzy : ∀ c ∈ classes, ∀ wild leads : Bool,
    c.assemble wild leads false false ||| fuzzy = c.assemble wild leads true false := by
  decide

theorem assemble_boost : ∀ c ∈ classes, ∀ wild leads : Bool,
    c.assemble wild leads false false ||| boost = c.assemble wild leads false true := by
  decide

end TermFlags

namespace Term

/-- The class of a term. -/
def category : Term → TermFlags
  | regexp _ => .regexp
  | literal (.bare _) _ => .single
  | literal (.phrase _) _ => .phrase
  | range _ _ => .range
  | group _ _ => .group

/-- A literal with a wildcard in it. -/
def isWild : Term → Bool
  | literal l _ => Token.hasWildcard l.tokens
  | _ => false

/-- A bare literal up to one final star. -/
def leads : Term → Bool
  | literal (.bare ts) _ => Token.isLeading ts
  | _ => false

/-- A literal with a tilde. -/
def isFuzzy : Term → Bool
  | literal _ (some (.fuzzy _)) => true
  | _ => false

theorem category_mem_classes (t : Term) : t.category ∈ TermFlags.classes := by
  fun_cases category t <;> decide

theorem flags_literal (l : Literal) (suffix : Option Suffix) :
    l.flags = (literal l suffix).category.assemble (literal l suffix).isWild
      (literal l suffix).leads false false := by
  cases l with
  | bare ts => exact TermFlags.single_eq_assemble _ _
  | phrase ts => exact TermFlags.phrase_eq_assemble _

theorem flags_eq_assemble (t : Term) :
    t.flags = t.category.assemble t.isWild t.leads t.isFuzzy t.boost?.isSome := by
  have hclass := t.category_mem_classes
  match t with
  | regexp ts => exact TermFlags.regexp_eq_assemble
  | range r boost => exact TermFlags.when_eq_assemble _ hclass _
  | group g boost => exact TermFlags.when_eq_assemble _ hclass _
  | literal l none => exact flags_literal l none
  | literal l (some (.fuzzy f)) =>
      rw [flags, flags_literal l (some (.fuzzy f))]
      exact TermFlags.assemble_fuzzy _ hclass _ _
  | literal l (some (.boost b)) =>
      rw [flags, flags_literal l (some (.boost b))]
      exact TermFlags.assemble_boost _ hclass _ _

/-- What each flag of a term stands for. -/
theorem contains_flags (t : Term) :
    (∀ c ∈ TermFlags.classes, t.flags.contains c = true ↔ t.category = c) ∧
      t.flags.contains .wildcard = t.isWild ∧ t.flags.contains .leading = t.leads ∧
      t.flags.contains .fuzzy = t.isFuzzy ∧ t.flags.contains .boost = t.boost?.isSome := by
  rw [flags_eq_assemble]
  exact TermFlags.contains_assemble _ t.category_mem_classes _ _ _ _

/-! ### Suffixes -/

theorem isFuzzy_iff_suffixText (t : Term) :
    t.isFuzzy = true ↔ ∃ distance, t.suffixText = "~" ++ distance := by
  match t with
  | literal l (some (.fuzzy f)) => exact ⟨fun _ => ⟨_, rfl⟩, fun _ => rfl⟩
  | regexp _ | literal _ none | range _ none | group _ none =>
      simp [isFuzzy, suffixText, Boost.renderOption, ← String.toList_inj]
  | literal _ (some (.boost b)) | range _ (some b) | group _ (some b) =>
      simp [isFuzzy, suffixText, Suffix.render, Boost.renderOption, Boost.render,
        ← String.toList_inj]

theorem boost?_isSome_iff_suffixText (t : Term) :
    t.boost?.isSome = true ↔ ∃ magnitude, t.suffixText = "^" ++ magnitude := by
  match t with
  | literal _ (some (.boost b)) | range _ (some b) | group _ (some b) =>
      exact ⟨fun _ => ⟨_, rfl⟩, fun _ => rfl⟩
  | regexp _ | literal _ none | range _ none | group _ none =>
      simp [boost?, suffixText, Boost.renderOption, ← String.toList_inj]
  | literal _ (some (.fuzzy f)) =>
      simp [boost?, suffixText, Suffix.render, Fuzzy.render, ← String.toList_inj]

theorem not_isFuzzy_of_boost? {t : Term} (h : t.boost?.isSome = true) : t.isFuzzy = false := by
  fun_cases isFuzzy t
  · cases h
  · rfl

end Term

/-! ### Literals -/

theorem Literal.WellFormed.segmented {l : Literal} (h : l.WellFormed) : Segmented l.tokens := by
  cases l with
  | bare ts => exact (Token.splitsInto_iff.mp h.splits).2
  | phrase ts =>
      have hquoted := (Token.splitsInto_iff.mp h.splits).2
      exact hquoted.of_infix ⟨[_], [_], rfl⟩

theorem Term.decodesFrom_literal (l : Literal) (suffix : Option Suffix) :
    (Term.literal l suffix).DecodesFrom l.text :=
  fun _ _ _ _ _ => rfl

theorem Term.exists_literal {t : Term} (h : t.category ∈ [TermFlags.single, .phrase]) :
    ∃ l suffix, t = .literal l suffix := by
  match t with
  | literal l suffix => exact ⟨l, suffix, rfl⟩
  | regexp _ | range _ _ | group _ _ => exact absurd h (by simp only [category]; decide)

/-- Only literals count their wildcards. -/
theorem Term.isWild_and_leads {t : Term} (h : t.category ∉ [TermFlags.single, .phrase]) :
    t.isWild = false ∧ t.leads = false := by
  match t with
  | regexp _ | range _ _ | group _ _ => exact ⟨rfl, rfl⟩
  | literal (.bare _) _ => exact absurd List.mem_cons_self h
  | literal (.phrase _) _ => exact absurd (List.mem_cons_of_mem _ List.mem_cons_self) h

/-- A literal or a regular expression hands one text to a decoder. -/
theorem Term.Written.exists_body {t : Term} {w : String} {texts : List String}
    (h : t.Written w texts) :
    ∃ body, t.category ∈ [TermFlags.single, .phrase, .regexp] →
      texts = [body] ∧ t.DecodesFrom body := by
  cases h with
  | regexp => exact ⟨_, fun _ => ⟨rfl, Term.decodesFrom_regexp _⟩⟩
  | bare | phrase => exact ⟨_, fun _ => ⟨rfl, Term.decodesFrom_literal _ _⟩⟩
  | range | group =>
      refine ⟨"", fun hclass => absurd hclass ?_⟩
      simp only [category]
      decide

/-- The wildcards of a literal are those of the text that it hands to a decoder. -/
theorem Term.Written.wildcards {t : Term} {w body : String} {texts : List String}
    (h : t.Written w texts) (hwell : t.WellFormed)
    (hbody : t.category ∈ [TermFlags.single, .phrase, .regexp] → texts = [body]) :
    (t.isWild = true ↔ t.category ∈ [TermFlags.single, .phrase] ∧ HasWildcard body.toList) ∧
      (t.leads = true ↔ t.category = .single ∧ IsLeading body.toList) := by
  by_cases hclass : t.category ∈ [TermFlags.single, .phrase]
  · obtain rfl := hbody (List.mem_append_left [TermFlags.regexp] hclass)
    rw [and_iff_right hclass]
    obtain ⟨l, suffix, rfl⟩ := Term.exists_literal hclass
    cases h with
    | @bare ts =>
        have hseg : Segmented ts := hwell.1.segmented
        rw [Token.toList_join, hseg.hasWildcard_iff, hseg.isLeading_iff]
        exact ⟨Iff.rfl, fun hleads => ⟨rfl, hleads⟩, And.right⟩
    | @phrase ts =>
        have hseg : Segmented ts := hwell.1.segmented
        have hne : TermFlags.phrase ≠ .single := by decide
        rw [Token.toList_join, hseg.hasWildcard_iff]
        exact ⟨Iff.rfl, nofun, fun hsingle => absurd hsingle.1 hne⟩
  · obtain ⟨hwild, hleads⟩ := Term.isWild_and_leads hclass
    have hsingle : t.category ≠ .single := fun hsingle => hclass (hsingle ▸ List.mem_cons_self)
    simp [hwild, hleads, hclass, hsingle]

/-! ### Whole texts -/

/-- The flags of a term are those of its source. Of the classes it has exactly one, and it is not
both fuzzy and boosted, which is told by the character behind it. A literal has a wildcard if the
text that it hands to a decoder has a star or a question mark that is not the second character of a
pair; it leads if it is bare and has nothing of that kind but a star at the end, with something in
front of it. -/
theorem Term.flags_of_parse {s : String} {t : Term} (h : Term.parse s = .ok t) :
    (∃! c, c ∈ TermFlags.classes ∧ t.flags.contains c = true) ∧
    ¬ (t.flags.contains .fuzzy = true ∧ t.flags.contains .boost = true) ∧
    ∃ front w back texts body, s = front ++ (w ++ t.suffixText) ++ back ∧ IsGap front ∧
      IsGap back ∧ t.Written w texts ∧
      (t.flags.contains .fuzzy = true ↔ ∃ distance, t.suffixText = "~" ++ distance) ∧
      (t.flags.contains .boost = true ↔ ∃ magnitude, t.suffixText = "^" ++ magnitude) ∧
      (t.flags.contains .single = true ∨ t.flags.contains .phrase = true ∨
          t.flags.contains .regexp = true → texts = [body] ∧ t.DecodesFrom body) ∧
      (t.flags.contains .wildcard = true ↔
        (t.flags.contains .single = true ∨ t.flags.contains .phrase = true) ∧
          HasWildcard body.toList) ∧
      (t.flags.contains .leading = true ↔
        t.flags.contains .single = true ∧ IsLeading body.toList) := by
  obtain ⟨front, w, back, texts, hs, hfront, hback, hwritten⟩ := Term.exists_written_of_parse h
  obtain ⟨body, hbody⟩ := hwritten.exists_body
  obtain ⟨hiswild, hisleading⟩ := hwritten.wildcards (Term.wellFormed_of_parse h).1
    fun hclass => (hbody hclass).1
  obtain ⟨hclass, hwild, hleads, hfuzzy, hboost⟩ := t.contains_flags
  simp only [List.mem_cons, List.not_mem_nil, or_false] at hbody hiswild
  rw [hwild, hleads, hfuzzy, hboost, hclass .single (by decide), hclass .phrase (by decide),
    hclass .regexp (by decide)]
  refine ⟨⟨t.category, ⟨t.category_mem_classes, (hclass _ t.category_mem_classes).mpr rfl⟩, ?_⟩,
    ?_, front, w, back, texts, body, hs, hfront, hback, hwritten, t.isFuzzy_iff_suffixText,
    t.boost?_isSome_iff_suffixText, hbody, hiswild, hisleading⟩
  · rintro c ⟨hc, hcontains⟩
    exact ((hclass c hc).mp hcontains).symm
  · rintro ⟨hf, hb⟩
    simp [Term.not_isFuzzy_of_boost? hb] at hf

/-- Two backslashes leave the star free, and a third one takes it up. -/
theorem Term.flags_of_parse_star :
    (∃ t, Term.parse "a\\\\*~2" = .ok t ∧
        t.flags = .single ||| .wildcard ||| .leading ||| .fuzzy ∧
        ∃! c, c ∈ TermFlags.classes ∧ t.flags.contains c = true) ∧
      ∃ t, Term.parse "\"a\\\\\\*\"^2" = .ok t ∧ t.flags = .phrase ||| .boost ∧
        ∃! c, c ∈ TermFlags.classes ∧ t.flags.contains c = true := by
  have hbare : Term.parse "a\\\\*~2" = .ok (.literal
      (.bare [⟨.word, "a\\\\"⟩, ⟨.wildcard, "*"⟩]) (some (.fuzzy ⟨some "2"⟩))) := by
    decide +kernel
  have hphrase : Term.parse "\"a\\\\\\*\"^2" = .ok (.literal
      (.phrase [⟨.word, "a\\\\\\*"⟩]) (some (.boost ⟨some "2"⟩))) := by decide +kernel
  exact ⟨⟨_, hbare, by decide +kernel, (Term.flags_of_parse hbare).1⟩,
    _, hphrase, by decide +kernel, (Term.flags_of_parse hphrase).1⟩

end SearchQuery
