import SearchQuery.Proofs.Token.Stray
import SearchQuery.Term.Literal

/-!
Wildcards in the text of tokens. A star or a question mark is a token of its own unless a backslash
takes it up, and every other token is made of other characters; so whether a run of tokens has a
wildcard, and whether its only one is a final star, can be told from the characters alone.
-/

namespace SearchQuery

open Text (escapesNext)

/-- The text has a star or a question mark that is not the second character of a pair. -/
def Text.HasWildcard (cs : List Char) : Prop :=
  ∃ front c back, cs = front ++ c :: back ∧ (c = '*' ∨ c = '?') ∧ escapesNext front = false

/-- The text is some other text without a wildcard, and a star behind it. -/
def Text.IsLeading (cs : List Char) : Prop :=
  ∃ stem, cs = stem ++ ['*'] ∧ stem ≠ [] ∧ escapesNext stem = false ∧ ¬ HasWildcard stem

open Text (HasWildcard IsLeading)

theorem Text.not_hasWildcard_nil : ¬ HasWildcard [] := by
  rintro ⟨front, c, back, hcs, -⟩
  simp at hcs

/-- Where no backslash is left over, a text can be cut. -/
theorem Text.hasWildcard_append {cs ds : List Char} (h : escapesNext cs = false) :
    HasWildcard (cs ++ ds) ↔ HasWildcard cs ∨ HasWildcard ds := by
  constructor
  · rintro ⟨front, c, back, hsplit, hc, hescapes⟩
    rcases List.append_eq_append_iff.mp hsplit with ⟨front', rfl, hds⟩ | ⟨middle, hcs, hback⟩
    · rw [escapesNext_append h] at hescapes
      exact Or.inr ⟨front', c, back, hds, hc, hescapes⟩
    · cases middle with
      | nil =>
          obtain rfl : cs = front := by simpa using hcs
          exact Or.inr ⟨[], c, back, by simpa using hback.symm, hc, rfl⟩
      | cons d middle =>
          obtain ⟨rfl, -⟩ := List.cons.inj hback
          exact Or.inl ⟨front, c, middle, hcs, hc, hescapes⟩
  · rintro (⟨front, c, back, rfl, hc, hescapes⟩ | ⟨front, c, back, rfl, hc, hescapes⟩)
    · exact ⟨front, c, back ++ ds, by simp, hc, hescapes⟩
    · refine ⟨cs ++ front, c, back, by simp, hc, ?_⟩
      rw [escapesNext_append h, hescapes]

namespace Token

variable {ts : List Token}

/-! ### Single tokens -/

/-- A symbol that is not the second of a pair makes a token of its own kind. -/
theorem Lexical.kind_of_symbol {t : Token} (h : t.Lexical) {front back : List Char} {c : Char}
    (htext : t.text.toList = front ++ c :: back) (hescapes : escapesNext front = false) {k : Kind}
    (hc : c ∈ k.symbols) : t.kind = k := by
  have hmem : c ∈ t.text.toList := by simp [htext]
  obtain ⟨hblank, hdigit, hreserved, hback, heq, hlt, hgt⟩ := symbols_disjoint hc
  obtain ⟨-, hholds⟩ := h
  obtain ⟨kind, text⟩ := t
  cases kind
  case word =>
    have hescaped := IsWordText.escapesNext_of_isReserved hholds htext hreserved hback
    simp [hescapes] at hescaped
  case lineEnd => simp [Text.isBlank_of_isLineEnd (hholds c hmem)] at hblank
  case blank => simp [hholds c hmem] at hblank
  case number => simp [hholds c hmem] at hdigit
  case backslash =>
    have hcs : text.toList = ['\\'] := hholds
    simp [hcs, hback] at hmem
  case comparison => rcases hholds with hcs | hcs | hcs | hcs <;> simp [hcs, heq, hlt, hgt] at hmem
  all_goals
    obtain ⟨d, hd, hcs⟩ := hholds
    obtain rfl : c = d := by simpa [hcs] using hmem
    have hkind := punctuation?_eq_some_iff.mpr hd
    rw [punctuation?_eq_some_iff.mpr hc] at hkind
    exact (Option.some.inj hkind).symm

theorem Lexical.hasWildcard_iff {t : Token} (h : t.Lexical) :
    HasWildcard t.text.toList ↔ t.kind = .wildcard := by
  constructor
  · rintro ⟨front, c, back, htext, hc, hescapes⟩
    exact h.kind_of_symbol htext hescapes (by simpa [Kind.symbols] using hc)
  · intro hkind
    obtain ⟨-, hholds⟩ := h
    rw [hkind] at hholds
    obtain ⟨c, hc, htext⟩ := hholds
    exact ⟨[], c, [], htext, by simpa [Kind.symbols] using hc, rfl⟩

theorem isStar_iff {t : Token} : t.isStar = true ↔ t.kind = .wildcard ∧ t.text = "*" := by
  simp [isStar]

/-- The token in front of which the characters `cs` stand is the star at the end of the text. -/
theorem Lexical.eq_star_of_last {t : Token} (h : t.Lexical) {cs stem : List Char}
    (hcs : escapesNext cs = false) (htext : cs ++ t.text.toList = stem ++ ['*'])
    (hstem : escapesNext stem = false) : stem = cs ∧ t.isStar = true := by
  rcases List.eq_nil_or_concat t.text.toList with hnil | ⟨front, d, hconcat⟩
  · exact absurd (String.toList_eq_nil_iff.mp hnil) h.1
  · rw [List.concat_eq_append] at hconcat
    rw [hconcat, ← List.append_assoc] at htext
    obtain ⟨rfl, hd⟩ := List.append_inj' htext rfl
    obtain rfl : d = '*' := by simpa using hd
    rw [Text.escapesNext_append hcs] at hstem
    have hkind : t.kind = .wildcard := h.kind_of_symbol hconcat hstem (by decide)
    -- the token is one character, so nothing of it comes before the star
    obtain ⟨-, hholds⟩ := h
    rw [hkind] at hholds
    obtain ⟨c, -, hsingle⟩ := hholds
    rw [hconcat, List.append_eq_singleton_iff] at hsingle
    obtain ⟨rfl, -⟩ : front = [] ∧ '*' = c := by simpa using hsingle
    refine ⟨by simp, isStar_iff.mpr ⟨hkind, ?_⟩⟩
    rw [← String.toList_inj, hconcat]
    rfl

/-! ### Runs of tokens -/

/-- Between tokens no backslash is left over. -/
theorem Segmented.escapesNext_eq (h : Segmented ts)
    (hlast : ∀ t ∈ ts.getLast?, t.kind ≠ .backslash) : escapesNext (chars ts) = false := by
  induction ts with
  | nil => rfl
  | cons t ts ih =>
      obtain ⟨hlexical, htail, hborder⟩ := segmented_cons.mp h
      rw [chars_cons]
      cases ts with
      | nil => simpa using hlexical.escapesNext_eq (hlast t rfl)
      | cons u us =>
          rw [Text.escapesNext_append (hlexical.escapesNext_eq (hborder u rfl).1)]
          exact ih htail (by simpa using hlast)

theorem Segmented.hasWildcard_iff (h : Segmented ts) :
    HasWildcard (chars ts) ↔ Token.hasWildcard ts = true := by
  induction ts with
  | nil => simp [Text.not_hasWildcard_nil, Token.hasWildcard]
  | cons t ts ih =>
      obtain ⟨hlexical, htail, hborder⟩ := segmented_cons.mp h
      have hany : Token.hasWildcard (t :: ts) = true ↔
          t.kind = .wildcard ∨ Token.hasWildcard ts = true := by
        simp [Token.hasWildcard]
      rw [chars_cons, hany, ← ih htail, ← hlexical.hasWildcard_iff]
      cases ts with
      | nil => simp [Text.not_hasWildcard_nil]
      | cons u us => exact Text.hasWildcard_append (hlexical.escapesNext_eq (hborder u rfl).1)

/-- In front of a token no backslash is left over. -/
theorem Segmented.escapesNext_init {t : Token} (h : Segmented (ts ++ [t])) :
    escapesNext (chars ts) = false := by
  obtain ⟨hts, -, hborder⟩ := segmented_append.mp h
  exact hts.escapesNext_eq fun u hu => (hborder u hu t rfl).1

theorem isLeading_append_iff {t : Token} :
    Token.isLeading (ts ++ [t]) = true ↔
      ts ≠ [] ∧ t.isStar = true ∧ ¬ Token.hasWildcard ts = true := by
  simp [Token.isLeading, and_assoc]

theorem Segmented.chars_eq_nil_iff (h : Segmented ts) : chars ts = [] ↔ ts = [] := by
  constructor
  · intro hnil
    cases ts with
    | nil => rfl
    | cons t ts =>
        obtain ⟨c, cs, htext⟩ := (h.lexical t List.mem_cons_self).exists_cons
        simp [htext] at hnil
  · rintro rfl
    rfl

/-- A final star that is in no pair is the last token, whatever comes in front of it. -/
theorem Segmented.isLeading_iff (h : Segmented ts) :
    IsLeading (chars ts) ↔ Token.isLeading ts = true := by
  rcases List.eq_nil_or_concat ts with rfl | ⟨us, t, rfl⟩
  · simp [IsLeading, Token.isLeading]
  · rw [List.concat_eq_append] at h ⊢
    obtain ⟨hus, ht, -⟩ := segmented_append.mp h
    have hlexical := ht.lexical t List.mem_cons_self
    have hinit := h.escapesNext_init
    have hchars : chars (us ++ [t]) = chars us ++ t.text.toList := by simp
    rw [isLeading_append_iff, hchars]
    constructor
    · rintro ⟨stem, hstem, hne, hescapes, hplain⟩
      obtain ⟨rfl, htext⟩ := hlexical.eq_star_of_last hinit hstem hescapes
      refine ⟨?_, htext, ?_⟩
      · exact fun hnil => hne (hus.chars_eq_nil_iff.mpr hnil)
      · exact fun hwild => hplain (hus.hasWildcard_iff.mpr hwild)
    · rintro ⟨hne, hstar, hplain⟩
      have htext : t.text.toList = ['*'] := by simp [(isStar_iff.mp hstar).2]
      refine ⟨chars us, by rw [htext], ?_, hinit, ?_⟩
      · exact fun hnil => hne (hus.chars_eq_nil_iff.mp hnil)
      · exact fun hwild => hplain (hus.hasWildcard_iff.mp hwild)

end Token

end SearchQuery
