import SearchQuery.Proofs.Token.Segmentation

/-!
Texts that do not split into tokens. The one character that starts no token is an equals sign, and
it is met there unless it is escaped or belongs to a comparison. Escapes are those of the text as a
whole: pairing backslashes from left to right never pairs across the border of two tokens, so the
lexer stops at the first sign that is neither escaped nor part of a comparison, and at nothing else.
-/

namespace SearchQuery

namespace Text

/-- A backslash is left over at the end when every backslash is paired, from left to right, with
the character after it. The next character is then the second of a pair. -/
def escapesNext (cs : List Char) : Bool :=
  cs.foldl (fun escaped c => !escaped && c == '\\') false

/-- Right behind `before` comes an equals sign that is not the second of a pair, and no `<` or `>`
that is not one either stands in front of it. -/
structure StrayEquals (cs before : List Char) : Prop where
  comes : before ++ ['='] <+: cs
  unescaped : escapesNext before = false
  uncompared : before.getLast? = some '<' ∨ before.getLast? = some '>' →
    escapesNext before.dropLast = true

instance (cs before : List Char) : Decidable (StrayEquals cs before) :=
  decidable_of_iff (before ++ ['='] <+: cs ∧ escapesNext before = false ∧
      (before.getLast? = some '<' ∨ before.getLast? = some '>' →
        escapesNext before.dropLast = true))
    ⟨fun h => ⟨h.1, h.2.1, h.2.2⟩, fun h => ⟨h.1, h.2, h.3⟩⟩

/-- The first of the stray signs comes right behind `before`. -/
structure FirstStray (cs before : List Char) : Prop where
  stray : StrayEquals cs before
  first : ∀ front, StrayEquals cs front → before.length ≤ front.length

theorem StrayEquals.eq_take {cs before : List Char} (h : StrayEquals cs before) :
    before = cs.take before.length :=
  List.prefix_iff_eq_take.mp ((List.prefix_append before ['=']).trans h.comes)

theorem exists_strayEquals_iff {cs : List Char} :
    (∃ before, StrayEquals cs before) ↔ ∃ n < cs.length, StrayEquals cs (cs.take n) := by
  constructor
  · rintro ⟨before, h⟩
    have hlen : before.length + 1 ≤ cs.length := by simpa using h.comes.length_le
    exact ⟨before.length, hlen, h.eq_take ▸ h⟩
  · rintro ⟨n, -, h⟩
    exact ⟨_, h⟩

instance (cs : List Char) : Decidable (∃ before, StrayEquals cs before) :=
  decidable_of_iff _ exists_strayEquals_iff.symm

theorem firstStray_iff {cs before : List Char} :
    FirstStray cs before ↔
      StrayEquals cs before ∧ ∀ n < before.length, ¬ StrayEquals cs (cs.take n) := by
  constructor
  · rintro ⟨hstray, hfirst⟩
    refine ⟨hstray, ?_⟩
    intro n hn hearlier
    have hle := (hfirst _ hearlier).trans (List.length_take_le n cs)
    exact absurd hn (Nat.not_lt.mpr hle)
  · rintro ⟨hstray, hfirst⟩
    refine ⟨hstray, ?_⟩
    intro front hfront
    by_contra hlt
    exact hfirst front.length (Nat.lt_of_not_le hlt) (hfront.eq_take ▸ hfront)

instance (cs before : List Char) : Decidable (FirstStray cs before) :=
  decidable_of_iff _ firstStray_iff.symm

theorem StrayEquals.of_prefix {cs ds before : List Char} (h : StrayEquals cs before)
    (hcs : cs <+: ds) : StrayEquals ds before :=
  ⟨h.comes.trans hcs, h.unescaped, h.uncompared⟩

/-- What comes behind the first stray sign does not matter. -/
theorem FirstStray.of_prefix {cs ds before : List Char} (h : FirstStray cs before)
    (hcs : cs <+: ds) : FirstStray ds before := by
  refine ⟨h.stray.of_prefix hcs, ?_⟩
  intro front hfront
  by_contra hlt
  have hle : (front ++ ['=']).length ≤ (before ++ ['=']).length := by
    simp only [List.length_append, List.length_singleton]
    omega
  have hinside : front ++ ['='] <+: before ++ ['='] :=
    List.prefix_of_prefix_length_le hfront.comes (h.stray.comes.trans hcs) hle
  exact hlt (h.first front ⟨hinside.trans h.stray.comes, hfront.unescaped, hfront.uncompared⟩)

/-! ### Escapes -/

theorem escapesNext_append {cs : List Char} (h : escapesNext cs = false) (ds : List Char) :
    escapesNext (cs ++ ds) = escapesNext ds := by
  have hfold : escapesNext (cs ++ ds) =
      ds.foldl (fun escaped c => !escaped && c == '\\') (escapesNext cs) := List.foldl_append
  rw [hfold, h]
  rfl

theorem escapesNext_cons_of_ne {c : Char} (h : c ≠ '\\') (cs : List Char) :
    escapesNext (c :: cs) = escapesNext cs := by
  have hplain : escapesNext [c] = false := by simpa [escapesNext] using h
  exact escapesNext_append hplain cs

@[simp]
theorem escapesNext_pair (c : Char) (cs : List Char) :
    escapesNext ('\\' :: c :: cs) = escapesNext cs := by
  have hpair : escapesNext ['\\', c] = false := rfl
  exact escapesNext_append hpair cs

theorem escapesNext_of_notMem {cs : List Char} (h : '\\' ∉ cs) : escapesNext cs = false := by
  induction cs with
  | nil => rfl
  | cons c cs ih =>
      rw [List.mem_cons, not_or] at h
      rw [escapesNext_cons_of_ne (Ne.symm h.1), ih h.2]

end Text

/-! ### Within one token -/

namespace Token

open Text (escapesNext StrayEquals FirstStray)

theorem IsWordText.escapesNext_eq {cs : List Char} (h : IsWordText cs) :
    escapesNext cs = false := by
  induction h with
  | nil => rfl
  | plain hc _ ih => rw [Text.escapesNext_cons_of_ne (not_isReserved_imp hc).2.2.1, ih]
  | escaped c _ ih => rw [Text.escapesNext_pair, ih]

/-- The reserved characters of a word are escaped. -/
theorem IsWordText.escapesNext_of_isReserved {cs front back : List Char} {c : Char}
    (h : IsWordText cs) (hcs : cs = front ++ c :: back) (hc : isReserved c = true)
    (hne : c ≠ '\\') : escapesNext front = true := by
  induction h generalizing front with
  | nil => simp at hcs
  | @plain d ds hd _ ih =>
      cases front with
      | nil =>
          obtain ⟨rfl, -⟩ := List.cons.inj hcs
          simp [hd] at hc
      | cons d' front =>
          obtain ⟨rfl, hds⟩ := List.cons.inj hcs
          rw [Text.escapesNext_cons_of_ne (not_isReserved_imp hd).2.2.1, ih hds]
  | escaped d _ ih =>
      match front with
      | [] => exact absurd (List.cons.inj hcs).1.symm hne
      | [d'] =>
          obtain ⟨rfl, -⟩ := List.cons.inj hcs
          rfl
      | d' :: d'' :: front =>
          obtain ⟨rfl, htail⟩ := List.cons.inj hcs
          obtain ⟨rfl, hds⟩ := List.cons.inj htail
          rw [Text.escapesNext_pair, ih hds]

theorem Lexical.escapesNext_eq {t : Token} (h : t.Lexical) (hback : t.kind ≠ .backslash) :
    escapesNext t.text.toList = false := by
  obtain ⟨-, hholds⟩ := h
  obtain ⟨kind, text⟩ := t
  have hplain : (∀ c ∈ text.toList, c ≠ '\\') → escapesNext text.toList = false :=
    fun hne => Text.escapesNext_of_notMem fun hmem => hne _ hmem rfl
  cases kind
  case word => exact IsWordText.escapesNext_eq hholds
  case backslash => exact absurd rfl hback
  case lineEnd =>
    apply hplain
    rintro c hc rfl
    exact absurd (hholds _ hc) (by decide)
  case blank =>
    apply hplain
    rintro c hc rfl
    exact absurd (hholds _ hc) (by decide)
  case number =>
    apply hplain
    rintro c hc rfl
    exact absurd (hholds _ hc) (by decide)
  case comparison => rcases hholds with hcs | hcs | hcs | hcs <;> rw [hcs] <;> rfl
  all_goals
    obtain ⟨d, hd, hcs⟩ := hholds
    apply hplain
    rw [hcs, List.forall_mem_singleton]
    exact (symbols_disjoint hd).2.2.2.1

/-- The signs of comparisons stand in comparisons, or escaped in words. -/
theorem Lexical.escapesNext_or_comparison {t : Token} (h : t.Lexical) {front back : List Char}
    {c : Char} (htext : t.text.toList = front ++ c :: back) (hc : c = '=' ∨ c = '<' ∨ c = '>') :
    escapesNext front = true ∨ t.kind = .comparison := by
  have hmem : c ∈ t.text.toList := by simp [htext]
  have hclass : Text.isBlank c = false ∧ Text.isLineEnd c = false ∧ c.isDigit = false ∧
      isReserved c = true ∧ c ≠ '\\' := by
    rcases hc with rfl | rfl | rfl <;> decide
  obtain ⟨hblank, hline, hdigit, hreserved, hne⟩ := hclass
  obtain ⟨-, hholds⟩ := h
  obtain ⟨kind, text⟩ := t
  cases kind
  case word => exact Or.inl (IsWordText.escapesNext_of_isReserved hholds htext hreserved hne)
  case comparison => exact Or.inr rfl
  case lineEnd => simp [hholds c hmem] at hline
  case blank => simp [hholds c hmem] at hblank
  case number => simp [hholds c hmem] at hdigit
  case backslash =>
    have hcs : text.toList = ['\\'] := hholds
    rw [hcs, List.mem_singleton] at hmem
    exact absurd hmem hne
  all_goals
    obtain ⟨d, hd, hcs⟩ := hholds
    have hcd : c = d := by simpa [hcs] using hmem
    obtain ⟨-, -, -, -, heq, hlt, hgt⟩ := symbols_disjoint hd
    simp [hcd, heq, hlt, hgt] at hc

/-- No stray sign comes within a token. -/
theorem Lexical.not_strayEquals {t : Token} (h : t.Lexical) {front back : List Char}
    (htext : t.text.toList = front ++ '=' :: back) (cs : List Char) : ¬ StrayEquals cs front := by
  intro hstray
  rcases h.escapesNext_or_comparison htext (Or.inl rfl) with hescaped | hkind
  · simp [hstray.unescaped] at hescaped
  · -- the sign is the second character of the comparison
    obtain ⟨-, hholds⟩ := h
    rw [hkind] at hholds
    have hfront : front = ['<'] ∨ front = ['>'] := by
      rcases hholds with hcs | hcs | hcs | hcs <;>
        simp [hcs, List.cons_eq_append_iff] at htext <;> simp [htext.1]
    rcases hfront with rfl | rfl <;> exact absurd (hstray.uncompared (by simp)) (by decide)

/-- A comparison that ends in `<` or `>` is followed by no equals sign. -/
theorem EndsBefore.uncompared {t : Token} (h : t.Lexical) {rest : List Char}
    (hend : t.EndsBefore ('=' :: rest))
    (hlast : t.text.toList.getLast? = some '<' ∨ t.text.toList.getLast? = some '>') :
    escapesNext t.text.toList.dropLast = true := by
  obtain ⟨c, hc, hlast⟩ : ∃ c, (c = '<' ∨ c = '>') ∧ t.text.toList.getLast? = some c := by
    rcases hlast with hlast | hlast
    · exact ⟨_, Or.inl rfl, hlast⟩
    · exact ⟨_, Or.inr rfl, hlast⟩
  have htext := (List.dropLast_append_getLast? c hlast).symm
  rcases h.escapesNext_or_comparison htext (Or.inr hc) with hescaped | hkind
  · exact hescaped
  · have hholds := h.2
    simp only [EndsBefore, hkind, List.head?_cons, ne_eq, not_true_eq_false, imp_false] at hend
    rw [hkind] at hholds
    rcases hholds with hcs | hcs | hcs | hcs <;> rw [hcs] at hend hlast <;> simp at hend
    · simp only [List.getLast?_cons_cons, List.getLast?_singleton, Option.some.injEq] at hlast
      rcases hc with rfl | rfl <;> simp at hlast
    · simp only [List.getLast?_cons_cons, List.getLast?_singleton, Option.some.injEq] at hlast
      rcases hc with rfl | rfl <;> simp at hlast

/-- The stray signs behind a token are those of the rest of the text. -/
theorem strayEquals_append_iff {t : Token} (h : t.Lexical) {rest before : List Char}
    (hend : t.EndsBefore rest) :
    StrayEquals (t.text.toList ++ rest) before ↔
      ∃ front, before = t.text.toList ++ front ∧ StrayEquals rest front := by
  have hescapes : ∀ {front back}, rest = front ++ '=' :: back →
      escapesNext t.text.toList = false := by
    intro front back hrest
    apply h.escapesNext_eq
    intro hkind
    have hnil : rest = [] := by simpa [EndsBefore, hkind] using hend
    simp [hnil] at hrest
  constructor
  · intro hstray
    obtain ⟨back, hback⟩ := hstray.comes
    rw [List.append_assoc, List.singleton_append, List.append_eq_append_iff] at hback
    have hbehind : ∃ front, before = t.text.toList ++ front ∧ rest = front ++ '=' :: back := by
      rcases hback with ⟨as, htext, has⟩ | ⟨front, hbefore, hrest⟩
      · cases as with
        | nil => exact ⟨[], by simpa using htext.symm, by simpa using has.symm⟩
        | cons c as =>
            obtain ⟨rfl, -⟩ := List.cons.inj has
            exact absurd hstray (h.not_strayEquals htext _)
      · exact ⟨front, hbefore, hrest⟩
    obtain ⟨front, rfl, hrest⟩ := hbehind
    have hskip := Text.escapesNext_append (hescapes hrest)
    refine ⟨front, rfl, ⟨back, by simp [hrest]⟩, by rw [← hskip]; exact hstray.unescaped, ?_⟩
    intro hlast
    have hne : front ≠ [] := by
      rintro rfl
      simp at hlast
    have hcompared := hstray.uncompared
    rwa [List.getLast?_append_of_ne_nil _ hne, List.dropLast_append_of_ne_nil hne, hskip,
      forall_prop_of_true hlast] at hcompared
  · rintro ⟨front, rfl, hstray⟩
    obtain ⟨back, hback⟩ := hstray.comes
    rw [List.append_assoc, List.singleton_append] at hback
    have hskip := Text.escapesNext_append (hescapes hback.symm)
    refine ⟨⟨back, by simp [← hback]⟩, by rw [hskip]; exact hstray.unescaped, ?_⟩
    cases front with
    | nil =>
        rw [List.append_nil]
        rw [← hback] at hend
        exact EndsBefore.uncompared h hend
    | cons c front =>
        have hne : c :: front ≠ [] := List.cons_ne_nil c front
        rw [List.getLast?_append_of_ne_nil _ hne, List.dropLast_append_of_ne_nil hne, hskip]
        exact hstray.uncompared

theorem firstStray_append_iff {t : Token} (h : t.Lexical) {rest before : List Char}
    (hend : t.EndsBefore rest) :
    FirstStray (t.text.toList ++ rest) before ↔
      ∃ front, before = t.text.toList ++ front ∧ FirstStray rest front := by
  have hiff : ∀ before, StrayEquals (t.text.toList ++ rest) before ↔
      ∃ front, before = t.text.toList ++ front ∧ StrayEquals rest front :=
    fun _ => strayEquals_append_iff h hend
  constructor
  · intro hfirst
    obtain ⟨front, rfl, hstray⟩ := (hiff before).mp hfirst.stray
    refine ⟨front, rfl, hstray, ?_⟩
    intro other hother
    simpa using hfirst.first _ ((hiff _).mpr ⟨other, rfl, hother⟩)
  · rintro ⟨front, rfl, hfirst⟩
    refine ⟨(hiff _).mpr ⟨front, rfl, hfirst.stray⟩, ?_⟩
    intro other hother
    obtain ⟨other, rfl, hstray⟩ := (hiff _).mp hother
    simpa using hfirst.first other hstray

/-- A reserved character that is in no other class is the equals sign. -/
theorem eq_equals_of_isReserved {c : Char} (hblank : ¬ Text.isBlank c = true)
    (hdigit : ¬ c.isDigit = true) (h : isReserved c = true) (hback : c ≠ '\\')
    (hcmp : ¬ (c = '<' ∨ c = '>')) (hpunct : punctuation? c = none) : c = '=' := by
  simp only [isReserved, hblank, hdigit, Bool.or_self, Bool.false_or, List.contains_eq_mem,
    decide_eq_true_eq, List.mem_cons, List.not_mem_nil, or_false] at h
  simp only [punctuation?, ite_eq_iff, reduceCtorEq, and_false, false_or, and_true] at hpunct
  grind

/-- An equals sign starts no token, and every other character does. -/
theorem lex?_eq_none_iff {c : Char} {cs : List Char} : lex? c cs = none ↔ c = '=' := by
  constructor
  · intro h
    revert h
    fun_cases lex? c cs <;> rintro ⟨⟩
    next hblank hcmp hpunct hdigit rest hback hsplit =>
      apply eq_equals_of_isReserved hblank hdigit _ hback hcmp hpunct
      by_contra hplain
      have hword : (splitWord (c :: cs)).1 = c :: (splitWord cs).1 := by
        rw [splitWord_cons_of_not_isReserved (by simpa using hplain)]
        rfl
      simp [hsplit] at hword
  · rintro rfl
    have hsplit : splitWord ('=' :: cs) = ([], '=' :: cs) :=
      splitWord_cons_of_isReserved (by decide) (by decide)
    unfold lex?
    rw [hsplit]
    rfl

end Token

/-! ### Whole texts -/

open Text (StrayEquals FirstStray)

theorem Splitter.step_eq_stuck_iff {l : Splitter} {e : Error} :
    l.step = .stuck e ↔ (∃ cs, l.rest = '=' :: cs) ∧ e = .unrecognised l.pos '=' := by
  unfold step
  cases hrest : l.rest with
  | nil => simp
  | cons c cs =>
      have hlex : Token.lex? c cs = none ↔ c = '=' := Token.lex?_eq_none_iff
      simp only [List.cons.injEq]
      split
      · next hfound =>
          have hc : c ≠ '=' := by simpa [hfound] using hlex
          simp [hc]
      · next hnone =>
          obtain rfl := hlex.mp hnone
          simp [eq_comm]

theorem Text.firstStray_equals_iff {cs before : List Char} :
    FirstStray ('=' :: cs) before ↔ before = [] := by
  have hnil : StrayEquals ('=' :: cs) [] := ⟨⟨cs, rfl⟩, rfl, by simp⟩
  constructor
  · intro h
    simpa using h.first [] hnil
  · rintro rfl
    exact ⟨hnil, fun _ _ => Nat.zero_le _⟩

theorem Text.not_strayEquals_nil {before : List Char} : ¬ StrayEquals [] before := by
  intro h
  simpa using h.comes

theorem Splitter.Run.result_cons_eq_error_iff {r : Run} {t : Token.Located} {e : Error} :
    (r.cons t).result = .error e ↔ r.result = .error e := by
  rw [Run.result_cons]
  cases r.result <;> simp [Except.map]

/-- A run stops at the first stray sign, and it stops early at nothing else. -/
theorem Splitter.run_result_eq_error_iff {l : Splitter} {e : Error} :
    l.run.result = .error e ↔ ∃ before, FirstStray l.rest before ∧
      e = .unrecognised (l.pos + (String.ofList before).utf8ByteSize) '=' := by
  -- every token is shorter than the text it is taken from
  induction hlen : l.rest.length using Nat.strong_induction_on generalizing l with
  | _ n ih =>
      rw [run_eq]
      cases hstep : l.step with
      | token t after =>
          have ih := ih _ (hlen ▸ length_lt_of_step_eq_token hstep) rfl
          obtain ⟨-, hpos, c, cs, hrest, hlex⟩ := step_eq_token_iff.mp hstep
          obtain ⟨happ, hne⟩ := Token.lex?_eq_some_imp hlex
          obtain ⟨hholds, hends⟩ := Token.holds_and_endsBefore_of_lex? hlex
          have hlexical : t.token.Lexical := ⟨by simpa using hne, hholds⟩
          simp only [Run.result_cons_eq_error_iff, ih, hrest, ← happ, hpos,
            Token.firstStray_append_iff hlexical hends]
          constructor
          · rintro ⟨before, hfirst, rfl⟩
            refine ⟨_, ⟨before, rfl, hfirst⟩, ?_⟩
            simp [String.ofList_append, Nat.add_assoc]
          · rintro ⟨_, ⟨before, rfl, hfirst⟩, rfl⟩
            refine ⟨before, hfirst, ?_⟩
            simp [String.ofList_append, Nat.add_assoc]
      | stuck e' =>
          obtain ⟨⟨cs, hrest⟩, rfl⟩ := step_eq_stuck_iff.mp hstep
          simp [Run.result, Step.error?, hrest, Text.firstStray_equals_iff, eq_comm]
      | done =>
          have hrest : l.rest = [] := by
            rw [← run_result_eq_ok_nil_iff, run_eq, hstep]
            rfl
          have hnone : ∀ before, ¬ FirstStray l.rest before := by
            rintro before ⟨hstray, -⟩
            rw [hrest] at hstray
            exact Text.not_strayEquals_nil hstray
          simp [Run.result, Step.error?, hnone]

theorem tokenize_eq_error_iff {s : String} {e : Error} :
    tokenize s = .error e ↔ ∃ before, FirstStray s.toList before ∧
      e = .unrecognised (String.ofList before).utf8ByteSize '=' := by
  simpa [tokenize_eq, Splitter.ofString] using
    Splitter.run_result_eq_error_iff (l := Splitter.ofString s)

/-- Where there is a stray sign, one of them is the first. -/
theorem Text.StrayEquals.exists_first {cs before : List Char} (h : StrayEquals cs before) :
    ∃ front, FirstStray cs front := by
  induction hlen : before.length using Nat.strong_induction_on generalizing before with
  | _ n ih =>
      by_cases hfirst : ∀ front, StrayEquals cs front → before.length ≤ front.length
      · exact ⟨before, h, hfirst⟩
      · push Not at hfirst
        obtain ⟨front, hstray, hlt⟩ := hfirst
        exact ih front.length (hlen ▸ hlt) hstray rfl

theorem exists_tokenize_eq_error_iff {s : String} :
    (∃ e, tokenize s = .error e) ↔ ∃ before, StrayEquals s.toList before := by
  simp only [tokenize_eq_error_iff]
  constructor
  · rintro ⟨-, before, hfirst, -⟩
    exact ⟨before, hfirst.stray⟩
  · rintro ⟨before, hstray⟩
    obtain ⟨front, hfirst⟩ := hstray.exists_first
    exact ⟨_, front, hfirst, rfl⟩

/-- A text fails to split into tokens if it has a stray equals sign, and only then; the error names
that character and the offset of the first such sign. -/
theorem tokenize_fails_at_first_stray (s : String) :
    ((∃ e, tokenize s = .error e) ↔ ∃ before, StrayEquals s.toList before) ∧
      ∀ e, tokenize s = .error e ↔ ∃ before, FirstStray s.toList before ∧
        e = .unrecognised (String.ofList before).utf8ByteSize '=' :=
  ⟨exists_tokenize_eq_error_iff, fun _ => tokenize_eq_error_iff⟩

-- The sign behind an escaped comparison is stray, and so is a second one behind a comparison.
example : StrayEquals "\\<=".toList "\\<".toList ∧ StrayEquals "<==".toList "<=".toList ∧
    StrayEquals "\\\\=".toList "\\\\".toList ∧ ¬ StrayEquals "a\\=b".toList "a\\".toList ∧
    ¬ StrayEquals "\\\\<=".toList "\\\\<".toList := by decide

end SearchQuery
