import Mathlib.Data.List.TakeWhile
import SearchQuery.Token.Splitter

/-!
The lexical classes of tokens, and the one step of the lexer in terms of them: `lex?` cuts off a
text exactly if it belongs to the class of its kind and nothing after it could extend it.
-/

namespace SearchQuery

/-! ### Longest runs -/

section Runs

variable {α : Type} {p : α → Bool}

/-- A run of one class up to something of another is split off as it is. -/
theorem takeWhile_and_dropWhile_append {xs rest : List α} (hxs : ∀ x ∈ xs, p x = true)
    (hrest : ∀ x ∈ rest.head?, p x = false) :
    (xs ++ rest).takeWhile p = xs ∧ (xs ++ rest).dropWhile p = rest := by
  rw [List.takeWhile_append_of_pos hxs, List.dropWhile_append_of_pos hxs]
  cases rest with
  | nil => simp
  | cons x rest => simp [hrest x rfl]

theorem not_of_mem_head?_dropWhile {xs : List α} {x : α} (h : x ∈ (xs.dropWhile p).head?) :
    p x = false := by
  have hhead := List.head?_dropWhile_not p xs
  rw [Option.mem_def.mp h] at hhead
  simpa using hhead

end Runs

namespace Token

/-- The texts of words: unreserved characters, and pairs of a backslash and any character. -/
inductive IsWordText : List Char → Prop where
  | nil : IsWordText []
  | plain {c : Char} {cs : List Char} : isReserved c = false → IsWordText cs → IsWordText (c :: cs)
  | escaped (c : Char) {cs : List Char} : IsWordText cs → IsWordText ('\\' :: c :: cs)

namespace Kind

/-- The characters that make up a token of a kind by themselves. -/
def symbols : Kind → List Char
  | dot => ['.']
  | quote => ['"']
  | slash => ['/']
  | colon => [':']
  | plus => ['+']
  | minus => ['-']
  | tilde => ['~']
  | caret => ['^']
  | wildcard => ['*', '?']
  | leftParen => ['(']
  | rightParen => [')']
  | leftBracket => ['[']
  | rightBracket => [']']
  | leftBrace => ['\x7b']
  | rightBrace => ['\x7d']
  | ampersand => ['&']
  | bar => ['|']
  | bang => ['!']
  | _ => []

/-- The lexical class of a kind. The empty text is in some classes, and in no token. -/
def Holds : Kind → List Char → Prop
  | lineEnd, cs => ∀ c ∈ cs, Text.isLineEnd c = true
  | blank, cs => ∀ c ∈ cs, Text.isBlank c = true ∧ Text.isLineEnd c = false
  | number, cs => ∀ c ∈ cs, c.isDigit = true
  | word, cs => IsWordText cs
  | comparison, cs => cs = ['<'] ∨ cs = ['<', '='] ∨ cs = ['>'] ∨ cs = ['>', '=']
  | backslash, cs => cs = ['\\']
  | kind, cs => ∃ c ∈ kind.symbols, cs = [c]

/-- The kinds whose tokens are runs, so that two of them side by side would be one. -/
def isRun : Kind → Bool
  | word | number | blank | lineEnd => true
  | _ => false

end Kind

/-- The text is not empty and belongs to the class of the kind. -/
def Lexical (t : Token) : Prop :=
  t.text ≠ "" ∧ t.kind.Holds t.text.toList

/-- Nothing at the front of `rest` could extend the token. -/
def EndsBefore (t : Token) (rest : List Char) : Prop :=
  match t.kind with
  | .lineEnd => ∀ c ∈ rest.head?, Text.isLineEnd c = false
  | .blank => ∀ c ∈ rest.head?, (Text.isBlank c && !Text.isLineEnd c) = false
  | .number => ∀ c ∈ rest.head?, c.isDigit = false
  | .word => (splitWord rest).1 = []
  | .comparison => t.text.toList.length = 1 → rest.head? ≠ some '='
  | .backslash => rest = []
  | _ => True

/-! ### Characters -/

theorem punctuation?_eq_some_iff {c : Char} {k : Kind} :
    punctuation? c = some k ↔ c ∈ k.symbols := by
  constructor
  · intro h
    revert h
    fun_cases punctuation? c <;> rintro ⟨⟩ <;> simp_all [Kind.symbols]
  · intro h
    cases k <;> simp only [Kind.symbols, List.mem_cons, List.not_mem_nil, or_false] at h
    case wildcard => rcases h with rfl | rfl <;> decide
    all_goals
      subst h
      decide

/-- A character that is a token by itself is in none of the other classes. -/
theorem symbols_disjoint {k : Kind} {c : Char} (h : c ∈ k.symbols) :
    Text.isBlank c = false ∧ c.isDigit = false ∧ isReserved c = true ∧
      c ≠ '\\' ∧ c ≠ '=' ∧ c ≠ '<' ∧ c ≠ '>' := by
  cases k <;> simp only [Kind.symbols, List.mem_cons, List.not_mem_nil, or_false] at h
  case wildcard => rcases h with rfl | rfl <;> decide
  all_goals
    subst h
    decide

theorem punctuation?_eq_none_of_not_isReserved {c : Char} (h : isReserved c = false) :
    punctuation? c = none := by
  cases hc : punctuation? c with
  | none => rfl
  | some k =>
      have hreserved := (symbols_disjoint (punctuation?_eq_some_iff.mp hc)).2.2.1
      simp [h] at hreserved

/-- An unreserved character is in no class but that of words. -/
theorem not_isReserved_imp {c : Char} (h : isReserved c = false) :
    Text.isBlank c = false ∧ c.isDigit = false ∧
      c ≠ '\\' ∧ c ≠ '=' ∧ c ≠ '<' ∧ c ≠ '>' := by
  have hother : ∀ d : Char, isReserved d = true → c ≠ d := by
    rintro d hd rfl
    simp [h] at hd
  simp only [isReserved, Bool.or_eq_false_iff] at h
  exact ⟨h.1.1, h.1.2, hother _ (by decide), hother _ (by decide), hother _ (by decide),
    hother _ (by decide)⟩

theorem not_isBlank_of_isDigit {c : Char} (h : c.isDigit = true) : Text.isBlank c = false := by
  simp only [Char.isDigit, Bool.and_eq_true, decide_eq_true_eq, ge_iff_le, UInt32.le_iff_toNat_le]
    at h
  have hbounds : 48 ≤ c.toNat ∧ c.toNat ≤ 57 := h
  simp [Text.isBlank, Text.blankRanges]
  omega

theorem not_isLineEnd_of_not_isBlank {c : Char} (h : Text.isBlank c = false) :
    Text.isLineEnd c = false := by
  cases hend : Text.isLineEnd c with
  | false => rfl
  | true => simp [Text.isBlank_of_isLineEnd hend] at h

/-! ### Runs -/

theorem cutRun_eq_of_append {k : Kind} {inClass : Char → Bool} {cs rest : List Char}
    (hcs : ∀ c ∈ cs, inClass c = true) (hrest : ∀ c ∈ rest.head?, inClass c = false) :
    cutRun k inClass (cs ++ rest) = (⟨k, String.ofList cs⟩, rest) := by
  obtain ⟨htake, hdrop⟩ := takeWhile_and_dropWhile_append hcs hrest
  rw [cutRun, htake, hdrop, cut]

theorem inClass_of_mem_cutRun {k : Kind} {inClass : Char → Bool} {cs : List Char} {c : Char}
    (hc : c ∈ (cutRun k inClass cs).1.text.toList) : inClass c = true := by
  simp only [cutRun, text_cut] at hc
  exact List.mem_takeWhile_imp hc

/-! ### Words -/

theorem splitWord_cons_of_isReserved {c : Char} {cs : List Char} (hne : c ≠ '\\')
    (hc : isReserved c = true) : splitWord (c :: cs) = ([], c :: cs) := by
  unfold splitWord
  simp [hne, hc]

theorem splitWord_cons_of_not_isReserved {c : Char} {cs : List Char} (hc : isReserved c = false) :
    splitWord (c :: cs) = (splitWord cs).map (c :: ·) id := by
  rw [splitWord.eq_def]
  simp [(not_isReserved_imp hc).2.2.1, hc]

theorem isWordText_splitWord (cs : List Char) : IsWordText (splitWord cs).1 := by
  fun_induction splitWord cs with
  | case1 => exact .nil
  | case2 => exact .nil
  | case3 escaped cs ih => exact .escaped escaped ih
  | case4 => exact .nil
  | case5 c cs hne hreserved ih => exact .plain (by simpa using hreserved) ih

/-- Behind a longest word no word starts. -/
theorem splitWord_rest (cs : List Char) : (splitWord (splitWord cs).2).1 = [] := by
  fun_induction splitWord cs with
  | case1 => rfl
  | case2 => rfl
  | case3 escaped cs ih => exact ih
  | case4 c cs hne hreserved => rw [splitWord_cons_of_isReserved hne hreserved]
  | case5 c cs hne hreserved ih => exact ih

theorem splitWord_eq_of_append {cs rest : List Char} (hcs : IsWordText cs)
    (hrest : (splitWord rest).1 = []) : splitWord (cs ++ rest) = (cs, rest) := by
  induction hcs with
  | nil =>
      have happ := splitWord_append rest
      rw [hrest, List.nil_append] at happ
      exact Prod.ext hrest happ
  | plain hc _ ih => simp [splitWord_cons_of_not_isReserved hc, ih]
  | escaped c _ ih => simp [splitWord, ih]

theorem isWordText_iff {cs : List Char} : IsWordText cs ↔ (splitWord cs).1 = cs := by
  constructor
  · intro h
    have hsplit := splitWord_eq_of_append h (show (splitWord []).1 = [] from rfl)
    rw [List.append_nil] at hsplit
    rw [hsplit]
  · intro h
    rw [← h]
    exact isWordText_splitWord cs

instance : DecidablePred IsWordText :=
  fun _ => decidable_of_iff _ isWordText_iff.symm

instance (k : Kind) (cs : List Char) : Decidable (k.Holds cs) :=
  match k with
  -- not by trying every character there is
  | .lineEnd | .blank | .number => List.decidableBAll _ cs
  | .word => inferInstanceAs (Decidable (IsWordText cs))
  | .comparison => inferInstanceAs (Decidable (_ ∨ _ ∨ _ ∨ _))
  | .backslash => inferInstanceAs (Decidable (_ = _))
  | .dot | .quote | .slash | .colon | .plus | .minus | .tilde | .caret | .wildcard
  | .leftParen | .rightParen | .leftBracket | .rightBracket | .leftBrace | .rightBrace
  | .ampersand | .bar | .bang => List.decidableBEx (fun c => cs = [c]) (Kind.symbols _)

instance : DecidablePred Lexical :=
  fun _ => inferInstanceAs (Decidable (_ ∧ _))

/-! ### One step of the lexer -/

theorem Kind.holds_iff_of_mem_symbols {k : Kind} {c : Char} (h : c ∈ k.symbols)
    {cs : List Char} : k.Holds cs ↔ ∃ d ∈ k.symbols, cs = [d] := by
  cases k <;> first | rfl | simp [Kind.symbols] at h

theorem endsBefore_of_mem_symbols {k : Kind} {c : Char} {text : String} (h : c ∈ k.symbols)
    (rest : List Char) : EndsBefore ⟨k, text⟩ rest := by
  cases k <;> simp [Kind.symbols] at h <;> trivial

theorem holds_and_endsBefore_of_lex? {c : Char} {cs rest : List Char} {t : Token}
    (h : lex? c cs = some (t, rest)) : t.kind.Holds t.text.toList ∧ t.EndsBefore rest := by
  unfold lex? at h
  split at h
  · cases h
    exact ⟨fun c hc => inClass_of_mem_cutRun hc, fun c hc => not_of_mem_head?_dropWhile hc⟩
  · split at h
    · cases h
      refine ⟨fun c hc => ?_, fun c hc => ?_⟩
      · simpa using inClass_of_mem_cutRun hc
      · have hstop := not_of_mem_head?_dropWhile hc
        exact hstop
    · split at h
      · next hcmp =>
          split at h
          · cases h
            rcases hcmp with rfl | rfl <;> simp [Kind.Holds, EndsBefore]
          · next hne =>
              cases h
              have hhead : cs.head? ≠ some '=' := by
                cases cs with
                | nil => simp
                | cons d cs =>
                    rintro ⟨⟩
                    exact hne cs rfl
              rcases hcmp with rfl | rfl <;> simp [Kind.Holds, EndsBefore, hhead]
      · split at h
        · next k hk =>
            cases h
            have hmem := punctuation?_eq_some_iff.mp hk
            exact ⟨(Kind.holds_iff_of_mem_symbols hmem).mpr ⟨c, hmem, by simp⟩,
              endsBefore_of_mem_symbols hmem cs⟩
        · split at h
          · cases h
            exact ⟨fun c hc => inClass_of_mem_cutRun hc, fun c hc => not_of_mem_head?_dropWhile hc⟩
          · have hword := isWordText_splitWord (c :: cs)
            have hstop := splitWord_rest (c :: cs)
            split at h
            · next tail heq =>
                split at h
                · next hc =>
                    cases h
                    subst hc
                    refine ⟨by simp [Kind.Holds], ?_⟩
                    cases cs with
                    | nil => rfl
                    | cons d cs => simp [splitWord, Prod.map] at heq
                · cases h
            · next chars tail hne heq =>
                cases h
                rw [heq] at hword hstop
                exact ⟨by simpa [cut, Kind.Holds] using hword, hstop⟩

/-- A character that neither is space nor a digit nor starts a comparison, and is no token by
itself, starts a word if anything. -/
theorem lex?_eq_of_splitWord {c : Char} {cs chars rest : List Char}
    (hc : isReserved c = false ∨ c = '\\') (hsplit : splitWord (c :: cs) = (chars, rest))
    (hne : chars ≠ []) : lex? c cs = some (⟨.word, String.ofList chars⟩, rest) := by
  have hplain : Text.isLineEnd c = false ∧ Text.isBlank c = false ∧ ¬ (c = '<' ∨ c = '>') ∧
      punctuation? c = none ∧ c.isDigit = false := by
    rcases hc with hc | rfl
    · obtain ⟨hblank, hdigit, -, -, hlt, hgt⟩ := not_isReserved_imp hc
      exact ⟨not_isLineEnd_of_not_isBlank hblank, hblank, by simp [hlt, hgt],
        punctuation?_eq_none_of_not_isReserved hc, hdigit⟩
    · decide
  obtain ⟨hend, hblank, hcmp, hpunct, hdigit⟩ := hplain
  unfold lex?
  simp only [hend, hblank, hcmp, hpunct, hdigit, hsplit, Bool.false_eq_true, if_false]
  rfl

theorem lex?_eq_of_comparison {c : Char} (cs : List Char) (hc : c = '<' ∨ c = '>') :
    (∀ rest, cs = '=' :: rest → lex? c cs = some (⟨.comparison, String.ofList [c, '=']⟩, rest)) ∧
      (cs.head? ≠ some '=' → lex? c cs = some (⟨.comparison, String.ofList [c]⟩, cs)) := by
  have hblank : Text.isBlank c = false := by
    rcases hc with rfl | rfl <;> decide
  have hline := not_isLineEnd_of_not_isBlank hblank
  unfold lex?
  simp only [hline, hblank, hc, Bool.false_eq_true, if_false, if_true]
  constructor
  · rintro rest rfl
    rfl
  · intro hhead
    split
    · simp at hhead
    · rfl

/-- A text of some class is cut off as a whole, unless what follows could extend it. -/
theorem lex?_eq_of_append {t : Token} {c : Char} {cs rest : List Char} (ht : t.Lexical)
    (hend : t.EndsBefore rest) (happ : t.text.toList ++ rest = c :: cs) :
    lex? c cs = some (t, rest) := by
  obtain ⟨kind, text⟩ := t
  obtain ⟨hne, hholds⟩ := ht
  obtain ⟨tail, htext⟩ : ∃ tail, text.toList = c :: tail := by
    cases hlist : text.toList with
    | nil => exact absurd (String.toList_eq_nil_iff.mp hlist) hne
    | cons d tail =>
        simp only [hlist, List.cons_append, List.cons.injEq] at happ
        exact ⟨tail, by rw [happ.1]⟩
  have hmem : c ∈ text.toList := by simp [htext]
  have hofList : String.ofList text.toList = text := String.ofList_toList
  have hsymbol : ∀ k : Kind, (∃ d ∈ k.symbols, text.toList = [d]) →
      lex? c cs = some (⟨k, text⟩, rest) := by
    intro k hk
    obtain ⟨d, hd, hdtext⟩ := hk
    rw [htext, List.cons.injEq] at hdtext
    obtain ⟨rfl, rfl⟩ := hdtext
    obtain ⟨hblank, -, -, -, -, hlt, hgt⟩ := symbols_disjoint hd
    have hline := not_isLineEnd_of_not_isBlank hblank
    rw [htext] at happ hofList
    simp only [List.cons_append, List.nil_append, List.cons.injEq, true_and] at happ
    unfold lex?
    simp [hline, hblank, hlt, hgt, punctuation?_eq_some_iff.mpr hd, cut, hofList, happ]
  cases kind with
  | lineEnd =>
      unfold lex?
      rw [if_pos (hholds c hmem), ← happ, cutRun_eq_of_append hholds hend, hofList]
  | blank =>
      obtain ⟨hblank, hline⟩ := hholds c hmem
      have hrun : ∀ d ∈ text.toList, (Text.isBlank d && !Text.isLineEnd d) = true := by
        intro d hd
        simp [hholds d hd]
      unfold lex?
      rw [if_neg (by simp [hline]), if_pos hblank, ← happ, cutRun_eq_of_append hrun hend, hofList]
  | number =>
      have hdigit := hholds c hmem
      have hblank := not_isBlank_of_isDigit hdigit
      have hline := not_isLineEnd_of_not_isBlank hblank
      have hcmp : ¬ (c = '<' ∨ c = '>') := by
        rintro (rfl | rfl) <;> revert hdigit <;> decide
      have hpunct : punctuation? c = none := by
        cases hk : punctuation? c with
        | none => rfl
        | some k => simp [(symbols_disjoint (punctuation?_eq_some_iff.mp hk)).2.1] at hdigit
      unfold lex?
      simp only [hline, hblank, hcmp, hpunct, hdigit, Bool.false_eq_true, if_false, if_true]
      rw [← happ, cutRun_eq_of_append hholds hend, hofList]
  | word =>
      have hsplit := splitWord_eq_of_append hholds hend
      rw [happ] at hsplit
      have hstart : isReserved c = false ∨ c = '\\' := by
        have hword : IsWordText (c :: tail) := htext ▸ hholds
        cases hword with
        | plain hc _ => exact Or.inl hc
        | escaped d _ => exact Or.inr rfl
      rw [lex?_eq_of_splitWord hstart hsplit (by simp [htext]), hofList]
  | comparison =>
      have hchars : text.toList = ['<'] ∨ text.toList = ['<', '='] ∨ text.toList = ['>'] ∨
          text.toList = ['>', '='] := hholds
      have hsign : c = '<' ∨ c = '>' := by
        rw [htext] at hchars
        simp only [List.cons.injEq] at hchars
        rcases hchars with h | h | h | h <;> simp [h.1]
      have hlex := lex?_eq_of_comparison cs hsign
      rcases hchars with h | h | h | h <;> rw [h] at happ hofList <;>
        simp only [List.cons_append, List.nil_append, List.cons.injEq] at happ <;>
        obtain ⟨rfl, rfl⟩ := happ
      · rw [hlex.2 (hend (by simp [h])), hofList]
      · rw [hlex.1 rest rfl, hofList]
      · rw [hlex.2 (hend (by simp [h])), hofList]
      · rw [hlex.1 rest rfl, hofList]
  | backslash =>
      have hrest : rest = [] := hend
      have hchars : text.toList = ['\\'] := hholds
      simp only [hchars, hrest, List.append_nil, List.cons.injEq] at happ
      obtain ⟨rfl, rfl⟩ := happ
      rw [hchars] at hofList
      subst hofList hrest
      rfl
  | _ => exact hsymbol _ hholds

end Token

end SearchQuery
