import Mathlib.Data.List.Chain
import Mathlib.Data.Set.Subsingleton
import SearchQuery.Proofs.Token.Class
import SearchQuery.Proofs.Token.Collecting

/-!
The token lists that texts split into. A list is segmented if every token is in its class, no two
runs of one kind meet, and a lone backslash comes last; `tokenize` finds the one segmented list
whose texts make up its input.
-/

namespace SearchQuery

namespace Token

/-- The characters of a run of tokens. -/
def chars (ts : List Token) : List Char :=
  ts.flatMap fun t => t.text.toList

/-- One token may stand right before the other: they would not fuse, and no backslash is left to
escape what follows it. -/
def Apart (t u : Token) : Prop :=
  t.kind ≠ .backslash ∧ (t.kind.isRun = true → t.kind ≠ u.kind)

instance : DecidableRel Apart :=
  fun _ _ => inferInstanceAs (Decidable (_ ∧ _))

/-- A token list that some text splits into. -/
structure Segmented (ts : List Token) : Prop where
  lexical : ∀ t ∈ ts, t.Lexical
  apart : ts.IsChain Apart

instance : DecidablePred Segmented :=
  fun ts => decidable_of_iff ((∀ t ∈ ts, t.Lexical) ∧ ts.IsChain Apart)
    ⟨fun h => ⟨h.1, h.2⟩, fun h => ⟨h.1, h.2⟩⟩

/-- The tokens of a list at their byte offsets, the first one at `pos`. -/
def locate (pos : Nat) : List Token → List Located
  | [] => []
  | t :: ts => ⟨pos, t⟩ :: locate (pos + t.text.utf8ByteSize) ts

@[simp]
theorem chars_nil : chars [] = [] := rfl

@[simp]
theorem chars_cons (t : Token) (ts : List Token) : chars (t :: ts) = t.text.toList ++ chars ts := by
  simp [chars]

@[simp]
theorem chars_append (ts us : List Token) : chars (ts ++ us) = chars ts ++ chars us := by
  simp [chars]

@[simp]
theorem toList_join (ts : List Token) : (join ts).toList = chars ts := by
  simp [join, chars, List.flatMap, Function.comp_def]

@[simp]
theorem map_token_locate (pos : Nat) (ts : List Token) :
    (locate pos ts).map Located.token = ts := by
  induction ts generalizing pos with
  | nil => rfl
  | cons t ts ih => simp [locate, ih]

theorem bytes_append (ts us : List Token) : bytes (ts ++ us) = bytes ts + bytes us := by
  induction ts with
  | nil => simp [bytes]
  | cons t ts ih =>
      simp only [bytes, List.cons_append, List.foldr_cons] at ih ⊢
      rw [ih, Nat.add_assoc]

theorem utf8ByteSize_join (ts : List Token) : (join ts).utf8ByteSize = bytes ts := by
  induction ts with
  | nil => rfl
  | cons t ts ih =>
      have hjoin : join (t :: ts) = t.text ++ join ts := by simp [join]
      rw [hjoin, String.utf8ByteSize_append, ih]
      rfl

/-! ### Runs of a segmented list -/

theorem segmented_nil : Segmented [] :=
  ⟨nofun, .nil⟩

theorem segmented_append {ts us : List Token} :
    Segmented (ts ++ us) ↔
      Segmented ts ∧ Segmented us ∧ ∀ t ∈ ts.getLast?, ∀ u ∈ us.head?, Apart t u := by
  constructor
  · intro h
    obtain ⟨hts, hus, hborder⟩ := List.isChain_append.mp h.apart
    exact ⟨⟨fun t ht => h.lexical t (List.mem_append_left us ht), hts⟩,
      ⟨fun t ht => h.lexical t (List.mem_append_right ts ht), hus⟩, hborder⟩
  · rintro ⟨hts, hus, hborder⟩
    refine ⟨fun t ht => ?_, List.isChain_append.mpr ⟨hts.apart, hus.apart, hborder⟩⟩
    rcases List.mem_append.mp ht with ht | ht
    · exact hts.lexical t ht
    · exact hus.lexical t ht

theorem segmented_cons {t : Token} {ts : List Token} :
    Segmented (t :: ts) ↔ t.Lexical ∧ Segmented ts ∧ ∀ u ∈ ts.head?, Apart t u := by
  constructor
  · intro h
    obtain ⟨hborder, hts⟩ := List.isChain_cons.mp h.apart
    exact ⟨h.lexical t List.mem_cons_self,
      ⟨fun u hu => h.lexical u (List.mem_cons_of_mem t hu), hts⟩, hborder⟩
  · rintro ⟨ht, hts, hborder⟩
    refine ⟨fun u hu => ?_, List.isChain_cons.mpr ⟨hborder, hts.apart⟩⟩
    rcases List.mem_cons.mp hu with rfl | hu
    · exact ht
    · exact hts.lexical u hu

theorem Segmented.of_infix {ts us : List Token} (h : Segmented us) (hts : ts <:+: us) :
    Segmented ts :=
  ⟨fun t ht => h.lexical t (hts.subset ht), h.apart.infix hts⟩

theorem Segmented.of_suffix {ts us : List Token} (h : Segmented us) (hts : ts <:+ us) :
    Segmented ts :=
  h.of_infix hts.isInfix

/-! ### First characters -/

theorem Lexical.exists_cons {t : Token} (h : t.Lexical) : ∃ c cs, t.text.toList = c :: cs := by
  cases hlist : t.text.toList with
  | nil => exact absurd (String.toList_eq_nil_iff.mp hlist) h.1
  | cons c cs => exact ⟨c, cs, rfl⟩

/-- The first character of a token, kind by kind. -/
theorem Lexical.first_cases {t : Token} (h : t.Lexical) {c : Char} {cs : List Char}
    (htext : t.text.toList = c :: cs) :
    (t.kind = .lineEnd ∧ Text.isLineEnd c = true) ∨
      (t.kind = .blank ∧ Text.isBlank c = true ∧ Text.isLineEnd c = false) ∨
      (t.kind = .number ∧ c.isDigit = true) ∨
      (t.kind = .word ∧ (isReserved c = false ∨ c = '\\')) ∨
      (t.kind = .comparison ∧ (c = '<' ∨ c = '>')) ∨
      (t.kind = .backslash ∧ c = '\\') ∨
      c ∈ t.kind.symbols := by
  obtain ⟨kind, text⟩ := t
  obtain ⟨-, hholds⟩ := h
  simp only [htext] at hholds
  cases kind
  case lineEnd => exact Or.inl ⟨rfl, hholds c List.mem_cons_self⟩
  case blank => exact Or.inr (Or.inl ⟨rfl, hholds c List.mem_cons_self⟩)
  case number => simp [hholds c List.mem_cons_self]
  case word =>
    have hword : IsWordText (c :: cs) := hholds
    cases hword with
    | plain hc _ => simp [hc]
    | escaped d _ => simp
  case comparison =>
    rcases hholds with h | h | h | h <;> simp only [List.cons.injEq] at h <;> simp [h.1]
  case backslash =>
    simp only [Kind.Holds, List.cons.injEq] at hholds
    simp [hholds.1]
  all_goals
    obtain ⟨d, hd, heq⟩ := hholds
    simp only [List.cons.injEq] at heq
    simp [heq.1, hd]

/-- The first character of a token tells the classes of runs apart. -/
theorem Lexical.kind_of_first {t : Token} (h : t.Lexical) {c : Char} {cs : List Char}
    (htext : t.text.toList = c :: cs) :
    (Text.isLineEnd c = true → t.kind = .lineEnd) ∧
      (Text.isBlank c = true → Text.isLineEnd c = false → t.kind = .blank) ∧
      (c.isDigit = true → t.kind = .number) ∧ c ≠ '=' ∧
      (t.kind ≠ .word → t.kind ≠ .backslash → isReserved c = true ∧ c ≠ '\\') := by
  rcases h.first_cases htext with ⟨hk, hc⟩ | ⟨hk, hc, hline⟩ | ⟨hk, hc⟩ | ⟨hk, hc⟩ | ⟨hk, hc⟩ |
    ⟨hk, hc⟩ | hc
  · have hcases : c = '\n' ∨ c = '\r' := by simpa [Text.isLineEnd] using hc
    rw [hk]
    rcases hcases with rfl | rfl <;> decide
  · have hdigit : c.isDigit = false := by
      cases hd : c.isDigit with
      | false => rfl
      | true => simp [not_isBlank_of_isDigit hd] at hc
    refine ⟨by simp [hline], fun _ _ => hk, by simp [hdigit], ?_, fun _ _ => ⟨?_, ?_⟩⟩
    · rintro rfl
      revert hc
      decide
    · simp [isReserved, hc]
    · rintro rfl
      revert hc
      decide
  · have hblank := not_isBlank_of_isDigit hc
    refine ⟨by simp [not_isLineEnd_of_not_isBlank hblank], by simp [hblank], fun _ => hk, ?_,
      fun _ _ => ⟨?_, ?_⟩⟩
    · rintro rfl
      revert hc
      decide
    · simp [isReserved, hc]
    · rintro rfl
      revert hc
      decide
  · rcases hc with hc | rfl
    · obtain ⟨hblank, hdigit, -, heq, -⟩ := not_isReserved_imp hc
      simp [not_isLineEnd_of_not_isBlank hblank, hblank, hdigit, heq, hk]
    · rw [hk]
      decide
  · rw [hk]
    rcases hc with rfl | rfl <;> decide
  · rw [hk, hc]
    decide
  · obtain ⟨hblank, hdigit, hreserved, hback, heq, -⟩ := symbols_disjoint hc
    have hline := not_isLineEnd_of_not_isBlank hblank
    simp [hblank, hdigit, hreserved, hback, heq, hline]

/-- Tokens of space are made of blanks. -/
theorem Lexical.isBlank_of_isSpace {t : Token} (h : t.Lexical) (hspace : t.isSpace = true) :
    ∀ c ∈ t.text.toList, Text.isBlank c = true := by
  obtain ⟨kind, text⟩ := t
  have hholds := h.2
  cases kind <;> try cases hspace
  case lineEnd => exact fun c hc => Text.isBlank_of_isLineEnd (hholds c hc)
  case blank => exact fun c hc => (hholds c hc).1

/-- Tokens of space are those that start with a blank. -/
theorem Lexical.isSpace_eq_isBlank {t : Token} (h : t.Lexical) {c : Char} {cs : List Char}
    (htext : t.text.toList = c :: cs) : t.isSpace = Text.isBlank c := by
  rw [Bool.eq_iff_iff]
  constructor
  · intro hspace
    exact h.isBlank_of_isSpace hspace c (by simp [htext])
  · intro hc
    obtain ⟨hline, hblank, -, -, -⟩ := h.kind_of_first htext
    cases hend : Text.isLineEnd c with
    | true => rw [isSpace, hline hend, Kind.isSpace]
    | false => rw [isSpace, hblank hc hend, Kind.isSpace]

/-! ### Borders between tokens -/

theorem endsBefore_nil (t : Token) : t.EndsBefore [] := by
  obtain ⟨kind, text⟩ := t
  cases kind <;> simp [EndsBefore, splitWord]

theorem Segmented.endsBefore {t : Token} {ts : List Token} (h : Segmented (t :: ts)) :
    t.EndsBefore (chars ts) := by
  obtain ⟨-, hts, hborder⟩ := segmented_cons.mp h
  cases ts with
  | nil => exact endsBefore_nil t
  | cons u us =>
      obtain ⟨hu, hus, hnext⟩ := segmented_cons.mp hts
      obtain ⟨hback, hrun⟩ := hborder u rfl
      obtain ⟨c, cs, htext⟩ := hu.exists_cons
      obtain ⟨hline, hblank, hdigit, heq, hword⟩ := hu.kind_of_first htext
      obtain ⟨kind, text⟩ := t
      rw [chars_cons, htext, List.cons_append]
      cases kind <;>
        simp only [EndsBefore, List.head?_cons, Option.mem_def, Option.some.injEq, forall_eq']
      case lineEnd =>
        by_contra hc
        exact hrun rfl (hline (by simpa using hc)).symm
      case blank =>
        by_contra hc
        simp only [Bool.not_eq_false, Bool.and_eq_true, Bool.not_eq_true'] at hc
        exact hrun rfl (hblank hc.1 hc.2).symm
      case number =>
        by_contra hc
        exact hrun rfl (hdigit (by simpa using hc)).symm
      case word =>
        by_cases hkind : u.kind = .backslash
        · -- A lone backslash has nothing after it, so it starts no escape.
          have hnil : us = [] := by
            cases us with
            | nil => rfl
            | cons v vs => exact absurd hkind (hnext v rfl).1
          have hchars : u.text.toList = ['\\'] := by
            have hholds := hu.2
            rwa [hkind] at hholds
          rw [htext, List.cons.injEq] at hchars
          rw [hchars.1, hchars.2, hnil]
          rfl
        · obtain ⟨hreserved, hne⟩ := hword (hrun rfl).symm hkind
          rw [splitWord_cons_of_isReserved hne hreserved]
      case comparison =>
        intro _
        simpa using heq
      case backslash => exact absurd rfl hback

theorem splitWord_append_ne_nil {cs : List Char} (hne : cs ≠ []) (h : IsWordText cs)
    (rest : List Char) : (splitWord (cs ++ rest)).1 ≠ [] := by
  cases h with
  | nil => exact absurd rfl hne
  | plain hc _ => simp [splitWord_cons_of_not_isReserved hc]
  | escaped c _ => simp [splitWord]

theorem Lexical.apart_of_endsBefore {t u : Token} {rest : List Char} (hu : u.Lexical)
    (h : t.EndsBefore (u.text.toList ++ rest)) : Apart t u := by
  obtain ⟨c, cs, htext⟩ := hu.exists_cons
  have hmem : c ∈ u.text.toList := by simp [htext]
  have hne : u.text.toList ≠ [] := by simp [htext]
  have hhead : c ∈ (u.text.toList ++ rest).head? := by simp [htext]
  have hholds := hu.2
  constructor
  · intro hkind
    simp only [EndsBefore, hkind] at h
    exact hne (List.append_eq_nil_iff.mp h).1
  · intro hrun hkind
    rw [← hkind] at hholds
    obtain ⟨kind, text⟩ := t
    cases kind <;> simp only [Kind.isRun, Bool.false_eq_true] at hrun
    case lineEnd => simpa [hholds c hmem] using h c hhead
    case blank => simpa [hholds c hmem] using h c hhead
    case number => simpa [hholds c hmem] using h c hhead
    case word => exact splitWord_append_ne_nil hne hholds rest h

end Token

/-! ### Runs of the splitter -/

namespace Splitter

open Token (Located chars locate Segmented)

theorem Run.result_cons_eq_ok_iff {r : Run} {t : Located} {ts : List Located} :
    (r.cons t).result = .ok ts ↔ ∃ us, ts = t :: us ∧ r.result = .ok us := by
  rw [Run.result_cons]
  cases r.result <;> simp [Except.map, eq_comm]

theorem run_result_eq_ok_nil_iff {l : Splitter} : l.run.result = .ok [] ↔ l.rest = [] := by
  rw [run_eq]
  cases hstep : l.step with
  | done =>
      have hrest : l.rest = [] := by
        unfold step at hstep
        split at hstep
        · assumption
        · split at hstep <;> cases hstep
      simp [Run.result, Step.error?, hrest]
  | token t after =>
      have hrest : l.rest ≠ [] := by
        obtain ⟨-, -, c, cs, hrest, -⟩ := step_eq_token_iff.mp hstep
        simp [hrest]
      simp [Run.result_cons_eq_ok_iff, hrest]
  | stuck e =>
      have hrest : l.rest ≠ [] := by
        intro hrest
        simp [step, hrest] at hstep
      simp [Run.result, Step.error?, hrest]

theorem run_result_eq_ok_cons_iff {l : Splitter} {t : Located} {ts : List Located} :
    l.run.result = .ok (t :: ts) ↔
      ∃ after, l.step = .token t after ∧ after.run.result = .ok ts := by
  rw [run_eq]
  cases hstep : l.step with
  | done => simp [Run.result, Step.error?]
  | stuck e => simp [Run.result, Step.error?]
  | token u after =>
      simp only [Run.result_cons_eq_ok_iff, List.cons.injEq, Step.token.injEq]
      constructor
      · rintro ⟨us, ⟨rfl, rfl⟩, hts⟩
        exact ⟨after, ⟨rfl, rfl⟩, hts⟩
      · rintro ⟨_, ⟨rfl, rfl⟩, hts⟩
        exact ⟨ts, ⟨rfl, rfl⟩, hts⟩

/-- A run to the end of the text finds the segmented list of its characters, each token at the
offset of its first byte. -/
theorem run_result_eq_ok_iff {l : Splitter} {ts : List Located} :
    l.run.result = .ok ts ↔
      chars (ts.map Located.token) = l.rest ∧ Segmented (ts.map Located.token) ∧
        ts = locate l.pos (ts.map Located.token) := by
  induction ts generalizing l with
  | nil =>
      rw [run_result_eq_ok_nil_iff]
      simp [locate, Token.segmented_nil, eq_comm]
  | cons t ts ih =>
      rw [run_result_eq_ok_cons_iff]
      constructor
      · rintro ⟨after, hstep, hrun⟩
        obtain ⟨hpos, hafter, c, cs, hrest, hlex⟩ := step_eq_token_iff.mp hstep
        obtain ⟨hchars, hseg, hlocate⟩ := ih.mp hrun
        obtain ⟨happ, hne⟩ := Token.lex?_eq_some_imp hlex
        obtain ⟨hholds, hends⟩ := Token.holds_and_endsBefore_of_lex? hlex
        have hlexical : t.token.Lexical := ⟨by simpa using hne, hholds⟩
        refine ⟨?_, ?_, ?_⟩
        · rw [List.map_cons, Token.chars_cons, hchars, happ, hrest]
        · rw [List.map_cons, Token.segmented_cons]
          refine ⟨hlexical, hseg, ?_⟩
          intro u hu
          have hborder :
              t.token.EndsBefore (u.text.toList ++ chars (ts.map Located.token).tail) := by
            rw [← Token.chars_cons, List.cons_head?_tail hu, hchars]
            exact hends
          exact (hseg.lexical u (List.mem_of_mem_head? hu)).apart_of_endsBefore hborder
        · rw [List.map_cons, locate, ← hpos]
          rw [hafter, ← hpos] at hlocate
          rw [← hlocate]
      · rintro ⟨hchars, hseg, hlocate⟩
        rw [List.map_cons] at hchars hseg
        rw [List.map_cons, locate, List.cons.injEq] at hlocate
        obtain ⟨hlexical, hrest, -⟩ := Token.segmented_cons.mp hseg
        obtain ⟨c, cs, hl⟩ : ∃ c cs, l.rest = c :: cs := by
          obtain ⟨c, cs, htext⟩ := hlexical.exists_cons
          exact ⟨c, _, by rw [← hchars, Token.chars_cons, htext, List.cons_append]⟩
        rw [Token.chars_cons, hl] at hchars
        have hlex := Token.lex?_eq_of_append hlexical hseg.endsBefore hchars
        refine ⟨⟨chars (ts.map Located.token), l.pos + t.token.text.utf8ByteSize⟩, ?_, ?_⟩
        · rw [step_eq_token_iff]
          exact ⟨by rw [hlocate.1], rfl, c, cs, hl, hlex⟩
        · exact ih.mpr ⟨rfl, hrest, hlocate.2⟩

end Splitter

/-! ### Whole texts -/

open Token (Located Segmented locate)

theorem tokenize_eq_ok_iff {s : String} {ts : List Located} :
    tokenize s = .ok ts ↔
      Token.join (ts.map Located.token) = s ∧ Segmented (ts.map Located.token) ∧
        ts = locate 0 (ts.map Located.token) := by
  rw [tokenize_eq, Splitter.run_result_eq_ok_iff, ← String.toList_inj, Token.toList_join]
  rfl

namespace Token

/-- The text splits into exactly these tokens, wherever they stand in it. -/
def SplitsInto (s : String) (ts : List Token) : Prop :=
  (tokenize s).map (List.map Located.token) = .ok ts

instance (s : String) (ts : List Token) : Decidable (SplitsInto s ts) :=
  inferInstanceAs (Decidable (_ = _))

theorem splitsInto_iff {s : String} {ts : List Token} :
    SplitsInto s ts ↔ join ts = s ∧ Segmented ts := by
  constructor
  · intro h
    unfold SplitsInto at h
    cases htokens : tokenize s with
    | error e => simp [htokens, Except.map] at h
    | ok located =>
        obtain ⟨hjoin, hseg, -⟩ := tokenize_eq_ok_iff.mp htokens
        have hmap : located.map Located.token = ts := by simpa [htokens, Except.map] using h
        rw [hmap] at hjoin hseg
        exact ⟨hjoin, hseg⟩
  · rintro ⟨rfl, hseg⟩
    have htokens : tokenize (join ts) = .ok (locate 0 ts) := by
      rw [tokenize_eq_ok_iff, map_token_locate]
      exact ⟨rfl, hseg, rfl⟩
    simp [SplitsInto, htokens, Except.map]

/-- A division of `s` into tokens that keeps every character, with the offsets counted in bytes,
every token in its class, no two runs of one kind side by side, and a lone backslash only at the
end. -/
structure Segments (s : String) (ts : List Located) : Prop where
  texts : join (ts.map Located.token) = s
  offsets : ∀ before t after, ts = before ++ t :: after →
    t.pos = bytes (before.map Located.token)
  lexical : ∀ t ∈ ts, t.token.text ≠ "" ∧ t.token.kind.Holds t.token.text.toList
  unfused : ∀ before t u after, ts = before ++ t :: u :: after →
    ¬ (t.token.kind = u.token.kind ∧ t.token.kind ∈ [.word, .number, .blank, .lineEnd])
  backslash_last : ∀ before t after, ts = before ++ t :: after →
    t.token.kind = .backslash → after = []

theorem eq_locate_iff {p : Nat} {ts : List Located} :
    ts = locate p (ts.map Located.token) ↔
      ∀ before t after, ts = before ++ t :: after →
        t.pos = p + bytes (before.map Located.token) := by
  induction ts generalizing p with
  | nil => simp [locate]
  | cons u ts ih =>
      rw [List.map_cons, locate, List.cons.injEq, ih]
      constructor
      · rintro ⟨hu, hts⟩ before t after heq
        cases before with
        | nil =>
            rw [List.nil_append, List.cons.injEq] at heq
            rw [← heq.1, hu]
            rfl
        | cons v before =>
            rw [List.cons_append, List.cons.injEq] at heq
            obtain ⟨rfl, heq⟩ := heq
            rw [hts before t after heq]
            simp [bytes, Nat.add_assoc]
      · intro h
        refine ⟨?_, ?_⟩
        · have hpos := h [] u ts rfl
          obtain ⟨pos, token⟩ := u
          simpa [bytes] using hpos
        · intro before t after heq
          rw [h (u :: before) t after (by rw [heq, List.cons_append])]
          simp [bytes, Nat.add_assoc]

theorem Kind.isRun_iff (k : Kind) : k.isRun = true ↔ k ∈ [.word, .number, .blank, .lineEnd] := by
  cases k <;> decide

theorem segmented_map_iff {ts : List Located} :
    Segmented (ts.map Located.token) ↔
      (∀ t ∈ ts, t.token.Lexical) ∧
        (∀ before t u after, ts = before ++ t :: u :: after →
          ¬ (t.token.kind = u.token.kind ∧ t.token.kind ∈ [.word, .number, .blank, .lineEnd])) ∧
        ∀ before t after, ts = before ++ t :: after → t.token.kind = .backslash → after = [] := by
  constructor
  · rintro ⟨hlexical, hchain⟩
    rw [List.isChain_map, List.isChain_iff_forall_rel_of_append_cons_cons] at hchain
    refine ⟨fun t ht => hlexical _ (List.mem_map_of_mem ht), ?_, ?_⟩
    · rintro before t u after heq ⟨hkind, hmem⟩
      exact (hchain heq).2 ((Kind.isRun_iff _).mpr hmem) hkind
    · intro before t after heq hkind
      cases after with
      | nil => rfl
      | cons u after => exact absurd hkind (hchain heq).1
  · rintro ⟨hlexical, hfused, hback⟩
    refine ⟨?_, ?_⟩
    · intro t ht
      obtain ⟨u, hu, rfl⟩ := List.mem_map.mp ht
      exact hlexical u hu
    · rw [List.isChain_map, List.isChain_iff_forall_rel_of_append_cons_cons]
      intro t u before after heq
      refine ⟨?_, ?_⟩
      · intro hkind
        exact absurd (hback before t (u :: after) heq hkind) (List.cons_ne_nil u after)
      · intro hisRun hkind
        exact hfused before t u after heq ⟨hkind, (Kind.isRun_iff _).mp hisRun⟩

theorem segments_iff {s : String} {ts : List Located} :
    Segments s ts ↔
      join (ts.map Located.token) = s ∧ Segmented (ts.map Located.token) ∧
        ts = locate 0 (ts.map Located.token) := by
  rw [segmented_map_iff, eq_locate_iff]
  simp only [Nat.zero_add]
  constructor
  · intro h
    exact ⟨h.texts, ⟨h.lexical, h.unfused, h.backslash_last⟩, h.offsets⟩
  · rintro ⟨htexts, ⟨hlexical, hunfused, hback⟩, hoffsets⟩
    exact ⟨htexts, hoffsets, hlexical, hunfused, hback⟩

end Token

/-- Splitting a text finds its one segmentation. -/
theorem tokenize_eq_ok_iff_segments (s : String) (ts : List Located) :
    (tokenize s = .ok ts ↔ Token.Segments s ts) ∧ {us | Token.Segments s us}.Subsingleton := by
  have hiff : ∀ us, tokenize s = .ok us ↔ Token.Segments s us := by
    intro us
    rw [tokenize_eq_ok_iff, Token.segments_iff]
  refine ⟨hiff ts, ?_⟩
  intro us hus vs hvs
  have heq := ((hiff us).mpr hus).symm.trans ((hiff vs).mpr hvs)
  exact Except.ok.inj heq

-- An escaped blank belongs to the word, and a backslash with nothing to escape stands alone.
example : Token.SplitsInto "a\\ 1\\" [⟨.word, "a\\ "⟩, ⟨.number, "1"⟩, ⟨.backslash, "\\"⟩] := by
  decide +kernel

end SearchQuery
