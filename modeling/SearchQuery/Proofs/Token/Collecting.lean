import SearchQuery.Token.Tokenize

/-!
Lexers and splitters. Between two characters of its text a lexer finds what a splitter finds in the
rest of the text, so splitting a text to its end never fails but at a character that starts no
token.
-/

namespace SearchQuery

open Token (Located)

/-! ### Splitters -/

namespace Splitter

theorem step_eq_token_iff {l after : Splitter} {t : Located} :
    l.step = .token t after ↔
      t.pos = l.pos ∧ after.pos = l.pos + t.token.text.utf8ByteSize ∧
        ∃ c cs, l.rest = c :: cs ∧ Token.lex? c cs = some (t.token, after.rest) := by
  unfold step
  constructor
  · intro h
    split at h
    · cases h
    · next c cs hrest =>
        split at h
        · next u rest hlex =>
            cases h
            exact ⟨rfl, rfl, c, cs, hrest, hlex⟩
        · cases h
  · rintro ⟨hpos, hafter, c, cs, hrest, hlex⟩
    obtain ⟨pos, token⟩ := t
    obtain ⟨rest, next⟩ := after
    simp only at hpos hafter hlex
    simp [hrest, hlex, hpos, hafter]

theorem run_eq (l : Splitter) :
    l.run = match l.step with
      | .token t after => after.run.cons t
      | stop => ⟨[], l, stop.error?⟩ := by
  rw [run]
  split
  · next h => simp only [h]
  · simp only

theorem Run.result_cons (t : Located) (r : Run) :
    (r.cons t).result = r.result.map (t :: ·) := by
  obtain ⟨tokens, stop, error?⟩ := r
  cases error? <;> rfl

end Splitter

/-! ### Lexers -/

namespace Lexer

variable {l : Lexer} {front back : List Char}

theorem between_ofString (s : String) : (ofString s).Between [] s.toList :=
  ⟨rfl, rfl⟩

/-- The lexer at an offset of its text. -/
def moveTo (l : Lexer) (pos : Nat) : Lexer :=
  { l with pos }

namespace Between

theorem run_next (h : l.Between front back) :
    l.run next = match (Splitter.mk back l.pos).step with
      | .done => (.ok none, l)
      | .token t after => (.ok (some (.ok t)), l.moveTo after.pos)
      | .stuck e => (.ok (some (.error e)), l) := by
  rw [Lexer.run_next, h.run_nextToken, Splitter.step]
  cases back with
  | nil => rfl
  | cons c cs =>
      cases hlex : Token.lex? c cs with
      | none => simp only [hlex]
      | some found => simp [hlex, Lexer.skip, Lexer.moveTo, Text.size_toList]

/-- Behind a token the lexer stands between two characters again. -/
theorem moveTo (h : l.Between front back) {t : Located} {after : Splitter}
    (hstep : (Splitter.mk back l.pos).step = .token t after) :
    (l.moveTo after.pos).Between (front ++ t.token.text.toList) after.rest := by
  obtain ⟨-, hafter, c, cs, hback, hlex⟩ := Splitter.step_eq_token_iff.mp hstep
  obtain ⟨happ, -⟩ := Token.lex?_eq_some_imp hlex
  simp only at hback hafter
  refine ⟨?_, ?_⟩
  · rw [List.append_assoc, happ, ← hback]
    exact h.input
  · rw [Lexer.moveTo, hafter, h.pos, Text.size_append, Text.size_toList]

theorem collect (h : l.Between front back) :
    l.collect = ((Splitter.mk back l.pos).run.result.mapError .error,
      l.moveTo (Splitter.mk back l.pos).run.stop.pos) := by
  fun_induction Lexer.collect l generalizing front back with
  | case2 l m t hnext _ ih =>
      rw [Splitter.run_eq]
      cases hstep : (Splitter.mk back l.pos).step with
      | done | stuck => simp [h.run_next, hstep] at hnext
      | token u after =>
          simp only [h.run_next, hstep, Prod.mk.injEq, Except.ok.injEq, Option.some.injEq] at hnext
          obtain ⟨rfl, rfl⟩ := hnext
          have hrest : Splitter.mk after.rest (l.moveTo after.pos).pos = after := rfl
          rw [ih (h.moveTo hstep), hrest]
          simp only [Splitter.Run.result_cons]
          cases after.run.result <;> rfl
  | case1 l m hnext | case3 l m e hnext | case4 l m halt hnext =>
      rw [Splitter.run_eq]
      cases hstep : (Splitter.mk back l.pos).step <;> simp [h.run_next, hstep] at hnext <;>
        obtain ⟨rfl, rfl⟩ := hnext <;> rfl

end Between

/-- The lexer stands behind `front` in the text. -/
structure StandsBehind (l : Lexer) (front s : String) : Prop where
  input : l.input = s.toList
  within : front.toList <+: s.toList
  pos : l.pos = front.utf8ByteSize

theorem standsBehind_ofString (s : String) : (ofString s).StandsBehind "" s :=
  ⟨rfl, List.nil_prefix, rfl⟩

/-- A call for the next token takes the lexer behind that token, which starts where the lexer was.
It leaves the lexer where it was if there is none, which is so at the end of the text and at a
character that starts no token; and it never slices out of range. -/
theorem StandsBehind.run_nextToken {front s : String} (h : l.StandsBehind front s) :
    match l.run nextToken with
    | (.ok none, m) => m = l ∧ l.pos = s.utf8ByteSize
    | (.ok (some t), m) =>
        t.pos = l.pos ∧ l.pos < m.pos ∧ m.StandsBehind (front ++ t.token.text) s
    | (.error (.error _), m) => m = l ∧ l.pos ≠ s.utf8ByteSize
    | (.error (.panic _), _) => False := by
  obtain ⟨back, hback⟩ := h.within
  have hpos : l.pos = Text.size front.toList := h.pos.trans (Text.size_toList front).symm
  have hbetween : l.Between front.toList back := ⟨h.input.trans hback.symm, hpos⟩
  have hsize : s.utf8ByteSize = l.pos + Text.size back := by
    rw [← Text.size_toList, ← hback, Text.size_append, hpos]
  rw [hbetween.run_nextToken]
  cases back with
  | nil => exact ⟨rfl, hsize.symm⟩
  | cons c cs =>
      have hne : l.pos ≠ s.utf8ByteSize := by
        have := Text.size_pos (List.cons_ne_nil c cs)
        omega
      cases hlex : Token.lex? c cs with
      | none =>
          simp only [hlex]
          exact ⟨trivial, hne⟩
      | some found =>
          obtain ⟨t, rest⟩ := found
          obtain ⟨happ, hnonempty⟩ := Token.lex?_eq_some_imp hlex
          have htext := Text.size_pos hnonempty
          simp only [hlex]
          refine ⟨trivial, Nat.lt_add_of_pos_right htext, h.input, ⟨rest, ?_⟩, ?_⟩
          · rw [String.toList_append, List.append_assoc, happ, hback]
          · rw [String.utf8ByteSize_append, ← h.pos, ← Text.size_toList t.text]
            rfl

/-- Splitting a text stops at its end or at a character that starts no token. -/
theorem tokens_eq (s : String) :
    tokens s = (Splitter.ofString s).run.result.mapError .error := by
  rw [tokens, (between_ofString s).collect]
  rfl

end Lexer

theorem tokenize_eq (s : String) : tokenize s = (Splitter.ofString s).run.result := by
  rw [tokenize, Lexer.tokens_eq]
  cases (Splitter.ofString s).run.result <;> rfl

end SearchQuery
