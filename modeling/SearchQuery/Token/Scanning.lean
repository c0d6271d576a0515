import SearchQuery.Token.Lexer

/-!
What the scanners of a lexer do between two characters of its text: each takes what splitting the
rest of the text takes, and moves the offset by its size.
-/

namespace SearchQuery

open Token (Kind Located)

theorem Token.utf8Size_of_punctuation? {c : Char} {kind : Kind} (h : punctuation? c = some kind) :
    c.utf8Size = 1 := by
  have hsize : ∀ d ∈ ['.', '"', '/', ':', '+', '-', '~', '^', '*', '?', '(', ')', '[', ']', '\x7b',
      '\x7d', '&', '|', '!'], d.utf8Size = 1 := by simp [Char.utf8Size]
  apply hsize
  unfold punctuation? at h
  simp only [List.mem_cons, List.not_mem_nil, or_false]
  grind

namespace Lexer

variable {l : Lexer} {front back cs : List Char} {kind : Kind}

/-- The lexer stands behind `front` and before `back`. -/
structure Between (l : Lexer) (front back : List Char) : Prop where
  input : l.input = front ++ back
  pos : l.pos = Text.size front

namespace Between

theorem run_rest (h : l.Between front back) : l.run rest = (.ok back, l) := by
  simp only [rest, run_bind, run_get, h.input, h.pos, Text.dropBytes?_size_append, run_pure]

theorem run_peek (h : l.Between front back) : l.run peek = (.ok back.head?, l) := by
  simp only [peek, run_bind, h.run_rest, run_pure]

theorem run_takeWhile (h : l.Between front back) (inClass : Char → Bool) :
    l.run (takeWhile inClass) = (.ok (Text.size (back.takeWhile inClass)),
      l.skip (Text.size (back.takeWhile inClass))) := by
  simp only [takeWhile, run_bind, h.run_rest, run_advance, run_pure]

theorem skip (h : l.Between front (cs ++ back)) :
    (l.skip (Text.size cs)).Between (front ++ cs) back where
  input := by simp [Lexer.skip, h.input]
  pos := by simp [Lexer.skip, h.pos]

/-- What the lexer has just gone over is the text of the token. -/
theorem run_emit (h : l.Between front (cs ++ back)) :
    (l.skip (Text.size cs)).run (emit l.pos kind) =
      (.ok ⟨l.pos, kind, String.ofList cs⟩, l.skip (Text.size cs)) := by
  have hslice := Text.slice?_append front cs back
  rw [← h.input, ← h.pos] at hslice
  simp only [emit, run_bind, run_get, Lexer.skip, hslice, run_pure]

end Between

theorem run_passWord (cs : List Char) :
    l.run (passWord cs) = (.ok (), l.skip (Text.size (Token.splitWord cs).1)) := by
  fun_induction passWord cs generalizing l with
  | case1 => rfl
  | case2 => rfl
  | case3 escaped cs ih => simp [run_bind, ih, Token.splitWord, skip, Nat.add_assoc]
  | case4 c cs h hreserved => cases cs <;> simp [Token.splitWord, h, hreserved, skip]
  | case5 c cs h hreserved ih =>
      rw [run_bind, run_advance]
      simp only [ih]
      cases cs <;> simp [Token.splitWord, h, hreserved, skip, Nat.add_assoc]

namespace Between

theorem run_takeWord (h : l.Between front back) :
    l.run takeWord = (.ok (Text.size (Token.splitWord back).1),
      l.skip (Text.size (Token.splitWord back).1)) := by
  simp only [takeWord, run_bind, run_get, h.run_rest, run_passWord, run_pure, Lexer.skip,
    Nat.add_sub_cancel_left]

/-- Emits what is left behind. -/
theorem run_emit_of_skip (h : l.Between front (cs ++ back)) {bytes : Nat}
    (hbytes : bytes = Text.size cs) :
    (l.skip bytes).run (do return some (← emit l.pos kind)) =
      (.ok (some ⟨l.pos, kind, String.ofList cs⟩), l.skip bytes) := by
  subst hbytes
  simp only [run_bind, h.run_emit, run_pure]

theorem run_cutRun (h : l.Between front back) (inClass : Char → Bool) :
    l.run (do
        let _ ← takeWhile inClass
        return some (← emit l.pos kind)) =
      (.ok (some ⟨l.pos, (Token.cutRun kind inClass back).1⟩),
        l.skip (Text.size (Token.cutRun kind inClass back).1.text.toList)) := by
  have hcut : l.Between front (back.takeWhile inClass ++ back.dropWhile inClass) := by
    rwa [List.takeWhile_append_dropWhile]
  rw [run_bind, h.run_takeWhile]
  simp only [hcut.run_emit_of_skip rfl]
  simp [Token.cutRun, Token.cut]

theorem run_cut {c : Char} (h : l.Between front (c :: cs)) (hc : c.utf8Size = 1) :
    l.run (do
        advance 1
        return some (← emit l.pos kind)) =
      (.ok (some ⟨l.pos, (Token.cut kind [c] cs).1⟩),
        l.skip (Text.size (Token.cut kind [c] cs).1.text.toList)) := by
  have hcut : l.Between front ([c] ++ cs) := h
  rw [run_bind, run_advance]
  exact (hcut.run_emit_of_skip (by simp [hc])).trans (by simp [Token.cut, hc])

theorem run_comparison {c : Char} (h : l.Between front (c :: cs)) (hc : c.utf8Size = 1) :
    l.run (do
        advance 1
        if (← peek) = some '=' then advance 1
        return some (← emit l.pos .comparison)) =
      if cs.head? = some '=' then
        (.ok (some ⟨l.pos, .comparison, String.ofList [c, '=']⟩), l.skip 2)
      else (.ok (some ⟨l.pos, .comparison, String.ofList [c]⟩), l.skip 1) := by
  have hfront : l.Between front ([c] ++ cs) := h
  have hafter : (l.skip 1).Between (front ++ [c]) cs := by simpa [hc] using hfront.skip
  rw [run_bind, run_advance]
  dsimp only
  rw [run_bind, hafter.run_peek]
  dsimp only
  split
  · next heq =>
      obtain ⟨cs, rfl⟩ := List.head?_eq_some_iff.mp heq
      have hboth : l.Between front ([c, '='] ++ cs) := h
      rw [run_bind, run_advance]
      exact hboth.run_emit_of_skip (by simp [hc]; rfl)
  · exact hfront.run_emit_of_skip (by simp [hc])

/-- One call gives out the token at the front of what is left and moves on by its length. Where
none starts there, the lexer has not moved. -/
theorem run_nextToken (h : l.Between front back) :
    l.run nextToken = match back with
      | [] => (.ok none, l)
      | c :: cs =>
          match Token.lex? c cs with
          | some (t, _) => (.ok (some ⟨l.pos, t⟩), l.skip (Text.size t.text.toList))
          | none => (.error (.error (.unrecognised l.pos c)), l) := by
  simp only [nextToken, run_bind, run_get, h.run_peek]
  cases back with
  | nil => rfl
  | cons c cs =>
      simp only [List.head?_cons, Token.lex?]
      split
      · exact h.run_cutRun _
      · split
        · exact h.run_cutRun _
        · split
          · next hc =>
              have hsize : c.utf8Size = 1 := by rcases hc with rfl | rfl <;> rfl
              have hequals : '='.utf8Size = 1 := rfl
              refine (h.run_comparison hsize).trans ?_
              cases cs with
              | nil => simp [Token.cut, hsize]
              | cons d cs =>
                  by_cases hd : d = '='
                  · subst hd
                    simp [Token.cut, hsize, hequals]
                  · simp [Token.cut, hsize, hd]
          · cases hkind : Token.punctuation? c with
            | some kind =>
                simp only
                exact h.run_cut (Token.utf8Size_of_punctuation? hkind)
            | none =>
                simp only
                split
                · exact h.run_cutRun _
                · rw [run_bind, h.run_takeWord]
                  have happ := Token.splitWord_append (c :: cs)
                  generalize Token.splitWord (c :: cs) = word at happ ⊢
                  obtain ⟨_ | ⟨d, chars⟩, rest⟩ := word
                  · dsimp only [Text.size_nil]
                    rw [if_neg (Nat.lt_irrefl 0)]
                    split
                    · next hc => exact h.run_cut (hc ▸ rfl)
                    · rfl
                  · have hpos := Text.size_pos (List.cons_ne_nil d chars)
                    rw [← happ] at h
                    dsimp only
                    rw [if_pos hpos]
                    exact (h.run_emit_of_skip rfl).trans (by simp [Token.cut])

end Between

/-- A lexer that stands inside a character finds that out before it moves. -/
theorem run_nextToken_of_dropBytes?_eq_none (h : Text.dropBytes? l.pos l.input = none) :
    l.run nextToken = (.error (.panic (.boundary l.pos)), l) := by
  simp only [nextToken, peek, rest, run_bind, run_get, h, run_throw]

/-- A token takes the lexer further, and not behind the end of the text. -/
theorem pos_lt_of_run_nextToken {m : Lexer} {t : Located}
    (h : l.run nextToken = (.ok (some t), m)) :
    m.input = l.input ∧ l.pos < m.pos ∧ m.pos ≤ Text.size l.input := by
  cases hdrop : Text.dropBytes? l.pos l.input with
  | none =>
      rw [run_nextToken_of_dropBytes?_eq_none hdrop] at h
      cases h
  | some back =>
      obtain ⟨front, hinput, hpos⟩ := Text.exists_of_dropBytes? hdrop
      rw [Between.run_nextToken ⟨hinput, hpos.symm⟩] at h
      cases back with
      | nil => cases h
      | cons c cs =>
          cases hlex : Token.lex? c cs with
          | none => simp [hlex] at h
          | some found =>
              obtain ⟨u, rest⟩ := found
              obtain ⟨happ, hne⟩ := Token.lex?_eq_some_imp hlex
              have hsize := Text.size_pos hne
              have hinput := congrArg Text.size hinput
              simp only [hlex, Prod.mk.injEq] at h
              obtain ⟨-, rfl⟩ := h
              rw [← happ] at hinput
              simp only [Text.size_append] at hinput
              refine ⟨rfl, ?_, ?_⟩ <;> simp only [skip] <;> omega

end Lexer

end SearchQuery
