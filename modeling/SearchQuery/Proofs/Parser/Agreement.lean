import SearchQuery.Proofs.Parser.Cursor

/-!
Parsers and readers. What a parser does agrees with a reader of the tokens that it has left: both
find the same and leave the same behind it, or both fail at the same place for the same reason; the
parser has as many parentheses open then as before. It never slices out of range.
-/

namespace SearchQuery

open Token (Kind Located)

namespace Parser

variable {α β γ C : Type} {m n : Nat} {p q r : Parser} {fault : Fault}

/-- The error that a fault is for a parser that stands where it arose. -/
def report (p : Parser) : Fault → Error
  | .unexpected _ expected => p.unexpected expected
  | .tooDeep _ => .tooDeep p.offset p.limit
  | .badComparison rest =>
      .internal ("bad comparison '" ++ (rest.head?.map Token.text).getD "" ++ "' at " ++
        toString p.offset)

/-- A step of a parser is what a reader makes of the tokens that are left. -/
inductive Agrees (p : Parser) : Step α n → Outcome α → Prop
  | found {a : α} {q : Parser} {h : q.left < n} :
      p.Along q → Agrees p (.ok ⟨a, q, h⟩) (.ok (a, q.rest))
  | fault {fault : Fault} {q : Parser} :
      p.Along q → q.rest = fault.rest → Agrees p (.error (.error (q.report fault))) (.error fault)

namespace Agrees

variable {step : Step α n} {o o' : Outcome α} {kinds : List Kind}

theorem of_along (halong : p.Along q) (h : Agrees q step o) : Agrees p step o := by
  cases h with
  | found h => exact .found (halong.trans h)
  | fault h hrest => exact .fault (halong.trans h) hrest

theorem reject (kinds : List Kind) :
    Agrees p (p.reject kinds : Step α n) (.error (.unexpected p.rest kinds)) := by
  have hreport : p.report (.unexpected p.rest kinds) = p.unexpected kinds := rfl
  rw [Parser.reject, ← hreport]
  exact .fault (.refl p) rfl

theorem bind {f : Found α n → Step β m} {g : α → List Token → Outcome β} (h : Agrees p step o)
    (hf : ∀ a q hq, p.Along q → Agrees q (f ⟨a, q, hq⟩) (g a q.rest)) :
    Agrees p (step >>= f) (o.andThen g) := by
  cases h with
  | found h => exact (hf _ _ _ h).of_along h
  | fault h hrest => exact .fault h hrest

theorem map (f : α → β) (h : Agrees p step o) : Agrees p (step.map (Found.map f)) (o.map f) := by
  cases h with
  | found h => exact .found h
  | fault h hrest => exact .fault h hrest

/-- Something is made of what has been found. -/
theorem bind_ok {f : Found α n → Step β m} {g : α → β} (h : Agrees p step o)
    (hf : ∀ a q hq, ∃ hq', f ⟨a, q, hq⟩ = .ok ⟨g a, q, hq'⟩) :
    Agrees p (step >>= f) (o.map g) := by
  cases h with
  | @found a q hq h =>
      obtain ⟨hq', heq⟩ := hf a q hq
      change Agrees p (f ⟨a, q, hq⟩) _
      rw [heq]
      exact .found h
  | fault h hrest => exact .fault h hrest

/-- What has been found is kept. -/
theorem bind_self {f : Found α n → Step α m} (h : Agrees p step o)
    (hf : ∀ a q hq, ∃ hq', f ⟨a, q, hq⟩ = .ok ⟨a, q, hq'⟩) : Agrees p (step >>= f) o := by
  have hmap : o.map (fun a => a) = o := by cases o <;> rfl
  exact hmap ▸ h.bind_ok hf

/-- Both look at the next token. -/
theorem ite {step' : Step α n} (h : p.isAt kinds = true → Agrees p step o)
    (h' : p.isAt kinds = false → Agrees p step' o') :
    Agrees p (if p.isAt kinds then step else step')
      (if Token.startsWith kinds p.rest then o else o') := by
  rw [← isAt_eq]
  cases hat : p.isAt kinds with
  | true => exact h hat
  | false => exact h' hat

/-- Neither moves the cursor out of the tokens. -/
theorem ne_panic (h : Agrees p step o) (panic : Panic) : step ≠ .error (.panic panic) := by
  cases h <;> simp

end Agrees

/-! ### Runs of tokens -/

theorem expect_of_isAt {k : Kind} (h : p.isAt [k] = true) :
    ∃ t ts hq, p.rest = t :: ts ∧ t.kind = k ∧ p.expect k = .ok ⟨t, p.bump.2, hq⟩ ∧
      p.bump.2.rest = ts ∧ p.Along p.bump.2 := by
  obtain ⟨t, ts, hrest, ht⟩ := exists_rest_of_isAt h
  obtain ⟨hbump, hafter, halong⟩ := bump_of_cons hrest
  refine ⟨t, ts, left_bump_lt_of_isAt h, hrest, List.mem_singleton.mp ht, ?_, hafter, halong⟩
  rw [expect, dif_pos h, hbump]
  rfl

theorem expect_of_not_isAt {k : Kind} (h : ¬ p.isAt [k] = true) : p.expect k = p.reject [k] := by
  rw [expect, dif_neg h]

theorem expect_rest_of_not_isAt {kinds : List Kind} (h : ¬ p.isAt kinds = true) :
    Token.expect kinds p.rest = .error (.unexpected p.rest kinds) := by
  rw [isAt_eq] at h
  cases hrest : p.rest with
  | nil => rfl
  | cons t ts =>
      rw [hrest] at h
      simpa [Token.expect, Token.startsWith] using h

theorem agrees_expect (p : Parser) (k : Kind) :
    Agrees p (p.expect k) (Token.expect [k] p.rest) := by
  by_cases h : p.isAt [k] = true
  · obtain ⟨t, ts, hq, hrest, rfl, hexpect, rfl, halong⟩ := expect_of_isAt h
    rw [hexpect, hrest]
    simp only [Token.expect, List.contains_cons, BEq.rfl, Bool.true_or, if_true]
    exact .found halong
  · rw [expect_of_not_isAt h, expect_rest_of_not_isAt h]
    exact .reject [k]

theorem takeUntil_cons (close : Kind) (t : Token) (ts : List Token) :
    Token.takeUntil close (t :: ts) =
      if t.kind = close then .ok ([], ts) else (Token.takeUntil close ts).map (t :: ·) := by
  by_cases h : t.kind = close
  · simp [Token.takeUntil, h]
  · simp only [Token.takeUntil, List.dropWhile_cons, List.takeWhile_cons, bne_iff_ne, h, ne_eq,
      not_false_eq_true, if_true, if_false]
    cases ts.dropWhile fun t => t.kind != close <;> rfl

theorem agrees_takeDelimited (close : Kind) (p : Parser) :
    Agrees p (p.takeDelimited close) (Token.takeUntil close p.rest) := by
  rw [takeDelimited]
  split
  · next k h =>
      have hlt := left_bump_lt h
      rw [kind?_eq, Option.map_eq_some_iff] at h
      obtain ⟨t, ht, rfl⟩ := h
      obtain ⟨ts, hrest⟩ := List.head?_eq_some_iff.mp ht
      obtain ⟨hbump, hafter, halong⟩ := bump_of_cons hrest
      rw [hrest, takeUntil_cons, ← hafter, hbump]
      split
      · exact .found halong
      · exact .of_along halong
          (.bind_ok (p.bump.2.agrees_takeDelimited close) fun _ _ _ => ⟨_, rfl⟩)
  · next h =>
      rw [kind?_eq, Option.map_eq_none_iff, List.head?_eq_none_iff] at h
      have hreads : Token.takeUntil close p.rest = .error (.unexpected p.rest [close]) := by
        rw [h]
        rfl
      rw [hreads]
      exact .reject [close]
termination_by p.left

/-! ### Formulas over any kind of clause -/

/-- A routine does what a reader does while `room` further parentheses may be opened. -/
def Follows (room : Nat) (routine : Routine α n) (reader : Reader α) : Prop :=
  ∀ p hp, p.limit - p.depth = room → Agrees p (routine p hp) (reader.run p.rest)

/-- A test for one more item goes where a lookahead goes, and if there is none it leaves the parser
as it was. -/
def Looks (joint : (p : Parser) → Step (Option γ) (p.left + 1)) (ahead : Lookahead γ) : Prop :=
  ∀ p, match ahead.find? p.rest with
    | none => ∃ h, joint p = .ok ⟨none, p, h⟩
    | some (g, ts) => ∃ q h, joint p = .ok ⟨some g, q, h⟩ ∧ q.rest = ts ∧ p.Along q

variable {room : Nat} {clause : Routine C n} {reader : Reader C}

theorem Follows.map {routine : Routine α n} {reader : Reader α} (h : Follows room routine reader)
    (f : α → β) : Follows room (fun p hp => (routine p hp).map (Found.map f)) (reader.map f) :=
  fun p hp hroom => (h p hp hroom).map f

theorem Follows.operand (h : Follows room clause reader) :
    Follows room (operand clause) (Operand.reader reader) := by
  intro p hp hroom
  simp only [Parser.operand, keyword_eq, Operand.reader]
  cases hstrip : Keyword.not.strip? p.rest with
  | none => exact (h p hp hroom).bind_ok fun _ _ _ => ⟨_, rfl⟩
  | some ts =>
      obtain ⟨hrest, halong⟩ := advance_of_strip? hstrip
      have hafter := halong.trans (along_skipSpace _)
      have hclause := fun hq => h _ hq (hafter.room.trans hroom)
      rw [rest_skipSpace, hrest] at hclause
      exact .of_along hafter (.bind_ok (hclause _) fun _ _ _ => ⟨_, rfl⟩)

theorem Looks.many {joint : (p : Parser) → Step (Option γ) (p.left + 1)} {ahead : Lookahead γ}
    {item : γ → Routine α n} {reader : γ → Reader α} (hlooks : Looks joint ahead)
    (hitem : ∀ g, Follows room (item g) (reader g)) (p : Parser) (hp : p.left < n)
    (hroom : p.limit - p.depth = room) :
    Agrees p (many joint item p hp) (Reader.many ahead reader p.rest) := by
  have hlook := hlooks p
  rw [Parser.many, Reader.many_eq]
  cases hahead : ahead.find? p.rest with
  | none =>
      rw [hahead] at hlook
      obtain ⟨h, hjoint⟩ := hlook
      rw [hjoint]
      exact .found (.refl p)
  | some found =>
      obtain ⟨g, ts⟩ := found
      rw [hahead] at hlook
      obtain ⟨q, h, hjoint, rfl, halong⟩ := hlook
      rw [hjoint]
      refine .of_along halong (.bind (hitem g q _ (halong.room.trans hroom)) ?_)
      intro a r hr hafter
      exact (hlooks.many hitem r (by omega)
        (hafter.room.trans (halong.room.trans hroom))).bind_ok fun _ _ _ => ⟨_, rfl⟩
termination_by p.left

theorem looks_joint : Looks joint Link.lookahead := by
  intro p
  have hspace := p.along_skipSpace
  simp only [Link.lookahead, Link.ahead?, joint, keyword_eq, rest_skipSpace, seek_skipSpace,
    skipSpace_pos_iff]
  cases hand : Keyword.and.strip? (Token.skipSpace p.rest) with
  | some ts =>
      rw [← rest_skipSpace] at hand
      obtain ⟨hrest, halong⟩ := advance_of_strip? hand
      rw [rest_skipSpace] at hrest halong
      have hafter := hspace.trans (halong.trans (along_skipSpace _))
      refine ⟨_, Nat.lt_succ_of_le hafter.left_le, rfl, ?_, hafter⟩
      rw [rest_skipSpace, hrest]
  | none =>
      cases hspaces : Token.startsWithSpace p.rest with
      | false => exact ⟨Nat.lt_succ_self _, rfl⟩
      | true =>
          cases hnot : Keyword.not.strip? (Token.skipSpace p.rest) with
          | none => exact ⟨Nat.lt_succ_self _, rfl⟩
          | some ts => exact ⟨_, Nat.lt_succ_of_le hspace.left_le, rfl, p.rest_skipSpace, hspace⟩

theorem looks_alternative : Looks alternative Branch.lookahead := by
  intro p
  have hspace := p.along_skipSpace
  simp only [Branch.lookahead, Branch.ahead?, alternative, keyword_eq, rest_skipSpace,
    seek_skipSpace]
  cases hor : Keyword.or.strip? (Token.skipSpace p.rest) with
  | none => exact ⟨Nat.lt_succ_self _, rfl⟩
  | some ts =>
      rw [← rest_skipSpace] at hor
      obtain ⟨hrest, halong⟩ := advance_of_strip? hor
      rw [rest_skipSpace] at hrest halong
      have hafter := hspace.trans (halong.trans (along_skipSpace _))
      refine ⟨_, Nat.lt_succ_of_le hafter.left_le, rfl, ?_, hafter⟩
      rw [rest_skipSpace, hrest]

theorem Follows.withMany {first : Routine α n} {readFirst : Reader α}
    {joint : (p : Parser) → Step (Option γ) (p.left + 1)} {ahead : Lookahead γ}
    {item : γ → Routine β n} {readItem : γ → Reader β} (hfirst : Follows room first readFirst)
    (hlooks : Looks joint ahead) (hitem : ∀ g, Follows room (item g) (readItem g))
    (f : α → List β → C) :
    Follows room (withMany first joint item f)
      ((readFirst.withMany ahead readItem).map fun x => f x.1 x.2) := by
  intro p hp hroom
  change Agrees p _ (((readFirst.run p.rest).andThen _).map _)
  simp only [Outcome.andThen_map, Outcome.map_map]
  refine .bind (hfirst p hp hroom) ?_
  intro a q hq halong
  exact .bind_ok (hlooks.many hitem q (by omega) (halong.room.trans hroom)) fun _ _ _ => ⟨_, rfl⟩

theorem Follows.link (h : Follows room clause reader) (explicit : Bool) :
    Follows room (link clause explicit) ((Operand.reader reader).map (Link.mk explicit)) :=
  h.operand.map (Link.mk explicit)

theorem Follows.branch (h : Follows room clause reader) :
    Follows room (branch clause) (Branch.reader reader) :=
  h.operand.withMany looks_joint h.link Branch.mk

theorem Follows.formula (h : Follows room clause reader) :
    Follows room (formula clause) (Formula.reader reader) :=
  h.branch.withMany looks_alternative (fun _ => h.branch) Formula.mk

/-! ### Parentheses -/

/-- The number of open parentheses plays no part in what is wrong. -/
theorem Agrees.leave {step : Step α n} {o : Outcome α} {f : Found α n → Step α m}
    (h : Agrees { p with depth := p.depth + 1 } step o)
    (hf : ∀ a q hq, ∃ hq', f ⟨a, q, hq⟩ = .ok ⟨a, q.leave, hq'⟩) : Agrees p (step >>= f) o := by
  have halong {q : Parser} (h : Along { p with depth := p.depth + 1 } q) : p.Along q.leave :=
    ⟨h.tokens, h.size, by rw [Parser.leave, h.depth]; rfl, h.limit, h.le, h.within⟩
  cases h with
  | @found a q hq h =>
      obtain ⟨hq', heq⟩ := hf a q hq
      change Agrees p (f ⟨a, q, hq⟩) (.ok (a, q.leave.rest))
      rw [heq]
      exact .found (halong h)
  | @fault fault q h hrest =>
      have hreport : q.report fault = q.leave.report fault := by cases fault <;> rfl
      change Agrees p (.error (.error (q.report fault))) _
      rw [hreport]
      exact .fault (halong h) hrest

theorem Follows.parenthesized (h : Follows room clause reader) (hp : p.left ≤ n)
    (hroom : p.limit - p.depth = room) :
    Agrees p (p.parenthesized clause hp) ((Formula.reader reader).enclosed.run p.rest) := by
  refine .bind (p.agrees_expect .leftParen) fun _ q hq halong => ?_
  have hspace := halong.trans q.along_skipSpace
  have hformula := fun hq => h.formula q.skipSpace.2 hq (hspace.room.trans hroom)
  rw [rest_skipSpace] at hformula
  refine .of_along q.along_skipSpace (.bind (hformula _) fun f r hr _ => ?_)
  have hclosing := r.skipSpace.2.agrees_expect .rightParen
  rw [rest_skipSpace] at hclosing
  exact .of_along r.along_skipSpace (.bind_ok hclosing fun _ _ _ => ⟨_, rfl⟩)

/-- With as many parentheses open as there may be, one more is too many. -/
theorem agrees_enclosed_zero (hp : p.left ≤ n) (hroom : p.limit - p.depth = 0) :
    Agrees p (p.enclosed clause hp) (.error (.tooDeep p.rest)) := by
  have hle : p.limit ≤ p.depth := Nat.le_of_sub_eq_zero hroom
  have henter : p.enter = .error (.error (p.report (.tooDeep p.rest))) := if_pos hle
  simp only [enclosed, henter]
  exact .fault (.refl p) rfl

theorem Follows.enclosed (h : Follows room clause reader) (hp : p.left ≤ n)
    (hroom : p.limit - p.depth = room + 1) :
    Agrees p (p.enclosed clause hp) ((Formula.reader reader).enclosed.run p.rest) := by
  have hlt : ¬ p.limit ≤ p.depth := by omega
  have henter : p.enter =
      .ok ⟨(), { p with depth := p.depth + 1 }, Nat.lt_succ_self p.left⟩ := if_neg hlt
  simp only [Parser.enclosed, henter]
  have hinside := h.parenthesized (p := { p with depth := p.depth + 1 }) hp (by simp only; omega)
  exact .leave hinside fun _ _ _ => ⟨_, rfl⟩

/-- If every clause inside is read as its reader reads it, so is a formula in parentheses. -/
theorem agrees_nested {leaf : Nat → List (Choice α)} {clause : Routine (Clause α) n}
    (hp : p.left ≤ n) (hroom : p.limit - p.depth = room)
    (h : ∀ room, Follows room clause (Clause.reader (leaf room) (Clause.nestedReader leaf room))) :
    Agrees p (p.enclosed clause hp) ((Clause.nestedReader leaf room).run p.rest) := by
  cases room with
  | zero => exact agrees_enclosed_zero hp hroom
  | succ room => exact (h room).enclosed hp hroom

end Parser

end SearchQuery
