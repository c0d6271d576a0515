import SearchQuery.Parser.Term
import SearchQuery.Proofs.Parser.Agreement
import SearchQuery.Reader.Term

/-!
Terms: every part of a term is read as its reader reads it.
-/

namespace SearchQuery

open Token (Kind Located)

/-- Reading by choices, with the kinds that are expected where none of them is called for. -/
def Choice.readElse {α : Type} (choices : List (Choice α)) (expected : List Kind)
    (ts : List Token) : Outcome α :=
  match choices.find? fun c => Token.startsWith c.starts ts with
  | some c => c.reader.run ts
  | none => .error (.unexpected ts expected)

namespace Choice

variable {α : Type}

theorem run_read (choices : List (Choice α)) (ts : List Token) :
    (read choices).run ts = readElse choices (choices.flatMap starts) ts :=
  rfl

theorem readElse_cons (c : Choice α) (choices : List (Choice α)) (expected : List Kind)
    (ts : List Token) :
    readElse (c :: choices) expected ts =
      if Token.startsWith c.starts ts then c.reader.run ts else readElse choices expected ts := by
  unfold readElse
  rw [List.find?_cons]
  cases Token.startsWith c.starts ts <;> rfl

theorem readElse_map {β : Type} (choices : List (Choice α)) (expected : List Kind) (f : α → β)
    (ts : List Token) :
    readElse (choices.map (Choice.map f)) expected ts = (readElse choices expected ts).map f := by
  induction choices with
  | nil => rfl
  | cons c choices ih =>
      rw [List.map_cons, readElse_cons, readElse_cons, ih]
      split
      · next h => rw [if_pos (show Token.startsWith c.starts ts = true from h)]; rfl
      · next h => rw [if_neg (show ¬ Token.startsWith c.starts ts = true from h)]

end Choice

namespace Parser

variable {α β γ : Type} {n : Nat} {p : Parser}

namespace Agrees

variable {choices : List (Choice α)} {kinds expected : List Kind} {reader : Reader α}
  {step step' : Step α n}

theorem readElse_nil :
    Agrees p (p.reject expected : Step α n) (Choice.readElse [] expected p.rest) :=
  .reject expected

theorem readElse_cons (h : Agrees p step (reader.run p.rest))
    (h' : Agrees p step' (Choice.readElse choices expected p.rest)) :
    Agrees p (if p.isAt kinds then step else step')
      (Choice.readElse (⟨kinds, reader⟩ :: choices) expected p.rest) := by
  rw [Choice.readElse_cons]
  exact .ite (fun _ => h) fun _ => h'

end Agrees

/-- Something that need not be there is taken off what is left. -/
theorem Agrees.with {step : Step α n} {o : Outcome α} {take : Parser → β × Parser} {f : α → β → γ}
    {takeRest : List Token → β × List Token} {left_take_le : ∀ p, (take p).2.left ≤ p.left}
    (h : Agrees p step o)
    (htake : ∀ q : Parser, (take q).1 = (takeRest q.rest).1 ∧
      (take q).2.rest = (takeRest q.rest).2 ∧ q.Along (take q).2) :
    Agrees p (step.map (Found.with take left_take_le f))
      ((o.andThen fun a ts => .ok ((a, (takeRest ts).1), (takeRest ts).2)).map
        fun x => f x.1 x.2) := by
  cases h with
  | @found a q hq h =>
      obtain ⟨hvalue, hrest, halong⟩ := htake q
      simp only [Outcome.andThen, Outcome.map, ← hvalue, ← hrest]
      exact .found (h.trans halong)
  | fault h hrest => exact .fault h hrest

/-! ### Literals and suffixes -/

theorem agrees_bare (p : Parser) : Agrees p p.bare (Literal.bareReader.run p.rest) := by
  obtain ⟨hrun, hrest, halong⟩ := takeRun_eq Literal.bareKinds p
  have hempty : (p.takeRun Literal.bareKinds).1 = [] ↔ ¬ p.isAt Literal.bareKinds = true := by
    rw [hrun, isAt_eq]
    cases p.rest <;> simp [Token.spanKinds, Token.startsWith, List.takeWhile_cons]
  simp only [bare, Literal.bareReader, ← isAt_eq]
  split
  · next h =>
      rw [if_neg (hempty.mp h)]
      have hnone := (takeRun_of_not_isAt (hempty.mp h))
      rw [hnone]
      exact .reject _
  · next h =>
      rw [if_pos (by simpa using mt hempty.mpr h), ← hrun, ← hrest]
      exact .found halong

theorem agrees_between (delimiter : Kind) (p : Parser) :
    Agrees p (p.between delimiter) ((Reader.between delimiter).run p.rest) :=
  .bind (p.agrees_expect delimiter) fun _ q _ _ =>
    .bind_self (q.agrees_takeDelimited delimiter) fun _ _ _ => ⟨_, rfl⟩

theorem agrees_phrase (p : Parser) : Agrees p p.phrase (Literal.phraseReader.run p.rest) :=
  (p.agrees_between .quote).map Literal.phrase

/-- Past a token, what comes next decides. -/
theorem fuzzySuffix_eq {t : Token} {ts : List Token} (h : p.rest = t :: ts) :
    p.fuzzySuffix.1 = ⟨(Fuzzy.takeDistance ts).1⟩ ∧
      p.fuzzySuffix.2.rest = (Fuzzy.takeDistance ts).2 ∧ p.Along p.fuzzySuffix.2 := by
  obtain ⟨-, hrest, halong⟩ := bump_of_cons h
  simp only [fuzzySuffix, isAt_eq, hrest]
  rcases ts with _ | ⟨⟨k, text⟩, us⟩
  · exact ⟨rfl, hrest, halong⟩
  · obtain ⟨hbump, hrest', halong'⟩ := bump_of_cons hrest
    by_cases hk : k = .number
    · subst hk
      simp [Token.startsWith, Fuzzy.takeDistance, hbump, hrest', halong.trans halong']
    · simp [Token.startsWith, Fuzzy.takeDistance, hk, hrest, halong]

theorem boostSuffix_eq {t : Token} {ts : List Token} (h : p.rest = t :: ts) :
    p.boostSuffix.1 = ⟨(Boost.takeMagnitude ts).1⟩ ∧
      p.boostSuffix.2.rest = (Boost.takeMagnitude ts).2 ∧ p.Along p.boostSuffix.2 := by
  obtain ⟨-, hrest, halong⟩ := bump_of_cons h
  simp only [boostSuffix, isAt_eq, hrest]
  fun_cases Boost.takeMagnitude ts with
  | case1 whole point fraction us =>
      obtain ⟨hwhole, hrest₁, halong₁⟩ := bump_of_cons hrest
      obtain ⟨hpoint, hrest₂, halong₂⟩ := bump_of_cons hrest₁
      obtain ⟨hfraction, hrest₃, halong₃⟩ := bump_of_cons hrest₂
      have hahead := kindAt?_of_cons hrest₁
      have hkind := p.bump.2.bump.2.kind?_eq
      rw [hrest₁] at hkind
      simp [Token.startsWith, hwhole, hahead, hkind, hfraction, hrest₃,
        halong.trans (halong₁.trans (halong₂.trans halong₃))]
  | case2 whole us hne =>
      obtain ⟨hwhole, hrest₁, halong₁⟩ := bump_of_cons hrest
      have hahead : ¬ (p.bump.2.bump.2.kind? = some .dot ∧
          p.bump.2.bump.2.kindAt? 1 = some .number) := by
        rintro ⟨hdot, hnumber⟩
        rw [kind?_eq, hrest₁] at hdot
        rw [kindAt?_eq, hrest₁] at hnumber
        rcases us with _ | ⟨⟨k, point⟩, _ | ⟨⟨k', fraction⟩, us⟩⟩
        all_goals simp at hdot hnumber
        subst hdot hnumber
        exact hne point fraction us rfl
      simp [Token.startsWith, hwhole, hahead, hrest₁, halong.trans halong₁]
  | case3 us _ hne =>
      have hstart : Token.startsWith [.number] ts = false := by
        rcases ts with _ | ⟨⟨k, text⟩, us⟩
        · rfl
        · simp only [Token.startsWith, List.head?_cons, Option.any_some]
          by_cases hk : k = .number
          · subst hk
            exact (hne text us rfl).elim
          · simp [hk]
      simp [hstart, hrest, halong]

theorem optionalBoost_eq (p : Parser) :
    p.optionalBoost.1 = (Boost.take p.rest).1 ∧ p.optionalBoost.2.rest = (Boost.take p.rest).2 ∧
      p.Along p.optionalBoost.2 := by
  simp only [optionalBoost, isAt_eq]
  rcases hrest : p.rest with _ | ⟨⟨k, text⟩, ts⟩
  · exact ⟨rfl, hrest, .refl p⟩
  · by_cases hk : k = .caret
    · subst hk
      obtain ⟨hvalue, hafter, halong⟩ := boostSuffix_eq hrest
      simp [Token.startsWith, Boost.take, hvalue, hafter, halong]
    · simp [Token.startsWith, Boost.take, hk, hrest, Along.refl]

theorem optionalSuffix_eq (p : Parser) :
    p.optionalSuffix.1 = (Suffix.take p.rest).1 ∧
      p.optionalSuffix.2.rest = (Suffix.take p.rest).2 ∧ p.Along p.optionalSuffix.2 := by
  obtain ⟨hboost, hrest', halong⟩ := p.optionalBoost_eq
  simp only [optionalSuffix, isAt_eq]
  rcases hrest : p.rest with _ | ⟨⟨k, text⟩, ts⟩
  · rw [hrest] at hboost hrest'
    simp [Token.startsWith, Suffix.take, hboost, hrest', halong]
  · by_cases hk : k = .tilde
    · subst hk
      obtain ⟨hvalue, hafter, halong⟩ := fuzzySuffix_eq hrest
      simp [Token.startsWith, Suffix.take, hvalue, hafter, halong]
    · rw [hrest] at hboost hrest'
      simp [Token.startsWith, Suffix.take, hk, hboost, hrest', halong]

/-! ### Ranges -/

theorem agrees_side (p : Parser) : Agrees p p.side (Side.reader.run p.rest) := by
  rw [side, Side.reader, Choice.run_read]
  change Agrees p _ (Choice.readElse _ sideKinds p.rest)
  refine .readElse_cons ?_ (.readElse_cons ?_ .readElse_nil)
  · exact p.agrees_phrase.map Side.literal
  · exact p.agrees_bare.map Side.ofBare

theorem agrees_comparison (p : Parser) :
    Agrees p p.comparison (Range.comparisonReader.run p.rest) := by
  simp only [comparison, Range.comparisonReader, Comparison.reader, Outcome.andThen_andThen]
  by_cases h : p.isAt [.comparison] = true
  · obtain ⟨t, ts, hq, hrest, ht, hexpect, rfl, halong⟩ := expect_of_isAt h
    rw [hexpect]
    have hreads : Token.expect [.comparison] p.rest = .ok (t, p.bump.2.rest) := by
      simp [hrest, Token.expect, ht]
    rw [hreads]
    simp only [bind, Except.bind, Outcome.andThen]
    cases Comparison.ofSymbol? t.text with
    | some op => exact .of_along halong (.bind_ok p.bump.2.agrees_side fun _ _ _ => ⟨_, rfl⟩)
    | none =>
        have hreport : p.report (.badComparison p.rest) = .internal
            ("bad comparison '" ++ t.text ++ "' at " ++ toString p.offset) := by
          rw [hrest]
          rfl
        change Agrees p (.error (.error (.internal _))) (.error (.badComparison p.rest))
        rw [← hreport]
        exact .fault (.refl p) rfl
  · rw [expect_of_not_isAt h, expect_rest_of_not_isAt h]
    exact .reject _

theorem agrees_requireSpace (p : Parser) :
    Agrees p p.requireSpace (Interval.requireSpace p.rest) := by
  have hpos := p.skipSpace_pos_iff
  rw [requireSpace, Interval.requireSpace]
  cases hspace : Token.startsWithSpace p.rest with
  | true =>
      rw [hspace] at hpos
      rw [if_neg (Nat.pos_iff_ne_zero.mp (hpos.mpr rfl)), if_pos rfl, ← rest_skipSpace]
      exact .found p.along_skipSpace
  | false =>
      rw [hspace] at hpos
      have hskip : Token.skipSpace p.rest = p.rest :=
        skipSpace_eq_self (by simpa [Token.startsWithSpace, Option.any_eq_false] using hspace)
      rw [if_pos (by simpa using hpos), if_neg (by simp), ← hskip, ← rest_skipSpace]
      exact .of_along p.along_skipSpace (.reject _)

theorem agrees_separator (p : Parser) : Agrees p p.separator (Interval.separator p.rest) := by
  refine .bind p.agrees_requireSpace fun _ q _ _ => ?_
  have hpeek := q.map_peek?
  cases hrest : q.rest with
  | nil =>
      rw [hrest, List.head?_nil, Option.map_eq_none_iff] at hpeek
      simp only [hpeek, Option.any_none]
      rw [← hrest]
      exact .reject _
  | cons t ts =>
      rw [hrest, List.head?_cons, Option.map_eq_some_iff] at hpeek
      obtain ⟨located, hpeek, rfl⟩ := hpeek
      obtain ⟨-, hafter, halong⟩ := bump_of_cons hrest
      simp only [hpeek, Option.any_some]
      split
      · rw [← hafter]
        exact .of_along halong (.bind_self q.bump.2.agrees_requireSpace fun _ _ _ => ⟨_, rfl⟩)
      · rw [← hrest]
        exact .reject _

theorem agrees_bracket (p : Parser) (closed opened : Kind) :
    Agrees p (p.bracket closed opened)
      ((Token.expect [closed, opened] p.rest).map fun t => t.kind == closed) := by
  rw [bracket]
  split
  · next k h =>
      rw [kind?_eq, Option.map_eq_some_iff] at h
      obtain ⟨t, ht, rfl⟩ := h
      obtain ⟨ts, hrest⟩ := List.head?_eq_some_iff.mp ht
      obtain ⟨-, hafter, halong⟩ := bump_of_cons hrest
      by_cases hclosed : t.kind = closed
      · have hreads : Token.expect [closed, opened] p.rest = .ok (t, p.bump.2.rest) := by
          simp [hrest, hafter, Token.expect, hclosed]
        rw [hreads, if_pos hclosed]
        simp only [Outcome.map, hclosed, BEq.rfl]
        exact .found halong
      · rw [if_neg hclosed]
        by_cases hopened : t.kind = opened
        · have hreads : Token.expect [closed, opened] p.rest = .ok (t, p.bump.2.rest) := by
            simp [hrest, hafter, Token.expect, hopened]
          rw [hreads, if_pos hopened]
          simp only [Outcome.map, beq_eq_false_iff_ne.mpr hclosed]
          exact .found halong
        · have hat : ¬ p.isAt [closed, opened] = true := by
            simp [isAt_eq, hrest, Token.startsWith, hclosed, hopened]
          rw [expect_rest_of_not_isAt hat, if_neg hopened]
          exact .reject _
  · next h =>
      rw [kind?_eq, Option.map_eq_none_iff, List.head?_eq_none_iff] at h
      have hat : ¬ p.isAt [closed, opened] = true := by simp [isAt_eq, h, Token.startsWith]
      rw [expect_rest_of_not_isAt hat]
      exact .reject _

theorem agrees_interval (p : Parser) : Agrees p p.interval (Interval.reader.run p.rest) := by
  have hrun : Interval.reader.run p.rest =
      ((Token.expect [.leftBracket, .leftBrace] p.rest).map fun t => t.kind == .leftBracket).andThen
        fun leftClosed ts => (Side.reader.run (Token.skipSpace ts)).andThen
        fun left ts => (Interval.separator ts).andThen
        fun _ ts => (Side.reader.run ts).andThen
        fun right ts => ((Token.expect [.rightBracket, .rightBrace] (Token.skipSpace ts)).map
          fun t => t.kind == .rightBracket).map
        fun rightClosed => ⟨leftClosed, left, right, rightClosed⟩ := by
    simp only [Outcome.map_andThen, Outcome.map_map]
    rfl
  rw [hrun]
  refine .bind (p.agrees_bracket _ _) fun leftClosed q _ _ => ?_
  have hleft := q.skipSpace.2.agrees_side
  rw [rest_skipSpace] at hleft
  refine .of_along q.along_skipSpace (.bind hleft fun left r _ _ => ?_)
  refine .bind r.agrees_separator fun _ s _ _ => ?_
  refine .bind s.agrees_side fun right t _ _ => ?_
  have hclosing := t.skipSpace.2.agrees_bracket .rightBracket .rightBrace
  rw [rest_skipSpace] at hclosing
  exact .of_along t.along_skipSpace (.bind_ok hclosing fun _ _ _ => ⟨_, rfl⟩)

/-! ### Groups -/

theorem agrees_element (p : Parser) :
    Agrees p p.element (Choice.readElse Element.choices elementKinds p.rest) := by
  refine .readElse_cons ?_ (.readElse_cons ?_ (.readElse_cons ?_ (.readElse_cons ?_ .readElse_nil)))
  · exact p.agrees_phrase.map Element.literal
  · exact p.agrees_comparison.map Element.range
  · exact (p.agrees_interval.map Range.interval).map Element.range
  · exact p.agrees_bare.map Element.literal

theorem agrees_groupClause {room : Nat} (p : Parser) (hroom : p.limit - p.depth = room) :
    Agrees p p.groupClause
      ((Clause.reader Element.choices (Clause.nestedReader (fun _ => Element.choices) room)).run
        p.rest) := by
  rw [groupClause, Clause.reader, Choice.run_read, Choice.readElse_cons]
  refine .ite (fun _ => ?_) fun _ => ?_
  · exact (agrees_nested _ hroom fun _ q _ hroom => q.agrees_groupClause hroom).map Clause.paren
  · have hleaf := p.agrees_element.map fun e => Clause.leaf e
    rwa [← Choice.readElse_map] at hleaf
termination_by p.left

theorem agrees_group {room : Nat} (p : Parser) (hroom : p.limit - p.depth = room) :
    Agrees p (p.enclosed (fun q _ => q.groupClause) (Nat.le_refl _))
      ((Group.reader room).run p.rest) :=
  agrees_nested _ hroom fun _ q _ hroom => q.agrees_groupClause hroom

/-! ### Terms -/

theorem agrees_term {room : Nat} (p : Parser) (hroom : p.limit - p.depth = room) :
    Agrees p p.term ((Term.reader room).run p.rest) := by
  rw [term, Term.reader, Choice.run_read]
  change Agrees p _ (Choice.readElse _ termKinds p.rest)
  refine .readElse_cons ?_ (.readElse_cons ?_ (.readElse_cons ?_
    (.readElse_cons ?_ (.readElse_cons ?_ (.readElse_cons ?_ .readElse_nil)))))
  · exact (p.agrees_between .slash).map Term.regexp
  · exact p.agrees_phrase.with optionalSuffix_eq
  · exact p.agrees_comparison.with optionalBoost_eq
  · exact (p.agrees_interval.map Range.interval).with optionalBoost_eq
  · exact (p.agrees_group hroom).with optionalBoost_eq
  · exact p.agrees_bare.with optionalSuffix_eq

end Parser

end SearchQuery
