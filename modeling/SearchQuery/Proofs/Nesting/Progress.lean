import SearchQuery.Proofs.Fault.Continuation
import SearchQuery.Proofs.Fault.Report

/-!
What a parser leaves behind. Where reading does not fail, the parser has the same tokens and the
same limit as before, as many parentheses open, and stands further on, right behind a token that is
not space. So a repetition that passes over space and finds nothing behind it has to give that space
back, and each of its rounds takes at least one token.
-/

namespace SearchQuery

variable {α β γ C : Type} {ts us rest : List Token}

/-! ### Phrases -/

/-- From `ts` to `rest` there are tokens, of which the last one is not space. -/
def Advances (ts rest : List Token) : Prop :=
  ∃ phrase, ts = phrase ++ rest ∧ Firm phrase

theorem Advances.suffix (h : Advances ts rest) : rest <:+ ts := by
  obtain ⟨phrase, rfl, -⟩ := h
  exact List.suffix_append phrase rest

/-- What stands in front of a phrase, be it space or another phrase, may be added to it. -/
theorem Advances.of_suffix (h : Advances us rest) (hus : us <:+ ts) : Advances ts rest := by
  obtain ⟨front, rfl⟩ := hus
  obtain ⟨phrase, rfl, hfirm⟩ := h
  exact ⟨front ++ phrase, by rw [List.append_assoc], hfirm.append front⟩

theorem Production.Replay.advances {p : Production α} {a : α}
    {allowed : List Token → List Token → Prop} (h : p.Replay allowed ts a rest) :
    Advances ts rest := by
  obtain ⟨phrase, hphrase, hfirm, -⟩ := h
  exact ⟨phrase, hphrase, hfirm⟩

/-! ### Formulas -/

section Formula

variable {p : Production C} (hp : ∀ {ts c rest}, p ts c rest → Advances ts rest)

include hp

theorem Operand.Derives.advances {o : Operand C} (h : Operand.Derives p ts o rest) :
    Advances ts rest := by
  obtain ⟨us, hopens, hc⟩ := h.exists_opens
  exact (hp hc).of_suffix hopens.suffix

/-- What goes on from the start of a formula to the end of one of its operands. -/
theorem Formula.Reaches.advances {o : Operand C} (h : Formula.Reaches p ts us)
    (ho : Operand.Derives p us o rest) : Advances ts rest :=
  (ho.advances hp).of_suffix (h.suffix fun hc => (hp hc).suffix)

theorem Link.Derives.advances {l : Link C} (h : Link.Derives p ts l rest) : Advances ts rest := by
  obtain ⟨us, hjoins, ho⟩ := h.joins
  exact (ho.advances hp).of_suffix hjoins.suffix

theorem Branch.Derives.advances {b : Branch C} (h : Branch.Derives p ts b rest) :
    Advances ts rest := by
  obtain ⟨us, o, hreaches, ho⟩ := h.reaches .first
  exact hreaches.advances hp ho

theorem Branch.DerivesNext.advances {b : Branch C} (h : Branch.DerivesNext p ts b rest) :
    Advances ts rest := by
  obtain ⟨hspaces, hor, hspaces', hb⟩ := h
  exact (hb.advances hp).of_suffix
    (hspaces'.suffix.trans (hor.suffix.trans hspaces.suffix))

theorem Formula.Derives.advances {e : Formula C} (h : Formula.Derives p ts e rest) :
    Advances ts rest := by
  obtain ⟨us, o, hreaches, ho⟩ := h.reaches
  exact hreaches.advances hp ho

end Formula

/-! ### Parsers -/

namespace Parser

variable {n room : Nat} {p q : Parser}

/-- The parser has come further and stands behind a token that is not space. Nothing but its place
has changed. -/
structure MovesTo (p q : Parser) : Prop where
  tokens : q.tokens = p.tokens
  size : q.size = p.size
  depth : q.depth = p.depth
  limit : q.limit = p.limit
  later : p.cursor < q.cursor
  inside : q.cursor ≤ q.tokens.size
  unspaced : ∃ t, q.tokens[q.cursor - 1]? = some t ∧ t.token.isSpace = false

theorem Along.movesTo (h : p.Along q) (hp : p.cursor ≤ p.tokens.size)
    (hadvances : Advances p.rest q.rest) : p.MovesTo q := by
  obtain ⟨phrase, hphrase, t, ht, hspace, -⟩ := hadvances
  have hinside := h.within hp
  have hpos : 0 < phrase.length := List.length_pos_of_mem (List.mem_of_getLast? ht)
  have hlength : p.rest.length = phrase.length + q.rest.length := by
    rw [hphrase, List.length_append]
  rw [length_rest, length_rest, left, left, h.tokens] at hlength
  rw [h.tokens] at hinside
  have hcursor : q.cursor = p.cursor + phrase.length := by omega
  have hlast : p.rest[phrase.length - 1]? = some t := by
    rw [hphrase, List.getElem?_append_left (by omega), ← List.getLast?_eq_getElem?]
    exact ht
  rw [rest, List.getElem?_map, List.getElem?_drop, Option.map_eq_some_iff] at hlast
  obtain ⟨located, hlocated, rfl⟩ := hlast
  refine ⟨h.tokens, h.size, h.depth, h.limit, by omega, h.tokens ▸ hinside, located, ?_, hspace⟩
  rw [h.tokens, hcursor, Nat.add_sub_assoc hpos, ← Array.getElem?_toList]
  exact hlocated

/-- A step from a parser that ends, with an error or further on. -/
def Progresses (p : Parser) (step : Step α n) : Prop :=
  match step with
  | .ok found => p.MovesTo found.after
  | .error (.error _) => True
  | .error (.panic _) => False

theorem Agrees.progresses {step : Step α n} {o : Outcome α} (h : Agrees p step o)
    (hp : p.cursor ≤ p.tokens.size) (ho : ∀ a rest, o = .ok (a, rest) → Advances p.rest rest) :
    p.Progresses step := by
  cases h with
  | found halong => exact halong.movesTo hp (ho _ _ rfl)
  | fault => exact trivial

/-- The rounds of a repetition. The test for one more item never fails. If there is none, it leaves
the parser as it was; and from there to the end of an item the parser moves on. -/
structure Rounds (joint : (p : Parser) → Step (Option γ) (p.left + 1)) (item : γ → Routine α n)
    (p : Parser) : Prop where
  tested : ∃ found, joint p = .ok found
  restored : ∀ q h, joint p = .ok ⟨none, q, h⟩ → q = p
  round : ∀ g q h hq, joint p = .ok ⟨some g, q, h⟩ → p.Progresses (item g q hq)

theorem Looks.rounds {joint : (p : Parser) → Step (Option γ) (p.left + 1)} {ahead : Lookahead γ}
    {item : γ → Routine α n} {reader : γ → Reader α} (hlooks : Looks joint ahead)
    (hitem : ∀ g, Follows room (item g) (reader g)) (hroom : p.limit - p.depth = room)
    (hp : p.cursor ≤ p.tokens.size)
    (hround : ∀ a rest, Reader.Round ahead reader p.rest a rest → Advances p.rest rest) :
    Rounds joint item p := by
  have hlook := hlooks p
  cases hahead : ahead.find? p.rest with
  | none =>
      rw [hahead] at hlook
      obtain ⟨h, hjoint⟩ := hlook
      refine ⟨⟨_, hjoint⟩, ?_, by simp [hjoint]⟩
      intro q h' heq
      rw [hjoint] at heq
      cases heq
      rfl
  | some found =>
      obtain ⟨g, ts⟩ := found
      rw [hahead] at hlook
      obtain ⟨q, h, hjoint, rfl, halong⟩ := hlook
      refine ⟨⟨_, hjoint⟩, by simp [hjoint], ?_⟩
      intro g' q' h' hq heq
      rw [hjoint] at heq
      cases heq
      have hagrees := (hitem g q hq (halong.room.trans hroom)).of_along halong
      exact hagrees.progresses hp fun a rest hread => hround a rest ⟨g, q.rest, hahead, hread⟩

/-- Clauses, all that is made of them, and each round of the repetitions in that. -/
structure FormulaProgresses (routine : Routine C n) (p : Parser) (hp : p.left < n) : Prop where
  clause : p.Progresses (routine p hp)
  operand : p.Progresses (operand routine p hp)
  branch : p.Progresses (branch routine p hp)
  formula : p.Progresses (formula routine p hp)
  links : Rounds joint (link routine) p
  branches : Rounds alternative (fun _ => Parser.branch routine) p

theorem Follows.formulaProgresses {routine : Routine C n} {reader : Reader C}
    (h : Follows room routine reader) (hp : p.left < n) (hroom : p.limit - p.depth = room)
    (hinside : p.cursor ≤ p.tokens.size)
    (hreads : ∀ {ts c rest}, reader.Reads ts c rest → Advances ts rest) :
    FormulaProgresses routine p hp where
  clause := (h p hp hroom).progresses hinside fun _ _ hc => hreads hc
  operand := (h.operand p hp hroom).progresses hinside fun _ _ ho =>
    (Operand.derives_of_reads ho).advances hreads
  branch := (h.branch p hp hroom).progresses hinside fun _ _ hb =>
    (Branch.derives_of_reads hb).advances hreads
  formula := (h.formula p hp hroom).progresses hinside fun _ _ he =>
    (Formula.derives_of_reads he).advances hreads
  links := looks_joint.rounds h.link hroom hinside fun _ _ hl =>
    (Link.derives_of_round hl).advances hreads
  branches := looks_alternative.rounds (fun _ => h.branch) hroom hinside fun _ _ hb =>
    (Branch.derivesNext_of_round hb).advances hreads

end Parser

theorem Choice.Exact.advances {leaf : Nat → List (Choice α)} {p : Production α}
    {leafDepth : α → Nat} (h : Choice.Exact leaf p leafDepth)
    (hreplay : ∀ {ts a rest}, p ts a rest → p.Replay Kept ts a rest) {room : Nat} {c : Clause α}
    (hread : (Clause.reader (leaf room) (Clause.nestedReader leaf room)).Reads ts c rest) :
    Advances ts rest := by
  obtain ⟨hderives, -⟩ := h.derives_of_reads_reader h.reads_nestedReader_iff hread
  exact (hderives.replay hreplay).advances

/-- From any place of any tokens, and with any number of parentheses open, reading a clause of a
query or of a group, an operand, a branch or a formula of such clauses, a term or an interval comes
to an end. Unless that is an error, the parser has moved on to a place right behind a token that is
not space, and nothing else about it has changed; and so it does in each round of a repetition. -/
theorem Parser.moves_on (p : Parser) (hp : p.cursor ≤ p.tokens.size) {n : Nat} (hn : p.left < n) :
    FormulaProgresses (fun q _ => q.clause) p hn ∧
      FormulaProgresses (fun q _ => q.groupClause) p hn ∧
      p.Progresses p.term ∧ p.Progresses p.interval := by
  have hclause : Follows (p.limit - p.depth) (n := n) (fun q _ => q.clause) _ :=
    fun q _ hroom => q.agrees_clause hroom
  have hgroupClause : Follows (p.limit - p.depth) (n := n) (fun q _ => q.groupClause) _ :=
    fun q _ hroom => q.agrees_groupClause hroom
  refine ⟨?_, ?_, ?_, ?_⟩
  · exact hclause.formulaProgresses hn rfl hp fun hc =>
      FieldClause.exact.advances FieldClause.Derives.replay hc
  · exact hgroupClause.formulaProgresses hn rfl hp fun hc =>
      Element.exact.advances Element.Derives.replay hc
  · exact (p.agrees_term rfl).progresses hp fun _ _ ht =>
      (Term.derives_of_reads ht).1.replay.advances
  · exact p.agrees_interval.progresses hp fun _ _ hi =>
      (Interval.reads_reader_iff.mp hi).replay.advances

/-- A clause in parentheses, read with two others open, up to the blank behind it. -/
theorem Parser.moves_on_parenthesized :
    let p : Parser := ⟨((tokenize "((( x:1 OR y:2 ) ").toOption.getD []).toArray, 2, 17, 2, 3⟩
    let q : Parser := { p with cursor := 15 }
    (p.cursor ≤ p.tokens.size ∧ p.left < 16) ∧ p.clause.map Found.after = .ok q ∧ p.MovesTo q := by
  intro p q
  have hp : p.cursor ≤ p.tokens.size := by decide +kernel
  have hleft : p.left < 16 := by decide +kernel
  have hread : p.clause.map Found.after = .ok q := by decide +kernel
  have hprogress := (p.moves_on hp hleft).1.clause
  refine ⟨⟨hp, hleft⟩, hread, ?_⟩
  cases hstep : p.clause with
  | error halt =>
      rw [hstep] at hread
      cases hread
  | ok found =>
      rw [hstep] at hread hprogress
      exact Except.ok.inj hread ▸ hprogress

end SearchQuery
