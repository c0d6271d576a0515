import SearchQuery.Parse
import SearchQuery.Proofs.Parser.Term
import SearchQuery.Proofs.Token.Segmentation
import SearchQuery.Reader.Whole

/-!
Whole texts: parsing a text is running a reader over its tokens. Since the offsets of the tokens are
counted in what stands before them, what is left at a fault tells its place.
-/

namespace SearchQuery

open Token (Kind Located)

namespace Parser

theorem agrees_fieldClause {room : Nat} (p : Parser) (hroom : p.limit - p.depth = room) :
    Agrees p p.fieldClause ((FieldClause.reader room).run p.rest) := by
  obtain ⟨hname, hrest, halong⟩ := takeRun_eq Field.nameKinds p
  have hreads : (FieldClause.reader room).run p.rest = (Field.reader.run p.rest).andThen
      fun field ts => ((Term.reader room).run ts).map (FieldClause.mk field) := rfl
  rw [hreads, Field.reader]
  simp only [fieldClause, hname, ← hrest]
  by_cases h : (p.takeRun Field.nameKinds).2.isAt [.colon] = true
  · obtain ⟨⟨k, text⟩, ts, hcolon, hk⟩ := exists_rest_of_isAt h
    obtain rfl := List.mem_singleton.mp hk
    obtain ⟨-, hafter, halong'⟩ := bump_of_cons hcolon
    have hterm := (p.takeRun Field.nameKinds).2.bump.2.agrees_term
      (halong'.room.trans (halong.room.trans hroom))
    rw [if_pos h, hcolon]
    rw [hafter] at hterm
    exact .of_along (halong.trans halong') (.bind_ok hterm fun _ _ _ => ⟨_, rfl⟩)
  · rw [if_neg h]
    rw [isAt_eq] at h
    split
    · next text rest heq => simp [heq, Token.startsWith] at h
    · exact .of_along halong (.reject _)

theorem agrees_clause {room : Nat} (p : Parser) (hroom : p.limit - p.depth = room) :
    Agrees p p.clause ((Clause.reader (FieldClause.choices room)
      (Clause.nestedReader FieldClause.choices room)).run p.rest) := by
  rw [clause, Clause.reader, Choice.run_read]
  change Agrees p _ (Choice.readElse _ (.leftParen :: Field.nameKinds) p.rest)
  refine .readElse_cons ?_ (.readElse_cons ?_ .readElse_nil)
  · exact (agrees_nested _ hroom fun _ q _ hroom => q.agrees_clause hroom).map Clause.paren
  · exact (p.agrees_fieldClause hroom).map Clause.leaf
termination_by p.left

theorem agrees_query {room : Nat} (p : Parser) (hroom : p.limit - p.depth = room) :
    Agrees p p.query ((Query.reader room).run p.rest) := by
  have hclause : Follows room (n := p.left + 1) (fun q _ => q.clause) _ := fun q _ hroom =>
    q.agrees_clause hroom
  exact hclause.formula p _ hroom

variable {α : Type} {p : Parser} {limit : Nat}

theorem finish_eq (p : Parser) (expected : List Kind) :
    p.finish expected = if p.rest = [] then .ok () else p.reject expected := by
  have hpeek := p.map_peek?
  unfold finish
  cases h : p.peek? with
  | none =>
      rw [h, Option.map_none, eq_comm, List.head?_eq_none_iff] at hpeek
      rw [if_pos hpeek]
      rfl
  | some t =>
      rw [h, Option.map_some, eq_comm] at hpeek
      rw [if_neg (by rintro hnil; simp [hnil] at hpeek)]

/-- Reading everything gives what a reader gives, or fails at the place of its fault. -/
theorem whole_eq {room : Nat} {read : (p : Parser) → Step α p.left} {r : Reader α}
    (hread : ∀ q : Parser, q.limit - q.depth = room → Agrees q (read q) (r.run q.rest))
    (hroom : p.limit - p.depth = room) (after : List Kind) :
    match r.runWhole after p.rest with
    | .ok a => p.whole read after = .ok a
    | .error fault => ∃ q, p.Along q ∧ q.rest = fault.rest ∧
        p.whole read after = .error (.error (q.report fault)) := by
  have hspace := p.along_skipSpace
  have hagrees := hread p.skipSpace.2 (hspace.room.trans hroom)
  rw [rest_skipSpace] at hagrees
  unfold whole Reader.runWhole
  generalize read p.skipSpace.2 = step at hagrees
  generalize r.run (Token.skipSpace p.rest) = o at hagrees
  cases hagrees with
  | fault h hrest => exact ⟨_, hspace.trans h, hrest, rfl⟩
  | @found a q hq h =>
      have hfinish := q.skipSpace.2.finish_eq after
      rw [rest_skipSpace] at hfinish
      dsimp only
      cases hrest : Token.skipSpace q.rest with
      | nil =>
          rw [if_pos hrest] at hfinish
          change (do q.skipSpace.2.finish after; return a) = _
          rw [hfinish]
          rfl
      | cons t ts =>
          rw [if_neg (by simp [hrest])] at hfinish
          refine ⟨q.skipSpace.2, hspace.trans (h.trans q.along_skipSpace), ?_, ?_⟩
          · rw [rest_skipSpace, hrest]
            rfl
          · change (do q.skipSpace.2.finish after; return a) = _
            rw [hfinish]
            rfl

/-! ### Offsets -/

/-- The offset of every token is the size of what stands before it, and the size that of all. -/
structure Placed (p : Parser) : Prop where
  pos : ∀ before t after, p.tokens.toList = before ++ t :: after →
    t.pos = Token.bytes (before.map Located.token)
  size : p.size = Token.bytes (p.tokens.toList.map Located.token)

theorem Placed.along {q : Parser} (h : p.Placed) (halong : p.Along q) : q.Placed where
  pos := by rw [halong.tokens]; exact h.pos
  size := by rw [halong.tokens, halong.size]; exact h.size

/-- The size of what is left tells how far the parser has come. -/
theorem Placed.offset_eq (h : p.Placed) : p.offset = p.size - Token.bytes p.rest := by
  have hsplit := List.take_append_drop p.cursor p.tokens.toList
  have hpeek : p.peek? = (p.tokens.toList.drop p.cursor).head? := by simp [peek?, List.head?_drop]
  rw [offset, hpeek, rest, h.size]
  cases hdrop : p.tokens.toList.drop p.cursor with
  | nil => simp [Token.bytes]
  | cons t ts =>
      rw [hdrop] at hsplit
      have hpos := h.pos _ t ts hsplit.symm
      conv_rhs => rw [← hsplit]
      simp [hpos, Token.bytes_append]

theorem Placed.report_eq {fault : Fault} (h : p.Placed) (hrest : p.rest = fault.rest) :
    p.report fault = fault.toError p.size p.limit := by
  have hoffset := h.offset_eq
  have hpeek := p.map_peek?
  rw [hrest] at hoffset hpeek
  cases fault with
  | tooDeep rest | badComparison rest => simp only [report, Fault.toError, hoffset]; rfl
  | unexpected rest expected =>
      simp only [Fault.rest] at hpeek hoffset
      cases rest with
      | nil =>
          rw [List.head?_nil, Option.map_eq_none_iff] at hpeek
          simp only [report, unexpected, hpeek, Fault.toError]
      | cons t ts =>
          rw [List.head?_cons, Option.map_eq_some_iff] at hpeek
          obtain ⟨located, hpeek, rfl⟩ := hpeek
          simp only [offset, hpeek, Option.map_some, Option.getD_some] at hoffset
          simp only [report, unexpected, hpeek, Fault.toError, hoffset]

/-- A parser of a text that has all its tokens left. -/
theorem placed_of_tokenize {s : String} {located : List Located} (h : tokenize s = .ok located)
    (limit : Nat) : Placed ⟨located.toArray, 0, s.utf8ByteSize, 0, limit⟩ where
  pos := by
    obtain ⟨-, -, hlocate⟩ := tokenize_eq_ok_iff.mp h
    simpa using Token.eq_locate_iff.mp hlocate
  size := by
    obtain ⟨hjoin, -, -⟩ := tokenize_eq_ok_iff.mp h
    simp only [← hjoin, Token.utf8ByteSize_join]

/-! ### Texts -/

/-- Parsing a text is running a reader over its tokens. It never slices out of range. -/
theorem run_eq {read : (p : Parser) → Step α p.left} {r : Reader α} {limit : Nat}
    (hread : ∀ q : Parser, q.limit - q.depth = limit → Agrees q (read q) (r.run q.rest))
    (after : List Kind) (s : String) :
    (do ((← new s).withLimit limit).whole read after) =
      (r.parse after limit s).mapError Halt.error := by
  have htokenize := tokenize_eq s
  rw [Reader.parse, htokenize]
  simp only [new, Lexer.tokens_eq]
  cases hrun : (Splitter.ofString s).run.result with
  | error e => rfl
  | ok located =>
      have hplaced := placed_of_tokenize (htokenize.trans hrun) limit
      have hwhole := whole_eq (p := ⟨located.toArray, 0, s.utf8ByteSize, 0, limit⟩) hread rfl after
      have hrest : Parser.rest ⟨located.toArray, 0, s.utf8ByteSize, 0, limit⟩ =
          located.map Located.token := by simp [rest]
      rw [hrest] at hwhole
      change Parser.whole read after ⟨located.toArray, 0, s.utf8ByteSize, 0, limit⟩ = _
      cases hreads : r.runWhole after (located.map Located.token) with
      | ok a =>
          rw [hreads] at hwhole
          simp only [hreads]
          exact hwhole
      | error fault =>
          rw [hreads] at hwhole
          obtain ⟨q, halong, hrest, hwhole⟩ := hwhole
          have hreport := (hplaced.along halong).report_eq hrest
          rw [halong.size, halong.limit] at hreport
          simp only [hreads]
          rw [hwhole, hreport]
          rfl

end Parser

theorem mapError_error_ne_panic {α : Type} (result : Except Error α) (panic : Panic) :
    result.mapError Halt.error ≠ .error (.panic panic) := by
  cases result <;> simp [Except.mapError]

/-- What the outside is told is what the parser does. -/
theorem guarded_mapError {α : Type} (result : Except Error α) :
    guarded (result.mapError Halt.error) = result := by
  cases result <;> rfl

theorem Query.runWithin_eq (limit : Nat) (s : String) :
    Query.runWithin limit s = ((Query.reader limit).parse
      [.blank, .word, .ampersand, .bar, .bang] limit s).mapError Halt.error :=
  Parser.run_eq (fun q hroom => q.agrees_query hroom) _ s

theorem Query.parseWithin_eq (limit : Nat) :
    Query.parseWithin limit =
      (Query.reader limit).parse [.blank, .word, .ampersand, .bar, .bang] limit := by
  funext s
  rw [parseWithin, runWithin_eq, guarded_mapError]

theorem Term.runWithin_eq (limit : Nat) (s : String) :
    Term.runWithin limit s = ((Term.reader limit).parse [.blank] limit s).mapError Halt.error :=
  Parser.run_eq (fun q hroom => q.agrees_term hroom) _ s

theorem Term.parseWithin_eq (limit : Nat) :
    Term.parseWithin limit = (Term.reader limit).parse [.blank] limit := by
  funext s
  rw [parseWithin, runWithin_eq, guarded_mapError]

end SearchQuery
