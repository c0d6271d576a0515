import Mathlib.Data.List.Forall2
import SearchQuery.Proofs.Parser.Query

/-!
Two limits for one text. With less room a reader does what it does with more, until it gives up
because a parenthesis too many is opened: room is only ever asked for, and never looked at.
-/

namespace SearchQuery

variable {α β γ C : Type}

/-! ### Outcomes -/

/-- One outcome is the other, or else it is that a parenthesis too many was opened. -/
inductive Outcome.Capped : Outcome α → Outcome α → Prop where
  | same {o : Outcome α} : Outcome.Capped o o
  | tooDeep {rest : List Token} {o : Outcome α} : Outcome.Capped (.error (.tooDeep rest)) o

theorem Outcome.Capped.map {o o' : Outcome α} (f : α → β) (h : o.Capped o') :
    (o.map f).Capped (o'.map f) := by
  cases h with
  | same => exact .same
  | tooDeep => exact .tooDeep

theorem Outcome.Capped.andThen {o o' : Outcome α} {next next' : α → List Token → Outcome β}
    (h : o.Capped o') (hnext : ∀ a ts, (next a ts).Capped (next' a ts)) :
    (o.andThen next).Capped (o'.andThen next') := by
  cases h with
  | tooDeep => exact .tooDeep
  | same =>
      cases o with
      | error e => exact .same
      | ok found => exact hnext found.1 found.2

/-! ### Readers -/

/-- One reader does what the other does, or else finds that a parenthesis too many is opened. -/
def Reader.Capped (r r' : Reader α) : Prop :=
  ∀ ts, (r.run ts).Capped (r'.run ts)

namespace Reader.Capped

theorem refl (r : Reader α) : r.Capped r :=
  fun _ => .same

theorem map {r r' : Reader α} (f : α → β) (h : r.Capped r') : (r.map f).Capped (r'.map f) :=
  fun ts => (h ts).map f

theorem many {ahead : Lookahead γ} {item item' : γ → Reader α}
    (h : ∀ g, (item g).Capped (item' g)) (ts : List Token) :
    (Reader.many ahead item ts).Capped (Reader.many ahead item' ts) := by
  -- both repetitions see the same next item, and go on from the same place behind it
  fun_induction Reader.many ahead item ts with
  | case1 ts hahead =>
      rw [Reader.many_eq]
      simp only [hahead]
      exact .same
  | case2 ts g start hahead e hread =>
      have hitem := (h g start).andThen fun a rest =>
        Outcome.Capped.same (o := (Reader.many ahead item' rest).map (a :: ·))
      rw [hread] at hitem
      rw [Reader.many_eq]
      simp only [hahead]
      exact hitem
  | case3 ts g start hahead a rest hread _ ih =>
      have hitem := h g start
      rw [hread] at hitem
      rw [Reader.many_eq ahead item']
      simp only [hahead]
      generalize (item' g).run start = o at hitem
      cases hitem with
      | same => exact ih.map (a :: ·)

theorem withMany {first first' : Reader α} {ahead : Lookahead γ} {item item' : γ → Reader β}
    (hfirst : first.Capped first') (hitem : ∀ g, (item g).Capped (item' g)) :
    (first.withMany ahead item).Capped (first'.withMany ahead item') :=
  fun ts => (hfirst ts).andThen fun a ts => (many hitem ts).map (Prod.mk a)

theorem enclosed {inner inner' : Reader α} (h : inner.Capped inner') :
    inner.enclosed.Capped inner'.enclosed :=
  fun _ => Outcome.Capped.same.andThen fun _ ts => (h (Token.skipSpace ts)).andThen fun _ _ => .same

end Reader.Capped

section Formula

variable {clause clause' : Reader C} (h : clause.Capped clause')

include h

theorem Operand.capped_reader : (Operand.reader clause).Capped (Operand.reader clause') := by
  intro ts
  simp only [Operand.reader]
  split
  · next rest _ => exact (h (Token.skipSpace rest)).map (Operand.mk true)
  · exact (h ts).map (Operand.mk false)

theorem Branch.capped_reader : (Branch.reader clause).Capped (Branch.reader clause') := by
  apply Reader.Capped.map
  apply (Operand.capped_reader h).withMany
  intro explicit
  exact (Operand.capped_reader h).map (Link.mk explicit)

theorem Formula.capped_reader : (Formula.reader clause).Capped (Formula.reader clause') := by
  apply Reader.Capped.map
  apply (Branch.capped_reader h).withMany
  intro _
  exact Branch.capped_reader h

end Formula

/-! ### Choices -/

/-- The two choices are called for by the same tokens, and read alike. -/
structure Choice.Capped (c c' : Choice α) : Prop where
  starts : c.starts = c'.starts
  reader : c.reader.Capped c'.reader

theorem Choice.capped_refl (c : Choice α) : c.Capped c :=
  ⟨rfl, .refl _⟩

theorem Choice.Capped.map {c c' : Choice α} (f : α → β) (h : c.Capped c') :
    (c.map f).Capped (c'.map f) :=
  ⟨h.starts, h.reader.map f⟩

theorem Choice.flatMap_starts_eq {cs cs' : List (Choice α)}
    (h : List.Forall₂ Choice.Capped cs cs') :
    cs.flatMap Choice.starts = cs'.flatMap Choice.starts := by
  induction h with
  | nil => rfl
  | cons hc _ ih => rw [List.flatMap_cons, List.flatMap_cons, hc.starts, ih]

theorem Choice.capped_read {cs cs' : List (Choice α)} (h : List.Forall₂ Choice.Capped cs cs') :
    (Choice.read cs).Capped (Choice.read cs') := by
  intro ts
  simp only [read, flatMap_starts_eq h]
  -- the error of the whole list is the same, so only the choice that is taken matters
  generalize cs'.flatMap Choice.starts = kinds
  induction h with
  | nil => exact .same
  | @cons c _ _ _ hc _ ih =>
      by_cases hstart : Token.startsWith c.starts ts = true
      · simp only [List.find?_cons, ← hc.starts, hstart]
        exact hc.reader ts
      · simp only [List.find?_cons, ← hc.starts, hstart]
        exact ih

/-! ### Nested clauses, terms and queries -/

section Clause

variable {leaf leaf' : Nat → List (Choice α)} {room room' : Nat}

theorem Clause.capped_reader {nested nested' : Reader (Formula (Clause α))}
    (hleaf : List.Forall₂ Choice.Capped (leaf room) (leaf room'))
    (hnested : nested.Capped nested') :
    (Clause.reader (leaf room) nested).Capped (Clause.reader (leaf room') nested') := by
  apply Choice.capped_read
  refine .cons ⟨rfl, hnested.map Clause.paren⟩ ?_
  rw [List.forall₂_map_left_iff, List.forall₂_map_right_iff]
  exact hleaf.imp fun _ _ hc => hc.map Clause.leaf

theorem Clause.capped_nestedReader
    (hleaf : ∀ {n n'}, n ≤ n' → List.Forall₂ Choice.Capped (leaf n) (leaf n'))
    (h : room ≤ room') :
    (Clause.nestedReader leaf room).Capped (Clause.nestedReader leaf room') := by
  induction room generalizing room' with
  | zero => exact fun _ => .tooDeep
  | succ room ih =>
      cases room' with
      | zero => omega
      | succ room' =>
          have hle : room ≤ room' := by omega
          exact (Formula.capped_reader (Clause.capped_reader (hleaf hle) (ih hle))).enclosed

end Clause

section Room

variable {room room' : Nat} (h : room ≤ room')

include h

theorem Term.capped_reader : (Term.reader room).Capped (Term.reader room') := by
  have hgroup : (Group.reader room).Capped (Group.reader room') := by
    apply Clause.capped_nestedReader ?_ h
    intro n n' _
    exact List.forall₂_same.mpr fun c _ => c.capped_refl
  apply Choice.capped_read
  refine .cons (Choice.capped_refl _) (.cons (Choice.capped_refl _) ?_)
  apply List.rel_append
  · exact List.forall₂_same.mpr fun c _ => c.capped_refl
  · refine .cons ⟨rfl, ?_⟩ (.cons (Choice.capped_refl _) .nil)
    intro ts
    exact ((hgroup ts).andThen fun _ _ => .same).map _

theorem FieldClause.capped_choices :
    List.Forall₂ Choice.Capped (FieldClause.choices room) (FieldClause.choices room') := by
  refine .cons ⟨rfl, ?_⟩ .nil
  intro ts
  exact Outcome.Capped.same.andThen fun f us => (Term.capped_reader h us).map (FieldClause.mk f)

theorem Query.capped_reader : (Query.reader room).Capped (Query.reader room') := by
  apply Formula.capped_reader
  apply Clause.capped_reader (FieldClause.capped_choices h)
  exact Clause.capped_nestedReader FieldClause.capped_choices h

end Room

/-! ### Whole texts -/

theorem Reader.Capped.parse {r r' : Reader α} (h : r.Capped r') (after : List Token.Kind)
    (limit limit' : Nat) (s : String) :
    r.parse after limit s = r'.parse after limit' s ∨
      ∃ pos, r.parse after limit s = .error (.tooDeep pos limit) := by
  simp only [Reader.parse]
  cases tokenize s with
  | error e => exact Or.inl rfl
  | ok located =>
      have hwhole := h (Token.skipSpace (located.map Token.Located.token))
      simp only [Reader.runWhole]
      generalize r.run _ = o, r'.run _ = o' at hwhole
      cases hwhole with
      | tooDeep => exact Or.inr ⟨_, rfl⟩
      | same =>
          cases o with
          | ok found =>
              obtain ⟨a, rest⟩ := found
              left
              simp only
              cases Token.skipSpace rest <;> rfl
          | error fault =>
              cases fault with
              | tooDeep rest => exact Or.inr ⟨_, rfl⟩
              | unexpected rest expected => cases rest <;> exact Or.inl rfl
              | badComparison rest => exact Or.inl rfl

end SearchQuery
