import SearchQuery.Proofs.Grammar.Formula

/-!
Nested clauses. If the leaves are read as they are derived, so are formulas in parentheses: the
reader finds every derivation whose tree is not deeper than the room it is given, and no other.
-/

namespace SearchQuery

open Token (Kind)

variable {α C : Type}

/-! ### Depth -/

theorem Formula.sup_le_iff {measure : C → Nat} {e : Formula C} {n : Nat} :
    e.sup measure ≤ n ↔ ∀ c ∈ e.clauses, measure c ≤ n := by
  unfold Formula.sup
  induction e.clauses with
  | nil => simp
  | cons c cs ih => rw [List.map_cons, List.foldr_cons, Nat.max_le, ih, List.forall_mem_cons]

theorem Formula.sup_map {D : Type} (measure : D → Nat) (f : C → D) (e : Formula C) :
    (e.map f).sup measure = e.sup (measure ∘ f) := by
  simp [Formula.sup]

@[simp]
theorem Clause.depth_leaf (leafDepth : α → Nat) (a : α) :
    (Clause.leaf a).depth leafDepth = leafDepth a := by
  simp [Clause.depth]

@[simp]
theorem Clause.depth_paren (leafDepth : α → Nat) (sub : Formula (Clause α)) :
    (Clause.paren sub).depth leafDepth = sub.sup (Clause.depth leafDepth) + 1 := by
  simp only [Clause.depth, Clause.fold_paren, Formula.sup_map]
  rfl

theorem Clause.depth_paren_le_iff {leafDepth : α → Nat} {sub : Formula (Clause α)} {n : Nat} :
    (Clause.paren sub).depth leafDepth ≤ n + 1 ↔
      ∀ c ∈ sub.clauses, c.depth leafDepth ≤ n := by
  rw [Clause.depth_paren, Nat.add_le_add_iff_right, Formula.sup_le_iff]

/-! ### Derivations of clauses -/

theorem Enclosed.suffix {p : Production α} {ts rest : List Token} {a : α}
    (hp : ∀ {ts rest}, p ts a rest → rest <:+ ts) (h : Enclosed p ts a rest) : rest <:+ ts := by
  obtain ⟨-, hspaces, hinner, hspaces', -⟩ := h
  have hclose := (List.suffix_cons _ rest).trans (hspaces'.suffix.trans (hp hinner))
  exact hclose.trans (hspaces.suffix.trans (List.suffix_cons _ _))

theorem Enclosed.startsWith {p : Production α} {ts rest : List Token} {a : α}
    (h : Enclosed p ts a rest) : Token.startsWith [.leftParen] ts = true := by
  obtain ⟨hopening, -⟩ := h
  exact Token.startsWith_cons.mpr (by simp [hopening])

theorem Clause.Derives.suffix {p : Production α} (hp : ∀ {ts a rest}, p ts a rest → rest <:+ ts)
    {ts rest : List Token} {c : Clause α} (h : Clause.Derives p ts c rest) : rest <:+ ts := by
  induction c generalizing ts rest with
  | leaf a =>
      cases h with
      | leaf ha => exact hp ha
  | paren sub ih =>
      cases h with
      | paren hsub =>
          apply hsub.suffix
          intro us rest hformula
          -- the induction hypothesis makes every clause of the formula a suffix of its tokens
          have hclauses : Formula.Derives (fun us _ rest => rest <:+ us) us sub rest :=
            hformula.imp fun c hc us rest => ih c hc
          exact hclauses.suffix id

theorem Clause.Derives.skipSpace_eq {p : Production α}
    (hp : ∀ {ts a rest}, p ts a rest → Token.skipSpace ts = ts) {ts rest : List Token}
    {c : Clause α} (h : Clause.Derives p ts c rest) : Token.skipSpace ts = ts := by
  cases h with
  | leaf ha => exact hp ha
  | paren hsub => exact Token.skipSpace_eq_of_startsWith hsub.startsWith (by decide)

/-! ### Reading clauses -/

/-- The choices read just the phrases of a production, as far as there is room for them. -/
structure Choice.Exact (choices : Nat → List (Choice α)) (p : Production α) (depth : α → Nat) :
    Prop where
  disjoint (room : Nat) :
    ((choices room).map Choice.starts).Pairwise fun ks ls => ∀ k ∈ ks, k ∉ ls
  starts {room : Nat} {c : Choice α} : c ∈ choices room → .leftParen ∉ c.starts
  sound {room : Nat} {ts rest : List Token} {a : α} :
    (Choice.read (choices room)).Reads ts a rest → p ts a rest ∧ depth a ≤ room
  complete {room : Nat} {ts rest : List Token} {a : α} :
    p ts a rest → depth a ≤ room → Follows rest → (Choice.read (choices room)).Reads ts a rest
  skipSpace_eq {ts rest : List Token} {a : α} : p ts a rest → Token.skipSpace ts = ts
  suffix {ts rest : List Token} {a : α} : p ts a rest → rest <:+ ts

/-- The formulas that a reader of nested formulas should find with some room. -/
def Clause.Nested (p : Production α) (depth : α → Nat) (room : Nat) :
    Production (Formula (Clause α)) :=
  fun ts sub rest =>
    Enclosed (Formula.Derives (Clause.Derives p)) ts sub rest ∧
      (Clause.paren sub).depth depth ≤ room

namespace Choice.Exact

variable {leaf : Nat → List (Choice α)} {p : Production α} {depth : α → Nat} {room : Nat}
  {nested : Reader (Formula (Clause α))} {ts rest : List Token}

theorem reads_reader_iff (h : Choice.Exact leaf p depth) {c : Clause α} :
    (Clause.reader (leaf room) nested).Reads ts c rest ↔
      (∃ a, (Choice.read (leaf room)).Reads ts a rest ∧ c = .leaf a) ∨
        Token.startsWith [.leftParen] ts = true ∧ ∃ sub, nested.Reads ts sub rest ∧
          c = .paren sub := by
  have hdisjoint : ((⟨[.leftParen], nested.map .paren⟩ ::
      (leaf room).map (Choice.map Clause.leaf)).map Choice.starts).Pairwise
        fun ks ls => ∀ k ∈ ks, k ∉ ls := by
    rw [List.map_cons, List.map_map, List.pairwise_cons]
    refine ⟨?_, h.disjoint room⟩
    intro ls hls k hk
    obtain ⟨c, hc, rfl⟩ := List.mem_map.mp hls
    rw [List.mem_singleton] at hk
    subst hk
    exact h.starts hc
  rw [Clause.reader, Choice.reads_read_iff hdisjoint]
  simp only [Choice.reads_read_iff (h.disjoint room), List.mem_cons, List.mem_map,
    exists_eq_or_imp, Reader.reads_map_iff, exists_exists_and_eq_and, Choice.map]
  grind

section Room

variable (h : Choice.Exact leaf p depth)
  (hnested : ∀ {ts rest sub}, nested.Reads ts sub rest ↔ Clause.Nested p depth room ts sub rest)

include h hnested

theorem derives_of_reads_reader {c : Clause α}
    (hc : (Clause.reader (leaf room) nested).Reads ts c rest) :
    Clause.Derives p ts c rest ∧ c.depth depth ≤ room := by
  rcases h.reads_reader_iff.mp hc with ⟨a, ha, rfl⟩ | ⟨-, sub, hsub, rfl⟩
  · obtain ⟨ha, hdepth⟩ := h.sound ha
    exact ⟨.leaf ha, by simpa using hdepth⟩
  · obtain ⟨hsub, hdepth⟩ := hnested.mp hsub
    exact ⟨.paren hsub, hdepth⟩

theorem reads_reader_of_derives {c : Clause α} (hc : Clause.Derives p ts c rest)
    (hdepth : c.depth depth ≤ room) (hrest : Follows rest) :
    (Clause.reader (leaf room) nested).Reads ts c rest := by
  rw [h.reads_reader_iff]
  cases hc with
  | leaf ha => exact Or.inl ⟨_, h.complete ha (by simpa using hdepth) hrest, rfl⟩
  | paren hsub => exact Or.inr ⟨hsub.startsWith, _, hnested.mpr ⟨hsub, hdepth⟩, rfl⟩

theorem formula_derives_of_reads {e : Formula (Clause α)}
    (he : (Formula.reader (Clause.reader (leaf room) nested)).Reads ts e rest) :
    Formula.Derives (Clause.Derives p) ts e rest ∧
      ∀ c ∈ e.clauses, c.depth depth ≤ room := by
  have hreads := Formula.derives_of_reads he
  have hsuffix : ∀ {us c rest}, (Clause.reader (leaf room) nested).Reads us c rest →
      rest <:+ us :=
    fun hc => (h.derives_of_reads_reader hnested hc).1.suffix h.suffix
  refine ⟨hreads.imp fun c _ us rest hc => (h.derives_of_reads_reader hnested hc).1, ?_⟩
  intro c hc
  obtain ⟨us, mid, -, hread⟩ := hreads.exists_of_mem hsuffix hc
  exact (h.derives_of_reads_reader hnested hread).2

theorem formula_reads_of_derives {e : Formula (Clause α)}
    (he : Formula.Derives (Clause.Derives p) ts e rest)
    (hdepth : ∀ c ∈ e.clauses, c.depth depth ≤ room) (hrest : Stops rest) :
    (Formula.reader (Clause.reader (leaf room) nested)).Reads ts e rest := by
  -- a clause is read as derived only before something that may follow it
  have hreads : Formula.Derives (Clause.reader (leaf room) nested).Reads ts e rest := by
    apply (he.followed hrest.follows).imp
    intro c hc us rest hclause
    obtain ⟨hclause, hfollows⟩ := hclause
    exact h.reads_reader_of_derives hnested hclause (hdepth c hc) hfollows
  apply Formula.reads_of_derives ?_ hreads hrest
  intro us c rest hc
  exact (h.derives_of_reads_reader hnested hc).1.skipSpace_eq h.skipSpace_eq

end Room

/-- Formulas in parentheses are found whenever the room is enough for them, and never else. -/
theorem reads_nestedReader_iff (h : Choice.Exact leaf p depth) {sub : Formula (Clause α)} :
    (Clause.nestedReader leaf room).Reads ts sub rest ↔
      Clause.Nested p depth room ts sub rest := by
  -- the readers inside have one parenthesis less to open, so the induction is on the room
  induction room generalizing ts sub rest with
  | zero =>
      constructor
      · intro hread
        cases hread
      · rintro ⟨-, hdepth⟩
        simp at hdepth
  | succ room ih =>
      have hreader : Clause.nestedReader leaf (room + 1) = (Formula.reader
          (Clause.reader (leaf room) (Clause.nestedReader leaf room))).enclosed := rfl
      rw [hreader, Reader.reads_enclosed_iff, Clause.Nested, Clause.depth_paren_le_iff]
      constructor
      · rintro ⟨opening, closing, us, stop, rfl, hopening, hinner, hclose, hclosing⟩
        obtain ⟨hformula, hdepth⟩ := h.formula_derives_of_reads ih hinner
        exact ⟨.mk hopening (spaces_skipSpace us) hformula (hclose ▸ spaces_skipSpace stop)
          hclosing, hdepth⟩
      · rintro ⟨⟨hopening, hspaces, hformula, hspaces', hclosing⟩, hdepth⟩
        have hread := h.formula_reads_of_derives ih hformula hdepth
          (hspaces'.closes_cons hclosing).stops
        have hclose := hspaces'.skipSpace_eq_cons
          (by simp [Token.isSpace, Token.Kind.isSpace, hclosing])
        have hstart := hspaces.skipSpace_eq.trans
          (hformula.skipSpace_eq fun hc => hc.skipSpace_eq h.skipSpace_eq)
        exact ⟨_, _, _, _, rfl, hopening, hstart ▸ hread, hclose, hclosing⟩

end Choice.Exact

end SearchQuery
