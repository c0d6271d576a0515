import SearchQuery.Proofs.Canonical.WellFormed

/-!
The tokens of canonical texts, written down directly from the tree. The lexer finds just these
tokens if the tree is well-formed: wherever two parts meet there is space or a symbol between them.
-/

namespace SearchQuery

open Token (Kind Segmented Lexical join)

variable {α : Type} {C D : Type}

/-! ### Spellings -/

/-- The space that canonical texts put between operands. -/
def Token.space : Token := ⟨.blank, " "⟩

open Token (space)

/-- The canonical word for a keyword. -/
def Keyword.token : Keyword → Token
  | .and => ⟨.word, "AND"⟩
  | .or => ⟨.word, "OR"⟩
  | .not => ⟨.word, "NOT"⟩

def Literal.spell : Literal → List Token
  | .bare ts => ts
  | .phrase ts => ⟨.quote, "\""⟩ :: ts ++ [⟨.quote, "\""⟩]

def Side.spell : Side → List Token
  | .unbounded => [⟨.wildcard, "*"⟩]
  | .literal l => l.spell

def Interval.spell (i : Interval) : List Token :=
  (if i.leftClosed then ⟨.leftBracket, "["⟩ else ⟨.leftBrace, "\x7b"⟩) :: i.left.spell ++
    space :: ⟨.word, "TO"⟩ :: space :: i.right.spell ++
    [if i.rightClosed then ⟨.rightBracket, "]"⟩ else ⟨.rightBrace, "\x7d"⟩]

def Range.spell : Range → List Token
  | .comparison op value => ⟨.comparison, op.symbol⟩ :: value.spell
  | .interval i => i.spell

/-- A magnitude as one number, or as two with the first point between them. -/
def Boost.spellMagnitude (m : String) : List Token :=
  match m.toList.dropWhile (· != '.') with
  | [] => [⟨.number, m⟩]
  | _ :: fraction =>
      [⟨.number, .ofList (m.toList.takeWhile (· != '.'))⟩, ⟨.dot, "."⟩,
        ⟨.number, .ofList fraction⟩]

def Boost.spell (b : Boost) : List Token :=
  ⟨.caret, "^"⟩ :: (b.magnitude.map spellMagnitude).getD []

def Fuzzy.spell (f : Fuzzy) : List Token :=
  ⟨.tilde, "~"⟩ :: f.distance.toList.map (Token.mk .number)

def Suffix.spell : Suffix → List Token
  | .fuzzy f => f.spell
  | .boost b => b.spell

def Element.spell : Element → List Token
  | .literal l => l.spell
  | .range r => r.spell

section Formula

variable (f : C → List Token)

def Operand.spell (o : Operand C) : List Token :=
  if o.negated then Keyword.not.token :: space :: f o.clause else f o.clause

/-- An operand with what stands before it. -/
def Link.spell (l : Link C) : List Token :=
  if l.explicit then space :: Keyword.and.token :: space :: l.operand.spell f
  else space :: l.operand.spell f

def Branch.spell (b : Branch C) : List Token :=
  b.head.spell f ++ b.rest.flatMap (Link.spell f)

/-- A branch with the OR before it. -/
def Branch.spellNext (b : Branch C) : List Token :=
  space :: Keyword.or.token :: space :: b.spell f

def Formula.spell (e : Formula C) : List Token :=
  e.head.spell f ++ e.rest.flatMap (Branch.spellNext f)

end Formula

/-- A formula in parentheses. -/
def Formula.spellEnclosed (ts : List Token) : List Token :=
  ⟨.leftParen, "("⟩ :: space :: ts ++ [space, ⟨.rightParen, ")"⟩]

def Clause.spell (f : α → List Token) : Clause α → List Token :=
  fold f fun sub => Formula.spellEnclosed (sub.spell id)

def Group.spell (g : Group) : List Token :=
  Formula.spell (Clause.spell Element.spell) g

def Term.spell : Term → List Token
  | .regexp ts => ⟨.slash, "/"⟩ :: ts ++ [⟨.slash, "/"⟩]
  | .literal l suffix => l.spell ++ (suffix.map Suffix.spell).getD []
  | .range r boost => r.spell ++ (boost.map Boost.spell).getD []
  | .group g boost => Formula.spellEnclosed g.spell ++ (boost.map Boost.spell).getD []

def FieldClause.spell (c : FieldClause) : List Token :=
  c.field.tokens ++ ⟨.colon, ":"⟩ :: c.term.spell

def Query.spell (q : Query) : List Token :=
  Formula.spell (Clause.spell FieldClause.spell) q

/-! ### The text of a spelling -/

namespace Token

@[simp]
theorem join_nil : join [] = "" := rfl

@[simp]
theorem join_append (ts us : List Token) : join (ts ++ us) = join ts ++ join us := by
  simp [join]

@[simp]
theorem join_cons (t : Token) (ts : List Token) : join (t :: ts) = t.text ++ join ts := by
  simp [join]

theorem join_flatMap {xs : List α} {g : α → List Token} {text : α → String}
    (h : ∀ x ∈ xs, join (g x) = text x) : join (xs.flatMap g) = String.join (xs.map text) := by
  induction xs with
  | nil => rfl
  | cons x xs ih =>
      have hxs := ih fun y hy => h y (List.mem_cons_of_mem x hy)
      simp [h x List.mem_cons_self, hxs]

end Token

@[simp]
theorem Literal.join_spell (l : Literal) : join l.spell = l.render := by
  cases l <;> simp [spell, render, String.append_assoc]

@[simp]
theorem Side.join_spell (s : Side) : join s.spell = s.render := by
  cases s <;> simp [spell, render]

@[simp]
theorem Interval.join_spell (i : Interval) : join i.spell = i.render := by
  obtain ⟨leftClosed, left, right, rightClosed⟩ := i
  cases leftClosed <;> cases rightClosed <;>
    simp [spell, render, space, ← String.toList_inj]

@[simp]
theorem Range.join_spell (r : Range) : join r.spell = r.render := by
  cases r <;> simp [spell, render]

@[simp]
theorem Boost.join_spellMagnitude (m : String) : join (spellMagnitude m) = m := by
  unfold spellMagnitude
  split
  · simp
  · next c fraction hdrop =>
      have hpoint : c = '.' := by
        have hhead : c ∈ (m.toList.dropWhile (· != '.')).head? := by simp [hdrop]
        simpa using not_of_mem_head?_dropWhile hhead
      have happ := List.takeWhile_append_dropWhile (p := (· != '.')) (l := m.toList)
      rw [hdrop, hpoint] at happ
      simpa [← String.toList_inj] using happ

@[simp]
theorem Boost.join_spell (b : Boost) : join b.spell = b.render := by
  obtain ⟨magnitude⟩ := b
  cases magnitude <;> simp [spell, render]

@[simp]
theorem Fuzzy.join_spell (f : Fuzzy) : join f.spell = f.render := by
  obtain ⟨distance⟩ := f
  cases distance <;> simp [spell, render]

@[simp]
theorem Suffix.join_spell (s : Suffix) : join s.spell = s.render := by
  cases s <;> simp [spell, render]

@[simp]
theorem Element.join_spell (e : Element) : join e.spell = e.render := by
  cases e <;> simp [spell, render]

section Formula

variable {f : C → List Token} {text : C → String}

theorem Operand.join_spell {o : Operand C} (h : join (f o.clause) = text o.clause) :
    join (o.spell f) = o.render text := by
  obtain ⟨negated, c⟩ := o
  cases negated <;> simp_all [spell, render, space, Keyword.token, ← String.toList_inj]

theorem Link.join_spell {l : Link C} (h : join (f l.operand.clause) = text l.operand.clause) :
    join (l.spell f) = l.render text := by
  have ho := Operand.join_spell h
  obtain ⟨explicit, o⟩ := l
  cases explicit <;> simp_all [spell, render, space, Keyword.token, ← String.toList_inj]

theorem Branch.join_spell {b : Branch C} (h : ∀ c ∈ b.clauses, join (f c) = text c) :
    join (b.spell f) = b.render text := by
  simp only [clauses, operands, List.map_cons, List.map_map, List.forall_mem_cons,
    List.forall_mem_map, Function.comp_apply] at h
  obtain ⟨hhead, hrest⟩ := h
  rw [spell, Token.join_append, Operand.join_spell hhead,
    Token.join_flatMap fun l hl => Link.join_spell (hrest l hl)]
  rfl

theorem Formula.join_spell {e : Formula C} (h : ∀ c ∈ e.clauses, join (f c) = text c) :
    join (e.spell f) = e.render text := by
  have hbranch : ∀ b ∈ e.branches, join (b.spell f) = b.render text :=
    fun b hb => Branch.join_spell fun c hc => h c (List.mem_flatMap.mpr ⟨b, hb, hc⟩)
  have hnext : ∀ b ∈ e.rest, join (b.spellNext f) = " OR " ++ b.render text := by
    intro b hb
    have hb := hbranch b (List.mem_cons_of_mem _ hb)
    simp [Branch.spellNext, hb, space, Keyword.token, ← String.toList_inj]
  rw [spell, Token.join_append, hbranch e.head List.mem_cons_self, Token.join_flatMap hnext]
  rfl

end Formula

theorem Operand.spell_map (f : D → List Token) (g : C → D) (o : Operand C) :
    (o.map g).spell f = o.spell (f ∘ g) := rfl

theorem Link.spell_map (f : D → List Token) (g : C → D) (l : Link C) :
    (l.map g).spell f = l.spell (f ∘ g) := rfl

theorem Branch.spell_map (f : D → List Token) (g : C → D) (b : Branch C) :
    (b.map g).spell f = b.spell (f ∘ g) := by
  simp [spell, map, Operand.spell_map, Link.spell_map, List.flatMap_map]

theorem Branch.spellNext_map (f : D → List Token) (g : C → D) (b : Branch C) :
    (b.map g).spellNext f = b.spellNext (f ∘ g) := by
  simp [spellNext, spell_map]

theorem Formula.spell_map (f : D → List Token) (g : C → D) (e : Formula C) :
    (e.map g).spell f = e.spell (f ∘ g) := by
  simp [spell, map, Branch.spell_map, Branch.spellNext_map, List.flatMap_map]

@[simp]
theorem Clause.spell_leaf (f : α → List Token) (a : α) : (leaf a).spell f = f a := by
  simp [spell]

@[simp]
theorem Clause.spell_paren (f : α → List Token) (sub : Formula (Clause α)) :
    (paren sub).spell f = Formula.spellEnclosed (sub.spell (spell f)) := by
  simp only [spell, fold_paren, Formula.spell_map]
  rfl

theorem Formula.join_spellEnclosed (ts : List Token) :
    join (spellEnclosed ts) = "( " ++ join ts ++ " )" := by
  simp [spellEnclosed, space, ← String.toList_inj]

theorem Clause.join_spell {f : α → List Token} {text : α → String} (h : ∀ a, join (f a) = text a)
    (c : Clause α) : join (c.spell f) = c.render text := by
  induction c with
  | leaf a => simp [h]
  | paren sub ih => simp [Formula.join_spellEnclosed, Formula.join_spell ih]

@[simp]
theorem Group.join_spell (g : Group) : join g.spell = g.render :=
  Formula.join_spell fun c _ => Clause.join_spell Element.join_spell c

@[simp]
theorem Term.join_spell (t : Term) : join t.spell = t.render := by
  cases t with
  | regexp ts => simp [spell, render, String.append_assoc]
  | literal l suffix => cases suffix <;> simp [spell, render]
  | range r boost => cases boost <;> simp [spell, render, Boost.renderOption]
  | group g boost =>
      cases boost <;> simp [spell, render, Boost.renderOption, Formula.join_spellEnclosed]

theorem FieldClause.join_spell (c : FieldClause) : join c.spell = c.render := by
  simp [spell, render, Field.name, ← String.toList_inj]

/-- Spelling a query gives the tokens of its canonical text. -/
theorem Query.join_spell (q : Query) : join (Query.spell q) = Query.render q :=
  Formula.join_spell fun c _ => Clause.join_spell FieldClause.join_spell c

/-! ### How spellings are split -/

namespace Token

/-- A segmented list that space on either side would leave as it is. -/
structure Solid (ts : List Token) : Prop where
  segmented : Segmented ts
  ne_nil : ts ≠ []
  first : ∀ t ∈ ts.head?, t.isSpace = false
  last : ∀ t ∈ ts.getLast?, t.isSpace = false ∧ t.kind ≠ .backslash

theorem solid_singleton {t : Token} (ht : t.Lexical) (hspace : t.isSpace = false)
    (hback : t.kind ≠ .backslash) : Solid [t] where
  segmented := segmented_cons.mpr ⟨ht, segmented_nil, by simp⟩
  ne_nil := List.cons_ne_nil t []
  first := by simpa using hspace
  last := by simpa using ⟨hspace, hback⟩

namespace Solid

variable {ts us : List Token}

/-- Solid lists may meet where a symbol stands on one side of the border. -/
theorem append (hts : Solid ts) (hus : Solid us)
    (hborder : (∀ t ∈ ts.getLast?, t.kind.isRun = false) ∨ ∀ u ∈ us.head?, u.kind.isRun = false) :
    Solid (ts ++ us) where
  segmented := by
    refine segmented_append.mpr ⟨hts.segmented, hus.segmented, ?_⟩
    intro t ht u hu
    refine ⟨(hts.last t ht).2, ?_⟩
    intro hrun hkind
    rcases hborder with hborder | hborder
    · simp [hborder t ht] at hrun
    · simp [hkind, hborder u hu] at hrun
  ne_nil := by simp [hts.ne_nil]
  first := by
    rw [List.head?_append_of_ne_nil _ hts.ne_nil]
    exact hts.first
  last := by
    rw [List.getLast?_append_of_ne_nil _ hus.ne_nil]
    exact hus.last

/-- Solid lists may meet where there is space between them. -/
theorem spaced (hts : Solid ts) (hus : Solid us) : Solid (ts ++ space :: us) where
  segmented := by
    have hspace : space.Lexical := by decide
    refine segmented_append.mpr ⟨hts.segmented, segmented_cons.mpr ⟨hspace, hus.segmented, ?_⟩, ?_⟩
    · intro u hu
      have hfirst := hus.first u hu
      refine ⟨by decide, ?_⟩
      intro _ hkind
      simp [isSpace, ← hkind, space, Kind.isSpace] at hfirst
    · intro t ht u hu
      cases hu
      obtain ⟨hlast, hback⟩ := hts.last t ht
      refine ⟨hback, ?_⟩
      intro _ hkind
      simp [isSpace, hkind, space, Kind.isSpace] at hlast
  ne_nil := by simp
  first := by
    rw [List.head?_append_of_ne_nil _ hts.ne_nil]
    exact hts.first
  last := by
    rw [List.getLast?_append_of_ne_nil _ (List.cons_ne_nil space us),
      ← List.singleton_append, List.getLast?_append_of_ne_nil _ hus.ne_nil]
    exact hus.last

theorem cons {t : Token} (ht : Solid [t]) (hrun : t.kind.isRun = false) (hts : Solid ts) :
    Solid (t :: ts) :=
  ht.append hts (Or.inl (by simpa using hrun))

theorem concat {t : Token} (hts : Solid ts) (ht : Solid [t]) (hrun : t.kind.isRun = false) :
    Solid (ts ++ [t]) :=
  hts.append ht (Or.inr (by simpa using hrun))

theorem append_flatMap {xs : List α} {g : α → List Token} (hts : Solid ts)
    (h : ∀ x ∈ xs, ∃ us, g x = space :: us ∧ Solid us) : Solid (ts ++ xs.flatMap g) := by
  induction xs generalizing ts with
  | nil => simpa using hts
  | cons x xs ih =>
      obtain ⟨us, hx, hus⟩ := h x List.mem_cons_self
      rw [List.flatMap_cons, ← List.append_assoc, hx]
      exact ih (hts.spaced hus) fun y hy => h y (List.mem_cons_of_mem x hy)

end Solid

theorem WellFormedRun.solid {kinds : List Kind} {ts : List Token} (h : WellFormedRun kinds ts)
    (hkinds : ∀ k ∈ kinds, k.isSpace = false ∧ k ≠ .backslash) : Solid ts where
  segmented := (splitsInto_iff.mp h.splits).2
  ne_nil := h.nonempty
  first t ht := (hkinds _ (h.kinds t (List.mem_of_mem_head? ht))).1
  last t ht := hkinds _ (h.kinds t (List.mem_of_getLast? ht))

theorem WellFormedBetween.solid {delimiter : Token} {ts : List Token}
    (h : WellFormedBetween delimiter ts) (hspace : delimiter.isSpace = false)
    (hback : delimiter.kind ≠ .backslash) : Solid (delimiter :: ts ++ [delimiter]) where
  segmented := (splitsInto_iff.mp h.splits).2
  ne_nil := by simp
  first := by simpa using hspace
  last t ht := by
    rw [List.getLast?_concat] at ht
    cases ht
    exact ⟨hspace, hback⟩

end Token

open Token (Solid)

theorem Literal.WellFormed.solid {l : Literal} (h : l.WellFormed) : Solid l.spell := by
  cases l with
  | bare ts => exact Token.WellFormedRun.solid h (by decide)
  | phrase ts => exact Token.WellFormedBetween.solid h rfl (by decide)

theorem Side.WellFormed.solid {s : Side} (h : s.WellFormed) : Solid s.spell := by
  cases s with
  | unbounded => exact Token.solid_singleton (by decide) rfl (by decide)
  | literal l => exact h.1.solid

theorem Range.WellFormed.solid {r : Range} (h : r.WellFormed) : Solid r.spell := by
  cases r with
  | comparison op value =>
      have hop : Solid [⟨.comparison, op.symbol⟩] := by
        cases op <;> exact Token.solid_singleton (by decide) rfl (by decide)
      exact hop.cons rfl (Side.WellFormed.solid h)
  | interval i =>
      obtain ⟨leftClosed, left, right, rightClosed⟩ := i
      obtain ⟨hleft, hright⟩ := h
      have hopen : ∀ closed : Bool, Solid
          [if closed then ⟨.leftBracket, "["⟩ else ⟨.leftBrace, "\x7b"⟩] := by
        intro closed
        cases closed <;> exact Token.solid_singleton (by decide) rfl (by decide)
      have hclose : ∀ closed : Bool, Solid
          [if closed then ⟨.rightBracket, "]"⟩ else ⟨.rightBrace, "\x7d"⟩] := by
        intro closed
        cases closed <;> exact Token.solid_singleton (by decide) rfl (by decide)
      have hto : Solid [⟨.word, "TO"⟩] := Token.solid_singleton (by decide) rfl (by decide)
      have hstart := (hopen leftClosed).cons (by cases leftClosed <;> rfl) hleft.solid
      have hmiddle := hstart.spaced (hto.spaced hright.solid)
      exact hmiddle.concat (hclose rightClosed) (by cases rightClosed <;> rfl)

theorem IsDigits.solid {s : String} (h : IsDigits s) : Solid [⟨.number, s⟩] :=
  Token.solid_singleton h rfl nofun

theorem IsDigits.ne_point {s : String} (h : IsDigits s) :
    ∀ c ∈ s.toList, (c != '.') = true := by
  intro c hc
  have hdigit := h.2 c hc
  rw [bne_iff_ne]
  rintro rfl
  simp at hdigit

theorem Boost.spellMagnitude_whole {n : String} (hn : IsDigits n) :
    spellMagnitude n = [⟨.number, n⟩] := by
  have hdrop : n.toList.dropWhile (· != '.') = [] := List.dropWhile_eq_nil_iff.mpr hn.ne_point
  simp [spellMagnitude, hdrop]

theorem Boost.spellMagnitude_fraction {n f : String} (hn : IsDigits n) :
    spellMagnitude (n ++ "." ++ f) = [⟨.number, n⟩, ⟨.dot, "."⟩, ⟨.number, f⟩] := by
  have hchars : (n ++ "." ++ f).toList = n.toList ++ '.' :: f.toList := by simp
  obtain ⟨htake, hdrop⟩ := takeWhile_and_dropWhile_append hn.ne_point
    (show ∀ c ∈ ('.' :: f.toList).head?, (c != '.') = false by simp)
  simp only [spellMagnitude, hchars, htake, hdrop, String.ofList_toList]

theorem Boost.WellFormed.solid {b : Boost} (h : b.WellFormed) : Solid b.spell := by
  have hcaret : Solid [⟨.caret, "^"⟩] := Token.solid_singleton (by decide) rfl (by decide)
  have hdot : Solid [⟨.dot, "."⟩] := Token.solid_singleton (by decide) rfl (by decide)
  obtain ⟨magnitude⟩ := b
  cases magnitude with
  | none => exact hcaret
  | some m =>
      rcases h m rfl with hm | ⟨n, f, rfl, hn, hf⟩
      · simpa [spell, spellMagnitude_whole hm] using hcaret.cons rfl hm.solid
      · have hfraction := hn.solid.append (hdot.cons rfl hf.solid) (Or.inr (by simp [Kind.isRun]))
        simpa [spell, spellMagnitude_fraction hn] using hcaret.cons rfl hfraction

theorem Suffix.WellFormed.solid {s : Suffix} (h : s.WellFormed) : Solid s.spell := by
  cases s with
  | boost b => exact Boost.WellFormed.solid h
  | fuzzy f =>
      have htilde : Solid [⟨.tilde, "~"⟩] := Token.solid_singleton (by decide) rfl (by decide)
      obtain ⟨distance⟩ := f
      cases distance with
      | none => exact htilde
      | some d => exact htilde.cons rfl (IsDigits.solid (h d rfl))

theorem Element.WellFormed.solid {e : Element} (h : e.WellFormed) : Solid e.spell := by
  cases e with
  | literal l => exact Literal.WellFormed.solid h
  | range r => exact Range.WellFormed.solid h

section Formula

variable {f : C → List Token}

theorem Keyword.solid_token (k : Keyword) : Solid [k.token] := by
  cases k <;> exact Token.solid_singleton (by decide) rfl (by decide)

theorem Operand.solid_spell {o : Operand C} (h : Solid (f o.clause)) : Solid (o.spell f) := by
  obtain ⟨negated, c⟩ := o
  cases negated with
  | false => exact h
  | true => exact Keyword.not.solid_token.spaced h

theorem Link.solid_spell {l : Link C} (h : Solid (f l.operand.clause)) :
    ∃ us, l.spell f = space :: us ∧ Solid us := by
  have ho := Operand.solid_spell h
  obtain ⟨explicit, o⟩ := l
  cases explicit with
  | false => exact ⟨_, rfl, ho⟩
  | true => exact ⟨_, rfl, Keyword.and.solid_token.spaced ho⟩

theorem Branch.solid_spell {b : Branch C} (h : ∀ c ∈ b.clauses, Solid (f c)) :
    Solid (b.spell f) := by
  simp only [clauses, operands, List.map_cons, List.map_map, List.forall_mem_cons,
    List.forall_mem_map, Function.comp_apply] at h
  obtain ⟨hhead, hrest⟩ := h
  exact (Operand.solid_spell hhead).append_flatMap fun l hl => Link.solid_spell (hrest l hl)

theorem Formula.solid_spell {e : Formula C} (h : ∀ c ∈ e.clauses, Solid (f c)) :
    Solid (e.spell f) := by
  have hbranch : ∀ b ∈ e.branches, Solid (b.spell f) :=
    fun b hb => Branch.solid_spell fun c hc => h c (List.mem_flatMap.mpr ⟨b, hb, hc⟩)
  apply (hbranch e.head List.mem_cons_self).append_flatMap
  intro b hb
  exact ⟨_, rfl, Keyword.or.solid_token.spaced (hbranch b (List.mem_cons_of_mem _ hb))⟩

end Formula

theorem Formula.solid_spellEnclosed {ts : List Token} (h : Solid ts) :
    Solid (spellEnclosed ts) := by
  have hopen : Solid [⟨.leftParen, "("⟩] := Token.solid_singleton (by decide) rfl (by decide)
  have hclose : Solid [⟨.rightParen, ")"⟩] := Token.solid_singleton (by decide) rfl (by decide)
  exact (hopen.spaced h).spaced hclose

theorem Clause.WellFormed.solid {leaf : α → Prop} {level : Formula (Clause α) → Prop}
    {f : α → List Token} (hleaf : ∀ {a}, leaf a → Solid (f a)) {c : Clause α}
    (h : c.WellFormed leaf level) : Solid (c.spell f) := by
  induction c with
  | leaf a =>
      cases h with
      | leaf ha => simpa using hleaf ha
  | paren sub ih =>
      cases h with
      | paren _ hclauses =>
          rw [Clause.spell_paren]
          apply Formula.solid_spellEnclosed
          exact Formula.solid_spell fun c hc => ih c hc (hclauses c hc)

theorem Boost.solid_append {ts : List Token} {boost : Option Boost} (hts : Solid ts)
    (h : ∀ b ∈ boost, b.WellFormed) : Solid (ts ++ (boost.map Boost.spell).getD []) := by
  cases boost with
  | none => simpa using hts
  | some b => exact hts.append (h b rfl).solid (Or.inr (by simp [Boost.spell, Kind.isRun]))

theorem Term.WellFormed.solid {t : Term} (h : t.WellFormed) : Solid t.spell := by
  cases t with
  | regexp ts => exact Token.WellFormedBetween.solid h rfl (by decide)
  | literal l suffix =>
      obtain ⟨hl, hsuffix⟩ := h
      cases suffix with
      | none => simpa [spell] using hl.solid
      | some s =>
          apply hl.solid.append (hsuffix s rfl).solid
          cases s <;> simp [Suffix.spell, Fuzzy.spell, Boost.spell, Kind.isRun]
  | range r boost => exact Boost.solid_append h.1.solid h.2
  | group g boost =>
      have hgroup := h.1.solid Element.WellFormed.solid
      rw [Clause.spell_paren] at hgroup
      exact Boost.solid_append hgroup h.2

theorem FieldClause.WellFormed.solid {c : FieldClause} (h : c.WellFormed) : Solid c.spell := by
  have hcolon : Solid [⟨.colon, ":"⟩] := Token.solid_singleton (by decide) rfl (by decide)
  exact (h.field.solid (by decide)).append (hcolon.cons rfl h.term.solid)
    (Or.inr (by simp [Kind.isRun]))

end SearchQuery
