import SearchQuery.Proofs.Fault.Reading
import SearchQuery.Proofs.Nesting.Limit
import SearchQuery.Proofs.Token.Segmentation

/-!
Levels of parentheses in a text. Counting the parentheses outside phrases and regular expressions
finds the same levels as reading does, so that the limit is exceeded at the first parenthesis that
opens one level more.
-/

namespace SearchQuery

open Token (Kind)

variable {α C : Type}

/-- How far a text is nested at a place: the number of open parentheses, and the delimiter of the
phrase or regular expression that is open, if one is. -/
structure Nesting where
  level : Nat
  within : Option Kind
deriving DecidableEq, Repr

namespace Nesting

/-- No parenthesis and no delimiter is open. -/
def start : Nesting :=
  ⟨0, none⟩

/-- The nesting behind a token. Inside a phrase or a regular expression only its delimiter
counts. -/
def pass (n : Nesting) (t : Token) : Nesting :=
  match n.within with
  | some delimiter => if t.kind = delimiter then ⟨n.level, none⟩ else n
  | none =>
      match t.kind with
      | .leftParen => ⟨n.level + 1, none⟩
      | .rightParen => ⟨n.level - 1, none⟩
      | .quote => ⟨n.level, some .quote⟩
      | .slash => ⟨n.level, some .slash⟩
      | _ => n

/-- The token is a parenthesis that opens the level after `limit`. -/
def Exceeds (limit : Nat) (n : Nesting) (t : Token) : Prop :=
  t.kind = .leftParen ∧ n = ⟨limit, none⟩

instance (limit : Nat) (n : Nesting) (t : Token) : Decidable (Exceeds limit n t) :=
  inferInstanceAs (Decidable (_ ∧ _))

/-- The offset of the first parenthesis that opens the level after `limit`. -/
def firstBeyond? (limit : Nat) : Nesting → List Token.Located → Option Nat
  | _, [] => none
  | n, t :: ts =>
      if n.Exceeds limit t.token then some t.pos else firstBeyond? limit (n.pass t.token) ts

/-- `Passes limit n ts m rest`: from `ts` to `rest` the nesting changes from `n` to `m`, and no
parenthesis on the way opens the level after `limit`. -/
inductive Passes (limit : Nat) : Nesting → List Token → Nesting → List Token → Prop where
  | refl {n : Nesting} {ts : List Token} : Passes limit n ts n ts
  | step {n m : Nesting} {t : Token} {ts rest : List Token} :
      ¬ n.Exceeds limit t → Passes limit (n.pass t) ts m rest → Passes limit n (t :: ts) m rest

variable {limit : Nat} {n m k : Nesting} {ts mid rest : List Token}

theorem Passes.trans (h : Passes limit n ts m mid) (h' : Passes limit m mid k rest) :
    Passes limit n ts k rest := by
  induction h with
  | refl => exact h'
  | step ht _ ih => exact .step ht (ih h')

/-- The search stops where the level after the limit is opened, if it is not before. -/
theorem Passes.firstBeyond? {pos : Nat} (h : Passes limit n ts ⟨limit, none⟩ rest)
    (hrest : Token.startsWith [.leftParen] rest = true) :
    firstBeyond? limit n (Token.locate pos ts) =
      some (pos + Token.bytes ts - Token.bytes rest) := by
  generalize hm : (⟨limit, none⟩ : Nesting) = m at h
  induction h generalizing pos with
  | refl =>
      obtain ⟨t, us, rfl, ht⟩ := Token.startsWith_iff.mp hrest
      have hexceeds : Exceeds limit ⟨limit, none⟩ t := ⟨List.mem_singleton.mp ht, rfl⟩
      rw [← hm, Token.locate, Nesting.firstBeyond?, if_pos hexceeds, Nat.add_sub_cancel]
  | step ht _ ih =>
      rw [Token.locate, Nesting.firstBeyond?, if_neg ht, ih hrest hm]
      simp [Token.bytes, Nat.add_assoc]

end Nesting

/-- From one place to another the level is the same in the end, and never above the limit. -/
abbrev Stays (limit level : Nat) (ts rest : List Token) : Prop :=
  Nesting.Passes limit ⟨level, none⟩ ts ⟨level, none⟩ rest

section Stays

variable {limit level : Nat} {ts rest : List Token}

/-! ### Phrases without parentheses -/

/-- The kinds of tokens that change the nesting. -/
def Nesting.marks : List Kind :=
  [.leftParen, .rightParen, .quote, .slash]

theorem stays_cons {t : Token} {k : Kind} (ht : t.kind = k)
    (hk : k ∉ Nesting.marks) : Stays limit level (t :: ts) ts := by
  have hpass : Nesting.pass ⟨level, none⟩ t = ⟨level, none⟩ := by
    revert hk
    simp only [Nesting.pass, ht]
    cases k <;> simp [Nesting.marks]
  refine .step ?_ ?_
  · intro hexceeds
    rw [← ht, hexceeds.1] at hk
    exact hk (by decide)
  · rw [hpass]
    exact .refl

theorem Spaces.stays (h : Spaces ts rest) : Stays limit level ts rest := by
  induction h with
  | none => exact .refl
  | @more t _ _ ht _ ih =>
      refine (stays_cons rfl ?_).trans ih
      revert ht
      simp only [Token.isSpace]
      cases t.kind <;> decide

theorem Keyword.Stands.stays {k : Keyword} (h : k.Stands ts rest) : Stays limit level ts rest := by
  cases h with
  | word ht => exact stays_cons ht (by decide)
  | bang ht => exact stays_cons ht (by decide)
  | ampersands ht hu | bars ht hu =>
      exact (stays_cons ht (by decide)).trans (stays_cons hu (by decide))

theorem Fragments.stays {kinds : List Kind} {run : List Token} (h : Fragments kinds ts run rest)
    (hkinds : ∀ k ∈ kinds, k ∉ Nesting.marks) : Stays limit level ts rest := by
  obtain ⟨-, hrun, -⟩ := h
  induction run with
  | nil => exact .refl
  | cons t run ih =>
      rw [List.forall_mem_cons] at hrun
      exact (stays_cons rfl (hkinds t.kind hrun.1)).trans (ih hrun.2)

theorem Delimited.stays {delimiter : Kind} {inner : List Token}
    (h : Delimited delimiter ts inner rest) (hdelimiter : delimiter ∈ [.quote, .slash]) :
    Stays limit level ts rest := by
  obtain @⟨opening, closing, _, _, hopening, hinner, hclosing⟩ := h
  -- once the delimiter is open, nothing but the delimiter changes the nesting
  have hinside : ∀ us : List Token, (∀ t ∈ us, t.kind ≠ delimiter) →
      Nesting.Passes limit ⟨level, some delimiter⟩ (us ++ closing :: rest) ⟨level, none⟩ rest := by
    intro us hus
    induction us with
    | nil =>
        refine .step (by simp [Nesting.Exceeds]) ?_
        simpa [Nesting.pass, hclosing] using Nesting.Passes.refl
    | cons t us ih =>
        rw [List.forall_mem_cons] at hus
        refine .step (by simp [Nesting.Exceeds]) ?_
        simpa [Nesting.pass, hus.1] using ih hus.2
  simp only [List.mem_cons, List.not_mem_nil, or_false] at hdelimiter
  refine .step ?_ ?_
  · rcases hdelimiter with rfl | rfl <;> simp [Nesting.Exceeds, hopening]
  · rcases hdelimiter with rfl | rfl <;> simpa [Nesting.pass, hopening] using hinside _ hinner

theorem Literal.Derives.stays {l : Literal} (h : Literal.Derives ts l rest) :
    Stays limit level ts rest := by
  cases h with
  | bare hrun => exact hrun.stays (by decide)
  | phrase hinner => exact hinner.stays (by decide)

theorem Side.Derives.stays {s : Side} (h : Side.Derives ts s rest) :
    Stays limit level ts rest := by
  cases h with
  | unbounded hl => exact hl.stays
  | literal hl _ => exact hl.stays

theorem Interval.Left.stays (h : Interval.Left ts rest) : Stays limit level ts rest := by
  obtain ⟨hleft, hspaces₁, hto, -, hspaces₂, hright, hspaces₃, hclosing⟩ := h
  have hbrackets : ∀ k ∈ [Kind.rightBracket, .rightBrace], k ∉ Nesting.marks := by decide
  apply (hleft.stays.trans hspaces₁.spaces.stays).trans
  apply (stays_cons hto (by decide)).trans
  apply (hspaces₂.spaces.stays.trans hright.stays).trans
  exact hspaces₃.stays.trans (stays_cons rfl (hbrackets _ hclosing))

theorem Range.Derives.stays {r : Range} (h : Range.Derives ts r rest) :
    Stays limit level ts rest := by
  cases h with
  | comparison ht _ hvalue => exact (stays_cons ht (by decide)).trans hvalue.stays
  | interval hi =>
      obtain ⟨opening, us, start, rfl, hopening, hspaces, hleft⟩ :=
        Interval.exists_derives_iff.mp ⟨_, hi⟩
      have hbrackets : ∀ k ∈ [Kind.leftBracket, .leftBrace], k ∉ Nesting.marks := by decide
      exact (stays_cons rfl (hbrackets _ hopening)).trans (hspaces.stays.trans hleft.stays)

theorem Boost.Derives.stays {b : Boost} (h : Boost.Derives ts b rest) :
    Stays limit level ts rest := by
  cases h with
  | bare hcaret => exact stays_cons hcaret (by decide)
  | whole hcaret hn => exact (stays_cons hcaret (by decide)).trans (stays_cons hn (by decide))
  | fraction hcaret hn hdot hm =>
      apply ((stays_cons hcaret (by decide)).trans (stays_cons hn (by decide))).trans
      exact (stays_cons hdot (by decide)).trans (stays_cons hm (by decide))

theorem Suffix.Derives.stays {s : Suffix} (h : Suffix.Derives ts s rest) :
    Stays limit level ts rest := by
  cases h with
  | boost hb => exact hb.stays
  | fuzzy hf =>
      cases hf with
      | bare htilde => exact stays_cons htilde (by decide)
      | distance htilde hn =>
          exact (stays_cons htilde (by decide)).trans (stays_cons hn (by decide))

theorem Perhaps.stays {p : Production α} {a : Option α} (h : Perhaps p ts a rest)
    (hp : ∀ {a}, p ts a rest → Stays limit level ts rest) : Stays limit level ts rest := by
  cases h with
  | none => exact .refl
  | some ha => exact hp ha

theorem Element.Derives.stays {e : Element} (h : Element.Derives ts e rest) :
    Stays limit level ts rest := by
  cases h with
  | literal hl => exact hl.stays
  | range hr => exact hr.stays

/-! ### Formulas and clauses -/

theorem Operand.Opens.stays {start : List Token} (h : Operand.Opens ts start) :
    Stays limit level ts start := by
  cases h with
  | negated hnot hspaces => exact hnot.stays.trans hspaces.stays
  | plain => exact .refl

theorem Operand.Joins.stays {start : List Token} (h : Operand.Joins ts start) :
    Stays limit level ts start := by
  cases h with
  | keyword _ hspaces hk hspaces' => exact (hspaces.stays.trans hk.stays).trans hspaces'.stays
  | juxtaposed hspaces _ => exact hspaces.spaces.stays

section Clauses

variable {p : Production C} (hp : ∀ {ts c rest}, p ts c rest → Stays limit level ts rest)

include hp

theorem Operand.Derives.stays {o : Operand C} (h : Operand.Derives p ts o rest) :
    Stays limit level ts rest := by
  cases h with
  | negated hnot hspaces hc => exact (hnot.stays.trans hspaces.stays).trans (hp hc)
  | plain _ hc => exact hp hc

theorem Formula.Reaches.stays {start : List Token} (h : Formula.Reaches p ts start) :
    Stays limit level ts start := by
  induction h with
  | first => exact .refl
  | next _ ho hjoins ih => exact (ih.trans (ho.stays hp)).trans hjoins.stays

theorem Formula.Derives.stays {e : Formula C} (h : Formula.Derives p ts e rest) :
    Stays limit level ts rest := by
  obtain ⟨us, u, hreaches, ho⟩ := h.reaches
  exact (hreaches.stays hp).trans (ho.stays hp)

end Clauses

theorem passes_leftParen {t : Token} (ht : t.kind = .leftParen) (hlevel : level < limit) :
    Nesting.Passes limit ⟨level, none⟩ (t :: ts) ⟨level + 1, none⟩ ts := by
  refine .step ?_ ?_
  · intro hexceeds
    have heq := congrArg Nesting.level hexceeds.2
    simp only at heq
    omega
  · simpa [Nesting.pass, ht] using Nesting.Passes.refl

theorem passes_rightParen {t : Token} (ht : t.kind = .rightParen) :
    Nesting.Passes limit ⟨level + 1, none⟩ (t :: ts) ⟨level, none⟩ ts := by
  refine .step ?_ ?_
  · simp [Nesting.Exceeds, ht]
  · simpa [Nesting.pass, ht] using Nesting.Passes.refl

/-- A phrase in parentheses takes one level above the place where it stands. -/
theorem Enclosed.stays {p : Production α} {a : α} (h : Enclosed p ts a rest)
    (hp : ∀ {ts rest}, p ts a rest → Stays limit (level + 1) ts rest) (hlevel : level < limit) :
    Stays limit level ts rest := by
  obtain ⟨hopening, hspaces, hinner, hspaces', hclosing⟩ := h
  apply (passes_leftParen hopening hlevel).trans
  apply (hspaces.stays.trans (hp hinner)).trans
  exact hspaces'.stays.trans (passes_rightParen hclosing)

/-- The leaves keep to the levels that their depth leaves them. -/
def Production.Levels (p : Production α) (depth : α → Nat) : Prop :=
  ∀ limit level ts a rest, p ts a rest → level + depth a ≤ limit → Stays limit level ts rest

theorem Clause.Derives.stays {p : Production α} {depth : α → Nat} (hp : p.Levels depth)
    {c : Clause α} (h : Clause.Derives p ts c rest) (hdepth : level + c.depth depth ≤ limit) :
    Stays limit level ts rest := by
  induction c generalizing level ts rest with
  | leaf a =>
      cases h with
      | leaf ha => exact hp _ _ _ _ _ ha (by simpa using hdepth)
  | paren sub ih =>
      cases h with
      | paren hsub =>
          rw [Clause.depth_paren] at hdepth
          refine hsub.stays ?_ (by omega)
          intro us rest hformula
          have hclauses : ∀ c ∈ sub.clauses, level + 1 + c.depth depth ≤ limit := by
            intro c hc
            have hle := Formula.sup_le_iff.mp (Nat.le_refl (sub.sup (Clause.depth depth))) c hc
            omega
          have hstays : Formula.Derives (fun us _ rest => Stays limit (level + 1) us rest) us sub
              rest := hformula.imp fun c hc us rest hd => ih c hc hd (hclauses c hc)
          exact hstays.stays id

theorem Element.levels : Production.Levels Element.Derives fun _ => 0 :=
  fun _ _ _ _ _ h _ => h.stays

theorem Term.levels : Production.Levels Term.Derives Term.depth := by
  intro limit level ts t rest h hdepth
  cases h with
  | regexp hinner => exact hinner.stays (by decide)
  | literal hl hsuffix => exact hl.stays.trans (hsuffix.stays Suffix.Derives.stays)
  | range hr hboost => exact hr.stays.trans (hboost.stays Boost.Derives.stays)
  | group hg hboost =>
      have hclause : Clause.Derives Element.Derives _ (.paren _) _ := .paren hg
      exact (hclause.stays Element.levels hdepth).trans (hboost.stays Boost.Derives.stays)

theorem FieldClause.levels :
    Production.Levels FieldClause.Derives fun c => c.term.depth := by
  intro limit level ts c rest h hdepth
  obtain ⟨hname, hcolon, hterm⟩ := h
  apply (hname.stays (by decide)).trans
  exact (stays_cons hcolon (by decide)).trans (Term.levels _ _ _ _ _ hterm hdepth)

/-! ### Where the limit is exceeded -/

/-- A parenthesis too many is found at the level of the limit, and at none before it. -/
def Breach.Levels (b : Nat → Breach) : Prop :=
  ∀ limit level room ts rest, b room ts (.tooDeep rest) → level + room = limit →
    Nesting.Passes limit ⟨level, none⟩ ts ⟨limit, none⟩ rest ∧
      Token.startsWith [.leftParen] rest = true

theorem Clause.Breaks.levels {p : Production α} {depth : α → Nat} {starts : List Kind}
    {leafBreaks : Nat → Breach} (hp : p.Levels depth) (hleaf : Breach.Levels leafBreaks) :
    Breach.Levels (Clause.Breaks p depth starts leafBreaks) := by
  intro limit level room ts rest h hroom
  generalize hfault : Fault.tooDeep rest = fault at h
  induction h generalizing level with
  | start => cases hfault
  | leaf hbreaks =>
      subst hfault
      exact hleaf _ _ _ _ _ hbreaks hroom
  | tooDeep hstart =>
      cases hfault
      rw [Nat.add_zero] at hroom
      subst hroom
      exact ⟨.refl, hstart⟩
  | @inside room opening ts start operand clause fault hopening hspaces hreaches hopens _ ih =>
      obtain ⟨hpasses, hrest⟩ := ih (level + 1) (by omega) hfault
      have hclause : ∀ {us c mid}, Clause.Within p depth room us c mid →
          Stays limit (level + 1) us mid := by
        intro us c mid hc
        obtain ⟨hderives, hdepth⟩ := hc
        exact hderives.stays hp (by omega)
      refine ⟨?_, hrest⟩
      apply (passes_leftParen hopening (by omega)).trans
      apply (hspaces.stays.trans (hreaches.stays hclause)).trans
      exact hopens.stays.trans hpasses
  | unclosed => cases hfault

theorem Side.Breaks.ne_tooDeep : ¬ Side.Breaks ts (.tooDeep rest) := by
  intro h
  cases h with
  | phrase hphrase => cases hphrase

theorem Interval.Breaks.ne_tooDeep : ¬ Interval.Breaks ts (.tooDeep rest) := by
  intro h
  obtain ⟨-, -, hleft⟩ := h
  cases hleft with
  | side hside => exact hside.ne_tooDeep
  | next _ _ hto =>
      cases hto with
      | right _ _ _ hright =>
          cases hright with
          | side hside => exact hside.ne_tooDeep

theorem Element.Breaks.ne_tooDeep : ¬ Element.Breaks ts (.tooDeep rest) := by
  intro h
  cases h with
  | phrase hphrase => cases hphrase
  | range hrange =>
      cases hrange with
      | comparison _ _ hside => exact hside.ne_tooDeep
      | interval hi => exact hi.ne_tooDeep

theorem Group.levels : Breach.Levels Group.Breaks := by
  apply Clause.Breaks.levels Element.levels
  intro limit level room ts rest h _
  exact absurd h Element.Breaks.ne_tooDeep

theorem FieldClause.Breaks.levels : Breach.Levels FieldClause.Breaks := by
  intro limit level room ts rest h hroom
  cases h with
  | term hname hcolon hterm =>
      cases hterm with
      | regexp hregexp => cases hregexp
      | group hgroup =>
          obtain ⟨hpasses, hrest⟩ := Group.levels _ _ _ _ _ hgroup hroom
          refine ⟨?_, hrest⟩
          apply (hname.stays (by decide)).trans
          exact (stays_cons hcolon (by decide)).trans hpasses

theorem Query.levels : Breach.Levels Query.Breaks :=
  Clause.Breaks.levels FieldClause.levels FieldClause.Breaks.levels

end Stays

/-! ### Whole texts -/

/-- A query exceeds the limit at the first parenthesis that opens a level above it. -/
theorem Query.firstBeyond?_of_tooDeep {limit limit' pos : Nat} {s : String}
    (h : Query.parseWithin limit s = .error (.tooDeep pos limit')) :
    ∃ located, tokenize s = .ok located ∧
      Nesting.firstBeyond? limit .start located = some pos := by
  rw [parseWithin_eq] at h
  rcases Reader.exists_of_parse_eq_error h with
    ⟨_, _, hlexical⟩ | ⟨located, fault, htokens, hrun, he⟩
  · cases hlexical
  · refine ⟨located, htokens, ?_⟩
    obtain ⟨hjoin, -, hlocate⟩ := tokenize_eq_ok_iff.mp htokens
    generalize located.map Token.Located.token = ts at hjoin hlocate hrun
    have hsize : s.utf8ByteSize = Token.bytes ts := by rw [← hjoin, Token.utf8ByteSize_join]
    rcases fault with ⟨_ | ⟨t, rest⟩, expected⟩ | rest | rest
    · cases he
    · cases he
    · cases he
      rcases Reader.runWhole_eq_error_iff.mp hrun with hfails | ⟨q, stop, -, -, hfault⟩
      · obtain ⟨operand, clause, hreaches, hopens, hbreaks⟩ := Query.breaks_of_fails hfails
        obtain ⟨hpasses, hrest⟩ := Query.levels limit 0 limit _ _ hbreaks (Nat.zero_add limit)
        have hclause : ∀ {us c mid}, Clause.Within FieldClause.Derives (fun c => c.term.depth)
            limit us c mid → Stays limit 0 us mid := by
          intro us c mid hc
          obtain ⟨hderives, hdepth⟩ := hc
          exact hderives.stays FieldClause.levels (by omega)
        have hstart := (spaces_skipSpace ts).stays.trans (hreaches.stays hclause)
        have hwhole := (hstart.trans hopens.stays).trans hpasses
        rw [hlocate, Nesting.start, hwhole.firstBeyond? hrest, hsize, Nat.zero_add]
      · cases hfault
    · cases he

/-- A smaller limit changes nothing but that it may be exceeded. A query is read if it is not
nested deeper than the limit; and if it is, the error is at the first parenthesis that opens a
level above the limit. -/
theorem Query.parseWithin_of_le (s : String) {limit limit' : Nat} (hle : limit ≤ limit') :
    (Query.parseWithin limit s = Query.parseWithin limit' s ∨
      ∃ pos, Query.parseWithin limit s = .error (.tooDeep pos limit)) ∧
    ∀ q, Query.parseWithin limit' s = .ok q →
      (Query.parseWithin limit s = .ok q ↔ q.depth ≤ limit) ∧
      (limit < q.depth → ∃ located pos, tokenize s = .ok located ∧
        Nesting.firstBeyond? limit .start located = some pos ∧
        Query.parseWithin limit s = .error (.tooDeep pos limit)) := by
  have hcapped := (Query.capped_reader hle).parse [.blank, .word, .ampersand, .bar, .bang] limit
    limit' s
  rw [← parseWithin_eq, ← parseWithin_eq] at hcapped
  refine ⟨hcapped, ?_⟩
  intro q hq
  have hread : Query.parseWithin limit s = .ok q ↔ q.depth ≤ limit := by
    simp only [parseWithin_eq, Reader.parse_eq_ok_iff, Query.runWhole_eq_ok_iff] at hq ⊢
    grind
  refine ⟨hread, ?_⟩
  intro hdeep
  rcases hcapped with hsame | ⟨pos, hpos⟩
  · have hfits := hread.mp (hsame.trans hq)
    omega
  · obtain ⟨located, htokens, hbeyond⟩ := Query.firstBeyond?_of_tooDeep hpos
    exact ⟨located, pos, htokens, hbeyond, hpos⟩

/-- The parentheses of a phrase open no level, and those of a query and of a group add up. -/
theorem Query.parseWithin_of_le_phrase :
    let s := "a:\"((\" OR (b:(c))"
    ∃ q, Query.parseWithin 2 s = .ok q ∧ q.depth = 2 ∧
      (∃ located pos, tokenize s = .ok located ∧
        Nesting.firstBeyond? 1 .start located = some pos ∧
        Query.parseWithin 1 s = .error (.tooDeep pos 1)) ∧
      Query.parseWithin 1 s = .error (.tooDeep 13 1) := by
  intro s
  have hq : Query.parseWithin 2 s = .ok
      ⟨⟨⟨false, .leaf ⟨⟨[⟨.word, "a"⟩]⟩, .literal (.phrase [⟨.leftParen, "("⟩, ⟨.leftParen, "("⟩])
        none⟩⟩, []⟩, [⟨⟨false, .paren (.ofOperand ⟨false, .leaf ⟨⟨[⟨.word, "b"⟩]⟩,
        .group (.ofOperand ⟨false, .leaf (.literal (.bare [⟨.word, "c"⟩]))⟩) none⟩⟩)⟩, []⟩]⟩ := by
    decide +kernel
  refine ⟨_, hq, by decide +kernel, ?_, by decide +kernel⟩
  exact ((Query.parseWithin_of_le s (Nat.le_succ 1)).2 _ hq).2 (by decide +kernel)

end SearchQuery
