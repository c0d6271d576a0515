import SearchQuery.Proofs.Term.Source
import SearchQuery.Value

/-!
Comparisons as intervals, and the bounds of ranges in terms of their texts. A comparison can be
written as an interval that is open towards a star, and nothing that can be asked about the term
tells the two apart. A side of a bound is infinite where the source has a star or nothing for it.
-/

namespace SearchQuery

open Text (IsGap)
open Token (join)

/-! ### Comparisons as intervals -/

/-- The term with its comparison turned into an interval. -/
def Term.toInterval : Term → Term
  | range r boost => .range (.interval r.toInterval) boost
  | t => t

theorem Range.WellFormed.toInterval {r : Range} (h : r.WellFormed) :
    (Range.interval r.toInterval).WellFormed := by
  cases r with
  | interval i => exact h
  | comparison op value =>
      cases op
      case gt | ge => exact ⟨h, trivial⟩
      case lt | le => exact ⟨trivial, h⟩

theorem Term.WellFormed.toInterval {t : Term} (h : t.WellFormed) : t.toInterval.WellFormed := by
  cases t with
  | range r boost => exact ⟨h.1.toInterval, h.2⟩
  | regexp | literal | group => exact h

theorem Term.depth_toInterval (t : Term) : t.toInterval.depth = t.depth := by
  cases t <;> rfl

/-! ### Sides in their source -/

/-- A side of a bound, as it is written and as the bracket or the sign next to it has it. -/
structure Side.StandsFor (x : Side) (included closed : Bool) (w : String) : Prop where
  render_eq : x.render = w
  unbounded_iff : x = .unbounded ↔ w = "*"
  included_iff : included = true ↔ closed = true ∧ w ≠ "*"

/-- How a bound is written as a range. -/
inductive Bound.Written : Bound → String → Prop where
  | above {b : Bound} {w : String} (closed : Bool) :
      b.left.StandsFor b.leftIncluded closed w → b.right = .unbounded → b.rightIncluded = false →
      Bound.Written b ((if closed then ">=" else ">") ++ w)
  | below {b : Bound} {w : String} (closed : Bool) :
      b.left = .unbounded → b.leftIncluded = false → b.right.StandsFor b.rightIncluded closed w →
      Bound.Written b ((if closed then "<=" else "<") ++ w)
  | between {b : Bound} {leftClosed rightClosed : Bool} {gap₁ w₁ gap₂ gap₃ w₂ gap₄ : String} :
      b.left.StandsFor b.leftIncluded leftClosed w₁ →
      b.right.StandsFor b.rightIncluded rightClosed w₂ →
      IsGap gap₁ → IsGap gap₂ → IsGap gap₃ → IsGap gap₄ →
      Bound.Written b
        ((if leftClosed then "[" else "\x7b") ++ gap₁ ++ w₁ ++ gap₂ ++ "TO" ++ gap₃ ++ w₂ ++ gap₄ ++
          (if rightClosed then "]" else "\x7d"))

theorem Side.Written.standsFor {x : Side} {w : String} {texts : List String}
    (h : x.Written w texts) (closed : Bool) : x.StandsFor (closed && x.isFinite) closed w := by
  cases h with
  | star => exact ⟨rfl, by simp, by simp [isFinite]⟩
  | bare hne => exact ⟨rfl, by simp [hne], by simp [isFinite, hne]⟩
  | @phrase ts =>
      have hne : "\"" ++ join ts ++ "\"" ≠ "*" := by
        intro htext
        have hfirst := congrArg (fun w => w.toList.head?) htext
        simp at hfirst
      exact ⟨rfl, by simp [hne], by simp [isFinite, hne]⟩

theorem Range.Written.bound {r : Range} {w : String} {texts : List String}
    (h : r.Written w texts) : r.bound.Written w := by
  cases h with
  | @comparison op value w _ hvalue =>
      cases op with
      | lt => exact .below false rfl rfl (hvalue.standsFor false)
      | le => exact .below true rfl rfl (hvalue.standsFor true)
      | gt => exact .above false (hvalue.standsFor false) rfl rfl
      | ge => exact .above true (hvalue.standsFor true) rfl rfl
  | interval hgap₁ hleft hgap₂ _ hgap₃ _ hright hgap₄ =>
      exact .between (hleft.standsFor _) (hright.standsFor _) hgap₁ hgap₂ hgap₃ hgap₄

/-- An infinite side is never included. -/
theorem Bound.not_included_of_unbounded (b : Bound) :
    (b.left = .unbounded → b.leftIncluded = false) ∧
      (b.right = .unbounded → b.rightIncluded = false) := by
  constructor
  · intro hleft
    by_contra hincluded
    have hfinite := b.left_finite (by simpa using hincluded)
    simp [hleft, Side.isFinite] at hfinite
  · intro hright
    by_contra hincluded
    have hfinite := b.right_finite (by simpa using hincluded)
    simp [hright, Side.isFinite] at hfinite

/-! ### Whole texts -/

theorem Term.parse_toInterval {s : String} {t : Term} (h : Term.parse s = .ok t) :
    Term.parse t.toInterval.render = .ok t.toInterval := by
  obtain ⟨hwell, hdepth⟩ := Term.wellFormed_of_parse h
  exact hwell.toInterval.parse_render (t.depth_toInterval ▸ hdepth)

/-- A comparison is read like the interval it stands for, and the bound of a range is what its
source says. Written as an interval, with the suffix it had, a comparison has the same bound, weight
and class, and asks the same of every decoder. A side of a bound is infinite if it is the far side
of a comparison, or a bare star, and for no other reason; an infinite side is never included. -/
theorem Term.parse_range {s : String} {t : Term} (h : Term.parse s = .ok t) :
    (∀ op value boost, t = .range (.comparison op value) boost →
      ∃ i, i = (Range.comparison op value).toInterval ∧
        Term.parse (i.render ++ Boost.renderOption boost) = .ok (.range (.interval i) boost) ∧
        (Term.range (.interval i) boost).bound? = t.bound? ∧
        (Term.range (.interval i) boost).boost? = t.boost? ∧
        (Term.range (.interval i) boost).flags = t.flags ∧
        ∀ (m : Type → Type) [Monad m] (V ε : Type) (decoder : String → ExceptT ε m V),
          Term.value decoder (some (.range (.interval i) boost)) = Term.value decoder (some t)) ∧
    ∀ b, t.bound? = some b →
      (∃ front w back, s = front ++ (w ++ t.suffixText) ++ back ∧ IsGap front ∧ IsGap back ∧
        b.Written w) ∧
      (b.left = .unbounded → b.leftIncluded = false) ∧
      (b.right = .unbounded → b.rightIncluded = false) := by
  refine ⟨?_, ?_⟩
  · rintro op value boost rfl
    have hparse := Term.parse_toInterval h
    rw [toInterval, render] at hparse
    exact ⟨_, rfl, hparse, rfl, rfl, rfl, fun _ _ _ _ _ => rfl⟩
  · intro b hb
    obtain ⟨front, w, back, texts, hs, hfront, hback, hwritten⟩ := Term.exists_written_of_parse h
    cases hwritten with
    | range hrange =>
        cases hb
        exact ⟨⟨front, w, back, hs, hfront, hback, hrange.bound⟩, Bound.not_included_of_unbounded _⟩
    | regexp | bare | phrase | group => cases hb

/-- A comparison with a word that ends in an escaped space. -/
theorem Term.parse_range_escaped :
    ∃ value boost, Term.parse " >=TO\\ ^2" = .ok (.range (.comparison .ge value) boost) ∧
      Term.parse "[TO\\  TO *\x7d^2" =
        .ok (.range (.interval ⟨true, value, .unbounded, false⟩) boost) ∧
      ∃ front w back, " >=TO\\ ^2" = front ++ (w ++ "^2") ++ back ∧ IsGap front ∧ IsGap back ∧
        (Range.comparison .ge value).bound.Written w := by
  have h : Term.parse " >=TO\\ ^2" = .ok (.range (.comparison .ge
      (.literal (.bare [⟨.word, "TO\\ "⟩]))) (some ⟨some "2"⟩)) := by decide +kernel
  obtain ⟨hcomparison, hbound⟩ := Term.parse_range h
  obtain ⟨i, rfl, hparse, -⟩ := hcomparison _ _ _ rfl
  have htext : (Range.comparison .ge (.literal (.bare [⟨.word, "TO\\ "⟩]))).toInterval.render ++
      Boost.renderOption (some ⟨some "2"⟩) = "[TO\\  TO *\x7d^2" := by decide +kernel
  have hsuffix : (Term.range (.comparison .ge (.literal (.bare [⟨.word, "TO\\ "⟩])))
      (some ⟨some "2"⟩)).suffixText = "^2" := by decide +kernel
  obtain ⟨hwritten, -⟩ := hbound _ rfl
  rw [htext] at hparse
  rw [hsuffix] at hwritten
  exact ⟨_, _, h, hparse, hwritten⟩

end SearchQuery
