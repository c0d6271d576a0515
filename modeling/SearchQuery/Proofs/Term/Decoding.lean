import SearchQuery.Proofs.Term.Source
import SearchQuery.Value

/-!
What a term asks of a decoder. The value of a term is the outcome of calls on a fixed list of texts,
all of which are in its source unless it is a group. The calls are made in order, each one starts
from the state that the one before it has left, and the first rejection is the last call. From the
answers the value is put together by the shape of the term alone.
-/

namespace SearchQuery

open Text (IsGap)

variable {A B V ε σ : Type} {decoder : String → ExceptT ε (StateM σ) V} {st mid st' : σ}
  {texts texts' : List String} {w : String}

/-! ### Calls -/

/-- The decoder accepts some texts one after another, with these values. -/
inductive Accepts (decoder : String → ExceptT ε (StateM σ) V) :
    σ → List String → List V → σ → Prop where
  | nil {st : σ} : Accepts decoder st [] [] st
  | cons {st mid st' : σ} {w : String} {v : V} {ws : List String} {vs : List V} :
      (decoder w).run.run st = (.ok v, mid) → Accepts decoder mid ws vs st' →
      Accepts decoder st (w :: ws) (v :: vs) st'

/-- The decoder rejects one of some texts, after it has accepted those in front of it. It does not
see the others. -/
inductive Rejects (decoder : String → ExceptT ε (StateM σ) V) :
    σ → List String → ε → σ → Prop where
  | here {st st' : σ} {w : String} {ws : List String} {e : ε} :
      (decoder w).run.run st = (.error e, st') → Rejects decoder st (w :: ws) e st'
  | later {st mid st' : σ} {w : String} {v : V} {ws : List String} {e : ε} :
      (decoder w).run.run st = (.ok v, mid) → Rejects decoder mid ws e st' →
      Rejects decoder st (w :: ws) e st'

theorem Accepts.append {vs vs' : List V} (h : Accepts decoder st texts vs mid)
    (h' : Accepts decoder mid texts' vs' st') :
    Accepts decoder st (texts ++ texts') (vs ++ vs') st' := by
  induction h with
  | nil => exact h'
  | cons hcall _ ih => exact .cons hcall (ih h')

theorem Accepts.rejects_append {vs : List V} {e : ε} (h : Accepts decoder st texts vs mid)
    (h' : Rejects decoder mid texts' e st') : Rejects decoder st (texts ++ texts') e st' := by
  induction h with
  | nil => exact h'
  | cons hcall _ ih => exact .later hcall (ih h')

theorem Rejects.append {e : ε} (h : Rejects decoder st texts e st') (texts' : List String) :
    Rejects decoder st (texts ++ texts') e st' := by
  induction h with
  | here hcall => exact .here hcall
  | later hcall _ ih => exact .later hcall ih

/-! ### Computations that ask a decoder -/

/-- The computation calls the decoder on the texts, in order and up to the first one that is
rejected, and does nothing else; if all are accepted, its result is one that their values give. -/
def Asks (decoder : String → ExceptT ε (StateM σ) V) (x : ExceptT ε (StateM σ) A)
    (texts : List String) (gives : List V → A → Prop) : Prop :=
  ∀ st,
    (∃ vs st' a, Accepts decoder st texts vs st' ∧ gives vs a ∧ x.run.run st = (.ok a, st')) ∨
      ∃ e st', Rejects decoder st texts e st' ∧ x.run.run st = (.error e, st')

section Asks

variable {x : ExceptT ε (StateM σ) A} {gives : List V → A → Prop}

theorem asks_pure {a : A} (h : gives [] a) : Asks decoder (pure a) [] gives :=
  fun st => Or.inl ⟨[], st, a, .nil, h, rfl⟩

theorem asks_call (w : String) : Asks decoder (decoder w) [w] fun vs v => vs = [v] := by
  intro st
  cases hcall : (decoder w).run.run st with | mk answer st'
  cases answer with
  | ok v => exact Or.inl ⟨[v], st', v, .cons hcall .nil, rfl, rfl⟩
  | error e => exact Or.inr ⟨e, st', .here hcall, rfl⟩

theorem run_bind_of_ok {k : A → ExceptT ε (StateM σ) B} {a : A} (h : x.run.run st = (.ok a, mid)) :
    (x >>= k).run.run st = (k a).run.run mid := by
  rw [ExceptT.run_bind, StateT.run_bind, h]
  rfl

theorem run_bind_of_error {k : A → ExceptT ε (StateM σ) B} {e : ε}
    (h : x.run.run st = (.error e, st')) : (x >>= k).run.run st = (.error e, st') := by
  rw [ExceptT.run_bind, StateT.run_bind, h]
  rfl

theorem Asks.bind {k : A → ExceptT ε (StateM σ) B} {gives' : List V → B → Prop}
    (h : Asks decoder x texts gives)
    (hk : ∀ vs a, gives vs a → Asks decoder (k a) texts' fun us b => gives' (vs ++ us) b) :
    Asks decoder (x >>= k) (texts ++ texts') gives' := by
  intro st
  rcases h st with ⟨vs, mid, a, haccepts, hgives, hx⟩ | ⟨e, st', hrejects, hx⟩
  · rw [run_bind_of_ok hx]
    rcases hk vs a hgives mid with ⟨us, st', b, haccepts', hgives', hb⟩ | ⟨e, st', hrejects, hb⟩
    · exact Or.inl ⟨vs ++ us, st', b, haccepts.append haccepts', hgives', hb⟩
    · exact Or.inr ⟨e, st', haccepts.rejects_append hrejects, hb⟩
  · exact Or.inr ⟨e, st', hrejects.append texts', run_bind_of_error hx⟩

theorem Asks.map {f : A → B} {gives' : List V → B → Prop} (h : Asks decoder x texts gives)
    (hf : ∀ vs a, gives vs a → gives' vs (f a)) : Asks decoder (f <$> x) texts gives' := by
  rw [map_eq_pure_bind, ← List.append_nil texts]
  refine h.bind fun vs a hgives => asks_pure ?_
  rw [List.append_nil]
  exact hf vs a hgives

theorem asks_map_call (w : String) {f : V → A} (h : ∀ v, gives [v] (f v)) :
    Asks decoder (f <$> decoder w) [w] gives := by
  refine (asks_call w).map ?_
  rintro _ v rfl
  exact h v

end Asks

/-! ### What terms ask -/

/-- The value of a side, from the values of its texts. -/
inductive Side.Gives : Side → List V → Limit V → Prop where
  | infinite : Side.Gives .unbounded [] .infinite
  | value {l : Literal} {v : V} : Side.Gives (.literal l) [v] (.value v)

/-- The value of a range, from the values of its texts. A comparison has its value on one side and
none on the other one; which sides are included is as in the bound. -/
inductive Range.Gives : Range → List V → DecodedBound V → Prop where
  | above {op : Comparison} {value : Side} {vs : List V} {limit : Limit V} {b : Bound} :
      op = .gt ∨ op = .ge → b = Range.bound (.comparison op value) → value.Gives vs limit →
      Range.Gives (.comparison op value) vs ⟨limit, .infinite, b.leftIncluded, b.rightIncluded⟩
  | below {op : Comparison} {value : Side} {vs : List V} {limit : Limit V} {b : Bound} :
      op = .lt ∨ op = .le → b = Range.bound (.comparison op value) → value.Gives vs limit →
      Range.Gives (.comparison op value) vs ⟨.infinite, limit, b.leftIncluded, b.rightIncluded⟩
  | interval {i : Interval} {vs us : List V} {left right : Limit V} {b : Bound} :
      b = Range.bound (.interval i) → i.left.Gives vs left → i.right.Gives us right →
      Range.Gives (.interval i) (vs ++ us) ⟨left, right, b.leftIncluded, b.rightIncluded⟩

/-- The value of a term, from the values of its texts. -/
inductive Term.Gives : Term → List V → TermValue V → Prop where
  | single {t : Term} {v : V} : t.bound? = none → Term.Gives t [v] (.single v)
  | range {r : Range} {boost : Option Boost} {vs : List V} {b : DecodedBound V} :
      r.Gives vs b → Term.Gives (.range r boost) vs (.range b)

theorem Side.Written.asks {x : Side} (h : x.Written w texts)
    (decoder : String → ExceptT ε (StateM σ) V) :
    Asks decoder (x.decode decoder) texts x.Gives := by
  cases h with
  | star => exact asks_pure .infinite
  | bare _ => exact asks_map_call _ fun _ => .value
  | phrase => exact asks_map_call _ fun _ => .value

theorem Bound.asks_decode (b : Bound) {gives : List V → DecodedBound V → Prop}
    (hleft : Asks decoder (b.left.decode decoder) texts b.left.Gives)
    (hright : Asks decoder (b.right.decode decoder) texts' b.right.Gives)
    (hgives : ∀ vs us left right, b.left.Gives vs left → b.right.Gives us right →
      gives (vs ++ us) ⟨left, right, b.leftIncluded, b.rightIncluded⟩) :
    Asks decoder (b.decode decoder) (texts ++ texts') gives := by
  refine hleft.bind fun vs left hvs => ?_
  rw [← List.append_nil texts']
  refine hright.bind fun us right hus => asks_pure ?_
  rw [List.append_nil]
  exact hgives vs us left right hvs hus

theorem Side.asks_unbounded (decoder : String → ExceptT ε (StateM σ) V) :
    Asks decoder (unbounded.decode decoder) [] unbounded.Gives :=
  asks_pure .infinite

theorem Side.Gives.eq_of_unbounded {vs : List V} {limit : Limit V}
    (h : Side.unbounded.Gives vs limit) : vs = [] ∧ limit = .infinite := by
  cases h
  exact ⟨rfl, rfl⟩

theorem Range.Written.asks {r : Range} (h : r.Written w texts)
    (decoder : String → ExceptT ε (StateM σ) V) :
    Asks decoder (r.bound.decode decoder) texts r.Gives := by
  cases h with
  | @comparison op value _ _ hvalue =>
      have hvalue := hvalue.asks decoder
      have hopen := Side.asks_unbounded decoder
      cases op
      case gt | ge =>
        rw [← List.append_nil texts]
        apply Bound.asks_decode _ hvalue hopen
        intro vs us left right hleft hright
        obtain ⟨rfl, rfl⟩ := hright.eq_of_unbounded
        rw [List.append_nil]
        exact .above (by decide) rfl hleft
      case lt | le =>
        rw [← List.nil_append texts]
        apply Bound.asks_decode _ hopen hvalue
        intro vs us left right hleft hright
        obtain ⟨rfl, rfl⟩ := hleft.eq_of_unbounded
        exact .below (by decide) rfl hright
  | interval _ hleft _ _ _ _ hright _ =>
      exact Bound.asks_decode _ (hleft.asks decoder) (hright.asks decoder)
        fun vs us left right hvs hus => .interval rfl hvs hus

theorem Term.Written.asks {t : Term} (h : t.Written w texts)
    (decoder : String → ExceptT ε (StateM σ) V) :
    Asks decoder (t.decode decoder) texts t.Gives := by
  cases h with
  | range hrange => exact (hrange.asks decoder).map fun vs b hgives => .range hgives
  | regexp | bare | phrase | group => exact asks_map_call _ fun _ => .single rfl

/-! ### Texts in the source -/

theorem Side.Written.infix_of_mem {x : Side} (h : x.Written w texts) {y : String}
    (hy : y ∈ texts) : y.toList <:+: w.toList := by
  cases h with
  | star => cases hy
  | bare _ =>
      obtain rfl := List.mem_singleton.mp hy
      exact List.infix_refl _
  | phrase =>
      obtain rfl := List.mem_singleton.mp hy
      exact ⟨['"'], ['"'], by simp⟩

theorem Range.Written.infix_of_mem {r : Range} (h : r.Written w texts) {y : String}
    (hy : y ∈ texts) : y.toList <:+: w.toList := by
  cases h with
  | comparison hvalue =>
      rw [String.toList_append]
      exact (hvalue.infix_of_mem hy).trans (List.suffix_append _ _).isInfix
  | interval _ hleft _ _ _ _ hright _ =>
      simp only [String.toList_append]
      rcases List.mem_append.mp hy with hy | hy
      · refine (hleft.infix_of_mem hy).trans ?_
        simp only [List.append_assoc]
        refine List.IsInfix.trans ?_ (List.suffix_append _ _).isInfix
        refine List.IsInfix.trans ?_ (List.suffix_append _ _).isInfix
        exact (List.prefix_append _ _).isInfix
      · refine (hright.infix_of_mem hy).trans ?_
        refine List.IsInfix.trans ?_ (List.prefix_append _ _).isInfix
        refine List.IsInfix.trans ?_ (List.prefix_append _ _).isInfix
        exact (List.suffix_append _ _).isInfix

/-- The texts are pieces of the source, unless the term is a group. -/
theorem Term.Written.infix_of_mem {t : Term} (h : t.Written w texts) {y : String}
    (hy : y ∈ texts) :
    y.toList <:+: w.toList ∨ (∃ g boost, t = .group g boost) ∧ y = t.render := by
  cases h with
  | range hrange => exact Or.inl (hrange.infix_of_mem hy)
  | group => exact Or.inr ⟨⟨_, _, rfl⟩, List.mem_singleton.mp hy⟩
  | regexp =>
      obtain rfl := List.mem_singleton.mp hy
      exact Or.inl ⟨['/'], ['/'], by simp⟩
  | bare =>
      obtain rfl := List.mem_singleton.mp hy
      exact Or.inl (List.infix_refl _)
  | phrase =>
      obtain rfl := List.mem_singleton.mp hy
      exact Or.inl ⟨['"'], ['"'], by simp⟩

/-! ### Whole texts -/

theorem Term.run_value (t : Term) (decoder : String → ExceptT ε (StateM σ) V) (st : σ) :
    (Term.value decoder (some t)).run.run st =
      (((t.decode decoder).run.run st).1.mapError .decode, ((t.decode decoder).run.run st).2) :=
  rfl

/-- The value of a term is what its bound decodes to, if it has one. -/
theorem Term.value_eq_of_bound? {t : Term} {b : Bound} (h : t.bound? = some b)
    (decoder : String → ExceptT ε (StateM σ) V) :
    Term.value decoder (some t) = (TermValue.range <$> b.decode decoder).adapt .decode := by
  cases t with
  | range r boost =>
      cases h
      rfl
  | regexp | literal | group => cases h

/-- What becomes of a decoder. The texts that it is called on are those that the source shows: they
stand there as they are, unless the term is a group, which hands on its canonical text and is read
back from it. Either all of them are accepted and the values make up the value of the term, or one
is rejected, and the reason is passed on. In both cases the calls are made in order, each from the
state that the one before it has left, and there are no others. Through the bound of a range
nothing is different. -/
theorem Term.value_of_parse {s : String} {t : Term} (h : Term.parse s = .ok t) :
    ∃ front w back texts, s = front ++ (w ++ t.suffixText) ++ back ∧ IsGap front ∧ IsGap back ∧
      t.Written w texts ∧
      (∀ y ∈ texts, y.toList <:+: s.toList ∨
        (∃ g boost, t = .group g boost) ∧ y = t.render ∧ Term.parse y = .ok t) ∧
      ∀ (σ V ε : Type) (decoder : String → ExceptT ε (StateM σ) V),
        (∀ st,
          (∃ vs st' value, Accepts decoder st texts vs st' ∧ t.Gives vs value ∧
            (Term.value decoder (some t)).run.run st = (.ok value, st')) ∨
          ∃ e st', Rejects decoder st texts e st' ∧
            (Term.value decoder (some t)).run.run st = (.error (.decode e), st')) ∧
        ∀ b, t.bound? = some b →
          Term.value decoder (some t) = (TermValue.range <$> b.decode decoder).adapt .decode := by
  obtain ⟨front, w, back, texts, hs, hfront, hback, hwritten⟩ := Term.exists_written_of_parse h
  refine ⟨front, w, back, texts, hs, hfront, hback, hwritten, ?_, ?_⟩
  · intro y hy
    rcases hwritten.infix_of_mem hy with hpart | ⟨hgroup, rfl⟩
    · have hw : w.toList <:+: s.toList :=
        ⟨front.toList, (t.suffixText ++ back).toList, by simp [hs]⟩
      exact Or.inl (hpart.trans hw)
    · obtain ⟨hwell, hdepth⟩ := Term.wellFormed_of_parse h
      exact Or.inr ⟨hgroup, rfl, hwell.parse_render hdepth⟩
  · intro σ V ε decoder
    refine ⟨?_, fun b hb => Term.value_eq_of_bound? hb decoder⟩
    intro st
    rw [Term.run_value]
    rcases hwritten.asks decoder st with ⟨vs, st', value, haccepts, hgives, hrun⟩ |
      ⟨e, st', hrejects, hrun⟩
    · exact Or.inl ⟨vs, st', value, haccepts, hgives, by rw [hrun]; rfl⟩
    · exact Or.inr ⟨e, st', hrejects, by rw [hrun]; rfl⟩

/-- Spaces and an escaped quote inside a phrase, and nothing for the far side. -/
theorem Term.value_of_parse_phrase :
    ∃ t, Term.parse " >=\"a \\\"  b\"^2" = .ok t ∧
      ∃ w texts, t.Written w texts ∧
        (∀ y ∈ texts, y.toList <:+: " >=\"a \\\"  b\"^2".toList) ∧
        ∀ (σ V ε : Type) (decoder : String → ExceptT ε (StateM σ) V) (st : σ),
          (∃ vs st' value, Accepts decoder st texts vs st' ∧ t.Gives vs value ∧
            (Term.value decoder (some t)).run.run st = (.ok value, st')) ∨
          ∃ e st', Rejects decoder st texts e st' ∧
            (Term.value decoder (some t)).run.run st = (.error (.decode e), st') := by
  have h : Term.parse " >=\"a \\\"  b\"^2" = .ok (.range (.comparison .ge (.literal (.phrase
      [⟨.word, "a"⟩, ⟨.blank, " "⟩, ⟨.word, "\\\""⟩, ⟨.blank, "  "⟩, ⟨.word, "b"⟩])))
      (some ⟨some "2"⟩)) := by decide +kernel
  obtain ⟨front, w, back, texts, -, -, -, hwritten, htexts, hvalue⟩ := Term.value_of_parse h
  refine ⟨_, h, w, texts, hwritten, fun y hy => ?_, fun σ V ε decoder => (hvalue σ V ε decoder).1⟩
  rcases htexts y hy with hpart | ⟨⟨_, _, hgroup⟩, -⟩
  · exact hpart
  · cases hgroup

end SearchQuery
