import SearchQuery.Proofs.Grammar
import SearchQuery.Proofs.Token.Class
import SearchQuery.Reader.Literal

/-!
Readers and productions of the smallest pieces: space, keywords, single tokens, and runs of
tokens. Each of them is read just as it is derived.
-/

namespace SearchQuery

open Token (Kind)

variable {α β : Type}

/-- The phrases that a reader takes. -/
def Reader.Reads (r : Reader α) : Production α :=
  fun ts a rest => r.run ts = .ok (a, rest)

/-! ### Space -/

theorem spaces_skipSpace (ts : List Token) : Spaces ts (Token.skipSpace ts) := by
  induction ts with
  | nil => exact .none
  | cons t ts ih =>
      by_cases ht : t.isSpace = true
      · simpa [Token.skipSpace, ht] using Spaces.more ht ih
      · simpa [Token.skipSpace, ht] using Spaces.none

theorem isSpace_head?_skipSpace {ts : List Token} {t : Token}
    (h : t ∈ (Token.skipSpace ts).head?) : t.isSpace = false :=
  not_of_mem_head?_dropWhile h

theorem Spaces.skipSpace_eq {ts rest : List Token} (h : Spaces ts rest) :
    Token.skipSpace ts = Token.skipSpace rest := by
  induction h with
  | none => rfl
  | more ht _ ih => simpa [Token.skipSpace, ht] using ih

/-- Space before a phrase that starts with something else is all the space there is. -/
theorem Spaces.skipSpace_eq_cons {ts rest : List Token} {t : Token} (h : Spaces ts (t :: rest))
    (ht : t.isSpace = false) : Token.skipSpace ts = t :: rest := by
  rw [h.skipSpace_eq]
  exact skipSpace_eq_self (by simpa using ht)

theorem Spaces.suffix {ts rest : List Token} (h : Spaces ts rest) : rest <:+ ts := by
  induction h with
  | none => exact List.suffix_refl _
  | more _ _ ih => exact ih.trans (List.suffix_cons _ _)

theorem SomeSpaces.spaces {ts rest : List Token} (h : SomeSpaces ts rest) : Spaces ts rest := by
  obtain ⟨ht, hspaces⟩ := h
  exact .more ht hspaces

theorem SomeSpaces.startsWithSpace {ts rest : List Token} (h : SomeSpaces ts rest) :
    Token.startsWithSpace ts = true := by
  obtain ⟨ht, -⟩ := h
  simpa [Token.startsWithSpace] using ht

theorem someSpaces_skipSpace {ts : List Token} (h : Token.startsWithSpace ts = true) :
    SomeSpaces ts (Token.skipSpace ts) := by
  cases ts with
  | nil => simp [Token.startsWithSpace] at h
  | cons t ts =>
      have ht : t.isSpace = true := by simpa [Token.startsWithSpace] using h
      have hskip : Token.skipSpace (t :: ts) = Token.skipSpace ts := by simp [Token.skipSpace, ht]
      rw [hskip]
      exact .mk ht (spaces_skipSpace ts)

/-! ### Keywords -/

namespace Keyword

theorem isWord_words_iff {k : Keyword} {t : Token} :
    t.isWord k.words = true ↔
      t.kind = .word ∧ (k, t.text) ∈ [(and, "AND"), (and, "and"), (or, "OR"), (or, "or"),
        (not, "NOT"), (not, "not")] := by
  cases k <;> simp [Token.isWord, words]

theorem appliesTo_iff {ts : List Token} :
    appliesTo ts = true ↔
      (∀ v ∈ ts.head?, ¬ Continues v.kind) ∧
        ∃ u rest, Spaces ts (u :: rest) ∧ u.isSpace = false ∧ u.kind ≠ .rightParen := by
  have hfirst : Token.startsWith wordContinuations ts = false ↔
      ∀ v ∈ ts.head?, ¬ Continues v.kind := by
    cases ts with
    | nil => simp [Token.startsWith]
    | cons t ts => simp [Token.startsWith, wordContinuations, Continues]
  have hnext : operandFollows ts = true ↔
      ∃ u rest, Spaces ts (u :: rest) ∧ u.isSpace = false ∧ u.kind ≠ .rightParen := by
    constructor
    · intro h
      cases hskip : Token.skipSpace ts with
      | nil => simp [operandFollows, hskip] at h
      | cons u rest =>
          have hu : u ∈ (Token.skipSpace ts).head? := by simp [hskip]
          refine ⟨u, rest, hskip ▸ spaces_skipSpace ts, isSpace_head?_skipSpace hu, ?_⟩
          simpa [operandFollows, hskip] using h
    · rintro ⟨u, rest, hspaces, hu, hparen⟩
      simp [operandFollows, hspaces.skipSpace_eq_cons hu, hparen]
  rw [appliesTo, Bool.and_eq_true, Bool.not_eq_true', hfirst, hnext]

theorem strip?_eq_some_iff {k : Keyword} {ts rest : List Token} :
    k.strip? ts = some rest ↔ k.Stands ts rest := by
  constructor
  · intro h
    unfold strip? at h
    split at h
    · cases h
    · next t tail =>
        split at h
        · next hword =>
            split at h
            · next happlies =>
                cases h
                obtain ⟨hkind, htext⟩ := isWord_words_iff.mp hword
                obtain ⟨hfirst, u, rest', hspaces, hu, hparen⟩ := appliesTo_iff.mp happlies
                exact .word hkind htext hfirst hspaces hu hparen
            · cases h
        · cases k with
          | not =>
              simp only [symbols, stripKinds?] at h
              split at h
              · next hk =>
                  cases h
                  exact .bang hk
              · cases h
          | _ =>
              cases tail with
              | nil => simp [symbols, stripKinds?] at h
              | cons u tail =>
                  simp only [symbols, stripKinds?] at h
                  grind [Stands]
  · intro h
    cases h with
    | word hkind htext hfirst hspaces hu hparen =>
        simp [strip?, isWord_words_iff.mpr ⟨hkind, htext⟩,
          appliesTo_iff.mpr ⟨hfirst, _, _, hspaces, hu, hparen⟩]
    | ampersands ht hu => simp [strip?, Token.isWord, symbols, stripKinds?, ht, hu]
    | bars ht hu => simp [strip?, Token.isWord, symbols, stripKinds?, ht, hu]
    | bang ht => simp [strip?, Token.isWord, symbols, stripKinds?, ht]

/-- The kinds of tokens that keywords start with. -/
theorem Stands.exists_cons {k : Keyword} {ts rest : List Token} (h : k.Stands ts rest) :
    ∃ t us, ts = t :: us ∧ t.isSpace = false ∧
      t.kind ∈ [.word, .ampersand, .bar, .bang] ∧ (t.kind = .bang → k = .not) := by
  cases h with
  | word hkind => exact ⟨_, _, rfl, by simp [Token.isSpace, Kind.isSpace, hkind]⟩
  | ampersands ht => exact ⟨_, _, rfl, by simp [Token.isSpace, Kind.isSpace, ht]⟩
  | bars ht => exact ⟨_, _, rfl, by simp [Token.isSpace, Kind.isSpace, ht]⟩
  | bang ht => exact ⟨_, _, rfl, by simp [Token.isSpace, Kind.isSpace, ht]⟩

/-- At most one keyword stands at a place. -/
theorem Stands.unique {j k : Keyword} {ts mid rest : List Token} (hj : j.Stands ts mid)
    (hk : k.Stands ts rest) : j = k := by
  cases hj <;> cases hk <;> simp_all
  grind

theorem Stands.suffix {k : Keyword} {ts rest : List Token} (h : k.Stands ts rest) :
    rest <:+ ts := by
  cases h with
  | word => exact List.suffix_cons _ _
  | ampersands | bars => exact (List.suffix_cons _ _).trans (List.suffix_cons _ _)
  | bang => exact List.suffix_cons _ _

end Keyword

/-! ### Single tokens and runs -/

namespace Token

theorem startsWith_cons {kinds : List Kind} {t : Token} {ts : List Token} :
    startsWith kinds (t :: ts) = true ↔ t.kind ∈ kinds := by
  simp [startsWith]

theorem startsWith_iff {kinds : List Kind} {ts : List Token} :
    startsWith kinds ts = true ↔ ∃ t us, ts = t :: us ∧ t.kind ∈ kinds := by
  cases ts with
  | nil => simp [startsWith]
  | cons t ts => simp [startsWith_cons]

theorem startsWith_mono {kinds larger : List Kind} {ts : List Token} (hsub : kinds ⊆ larger)
    (h : startsWith kinds ts = true) : startsWith larger ts = true := by
  obtain ⟨t, us, rfl, ht⟩ := startsWith_iff.mp h
  exact startsWith_cons.mpr (hsub ht)

theorem startsWith_disjoint {ks ls : List Kind} {ts : List Token} (hks : startsWith ks ts = true)
    (hls : startsWith ls ts = true) (hdisjoint : ∀ k ∈ ks, k ∉ ls) : False := by
  obtain ⟨t, us, rfl, ht⟩ := startsWith_iff.mp hks
  exact hdisjoint t.kind ht (startsWith_cons.mp hls)

/-- A phrase that starts with one of some kinds, none of them space, has no space before it. -/
theorem skipSpace_eq_of_startsWith {kinds : List Kind} {ts : List Token}
    (h : startsWith kinds ts = true) (hkinds : ∀ k ∈ kinds, k.isSpace = false) :
    skipSpace ts = ts := by
  obtain ⟨t, us, rfl, ht⟩ := startsWith_iff.mp h
  exact skipSpace_eq_self (by simpa [isSpace] using hkinds t.kind ht)

theorem expect_eq_ok_iff {kinds : List Kind} {ts rest : List Token} {t : Token} :
    expect kinds ts = .ok (t, rest) ↔ ts = t :: rest ∧ t.kind ∈ kinds := by
  cases ts with
  | nil => simp [expect]
  | cons u ts =>
      simp only [expect, List.contains_eq_mem, decide_eq_true_eq, List.cons.injEq]
      by_cases hu : u.kind ∈ kinds
      · simp only [hu, if_true, Except.ok.injEq, Prod.mk.injEq]
        constructor
        · rintro ⟨rfl, rfl⟩
          exact ⟨⟨rfl, rfl⟩, hu⟩
        · rintro ⟨⟨rfl, rfl⟩, -⟩
          exact ⟨rfl, rfl⟩
      · simp only [hu, if_false, reduceCtorEq, false_iff]
        rintro ⟨⟨rfl, rfl⟩, ht⟩
        exact hu ht

theorem fragments_iff {kinds : List Kind} {ts run rest : List Token} :
    Fragments kinds ts run rest ↔
      startsWith kinds ts = true ∧ spanKinds kinds ts = (run, rest) := by
  constructor
  · rintro ⟨hne, hrun, hrest⟩
    have hall : ∀ t ∈ run, kinds.contains t.kind = true := by
      intro t ht
      simpa using hrun t ht
    have hstop : ∀ t ∈ rest.head?, kinds.contains t.kind = false := by
      intro t ht
      simpa using hrest t ht
    obtain ⟨htake, hdrop⟩ := takeWhile_and_dropWhile_append hall hstop
    refine ⟨?_, ?_⟩
    · cases run with
      | nil => exact absurd rfl hne
      | cons t run => exact startsWith_cons.mpr (hrun t List.mem_cons_self)
    · rw [spanKinds, htake, hdrop]
  · rintro ⟨hstart, hspan⟩
    simp only [spanKinds, Prod.mk.injEq] at hspan
    obtain ⟨hrun, hrest⟩ := hspan
    have happ : ts = run ++ rest := by rw [← hrun, ← hrest, List.takeWhile_append_dropWhile]
    rw [happ]
    refine .mk ?_ ?_ ?_
    · obtain ⟨t, us, rfl, ht⟩ := startsWith_iff.mp hstart
      rw [← hrun]
      simp [ht]
    · intro t ht
      rw [← hrun] at ht
      simpa using List.mem_takeWhile_imp ht
    · intro t ht
      rw [← hrest] at ht
      simpa using not_of_mem_head?_dropWhile ht

theorem takeUntil_eq_ok_iff {close : Kind} {ts inner rest : List Token} :
    takeUntil close ts = .ok (inner, rest) ↔
      ∃ u, u.kind = close ∧ (∀ t ∈ inner, t.kind ≠ close) ∧ ts = inner ++ u :: rest := by
  constructor
  · intro h
    unfold takeUntil at h
    split at h
    · cases h
    · next u tail hdrop =>
        cases h
        have hu : u ∈ (ts.dropWhile fun t => t.kind != close).head? := by simp [hdrop]
        refine ⟨u, by simpa using not_of_mem_head?_dropWhile hu, ?_, ?_⟩
        · intro t ht
          simpa using List.mem_takeWhile_imp ht
        · rw [← hdrop, List.takeWhile_append_dropWhile]
  · rintro ⟨u, hu, hinner, rfl⟩
    have hall : ∀ t ∈ inner, (t.kind != close) = true := by
      intro t ht
      simpa using hinner t ht
    have hstop : ∀ t ∈ (u :: rest).head?, (t.kind != close) = false := by simp [hu]
    obtain ⟨htake, hdrop⟩ := takeWhile_and_dropWhile_append hall hstop
    simp [takeUntil, htake, hdrop]

end Token

theorem Keyword.Stands.startsWith {k : Keyword} {ts rest : List Token} (h : k.Stands ts rest) :
    Token.startsWith [.word, .ampersand, .bar, .bang] ts = true := by
  obtain ⟨t, us, rfl, -, hkind, -⟩ := h.exists_cons
  exact Token.startsWith_cons.mpr hkind

theorem Fragments.startsWith {kinds : List Kind} {ts run rest : List Token}
    (h : Fragments kinds ts run rest) : Token.startsWith kinds ts = true :=
  (Token.fragments_iff.mp h).1

theorem Reader.reads_map_iff {r : Reader α} {f : α → β} {ts rest : List Token} {b : β} :
    (r.map f).Reads ts b rest ↔ ∃ a, r.Reads ts a rest ∧ f a = b :=
  Outcome.map_eq_ok_iff

theorem Reader.reads_between_iff {delimiter : Kind} {ts inner rest : List Token} :
    (Reader.between delimiter).Reads ts inner rest ↔ Delimited delimiter ts inner rest := by
  simp only [Reads, between, Outcome.andThen_eq_ok_iff, Token.expect_eq_ok_iff,
    Token.takeUntil_eq_ok_iff, List.mem_singleton]
  constructor
  · rintro ⟨opening, mid, ⟨rfl, hopening⟩, closing, hclosing, hinner, rfl⟩
    exact .mk hopening hinner hclosing
  · rintro ⟨hopening, hinner, hclosing⟩
    exact ⟨_, _, ⟨rfl, hopening⟩, _, hclosing, hinner, rfl⟩

/-- Choices whose kinds do not overlap read what any one of them reads. -/
theorem Choice.reads_read_iff {choices : List (Choice α)} {ts rest : List Token} {a : α}
    (hdisjoint : (choices.map Choice.starts).Pairwise fun ks ls => ∀ k ∈ ks, k ∉ ls) :
    (Choice.read choices).Reads ts a rest ↔
      ∃ c ∈ choices, Token.startsWith c.starts ts = true ∧ c.reader.Reads ts a rest := by
  induction choices with
  | nil => simp [Reader.Reads, read]
  | cons c choices ih =>
      obtain ⟨hc, hchoices⟩ := List.pairwise_cons.mp hdisjoint
      have ih := ih hchoices
      simp only [Reader.Reads, read] at ih ⊢
      by_cases hstart : Token.startsWith c.starts ts = true
      · simp only [List.find?_cons, hstart, List.mem_cons]
        constructor
        · intro h
          exact ⟨c, Or.inl rfl, hstart, h⟩
        · rintro ⟨d, rfl | hd, hdstart, h⟩
          · exact h
          · obtain ⟨t, us, rfl, ht⟩ := Token.startsWith_iff.mp hstart
            have hother := hc d.starts (List.mem_map_of_mem hd) t.kind ht
            exact absurd (Token.startsWith_cons.mp hdstart) hother
      · have hskip : (∃ d, (d = c ∨ d ∈ choices) ∧ Token.startsWith d.starts ts = true ∧
            d.reader.run ts = .ok (a, rest)) ↔ ∃ d, d ∈ choices ∧
              Token.startsWith d.starts ts = true ∧ d.reader.run ts = .ok (a, rest) := by
          grind
        simp only [List.find?_cons, hstart, List.mem_cons, hskip, ← ih]
        cases choices.find? fun d => Token.startsWith d.starts ts <;> simp

end SearchQuery
