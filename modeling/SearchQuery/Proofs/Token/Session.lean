import SearchQuery.Proofs.Canonical.Spelling
import SearchQuery.Proofs.Token.Collecting

/-!
Lexers asked step by step. However a lexer is asked, for a token that may be missing or for the next
element of a sequence of results, it stands right behind what it has given out so far, and what it
has not given out yet is what splitting the whole text finds behind that.
-/

namespace SearchQuery

open Token (Located)

namespace Lexer

variable {l : Lexer} {t : Located} {e : Error} {front s : String}

/-! ### Calls -/

/-- The ways to ask a lexer for what comes next. -/
inductive Call where
  | token
  | item
deriving DecidableEq, Repr

/-- What a call gives back: a token that may be missing, or the next element of a sequence of tokens
and errors. -/
inductive Answer where
  | token (found : Except Halt (Option Located))
  | item (found : Except Halt (Option (Except Error Located)))

namespace Answer

/-- What an answer says of the next token. In a sequence an error is one more element and a missing
token is the end. -/
def result : Answer → Except Halt (Option Located)
  | token found => found
  | item (.ok none) => .ok none
  | item (.ok (some (.ok t))) => .ok (some t)
  | item (.ok (some (.error e))) => .error (.error e)
  | item (.error halt) => .error halt

def token? (a : Answer) : Option Located :=
  a.result.toOption.join

theorem token?_of_result_ok {a : Answer} {found : Option Located} (h : a.result = .ok found) :
    a.token? = found := by
  rw [token?, h]
  cases found <;> rfl

theorem token?_of_result_error {a : Answer} {halt : Halt} (h : a.result = .error halt) :
    a.token? = none := by
  rw [token?, h]
  rfl

end Answer

/-- The answer to a call, and the lexer after it. -/
def call (l : Lexer) : Call → Answer × Lexer
  | .token => (l.run nextToken).map .token id
  | .item => (l.run next).map .item id

/-- The answers to one call after the other. -/
def answers (l : Lexer) : List Call → List Answer
  | [] => []
  | c :: calls => (l.call c).1 :: (l.call c).2.answers calls

/-- The lexer after some calls. -/
def afterCalls (l : Lexer) : List Call → Lexer
  | [] => l
  | c :: calls => (l.call c).2.afterCalls calls

/-- The tokens given out by some calls. -/
def found (l : Lexer) (calls : List Call) : List Located :=
  (l.answers calls).filterMap Answer.token?

theorem found_cons (l : Lexer) (c : Call) (calls : List Call) :
    l.found (c :: calls) = (l.call c).1.token?.toList ++ (l.call c).2.found calls := by
  rw [found, found, answers, List.filterMap_cons]
  cases (l.call c).1.token? <;> rfl

/-! ### One call -/

/-- Both ways to ask find the same and leave the lexer at the same place. -/
theorem result_call (l : Lexer) (c : Call) :
    ((l.call c).1.result, (l.call c).2) = l.run nextToken := by
  cases c with
  | token => rfl
  | item =>
      simp only [call, run_next]
      obtain ⟨(e | p) | (_ | t), m⟩ := l.run nextToken <;> rfl

theorem StandsBehind.call (h : l.StandsBehind front s) (c : Call) :
    match (l.call c).1.result with
    | .ok none => (l.call c).2 = l ∧ l.pos = s.utf8ByteSize
    | .ok (some t) => t.pos = l.pos ∧ l.pos < (l.call c).2.pos ∧
        (l.call c).2.StandsBehind (front ++ t.token.text) s
    | .error (.error _) => (l.call c).2 = l ∧ l.pos ≠ s.utf8ByteSize
    | .error (.panic _) => False := by
  have hcalled := h.run_nextToken
  rw [← result_call l c] at hcalled
  rcases hresult : (l.call c).1.result with (_ | _) | (_ | t) <;> rw [hresult] at hcalled <;>
    exact hcalled

theorem StandsBehind.after_call (h : l.StandsBehind front s) (c : Call) :
    (l.call c).2.StandsBehind
      (front ++ Token.join ((l.call c).1.token?.toList.map Located.token)) s := by
  have hcalled := h.call c
  rcases hresult : (l.call c).1.result with (_ | _) | (_ | t) <;> rw [hresult] at hcalled
  · rw [Answer.token?_of_result_error hresult, hcalled.1]
    simpa using h
  · exact hcalled.elim
  · rw [Answer.token?_of_result_ok hresult, hcalled.1]
    simpa using h
  · rw [Answer.token?_of_result_ok hresult]
    simpa using hcalled.2.2

/-- The equation of `collect` without the evidence that it ends. -/
theorem collect_eq_next (l : Lexer) :
    l.collect = match l.run next with
      | (.ok none, m) => (.ok [], m)
      | (.ok (some (.ok t)), m) => m.collect.map (Except.map (t :: ·)) id
      | (.ok (some (.error e)), m) => (.error (.error e), m)
      | (.error halt, m) => (.error halt, m) := by
  rw [collect]
  split <;> next hnext => simp only [hnext]

theorem collect_eq (l : Lexer) :
    l.collect = match l.run nextToken with
      | (.ok none, m) => (.ok [], m)
      | (.ok (some t), m) => m.collect.map (Except.map (t :: ·)) id
      | (.error halt, m) => (.error halt, m) := by
  rw [collect_eq_next, run_next]
  rcases l.run nextToken with ⟨(e | p) | (_ | t), m⟩ <;> rfl

/-- What collecting finds is what a call gives out, and then what collecting finds. -/
theorem StandsBehind.collect_eq_call (h : l.StandsBehind front s) (c : Call) :
    l.collect.1 = (l.call c).2.collect.1.map ((l.call c).1.token?.toList ++ ·) := by
  have hcalled := h.call c
  have hcollect := l.collect_eq
  rw [← result_call l c] at hcollect
  rcases hresult : (l.call c).1.result with (e | p) | (_ | t) <;>
    rw [hresult] at hcalled hcollect
  · rw [Answer.token?_of_result_error hresult, hcalled.1, hcollect]
    rfl
  · exact hcalled.elim
  · rw [Answer.token?_of_result_ok hresult, hcalled.1, hcollect]
    rfl
  · rw [Answer.token?_of_result_ok hresult, hcollect]
    rfl

/-! ### Sessions -/

theorem afterCalls_append (l : Lexer) (calls later : List Call) :
    l.afterCalls (calls ++ later) = (l.afterCalls calls).afterCalls later := by
  induction calls generalizing l with
  | nil => rfl
  | cons c calls ih => exact ih (l.call c).2

theorem found_append (l : Lexer) (calls later : List Call) :
    l.found (calls ++ later) = l.found calls ++ (l.afterCalls calls).found later := by
  induction calls generalizing l with
  | nil => rfl
  | cons c calls ih =>
      rw [List.cons_append, found_cons, found_cons, afterCalls, ih, List.append_assoc]

theorem StandsBehind.afterCalls (h : l.StandsBehind front s) (calls : List Call) :
    (l.afterCalls calls).StandsBehind
      (front ++ Token.join ((l.found calls).map Located.token)) s := by
  induction calls generalizing l front with
  | nil => simpa [Lexer.afterCalls, found, answers] using h
  | cons c calls ih =>
      have hlater := ih (h.after_call c)
      rw [String.append_assoc, ← Token.join_append, ← List.map_append, ← found_cons l c] at hlater
      exact hlater

theorem StandsBehind.collect_eq_afterCalls (h : l.StandsBehind front s) (calls : List Call) :
    l.collect.1 = (l.afterCalls calls).collect.1.map (l.found calls ++ ·) := by
  induction calls generalizing l front with
  | nil =>
      rw [Lexer.afterCalls]
      cases l.collect.1 <;> rfl
  | cons c calls ih =>
      rw [h.collect_eq_call c, ih (h.after_call c), Lexer.afterCalls, found_cons]
      cases ((l.call c).2.afterCalls calls).collect.1 with
      | error halt => rfl
      | ok ts => simp [Except.map, List.append_assoc]

/-- A lexer that met an error stays there, and meets it again. -/
theorem calls_of_error (h : l.run nextToken = (.error (.error e), l)) (calls : List Call) :
    l.afterCalls calls = l ∧ ∀ a ∈ l.answers calls, a.result = .error (.error e) := by
  induction calls with
  | nil => exact ⟨rfl, by simp [answers]⟩
  | cons c calls ih =>
      obtain ⟨hresult, hstays⟩ := Prod.mk.inj ((result_call l c).trans h)
      obtain ⟨hafter, hagain⟩ := ih
      rw [afterCalls, answers, hstays]
      refine ⟨hafter, ?_⟩
      intro a ha
      obtain rfl | ha := List.mem_cons.mp ha
      · exact hresult
      · exact hagain a ha

/-! ### Collecting -/

/-- To collect the rest is to ask for elements until there is none or one is an error. -/
structure Collects (l : Lexer) (items : List Call) (rest : List Located) (error? : Option Error) :
    Prop where
  asks : ∀ c ∈ items, c = .item
  result : l.collect.1 = match error? with
    | none => .ok rest
    | some e => .error (.error e)
  stop : l.afterCalls items = l.collect.2
  answers : l.answers items =
    rest.map (fun t => .item (.ok (some (.ok t)))) ++ [.item (.ok (error?.map .error))]

theorem Collects.found_eq {items : List Call} {rest : List Located} {error? : Option Error}
    (h : l.Collects items rest error?) : l.found items = rest := by
  have hlast : Answer.token? (.item (.ok (error?.map .error))) = none := by
    cases error? <;> rfl
  have hgiven : Answer.token? ∘ (fun t : Located => .item (.ok (some (.ok t)))) = some := rfl
  rw [found, h.answers, List.filterMap_append, List.filterMap_map, hgiven]
  simp [hlast]

theorem StandsBehind.exists_collects (h : l.StandsBehind front s) :
    ∃ items rest error?, l.Collects items rest error? := by
  fun_induction collect l generalizing front with
  | case1 l m hnext =>
      have hcall : l.call .item = (.item (.ok none), m) := by simp [Lexer.call, hnext]
      refine ⟨[.item], [], none, by simp, ?_, ?_, ?_⟩ <;>
        simp [collect_eq_next, Lexer.afterCalls, answers, hcall, hnext]
  | case2 l t m hnext _ ih =>
      have hcall : l.call .item = (.item (.ok (some (.ok t))), m) := by simp [Lexer.call, hnext]
      have hafter := h.after_call .item
      rw [hcall] at hafter
      obtain ⟨items, rest, error?, hitems, hresult, hstop, hanswers⟩ := ih hafter
      refine ⟨.item :: items, t :: rest, error?, by simpa using hitems, ?_, ?_, ?_⟩
      · rw [collect_eq_next, hnext, Prod.map_fst, hresult]
        cases error? <;> rfl
      · rw [Lexer.afterCalls, hcall, hstop, collect_eq_next l, hnext]
        rfl
      · rw [Lexer.answers, hcall, hanswers]
        rfl
  | case3 l e m hnext =>
      have hcall : l.call .item = (.item (.ok (some (.error e))), m) := by simp [Lexer.call, hnext]
      refine ⟨[.item], [], some e, by simp, ?_, ?_, ?_⟩ <;>
        simp [collect_eq_next, Lexer.afterCalls, answers, hcall, hnext]
  | case4 l halt m hnext =>
      -- an error is an element of the sequence, and nothing else stops the lexer
      have hresult : (l.call .item).1.result = .error halt := by
        simp [Lexer.call, hnext, Answer.result]
      have hcalled := h.call .item
      rw [hresult] at hcalled
      cases halt with
      | panic p => exact hcalled.elim
      | error e =>
          rw [run_next] at hnext
          rcases hrun : l.run nextToken with ⟨(_ | _) | (_ | _), _⟩ <;> simp [hrun] at hnext

/-! ### What holds all the time -/

theorem StandsBehind.isValid (h : l.StandsBehind front s) :
    String.Pos.Raw.IsValid s ⟨l.pos⟩ := by
  obtain ⟨back, hback⟩ := h.within
  rw [String.Pos.Raw.isValid_iff_exists_append]
  refine ⟨front, String.ofList back, ?_, by rw [h.pos]; rfl⟩
  rw [← String.toList_inj, String.toList_append, String.toList_ofList, hback]

theorem StandsBehind.pos_le (h : l.StandsBehind front s) : l.pos ≤ s.utf8ByteSize := by
  obtain ⟨back, hback⟩ := h.within
  rw [h.pos, ← Text.size_toList, ← Text.size_toList, ← hback, Text.size_append]
  exact Nat.le_add_right _ _

/-- Where a lexer of a text stands that has given out some tokens: behind their texts, with the rest
of what splitting the text finds still to come. -/
structure HasGiven (l : Lexer) (found : List Located) (s : String) : Prop where
  boundary : String.Pos.Raw.IsValid s ⟨l.pos⟩
  behind : l.StandsBehind (Token.join (found.map Located.token)) s
  remaining : tokenize s = guarded (l.collect.1.map (found ++ ·))
  initial : ∀ ts, tokenize s = .ok ts → found <+: ts

/-- What one more call does: it gets further with a token, stays where it is for good with an error,
and gives out nothing at the end of the text and only there. It never slices out of range. -/
structure Call.Sound (c : Call) (l : Lexer) (s : String) : Prop where
  token : ∀ t, (l.call c).1.result = .ok (some t) → t.pos = l.pos ∧ l.pos < (l.call c).2.pos
  error : ∀ e, (l.call c).1.result = .error (.error e) → ∀ calls,
    (l.call c).2.afterCalls calls = l ∧
      ∀ a ∈ (l.call c).2.answers calls, a.result = .error (.error e)
  isEnd : (l.call c).1.result = .ok none ↔ l.pos = s.utf8ByteSize
  ne_panic : ∀ p, (l.call c).1.result ≠ .error (.panic p)

theorem hasGiven_found (s : String) (calls : List Call) :
    ((ofString s).afterCalls calls).HasGiven ((ofString s).found calls) s := by
  have hstart := standsBehind_ofString s
  have hbehind := hstart.afterCalls calls
  rw [String.empty_append] at hbehind
  have hremaining : tokenize s = _ := congrArg guarded (hstart.collect_eq_afterCalls calls)
  refine ⟨hbehind.isValid, hbehind, hremaining, ?_⟩
  intro ts hts
  rw [hts] at hremaining
  cases hcollect : ((ofString s).afterCalls calls).collect.1 with
  | error halt =>
      rw [hcollect] at hremaining
      cases hremaining
  | ok rest =>
      rw [hcollect] at hremaining
      exact ⟨rest, (Except.ok.inj hremaining).symm⟩

theorem StandsBehind.sound (h : l.StandsBehind front s) (c : Call) : c.Sound l s := by
  have hcalled := h.call c
  have hrun := result_call l c
  constructor
  · intro t hresult
    rw [hresult] at hcalled
    exact ⟨hcalled.1, hcalled.2.1⟩
  · intro e hresult calls
    rw [hresult] at hcalled hrun
    rw [hcalled.1] at hrun ⊢
    exact calls_of_error hrun.symm calls
  · constructor
    · intro hresult
      rw [hresult] at hcalled
      exact hcalled.2
    · intro hend
      rcases hresult : (l.call c).1.result with (_ | _) | (_ | t) <;> rw [hresult] at hcalled
      · exact (hcalled.2 hend).elim
      · exact hcalled.elim
      · have hle := hcalled.2.2.pos_le
        omega
  · intro p hresult
    rw [hresult] at hcalled
    exact hcalled

/-- A lexer of a text that is asked in any way and any number of times, and in the end perhaps for
all that is left, stands right behind what it has given out, which is where splitting the whole text
starts; a token takes it further, an error keeps it where it is, and it has nothing more to give out
just at the end of the text. Asking for all that is left is asking for elements. -/
theorem hasGiven_afterCalls (s : String) (calls : List Call) :
    let l := (ofString s).afterCalls calls
    let found := (ofString s).found calls
    (l.HasGiven found s ∧ ∀ c : Call, c.Sound l s) ∧
      ∃ items rest error?, l.Collects items rest error? ∧
        l.collect.2.HasGiven (found ++ rest) s ∧ ∀ c : Call, c.Sound l.collect.2 s := by
  intro l found
  have hgiven : l.HasGiven found s := hasGiven_found s calls
  obtain ⟨items, rest, error?, hcollects⟩ := hgiven.behind.exists_collects
  have hcollected : l.collect.2.HasGiven (found ++ rest) s := by
    have hlater := hasGiven_found s (calls ++ items)
    rw [afterCalls_append, found_append] at hlater
    change (l.afterCalls items).HasGiven (found ++ l.found items) s at hlater
    rwa [hcollects.stop, hcollects.found_eq] at hlater
  exact ⟨⟨hgiven, hgiven.behind.sound⟩, items, rest, error?, hcollects, hcollected,
    hcollected.behind.sound⟩

end Lexer

end SearchQuery
