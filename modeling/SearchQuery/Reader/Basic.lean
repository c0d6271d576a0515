import SearchQuery.Error
import SearchQuery.Token

/-!
Readers of token lists. A reader takes a value off the front of a list and returns what follows;
it either uses up at least one token or fails. Positions play no part: a fault holds the tokens
that were left when it arose, and their size gives the offset in the source. What a parser does with
a cursor is told by the reader of the tokens that it has left.
-/

namespace SearchQuery

open Token (Kind)

/-- Why reading stopped, with the tokens left at that point. -/
inductive Fault where
  /-- None of the expected kinds comes next. -/
  | unexpected (rest : List Token) (expected : List Kind)
  /-- The next token opens a parenthesis too many. -/
  | tooDeep (rest : List Token)
  /-- The next token is a comparison without a meaning. -/
  | badComparison (rest : List Token)
deriving DecidableEq, Repr

/-- The tokens that were left when reading stopped. -/
def Fault.rest : Fault → List Token
  | unexpected rest _ | tooDeep rest | badComparison rest => rest

/-- The error that a fault is in a source of `size` bytes, read with at most `limit` open
parentheses. -/
def Fault.toError (size limit : Nat) : Fault → Error
  | unexpected [] expected => .unexpectedEnd size expected
  | unexpected (t :: rest) expected => .unexpected (size - Token.bytes (t :: rest)) t expected
  | tooDeep rest => .tooDeep (size - Token.bytes rest) limit
  | badComparison rest =>
      .internal ("bad comparison '" ++ (rest.head?.map Token.text).getD "" ++ "' at " ++
        toString (size - Token.bytes rest))

/-- A value taken off the front of a token list, and what follows it. -/
abbrev Outcome (α : Type) := Except Fault (α × List Token)

/-- A function that takes a value off the front of a token list and uses up at least one token. -/
structure Reader (α : Type) where
  run : List Token → Outcome α
  shorter : ∀ {ts a rest}, run ts = .ok (a, rest) → rest.length < ts.length

variable {α β : Type}

/-- Applies a function to the value of an outcome. -/
def Outcome.map (f : α → β) : Outcome α → Outcome β
  | .ok (a, rest) => .ok (f a, rest)
  | .error e => .error e

@[simp]
theorem Outcome.map_eq_ok_iff {f : α → β} {o : Outcome α} {b : β} {rest : List Token} :
    o.map f = .ok (b, rest) ↔ ∃ a, o = .ok (a, rest) ∧ f a = b := by
  cases o with
  | error e => simp [Outcome.map]
  | ok p =>
      obtain ⟨a, r⟩ := p
      simp only [Outcome.map, Except.ok.injEq, Prod.mk.injEq]
      constructor
      · rintro ⟨rfl, rfl⟩
        exact ⟨a, ⟨rfl, rfl⟩, rfl⟩
      · rintro ⟨_, ⟨rfl, rfl⟩, rfl⟩
        exact ⟨rfl, rfl⟩

/-- Goes on with what follows a value. -/
def Outcome.andThen (o : Outcome α) (next : α → List Token → Outcome β) : Outcome β :=
  match o with
  | .ok (a, rest) => next a rest
  | .error e => .error e

@[simp]
theorem Outcome.andThen_eq_ok_iff {o : Outcome α} {next : α → List Token → Outcome β}
    {b : β} {rest : List Token} :
    o.andThen next = .ok (b, rest) ↔ ∃ a mid, o = .ok (a, mid) ∧ next a mid = .ok (b, rest) := by
  cases o with
  | error e => simp [Outcome.andThen]
  | ok p =>
      obtain ⟨a, r⟩ := p
      simp only [Outcome.andThen, Except.ok.injEq, Prod.mk.injEq]
      constructor
      · intro h
        exact ⟨a, r, ⟨rfl, rfl⟩, h⟩
      · rintro ⟨_, _, ⟨rfl, rfl⟩, h⟩
        exact h

namespace Outcome

variable {γ : Type} (o : Outcome α)

theorem map_map (f : α → β) (g : β → γ) : (o.map f).map g = o.map fun a => g (f a) := by
  cases o <;> rfl

theorem map_andThen (f : α → β) (next : β → List Token → Outcome γ) :
    (o.map f).andThen next = o.andThen fun a ts => next (f a) ts := by
  cases o <;> rfl

theorem andThen_map (next : α → List Token → Outcome β) (f : β → γ) :
    (o.andThen next).map f = o.andThen fun a ts => (next a ts).map f := by
  cases o <;> rfl

theorem andThen_andThen (next : α → List Token → Outcome β) (next' : β → List Token → Outcome γ) :
    (o.andThen next).andThen next' = o.andThen fun a ts => (next a ts).andThen next' := by
  cases o <;> rfl

end Outcome

namespace Token

/-- What is left after the space at the front. -/
def skipSpace (ts : List Token) : List Token :=
  ts.dropWhile isSpace

/-- The next token is of one of the given kinds. -/
def startsWith (kinds : List Kind) (ts : List Token) : Bool :=
  ts.head?.any fun t => kinds.contains t.kind

/-- The next token is space. -/
def startsWithSpace (ts : List Token) : Bool :=
  ts.head?.any isSpace

/-- Takes a token of one of the given kinds. -/
def expect (kinds : List Kind) (ts : List Token) : Outcome Token :=
  match ts with
  | [] => .error (.unexpected [] kinds)
  | t :: rest => if kinds.contains t.kind then .ok (t, rest) else .error (.unexpected ts kinds)

/-- Splits off the longest run of tokens of the given kinds. -/
def spanKinds (kinds : List Kind) (ts : List Token) : List Token × List Token :=
  (ts.takeWhile fun t => kinds.contains t.kind, ts.dropWhile fun t => kinds.contains t.kind)

/-- Takes all tokens up to the next one of kind `close`, and that one too. -/
def takeUntil (close : Kind) (ts : List Token) : Outcome (List Token) :=
  match ts.dropWhile fun t => t.kind != close with
  | [] => .error (.unexpected [] [close])
  | _ :: rest => .ok (ts.takeWhile fun t => t.kind != close, rest)

theorem length_dropWhile_le (p : Token → Bool) (ts : List Token) :
    (ts.dropWhile p).length ≤ ts.length :=
  (List.dropWhile_sublist p).length_le

theorem length_skipSpace_le (ts : List Token) : (skipSpace ts).length ≤ ts.length :=
  length_dropWhile_le _ ts

theorem length_lt_of_expect {kinds : List Kind} {ts rest : List Token} {t : Token}
    (h : expect kinds ts = .ok (t, rest)) : rest.length < ts.length := by
  unfold expect at h
  split at h
  · cases h
  · split at h
    · cases h
      simp
    · cases h

theorem length_spanKinds_lt {kinds : List Kind} {ts : List Token}
    (h : startsWith kinds ts = true) : (spanKinds kinds ts).2.length < ts.length := by
  cases ts with
  | nil => simp [startsWith] at h
  | cons t rest =>
      simp only [startsWith, List.head?_cons, Option.any_some] at h
      simp only [spanKinds, h, List.dropWhile_cons_of_pos, List.length_cons]
      exact Nat.lt_succ_of_le (length_dropWhile_le _ rest)

theorem length_lt_of_takeUntil {close : Kind} {ts inner rest : List Token}
    (h : takeUntil close ts = .ok (inner, rest)) : rest.length < ts.length := by
  unfold takeUntil at h
  split at h
  · cases h
  · next t tail hdrop =>
      cases h
      have hle := length_dropWhile_le (fun t => t.kind != close) ts
      rw [hdrop, List.length_cons] at hle
      exact hle

end Token

theorem skipSpace_eq_self {ts : List Token} (h : ∀ t ∈ ts.head?, t.isSpace = false) :
    Token.skipSpace ts = ts := by
  cases ts with
  | nil => rfl
  | cons t ts => simp [Token.skipSpace, h t rfl]

namespace Reader

/-- Applies a function to the value read. -/
def map (f : α → β) (r : Reader α) : Reader β where
  run ts := (r.run ts).map f
  shorter h := by
    obtain ⟨a, ha, _⟩ := Outcome.map_eq_ok_iff.mp h
    exact r.shorter ha

/-- A reader that is not built before it is run. -/
def delay (r : Unit → Reader α) : Reader α where
  run ts := (r ()).run ts
  shorter h := (r ()).shorter h

@[simp]
theorem delay_eq (r : Unit → Reader α) : delay r = r () := rfl

/-- Reads one value, and what follows it in a way that may depend on the value. -/
def andThen (r : Reader α) (next : α → List Token → Outcome β)
    (next_le : ∀ {a ts b rest}, next a ts = .ok (b, rest) → rest.length ≤ ts.length) :
    Reader β where
  run ts := (r.run ts).andThen next
  shorter h := by
    obtain ⟨a, mid, hread, hnext⟩ := Outcome.andThen_eq_ok_iff.mp h
    exact Nat.lt_of_le_of_lt (next_le hnext) (r.shorter hread)

end Reader

/-- A test for whether a repetition goes on: the tokens from the start of the next item, and what
stood before it. -/
structure Lookahead (γ : Type) where
  find? : List Token → Option (γ × List Token)
  start_le : ∀ {ts g start}, find? ts = some (g, start) → start.length ≤ ts.length

namespace Reader

variable {γ : Type}

/-- Reads items as long as the test finds one. -/
def many (ahead : Lookahead γ) (item : γ → Reader α) (ts : List Token) : Outcome (List α) :=
  match hahead : ahead.find? ts with
  | none => .ok ([], ts)
  | some (g, start) =>
      match hread : (item g).run start with
      | .error e => .error e
      | .ok (a, rest) =>
          have : rest.length < ts.length :=
            Nat.lt_of_lt_of_le ((item g).shorter hread) (ahead.start_le hahead)
          (many ahead item rest).map (a :: ·)
termination_by ts.length

/-- The equation of `many` without the evidence that it ends. -/
theorem many_eq (ahead : Lookahead γ) (item : γ → Reader α) (ts : List Token) :
    many ahead item ts =
      match ahead.find? ts with
      | none => .ok ([], ts)
      | some (g, start) =>
          ((item g).run start).andThen fun a rest => (many ahead item rest).map (a :: ·) := by
  rw [many]
  split
  · next hahead => simp only [hahead]
  · next hahead =>
      simp only [hahead]
      split
      · next hread => simp only [hread, Outcome.andThen]
      · next hread => simp only [hread, Outcome.andThen]

theorem length_le_of_many {ahead : Lookahead γ} {item : γ → Reader α} {ts rest : List Token}
    {items : List α} (h : many ahead item ts = .ok (items, rest)) : rest.length ≤ ts.length := by
  fun_induction many ahead item ts generalizing items rest with
  | case1 ts _ =>
      cases h
      exact Nat.le_refl _
  | case2 => cases h
  | case3 ts g start hahead a mid hread hlt ih =>
      obtain ⟨tail, htail, _⟩ := Outcome.map_eq_ok_iff.mp h
      exact Nat.le_trans (ih htail) (Nat.le_of_lt hlt)

/-- Reads a first item and then further ones as long as the test finds one. -/
def withMany (first : Reader α) (ahead : Lookahead γ) (item : γ → Reader β) :
    Reader (α × List β) :=
  first.andThen (fun a ts => (many ahead item ts).map (Prod.mk a)) fun h => by
    obtain ⟨items, hitems, _⟩ := Outcome.map_eq_ok_iff.mp h
    exact length_le_of_many hitems

end Reader

/-- A reader, with the kinds of tokens that call for it. -/
structure Choice (α : Type) where
  starts : List Kind
  reader : Reader α

namespace Choice

def map (f : α → β) (c : Choice α) : Choice β :=
  ⟨c.starts, c.reader.map f⟩

/-- Reads by the first choice that the next token calls for. Where none is called for, the kinds
of all choices are expected, in order. -/
def read (choices : List (Choice α)) : Reader α where
  run ts :=
    match choices.find? fun c => Token.startsWith c.starts ts with
    | some c => c.reader.run ts
    | none => .error (.unexpected ts (choices.flatMap starts))
  shorter h := by
    split at h
    · next c _ => exact c.reader.shorter h
    · cases h

end Choice

end SearchQuery
