import SearchQuery.Proofs.Canonical.Spelling
import SearchQuery.Proofs.Fault.Report

/-!
Texts side by side. Where one text ends and the next one starts, the tokens of the two stay apart
unless both are a run of the same kind or a backslash at the end of the first escapes what comes
after it; then the tokens of the two together are those of the first and, moved behind them, those
of the second.
-/

namespace SearchQuery

namespace Token

variable {a b : String} {ts us : List Located} {t u : Located}

/-! ### Moved tokens -/

/-- The token further on in a text. -/
def Located.shift (n : Nat) (t : Located) : Located :=
  { t with pos := n + t.pos }

theorem map_token_shift (n : Nat) (ts : List Located) :
    (ts.map (Located.shift n)).map Located.token = ts.map Located.token := by
  rw [List.map_map]
  rfl

theorem locate_add (n pos : Nat) (ts : List Token) :
    locate (n + pos) ts = (locate pos ts).map (Located.shift n) := by
  induction ts generalizing pos with
  | nil => rfl
  | cons t ts ih => rw [locate, locate, List.map_cons, Nat.add_assoc, ih, Located.shift]

/-- The tokens of a text with another text in front of it. -/
theorem locate_utf8ByteSize (ha : tokenize a = .ok ts) (hb : tokenize b = .ok us) :
    locate 0 (ts.map Located.token ++ us.map Located.token) =
      ts ++ us.map (Located.shift a.utf8ByteSize) := by
  obtain ⟨hjoin, -, hts⟩ := tokenize_eq_ok_iff.mp ha
  obtain ⟨-, -, hus⟩ := tokenize_eq_ok_iff.mp hb
  have hsize : bytes (ts.map Located.token) = a.utf8ByteSize := by
    rw [← utf8ByteSize_join, hjoin]
  calc locate 0 (ts.map Located.token ++ us.map Located.token)
      = locate 0 (ts.map Located.token) ++ locate (0 + a.utf8ByteSize) (us.map Located.token) := by
        rw [locate_append, hsize]
    _ = ts ++ (locate 0 (us.map Located.token)).map (Located.shift a.utf8ByteSize) := by
        rw [← hts, Nat.add_comm, locate_add]
    _ = ts ++ us.map (Located.shift a.utf8ByteSize) := by
        rw [← hus]

/-! ### Borders -/

theorem apart_iff {t u : Token} :
    Apart t u ↔ t.kind ≠ .backslash ∧
      ¬ (t.kind = u.kind ∧ t.kind ∈ [.word, .number, .blank, .lineEnd]) := by
  rw [Apart, ← Kind.isRun_iff]
  constructor
  · rintro ⟨hback, hrun⟩
    exact ⟨hback, fun hfused => hrun hfused.2 hfused.1⟩
  · rintro ⟨hback, hfused⟩
    exact ⟨hback, fun hrun hkind => hfused ⟨hkind, hrun⟩⟩

/-- Two texts can be put side by side if their tokens can. -/
theorem tokenize_append_iff_segmented (ha : tokenize a = .ok ts) (hb : tokenize b = .ok us) :
    tokenize (a ++ b) = .ok (ts ++ us.map (Located.shift a.utf8ByteSize)) ↔
      Segmented (ts.map Located.token ++ us.map Located.token) := by
  obtain ⟨hjoin, -, -⟩ := tokenize_eq_ok_iff.mp ha
  obtain ⟨hjoin', -, -⟩ := tokenize_eq_ok_iff.mp hb
  have htokens : (ts ++ us.map (Located.shift a.utf8ByteSize)).map Located.token =
      ts.map Located.token ++ us.map Located.token := by
    rw [List.map_append, map_token_shift]
  rw [tokenize_eq_ok_iff, htokens, join_append, hjoin, hjoin', locate_utf8ByteSize ha hb]
  simp

/-- Of two texts that split into tokens, neither of them empty, the first one's tokens and behind
them the second one's are what the two together split into, just if the first one does not end in a
lone backslash and the tokens at the border are not runs of one kind. -/
theorem tokenize_append_iff (ha : tokenize a = .ok ts) (hb : tokenize b = .ok us)
    (ht : ts.getLast? = some t) (hu : us.head? = some u) :
    tokenize (a ++ b) = .ok (ts ++ us.map (Located.shift a.utf8ByteSize)) ↔
      t.token.kind ≠ .backslash ∧
        ¬ (t.token.kind = u.token.kind ∧
          t.token.kind ∈ [.word, .number, .blank, .lineEnd]) := by
  obtain ⟨-, hseg, -⟩ := tokenize_eq_ok_iff.mp ha
  obtain ⟨-, hseg', -⟩ := tokenize_eq_ok_iff.mp hb
  have hlast : (ts.map Located.token).getLast? = some t.token := by
    rw [List.getLast?_map, ht, Option.map_some]
  have hfirst : (us.map Located.token).head? = some u.token := by
    rw [List.head?_map, hu, Option.map_some]
  rw [tokenize_append_iff_segmented ha hb, segmented_append, ← apart_iff, hlast, hfirst]
  simp [hseg, hseg']

/-- A backslash at the end takes up what comes next, and two words become one; digits behind a word
do not. -/
theorem tokenize_append_iff_word :
    tokenize ("é" ++ "1\\") =
        .ok [⟨0, ⟨.word, "é"⟩⟩, ⟨2, ⟨.number, "1"⟩⟩, ⟨3, ⟨.backslash, "\\"⟩⟩] ∧
      tokenize ("é" ++ "b") ≠ .ok [⟨0, ⟨.word, "é"⟩⟩, ⟨2, ⟨.word, "b"⟩⟩] ∧
      tokenize ("1\\" ++ "é") ≠
        .ok [⟨0, ⟨.number, "1"⟩⟩, ⟨1, ⟨.backslash, "\\"⟩⟩, ⟨2, ⟨.word, "é"⟩⟩] := by
  have haccent : tokenize "é" = .ok [⟨0, ⟨.word, "é"⟩⟩] := by decide +kernel
  have hb : tokenize "b" = .ok [⟨0, ⟨.word, "b"⟩⟩] := by decide +kernel
  have hescape : tokenize "1\\" = .ok [⟨0, ⟨.number, "1"⟩⟩, ⟨1, ⟨.backslash, "\\"⟩⟩] := by
    decide +kernel
  exact ⟨(tokenize_append_iff haccent hescape rfl rfl).mpr (by decide),
    mt (tokenize_append_iff haccent hb rfl rfl).mp (by decide),
    mt (tokenize_append_iff hescape haccent rfl rfl).mp (by decide)⟩

end Token

end SearchQuery
