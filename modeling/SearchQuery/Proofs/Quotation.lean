import SearchQuery.Proofs.Canonical.RoundTrip
import SearchQuery.Proofs.Fault.Viable
import SearchQuery.Proofs.Token.Stray
import SearchQuery.Value

/-!
Texts between delimiters. What stands between two quotes or two slashes is split into tokens like
any other text, so whatever has no delimiter and no backslash in it is kept as it is, reserved
characters included, unless it does not split into tokens. The equals sign makes the difference: it
is the one reserved character that no token takes outside of a comparison.
-/

namespace SearchQuery

open Token (Kind Segmented LastNot chars join)
open Text (StrayEquals FirstStray)

variable {ts : List Token} {delimiter : Token} {c : Char} {limit : Nat} {w : String}

/-- The term hands one text to a decoder, and its value is what becomes of that text. -/
def Term.DecodesFrom (t : Term) (w : String) : Prop :=
  ∀ (m : Type → Type) [Monad m] (V ε : Type) (decoder : String → ExceptT ε m V),
    t.decode decoder = TermValue.single <$> decoder w

theorem Term.decodesFrom_phrase (ts : List Token) :
    (Term.literal (.phrase ts) none).DecodesFrom (join ts) :=
  fun _ _ _ _ _ => rfl

theorem Term.decodesFrom_regexp (ts : List Token) : (Term.regexp ts).DecodesFrom (join ts) :=
  fun _ _ _ _ _ => rfl

/-! ### Tokens between delimiters -/

namespace Token

/-- A character that is not in the text makes none of its tokens. -/
theorem IsSymbol.kind_ne (h : delimiter.IsSymbol c) (hseg : Segmented ts) (hc : c ∉ chars ts) :
    ∀ t ∈ ts, t.kind ≠ delimiter.kind := by
  intro t ht hkind
  apply hc
  rw [Token.eq_of_lexical h.symbols hkind (hseg.lexical t ht)] at ht
  exact List.mem_flatMap.mpr ⟨_, ht, by simp⟩

theorem Segmented.lastNot_backslash (h : Segmented ts) (hback : '\\' ∉ chars ts) :
    LastNot [.backslash] ts := by
  intro t ht hkind
  have hmem := List.mem_of_getLast? ht
  have hholds := (h.lexical t hmem).2
  rw [List.mem_singleton.mp hkind] at hholds
  have htext : t.text.toList = ['\\'] := hholds
  exact hback (List.mem_flatMap.mpr ⟨t, hmem, by simp [htext]⟩)

theorem IsSymbol.segmented_between (h : delimiter.IsSymbol c) (hts : Segmented ts)
    (hlast : LastNot [.backslash] ts) : Segmented (delimiter :: (ts ++ [delimiter])) := by
  have hclosed := (h.segmented_append_iff hlast).mpr ⟨hts, Token.segmented_nil⟩
  have hnil : LastNot [.backslash] [] := nofun
  exact (h.segmented_append_iff hnil).mpr ⟨Token.segmented_nil, hclosed⟩

end Token

/-! ### Whole texts -/

/-- A text that splits into tokens is found between its delimiters, character by character. -/
theorem Term.exists_parseWithin_delimited (limit : Nat) (tree : List Token → Term)
    (htree : ∀ {ts inner rest}, Delimited delimiter.kind ts inner rest →
      Term.Derives ts (tree inner) rest)
    (hdepth : ∀ inner, (tree inner).depth = 0) (hdelimiter : delimiter.IsSymbol c)
    (hback : '\\' ∉ w.toList) (hc : c ∉ w.toList)
    (hstray : ¬ ∃ before, StrayEquals w.toList before) :
    ∃ ts, Term.parseWithin limit (delimiter.text ++ w ++ delimiter.text) = .ok (tree ts) ∧
      join ts = w := by
  obtain ⟨located, hlocated⟩ : ∃ located, tokenize w = .ok located := by
    cases htokens : tokenize w with
    | ok located => exact ⟨located, rfl⟩
    | error e => exact absurd (exists_tokenize_eq_error_iff.mp ⟨e, htokens⟩) hstray
  obtain ⟨rfl, hseg, -⟩ := tokenize_eq_ok_iff.mp hlocated
  generalize located.map Token.Located.token = ts at *
  rw [Token.toList_join] at hback hc
  refine ⟨ts, ?_, rfl⟩
  apply Term.parseWithin_eq_ok_iff_segmented.mpr
  refine ⟨delimiter :: (ts ++ [delimiter]), ?_, ?_, ?_⟩
  · simp [← String.toList_inj]
  · exact hdelimiter.segmented_between hseg (hseg.lastNot_backslash hback)
  · rw [hdepth]
    have hdelimited : Delimited delimiter.kind (delimiter :: (ts ++ [delimiter])) ts [] :=
      .mk rfl (hdelimiter.kind_ne hseg hc) rfl
    exact ⟨⟨_, [], .none, htree hdelimited, .none⟩, Nat.zero_le limit⟩

/-- A stray sign is not hidden by delimiters around it. -/
theorem Term.parseWithin_delimited_of_firstStray (hdelimiter : delimiter.IsSymbol c)
    {before : List Char} (h : FirstStray w.toList before) :
    Term.parseWithin limit (delimiter.text ++ w ++ delimiter.text) =
      .error (.unrecognised (c.utf8Size + (String.ofList before).utf8ByteSize) '=') := by
  have hmem : c ∈ delimiter.kind.symbols := by simp [hdelimiter.symbols]
  have hinner : FirstStray (w.toList ++ delimiter.text.toList) before :=
    h.of_prefix (List.prefix_append _ _)
  have hfirst := (Token.firstStray_append_iff hdelimiter.lexical
    (Token.endsBefore_of_mem_symbols hmem _)).mpr ⟨before, rfl, hinner⟩
  have htokens : tokenize (delimiter.text ++ w ++ delimiter.text) =
      .error (.unrecognised (c.utf8Size + (String.ofList before).utf8ByteSize) '=') := by
    refine tokenize_eq_error_iff.mpr ⟨delimiter.text.toList ++ before, by simpa using hfirst, ?_⟩
    simp [hdelimiter.text, String.utf8ByteSize_append]
  simp only [Term.parseWithin_eq, Reader.parse, htokens]

/-- Quotation keeps a text as it is. Between quotes, or between slashes, a text without backslash
and without the delimiter is read as a phrase or a regular expression of exactly that text; only a
stray equals sign is refused there too, and is reported where it stands. -/
theorem Term.parseWithin_quoted (limit : Nat) {w : String} (hback : '\\' ∉ w.toList) :
    ('"' ∉ w.toList →
      ((¬ ∃ before, StrayEquals w.toList before) →
        ∃ ts, Term.parseWithin limit ("\"" ++ w ++ "\"") = .ok (.literal (.phrase ts) none) ∧
          (Term.literal (.phrase ts) none).DecodesFrom w) ∧
      ∀ before, FirstStray w.toList before →
        Term.parseWithin limit ("\"" ++ w ++ "\"") =
          .error (.unrecognised (1 + (String.ofList before).utf8ByteSize) '=')) ∧
    ('/' ∉ w.toList →
      ((¬ ∃ before, StrayEquals w.toList before) →
        ∃ ts, Term.parseWithin limit ("/" ++ w ++ "/") = .ok (.regexp ts) ∧
          (Term.regexp ts).DecodesFrom w) ∧
      ∀ before, FirstStray w.toList before →
        Term.parseWithin limit ("/" ++ w ++ "/") =
          .error (.unrecognised (1 + (String.ofList before).utf8ByteSize) '=')) := by
  have hquote : (⟨.quote, "\""⟩ : Token).IsSymbol '"' := ⟨rfl, rfl⟩
  have hslash : (⟨.slash, "/"⟩ : Token).IsSymbol '/' := ⟨rfl, rfl⟩
  refine ⟨fun hw => ⟨fun hstray => ?_, fun before hbefore => ?_⟩,
    fun hw => ⟨fun hstray => ?_, fun before hbefore => ?_⟩⟩
  · obtain ⟨ts, hparse, rfl⟩ := Term.exists_parseWithin_delimited limit
      (fun ts => .literal (.phrase ts) none) (fun h => .literal (.phrase h) .none)
      (fun _ => rfl) hquote hback hw hstray
    exact ⟨ts, hparse, Term.decodesFrom_phrase ts⟩
  · exact Term.parseWithin_delimited_of_firstStray hquote hbefore
  · obtain ⟨ts, hparse, rfl⟩ := Term.exists_parseWithin_delimited limit .regexp
      .regexp (fun _ => rfl) hslash hback hw hstray
    exact ⟨ts, hparse, Term.decodesFrom_regexp ts⟩
  · exact Term.parseWithin_delimited_of_firstStray hslash hbefore

/-- Operators, space and a comparison between quotes, and a second sign behind a comparison between
slashes. -/
theorem Term.parseWithin_quoted_operators :
    (('\\' ∉ "(x <= *)\n".toList ∧ '"' ∉ "(x <= *)\n".toList ∧
        ¬ ∃ before, StrayEquals "(x <= *)\n".toList before) ∧
      ∃ ts, Term.parseWithin 0 ("\"" ++ "(x <= *)\n" ++ "\"") = .ok (.literal (.phrase ts) none) ∧
        (Term.literal (.phrase ts) none).DecodesFrom "(x <= *)\n") ∧
    ('\\' ∉ "x>==".toList ∧ '/' ∉ "x>==".toList ∧ FirstStray "x>==".toList "x>=".toList) ∧
      Term.parseWithin 0 ("/" ++ "x>==" ++ "/") = .error (.unrecognised 4 '=') := by
  have hquote : '\\' ∉ "(x <= *)\n".toList ∧ '"' ∉ "(x <= *)\n".toList ∧
      ¬ ∃ before, StrayEquals "(x <= *)\n".toList before := by decide +kernel
  have hslash : '\\' ∉ "x>==".toList ∧ '/' ∉ "x>==".toList ∧
      FirstStray "x>==".toList "x>=".toList := by decide +kernel
  exact ⟨⟨hquote, ((Term.parseWithin_quoted 0 hquote.1).1 hquote.2.1).1 hquote.2.2⟩,
    hslash, ((Term.parseWithin_quoted 0 hslash.1).2 hslash.2.1).2 _ hslash.2.2⟩

/-- Not every text can be quoted: an equals sign alone is no token between delimiters either. -/
theorem Term.parse_quoted_equals :
    Term.parse "\"a=b\"" = .error (.unrecognised 2 '=') ∧
    Term.parse "/a=b/" = .error (.unrecognised 2 '=') ∧
    ¬ ∀ w : String, '"' ∉ w.toList → '\\' ∉ w.toList →
      ∃ ts, Term.parse ("\"" ++ w ++ "\"") = .ok (.literal (.phrase ts) none) ∧
        (Term.literal (.phrase ts) none).DecodesFrom w := by
  have hquote : Term.parse "\"a=b\"" = .error (.unrecognised 2 '=') := by decide +kernel
  have hslash : Term.parse "/a=b/" = .error (.unrecognised 2 '=') := by decide +kernel
  refine ⟨hquote, hslash, ?_⟩
  intro h
  obtain ⟨ts, hparse, -⟩ := h "a=b" (by decide) (by decide)
  have htext : "\"" ++ "a=b" ++ "\"" = "\"a=b\"" := by decide
  rw [htext, hquote] at hparse
  cases hparse

end SearchQuery
