import Mathlib.Data.Nat.Digits.Defs
import SearchQuery.Proofs.Term.Classes

/-!
Edit distances. The digits behind a tilde are a number of any length, and the 32-bit reading of them
fails at the first digit that leaves the width and for no other reason. So a distance is that number
up to the largest distance, however many zeros stand in front of it.
-/

namespace SearchQuery

open Text (IsGap)

variable {s tail : String} {t : Term}

/-! ### Numbers -/

namespace Integer

variable {cs : List Char}

/-- The number that decimal digits denote, the highest one first. -/
def numeral (cs : List Char) : Nat :=
  Nat.ofDigits 10 (cs.reverse.map digitValue)

theorem numeral_nil : numeral [] = 0 :=
  rfl

theorem numeral_cons (c : Char) (cs : List Char) :
    numeral (c :: cs) = digitValue c * 10 ^ cs.length + numeral cs := by
  simp [numeral, Nat.ofDigits_append, Nat.mul_comm, Nat.add_comm]

/-- Zeros in front of a number do not change it. -/
theorem numeral_zeros_append (n : Nat) (cs : List Char) :
    numeral (List.replicate n '0' ++ cs) = numeral cs := by
  induction n with
  | zero => rfl
  | succ n ih => simp [List.replicate_succ, numeral_cons, ih, digitValue]

/-- Digits are read as long as the number that they make with the ones in front of them fits; once
it does not fit, no further digit makes it smaller. -/
theorem readDigits_eq {limit value : Nat} {overflow : Fault}
    (hdigits : ∀ c ∈ cs, c.isDigit = true) (hvalue : value ≤ limit) :
    readDigits limit overflow value cs =
      if value * 10 ^ cs.length + numeral cs ≤ limit then
        .ok (value * 10 ^ cs.length + numeral cs)
      else .error overflow := by
  induction cs generalizing value with
  | nil => simp [readDigits, numeral_nil, hvalue]
  | cons c cs ih =>
      have hc : c.isDigit = true := hdigits c List.mem_cons_self
      have hsum : value * 10 ^ (c :: cs).length + numeral (c :: cs) =
          (10 * value + digitValue c) * 10 ^ cs.length + numeral cs := by
        rw [numeral_cons, List.length_cons, Nat.pow_succ]
        ring
      rw [hsum, readDigits, if_pos hc]
      by_cases hfits : 10 * value + digitValue c ≤ limit
      · rw [if_pos hfits, ih (fun d hd => hdigits d (List.mem_cons_of_mem c hd)) hfits]
      · have hle : 10 * value + digitValue c ≤
            (10 * value + digitValue c) * 10 ^ cs.length :=
          Nat.le_mul_of_pos_right _ (Nat.pow_pos (by decide))
        rw [if_neg hfits, if_neg (by omega)]

theorem splitSign_of_isDigit (hdigits : ∀ c ∈ cs, c.isDigit = true) :
    splitSign cs = (false, cs) := by
  cases cs with
  | nil => rfl
  | cons c cs =>
      have hc : c.isDigit = true := hdigits c List.mem_cons_self
      have hminus : c ≠ '-' := by
        rintro rfl
        exact absurd hc (by decide)
      have hplus : c ≠ '+' := by
        rintro rfl
        exact absurd hc (by decide)
      simp [splitSign, hminus, hplus]

/-- Of digits alone, only a number beyond the width is refused. -/
theorem read_eq_of_isDigits (bits : Nat) (h : IsDigits s) :
    read bits s =
      if numeral s.toList ≤ 2 ^ (bits - 1) - 1 then .ok (numeral s.toList : Int)
      else .error .tooLarge := by
  have hne : s.toList ≠ [] := fun hnil => h.1 (String.toList_eq_nil_iff.mp hnil)
  have hread : readDigits (2 ^ (bits - 1) - 1) .tooLarge 0 s.toList = _ :=
    readDigits_eq h.2 (Nat.zero_le _)
  simp only [Nat.zero_mul, Nat.zero_add] at hread
  simp only [read, splitSign_of_isDigit h.2, if_neg hne, Nat.pow_eq, hread, Bool.false_eq_true,
    if_false]
  by_cases hfits : numeral s.toList ≤ 2 ^ (bits - 1) - 1
  · rw [if_pos hfits, if_pos hfits]
    rfl
  · rw [if_neg hfits, if_neg hfits]
    rfl

end Integer

/-- The only fault of digits is their size, for which the largest distance stands in. -/
theorem Fuzzy.value_of_isDigits (h : IsDigits s) :
    Fuzzy.value ⟨some s⟩ = min (Integer.numeral s.toList : Int) (2 ^ 31 - 1) := by
  have hread := Integer.read_eq_of_isDigits 32 h
  by_cases hfits : Integer.numeral s.toList ≤ 2 ^ 31 - 1
  · rw [if_pos hfits] at hread
    simp only [Fuzzy.value, hread]
    omega
  · rw [if_neg hfits] at hread
    simp only [Fuzzy.value, hread, Fuzzy.maxDistance]
    omega

/-- Zeros in front of a distance do not change it. -/
theorem Fuzzy.value_zeros_append (n : Nat) (h : IsDigits s) :
    Fuzzy.value ⟨some (String.ofList (List.replicate n '0') ++ s)⟩ = Fuzzy.value ⟨some s⟩ := by
  have hpadded : IsDigits (String.ofList (List.replicate n '0') ++ s) := by
    constructor
    · simp [h.1]
    · intro c hc
      simp only [String.toList_append, String.toList_ofList, List.mem_append] at hc
      obtain hzero | hdigit := hc
      · rw [List.eq_of_mem_replicate hzero]
        decide
      · exact h.2 c hdigit
  rw [value_of_isDigits hpadded, value_of_isDigits h, String.toList_append, String.toList_ofList,
    Integer.numeral_zeros_append]

/-! ### Terms -/

theorem Text.IsGap.takeWhile_isDigit {w : String} (h : IsGap w) :
    w.toList.takeWhile Char.isDigit = [] := by
  rw [List.takeWhile_eq_nil_iff]
  intro hlength hdigit
  have hblank := h _ (List.get_mem w.toList ⟨0, hlength⟩)
  rw [Token.not_isBlank_of_isDigit hdigit] at hblank
  cases hblank

/-- In front of space, digits are the whole run that they start. -/
theorem IsDigits.takeWhile_append {w : String} (h : IsDigits s) (hw : IsGap w) :
    (s ++ w).toList.takeWhile Char.isDigit = s.toList := by
  rw [String.toList_append, List.takeWhile_append_of_pos h.2, hw.takeWhile_isDigit,
    List.append_nil]

namespace Term

theorem distance_of_not_isFuzzy (h : t.isFuzzy = false) : t.distance = 0 := by
  match t with
  | literal _ (some (.fuzzy f)) => exact absurd h (by simp [isFuzzy])
  | literal _ none | literal _ (some (.boost _)) | regexp _ | range _ _ | group _ _ => rfl

/-- Only a literal has a tilde behind it, and what stands behind the tilde is its distance. -/
theorem exists_fuzzy (h : t.suffixText = "~" ++ tail) :
    ∃ l f, t = .literal l (some (.fuzzy f)) ∧ f.distance.getD "" = tail := by
  have hfuzzy : t.isFuzzy = true := t.isFuzzy_iff_suffixText.mpr ⟨tail, h⟩
  match t with
  | literal l (some (.fuzzy f)) => exact ⟨l, f, rfl, (String.append_right_inj "~").mp h⟩
  | literal _ none | literal _ (some (.boost _)) | regexp _ | range _ _ | group _ _ =>
      cases hfuzzy

/-- What stands behind the tilde of a well-formed term is nothing or digits. -/
theorem WellFormed.distance_of_suffixText (hwell : t.WellFormed)
    (h : t.suffixText = "~" ++ tail) :
    (tail = "" ∧ t.distance = -1) ∨
      IsDigits tail ∧ t.distance = min (Integer.numeral tail.toList : Int) (2 ^ 31 - 1) := by
  obtain ⟨l, ⟨distance⟩, rfl, rfl⟩ := exists_fuzzy h
  cases distance with
  | none => exact .inl ⟨rfl, rfl⟩
  | some digits =>
      have hdigits : IsDigits digits := hwell.2 _ rfl digits rfl
      exact .inr ⟨hdigits, Fuzzy.value_of_isDigits hdigits⟩

theorem WellFormed.distance_of_bare (hwell : t.WellFormed) (h : t.suffixText = "~") :
    t.distance = -1 := by
  have hempty : t.suffixText = "~" ++ "" := h
  obtain ⟨-, hauto⟩ | ⟨hdigits, -⟩ := hwell.distance_of_suffixText hempty
  · exact hauto
  · exact absurd rfl hdigits.1

theorem WellFormed.distance_of_ne_empty (hwell : t.WellFormed) (h : t.suffixText = "~" ++ tail)
    (hne : tail ≠ "") :
    IsDigits tail ∧ t.distance = min (Integer.numeral tail.toList : Int) (2 ^ 31 - 1) := by
  obtain ⟨hempty, -⟩ | hdigits := hwell.distance_of_suffixText h
  · exact absurd hempty hne
  · exact hdigits

/-- No number stands for the automatic distance. -/
theorem WellFormed.isAuto_distance_iff (hwell : t.WellFormed) :
    Fuzzy.isAuto t.distance = true ↔ t.suffixText = "~" := by
  constructor
  · intro hauto
    have hdistance : t.distance = -1 := beq_iff_eq.mp hauto
    by_cases hfuzzy : t.isFuzzy = true
    · obtain ⟨tail, htail⟩ := t.isFuzzy_iff_suffixText.mp hfuzzy
      obtain ⟨rfl, -⟩ | ⟨-, hnumber⟩ := hwell.distance_of_suffixText htail
      · exact htail
      · omega
    · have hzero := distance_of_not_isFuzzy (Bool.eq_false_iff.mpr hfuzzy)
      omega
  · intro hbare
    exact beq_iff_eq.mpr (hwell.distance_of_bare hbare)

/-- A larger number behind the tilde allows no smaller distance. -/
theorem WellFormed.distance_le {t' : Term} {tail' : String} (hwell : t.WellFormed)
    (hwell' : t'.WellFormed) (h : t.suffixText = "~" ++ tail) (h' : t'.suffixText = "~" ++ tail')
    (hne : tail ≠ "") (hne' : tail' ≠ "")
    (hle : Integer.numeral tail.toList ≤ Integer.numeral tail'.toList) :
    t.distance ≤ t'.distance := by
  have hleft := (hwell.distance_of_ne_empty h hne).2
  have hright := (hwell'.distance_of_ne_empty h' hne').2
  omega

/-- The distance of a term read from a source. It is zero without a tilde, automatic for a bare
tilde, and else the number that the whole run of digits behind the tilde stands for, as far as it
fits into 32 bits; only a bare tilde is automatic, and larger numbers allow no smaller distance. -/
theorem distance_of_parse (h : Term.parse s = .ok t) :
    ∃ front w back texts, s = front ++ (w ++ t.suffixText) ++ back ∧ IsGap front ∧ IsGap back ∧
      t.Written w texts ∧
      ((∀ tail, t.suffixText ≠ "~" ++ tail) → t.distance = 0) ∧
      (t.suffixText = "~" → back.toList.takeWhile Char.isDigit = [] ∧ t.distance = -1) ∧
      (∀ digits, digits ≠ "" → t.suffixText = "~" ++ digits →
        IsDigits digits ∧ (digits ++ back).toList.takeWhile Char.isDigit = digits.toList ∧
          t.distance = min (Integer.numeral digits.toList : Int) (2 ^ 31 - 1)) ∧
      (Fuzzy.isAuto t.distance = true ↔ t.suffixText = "~") ∧
      ∀ s' t' digits digits', Term.parse s' = .ok t' → digits ≠ "" → digits' ≠ "" →
        t.suffixText = "~" ++ digits → t'.suffixText = "~" ++ digits' →
        Integer.numeral digits.toList ≤ Integer.numeral digits'.toList →
        t.distance ≤ t'.distance := by
  obtain ⟨front, w, back, texts, hs, hfront, hback, hwritten⟩ := Term.exists_written_of_parse h
  have hwell : t.WellFormed := (Term.wellFormed_of_parse h).1
  refine ⟨front, w, back, texts, hs, hfront, hback, hwritten, ?_, ?_, ?_,
    hwell.isAuto_distance_iff, ?_⟩
  · intro hnone
    have hfuzzy : ¬ t.isFuzzy = true := by
      intro hfuzzy
      obtain ⟨tail, htail⟩ := t.isFuzzy_iff_suffixText.mp hfuzzy
      exact hnone tail htail
    exact distance_of_not_isFuzzy (Bool.eq_false_iff.mpr hfuzzy)
  · intro hbare
    exact ⟨hback.takeWhile_isDigit, hwell.distance_of_bare hbare⟩
  · intro digits hne hsuffix
    obtain ⟨hdigits, hdistance⟩ := hwell.distance_of_ne_empty hsuffix hne
    exact ⟨hdigits, hdigits.takeWhile_append hback, hdistance⟩
  · intro s' t' digits digits' h' hne hne' hsuffix hsuffix' hle
    have hwell' : t'.WellFormed := (Term.wellFormed_of_parse h').1
    exact hwell.distance_le hwell' hsuffix hsuffix' hne hne' hle

/-- Zeros do not count, however long the run gets, and a number that is too large counts as the
largest one. -/
theorem distance_of_parse_zeros :
    ∃ t t', Term.parse "a~000000000000000000000000000017 " = .ok t ∧
      Term.parse "\"b c\"~2147483648" = .ok t' ∧ t.distance = 17 ∧ t'.distance = 2147483647 ∧
      Fuzzy.isAuto t.distance = false ∧ t.distance ≤ t'.distance := by
  have hzeros : Term.parse "a~000000000000000000000000000017 " = .ok (.literal
      (.bare [⟨.word, "a"⟩]) (some (.fuzzy ⟨some "000000000000000000000000000017"⟩))) := by
    decide +kernel
  have hlarge : Term.parse "\"b c\"~2147483648" = .ok (.literal
      (.phrase [⟨.word, "b"⟩, ⟨.blank, " "⟩, ⟨.word, "c"⟩])
      (some (.fuzzy ⟨some "2147483648"⟩))) := by
    decide +kernel
  obtain ⟨_, _, _, _, -, -, -, -, -, -, hnumber, hauto, hmono⟩ := distance_of_parse hzeros
  obtain ⟨_, _, _, _, -, -, -, -, -, -, hcapped, -, -⟩ := distance_of_parse hlarge
  have hdistance := (hnumber "000000000000000000000000000017" (by decide) rfl).2.2
  have hlargest := (hcapped "2147483648" (by decide) rfl).2.2
  have hnotAuto := Bool.eq_false_iff.mpr fun h => absurd (hauto.mp h) (by decide)
  have hle := hmono _ _ "000000000000000000000000000017" "2147483648" hlarge (by decide)
    (by decide) rfl rfl (by decide)
  exact ⟨_, _, hzeros, hlarge, hdistance.trans (by decide), hlargest.trans (by decide),
    hnotAuto, hle⟩

end Term

end SearchQuery
