/-!
Slices of texts by byte offsets. An offset inside a character is none at which a text can be cut.
-/

namespace SearchQuery.Text

/-- The number of bytes that characters take. -/
def size : List Char → Nat
  | [] => 0
  | c :: cs => c.utf8Size + size cs

/-- What comes from a byte offset on. -/
def dropBytes? : Nat → List Char → Option (List Char)
  | 0, cs => some cs
  | _ + 1, [] => none
  | n + 1, c :: cs => if c.utf8Size ≤ n + 1 then dropBytes? (n + 1 - c.utf8Size) cs else none

/-- What comes before a byte offset. -/
def takeBytes? : Nat → List Char → Option (List Char)
  | 0, _ => some []
  | _ + 1, [] => none
  | n + 1, c :: cs =>
      if c.utf8Size ≤ n + 1 then (takeBytes? (n + 1 - c.utf8Size) cs).map (c :: ·) else none

/-- What lies between two byte offsets. -/
def slice? (start stop : Nat) (cs : List Char) : Option (List Char) :=
  if start ≤ stop then (dropBytes? start cs).bind (takeBytes? (stop - start)) else none

@[simp]
theorem size_nil : size [] = 0 := rfl

@[simp]
theorem size_cons (c : Char) (cs : List Char) : size (c :: cs) = c.utf8Size + size cs := rfl

@[simp]
theorem size_append (cs ds : List Char) : size (cs ++ ds) = size cs + size ds := by
  induction cs with
  | nil => simp
  | cons c cs ih => simp [ih, Nat.add_assoc]

theorem size_toList (s : String) : size s.toList = s.utf8ByteSize := by
  have hsize (cs : List Char) : (String.ofList cs).utf8ByteSize = size cs := by
    induction cs with
    | nil => rfl
    | cons c cs ih => rw [String.ofList_cons, String.utf8ByteSize_append,
        String.utf8ByteSize_singleton, ih, size_cons]
  rw [← hsize, String.ofList_toList]

theorem size_pos {cs : List Char} (h : cs ≠ []) : 0 < size cs := by
  obtain ⟨c, cs, rfl⟩ := List.exists_cons_of_ne_nil h
  have := c.utf8Size_pos
  simp
  omega

@[simp]
theorem dropBytes?_size_append (cs ds : List Char) : dropBytes? (size cs) (cs ++ ds) = some ds := by
  induction cs with
  | nil => cases ds <;> rfl
  | cons c cs ih =>
      obtain ⟨n, hn⟩ : ∃ n, size (c :: cs) = n + 1 :=
        Nat.exists_eq_add_one.mpr (size_pos (List.cons_ne_nil c cs))
      rw [size_cons] at hn
      rw [size_cons, hn, List.cons_append, dropBytes?, if_pos (by omega), ← hn,
        Nat.add_sub_cancel_left, ih]

@[simp]
theorem takeBytes?_size_append (cs ds : List Char) : takeBytes? (size cs) (cs ++ ds) = some cs := by
  induction cs with
  | nil => cases ds <;> rfl
  | cons c cs ih =>
      obtain ⟨n, hn⟩ : ∃ n, size (c :: cs) = n + 1 :=
        Nat.exists_eq_add_one.mpr (size_pos (List.cons_ne_nil c cs))
      rw [size_cons] at hn
      rw [size_cons, hn, List.cons_append, takeBytes?, if_pos (by omega), ← hn,
        Nat.add_sub_cancel_left, ih, Option.map_some]

/-- An offset at which a text can be cut has as many bytes in front of it. -/
theorem exists_of_dropBytes? {n : Nat} {cs ds : List Char} (h : dropBytes? n cs = some ds) :
    ∃ front, cs = front ++ ds ∧ size front = n := by
  fun_induction dropBytes? n cs with
  | case1 cs =>
      cases h
      exact ⟨[], rfl, rfl⟩
  | case2 => cases h
  | case3 n c cs hle ih =>
      obtain ⟨front, rfl, hfront⟩ := ih h
      refine ⟨c :: front, rfl, ?_⟩
      rw [size_cons, hfront]
      omega
  | case4 => cases h

theorem slice?_append (front cs back : List Char) :
    slice? (size front) (size front + size cs) (front ++ (cs ++ back)) = some cs := by
  rw [slice?, if_pos (Nat.le_add_right _ _), dropBytes?_size_append, Option.bind_some,
    Nat.add_sub_cancel_left, takeBytes?_size_append]

-- The second byte of an accented letter is no place to cut at.
example : dropBytes? 2 ['é', 'a'] = some ['a'] ∧ dropBytes? 1 ['é', 'a'] = none := by decide

end SearchQuery.Text
