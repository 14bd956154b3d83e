/-!
Offsets into a text count the bytes of its UTF-8 form. This module measures character lists by
that count and cuts them at an offset. An offset past the end, or inside a character, cuts nowhere.
-/
namespace FormulaPath.Text

/-- Number of bytes that a character list occupies in UTF-8. -/
def bytes : List Char → Nat
  | [] => 0
  | c :: cs => c.utf8Size + bytes cs

@[simp] theorem bytes_nil : bytes [] = 0 := rfl

@[simp] theorem bytes_cons (c : Char) (cs : List Char) :
    bytes (c :: cs) = c.utf8Size + bytes cs := rfl

@[simp] theorem bytes_append (l r : List Char) : bytes (l ++ r) = bytes l + bytes r := by
  induction l with
  | nil => simp
  | cons c cs ih => simp [ih, Nat.add_assoc]

/-- The measure agrees with the byte size of the string that holds the characters. -/
@[simp] theorem utf8ByteSize_ofList (cs : List Char) :
    (String.ofList cs).utf8ByteSize = bytes cs := by
  induction cs with
  | nil => rfl
  | cons c cs ih => simp [String.ofList_cons, String.utf8ByteSize_append, ih]

theorem bytes_toList (s : String) : bytes s.toList = s.utf8ByteSize := by
  rw [← utf8ByteSize_ofList, String.ofList_toList]

theorem bytes_eq_zero {cs : List Char} : bytes cs = 0 ↔ cs = [] := by
  cases cs with
  | nil => simp
  | cons c cs =>
    have := c.utf8Size_pos
    simp only [bytes_cons, reduceCtorEq, iff_false]
    omega

/-- Of two cuts of one text the later contains the earlier. -/
theorem exists_append_of_bytes_le {l r l' r' : List Char} (h : l ++ r = l' ++ r')
    (hle : bytes l ≤ bytes l') : ∃ m, l' = l ++ m ∧ r = m ++ r' := by
  rcases List.append_eq_append_iff.mp h with h | ⟨m, rfl, rfl⟩
  · exact h
  · rw [bytes_append] at hle
    have hm : m = [] := bytes_eq_zero.mp (by omega)
    exact ⟨[], by simp [hm], by simp [hm]⟩

/-- The characters before and after byte offset `n`, if `n` falls between two characters. -/
def cut? : List Char → Nat → Option (List Char × List Char)
  | cs, 0 => some ([], cs)
  | [], _ + 1 => none
  | c :: cs, n + 1 =>
    if c.utf8Size ≤ n + 1 then
      match cut? cs (n + 1 - c.utf8Size) with
      | some (before, after) => some (c :: before, after)
      | none => none
    else none

/-- A cut exists exactly where the text splits into a first part of that many bytes. -/
theorem cut?_eq_some_iff {cs l r : List Char} {n : Nat} :
    cut? cs n = some (l, r) ↔ cs = l ++ r ∧ bytes l = n := by
  induction cs generalizing l n with
  | nil =>
    cases n with
    | zero => cases l <;> simp [cut?, eq_comm]
    | succ n => cases l <;> simp [cut?]
  | cons c cs ih =>
    have hc := c.utf8Size_pos
    cases n with
    | zero =>
      cases l with
      | nil => simp [cut?, eq_comm]
      | cons d l =>
        have hd := d.utf8Size_pos
        simp only [cut?, Option.some.injEq, Prod.mk.injEq, bytes_cons]
        constructor
        · rintro ⟨h, -⟩
          cases h
        · rintro ⟨-, h⟩
          omega
    | succ n =>
      cases l with
      | nil =>
        simp only [cut?, bytes_nil]
        constructor
        · intro h
          split at h
          · split at h <;> simp at h
          · simp at h
        · rintro ⟨-, h⟩
          omega
      | cons d l =>
        simp only [cut?, bytes_cons, List.cons_append, List.cons.injEq]
        constructor
        · intro h
          split at h
          next hle =>
            split at h
            next b a hcut =>
              simp only [Option.some.injEq, Prod.mk.injEq, List.cons.injEq] at h
              obtain ⟨⟨rfl, rfl⟩, rfl⟩ := h
              obtain ⟨rfl, hb⟩ := ih.mp hcut
              exact ⟨⟨rfl, rfl⟩, by omega⟩
            next => cases h
          next => cases h
        · rintro ⟨⟨rfl, rfl⟩, h⟩
          have hle : c.utf8Size ≤ n + 1 := by omega
          have hcut : cut? (l ++ r) (n + 1 - c.utf8Size) = some (l, r) :=
            ih.mpr ⟨rfl, by omega⟩
          simp [hle, hcut]

end FormulaPath.Text
