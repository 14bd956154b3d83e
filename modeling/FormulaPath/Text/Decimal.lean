/-!
Numbers in decimal digits.
-/
namespace FormulaPath.Text

/-- The number that decimal digits write; leading zeros do not count. -/
def decimal (digits : List Char) : Nat :=
  digits.foldl (fun n c => 10 * n + (c.toNat - '0'.toNat)) 0

theorem decimal_append (ds : List Char) (c : Char) :
    decimal (ds ++ [c]) = 10 * decimal ds + (c.toNat - '0'.toNat) := by
  simp [decimal]

/-- The digits of a number write it. -/
theorem decimal_toDigits (n : Nat) : decimal (Nat.toDigits 10 n) = n := by
  have hzero : '0'.toNat = 48 := rfl
  induction n using Nat.strongRecOn with
  | _ n ih =>
    by_cases h : n < 10
    · rw [Nat.toDigits_of_lt_base h]
      simp only [decimal, List.foldl_cons, List.foldl_nil]
      rw [Nat.toNat_digitChar_of_lt_ten h]
      omega
    · rw [Nat.toDigits_of_base_le (by omega) (by omega), decimal_append,
        ih (n / 10) (by omega), Nat.toNat_digitChar_of_lt_ten (by omega)]
      omega

end FormulaPath.Text
