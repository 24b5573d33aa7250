import SpecLineage.Text.Hex

/-!
# 十六進の数字の読み書き

小文字の数字で書いた下位の桁は、読み戻せば元の値になる。
-/

namespace SpecLineage.Hex

-- 読み込むライブラリによって、冪の指す演算が変わらないようにする。
attribute [local instance (2000)] instPowNat

@[simp] theorem length_digits (digit : Nat → Char) (width n : Nat) :
    (digits digit width n).length = width := by
  induction width generalizing n with
  | zero => rfl
  | succ width ih => rw [digits, List.length_append, ih, List.length_singleton]

theorem value?_lower (n : Nat) : value? (lower n) = some (n % 16) := by
  have hdigit : ∀ d < 16, value? (lower d) = some d := by decide
  have hlower : lower n = lower (n % 16) := by simp only [lower, Nat.mod_mod]
  rw [hlower]
  exact hdigit (n % 16) (Nat.mod_lt n (by decide))

theorem value?_upper (n : Nat) : value? (upper n) = some (n % 16) := by
  have hdigit : ∀ d < 16, value? (upper d) = some d := by decide
  have hupper : upper n = upper (n % 16) := by simp only [upper, Nat.mod_mod]
  rw [hupper]
  exact hdigit (n % 16) (Nat.mod_lt n (by decide))

theorem ofDigits?_concat (cs : List Char) (c : Char) :
    ofDigits? (cs ++ [c]) = do return (← ofDigits? cs) * 16 + (← value? c) := by
  rw [ofDigits?, List.foldl_append]
  rfl

/-- 一桁ずつ正しく書く数字なら、下位の桁は読み戻せる。 -/
theorem ofDigits?_digits_of {digit : Nat → Char} (hdigit : ∀ n, value? (digit n) = some (n % 16))
    (width n : Nat) : ofDigits? (digits digit width n) = some (n % 16 ^ width) := by
  induction width generalizing n with
  | zero => simp [digits, ofDigits?, Nat.mod_one]
  | succ width ih =>
      rw [digits, ofDigits?_concat, ih, hdigit]
      have hsplit : n % 16 ^ (width + 1) = n / 16 % 16 ^ width * 16 + n % 16 := by
        rw [Nat.pow_succ, Nat.mul_comm, Nat.mod_mul]
        omega
      exact congrArg some hsplit.symm

theorem ofDigits?_digits (width n : Nat) :
    ofDigits? (digits lower width n) = some (n % 16 ^ width) :=
  ofDigits?_digits_of value?_lower width n

theorem ofDigits?_digits_upper (width n : Nat) :
    ofDigits? (digits upper width n) = some (n % 16 ^ width) :=
  ofDigits?_digits_of value?_upper width n

end SpecLineage.Hex
