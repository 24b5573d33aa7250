/-!
# 十六進の数字

文字と十六進の数字との対応。読むときは大文字も小文字も受け取る。
-/

namespace SpecLineage.Hex

/-- 十六進の数字が表す値。 -/
def value? (c : Char) : Option Nat :=
  if '0' ≤ c ∧ c ≤ '9' then some (c.toNat - '0'.toNat)
  else if 'a' ≤ c ∧ c ≤ 'f' then some (c.toNat - 'a'.toNat + 10)
  else if 'A' ≤ c ∧ c ≤ 'F' then some (c.toNat - 'A'.toNat + 10)
  else none

/-- 値 `n % 16` を表す小文字の数字。 -/
def lower (n : Nat) : Char :=
  let d := n % 16
  if d < 10 then Char.ofNat ('0'.toNat + d) else Char.ofNat ('a'.toNat + (d - 10))

/-- 値 `n % 16` を表す大文字の数字。 -/
def upper (n : Nat) : Char :=
  let d := n % 16
  if d < 10 then Char.ofNat ('0'.toNat + d) else Char.ofNat ('A'.toNat + (d - 10))

/-- 数字 `digit` で書いた、`n` の下位 `width` 桁。 -/
def digits (digit : Nat → Char) : Nat → Nat → List Char
  | 0, _ => []
  | width + 1, n => digits digit width (n / 16) ++ [digit n]

/-- 数字の並びが表す値。数字でない文字があれば値はない。 -/
def ofDigits? (cs : List Char) : Option Nat :=
  cs.foldl (fun acc c => do return (← acc) * 16 + (← value? c)) (some 0)

end SpecLineage.Hex
