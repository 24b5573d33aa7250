/-!
# 倍精度浮動小数点数の範囲

十進の数が倍精度浮動小数点数で表せる大きさかどうかを、自然数の計算だけで決める。
-/

namespace SpecLineage.Double

-- 読み込むライブラリによって、冪の指す演算が変わらないようにする。
attribute [local instance (2000)] instPowNat

/-- この値から上は、最も近い倍精度の数が無限大になる。最大の有限値と `2 ^ 1024` の中点である。 -/
def overflow : Nat := 2 ^ (1024 : Nat) - 2 ^ (970 : Nat)

/-- 上位 53 桁に丸めた自然数。ちょうど中間は偶数の側へ丸める。 -/
def round (n : Nat) : Nat :=
  if n < 2 ^ (53 : Nat) then n
  else
    let step := 2 ^ (n.log2 - 52)
    let q := n / step
    let r := n % step
    if step < 2 * r ∨ (2 * r = step ∧ q % 2 = 1) then (q + 1) * step else q * step

/-- 丸めた `significand` に丸めた `10 ^ exponent` を掛けると有限でなくなるか。 -/
def productOverflows (significand : Nat) (exponent : Int) : Bool :=
  if exponent ≤ 0 ∨ significand = 0 then false
  else if 308 < exponent then true
  else decide (overflow ≤ round significand * round (10 ^ exponent.toNat))

/-- 十進の数 `significand * 10 ^ exponent` に最も近い倍精度の数が有限か。`length` は `significand` の桁数である。 -/
def isFinite (significand length : Nat) (exponent : Int) : Bool :=
  if significand = 0 then true
  else if exponent + length ≤ 308 then true
  else if 310 + length < exponent + length then false
  else if 0 ≤ exponent then decide (significand * 10 ^ exponent.toNat < overflow)
  else decide (significand < overflow * 10 ^ (-exponent).toNat)

end SpecLineage.Double
