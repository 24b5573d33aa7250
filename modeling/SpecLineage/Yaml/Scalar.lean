import SpecLineage.Text.Hex
import SpecLineage.Number.Double

/-!
# YAML の文字列の書きかたと読み

引用符のない文字列は、空、真偽、数として読めることがある。読むときはその読みを使い、書くときは別のものに
読まれる文字列を引用符で囲む。
-/

namespace SpecLineage.Yaml

/-- 文字列の書きかた。 -/
inductive Style where
  /-- 引用符のない書きかた。 -/
  | plain
  | single
  | double
  /-- 行を改めたまま書く書きかた。 -/
  | literal
  /-- 行をつないで読む書きかた。 -/
  | folded
  deriving DecidableEq

/-- 空を表す語か。 -/
def isNull (s : String) : Bool := s ∈ ["null", "Null", "NULL", "~"]

/-- 真偽を表す語の値。 -/
def flag? (s : String) : Option Bool :=
  if s ∈ ["true", "True", "TRUE"] then some true
  else if s ∈ ["false", "False", "FALSE"] then some false
  else none

/-! ## 数 -/

/-- 底 `base` の数字の列が表す値。空の列と、数字でない文字を含む列は値を持たない。 -/
def ofDigits? (base : Nat) (cs : List Char) : Option Nat :=
  if cs.isEmpty then none
  else cs.foldl (fun acc c => do
    let d ← Hex.value? c
    if d < base then return (← acc) * base + d else none) (some 0)

/-- 底を示す接頭辞の後の数。 -/
def radix? : List Char → Option Nat
  | '0' :: 'x' :: cs => ofDigits? 16 cs
  | '0' :: 'o' :: cs => ofDigits? 8 cs
  | '0' :: 'b' :: cs => ofDigits? 2 cs
  | _ => none

/-- 頭の正の符号を除く。 -/
def dropPlus : List Char → List Char
  | '+' :: cs => cs
  | cs => cs

/-- 余計な零で始まる数字の列か。数とはみなさない。 -/
def isPadded (cs : List Char) : Bool :=
  let cs :=
    match cs with
    | '+' :: cs | '-' :: cs => cs
    | cs => cs
  match cs with
  | '0' :: c :: cs => (c :: cs).all Char.isDigit
  | _ => false

/-- 自然数としての読み。 -/
def natural? (s : String) : Option Nat :=
  let cs := s.toList
  match radix? (dropPlus cs) with
  | some n => some n
  | none => if isPadded cs then none else ofDigits? 10 (dropPlus cs)

attribute [local instance (2000)] instPowNat

/-- 底を示す接頭辞を持つ整数で、128 桁の二進数に収まるか。 -/
def isRadix (cs : List Char) : Bool :=
  match cs with
  | '-' :: cs => (radix? cs).any (· ≤ 2 ^ (127 : Nat))
  | cs => (radix? (dropPlus cs)).any (· < 2 ^ (128 : Nat))

/-- 指数。なければ零、読めなければ `none` とする。 -/
def exponent? : List Char → Option Int
  | [] => some 0
  | c :: cs =>
    if c = 'e' ∨ c = 'E' then
      match cs with
      | '-' :: cs => (ofDigits? 10 cs).map fun n => -(n : Int)
      | cs => (ofDigits? 10 (dropPlus cs)).map fun n => (n : Int)
    else none

/-- 小数部と指数を持ってよい、符号のない十進の数で、倍精度で有限か。 -/
def isDecimal (cs : List Char) : Bool :=
  let whole := cs.takeWhile Char.isDigit
  let (fraction, rest) :=
    match cs.dropWhile Char.isDigit with
    | '.' :: cs => (cs.takeWhile Char.isDigit, cs.dropWhile Char.isDigit)
    | cs => ([], cs)
  let digits := whole ++ fraction
  match ofDigits? 10 digits, exponent? rest with
  | some n, some e => Double.isFinite n digits.length (e - fraction.length)
  | _, _ => false

/-- 数として読まれるか。 -/
def isNumeric (s : String) : Bool :=
  let cs := s.toList
  let unsigned :=
    match cs with
    | '+' :: cs | '-' :: cs => cs
    | cs => cs
  isRadix cs || isPadded cs || isDecimal unsigned ||
    String.ofList unsigned ∈ [".inf", ".Inf", ".INF"] || s ∈ [".nan", ".NaN", ".NAN"]

/-- 引用符がなければ、文字列でないものとして読まれるか。 -/
def isAmbiguous (s : String) : Bool :=
  s.isEmpty || isNull s || (flag? s).isSome || isNumeric s

end SpecLineage.Yaml
