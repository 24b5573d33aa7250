/-!
# 空白の文字

Unicode の性質 White_Space を持つ文字。文字列の両端から取り除くときに使う。
-/

namespace SpecLineage

/-- White_Space の文字の範囲。両端を含む。 -/
def blankRanges : List (Nat × Nat) :=
  [(0x09, 0x0D), (0x20, 0x20), (0x85, 0x85), (0xA0, 0xA0), (0x1680, 0x1680), (0x2000, 0x200A),
    (0x2028, 0x2029), (0x202F, 0x202F), (0x205F, 0x205F), (0x3000, 0x3000)]

/-- White_Space の文字か。 -/
def isBlank (c : Char) : Bool := blankRanges.any fun (low, high) => low ≤ c.toNat && c.toNat ≤ high

/-- 両端の空白を除いた文字列。 -/
def trimBlank (s : String) : String :=
  String.ofList ((s.toList.dropWhile isBlank).reverse.dropWhile isBlank).reverse

end SpecLineage
