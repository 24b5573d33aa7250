import SpecLineage.Lineage.Shelf

/-!
# 解決をまたぐ文書の蓄え

読み込んだ文書を次の解決でも使うために蓄える。引いたときに、あったかなかったかを数える。蓄えた文書が
ひとりでに消えることはない。
-/

namespace SpecLineage

/-- 文書の蓄えと、引いた回数。 -/
structure Cache where
  shelf : Shelf := {}
  /-- 引いてあった回数。 -/
  hits : Nat := 0
  /-- 引いてなかった回数。 -/
  misses : Nat := 0
  deriving DecidableEq

namespace Cache

/-- 文書を引き、回数を数える。 -/
def get (c : Cache) (l : Location) : Option Document × Cache :=
  match c.shelf.get? l with
  | some d => (some d, { c with hits := c.hits + 1 })
  | none => (none, { c with misses := c.misses + 1 })

/-- 文書を蓄える。回数は変わらない。 -/
def insert (c : Cache) (l : Location) (d : Document) : Cache := { c with shelf := c.shelf.insert l d }

/-- 回数を数えずに、文書があるかを調べる。 -/
def contains (c : Cache) (l : Location) : Bool := c.shelf.contains l

/-- 文書を除く。あったかどうかも答える。 -/
def remove (c : Cache) (l : Location) : Bool × Cache :=
  (c.contains l, { c with shelf := c.shelf.erase l })

/-- 文書も回数も捨てる。 -/
def clear (_ : Cache) : Cache := {}

/-- 蓄えた文書の数。 -/
def size (c : Cache) : Nat := c.shelf.size

end Cache

end SpecLineage
