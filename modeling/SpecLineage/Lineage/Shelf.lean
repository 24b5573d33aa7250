import SpecLineage.Lineage.Location
import SpecLineage.Document.Basic

/-!
# 場所で引く文書の棚

棚は場所ごとに高々一つの文書を持つ。同じ場所に入れれば前の文書は消える。
-/

namespace SpecLineage

/-- 場所で引く文書の棚。 -/
structure Shelf where
  entries : List (Location × Document) := []
  deriving DecidableEq

namespace Shelf

/-- その場所の文書。 -/
def get? (s : Shelf) (l : Location) : Option Document := s.entries.lookup l

def contains (s : Shelf) (l : Location) : Bool := (s.get? l).isSome

/-- その場所の文書を除く。 -/
def erase (s : Shelf) (l : Location) : Shelf := ⟨s.entries.filter (·.1 != l)⟩

/-- その場所に文書を置く。 -/
def insert (s : Shelf) (l : Location) (d : Document) : Shelf := ⟨(l, d) :: (s.erase l).entries⟩

/-- 文書の数。 -/
def size (s : Shelf) : Nat := s.entries.length

end Shelf

end SpecLineage
