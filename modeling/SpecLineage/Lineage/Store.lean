import SpecLineage.Lineage.Resolve

/-!
# 手元に置いた文書

文書と、読み込めないことにした場所とを手元に置き、場所から文書を読み込む。読み込めないことにした場所が優先する。
頼まれた場所は、読み込めないことにした場所を除いて、順に控える。
-/

namespace SpecLineage

/-- 手元に置いた文書。 -/
structure Store where
  documents : Shelf := {}
  /-- 読み込めないことにした場所と、その理由。 -/
  failing : List (Location × LoadFault) := []
  /-- 頼まれた場所。 -/
  calls : List Location := []

namespace Store

/-- 文書を置く。 -/
def insert (s : Store) (l : Location) (d : Document) : Store :=
  { s with documents := s.documents.insert l d }

/-- 読み込めないことにする。 -/
def fail (s : Store) (l : Location) (fault : LoadFault) : Store :=
  { s with failing := (l, fault) :: s.failing }

/-- 文書を読み込む。 -/
def load (s : Store) : Loader := fun l =>
  match s.failing.lookup l with
  | some fault => .error fault
  | none =>
    match s.documents.get? l with
    | some d => .ok d
    | none => .error (.notFound l)

/-- 頼まれた場所を控える。 -/
def note (s : Store) (requests : List Location) : Store :=
  { s with calls := s.calls ++ requests.filter fun l => (s.failing.lookup l).isNone }

/-- その場所を頼まれた回数。 -/
def callCount (s : Store) (l : Location) : Nat := s.calls.count l

end Store

end SpecLineage
