/-!
# 経路

斜線で区切った経路を、根から始まるかどうかと区切られた名の列とで表す。続く斜線と `.` は区切りにすぎず、
名の列に現れない。正規の形は `..` を字面の上でたたむ。
-/

namespace SpecLineage

/-- 経路。 -/
structure Path where
  /-- 根から始まるか。 -/
  rooted : Bool
  names : List String
  deriving DecidableEq

namespace Path

/-- 名の列に現れない区切りか。 -/
def isFiller (name : List Char) : Bool := name == [] || name == ['.']

/-- 斜線で区切る。 -/
def splitSlash : List Char → List (List Char)
  | [] => [[]]
  | c :: cs =>
    if c = '/' then [] :: splitSlash cs
    else
      match splitSlash cs with
      | [] => [[c]]
      | name :: names => (c :: name) :: names

/-- 文字列の表す経路。 -/
def ofString (s : String) : Path where
  rooted := s.toList.head? == some '/'
  names := ((splitSlash s.toList).filter (!isFiller ·)).map String.ofList

/-- 経路を表す文字列。空の相対経路は空文字列になる。 -/
def toString (p : Path) : String := (if p.rooted then "/" else "") ++ "/".intercalate p.names

/-- 一つの名を読み進める。`..` は直前の名を取り消し、取り消す名がなければ、根では捨て、相対経路では残す。
列は逆順に持つ。 -/
def fold (rooted : Bool) (done : List String) (name : String) : List String :=
  if name = ".." then
    match done with
    | [] => if rooted then [] else [".."]
    | last :: before => if last = ".." then ".." :: done else before
  else name :: done

/-- 正規の形。 -/
def normal (p : Path) : Path := { p with names := (p.names.foldl (fold p.rooted) []).reverse }

/-- 最後の名を除いた経路。名のない経路の親は空の相対経路とする。 -/
def parent (p : Path) : Path := if p.names.isEmpty then ⟨false, []⟩ else ⟨p.rooted, p.names.dropLast⟩

/-- 経路をつなぐ。つなぐ経路が根から始まれば、それだけを取る。 -/
def join (p q : Path) : Path := if q.rooted then q else ⟨p.rooted, p.names ++ q.names⟩

/-- 最後の名の、最後の点より後。点が頭にしかなければ、ない。 -/
def extension? (p : Path) : Option String :=
  match p.names.getLast? with
  | none => none
  | some name =>
    let (after, before) := name.toList.reverse.span (· != '.')
    if name = ".." ∨ before.length ≤ 1 then none else some (String.ofList after.reverse)

end Path

end SpecLineage
