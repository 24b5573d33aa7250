import SpecLineage.Lineage.Shelf
import SpecLineage.Diagnostic

/-!
# 一回の解決の控え

一回の解決のあいだ、読み込んだ祖先、いまたどっている場所の列、見つけた診断を控える。誤りは上限まで書き留め、
越えた分は数だけを残す。
-/

namespace SpecLineage

/-- 一回の解決の控え。 -/
structure Session where
  /-- 書き留める誤りの数の上限。 -/
  maxErrors : Option Nat := none
  loaded : Shelf := {}
  /-- たどっている場所。外側が先にある。 -/
  stack : List Location := []
  errors : List Diagnostic := []
  warnings : List Diagnostic := []
  /-- 上限を越えて書き留めなかった誤りの数。 -/
  suppressed : Nat := 0
  /-- 読み込んだ祖先。初めて読み込んだ順に並ぶ。 -/
  ancestors : List Location := []

namespace Session

/-! ## たどっている場所 -/

/-- 場所に入る。 -/
def enter (s : Session) (l : Location) : Session := { s with stack := s.stack ++ [l] }

/-- 最後に入った場所を出る。 -/
def leave (s : Session) : Session := { s with stack := s.stack.dropLast }

/-- その場所をたどっているところか。 -/
def inProgress (s : Session) (l : Location) : Bool := s.stack.contains l

/-- その場所に戻って閉じる輪。最初に入った所から、その場所までを並べる。 -/
def cycle (s : Session) (l : Location) : List Location := s.stack.dropWhile (· != l) ++ [l]

/-! ## 読み込んだ祖先 -/

/-- この解決で読み込んだ文書。 -/
def cached (s : Session) (l : Location) : Option Document := s.loaded.get? l

/-- 読み込んだ文書を覚える。 -/
def remember (s : Session) (l : Location) (d : Document) : Session :=
  { s with
    ancestors := if s.ancestors.contains l then s.ancestors else s.ancestors ++ [l]
    loaded := s.loaded.insert l d }

/-! ## 診断 -/

/-- 誤りの数が上限に達しているか。 -/
def isFull (s : Session) : Bool :=
  match s.maxErrors with
  | some cap => cap ≤ s.errors.length
  | none => false

/-- 診断を重さに応じて控える。 -/
def record (s : Session) (d : Diagnostic) : Session :=
  if d.isError then
    if s.isFull then { s with suppressed := s.suppressed + 1 }
    else { s with errors := s.errors ++ [d] }
  else { s with warnings := s.warnings ++ [d] }

/-- 診断を順に控える。 -/
def recordAll (s : Session) (ds : List Diagnostic) : Session := ds.foldl record s

/-- 書き留めなかったものも含めて、誤りがないか。 -/
def isValid (s : Session) : Bool := s.errors.isEmpty && s.suppressed == 0

end Session

end SpecLineage
