import SpecLineage.Yaml.Char

/-!
# YAML の字下げした文字列

縦線か不等号で始まり、字下げした行に書く文字列の読みかた。縦線では改行をそのまま残し、不等号では行をつなぐ。
終わりの改行の扱いと字下げの幅は、印で示すことができる。
-/

namespace SpecLineage.Yaml

/-- 終わりの改行の扱い。 -/
inductive Chomp where
  /-- 捨てる。 -/
  | strip
  /-- 一つだけ残す。 -/
  | clip
  /-- すべて残す。 -/
  | keep
  deriving DecidableEq

/-- 始まりの印。 -/
structure BlockHeader where
  chomp : Chomp := .clip
  /-- 示された字下げの幅。 -/
  width : Option Nat := none

/-- 終わりの改行の扱いの印。 -/
def chomp? : Char → Option Chomp
  | '+' => some .keep
  | '-' => some .strip
  | _ => none

/-- 幅の印。 -/
def width? (c : Char) : Option Nat :=
  if '1' ≤ c ∧ c ≤ '9' then some (c.toNat - '0'.toNat) else none

/-- 印の二つの要素を、どちらの順でも読む。 -/
def blockHeader (cs : List Char) : BlockHeader × List Char :=
  match cs with
  | [] => ({}, [])
  | c :: rest =>
    match chomp? c, width? c with
    | some chomp, _ =>
      match rest with
      | d :: after =>
        match width? d with
        | some width => (⟨chomp, some width⟩, after)
        | none => (⟨chomp, none⟩, rest)
      | [] => (⟨chomp, none⟩, [])
    | none, some width =>
      match rest with
      | d :: after =>
        match chomp? d with
        | some chomp => (⟨chomp, some width⟩, after)
        | none => (⟨.clip, some width⟩, rest)
      | [] => (⟨.clip, some width⟩, [])
    | none, none => ({}, cs)

/-- 最初の空でない行までの、最も大きい字下げ。空白の所にタブがあれば読めない。 -/
def widest (best column : Nat) : List Char → Option Nat
  | [] => some (max best column)
  | c :: cs =>
    if c = ' ' then widest best (column + 1) cs
    else if c = '\t' then none
    else if isBreak c then widest (max best column) 0 cs
    else some (max best column)

/-- 読みかけの文字列の、行の間の改行。 -/
structure Breaks where
  /-- 直前の行の終わりの改行。最初の行の前にはない。 -/
  first : List Char := []
  /-- 続く空の行の改行。 -/
  more : List Char := []
  /-- 直前の行が空白で始まるか。 -/
  indented : Bool := false

/-- 行の間の改行の読み。`indented` は次の行が空白で始まるかを表す。 -/
def Breaks.text (b : Breaks) (folded indented : Bool) : List Char :=
  if folded && b.first == ['\n'] && !b.indented && !indented then
    if b.more.isEmpty then [' '] else b.more
  else b.first ++ b.more

/-- 終わりに残す改行。 -/
def Breaks.tail (b : Breaks) : Chomp → List Char
  | .strip => []
  | .clip => b.first
  | .keep => b.first ++ b.more

/-- 読んでいる所。 -/
inductive BlockPlace where
  /-- 行の頭。`column` 個の空白を読んだ。 -/
  | indent (column : Nat) (breaks : Breaks)
  /-- 行の中。`indented` は行が空白で始まるかを表す。 -/
  | line (indented : Bool)

/-- 字下げの幅 `width` の行を、より浅い行の前まで読む。 -/
def blockLines (folded : Bool) (chomp : Chomp) (width : Nat) (place : BlockPlace) :
    List Char → Option (List Char × List Char)
  | [] =>
    match place with
    | .indent _ breaks => some (breaks.tail chomp, [])
    | .line _ => some ([], [])
  | c :: cs =>
    match place with
    | .line indented =>
      if isBreak c then
        blockLines folded chomp width (.indent 0 { first := [c], indented }) cs
      else (blockLines folded chomp width (.line indented) cs).map fun (text, rest) => (c :: text, rest)
    | .indent column breaks =>
      if c = ' ' ∧ column < width then
        blockLines folded chomp width (.indent (column + 1) breaks) cs
      else if c = '\t' ∧ column < width then none
      else if isBreak c then
        blockLines folded chomp width (.indent 0 { breaks with more := breaks.more ++ [c] }) cs
      else if column < width then some (breaks.tail chomp, c :: cs)
      else
        (blockLines folded chomp width (.line (isBlank c)) cs).map fun (text, rest) =>
          (breaks.text folded (isBlank c) ++ c :: text, rest)

/-- 始まりの印の後を読む。`parent` は囲む字下げの幅で、最も外側では `none` とする。 -/
def block (folded : Bool) (parent : Option Nat) (cs : List Char) : Option (List Char × List Char) := do
  let (header, cs) := blockHeader cs
  let cs ← endLine cs
  let width ←
    match header.width with
    | some n => pure (parent.getD 0 + n)
    | none =>
      let best ← widest 0 0 cs
      pure (max best (max 1 (parent.elim 0 (· + 1))))
  blockLines folded header.chomp width (.indent 0 {}) cs

end SpecLineage.Yaml
