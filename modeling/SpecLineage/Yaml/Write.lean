import SpecLineage.Yaml.Scalar
import SpecLineage.Yaml.Char
import SpecLineage.Data.Tree

/-!
# YAML に書く

木を YAML の文字列にする。深さごとに空白二つを置き、記録の中の並びは字下げしない。文字列は、なるべく引用符を
つけずに書き、改行を含めば縦線の後に行を改めて書く。
-/

namespace SpecLineage.Yaml

/-! ## 文字列の書きかたの選びかた -/

/-- 引用符のない文字列が、文書の中の印と紛れるか。`spaced` は前が空白か頭であることを、`first` は頭であることを表す。 -/
def hasIndicator (first spaced : Bool) : List Char → Bool
  | [] => false
  | c :: cs =>
    (first && c ∈ "#,[]{}&*!|>'\"%@\x60".toList) ||
      (first && c ∈ ['?', '-'] && isSpaced cs) ||
      (c == ':' && isSpaced cs) ||
      (spaced && c == '#') ||
      hasIndicator false (isBlank c || isBreak c) cs

/-- 文字 `p` のすぐ後に文字 `q` が来る所があるか。 -/
def hasPair (p q : Char → Bool) : List Char → Bool
  | c :: d :: cs => (p c && q d) || hasPair p q (d :: cs)
  | _ => false

def isSpace (c : Char) : Bool := c == ' '

/-- 符号にしなければ書けない文字列か。 -/
def needsEscape (cs : List Char) : Bool :=
  cs.any (!isPrintable ·) || hasPair isSpace isBreak cs

/-- 行を改めたまま書けるか。 -/
def allowsLiteral (cs : List Char) : Bool :=
  !cs.isEmpty && !needsEscape cs && !cs.getLast?.any isSpace

/-- 一重引用符で書けるか。 -/
def allowsSingle (cs : List Char) : Bool := !needsEscape cs && !hasPair isBreak isSpace cs

/-- 引用符なしで書けるか。 -/
def allowsPlain (cs : List Char) : Bool :=
  !needsEscape cs && !cs.any isBreak && !cs.head?.any isSpace && !cs.getLast?.any isSpace &&
    !cs.isEmpty && !("---".toList.isPrefixOf cs) && !("...".toList.isPrefixOf cs) &&
    !hasIndicator true true cs

/-- 文字列の書きかた。 -/
def styleOf (s : String) : Style :=
  let cs := s.toList
  if cs.contains '\n' then if allowsLiteral cs then .literal else .double
  else if !isAmbiguous s && allowsPlain cs then .plain
  else if allowsSingle cs then .single
  else .double

/-! ## 文字列 -/

/-- 幅 `indent` の字下げ。 -/
def spaces (indent : Nat) : List Char := List.replicate indent ' '

/-- 終わりの改行の扱いの印。 -/
def chompMark (cs : List Char) : List Char :=
  match cs.reverse with
  | [] => ['-']
  | c :: rest =>
    if !isBreak c then ['-']
    else
      match rest with
      | [] => ['+']
      | d :: _ => if isBreak d then ['+'] else []

/-- 改行の後を字下げしながら書く。空の行は字下げしない。 -/
def indented (indent : Nat) (startsLine : Bool) : List Char → List Char
  | [] => []
  | c :: cs =>
    if isBreak c then c :: indented indent true cs
    else if startsLine then spaces indent ++ c :: indented indent false cs
    else c :: indented indent false cs

/-- 行を改めたまま書いた文字列。終わりに改行がなければ加える。 -/
def literal (indent : Nat) (cs : List Char) : List Char :=
  let hint := if cs.head?.any fun c => isSpace c || isBreak c then ['2'] else []
  let ending := if cs.getLast?.any isBreak then [] else ['\n']
  '|' :: hint ++ chompMark cs ++ '\n' :: indented indent true cs ++ ending

/-- 一重引用符の中身。改行の後は字下げし、引用符は二つ重ねる。 -/
def singleBody (indent : Nat) (startsLine : Bool) : List Char → List Char
  | [] => if startsLine then spaces indent else []
  | c :: cs =>
    if isBreak c then c :: singleBody indent true cs
    else
      (if startsLine then spaces indent else []) ++ (if c = '\'' then ['\'', '\''] else [c]) ++
        singleBody indent false cs

/-- 二重引用符の中の一文字。 -/
def doubleChar (c : Char) : List Char :=
  match c with
  | '\x00' => ['\\', '0']
  | '\x07' => ['\\', 'a']
  | '\x08' => ['\\', 'b']
  | '\t' => ['\\', 't']
  | '\n' => ['\\', 'n']
  | '\x0b' => ['\\', 'v']
  | '\x0c' => ['\\', 'f']
  | '\r' => ['\\', 'r']
  | '\x1b' => ['\\', 'e']
  | '"' => ['\\', '"']
  | '\\' => ['\\', '\\']
  | '\u0085' => ['\\', 'N']
  | '\u2028' => ['\\', 'L']
  | '\u2029' => ['\\', 'P']
  | c =>
    if isPrintable c then [c]
    else if c.toNat < 0x100 then '\\' :: 'x' :: Hex.digits Hex.upper 2 c.toNat
    else '\\' :: 'u' :: Hex.digits Hex.upper 4 c.toNat

/-- 値として書いた文字列と、それに続く改行。`indent` は中身の字下げの幅である。 -/
def textLines (indent : Nat) (s : String) : List Char :=
  let cs := s.toList
  match styleOf s with
  | .literal | .folded => literal indent cs
  | .plain => cs ++ ['\n']
  | .single => '\'' :: singleBody indent false cs ++ ['\'', '\n']
  | .double => '"' :: cs.flatMap doubleChar ++ ['"', '\n']

/-! ## 木 -/

mutual
/-- 記録の値を、鍵の後に書く。`indent` は鍵の字下げの幅である。 -/
def memberValue (indent : Nat) : Tree → List Char
  | .text s => ' ' :: textLines (indent + 2) s
  | .flag b => ' ' :: (toString b).toList ++ ['\n']
  | .natural n => ' ' :: (toString n).toList ++ ['\n']
  | .list [] => [' ', '[', ']', '\n']
  | .list (t :: ts) => '\n' :: spaces indent ++ '-' :: itemValue indent t ++ restItems indent ts
  | .record [] => [' ', '\x7b', '\x7d', '\n']
  | .record ((key, t) :: ms) =>
    '\n' :: spaces (indent + 2) ++ key.toList ++ ':' :: memberValue (indent + 2) t ++
      restMembers (indent + 2) ms

/-- 並びの値を、印の後に書く。`indent` は印の字下げの幅である。 -/
def itemValue (indent : Nat) : Tree → List Char
  | .text s => ' ' :: textLines (indent + 2) s
  | .flag b => ' ' :: (toString b).toList ++ ['\n']
  | .natural n => ' ' :: (toString n).toList ++ ['\n']
  | .list [] => [' ', '[', ']', '\n']
  | .list (t :: ts) => [' ', '-'] ++ itemValue (indent + 2) t ++ restItems (indent + 2) ts
  | .record [] => [' ', '\x7b', '\x7d', '\n']
  | .record ((key, t) :: ms) =>
    ' ' :: key.toList ++ ':' :: memberValue (indent + 2) t ++ restMembers (indent + 2) ms

/-- 二つ目からの並びの値。 -/
def restItems (indent : Nat) : List Tree → List Char
  | [] => []
  | t :: ts => spaces indent ++ '-' :: itemValue indent t ++ restItems indent ts

/-- 二つ目からの記録の項目。 -/
def restMembers (indent : Nat) : List (String × Tree) → List Char
  | [] => []
  | (key, t) :: ms =>
    spaces indent ++ key.toList ++ ':' :: memberValue indent t ++ restMembers indent ms
end

/-- 木を書く。 -/
def write (t : Tree) : String :=
  match t with
  | .record ((key, t) :: ms) => String.ofList (restMembers 0 ((key, t) :: ms))
  | .list (t :: ts) => String.ofList (restItems 0 (t :: ts))
  | .text s => String.ofList (textLines 2 s)
  | t => String.ofList ((memberValue 0 t).drop 1)

end SpecLineage.Yaml
