import SpecLineage.Text.Hex
import SpecLineage.Data.Tree

/-!
# JSON に書く

木を JSON の文字列にする。詰めた書きかたは空白を持たない。広げた書きかたは項目ごとに行を改め、深さごとに
空白二つを置く。空の並びと記録は、どちらの書きかたでも括弧だけにする。
-/

namespace SpecLineage.Json

/-- 文字列の中の一文字を書く。引用符、逆斜線、制御文字は符号にする。 -/
def quotedChar (c : Char) : List Char :=
  match c with
  | '"' => ['\\', '"']
  | '\\' => ['\\', '\\']
  | '\x08' => ['\\', 'b']
  | '\x0c' => ['\\', 'f']
  | '\n' => ['\\', 'n']
  | '\r' => ['\\', 'r']
  | '\t' => ['\\', 't']
  | c => if c < ' ' then '\\' :: 'u' :: Hex.digits Hex.lower 4 c.toNat else [c]

/-- 引用符で囲んだ文字列。 -/
def quoted (s : String) : List Char := '"' :: s.toList.flatMap quotedChar ++ ['"']

/-- 書きかた。広げるときは、いまの深さを持つ。 -/
inductive Style where
  | compact
  | pretty (depth : Nat)

namespace Style

/-- 一段深い所の書きかた。 -/
def deeper : Style → Style
  | .compact => .compact
  | .pretty depth => .pretty (depth + 1)

/-- 次の行の頭まで進む。詰めるときは何も書かない。 -/
def newline : Style → List Char
  | .compact => []
  | .pretty depth => '\n' :: List.replicate (2 * depth) ' '

/-- 名札と値の間。 -/
def colon : Style → List Char
  | .compact => [':']
  | .pretty _ => [':', ' ']

end Style

mutual
/-- 木を書く。 -/
def write (style : Style) : Tree → List Char
  | .text s => quoted s
  | .flag b => (toString b).toList
  | .natural n => (toString n).toList
  | .list [] => ['[', ']']
  | .list (t :: ts) =>
    '[' :: style.deeper.newline ++ write style.deeper t ++ writeItems style ts
  | .record [] => ['\x7b', '\x7d']
  | .record ((key, t) :: ms) =>
    '\x7b' :: style.deeper.newline ++ quoted key ++ style.colon ++ write style.deeper t ++
      writeMembers style ms

/-- 二つ目からの値を、並びの終わりまで書く。 -/
def writeItems (style : Style) : List Tree → List Char
  | [] => style.newline ++ [']']
  | t :: ts => ',' :: style.deeper.newline ++ write style.deeper t ++ writeItems style ts

/-- 二つ目からの項目を、記録の終わりまで書く。 -/
def writeMembers (style : Style) : List (String × Tree) → List Char
  | [] => style.newline ++ ['\x7d']
  | (key, t) :: ms =>
    ',' :: style.deeper.newline ++ quoted key ++ style.colon ++ write style.deeper t ++
      writeMembers style ms
end

/-- 詰めた書きかた。 -/
def compact (t : Tree) : String := String.ofList (write .compact t)

/-- 広げた書きかた。終わりに改行を置かない。 -/
def pretty (t : Tree) : String := String.ofList (write (.pretty 0) t)

end SpecLineage.Json
