import SpecLineage.Text.Hex
import SpecLineage.Data.Tree

/-!
# TOML に書く

木を TOML の文字列にする。表では、括弧のない値と並びを先に書き、次に、記録を見出しつきの表として、記録の並びを
二重の見出しつきの表として書く。見出しの前には、文書の先頭を除いて空行を置く。二つ以上の値の並びは一行に一つずつ書く。
-/

namespace SpecLineage.Toml

/-! ## 文字列 -/

/-- 文字列の書きかた。 -/
inductive Quoting where
  /-- 二重引用符で囲む。 -/
  | basic
  /-- 一重引用符で囲み、中身をそのまま書く。 -/
  | literal
  /-- 三つ並べた二重引用符で囲む。 -/
  | multiBasic
  /-- 三つ並べた一重引用符で囲み、中身をそのまま書く。 -/
  | multiLiteral
  deriving DecidableEq

/-- 符号でしか書けない文字か。 -/
def isControl (c : Char) : Bool := (c < ' ' && c != '\t' && c != '\n') || c == '\x7f'

/-- 文字 `quote` が続けて並ぶ最大の数。直前までに `run` 個並んでいる。 -/
def longestRun (quote : Char) (run : Nat) : List Char → Nat
  | [] => run
  | c :: cs => if c = quote then longestRun quote (run + 1) cs else max run (longestRun quote 0 cs)

/-- 符号をなるべく使わない書きかたを選ぶ。 -/
def quoting (cs : List Char) : Quoting :=
  let coded := cs.any isControl
  let broken := cs.contains '\n'
  let doubles := longestRun '"' 0 cs
  let singles := longestRun '\'' 0 cs
  if !coded && !cs.contains '\\' && doubles == 0 && !broken then .basic
  else if !coded && singles == 0 && !broken then .literal
  else if !coded && !cs.contains '\\' && doubles ≤ 2 then .multiBasic
  else if !coded && singles ≤ 2 then .multiLiteral
  else if broken then .multiBasic
  else .basic

/-- 文字を符号で書く。 -/
def coded (c : Char) : List Char :=
  match c with
  | '\x08' => ['\\', 'b']
  | '\t' => ['\\', 't']
  | '\n' => ['\\', 'n']
  | '\x0c' => ['\\', 'f']
  | '\r' => ['\\', 'r']
  | '"' => ['\\', '"']
  | '\\' => ['\\', '\\']
  | c => '\\' :: 'u' :: Hex.digits Hex.upper 4 c.toNat

/-- 二重引用符の中身を書く。引用符は続けて `allowed` 個までそのまま書く。直前までに `run` 個並んでいる。 -/
def escaped (multi : Bool) (allowed run : Nat) : List Char → List Char
  | [] => []
  | c :: cs =>
    if c = '"' then
      if run < allowed then '"' :: escaped multi allowed (run + 1) cs
      else coded c ++ escaped multi allowed 0 cs
    else if c = '\n' ∧ multi then '\n' :: escaped multi allowed 0 cs
    else if c < ' ' ∨ c = '\x7f' ∨ c = '\\' then coded c ++ escaped multi allowed 0 cs
    else c :: escaped multi allowed 0 cs

/-- 引用符で囲んだ文字列。中身に改行があれば、開く引用符のすぐ後で行を改める。 -/
def quoted (s : String) : List Char :=
  let cs := s.toList
  let start := if cs.contains '\n' then ['\n'] else []
  match quoting cs with
  | .basic => '"' :: escaped false 0 0 cs ++ ['"']
  | .literal => '\'' :: cs ++ ['\'']
  | .multiBasic => "\"\"\"".toList ++ start ++ escaped true 2 0 cs ++ "\"\"\"".toList
  | .multiLiteral => "'''".toList ++ start ++ cs ++ "'''".toList

/-! ## 値と表 -/

/-- 区切り `sep` を挟んでつなぐ。 -/
def joined (sep : List Char) (parts : List (List Char)) : List Char := sep.intercalate parts

mutual
/-- 一行の中に書ける値。 -/
def inlineValue : Tree → List Char
  | .text s => quoted s
  | .flag b => (toString b).toList
  | .natural n => (toString n).toList
  | .list ts =>
    match inlineItems ts with
    | [] => ['[', ']']
    | [part] => '[' :: part ++ [']']
    | parts => '[' :: parts.flatMap (fun part => "\n    ".toList ++ part ++ [',']) ++ ['\n', ']']
  | .record [] => ['\x7b', '\x7d']
  | .record ms => "\x7b ".toList ++ joined [',', ' '] (inlineMembers ms) ++ " \x7d".toList

def inlineItems : List Tree → List (List Char)
  | [] => []
  | t :: ts => inlineValue t :: inlineItems ts

def inlineMembers : List (String × Tree) → List (List Char)
  | [] => []
  | (key, t) :: ms => (key.toList ++ [' ', '=', ' '] ++ inlineValue t) :: inlineMembers ms
end

/-- 記録か。 -/
def isRecord : Tree → Bool
  | .record _ => true
  | _ => false

/-- 見出しをつけて書くものか。 -/
def hasHeading : Tree → Bool
  | .record _ => true
  | .list ts => !ts.isEmpty && ts.all isRecord
  | _ => false

/-- 見出しをつけずに書く項目の行。 -/
def plainLines (ms : List (String × Tree)) : List Char :=
  (ms.filter fun (_, t) => !hasHeading t).flatMap fun (key, t) =>
    key.toList ++ [' ', '=', ' '] ++ inlineValue t ++ ['\n']

/-- 記録の見出しを書くか。見出しつきの項目だけを持つ記録には書かない。 -/
def showsHeading (ms : List (String × Tree)) : Bool :=
  ms.isEmpty || ms.any fun (_, t) => !hasHeading t

/-- 見出し。前に空行を置く。 -/
def heading (path : List String) (opening closing : String) : List Char :=
  '\n' :: opening.toList ++ joined ['.'] (path.map String.toList) ++ closing.toList ++ ['\n']

mutual
/-- 見出しをつけて書く項目を、順に書く。`path` は見出しの経路である。 -/
def nested (path : List String) : List (String × Tree) → List Char
  | [] => []
  | (key, .record ms) :: rest =>
    let path' := path ++ [key]
    (if showsHeading ms then heading path' "[" "]" else []) ++ plainLines ms ++
      nested path' ms ++ nested path rest
  | (key, .list ts) :: rest =>
    (if hasHeading (.list ts) then repeated (path ++ [key]) ts else []) ++ nested path rest
  | _ :: rest => nested path rest

/-- 記録の並びを、記録ごとに二重の見出しをつけて書く。 -/
def repeated (path : List String) : List Tree → List Char
  | [] => []
  | .record ms :: ts =>
    heading path "[[" "]]" ++ plainLines ms ++ nested path ms ++ repeated path ts
  | _ :: ts => repeated path ts
end

/-- 木を書く。記録でない木は空になる。 -/
def write (t : Tree) : String :=
  match t with
  | .record ms =>
    let body := nested [] ms
    match plainLines ms with
    | [] => String.ofList (body.drop 1)
    | lines => String.ofList (lines ++ body)
  | _ => ""

end SpecLineage.Toml
