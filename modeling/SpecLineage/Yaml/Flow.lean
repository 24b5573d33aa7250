import SpecLineage.Text.Hex
import SpecLineage.Yaml.Char

/-!
# YAML の折り返す文字列

引用符のない文字列と、引用符で囲んだ文字列の読みかた。どちらも行をまたいでよく、一つの改行は空白に、続く改行は
一つ少ない改行になる。
-/

namespace SpecLineage.Yaml

/-! ## 語の間の空き -/

/-- 語の間の空き。 -/
inductive Gap where
  | none
  /-- 行の中の空白。 -/
  | blanks (cs : List Char)
  /-- 改行。最初の改行と続く改行、最後の改行から後の空白の数を持つ。符号で消した改行は、最初の改行を持たない。 -/
  | lines (first : Option Char) (more : List Char) (column : Nat)

namespace Gap

/-- 空白か改行を一つ加える。 -/
def extend (gap : Gap) (c : Char) : Gap :=
  match gap with
  | none => if isBlank c then blanks [c] else lines (some c) [] 0
  | blanks cs => if isBlank c then blanks (cs ++ [c]) else lines (some c) [] 0
  | lines first more column =>
    if isBlank c then lines first more (column + 1) else lines first (more ++ [c]) 0

/-- 改行を含むか。 -/
def isBroken : Gap → Bool
  | lines _ _ _ => true
  | _ => false

/-- 改行の後、幅 `indent` に届かない所か。 -/
def isShort (indent : Nat) : Gap → Bool
  | lines _ _ column => column < indent
  | _ => false

/-- 空きの読み。 -/
def text : Gap → List Char
  | none => []
  | blanks cs => cs
  | lines (some '\n') [] _ => [' ']
  | lines (some '\n') more _ => more
  | lines first more _ => first.toList ++ more

end Gap

/-! ## 引用符のない文字列 -/

/-- 引用符のない文字列の読み。 -/
structure Plain where
  text : List Char
  /-- 終わりの空きが改行を含むか。 -/
  broken : Bool
  rest : List Char

/-- 引用符のない文字列が `c` の前で終わるか。`flow` は括弧の中を表す。 -/
def endsPlain (flow : Bool) (c : Char) (cs : List Char) : Bool :=
  (c == ':' && isSpaced cs) || (flow && c ∈ [',', '[', ']', '\x7b', '\x7d'])

/-- 空きの後の `cs` で、引用符のない文字列が終わるか。 -/
def Gap.endsPlain (gap : Gap) (flow : Bool) (indent : Nat) (cs : List Char) : Bool :=
  match gap with
  | .none => false
  | .blanks _ => cs.head? == some '#'
  | .lines _ _ _ =>
    (!flow && gap.isShort indent) || (gap.isShort 1 && isMarker cs) || cs.head? == some '#'

/-- 括弧の中で、区切りの点のすぐ後にあってはならない文字。 -/
def isMisplaced (c : Char) : Bool := c ∈ [',', '?', '[', ']', '\x7b', '\x7d']

/-- 引用符のない文字列を読む。改行の後は幅 `indent` 以上の字下げが要る。 -/
def plain (flow : Bool) (indent : Nat) (gap : Gap) : List Char → Option Plain
  | [] => some ⟨[], gap.isBroken, []⟩
  | c :: cs =>
    if isBlank c || isBreak c then
      if c = '\t' && gap.isShort indent then none else plain flow indent (gap.extend c) cs
    else if gap.endsPlain flow indent (c :: cs) then some ⟨[], gap.isBroken, c :: cs⟩
    else if flow && c == ':' && cs.head?.any isMisplaced then none
    else if endsPlain flow c cs then some ⟨[], gap.isBroken, c :: cs⟩
    else (plain flow indent .none cs).map fun p => { p with text := gap.text ++ c :: p.text }

/-! ## 引用符で囲んだ文字列 -/

/-- 逆斜線に続く一文字が表す文字。 -/
def escape? : Char → Option Char
  | '0' => some '\x00'
  | 'a' => some '\x07'
  | 'b' => some '\x08'
  | 't' | '\t' => some '\t'
  | 'n' => some '\n'
  | 'v' => some '\x0b'
  | 'f' => some '\x0c'
  | 'r' => some '\r'
  | 'e' => some '\x1b'
  | ' ' => some ' '
  | '"' => some '"'
  | '/' => some '/'
  | '\\' => some '\\'
  | 'N' => some '\u0085'
  | '_' => some '\u00a0'
  | 'L' => some '\u2028'
  | 'P' => some '\u2029'
  | _ => none

/-- 十六進で書いた番号の文字。 -/
def charOfDigits? (ds : List Char) : Option Char := do
  let n ← Hex.ofDigits? ds
  if n.isValidChar then return Char.ofNat n else none

/-- 引用符で囲んだ文字列の読みと残り。 -/
abbrev Quoted := Option (List Char × List Char)

/-- 読みの頭に `cs` を加える。 -/
def Quoted.after (cs : List Char) : Quoted → Quoted :=
  Option.map fun (text, rest) => (cs ++ text, rest)

/-- 一重引用符の後を、閉じる引用符まで読む。 -/
def single (gap : Gap) : List Char → Quoted
  | [] => none
  | c :: cs =>
    if isBlank c || isBreak c then single (gap.extend c) cs
    else if gap.isShort 1 && isMarker (c :: cs) then none
    else if c = '\'' then
      match cs with
      | '\'' :: cs => (single .none cs).after (gap.text ++ ['\''])
      | cs => some (gap.text, cs)
    else (single .none cs).after (gap.text ++ [c])

/-- 二重引用符の後を、閉じる引用符まで読む。 -/
def double (gap : Gap) : List Char → Quoted
  | [] => none
  | c :: cs =>
    if isBlank c || isBreak c then double (gap.extend c) cs
    else if gap.isShort 1 && isMarker (c :: cs) then none
    else if c = '"' then some (gap.text, cs)
    else if c = '\\' then
      match cs with
      | 'x' :: a :: b :: cs => do
        let e ← charOfDigits? [a, b]
        (double .none cs).after (gap.text ++ [e])
      | 'u' :: a :: b :: c :: d :: cs => do
        let e ← charOfDigits? [a, b, c, d]
        (double .none cs).after (gap.text ++ [e])
      | 'U' :: a :: b :: c :: d :: e :: f :: g :: h :: cs => do
        let e ← charOfDigits? [a, b, c, d, e, f, g, h]
        (double .none cs).after (gap.text ++ [e])
      | c :: cs =>
        if isBreak c then (double (.lines none [] 0) cs).after gap.text
        else do
          let e ← escape? c
          (double .none cs).after (gap.text ++ [e])
      | [] => none
    else (double .none cs).after (gap.text ++ [c])

end SpecLineage.Yaml
