/-!
# YAML の文字

文字の種類と、改行の書きかたの統一。
-/

namespace SpecLineage.Yaml

/-- 行の中の空白。 -/
def isBlank (c : Char) : Bool := c == ' ' || c == '\t'

/-- 改行の書きかたを揃えた後の改行。 -/
def isBreak (c : Char) : Bool := c == '\n' || c == '\u2028' || c == '\u2029'

/-- 目印や名に使える文字。 -/
def isWord (c : Char) : Bool := c.isAlphanum || c == '-' || c == '_'

/-- 文書に現れてよい文字。 -/
def isAllowed (c : Char) : Bool :=
  c == '\t' || c == '\n' || c == '\r' || (' ' ≤ c && c ≤ '~') || c == '\u0085' ||
    ('\u00a0' ≤ c && c != '\ufffe' && c != '\uffff')

/-- 符号にせずに書いてよい文字。 -/
def isPrintable (c : Char) : Bool :=
  c == '\n' || (' ' ≤ c && c ≤ '~') ||
    ('\u00a0' ≤ c && c != '\ufeff' && c != '\ufffe' && c != '\uffff')

/-- 改行の書きかたを揃える。行の区切りと段落の区切りの文字はそのまま残す。 -/
def unifyBreaks : List Char → List Char
  | [] => []
  | '\r' :: '\n' :: cs => '\n' :: unifyBreaks cs
  | c :: cs => (if c = '\r' ∨ c = '\u0085' then '\n' else c) :: unifyBreaks cs

/-- 次が空白、改行、終わりのどれかか。 -/
def isSpaced : List Char → Bool
  | [] => true
  | c :: _ => isBlank c || isBreak c

/-- 文書の始まりの印 `---` か終わりの印 `...` で始まるか。行の頭でだけ意味を持つ。 -/
def isMarker : List Char → Bool
  | '-' :: '-' :: '-' :: cs | '.' :: '.' :: '.' :: cs => isSpaced cs
  | _ => false

/-- 行の残りを、改行まで読む。空白と注釈だけが書ける。 -/
def endLine (cs : List Char) : Option (List Char) :=
  let rest :=
    match cs.dropWhile isBlank with
    | '#' :: cs => cs.dropWhile (!isBreak ·)
    | cs => cs
  match rest with
  | [] => some []
  | c :: cs => if isBreak c then some cs else none

end SpecLineage.Yaml
