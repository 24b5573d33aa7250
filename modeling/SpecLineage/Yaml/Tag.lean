import SpecLineage.Text.Hex
import SpecLineage.Yaml.Char

/-!
# YAML の名札、目印、指示

値の型を示す名札、値を指す目印、文書の前に置く指示の読みかた。名札は ASCII の名としか比べないので、符号で書いた
ASCII でない文字は、どれも同じ一つの文字で代える。
-/

namespace SpecLineage.Yaml

/-! ## 目印 -/

/-- 目印の名のすぐ後に来てよい文字。 -/
def endsName (cs : List Char) : Bool :=
  isSpaced cs || cs.head?.any (· ∈ ['?', ':', ',', ']', '\x7d', '%', '@', '\x60'])

/-- 目印の名を読む。 -/
def anchorName (cs : List Char) : Option (String × List Char) :=
  let name := cs.takeWhile isWord
  let rest := cs.dropWhile isWord
  if name.isEmpty || !endsName rest then none else some (String.ofList name, rest)

/-! ## 名札 -/

/-- 書かれたままの名札。`handle` が空でなければ、指示で定めた名の始まりに置き換える。 -/
structure Tag where
  handle : String
  suffix : String
  deriving DecidableEq

/-- 名札に使える文字。`verbatim` は山括弧の中か指示の中を表す。 -/
def isTagChar (verbatim : Bool) (c : Char) : Bool :=
  isWord c || c ∈ ";/?:@&=+$.!~*'()".toList || (verbatim && c ∈ [',', '[', ']'])

/-- 最初のバイトから決まる、一文字のバイト数。 -/
def octets (n : Nat) : Nat :=
  if n < 0x80 then 1
  else if n < 0xC0 then 0
  else if n < 0xE0 then 2
  else if n < 0xF0 then 3
  else if n < 0xF8 then 4
  else 0

/-- 名札の文字の列を読む。`pending` は、符号で書いた一文字の残りのバイト数である。 -/
def tagChars (verbatim : Bool) (pending : Nat) : List Char → Option (List Char × List Char)
  | '%' :: a :: b :: cs => do
    let n ← Hex.ofDigits? [a, b]
    match pending with
    | 0 =>
      let width := octets n
      if width = 0 then none
      else
        let (text, rest) ← tagChars verbatim (width - 1) cs
        return ((if width = 1 then Char.ofNat n else '\ufffd') :: text, rest)
    | pending + 1 =>
      if 0x80 ≤ n ∧ n < 0xC0 then tagChars verbatim pending cs else none
  | '%' :: _ => none
  | c :: cs =>
    if pending ≠ 0 then none
    else if isTagChar verbatim c then
      (tagChars verbatim 0 cs).map fun (text, rest) => (c :: text, rest)
    else some ([], c :: cs)
  | [] => if pending ≠ 0 then none else some ([], [])

/-- 空でない名札の文字の列を読む。符号で書いた番号零の文字から後は捨てる。 -/
def tagText (verbatim : Bool) (cs : List Char) : Option (List Char × List Char) := do
  let (text, rest) ← tagChars verbatim 0 cs
  if text.isEmpty then none else return (text.takeWhile (· != '\x00'), rest)

/-- 感嘆符の後の名札を読む。 -/
def tagBody (cs : List Char) : Option (Tag × List Char) :=
  match cs with
  | '<' :: cs => do
    match ← tagText true cs with
    | (text, '>' :: rest) => return (⟨"", String.ofList text⟩, rest)
    | _ => none
  | cs =>
    let name := cs.takeWhile isWord
    match cs.dropWhile isWord with
    | '!' :: rest => do
      let (text, rest) ← tagText false rest
      return (⟨String.ofList ('!' :: name ++ ['!']), String.ofList text⟩, rest)
    | rest => do
      let (text, rest) ← tagChars false 0 rest
      let suffix := (name ++ text).takeWhile (· != '\x00')
      return (if suffix.isEmpty then ⟨"", "!"⟩ else ⟨"!", String.ofList suffix⟩, rest)

/-- 感嘆符の後の名札を、区切りまで読む。`flow` は括弧の中を表す。 -/
def tag (flow : Bool) (cs : List Char) : Option (Tag × List Char) := do
  let (tag, rest) ← tagBody cs
  if isSpaced rest || (flow && rest.head? == some ',') then return (tag, rest) else none

/-! ## 指示 -/

/-- 文書の前に置く指示。 -/
inductive Directive where
  | version (major minor : Nat)
  /-- 名札の名の始まりを定める。 -/
  | handle (name text : String)

/-- 高々九桁の数を読む。 -/
def versionNumber (cs : List Char) : Option (Nat × List Char) :=
  let ds := cs.takeWhile Char.isDigit
  if ds.isEmpty || 9 < ds.length then none
  else some
    (ds.foldl (fun acc c => acc * 10 + (c.toNat - '0'.toNat)) 0, cs.dropWhile Char.isDigit)

/-- 版の指示の中身を読む。 -/
def versionBody (cs : List Char) : Option (Directive × List Char) := do
  match ← versionNumber cs with
  | (major, '.' :: cs) =>
    let (minor, cs) ← versionNumber cs
    return (.version major minor, cs)
  | _ => none

/-- 名札の指示の中身を読む。 -/
def handleBody (cs : List Char) : Option (Directive × List Char) :=
  match cs with
  | '!' :: cs => do
    let name := cs.takeWhile isWord
    let (name, rest) ←
      match cs.dropWhile isWord with
      | '!' :: rest => some ('!' :: name ++ ['!'], rest)
      | rest => if name.isEmpty then some (['!'], rest) else none
    if rest.head?.any isBlank then
      let (text, rest) ← tagText true (rest.dropWhile isBlank)
      if isSpaced rest then return (.handle (String.ofList name) (String.ofList text), rest) else none
    else none
  | _ => none

/-- 百分率記号の後の指示を、行の終わりまで読む。 -/
def directive (cs : List Char) : Option (Directive × List Char) := do
  let name := cs.takeWhile isWord
  let rest := cs.dropWhile isWord
  if !isSpaced rest then none
  else
    let body := rest.dropWhile isBlank
    let (d, rest) ←
      if name = ['Y', 'A', 'M', 'L'] then versionBody body
      else if name = ['T', 'A', 'G'] then handleBody body
      else none
    return (d, ← endLine rest)

end SpecLineage.Yaml
