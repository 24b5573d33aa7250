import SpecLineage.Yaml.Scalar
import SpecLineage.Yaml.Flow
import SpecLineage.Yaml.Block
import SpecLineage.Yaml.Tag

/-!
# YAML の字句

字下げで書いた構造を括弧のような字句に直しながら、文書を字句の列にする。

名札のない鍵は、後に続く区切りの点を読むまで鍵とわからない。そこで、鍵かもしれない所で字句の列を分けておき、
区切りの点が来たら、分けた所に鍵の始まりの字句を入れる。鍵は一行に収まり、UTF-8 で 1024 バイトを越えない。

字下げの幅は文字の数で測る。行の頭の字句の前に置かれた符号の印は、一文字の幅を持つ空白とみなす。
-/

namespace SpecLineage.Yaml

/-- 字句。 -/
inductive Token where
  | directive (d : Directive)
  | documentStart
  | documentEnd
  /-- 字下げした並びの始まり。 -/
  | listStart
  /-- 字下げした記録の始まり。 -/
  | recordStart
  /-- 字下げの終わり。 -/
  | blockEnd
  | openList
  | closeList
  | openRecord
  | closeRecord
  /-- 字下げした並びの値の印。 -/
  | entry
  | comma
  | key
  | value
  | alias (name : String)
  | anchor (name : String)
  | tag (t : Tag)
  | scalar (style : Style) (text : String)

/-! ## 読む所 -/

/-- 文書の中の位置。 -/
structure Position where
  line : Nat := 0
  column : Nat := 0
  /-- 文書の頭からのバイトの数。 -/
  offset : Nat := 0

/-- 一文字進んだ位置。 -/
def Position.step (p : Position) (c : Char) : Position :=
  let offset := p.offset + c.utf8Size
  if isBreak c then ⟨p.line + 1, 0, offset⟩ else ⟨p.line, p.column + 1, offset⟩

/-- 鍵かもしれない所。 -/
structure Candidate where
  position : Position
  /-- 鍵でなければならないか。 -/
  required : Bool

/-- 一つの括弧の中の字句。新しい字句が先頭にある。 -/
structure Frame where
  /-- 鍵かもしれない所より前の字句。 -/
  before : List Token := []
  candidate : Option Candidate := none
  /-- 鍵かもしれない所から後の字句。 -/
  since : List Token := []

/-- 読みかけの文書。 -/
structure Scan where
  rest : List Char
  position : Position := {}
  frame : Frame := {}
  /-- 外側の括弧の中の字句。内側のものが先頭にある。 -/
  outer : List Frame := []
  /-- 開いた字下げの幅。深いものが先頭にある。 -/
  indents : List Nat := []
  /-- ここから鍵を始めてよいか。 -/
  keyAllowed : Bool := true

namespace Frame

/-- 字句を加える。 -/
def emit (f : Frame) (t : Token) : Frame := { f with since := t :: f.since }

/-- 全体の字句。 -/
def tokens (f : Frame) : List Token := f.since ++ f.before

/-- 鍵かもしれない所を忘れる。鍵でなければならない所は忘れられない。 -/
def forget (f : Frame) : Option Frame :=
  match f.candidate with
  | none => some f
  | some k => if k.required then none else some { f with candidate := none }

/-- 位置 `p` まで読んで、もう鍵でありえない所を忘れる。 -/
def expire (f : Frame) (p : Position) : Option Frame :=
  match f.candidate with
  | none => some f
  | some k =>
    if k.position.line < p.line ∨ k.position.offset + 1024 < p.offset then f.forget else some f

end Frame

namespace Scan

/-- 括弧の中か。 -/
def inFlow (s : Scan) : Bool := !s.outer.isEmpty

/-- 開いた字下げのうち最も深い幅。なければ `none` とする。 -/
def indent (s : Scan) : Option Nat := s.indents.head?

/-- 字句を加える。 -/
def emit (s : Scan) (t : Token) : Scan := { s with frame := s.frame.emit t }

/-- 残りが `rest` になるまで進む。 -/
def moveTo (s : Scan) (rest : List Char) : Scan :=
  { s with
    rest
    position := (s.rest.take (s.rest.length - rest.length)).foldl Position.step s.position }

/-- 字句を加え、残りが `rest` になるまで進む。 -/
def push (s : Scan) (t : Token) (rest : List Char) : Scan := (s.emit t).moveTo rest

/-- ここから鍵を始めてよいかを定める。 -/
def allow (s : Scan) (keyAllowed : Bool) : Scan := { s with keyAllowed }

/-! ### 字下げ -/

/-- 幅 `column` より深い字下げを閉じる。`none` ではすべて閉じる。 -/
def unroll (s : Scan) (column : Option Nat) : Scan :=
  if s.inFlow then s
  else
    let (closed, indents) := s.indents.span fun i => column.all (· < i)
    closed.foldl (fun s _ => s.emit .blockEnd) { s with indents }

/-- 括弧の外で、今の字下げより深い幅 `column` の字下げを開く。 -/
def roll (s : Scan) (column : Nat) (t : Token) : Scan :=
  if s.inFlow || s.indent.any (column ≤ ·) then s
  else { s.emit t with indents := column :: s.indents }

/-! ### 鍵 -/

/-- 鍵かもしれない所を忘れる。 -/
def forget (s : Scan) : Option Scan := do return { s with frame := ← s.frame.forget }

/-- 鍵を始めてよければ、ここを鍵かもしれない所とする。 -/
def mark (s : Scan) : Option Scan :=
  if s.keyAllowed then do
    let frame ← s.frame.forget
    let required := !s.inFlow && s.indent == some s.position.column
    return { s with frame := {
      before := frame.tokens, candidate := some ⟨s.position, required⟩, since := [] } }
  else some s

/-- もう鍵でありえない所を忘れる。 -/
def expire (s : Scan) : Option Scan := do
  return { s with
    frame := ← s.frame.expire s.position
    outer := ← s.outer.mapM fun f => f.expire s.position }

/-! ### 空き -/

/-- 字句の間で読んでいる所。 -/
inductive GapPart where
  /-- 行の頭。 -/
  | lineStart
  /-- 空白の中。 -/
  | blank
  /-- 注釈の中。 -/
  | comment
  deriving DecidableEq

/-- 字句の間を飛ばす。括弧の外では、行を改めると鍵を始めてよくなる。字下げにタブは使えない。 -/
def gap (inFlow keyAllowed : Bool) (part : GapPart) : List Char → Bool × List Char
  | [] => (keyAllowed, [])
  | c :: cs =>
    if isBreak c then gap inFlow (keyAllowed || !inFlow) .lineStart cs
    else if part = .comment then gap inFlow keyAllowed .comment cs
    else if c == ' ' || (c == '\t' && (inFlow || !keyAllowed)) || (c == '\ufeff' && part == .lineStart) then
      gap inFlow keyAllowed .blank cs
    else if c = '#' then gap inFlow keyAllowed .comment cs
    else (keyAllowed, c :: cs)

/-- 次の字句の前まで進み、浅くなった字下げを閉じる。 -/
def settle (s : Scan) : Option Scan := do
  let part := if s.position.column = 0 then GapPart.lineStart else .blank
  let (keyAllowed, rest) := gap s.inFlow s.keyAllowed part s.rest
  let s ← ((s.moveTo rest).allow keyAllowed).expire
  return s.unroll (some s.position.column)

/-! ### 一つの字句 -/

/-- 文書の始まりや終わりの印。 -/
def marker (s : Scan) (t : Token) : Option Scan := do
  let s ← (s.unroll none).forget
  return (s.allow false).push t (s.rest.drop 3)

/-- 指示。 -/
def readDirective (s : Scan) (cs : List Char) : Option Scan := do
  let s ← (s.unroll none).forget
  let (d, rest) ← directive cs
  return (s.allow false).push (.directive d) rest

/-- 開く括弧。 -/
def openFlow (s : Scan) (t : Token) (cs : List Char) : Option Scan := do
  let s ← s.mark
  let s := s.push t cs
  return { s with frame := {}, outer := s.frame :: s.outer, keyAllowed := true }

/-- 閉じる括弧。 -/
def closeFlow (s : Scan) (t : Token) (cs : List Char) : Option Scan := do
  let s ← s.forget
  let s :=
    match s.outer with
    | f :: outer => { s with frame := { f with since := s.frame.tokens ++ f.since }, outer }
    | [] => s
  return (s.allow false).push t cs

/-- 括弧の中の区切り。 -/
def comma (s : Scan) (cs : List Char) : Option Scan := do
  return ((← s.forget).allow true).push .comma cs

/-- 並びの値の印。 -/
def entry (s : Scan) (cs : List Char) : Option Scan := do
  if !s.inFlow && !s.keyAllowed then none
  else return ((← (s.roll s.position.column .listStart).forget).allow true).push .entry cs

/-- 鍵の印。 -/
def key (s : Scan) (cs : List Char) : Option Scan := do
  if !s.inFlow && !s.keyAllowed then none
  else
    let s ← (s.roll s.position.column .recordStart).forget
    return (s.allow !s.inFlow).push .key cs

/-- 鍵と値の区切り。鍵かもしれない所があれば、そこを鍵とする。 -/
def value (s : Scan) (cs : List Char) : Option Scan :=
  match s.frame.candidate with
  | some k =>
    let since := s.frame.since
    let s := { s with frame := { s.frame with candidate := none, since := [] } }
    let s := (s.roll k.position.column .recordStart).emit .key
    let s := { s with frame := { s.frame with since := since ++ s.frame.since } }
    some ((s.allow false).push .value cs)
  | none =>
    if !s.inFlow && !s.keyAllowed then none
    else some (((s.roll s.position.column .recordStart).allow !s.inFlow).push .value cs)

/-- 値の前に置く目印など、鍵の始まりでもありうる字句。 -/
def lead (s : Scan) (t : Token) (rest : List Char) : Option Scan := do
  return ((← s.mark).allow false).push t rest

/-- 字下げした文字列。 -/
def readBlock (s : Scan) (folded : Bool) (cs : List Char) : Option Scan := do
  let s ← s.forget
  let (text, rest) ← block folded s.indent cs
  let style := if folded then Style.folded else .literal
  return (s.allow true).push (.scalar style (String.ofList text)) rest

/-- 引用符のない文字列。 -/
def readPlain (s : Scan) : Option Scan := do
  let p ← plain s.inFlow (s.indent.elim 0 (· + 1)) .none s.rest
  return (← s.lead (.scalar .plain (String.ofList p.text)) p.rest).allow p.broken

/-- 次の字句を一つ読む。 -/
def next (s : Scan) (c : Char) (cs : List Char) : Option Scan :=
  if s.position.column = 0 ∧ c = '%' then s.readDirective cs
  else if s.position.column = 0 ∧ isMarker (c :: cs) then
    s.marker (if c = '-' then .documentStart else .documentEnd)
  else
    match c with
    | '[' => s.openFlow .openList cs
    | '\x7b' => s.openFlow .openRecord cs
    | ']' => s.closeFlow .closeList cs
    | '\x7d' => s.closeFlow .closeRecord cs
    | ',' => s.comma cs
    | '-' => if isSpaced cs then s.entry cs else s.readPlain
    | '?' => if s.inFlow || isSpaced cs then s.key cs else s.readPlain
    | ':' => if s.inFlow || isSpaced cs then s.value cs else s.readPlain
    | '*' => do
      let (name, rest) ← anchorName cs
      s.lead (.alias name) rest
    | '&' => do
      let (name, rest) ← anchorName cs
      s.lead (.anchor name) rest
    | '!' => do
      let (t, rest) ← Yaml.tag s.inFlow cs
      s.lead (.tag t) rest
    | '|' => if s.inFlow then none else s.readBlock false cs
    | '>' => if s.inFlow then none else s.readBlock true cs
    | '\'' => do
      let (text, rest) ← single .none cs
      s.lead (.scalar .single (String.ofList text)) rest
    | '"' => do
      let (text, rest) ← double .none cs
      s.lead (.scalar .double (String.ofList text)) rest
    | '#' | '%' | '@' | '\x60' | '\t' => none
    | _ => s.readPlain

/-- 残りの字句をすべて読む。括弧は閉じていなければならない。字句は一文字以上から成るので、`fuel` は残りの文字の数より大きければ足りる。 -/
def run (fuel : Nat) (s : Scan) : Option (List Token) :=
  match fuel with
  | 0 => none
  | fuel + 1 => do
    let s ← s.settle
    match s.rest with
    | [] => if s.inFlow then none else return (← (s.unroll none).forget).frame.tokens.reverse
    | c :: cs => run fuel (← s.next c cs)

end Scan

/-- 文字の列の表す字句。 -/
def tokens (cs : List Char) : Option (List Token) :=
  if !cs.all isAllowed then none
  else
    let cs := unifyBreaks cs
    Scan.run (cs.length + 1) { rest := cs }

end SpecLineage.Yaml
