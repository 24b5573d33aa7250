import SpecLineage.Text.Hex
import SpecLineage.Number.Double
import SpecLineage.Toml.Node

/-!
# TOML の文字列、数、日時

括弧を持たない値の読みかた。どれも文字の列の頭から読み、残りを返す。読めなければ値はない。
-/

namespace SpecLineage.Toml

/-- 文字の列の頭から読み、残りを返す。 -/
abbrev Reader (α : Type) := List Char → Option (α × List Char)

/-- 語の間の空白。 -/
def isBlank (c : Char) : Bool := c == ' ' || c == '\t'

/-- 注釈や文字列にそのまま書ける文字。改行も、水平タブの他の制御文字も書けない。 -/
def isPlain (c : Char) : Bool := c == '\t' || (' ' ≤ c && c != '\x7f')

/-! ## 文字列 -/

/-- 十六進で書いた番号の文字。 -/
def charOfDigits? (ds : List Char) : Option Char := do
  let n ← Hex.ofDigits? ds
  if n.isValidChar then return Char.ofNat n else none

/-- 逆斜線に続く一文字が表す文字。 -/
def escape? : Char → Option Char
  | 'b' => some '\x08'
  | 't' => some '\t'
  | 'n' => some '\n'
  | 'f' => some '\x0c'
  | 'r' => some '\r'
  | '"' => some '"'
  | '\\' => some '\\'
  | _ => none

/-- 読んだ文字を先頭に加える。 -/
def consChar (c : Char) : Option (List Char × List Char) → Option (List Char × List Char) :=
  Option.map fun (cs, rest) => (c :: cs, rest)

/-- 二重引用符の後を、閉じる引用符まで読む。 -/
def basic : Reader (List Char)
  | [] => none
  | '"' :: rest => some ([], rest)
  | '\\' :: 'u' :: a :: b :: c :: d :: rest => do
    consChar (← charOfDigits? [a, b, c, d]) (basic rest)
  | '\\' :: 'U' :: a :: b :: c :: d :: e :: f :: g :: h :: rest => do
    consChar (← charOfDigits? [a, b, c, d, e, f, g, h]) (basic rest)
  | '\\' :: c :: rest => do consChar (← escape? c) (basic rest)
  | c :: rest => if isPlain c then consChar c (basic rest) else none

/-- 一重引用符の後を、閉じる引用符まで読む。 -/
def literal : Reader (List Char)
  | [] => none
  | '\'' :: rest => some ([], rest)
  | c :: rest => if isPlain c then consChar c (literal rest) else none

/-- 三つ並んだ引用符で閉じる。その後に続く引用符は、二つまで中身に入れる。 -/
def closing (quote : Char) : List Char → List Char × List Char
  | c :: d :: rest =>
    if c = quote then
      if d = quote then ([quote, quote], rest) else ([quote], d :: rest)
    else ([], c :: d :: rest)
  | [c] => if c = quote then ([quote], []) else ([], [c])
  | [] => ([], [])

/-- 行を折り返す逆斜線の後の様子。 -/
inductive Fold where
  /-- 折り返していない。 -/
  | none
  /-- 逆斜線を読み、改行を待つ。 -/
  | pending
  /-- 改行を読み、続く空白と改行を捨てる。 -/
  | trimming

/-- 三つ並んだ二重引用符の後を、閉じる引用符まで読む。 -/
def multiBasic : Fold → Reader (List Char)
  | .pending, '\n' :: rest | .pending, '\r' :: '\n' :: rest => multiBasic .trimming rest
  | .pending, c :: rest => if isBlank c then multiBasic .pending rest else none
  | .trimming, '\n' :: rest | .trimming, '\r' :: '\n' :: rest => multiBasic .trimming rest
  | .trimming, ' ' :: rest | .trimming, '\t' :: rest => multiBasic .trimming rest
  | _, [] => none
  | _, '"' :: '"' :: '"' :: rest => some (closing '"' rest)
  | _, '\\' :: 'u' :: a :: b :: c :: d :: rest => do
    consChar (← charOfDigits? [a, b, c, d]) (multiBasic .none rest)
  | _, '\\' :: 'U' :: a :: b :: c :: d :: e :: f :: g :: h :: rest => do
    consChar (← charOfDigits? [a, b, c, d, e, f, g, h]) (multiBasic .none rest)
  | _, '\\' :: '\n' :: rest | _, '\\' :: '\r' :: '\n' :: rest => multiBasic .trimming rest
  | _, '\\' :: c :: rest =>
    if isBlank c then multiBasic .pending rest
    else do consChar (← escape? c) (multiBasic .none rest)
  | _, '\n' :: rest | _, '\r' :: '\n' :: rest => consChar '\n' (multiBasic .none rest)
  | _, c :: rest => if isPlain c then consChar c (multiBasic .none rest) else none

/-- 三つ並んだ一重引用符の後を、閉じる引用符まで読む。 -/
def multiLiteral : Reader (List Char)
  | [] => none
  | '\'' :: '\'' :: '\'' :: rest => some (closing '\'' rest)
  | '\n' :: rest | '\r' :: '\n' :: rest => consChar '\n' (multiLiteral rest)
  | c :: rest => if isPlain c then consChar c (multiLiteral rest) else none

/-- 開く引用符のすぐ後の改行は中身に入れない。 -/
def skipNewline : List Char → List Char
  | '\n' :: rest | '\r' :: '\n' :: rest => rest
  | cs => cs

/-- 文字列を読む。 -/
def text : Reader String := fun cs =>
  let chars :=
    match cs with
    | '"' :: '"' :: '"' :: rest => multiBasic .none (skipNewline rest)
    | '"' :: rest => basic rest
    | '\'' :: '\'' :: '\'' :: rest => multiLiteral (skipNewline rest)
    | '\'' :: rest => literal rest
    | _ => none
  chars.map fun (chars, rest) => (String.ofList chars, rest)

/-! ## 数 -/

/-- 数字の列。下線は数字の間にだけ置ける。 -/
def digitRun (isDigit : Char → Bool) : List Char → List Char × List Char
  | [] => ([], [])
  | [c] => if isDigit c then ([c], []) else ([], [c])
  | c :: d :: rest =>
    if isDigit c then
      if d = '_' then
        match digitRun isDigit rest with
        | ([], _) => ([c], d :: rest)
        | (ds, rest) => (c :: ds, rest)
      else
        let (ds, rest) := digitRun isDigit (d :: rest)
        (c :: ds, rest)
    else ([], c :: d :: rest)

/-- 数字の列が表す値。 -/
def ofDigits (base : Nat) (ds : List Char) : Nat :=
  ds.foldl (fun acc c => acc * base + (Hex.value? c).getD 0) 0

/-- 64 桁の符号つき二進数に収まる整数。 -/
def integer? (n : Int) : Option Node :=
  if -0x8000000000000000 ≤ n ∧ n < 0x8000000000000000 then some (.integer n) else none

/-- 接頭辞の後の、底 `base` の整数を読む。 -/
def radix (base : Nat) (cs : List Char) : Option (Node × List Char) :=
  let isDigit (c : Char) : Bool := (Hex.value? c).any (· < base)
  let (ds, rest) := digitRun isDigit cs
  if ds.isEmpty then none else (integer? (ofDigits base ds)).map (·, rest)

/-- 符号。書かれていなければ正とする。 -/
def sign : List Char → Bool × List Char
  | '-' :: rest => (true, rest)
  | '+' :: rest => (false, rest)
  | cs => (false, cs)

/-- 指数。書かれていなければ `none` とする。 -/
def exponent? : List Char → Option Int × List Char
  | c :: cs =>
    if c = 'e' ∨ c = 'E' then
      let (down, rest) := sign cs
      match digitRun Char.isDigit rest with
      | ([], _) => (none, c :: cs)
      | (ds, rest) => (some (if down then -(ofDigits 10 ds : Int) else ofDigits 10 ds), rest)
    else (none, c :: cs)
  | [] => (none, [])

/-- 小数部。書かれていなければ `none` とする。 -/
def fraction? : List Char → Option (List Char) × List Char
  | '.' :: cs =>
    match digitRun Char.isDigit cs with
    | ([], _) => (none, '.' :: cs)
    | (ds, rest) => (some ds, rest)
  | cs => (none, cs)

/-- 十進の数を読む。先頭の零には数字が続かない。正の数は倍精度で有限でなければならない。 -/
def decimal (cs : List Char) : Option (Node × List Char) :=
  let (negative, cs) := sign cs
  let (whole, cs) := digitRun Char.isDigit cs
  if whole.isEmpty || (whole.head? == some '0' && 1 < whole.length) then none
  else
    let (fraction, cs) := fraction? cs
    let (exponent, cs) := exponent? cs
    if fraction.isNone && exponent.isNone then
      let n : Int := ofDigits 10 whole
      (integer? (if negative then -n else n)).map (·, cs)
    else
      let ds := whole ++ fraction.getD []
      let scale := exponent.getD 0 - (fraction.getD []).length
      if negative || Double.isFinite (ofDigits 10 ds) ds.length scale then some (.float, cs) else none

/-! ## 日時 -/

/-- ちょうど二桁の数。 -/
def twoDigits : Reader Nat
  | a :: b :: rest => if a.isDigit && b.isDigit then some (ofDigits 10 [a, b], rest) else none
  | _ => none

/-- 決まった文字 `c` を読む。 -/
def char (c : Char) : List Char → Option (List Char)
  | d :: rest => if d = c then some rest else none
  | [] => none

/-- 月の日数。 -/
def daysIn (year month : Nat) : Nat :=
  if month = 2 then if year % 4 = 0 ∧ (year % 100 ≠ 0 ∨ year % 400 = 0) then 29 else 28
  else if month ∈ [4, 6, 9, 11] then 30
  else 31

/-- 日付を読む。 -/
def date (cs : List Char) : Option (List Char) := do
  let (century, cs) ← twoDigits cs
  let (year, cs) ← twoDigits cs
  let (month, cs) ← twoDigits (← char '-' cs)
  let (day, cs) ← twoDigits (← char '-' cs)
  if 1 ≤ month ∧ month ≤ 12 ∧ 1 ≤ day ∧ day ≤ daysIn (100 * century + year) month then some cs
  else none

/-- 時と分を読む。 -/
def hourMinute (cs : List Char) : Option (List Char) := do
  let (hour, cs) ← twoDigits cs
  let (minute, cs) ← twoDigits (← char ':' cs)
  if hour < 24 ∧ minute < 60 then some cs else none

/-- 時刻を読む。秒は閏秒を許し、小数部を持ってよい。 -/
def time (cs : List Char) : Option (List Char) := do
  let cs ← hourMinute cs
  let (second, cs) ← twoDigits (← char ':' cs)
  if 60 < second then none else
    match cs with
    | '.' :: c :: rest => if c.isDigit then some (rest.dropWhile Char.isDigit) else some cs
    | _ => some cs

/-- 協定世界時との差。なくてもよい。 -/
def offset (cs : List Char) : List Char :=
  match cs with
  | 'Z' :: rest | 'z' :: rest => rest
  | '+' :: rest | '-' :: rest => (hourMinute rest).getD cs
  | _ => cs

/-- 日付、時刻、または両方を読む。 -/
def moment (cs : List Char) : Option (Node × List Char) := do
  match date cs with
  | none => return (.moment, ← time cs)
  | some rest =>
    match rest with
    | c :: after =>
      if c = 'T' ∨ c = 't' ∨ c = ' ' then
        match time after with
        | some rest => return (.moment, offset rest)
        | none => return (.moment, rest)
      else return (.moment, rest)
    | [] => return (.moment, rest)

/-! ## 全体 -/

/-- 語と、語の表す値。 -/
def words : List (List Char × Node) :=
  [("true".toList, .flag true), ("false".toList, .flag false), ("inf".toList, .float),
    ("nan".toList, .float)]

/-- 語を読む。符号をつけられるのは数の語だけである。 -/
def word (signed : Bool) (cs : List Char) : Option (Node × List Char) :=
  let candidates := if signed then words.drop 2 else words
  (candidates.find? fun (w, _) => w.isPrefixOf cs).map fun (w, node) => (node, cs.drop w.length)

/-- 括弧を持たない値を読む。 -/
def scalar (cs : List Char) : Option (Node × List Char) :=
  match cs with
  | '"' :: _ | '\'' :: _ => (text cs).map fun (s, rest) => (.text s, rest)
  | '0' :: 'x' :: rest => radix 16 rest
  | '0' :: 'o' :: rest => radix 8 rest
  | '0' :: 'b' :: rest => radix 2 rest
  | '+' :: rest | '-' :: rest => decimal cs <|> word true rest
  | cs => moment cs <|> decimal cs <|> word false cs

end SpecLineage.Toml
