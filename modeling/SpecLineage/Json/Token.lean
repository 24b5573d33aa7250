import SpecLineage.Text.Hex
import SpecLineage.Number.Double

/-!
# JSON の字句

JSON の文字列を字句の列にする。空白は字句の間にだけ現れ、列には残らない。読めない所に来たら、その誤りを
表す字句で列を終える。

値を使う所と読み飛ばす所とでは、誤りの現れかたが違う。読み飛ばす所では、文字列の代用対の組み合わせも数の
大きさも問わない。そこで字句は、両方の場合の読みを持つ。
-/

namespace SpecLineage.Json

/-- 読めない理由。 -/
inductive Fault where
  /-- 途中で終わる。 -/
  | truncated
  /-- JSON の書きかたに合わない。 -/
  | malformed
  /-- JSON としては読めるが、求める形に合わない。 -/
  | mismatched
  deriving DecidableEq

/-- 数の読み。 -/
inductive Numeral where
  /-- 64 桁の二進数に収まる自然数。 -/
  | natural (n : Nat)
  /-- それ以外の数。 -/
  | other
  /-- 倍精度の範囲を越える数。 -/
  | tooLarge
  deriving DecidableEq

/-- 字句。 -/
inductive Token where
  | openList
  | closeList
  | openRecord
  | closeRecord
  | comma
  | colon
  | null
  | flag (b : Bool)
  | number (n : Numeral)
  /-- 文字列。代用対の組み合わせが正しくないとき、値はない。 -/
  | text (s : Option String)
  /-- 終わりまで読めない文字列。値を使う所での誤りと、読み飛ばす所での誤り。 -/
  | brokenText (used skipped : Fault)
  /-- 読めない字句。値を使う所での誤りと、読み飛ばす所での誤り。 -/
  | broken (used skipped : Fault)
  deriving DecidableEq

/-! ## 空白 -/

/-- 字句の間に置ける空白。 -/
def isBlank (c : Char) : Bool := c == ' ' || c == '\n' || c == '\r' || c == '\t'

/-! ## 文字列 -/

/-- 文字列の一片。文字か、符号で書かれた UTF-16 の単位である。 -/
inductive Piece where
  | char (c : Char)
  | unit (n : Nat)

/-- 逆斜線に続く一文字が表す文字。 -/
def escape? : Char → Option Char
  | '"' => some '"'
  | '\\' => some '\\'
  | '/' => some '/'
  | 'b' => some '\x08'
  | 'f' => some '\x0c'
  | 'n' => some '\n'
  | 'r' => some '\r'
  | 't' => some '\t'
  | _ => none

/-- 開いた引用符の後を、閉じる引用符まで読む。読めない所があれば、そこまでの片と誤りを返す。 -/
def pieces : List Char → List Piece × Except Fault (List Char)
  | [] => ([], .error .truncated)
  | '"' :: rest => ([], .ok rest)
  | '\\' :: 'u' :: a :: b :: c :: d :: rest =>
    match Hex.ofDigits? [a, b, c, d] with
    | some n => let r := pieces rest; (.unit n :: r.1, r.2)
    | none => ([], .error .malformed)
  | '\\' :: 'u' :: rest =>
    ([], .error (if (String.ofList rest).utf8ByteSize < 4 then .truncated else .malformed))
  | ['\\'] => ([], .error .truncated)
  | '\\' :: c :: rest =>
    match escape? c with
    | some e => let r := pieces rest; (.char e :: r.1, r.2)
    | none => ([], .error .malformed)
  | c :: rest =>
    if c < ' ' then ([], .error .malformed)
    else let r := pieces rest; (.char c :: r.1, r.2)

def isHighSurrogate (n : Nat) : Bool := 0xD800 ≤ n && n < 0xDC00

def isLowSurrogate (n : Nat) : Bool := 0xDC00 ≤ n && n < 0xE000

/-- 片をつないで文字の列にする。上位の代用符号には下位の代用符号が続かなければならず、下位のものは
単独では現れない。 -/
def decode : List Piece → Option (List Char)
  | [] => some []
  | .char c :: rest => (decode rest).map (c :: ·)
  | .unit n :: rest =>
    if isLowSurrogate n then none
    else if isHighSurrogate n then
      match rest with
      | .unit m :: rest' =>
        if isLowSurrogate m then
          (decode rest').map (Char.ofNat ((n - 0xD800) * 0x400 + (m - 0xDC00) + 0x10000) :: ·)
        else none
      | _ => none
    else (decode rest).map (Char.ofNat n :: ·)

/-- 後に何が続いても文字の列にならないか。 -/
def isSpoiled (ps : List Piece) : Bool :=
  (decode ps).isNone && (decode (ps ++ [.unit 0xDC00])).isNone

/-- 開いた引用符の後から文字列の字句を読む。 -/
def textToken (cs : List Char) : Token × List Char :=
  match pieces cs with
  | (ps, .ok rest) => (.text ((decode ps).map String.ofList), rest)
  | (ps, .error fault) => (.brokenText (if isSpoiled ps then .malformed else fault) fault, [])

/-! ## 数 -/

/-- 64 桁の二進数に収まる限り数字を取り込む。取り込めなかった数字の数も返す。 -/
def absorb (significand : Nat) : List Char → Nat × Nat
  | [] => (significand, 0)
  | c :: cs =>
    let next := significand * 10 + (c.toNat - '0'.toNat)
    if next < UInt64.size then absorb next cs else (significand, cs.length + 1)

/-- 整数部、小数部、指数から数の読みを決める。小数部と指数は、書かれていなければ `none` とする。指数の
`true` は負を表す。 -/
def numeral (negative : Bool) (whole : List Char) (fraction : Option (List Char))
    (exponent : Option (Bool × List Char)) : Numeral :=
  let (w, dropped) := absorb 0 whole
  if !negative && dropped == 0 && fraction.isNone && exponent.isNone then .natural w
  else
    let f := fraction.getD []
    let (significand, unread) := absorb w f
    let scale : Int := (dropped : Int) - ((f.length - unread : Nat) : Int)
    let (down, digits) := exponent.getD (false, [])
    let e := digits.foldl (fun acc c => acc * 10 + (c.toNat - '0'.toNat)) 0
    if down then if Double.productOverflows significand (scale - e) then .tooLarge else .other
    else if Double.productOverflows significand (scale + e) then .tooLarge
    else .other

/-- 読めない数。値を使う所では、途中で終わるのと書きかたの誤りを区別する。 -/
def brokenNumber (rest : List Char) : Token × List Char :=
  (.broken (if rest.isEmpty then .truncated else .malformed) .malformed, [])

/-- 指数を読み、数を終える。 -/
def exponentToken (negative : Bool) (whole : List Char) (fraction : Option (List Char)) :
    List Char → Token × List Char
  | [] => (.number (numeral negative whole fraction none), [])
  | c :: rest =>
    if c = 'e' ∨ c = 'E' then
      let (down, rest) :=
        match rest with
        | '+' :: r => (false, r)
        | '-' :: r => (true, r)
        | r => (false, r)
      let digits := rest.takeWhile Char.isDigit
      let rest := rest.dropWhile Char.isDigit
      if digits.isEmpty then brokenNumber rest
      else (.number (numeral negative whole fraction (some (down, digits))), rest)
    else (.number (numeral negative whole fraction none), c :: rest)

/-- 小数部を読み、数を終える。 -/
def fractionToken (negative : Bool) (whole : List Char) : List Char → Token × List Char
  | '.' :: rest =>
    let digits := rest.takeWhile Char.isDigit
    let rest := rest.dropWhile Char.isDigit
    if digits.isEmpty then brokenNumber rest
    else exponentToken negative whole (some digits) rest
  | rest => exponentToken negative whole none rest

/-- 符号の後の整数部から数を読む。先頭の零には数字が続かない。 -/
def wholeToken (negative : Bool) (cs : List Char) : Token × List Char :=
  let digits := cs.takeWhile Char.isDigit
  let rest := cs.dropWhile Char.isDigit
  match digits with
  | [] => brokenNumber rest
  | ['0'] => fractionToken negative ['0'] rest
  | '0' :: _ => (.broken .malformed .malformed, [])
  | _ => fractionToken negative digits rest

/-! ## 語 -/

/-- 語の残り `expected` を読む。 -/
def wordToken (token : Token) : (expected cs : List Char) → Token × List Char
  | [], cs => (token, cs)
  | _ :: _, [] => (.broken .truncated .truncated, [])
  | e :: es, c :: cs =>
    if e = c then wordToken token es cs else (.broken .malformed .malformed, [])

/-! ## 字句の列 -/

/-- 最初の文字が `c` である字句を読む。 -/
def token (c : Char) (rest : List Char) : Token × List Char :=
  match c with
  | '[' => (.openList, rest)
  | ']' => (.closeList, rest)
  | '{' => (.openRecord, rest)
  | '}' => (.closeRecord, rest)
  | ',' => (.comma, rest)
  | ':' => (.colon, rest)
  | '"' => textToken rest
  | 'n' => wordToken .null ['u', 'l', 'l'] rest
  | 't' => wordToken (.flag true) ['r', 'u', 'e'] rest
  | 'f' => wordToken (.flag false) ['a', 'l', 's', 'e'] rest
  | '-' => wholeToken true rest
  | c => if c.isDigit then wholeToken false (c :: rest) else (.broken .malformed .malformed, [])

/-! ### 字句を読むと残りは短くなる -/

theorem pieces_length {cs rest : List Char} (h : (pieces cs).2 = .ok rest) :
    rest.length < cs.length := by
  fun_induction pieces cs with
  | case3 | case7 | case10 => grind
  | _ => simp_all

theorem textToken_length (cs : List Char) : (textToken cs).2.length ≤ cs.length := by
  unfold textToken
  split
  · rename_i h; exact Nat.le_of_lt (pieces_length (by rw [h]))
  · simp

theorem length_dropWhile_le (p : Char → Bool) (cs : List Char) :
    (cs.dropWhile p).length ≤ cs.length := (List.dropWhile_suffix p).length_le

theorem exponentToken_length (b : Bool) (w : List Char) (f : Option (List Char)) (cs : List Char) :
    (exponentToken b w f cs).2.length ≤ cs.length := by
  have h := length_dropWhile_le Char.isDigit
  unfold exponentToken brokenNumber
  grind

theorem fractionToken_length (b : Bool) (w cs : List Char) :
    (fractionToken b w cs).2.length ≤ cs.length := by
  have h := length_dropWhile_le Char.isDigit
  have := exponentToken_length b w
  unfold fractionToken brokenNumber
  grind

theorem wholeToken_length (b : Bool) (cs : List Char) :
    (wholeToken b cs).2.length ≤ (cs.dropWhile Char.isDigit).length := by
  have := fractionToken_length b
  unfold wholeToken brokenNumber
  grind

theorem wordToken_length (t : Token) (es cs : List Char) :
    (wordToken t es cs).2.length ≤ cs.length := by
  fun_induction wordToken t es cs with
  | case3 => simp only [List.length_cons]; omega
  | _ => simp

theorem token_length (c : Char) (rest : List Char) : (token c rest).2.length ≤ rest.length := by
  have := textToken_length rest
  have := wordToken_length
  have h := wholeToken_length true rest
  have := length_dropWhile_le Char.isDigit rest
  unfold token
  split <;> try grind
  split
  · rename_i hc
    have := wholeToken_length false (c :: rest)
    rw [List.dropWhile_cons_of_pos hc] at this
    omega
  · simp

/-- 文字の列を字句の列にする。 -/
def tokens : List Char → List Token
  | [] => []
  | c :: rest =>
    if isBlank c then tokens rest
    else
      have := token_length c rest
      (token c rest).1 :: tokens (token c rest).2
termination_by cs => cs.length

end SpecLineage.Json
