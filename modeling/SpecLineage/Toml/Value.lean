import SpecLineage.Toml.Scalar

/-!
# TOML の名と値

点でつないだ名と、括弧を持つ値の読みかた。名の長さと括弧の深さには限りがある。
-/

namespace SpecLineage.Toml

/-- 点でつなげる名の数と、括弧の深さの限り。 -/
def limit : Nat := 79

/-! ## 空白 -/

/-- 行の中の空白を飛ばす。 -/
def skipBlank (cs : List Char) : List Char := cs.dropWhile isBlank

/-- 空白、改行、注釈を飛ばす。注釈に書けない文字があれば、そこで止まる。 -/
def skipLines (inComment : Bool) : List Char → List Char
  | [] => []
  | '\n' :: cs | '\r' :: '\n' :: cs => skipLines false cs
  | c :: cs =>
    if inComment then if isPlain c then skipLines true cs else c :: cs
    else if isBlank c then skipLines false cs
    else if c = '#' then skipLines true cs
    else c :: cs

/-! ## 名 -/

/-- 点でつないだ名。最初の名と続き。 -/
structure Key where
  first : String
  rest : List String := []
  deriving DecidableEq

/-- 引用符なしで名に使える文字。 -/
def isBare (c : Char) : Bool := c.isAlphanum || c == '-' || c == '_'

/-- 名を一つ読む。 -/
def name : Reader String := fun cs =>
  match cs with
  | '"' :: rest => (basic rest).map fun (s, rest) => (String.ofList s, rest)
  | '\'' :: rest => (literal rest).map fun (s, rest) => (String.ofList s, rest)
  | cs =>
    let s := cs.takeWhile isBare
    if s.isEmpty then none else some (String.ofList s, cs.dropWhile isBare)

/-- 点に続く高々 `n` 個の名を読む。 -/
def moreNames (n : Nat) (cs : List Char) : Option (List String × List Char) :=
  match n, cs with
  | 0, '.' :: _ => none
  | n + 1, '.' :: cs => do
    let (s, cs) ← name (skipBlank cs)
    let (ss, cs) ← moreNames n (skipBlank cs)
    return (s :: ss, cs)
  | _, cs => some ([], cs)

/-- 点でつないだ名を読む。前後の空白も読む。 -/
def key : Reader Key := fun cs => do
  let (first, cs) ← name (skipBlank cs)
  let (rest, cs) ← moreNames (limit - 1) (skipBlank cs)
  return (⟨first, rest⟩, cs)

/-! ## 括弧を持つ値 -/

/-- 並びの残りの値を、閉じる括弧まで読む。最後の値の後には区切りがあってよい。 -/
def items (item : Reader Node) (cs : List Char) : Option (List Node × List Char) :=
  match skipLines false cs with
  | ']' :: rest => some ([], rest)
  | start =>
    match item start with
    | none => none
    | some (node, rest) =>
      match skipLines false rest with
      | ']' :: rest => some ([node], rest)
      | ',' :: rest =>
        if rest.length < cs.length then
          (items item rest).map fun (nodes, rest) => (node :: nodes, rest)
        else none
      | _ => none
termination_by cs.length

/-- 表の項目を、閉じる括弧まで読む。最後の項目の後には区切りを置けない。 -/
def pairs (item : Reader Node) (es : Entries) (cs : List Char) : Option (Entries × List Char) :=
  match key cs with
  | some (k, '=' :: rest) =>
    match item (skipBlank rest) with
    | none => none
    | some (node, rest) =>
      match es.assign k.first k.rest node with
      | none => none
      | some es =>
        match skipBlank rest with
        | '\x7d' :: rest => some (es, rest)
        | ',' :: rest => if rest.length < cs.length then pairs item es rest else none
        | _ => none
  | _ => none
termination_by cs.length

/-- 波括弧の後から表を読む。 -/
def inlineTable (item : Reader Node) (cs : List Char) : Option (Node × List Char) :=
  match skipBlank cs with
  | '\x7d' :: rest => some (.table .inline [], rest)
  | _ => (pairs item [] cs).map fun (es, rest) => (.table .inline es, rest)

/-- 深さ `depth` までの括弧を持つ値を読む。 -/
def value (depth : Nat) (cs : List Char) : Option (Node × List Char) :=
  match depth, cs with
  | depth + 1, '[' :: rest => (items (value depth) rest).map fun (nodes, rest) => (.list nodes, rest)
  | depth + 1, '\x7b' :: rest => inlineTable (value depth) rest
  | _, cs => scalar cs

end SpecLineage.Toml
