/-!
# TOML の表

TOML の文書は名と値の表である。同じ名を二度定めることはできず、表をどこで定めたかによって、後から項目を加えられるか
どうかが決まる。ここでは表の姿と、項目や小見出しを加える規則を定める。
-/

namespace SpecLineage.Toml

/-- 表の定めかた。 -/
inductive Origin where
  /-- 見出しで定めた表。 -/
  | header
  /-- より深い見出しの途中に現れただけの表。後から見出しで定めてよい。 -/
  | implied
  /-- 点でつないだ名の途中に現れた表。後から同じ書きかたで項目を加えてよい。 -/
  | dotted
  /-- 波括弧で書いた表。書いた後は変わらない。 -/
  | inline
  deriving DecidableEq

/-- 値。 -/
inductive Node where
  | text (s : String)
  | flag (b : Bool)
  | integer (n : Int)
  | float
  /-- 日付や時刻。 -/
  | moment
  | list (items : List Node)
  | table (origin : Origin) (entries : List (String × Node))
  /-- 二重の見出しで定めた表の並び。見出しの順に並ぶ。 -/
  | tables (items : List (List (String × Node)))

/-- 表の項目。 -/
abbrev Entries := List (String × Node)

namespace Entries

/-- 名の指す値。 -/
def get? (es : Entries) (key : String) : Option Node := es.lookup key

/-- 名の指す値を `f` で決め直す。なければ末尾に加える。 -/
def alter (es : Entries) (key : String) (f : Option Node → Option Node) : Option Entries :=
  match es with
  | [] => do return [(key, ← f none)]
  | (k, node) :: rest =>
    if k = key then do return (k, ← f (some node)) :: rest
    else do return (k, node) :: (← alter rest key f)

/-- まだない名に値を定める。 -/
def define (es : Entries) (key : String) (node : Node) : Option Entries :=
  es.alter key fun
    | none => some node
    | some _ => none

/-- 点でつないだ名 `first`、`rest` に値を定める。途中の表は、同じ書きかたで定めたものでなければならない。 -/
def assign (es : Entries) (first : String) (rest : List String) (node : Node) : Option Entries :=
  match rest with
  | [] => es.define first node
  | second :: rest =>
    es.alter first fun
      | none => do return .table .dotted (← assign [] second rest node)
      | some (.table .dotted es) => do return .table .dotted (← assign es second rest node)
      | some (.table .implied es) => do
        if rest.isEmpty then none else return .table .implied (← assign es second rest node)
      | some (.tables items) => do
        if rest.isEmpty then none else
          return .tables (items.dropLast ++ [← assign (← items.getLast?) second rest node])
      | some _ => none

/-- 見出しの経路 `path` をたどり、着いた表を `f` で変える。表の並びでは最後の表をたどる。 -/
def descend (es : Entries) (path : List String) (f : Entries → Option Entries) : Option Entries :=
  match path with
  | [] => f es
  | key :: path =>
    es.alter key fun
      | none => do return .table .implied (← descend [] path f)
      | some (.table .inline _) => none
      | some (.table origin es) => do return .table origin (← descend es path f)
      | some (.tables items) => do
        return .tables (items.dropLast ++ [← descend (← items.getLast?) path f])
      | some _ => none

end Entries

end SpecLineage.Toml
