import SpecLineage.Toml.Value

/-!
# TOML の節

文書は、見出しの前の行と、見出しで始まる節の列とから成る。節を前から順に加えて、全体の表を作る。
-/

namespace SpecLineage.Toml

/-- 名と値の一行。 -/
structure Assignment where
  key : Key
  value : Node

/-- 見出し。 -/
structure Heading where
  key : Key
  /-- 二重の見出しか。 -/
  repeated : Bool

/-- 見出しと、それに続く行。 -/
structure Section where
  heading : Heading
  body : List Assignment

namespace Entries

/-- 行を順に定める。 -/
def fill (es : Entries) (body : List Assignment) : Option Entries :=
  body.foldlM (fun es a => es.assign a.key.first a.key.rest a.value) es

/-- 見出しの指す値を、節の中身で決める。二重の見出しは表を一つ加え、そうでない見出しは、まだ見出しのない表を定める。 -/
def settle (s : Section) : Option Node → Option Node
  | none => do
    let es ← fill [] s.body
    return if s.heading.repeated then .tables [es] else .table .header es
  | some (.tables items) => do
    if s.heading.repeated then return .tables (items ++ [← fill [] s.body]) else none
  | some (.table .implied es) => do
    if s.heading.repeated then none else return .table .header (← fill es s.body)
  | some _ => none

/-- 節を一つ加える。 -/
def addSection (es : Entries) (s : Section) : Option Entries :=
  let path := s.heading.key.first :: s.heading.key.rest
  es.descend path.dropLast fun es => es.alter (path.getLast (by simp [path])) (settle s)

end Entries

/-! ## 行 -/

/-- 文書の行。注釈と空行を除く。 -/
inductive Line where
  | heading (h : Heading)
  | assignment (a : Assignment)

/-- 行の終わりを読む。注釈があってもよい。 -/
def endLine (cs : List Char) : Option (List Char) :=
  let rest :=
    match skipBlank cs with
    | '#' :: rest => rest.dropWhile isPlain
    | rest => rest
  match rest with
  | [] => some []
  | '\n' :: rest | '\r' :: '\n' :: rest => some rest
  | _ => none

/-- 空白で始まらない行を一つ読む。 -/
def line : Reader Line := fun cs => do
  match cs with
  | '[' :: '[' :: rest =>
    match ← key rest with
    | (k, ']' :: ']' :: rest) => return (.heading ⟨k, true⟩, ← endLine rest)
    | _ => none
  | '[' :: rest =>
    match ← key rest with
    | (k, ']' :: rest) => return (.heading ⟨k, false⟩, ← endLine rest)
    | _ => none
  | cs =>
    match ← key cs with
    | (k, '=' :: rest) =>
      let (node, rest) ← value limit (skipBlank rest)
      return (.assignment ⟨k, node⟩, ← endLine rest)
    | _ => none

/-- 終わりまでの行を読む。 -/
def lines (cs : List Char) : Option (List Line) :=
  match skipLines false cs with
  | [] => some []
  | start =>
    match line start with
    | none => none
    | some (l, rest) => if rest.length < cs.length then (lines rest).map (l :: ·) else none
termination_by cs.length

/-- 行を、見出しの前の行と節とに分ける。 -/
def sections : List Line → List Assignment × List Section
  | [] => ([], [])
  | .assignment a :: ls =>
    let (body, ss) := sections ls
    (a :: body, ss)
  | .heading h :: ls =>
    let (body, ss) := sections ls
    ([], ⟨h, body⟩ :: ss)

/-- 文字列全体の表す表。先頭の符号の印は読み飛ばす。 -/
def table (s : String) : Option Entries := do
  let cs :=
    match s.toList with
    | '\ufeff' :: cs => cs
    | cs => cs
  let (body, ss) := sections (← lines cs)
  ss.foldlM Entries.addSection (← Entries.fill [] body)

end SpecLineage.Toml
