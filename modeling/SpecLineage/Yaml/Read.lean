import SpecLineage.Yaml.Anchor
import SpecLineage.Data.Shape

/-!
# YAML から値を読む

形に沿って木から値を読む。書かれていない値は、空の記録や空の並びとして読む。形に現れない鍵の項目は読み飛ばし、
形に現れる鍵が二度現れるのは誤りとする。

目印を引く回数には限りがある。小さな文書が、引くたびに膨らむのを防ぐ。
-/

namespace SpecLineage.Yaml

/-- 読むときの状態。まだ目印を引ける回数である。 -/
abbrev Reader (α : Type) := StateT Nat Option α

/-- 目印の番号から値を引く。同じ番号の値のうち、最後に始まるものを引く。 -/
abbrev Target := Nat → Option (Node Nat)

/-- 目印を引く所なら、引いた先の値に置き換える。 -/
def follow (target : Target) : Node Nat → Reader (Node Nat)
  | .alias n => do
    match ← get with
    | 0 => failure
    | left + 1 =>
      set left
      (target n : Option (Node Nat))
  | node => return node

/-! ## 文字列の読み -/

/-- 文字列の読みを決めるもの。 -/
structure Scalar where
  tag : Option String
  style : Style
  text : String

/-- 文字列の値。 -/
def scalar? : Node Nat → Option Scalar
  | .scalar _ tag style text => some ⟨tag, style, text⟩
  | _ => none

namespace Scalar

/-- 型の名札の全体の名。 -/
def typeName (name : String) : String := "tag:yaml.org,2002:" ++ name

/-- 型 `name` の語として読むか。引用符のないものか、その型の名札をつけて行を改めたまま書いたものを読む。 -/
def reads (s : Scalar) (name : String) : Bool :=
  s.style == .plain || (s.style == .literal && s.tag == some (typeName name))

/-- 書かれていない値か。 -/
def isMissing (s : Scalar) : Bool := s.style == .plain && s.text.isEmpty

/-- 欠けてもよい項目で、欠けたものとして読むか。空の名札をつけた値は、空の語でなければ読めない。 -/
def isAbsent (s : Scalar) : Option Bool :=
  if s.style ≠ .plain then some false
  else
    match s.tag with
    | none => some (s.text.isEmpty || isNull s.text)
    | some tag =>
      if tag = typeName "null" then if isNull s.text then some true else none else some false

end Scalar

/-! ## 形に沿った読み -/

def text (node : Node Nat) : Reader Data := do return .text (← scalar? node).text

def flag (node : Node Nat) : Reader Data := do
  let s ← scalar? node
  if s.reads "bool" then return .flag (← flag? s.text) else failure

def natural (bound : Nat) (node : Node Nat) : Reader Data := do
  let s ← scalar? node
  if s.reads "int" then
    let n ← natural? s.text
    if n < bound then return .natural n else failure
  else failure

def choice (names : List String) (node : Node Nat) : Reader Data := do
  let s ← scalar? node
  if s.text ∈ names then return .text s.text else failure

/-- 値の読みかた。 -/
abbrev Read := Node Nat → Reader Data

def list (target : Target) (item : Read) : Read
  | .list _ items => do return .list (← items.mapM fun node => do item (← follow target node))
  | node => do if (← scalar? node).isMissing then return .list [] else failure

/-- 項目の読みかた。 -/
structure Member where
  key : String
  presence : Presence
  read : Read

/-- 項目の値を読む。 -/
def Member.slot (m : Member) (node : Node Nat) : Reader (Option Data) := do
  if m.presence = .optional then
    match scalar? node with
    | some s => if ← s.isAbsent then return none else some <$> m.read node
    | none => some <$> m.read node
  else some <$> m.read node

/-- 現れなかった項目の値。 -/
def Member.absent (m : Member) : Reader (Option Data) :=
  if m.presence = .required then failure else return none

/-- 読みかけの項目。まだ現れていなければ値を持たない。 -/
structure Draft where
  member : Member
  seen : Option (Option Data) := none

/-- 鍵の項目に値を入れる。 -/
def fill (key : String) (value : Option Data) (drafts : List Draft) : List Draft :=
  drafts.map fun d => if d.member.key == key then { d with seen := some value } else d

/-- 記録の項目を順に読む。 -/
def entries (target : Target) (drafts : List Draft) :
    List (Node Nat × Node Nat) → Reader (List Draft)
  | [] => return drafts
  | (key, node) :: rest => do
    let key := (← scalar? (← follow target key)).text
    match drafts.find? fun d => d.member.key == key with
    | none => entries target drafts rest
    | some { member, seen := none } =>
      let value ← member.slot (← follow target node)
      entries target (fill key value drafts) rest
    | some _ => failure

/-- 読み終えた項目の値。 -/
def close (drafts : List Draft) : Reader Data := do
  let slots ← drafts.mapM fun d =>
    match d.seen with
    | some value => return value
    | none => d.member.absent
  return .record slots

def record (target : Target) (members : List Member) : Read
  | .record _ es => do close (← entries target (members.map fun m => { member := m }) es)
  | node => do
    if (← scalar? node).isMissing then close (members.map fun m => { member := m }) else failure

mutual
/-- 形に沿った値を読む。 -/
def typed (target : Target) : Shape → Read
  | .text => text
  | .flag => flag
  | .natural bound => natural bound
  | .choice names => choice names
  | .list item => list target (typed target item)
  | .record ms => record target (members target ms)

/-- 項目の読みかたを並べる。 -/
def members (target : Target) : Members → List Member
  | .nil => []
  | .cons key presence shape rest => ⟨key, presence, typed target shape⟩ :: members target rest
end

/-- 文字列全体を、形に沿った一つの値として読む。文書がなければ、書かれていない値として読む。 -/
def read (shape : Shape) (s : String) : Option Data := do
  let node := (← Node.ofTokens? (← tokens s.toList)).getD .empty
  let (root, _) ← Node.numbered [] node
  let targets := (Node.targets root).reverse
  let target : Target := fun n => targets.lookup n
  let (d, _) ← (do typed target shape (← follow target root)).run (100 * root.events)
  return d

end SpecLineage.Yaml
