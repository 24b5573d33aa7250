import SpecLineage.Toml.Section
import SpecLineage.Data.Shape

/-!
# TOML から値を読む

形に沿って表から値を読む。記録は表のほか、項目の値だけを形の順に並べた並びからも読む。形に現れない名の項目と、
並びの余った値は読み飛ばす。日時は、記録を読むべき所では、形に現れない名だけを持つ表とみなす。
-/

namespace SpecLineage.Toml

/-- 空の表か並びか。 -/
def Node.isEmpty : Node → Bool
  | .list [] | .table _ [] | .tables [] => true
  | _ => false

/-- 名の一つを読む。その名だけを持ち値が空である表も、その名を表す。 -/
def choice (names : List String) : Node → Option Data
  | .text s => if s ∈ names then some (.text s) else none
  | .table _ [(s, node)] => if s ∈ names ∧ node.isEmpty then some (.text s) else none
  | _ => none

/-- 項目の読みかた。 -/
structure Member where
  key : String
  presence : Presence
  read : Node → Option Data

/-- 項目の値を読む。 -/
def Member.slot (m : Member) : Option Node → Option (Option Data)
  | none => if m.presence = .required then none else some none
  | some node => (m.read node).map some

/-- 表から記録を読む。 -/
def entries (ms : List Member) (es : Entries) : Option Data :=
  (ms.mapM fun (m : Member) => m.slot (es.get? m.key)).map .record

/-- 並びから記録を読む。足りない項目は欠けたものとする。 -/
def row : List Member → List Node → Option (List (Option Data))
  | [], _ => some []
  | m :: ms, [] => do return (← m.slot none) :: (← row ms [])
  | m :: ms, node :: nodes => do return (← m.slot (some node)) :: (← row ms nodes)

/-- 記録を読む。 -/
def record (ms : List Member) : Node → Option Data
  | .table _ es => entries ms es
  | .moment => entries ms []
  | .list nodes => (row ms nodes).map .record
  | .tables items => (row ms (items.map (.table .header))).map .record
  | _ => none

/-- 並びを読む。 -/
def list (item : Node → Option Data) : Node → Option Data
  | .list nodes => (nodes.mapM item).map .list
  | .tables items => (items.mapM fun es => item (.table .header es)).map .list
  | _ => none

mutual
/-- 形に沿った値を読む。 -/
def typed : Shape → Node → Option Data
  | .text, .text s => some (.text s)
  | .flag, .flag b => some (.flag b)
  | .natural bound, .integer n =>
    if 0 ≤ n ∧ n < bound then some (.natural n.toNat) else none
  | .choice names, node => choice names node
  | .list item, node => list (typed item) node
  | .record ms, node => record (members ms) node
  | _, _ => none

/-- 項目の読みかたを並べる。 -/
def members : Members → List Member
  | .nil => []
  | .cons key presence shape rest => ⟨key, presence, typed shape⟩ :: members rest
end

/-- 文字列全体を、形に沿った一つの値として読む。 -/
def read (shape : Shape) (s : String) : Option Data := do
  typed shape (.table .header (← table s))

end SpecLineage.Toml
