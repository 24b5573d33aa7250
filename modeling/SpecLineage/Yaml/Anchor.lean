import SpecLineage.Yaml.Node

/-!
# YAML の目印の番号

目印の名を番号に置き換え、番号から値を引く。目印に出会うと、それまでに現れた名の数を番号とする。同じ名が二度現れると、
次の名と番号が重なることがあり、そのときは後に始まる値だけが引ける。
-/

namespace SpecLineage.Yaml

/-- 目印の名と番号。 -/
abbrev Anchors := List (String × Nat)

namespace Anchors

/-- 名に新しい番号をつける。 -/
def define (names : Anchors) (name : String) : Anchors :=
  (name, names.length) :: names.filter (·.1 != name)

/-- 目印があれば番号をつける。 -/
def number (names : Anchors) : Option String → Option Nat × Anchors
  | none => (none, names)
  | some name => (some names.length, names.define name)

end Anchors

namespace Node

mutual
/-- 目印の名を番号に置き換える。引く名は、前に現れていなければならない。 -/
def numbered (names : Anchors) : Node String → Option (Node Nat × Anchors)
  | .scalar anchor tag style text =>
    let (n, names) := names.number anchor
    some (.scalar n tag style text, names)
  | .list anchor items => do
    let (n, names) := names.number anchor
    let (items, names) ← numberedItems names items
    return (.list n items, names)
  | .record anchor entries => do
    let (n, names) := names.number anchor
    let (entries, names) ← numberedEntries names entries
    return (.record n entries, names)
  | .alias name => do return (.alias (← names.lookup name), names)

def numberedItems (names : Anchors) : List (Node String) → Option (List (Node Nat) × Anchors)
  | [] => some ([], names)
  | node :: nodes => do
    let (node, names) ← numbered names node
    let (nodes, names) ← numberedItems names nodes
    return (node :: nodes, names)

def numberedEntries (names : Anchors) :
    List (Node String × Node String) → Option (List (Node Nat × Node Nat) × Anchors)
  | [] => some ([], names)
  | (key, node) :: rest => do
    let (key, names) ← numbered names key
    let (node, names) ← numbered names node
    let (rest, names) ← numberedEntries names rest
    return ((key, node) :: rest, names)
end

mutual
/-- 目印のついた値を、始まる順に並べる。 -/
def targets : Node Nat → List (Nat × Node Nat)
  | node@(.scalar anchor _ _ _) => anchor.toList.map (·, node)
  | node@(.list anchor items) => anchor.toList.map (·, node) ++ targetsOfItems items
  | node@(.record anchor entries) => anchor.toList.map (·, node) ++ targetsOfEntries entries
  | .alias _ => []

def targetsOfItems : List (Node Nat) → List (Nat × Node Nat)
  | [] => []
  | node :: nodes => targets node ++ targetsOfItems nodes

def targetsOfEntries : List (Node Nat × Node Nat) → List (Nat × Node Nat)
  | [] => []
  | (key, node) :: rest => targets key ++ targets node ++ targetsOfEntries rest
end

mutual
/-- 値の始まりと終わりの数。 -/
def events : Node Nat → Nat
  | .scalar _ _ _ _ | .alias _ => 1
  | .list _ items => 2 + eventsOfItems items
  | .record _ entries => 2 + eventsOfEntries entries

def eventsOfItems : List (Node Nat) → Nat
  | [] => 0
  | node :: nodes => events node + eventsOfItems nodes

def eventsOfEntries : List (Node Nat × Node Nat) → Nat
  | [] => 0
  | (key, node) :: rest => events key + events node + eventsOfEntries rest
end

end Node

end SpecLineage.Yaml
