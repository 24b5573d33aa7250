import SpecLineage.Lineage.Resolve
import SpecLineage.Digest

/-!
# 解決の結果の書きかた

解決の結果を、人に見せる文と名札つきの木にする。
-/

namespace SpecLineage

def Diagnostic.tree (d : Diagnostic) : Tree := (Layout.shape Diagnostic).tree (Layout.toData d)

namespace Outcome

/-- 誤りの後に警告を並べる。 -/
def diagnostics (o : Outcome) : List Diagnostic := o.errors ++ o.warnings

/-- その符号を持つ診断の数。 -/
def count (o : Outcome) (code : DiagnosticCode) : Nat := o.diagnostics.countP (·.code == code)

/-- 書き留めなかったものも含めた誤りの数。 -/
def errorCount (o : Outcome) : Nat := o.errors.length + o.suppressed

/-- 親への参照を消した文書。もう一度解いても変わらない。 -/
def flattened (o : Outcome) : Document := o.resolved.withoutParents

/-- 解いた文書の指紋。 -/
def digest (o : Outcome) : String := Digest.ofDocument o.resolved

/-- 書き留めなかった誤りがあることを知らせる行。 -/
def suppressedLines (o : Outcome) : List String :=
  if o.suppressed = 0 then [] else [s!"... {o.suppressed} more errors suppressed"]

/-- 人に見せる文。 -/
def render (o : Outcome) : String :=
  let status := if o.valid then "OK" else "FAILED"
  let head :=
    [s!"=== Resolution {status} ===",
      s!"Ancestors: {o.ancestors.length} | Errors: {o.errorCount} | Warnings: {o.warnings.length}"]
  let body := (o.diagnostics.map Diagnostic.render ++ o.suppressedLines).map ("  " ++ ·)
  String.join ((head ++ body).map (· ++ "\n"))

/-- 結果の木。`document` を添えれば、解いた文書として含める。 -/
def treeWith (o : Outcome) (document : Option Tree) : Tree :=
  .record <|
    [("valid", .flag o.valid), ("errors", .list (o.errors.map Diagnostic.tree)),
      ("warnings", .list (o.warnings.map Diagnostic.tree))] ++
    (document.map (("resolvedDocument", ·))).toList ++
    [("ancestors", .list (o.ancestors.map Tree.text))] ++
    (if o.suppressed = 0 then [] else [("suppressedErrors", .natural o.suppressed)])

/-- 解いた文書を含む結果の木。 -/
def tree (o : Outcome) : Tree := o.treeWith (some o.resolved.tree)

/-- 解いた文書を除いた結果の木。 -/
def reportTree (o : Outcome) : Tree := o.treeWith none

end Outcome

end SpecLineage
