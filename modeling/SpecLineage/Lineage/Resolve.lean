import SpecLineage.Lineage.Cache
import SpecLineage.Lineage.Session
import SpecLineage.Format
import SpecLineage.Merge.Basic
import SpecLineage.Consistency

/-!
# 系譜を解く

文書の親への参照を深さを先にたどり、読み込んだ祖先を文書の下に重ねていく。積み上げた結果がいつも上に、新しい
親がいつも下に来るから、勝つのは文書、一番目の親、二番目の親の順である。

参照が解けない、文書が読み込めない、輪が閉じる、深さが越える、といったことはすべて診断に残し、解決は必ず文書を
返す。
-/

namespace SpecLineage

/-! ## 読み込み -/

/-- 文書を読み込めない理由。 -/
inductive LoadFault where
  | notFound (location : Location)
  /-- 文書はあるが中身を取り出せない。 -/
  | unreadable (path : String) (reason : String)
  /-- 中身が文書として読めない。 -/
  | invalid (location : Location) (cause : FormatFault)
  deriving DecidableEq

namespace LoadFault

/-- 大もとの理由。 -/
def reason? : LoadFault → Option String
  | notFound _ => none
  | unreadable _ reason => some reason
  | invalid _ cause => some cause.message

def message : LoadFault → String
  | notFound location => "document not found: " ++ location
  | unreadable path reason => s!"I/O error reading {path}: {reason}"
  | invalid location cause => s!"invalid document at {location}: {cause.message}"

end LoadFault

/-- 場所から文書を読み込む仕方。同じ場所にはいつも同じ答えを返す。 -/
abbrev Loader := Location → Except LoadFault Document

/-- 解決に与えるもの。 -/
structure Resolver where
  load : Loader
  addressing : Addressing := .path
  options : Options := {}

/-! ## たどる途中の控え -/

/-- 一回の解決の控えと、外から渡された蓄えと、読み込みを頼んだ場所。 -/
structure Walk where
  session : Session
  cache : Option Cache
  /-- 読み込みを頼んだ場所。頼んだ順に並ぶ。 -/
  requests : List Location := []

namespace Walk

def record (w : Walk) (d : Diagnostic) : Walk := { w with session := w.session.record d }

def enter (w : Walk) (l : Location) : Walk := { w with session := w.session.enter l }

def leave (w : Walk) : Walk := { w with session := w.session.leave }

def remember (w : Walk) (l : Location) (d : Document) : Walk :=
  { w with session := w.session.remember l d }

/-- 読み込みを頼む。読み込めた文書は蓄え、覚える。 -/
def request (load : Loader) (w : Walk) (l : Location) : Except LoadFault Document × Walk :=
  let w := { w with requests := w.requests ++ [l] }
  match load l with
  | .ok d => (.ok d, { w with cache := w.cache.map (Cache.insert · l d) }.remember l d)
  | .error fault => (.error fault, w)

/-- 文書を取り出す。この解決で覚えた文書、蓄えの文書、読み込みの順に求める。 -/
def fetch (load : Loader) (w : Walk) (l : Location) : Except LoadFault Document × Walk :=
  match w.session.cached l with
  | some d => (.ok d, w)
  | none =>
    match w.cache.map (Cache.get · l) with
    | none => w.request load l
    | some (some d, cache) => (.ok d, { w with cache := some cache }.remember l d)
    | some (none, cache) => { w with cache := some cache }.request load l

end Walk

/-! ## 診断の文 -/

/-- 輪を矢印でつないで書く。 -/
def arrowed (path : List Location) : String := " -> ".intercalate path

def circular (path : List Location) : Diagnostic :=
  .error .circularInheritance ("circular inheritance: " ++ arrowed path)

def circularAllowed (path : List Location) : Diagnostic :=
  .warning .circularInheritanceAllowed ("following circular inheritance: " ++ arrowed path)

def tooDeep (maxDepth : Nat) (base : Location) : Diagnostic :=
  .error .maxInheritanceDepth
    s!"inheritance chain deeper than {maxDepth} at {base} (depth {maxDepth + 1})"

def unresolved (fault : InvalidReference) : Diagnostic := .error .parentLoadError fault.message

def unloaded (reference : String) (l : Location) (fault : LoadFault) : Diagnostic :=
  .error .parentLoadError s!"failed to load parent '{reference}' ({l}): {fault.message}"

/-! ## たどる -/

namespace Resolver

variable (r : Resolver)

/-- 親への参照を一つたどり、解いた親を積み上げた結果の下に重ねる。`visit` は親の系譜を解く。 -/
def follow (visit : Document → Location → Walk → Document × Walk) (base : Location)
    (state : Document × Walk) (reference : String) : Document × Walk :=
  let (result, w) := state
  match r.addressing.resolve reference base with
  | .error fault => (result, w.record (unresolved fault))
  | .ok l =>
    let closes := w.session.inProgress l
    if closes && !r.options.allowCircular then (result, w.record (circular (w.session.cycle l)))
    else
      let w := if closes then w.record (circularAllowed (w.session.cycle l)) else w
      match (w.enter l).fetch r.load l with
      | (.error fault, w) => (result, (w.record (unloaded reference l fault)).leave)
      | (.ok parent, w) =>
        let (parent, w) := visit parent l w
        (Document.merge r.options.strategy parent result, w.leave)

/-- 場所 `base` の文書の系譜を解く。`left` は、あと何段まで親をたどれるかを表す。 -/
def visit : (left : Nat) → Document → (base : Location) → Walk → Document × Walk
  | 0, d, base, w => (d, w.record (tooDeep r.options.maxDepth base))
  | left + 1, d, base, w => d.parents.foldl (r.follow (visit left) base) (d, w)

end Resolver

/-! ## 解決の結果 -/

/-- 解決の結果。 -/
structure Outcome where
  /-- 誤りが一つもないか。警告は関わらない。 -/
  valid : Bool
  errors : List Diagnostic
  warnings : List Diagnostic
  resolved : Document
  /-- 読み込んだ祖先。初めて読み込んだ順に並ぶ。 -/
  ancestors : List Location
  /-- 上限を越えて書き留めなかった誤りの数。 -/
  suppressed : Nat
  deriving DecidableEq

/-- 解決の結果と、解決の後の蓄えと、読み込みを頼んだ場所。 -/
structure Resolution where
  outcome : Outcome
  cache : Option Cache
  requests : List Location

namespace Resolver

variable (r : Resolver)

/-- 場所 `base` にある文書の系譜を解く。親のない文書はそのまま返し、検査もしない。 -/
def resolve (d : Document) (base : String) (cache : Option Cache := none) : Resolution :=
  if d.hasParents then
    let root := r.addressing.normalize base
    let start : Walk := { session := { maxErrors := r.options.maxErrors }, cache }
    let (resolved, w) := r.visit (r.options.maxDepth + 1) d root (start.enter root)
    let session := if r.options.checkConsistency then w.session.recordAll resolved.check else w.session
    { outcome := {
        valid := session.isValid
        errors := session.errors
        warnings := session.warnings
        resolved
        ancestors := session.ancestors
        suppressed := session.suppressed }
      cache := w.cache
      requests := w.requests }
  else
    { outcome := {
        valid := true
        errors := []
        warnings := []
        resolved := d
        ancestors := []
        suppressed := 0 }
      cache
      requests := [] }

end Resolver

end SpecLineage
