import SpecLineage.Options
import SpecLineage.Format
import SpecLineage.Toml.Read

/-!
# 道具の設定

設定の書類は、解決の設定と書き出す書式を定める。命令の行で示した値が書類の値に優先し、どちらにもなければ既定の値を
とる。
-/

namespace SpecLineage

/-! ## 書類 -/

/-- 書類に書く、解決の設定。 -/
structure ResolveSettings where
  maxDepth : Option UInt64 := none
  allowCircular : Option Bool := none
  strategy : Option Strategy := none
  checkConsistency : Option Bool := none
  maxErrors : Option UInt64 := none
  deriving DecidableEq

instance : Layout ResolveSettings where
  shape := .record <|
    .maybe "max_depth" UInt64 <| .maybe "allow_circular" Bool <| .maybe "merge_strategy" Strategy <|
    .maybe "validate_consistency" Bool <| .maybe "max_errors" UInt64 .nil
  toData s := .record
    [Slot.maybe s.maxDepth, Slot.maybe s.allowCircular, Slot.maybe s.strategy,
      Slot.maybe s.checkConsistency, Slot.maybe s.maxErrors]
  ofData?
    | .record [maxDepth, allowCircular, strategy, checkConsistency, maxErrors] => do
      return {
        maxDepth := ← Slot.maybe? maxDepth
        allowCircular := ← Slot.maybe? allowCircular
        strategy := ← Slot.maybe? strategy
        checkConsistency := ← Slot.maybe? checkConsistency
        maxErrors := ← Slot.maybe? maxErrors }
    | _ => none
  ofData?_toData _ := by simp

/-- 書類に書く、書き出しの設定。 -/
structure OutputSettings where
  /-- 書式の名。使うまでは、知っている名かどうかを問わない。 -/
  format : Option String := none
  deriving DecidableEq

instance : Layout OutputSettings where
  shape := .record <| .maybe "format" String .nil
  toData s := .record [Slot.maybe s.format]
  ofData?
    | .record [format] => do return { format := ← Slot.maybe? format }
    | _ => none
  ofData?_toData _ := by simp

/-- 設定の書類。 -/
structure Settings where
  resolve : ResolveSettings := {}
  output : OutputSettings := {}
  deriving DecidableEq

instance : Layout Settings where
  shape := .record <| .default "resolve" ResolveSettings <| .default "output" OutputSettings .nil
  toData s := .record [Slot.one s.resolve, Slot.one s.output]
  ofData?
    | .record [resolve, output] => do
      return {
        resolve := (← Slot.maybe? resolve).getD {}
        output := (← Slot.maybe? output).getD {} }
    | _ => none
  ofData?_toData _ := by simp

/-! ## 命令の行で示した値 -/

/-- 命令の行で示した、解決の設定。 -/
structure Overrides where
  maxDepth : Option Nat := none
  allowCircular : Option Bool := none
  strategy : Option Strategy := none
  /-- 整合の検査を省くか。 -/
  noConsistency : Bool := false
  maxErrors : Option Nat := none
  deriving DecidableEq

/-- 書き出す書式として使えない名。 -/
structure InvalidFormat where
  name : String
  cause : FormatFault

def InvalidFormat.message (e : InvalidFormat) : String :=
  s!"invalid output format '{e.name}': {e.cause.message}"

namespace Settings

/-- 書類の名。 -/
def fileName : String := "speclink.toml"

/-- 書類を読む。 -/
def parse (text : String) : Except FormatFault Settings :=
  match (Toml.read (Layout.shape Settings) text).bind Layout.ofData? with
  | some settings => .ok settings
  | none => .error .toml

/-- 解決の設定。 -/
def options (s : Settings) (o : Overrides) : Options :=
  let d : Options := {}
  let file := s.resolve
  { maxDepth := (o.maxDepth <|> file.maxDepth.map UInt64.toNat).getD d.maxDepth
    allowCircular := (o.allowCircular <|> file.allowCircular).getD d.allowCircular
    strategy := (o.strategy <|> file.strategy).getD d.strategy
    checkConsistency := !o.noConsistency && file.checkConsistency.getD d.checkConsistency
    maxErrors := o.maxErrors <|> file.maxErrors.map UInt64.toNat }

/-- 書き出す書式。`name` は命令の行で示した書式の名である。 -/
def format (s : Settings) (name : Option String) : Except InvalidFormat Format :=
  match name <|> s.output.format with
  | none => .ok .yaml
  | some name =>
    match Format.ofName name with
    | .ok format => .ok format
    | .error cause => .error ⟨name, cause⟩

end Settings

end SpecLineage
