import SpecLineage.Document.Entity
import SpecLineage.Data.Tree

/-!
# 診断

解決の途中で見つけたことを、符号と文からなる診断として残す。解決が正しく終わったかどうかに関わるのは
誤りだけで、警告は関わらない。
-/

namespace SpecLineage

/-- 診断の重さ。 -/
inductive Severity where
  | error
  | warning
  deriving DecidableEq

namespace Severity

/-- データとしての名。 -/
def name : Severity → String
  | error => "error"
  | warning => "warning"

/-- 人に見せる名。 -/
def display : Severity → String
  | error => "ERROR"
  | warning => "WARN"

def all : List Severity := [error, warning]

instance : Layout Severity where
  shape := .choice (all.map name)
  toData severity := .text severity.name
  ofData?
    | .text s => all.find? (fun severity => severity.name == s)
    | _ => none
  ofData?_toData severity := by cases severity <;> rfl

end Severity

/-- 診断の符号。 -/
inductive DiagnosticCode where
  | maxInheritanceDepth
  | circularInheritance
  /-- 循環を許す設定で、循環をたどった。 -/
  | circularInheritanceAllowed
  | parentLoadError
  /-- ある種類の実体の識別子が重なった。 -/
  | duplicateId (kind : EntityKind)
  /-- 動詞と経路の組が重なった。 -/
  | duplicateEndpoint
  | missingDependency
  deriving DecidableEq

namespace DiagnosticCode

/-- 報告に現れる名。 -/
def name : DiagnosticCode → String
  | maxInheritanceDepth => "MAX_INHERITANCE_DEPTH"
  | circularInheritance => "CIRCULAR_INHERITANCE"
  | circularInheritanceAllowed => "CIRCULAR_INHERITANCE_ALLOWED"
  | parentLoadError => "PARENT_LOAD_ERROR"
  | duplicateId kind => "DUPLICATE_INHERITED_" ++ kind.label ++ "_ID"
  | duplicateEndpoint => "DUPLICATE_INHERITED_ENDPOINT"
  | missingDependency => "MISSING_INHERITED_DEPENDENCY"

def all : List DiagnosticCode :=
  [maxInheritanceDepth, circularInheritance, circularInheritanceAllowed, parentLoadError] ++
    EntityKind.all.map duplicateId ++ [duplicateEndpoint, missingDependency]

def ofName? (s : String) : Option DiagnosticCode := all.find? (fun code => code.name == s)

instance : Layout DiagnosticCode where
  shape := .choice (all.map name)
  toData code := .text code.name
  ofData?
    | .text s => ofName? s
    | _ => none
  ofData?_toData code := by
    cases code with
    | duplicateId kind => cases kind <;> decide +kernel
    | _ => decide +kernel

end DiagnosticCode

/-- 診断。重ねた文書についての診断は位置を持たず、行と桁を零とする。 -/
structure Diagnostic where
  message : String
  code : DiagnosticCode
  severity : Severity
  line : UInt32 := 0
  column : UInt32 := 0
  deriving DecidableEq

namespace Diagnostic

def error (code : DiagnosticCode) (message : String) : Diagnostic := { message, code, severity := .error }

def warning (code : DiagnosticCode) (message : String) : Diagnostic :=
  { message, code, severity := .warning }

def isError (d : Diagnostic) : Bool := d.severity == .error

/-- 人に見せる一行。位置は行が零でないときだけ添える。 -/
def render (d : Diagnostic) : String :=
  s!"[{d.severity.display}] {d.code.name}: {d.message}" ++
    if d.line = 0 then "" else s!" (line {d.line}, column {d.column})"

end Diagnostic

instance : Layout Diagnostic where
  shape := .record <|
    .one "message" String <| .one "code" DiagnosticCode <| .one "severity" Severity <|
    .one "line" UInt32 <| .one "column" UInt32 .nil
  toData d := .record
    [Slot.one d.message, Slot.one d.code, Slot.one d.severity, Slot.one d.line, Slot.one d.column]
  ofData?
    | .record [message, code, severity, line, column] => do
      return {
        message := ← Slot.one? message
        code := ← Slot.one? code
        severity := ← Slot.one? severity
        line := ← Slot.one? line
        column := ← Slot.one? column }
    | _ => none
  ofData?_toData _ := by simp

end SpecLineage
