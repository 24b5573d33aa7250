import SpecLineage.Document.Basic

/-!
# 形に沿った値

`Data` は形を持たないので、形に沿う値だけを `Fits` で定める。記録では、名札が互いに異なることも求める。文書を作る型の
値は、写せばどれもその型の形に沿う。
-/

namespace SpecLineage

mutual
/-- 形に沿った値。 -/
inductive Fits : Shape → Data → Prop
  | text (s : String) : Fits .text (.text s)
  | flag (b : Bool) : Fits .flag (.flag b)
  | natural {bound n : Nat} : n < bound → bound ≤ UInt64.size → Fits (.natural bound) (.natural n)
  | choice {names : List String} {s : String} : s ∈ names → Fits (.choice names) (.text s)
  | list {item : Shape} {ds : List Data} : (∀ d ∈ ds, Fits item d) → Fits (.list item) (.list ds)
  | record {ms : Members} {slots : List (Option Data)} :
    ms.keys.Nodup → FitsAll ms slots → Fits (.record ms) (.record slots)

/-- 項目の値がどれも項目の形に沿い、欠けてはならない項目が欠けていない。 -/
inductive FitsAll : Members → List (Option Data) → Prop
  | nil : FitsAll .nil []
  | absent {key : String} {presence : Presence} {shape : Shape} {ms : Members}
    {slots : List (Option Data)} :
    presence ≠ .required → FitsAll ms slots →
      FitsAll (.cons key presence shape ms) (none :: slots)
  | present {key : String} {presence : Presence} {shape : Shape} {ms : Members} {d : Data}
    {slots : List (Option Data)} :
    Fits shape d → FitsAll ms slots → FitsAll (.cons key presence shape ms) (some d :: slots)
end

/-- 写した値がいつも形に沿う並べかた。 -/
class FittingLayout (α : Type) [Layout α] : Prop where
  fits (a : α) : Fits (Layout.shape α) (Layout.toData a)

variable {α : Type} [Layout α] [FittingLayout α]

instance : FittingLayout String := ⟨.text⟩

instance : FittingLayout Bool := ⟨.flag⟩

instance : FittingLayout UInt32 := ⟨fun n => .natural n.toNat_lt (by decide)⟩

instance : FittingLayout (List α) where
  fits as := .list fun d hd => by
    obtain ⟨a, -, rfl⟩ := List.mem_map.mp hd
    exact FittingLayout.fits a

/-! ## 記録の項目 -/

namespace FitsAll

variable {key : String} {ms : Members} {slots : List (Option Data)}

theorem one (a : α) (h : FitsAll ms slots) : FitsAll (.one key α ms) (Slot.one a :: slots) :=
  .present (FittingLayout.fits a) h

theorem maybe (a : Option α) (h : FitsAll ms slots) :
    FitsAll (.maybe key α ms) (Slot.maybe a :: slots) := by
  cases a with
  | none => exact .absent (fun h => nomatch h) h
  | some a => exact .present (FittingLayout.fits a) h

theorem default (a : α) (h : FitsAll ms slots) :
    FitsAll (.default key α ms) (Slot.one a :: slots) :=
  .present (FittingLayout.fits a) h

theorem many (as : List α) (h : FitsAll ms slots) :
    FitsAll (.default key (List α) ms) (Slot.many as :: slots) := by
  cases as with
  | nil => exact .absent (fun h => nomatch h) h
  | cons a as => exact default (a :: as) h

end FitsAll

/-! ## 文書を作る型 -/

instance : FittingLayout Metadata where
  fits _ := .record (by decide) <|
    .maybe _ <| .maybe _ <| .maybe _ <| .maybe _ <| .maybe _ <| .many _ .nil

instance : FittingLayout BusinessRule where
  fits _ := .record (by decide) <|
    .one _ <| .maybe _ <| .maybe _ <| .maybe _ <| .maybe _ <| .maybe _ <| .many _ .nil

instance : FittingLayout Field where
  fits _ := .record (by decide) <| .one _ <| .maybe _ <| .maybe _ <| .maybe _ .nil

instance : FittingLayout Relationship where
  fits _ := .record (by decide) <| .one _ <| .maybe _ <| .maybe _ .nil

instance : FittingLayout Index where
  fits _ := .record (by decide) <| .maybe _ <| .default _ <| .maybe _ .nil

instance : FittingLayout DataStructure where
  fits _ := .record (by decide) <|
    .one _ <| .maybe _ <| .maybe _ <| .many _ <| .many _ <| .many _ <| .many _ .nil

instance : FittingLayout Parameter where
  fits _ := .record (by decide) <| .one _ <| .maybe _ <| .maybe _ <| .maybe _ .nil

instance : FittingLayout ApiEndpoint where
  fits _ := .record (by decide) <|
    .one _ <| .maybe _ <| .maybe _ <| .maybe _ <| .maybe _ <| .maybe _ <| .maybe _ <| .maybe _ <|
    .many _ .nil

instance : FittingLayout WorkflowStep where
  fits _ := .record (by decide) <|
    .one _ <| .maybe _ <| .maybe _ <| .maybe _ <| .maybe _ <| .many _ <| .many _ .nil

instance : FittingLayout AiContext where
  fits _ := .record (by decide) <|
    .maybe _ <| .many _ <| .many _ <| .many _ <| .maybe _ .nil

instance : FittingLayout AuditEntry where
  fits _ := .record (by decide) <| .maybe _ <| .maybe _ <| .one _ <| .maybe _ .nil

instance : FittingLayout Governance where
  fits _ := .record (by decide) <|
    .maybe _ <| .maybe _ <| .maybe _ <| .maybe _ <| .many _ <| .many _ .nil

instance : FittingLayout Document where
  fits _ := .record (by decide) <|
    .default _ <| .many _ <| .many _ <| .many _ <| .many _ <| .many _ <| .many _ <| .many _ <|
    .maybe _ <| .maybe _ .nil

end SpecLineage
