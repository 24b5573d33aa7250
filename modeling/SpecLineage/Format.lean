import SpecLineage.Path
import SpecLineage.Document.Basic
import SpecLineage.Json.Read
import SpecLineage.Json.Write
import SpecLineage.Yaml.Read
import SpecLineage.Yaml.Write
import SpecLineage.Toml.Read
import SpecLineage.Toml.Write

/-!
# 文書の書式

文書は YAML、JSON、TOML のどれかで読み書きする。書式は名か、経路の拡張子から決める。
-/

namespace SpecLineage

/-- 文書の書式。 -/
inductive Format where
  | yaml
  | json
  | toml
  deriving DecidableEq

/-- 書式が決まらない、または文書として読めない理由。 -/
inductive FormatFault where
  | yaml
  | json (fault : Json.Fault)
  | toml
  /-- 拡張子から書式が決まらない経路。 -/
  | unknownFormat (path : String)
  /-- 知らない書式の名。 -/
  | unknownFormatName (name : String)
  deriving DecidableEq

def Json.Fault.message : Json.Fault → String
  | .truncated => "unexpected end of text"
  | .malformed => "malformed text"
  | .mismatched => "value does not fit the document"

def FormatFault.message : FormatFault → String
  | yaml => "YAML error: text does not fit the document"
  | json fault => "JSON error: " ++ fault.message
  | toml => "TOML parse error: text does not fit the document"
  | unknownFormat path => "unrecognized document format for " ++ path
  | unknownFormatName name => s!"unknown format name '{name}' (expected yaml, json or toml)"

namespace Format

def name : Format → String
  | yaml => "yaml"
  | json => "json"
  | toml => "toml"

/-- 小文字の名の書式。 -/
def ofLower? (s : String) : Option Format :=
  if s = "yaml" ∨ s = "yml" then some yaml
  else if s = "json" then some json
  else if s = "toml" then some toml
  else none

/-- 名から書式を引く。ASCII の大文字と小文字を区別しない。 -/
def ofName (s : String) : Except FormatFault Format :=
  match ofLower? s.toLower with
  | some format => .ok format
  | none => .error (.unknownFormatName s.toLower)

/-- 経路の拡張子から書式を決める。 -/
def ofPath (path : String) : Except FormatFault Format :=
  match (Path.ofString path).extension?.bind fun e => ofLower? e.toLower with
  | some format => .ok format
  | none => .error (.unknownFormat path)

end Format

namespace Document

/-- 名札つきの木としての文書。 -/
def tree (d : Document) : Tree := (Layout.shape Document).tree (Layout.toData d)

/-- 文書を読む。 -/
def parse (format : Format) (text : String) : Except FormatFault Document :=
  match format with
  | .json =>
    match Json.read (Layout.shape Document) text with
    | .error fault => .error (.json fault)
    | .ok d =>
      match Layout.ofData? d with
      | some document => .ok document
      | none => .error (.json .mismatched)
  | .yaml =>
    match (Yaml.read (Layout.shape Document) text).bind Layout.ofData? with
    | some document => .ok document
    | none => .error .yaml
  | .toml =>
    match (Toml.read (Layout.shape Document) text).bind Layout.ofData? with
    | some document => .ok document
    | none => .error .toml

/-- 文書を書く。 -/
def render (format : Format) (d : Document) : String :=
  match format with
  | .json => Json.pretty d.tree
  | .yaml => Yaml.write d.tree
  | .toml => Toml.write d.tree

end Document

end SpecLineage
