import SpecLineage.Command.Help
import SpecLineage.FileTree
import SpecLineage.Lineage.Files
import SpecLineage.Lineage.Outcome

/-!
# 命令の実行

命令は、書類を読んで、書き出すものの列になる。列を順に書き出せば命令が終わる。読むことと書き出すことを分けるので、
命令の働きは書類の中身だけで決まる。
-/

namespace SpecLineage

/-- 書き出すもの。 -/
inductive Emission where
  /-- 標準出力に書く。 -/
  | out (text : String)
  /-- 標準エラー出力に書く。 -/
  | err (text : String)
  /-- 書類に書く。書けなければ、そこで命令を終える。 -/
  | save (path text : String)
  deriving DecidableEq

/-- 書き出すものの列と、命令の終わりの番号。 -/
structure Script where
  emissions : List Emission := []
  exit : Nat := 0
  deriving DecidableEq

namespace Script

/-- 前に書き出すものを加える。 -/
def after (s : Script) (emissions : List Emission) : Script :=
  { s with emissions := emissions ++ s.emissions }

/-- 誤りを知らせて終える。 -/
def failing (message : String) : Script := ⟨[.err s!"error: {message}\n"], 1⟩

/-- 文を一つ答えて終える。 -/
def telling (text : String) : Script := ⟨[.out text], 0⟩

/-- 使いかたを誤った命令。 -/
def misused : Script := ⟨[.err "usage: speclink <resolve|check|ancestors> <file> [flags]\n"], 2⟩

end Script

/-- 命令を実行する所。 -/
structure Workplace where
  /-- 今いる置き場所。 -/
  cwd : Path
  read? : ReadFile

/-- 命令の働きと、中身を求めた経路。 -/
structure Execution where
  script : Script
  consulted : List String

/-! ## 設定を探す -/

/-- 今いる所から根まで、設定の書類がありうる経路。近いものが先にある。 -/
def settingsPaths (cwd : Path) : List String :=
  (List.range (cwd.names.length + 1)).reverse.map fun n =>
    { cwd with names := cwd.names.take n ++ [Settings.fileName] : Path }.toString

/-- 設定の書類を読む。 -/
def readSettings (path : String) (bytes : ByteArray) : Except String Settings :=
  match String.fromUTF8? bytes with
  | none => .error s!"reading {path}: {notText}"
  | some text =>
    match Settings.parse text with
    | .error fault => .error s!"parsing {path}: {fault.message}"
    | .ok settings => .ok settings

/-- 最も近い設定の書類を読む。 -/
def Workplace.settings (w : Workplace) : Except String Settings :=
  match (settingsPaths w.cwd).findSome? fun path => (w.read? path).map (path, ·) with
  | none => .ok {}
  | some (path, bytes) => readSettings path bytes

/-! ## 書類を解く -/

/-- 書類の場所。 -/
def Workplace.locate (w : Workplace) (file : String) : Location :=
  Location.normalize (w.cwd.join (Path.ofString file)).toString

/-- 文書を読み込めないことを知らせる文。大もとの理由を添える。 -/
def loadingMessage (file : String) (fault : LoadFault) : String :=
  ": ".intercalate (["loading " ++ file, fault.message] ++ fault.reason?.toList)

/-- 書類を読み込み、系譜を解く。 -/
def Workplace.resolve (w : Workplace) (file : String) (options : Options) :
    Except String Resolution :=
  let load := Loader.files w.read?
  match load (w.locate file) with
  | .error fault => .error (loadingMessage file fault)
  | .ok d => .ok ({ load, options : Resolver }.resolve d (w.locate file))

/-! ## 書き出す -/

namespace Outcome

/-- 診断を一行ずつ知らせる。 -/
def report (o : Outcome) : List Emission :=
  (o.diagnostics.map Diagnostic.render ++ o.suppressedLines).map fun line => .err (line ++ "\n")

/-- 誤りがあれば、命令を失敗として終える。 -/
def ending (o : Outcome) : Script :=
  if o.valid then {} else .failing s!"resolution failed with {o.errorCount} error(s)"

/-- 文書を書式に従って書く。終わりには必ず改行を置く。 -/
def text (o : Outcome) (format : Format) (flatten : Bool) : String :=
  let text := (if flatten then o.flattened else o.resolved).render format
  if text.toList.getLast? = some '\n' then text else text ++ "\n"

end Outcome

namespace Command

/-- 解決した後に書き出すもの。 -/
def emit (file : String) (action : Action) (format : Format) (o : Outcome) : Script :=
  match action with
  | .resolve _ output flatten digest =>
    let text := o.text format flatten
    let document :=
      match output with
      | none => [.out text]
      | some path => [.save path text, .err s!"wrote {path}\n"]
    let digest := if digest then [.err s!"digest: {o.digest}\n"] else []
    o.ending.after (o.report ++ document ++ digest)
  | .check json =>
    let text := if json then Json.pretty o.reportTree ++ "\n" else o.render
    o.ending.after [.out text]
  | .ancestors =>
    let lines :=
      if o.ancestors.isEmpty then [file ++ " has no ancestors"] else o.ancestors
    ⟨o.report ++ lines.map fun line => .out (line ++ "\n"), 0⟩

/-- 書き出す書式を決める。書き出さない命令では、設定の書式の名を問わない。 -/
def format (c : Command) (s : Settings) : Except InvalidFormat Format :=
  match c.action with
  | .resolve name _ _ _ => s.format name
  | _ => .ok .yaml

/-- 命令を実行する。設定、書式、書類の順に調べ、最初の誤りで終える。 -/
def execute (c : Command) (w : Workplace) : Execution :=
  let consulted := settingsPaths w.cwd
  match w.settings with
  | .error message => ⟨.failing message, consulted⟩
  | .ok settings =>
    match c.format settings with
    | .error e => ⟨.failing e.message, consulted⟩
    | .ok format =>
      let consulted := consulted ++ [w.locate c.file]
      match w.resolve c.file (settings.options c.overrides) with
      | .error message => ⟨.failing message, consulted⟩
      | .ok r => ⟨emit c.file c.action format r.outcome, consulted ++ r.requests⟩

end Command

/-- 命令の行を読み、命令を実行するか、求められた文を答える。 -/
def Workplace.run (w : Workplace) (words : List String) : Execution :=
  match Command.ofWords? words with
  | none => ⟨.misused, []⟩
  | some (.run c) => c.execute w
  | some (.help none) => ⟨.telling Command.overview, []⟩
  | some (.help (some verb)) => ⟨.telling verb.guide, []⟩
  | some .version => ⟨.telling Command.versionText, []⟩

/-! ## 書類の木の上での実行 -/

/-- 命令の答え。 -/
structure Answer where
  exit : Nat
  out : String := ""
  err : String := ""
  /-- 命令の後の書類の木。 -/
  files : FileTree

/-- 書けなかったことを知らせる文。 -/
def savingMessage (path : String) (reason : String) : String := s!"error: writing {path}: {reason}\n"

/-- 書き出すものを順に書き出す。 -/
def Script.play (cwd : List String) (exit : Nat) (a : Answer) : List Emission → Answer
  | [] => { a with exit }
  | .out text :: es => play cwd exit { a with out := a.out ++ text } es
  | .err text :: es => play cwd exit { a with err := a.err ++ text } es
  | .save path text :: es =>
    match a.files.write cwd path text.toUTF8 with
    | .ok files => play cwd exit { a with files } es
    | .error fault => { a with err := a.err ++ savingMessage path fault.message, exit := 1 }

/-- 書類の木の、置き場所 `cwd` で命令を実行する。 -/
def FileTree.run (t : FileTree) (cwd : List String) (words : List String) : Answer :=
  let w : Workplace := { cwd := ⟨true, cwd⟩, read? := t.read? cwd }
  let script := (w.run words).script
  Script.play cwd script.exit { exit := script.exit, files := t } script.emissions

end SpecLineage
