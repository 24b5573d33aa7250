import SpecLineage.Command.Line

/-!
# 命令の案内

案内は、すること、使いかた、選べるものの表をこの順に並べる。表は見出しと説明の二つの欄からなり、見出しの欄の幅は、
その表の最も長い見出しに合わせる。
-/

namespace SpecLineage

namespace Command

/-! ## 説明の文 -/

/-- 旗の説明。 -/
def Flag.about : Flag → String
  | verbose => "Enable debug logging (overridden by SPECLINK_LOG)"
  | strategy => "Merge strategy (override, merge, append)"
  | maxDepth => "Maximum `extends` nesting depth"
  | allowCircular => "Follow circular references instead of rejecting them"
  | noAllowCircular => "Reject circular references even if speclink.toml allows them"
  | noConsistency => "Skip the post-merge consistency checks"
  | maxErrors => "Stop storing errors after this many"
  | format => "Output format (yaml, json, toml)"
  | output => "Write the composed document to a file instead of stdout"
  | flatten => "Drop the `extends` list from the output"
  | digest => "Print the content digest of the composed document to stderr"
  | json => "Print the full outcome as JSON"
  | help => "Print help"
  | version => "Print version"

/-- 命令の説明。 -/
def Verb.about : Verb → String
  | resolve => "Resolve a document and print the composed result"
  | check => "Resolve a document and report diagnostics only"
  | ancestors => "List the ancestors a document inherits from"

/-- 書類の説明。 -/
def Verb.aboutFile : Verb → String
  | resolve => "Document to resolve (.yaml, .yml, .json or .toml)"
  | check => "Document to check"
  | ancestors => "Document to inspect"

/-! ## 表 -/

/-- 旗の見出し。短い名のない旗は、その分だけ空ける。 -/
def Flag.heading (f : Flag) : String :=
  let short :=
    match f.short? with
    | some c => s!"-{c}, "
    | none => "    "
  let value :=
    match f.valueName? with
    | some name => s!" <{name}>"
    | none => ""
  short ++ "--" ++ f.long ++ value

/-- 見出しと説明を二つの欄に並べる。 -/
def columns (rows : List (String × String)) : List String :=
  let width := rows.foldl (fun w (heading, _) => max w heading.length) 0
  rows.map fun (heading, about) =>
    "  " ++ heading.pushn ' ' (width - heading.length) ++ "  " ++ about

/-- 題のついた表。 -/
def table (title : String) (rows : List (String × String)) : String :=
  "\n".intercalate (title :: columns rows)

/-- 旗の表。 -/
def options (flags : List Flag) : String :=
  table "Options:" (flags.map fun f => (f.heading, f.about))

/-! ## 案内 -/

/-- 案内の各部を、空いた行で隔てて並べる。 -/
def layOut (parts : List String) : String := "\n\n".intercalate parts ++ "\n"

/-- 全体の案内。 -/
def overview : String :=
  let verbs := Verb.all.map fun v => (v.name, v.about)
  let help := ("help", "Print this message or the help of the given subcommand(s)")
  layOut [
    "Specification inheritance resolver",
    "Usage: speclink [OPTIONS] <COMMAND>",
    table "Commands:" (verbs ++ [help]),
    options Flag.leading]

/-- 命令の案内。 -/
def Verb.guide (v : Verb) : String :=
  layOut [
    v.about,
    s!"Usage: speclink {v.name} [OPTIONS] <FILE>",
    table "Arguments:" [("<FILE>", v.aboutFile)],
    options v.flags]

/-- 版を示す文。 -/
def versionText : String := "speclink 0.1.0\n"

end Command

end SpecLineage
