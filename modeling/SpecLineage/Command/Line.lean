import SpecLineage.Settings

/-!
# 命令の行

命令は、解決して書き出す `resolve`、診断だけを見せる `check`、祖先を並べる `ancestors` の三つである。どれも書類を
一つとり、解決の設定を示す旗をとる。同じ旗を二度示すことはできない。循環を許す旗と許さない旗だけは、後に示したほうが
前のものを取り消す。詳しい記録を求める旗は受け取るだけで、命令の働きを変えない。案内か版を求める旗があれば、その先は
読まず、命令の代わりに求めに応じる。
-/

namespace SpecLineage

/-! ## 命令 -/

/-- すること。 -/
inductive Action where
  /-- 解決した文書を書き出す。 -/
  | resolve (format output : Option String) (flatten digest : Bool)
  /-- 診断だけを見せる。 -/
  | check (json : Bool)
  /-- 祖先を並べる。 -/
  | ancestors
  deriving DecidableEq

/-- 命令。 -/
structure Command where
  /-- 示されたままの書類の名。 -/
  file : String
  overrides : Overrides := {}
  action : Action
  deriving DecidableEq

namespace Command

/-! ## 旗 -/

/-- 旗。 -/
inductive Flag where
  | verbose
  | strategy
  | maxDepth
  | allowCircular
  | noAllowCircular
  | noConsistency
  | maxErrors
  | format
  | output
  | flatten
  | digest
  | json
  | help
  | version
  deriving DecidableEq

namespace Flag

def long : Flag → String
  | verbose => "verbose"
  | strategy => "strategy"
  | maxDepth => "max-depth"
  | allowCircular => "allow-circular"
  | noAllowCircular => "no-allow-circular"
  | noConsistency => "no-consistency"
  | maxErrors => "max-errors"
  | format => "format"
  | output => "output"
  | flatten => "flatten"
  | digest => "digest"
  | json => "json"
  | help => "help"
  | version => "version"

def short? : Flag → Option Char
  | verbose => some 'v'
  | output => some 'o'
  | help => some 'h'
  | version => some 'V'
  | _ => none

/-- とる値の名。値をとらない旗にはない。 -/
def valueName? : Flag → Option String
  | strategy => some "STRATEGY"
  | maxDepth => some "MAX_DEPTH"
  | maxErrors => some "MAX_ERRORS"
  | format => some "FORMAT"
  | output => some "OUTPUT"
  | _ => none

/-- 値をとるか。 -/
def takesValue (f : Flag) : Bool := f.valueName?.isSome

/-- 命令の代わりに、案内か版を求めるか。 -/
def isInquiry : Flag → Bool
  | help | version => true
  | _ => false

/-- どの命令でも使える旗。 -/
def shared : List Flag :=
  [strategy, verbose, maxDepth, allowCircular, noAllowCircular, noConsistency, maxErrors]

/-- 命令の前に置ける旗。 -/
def leading : List Flag := [verbose, help, version]

end Flag

/-! ## 示された値 -/

/-- 命令の種類。 -/
inductive Verb where
  | resolve
  | check
  | ancestors
  deriving DecidableEq

namespace Verb

def name : Verb → String
  | resolve => "resolve"
  | check => "check"
  | ancestors => "ancestors"

def all : List Verb := [resolve, check, ancestors]

def ofName? (s : String) : Option Verb := all.find? (·.name == s)

/-- その命令だけで使える旗。 -/
def own : Verb → List Flag
  | resolve => [.format, .output, .flatten, .digest]
  | check => [.json]
  | ancestors => []

/-- 使える旗。 -/
def flags (v : Verb) : List Flag := Flag.shared ++ v.own ++ [.help]

end Verb

/-- 求めること。 -/
inductive Request where
  | run (command : Command)
  /-- 使いかたの案内。命令を定めなければ、全体の案内である。 -/
  | help (verb : Option Verb)
  | version
  deriving DecidableEq

/-- 読みかけの行。示された旗は、値とともに逆順に並ぶ。 -/
structure Draft where
  file : Option String := none
  given : List (Flag × String) := []

namespace Draft

/-- 旗が示されたか。 -/
def has (d : Draft) (f : Flag) : Bool := d.given.any (·.1 == f)

/-- 旗の値。 -/
def value? (d : Draft) (f : Flag) : Option String := d.given.lookup f

/-- 命令の代わりに求められたこと。 -/
def inquiry? (d : Draft) (verb : Option Verb) : Option Request :=
  if d.has .help then some (.help verb)
  else if d.has .version then some .version
  else none

end Draft

/-- 64 桁の二進数に収まる自然数を読む。頭に正の符号があってもよい。 -/
def natural? (s : String) : Option Nat :=
  let ds :=
    match s.toList with
    | '+' :: ds => ds
    | ds => ds
  if ds.isEmpty || !ds.all Char.isDigit then none
  else
    let n := ds.foldl (fun acc c => acc * 10 + (c.toNat - '0'.toNat)) 0
    if n < UInt64.size then some n else none

/-- 旗の値として使えるか。 -/
def accepts (f : Flag) (value : String) : Bool :=
  match f with
  | .strategy => (Strategy.ofName value).toOption.isSome
  | .maxDepth | .maxErrors => (natural? value).isSome
  | .output => value != ""
  | _ => true

/-- 互いに取り消し合う旗。 -/
def opposite? : Flag → Option Flag
  | .allowCircular => some .noAllowCircular
  | .noAllowCircular => some .allowCircular
  | _ => none

/-- 旗を一つ加える。 -/
def give (d : Draft) (f : Flag) (value : String) : Option Draft :=
  if d.has f || !accepts f value then none
  else
    let given := d.given.filter fun (g, _) => some g != opposite? f
    some { d with given := (f, value) :: given }

/-- 書類を定める。 -/
def place (d : Draft) (file : String) : Option Draft :=
  if d.file.isSome || file = "" then none else some { d with file := some file }

/-! ## 行を読む -/

/-- 旗の値や書類の名になりうるか。負の符号だけの語は名である。 -/
def isPlainWord (word : String) : Bool := word == "-" || word.toList.head? != some '-'

/-- 一つの語の読み。 -/
inductive Step where
  | done (d : Draft)
  /-- 旗の値が、次の語に続く。 -/
  | awaiting (d : Draft) (f : Flag)

/-- 等号の前後に分ける。 -/
def splitEquals (cs : List Char) : List Char × Option (List Char) :=
  match cs.span (· != '=') with
  | (before, _ :: after) => (before, some after)
  | (before, []) => (before, none)

/-- 長い名の旗を読む。 -/
def readLong (flags : List Flag) (d : Draft) (cs : List Char) : Option Step := do
  let (name, attached) := splitEquals cs
  let f ← flags.find? fun f => f.long.toList == name
  match f.takesValue, attached with
  | true, some value => return .done (← give d f (String.ofList value))
  | true, none => return .awaiting d f
  | false, none => return .done (← give d f "")
  | false, some _ => none

/-- 短い名の旗の並びを読む。値をとる旗の後は、等号を除いて値になる。案内や版を求める旗の後は読まない。 -/
def readShort (flags : List Flag) (d : Draft) : List Char → Option Step
  | [] => some (.done d)
  | c :: cs => do
    let f ← flags.find? fun f => f.short? == some c
    if f.takesValue then
      match cs with
      | [] => return .awaiting d f
      | '=' :: value | value => return .done (← give d f (String.ofList value))
    else
      let d ← give d f ""
      if f.isInquiry then return .done d else readShort flags d cs

/-- 旗を一つ読む。 -/
def readFlag (flags : List Flag) (d : Draft) (word : String) : Option Step :=
  match word.toList with
  | '-' :: '-' :: cs => readLong flags d cs
  | '-' :: cs => readShort flags d cs
  | _ => none

/-- 命令の後の語を読む。`--` の後の語は、すべて書類の名とみる。案内を求める旗の後は読まない。 -/
def readWords (flags : List Flag) (d : Draft) : List String → Option Draft
  | [] => some d
  | word :: words =>
    if word = "--" then words.foldlM place d
    else if isPlainWord word then do readWords flags (← place d word) words
    else
      match readFlag flags d word with
      | none => none
      | some (.done d) => if d.has .help then some d else readWords flags d words
      | some (.awaiting d f) =>
        match words with
        | [] => none
        | value :: words =>
          if isPlainWord value then do readWords flags (← give d f value) words else none

/-- 示された値から命令を作る。 -/
def ofDraft (verb : Verb) (d : Draft) : Option Command := do
  let file ← d.file
  let overrides : Overrides := {
    maxDepth := (d.value? .maxDepth).bind natural?
    allowCircular :=
      if d.has .allowCircular then some true
      else if d.has .noAllowCircular then some false
      else none
    strategy := (d.value? .strategy).bind fun s => (Strategy.ofName s).toOption
    noConsistency := d.has .noConsistency
    maxErrors := (d.value? .maxErrors).bind natural? }
  let action :=
    match verb with
    | .resolve => .resolve (d.value? .format) (d.value? .output) (d.has .flatten) (d.has .digest)
    | .check => .check (d.has .json)
    | .ancestors => .ancestors
  return { file, overrides, action }

/-- 命令の後の語から、求めることを定める。 -/
def readRequest (verb : Verb) (words : List String) : Option Request := do
  let d ← readWords verb.flags {} words
  match d.inquiry? (some verb) with
  | some request => return request
  | none => return .run (← ofDraft verb d)

/-- 案内を求める語の後を読む。 -/
def readHelp : List String → Option Request
  | [] => some (.help none)
  | [word] => (Verb.ofName? word).map fun verb => .help (some verb)
  | _ => none

/-- 命令の前の旗と命令を読む。 -/
def readVerb (d : Draft) : List String → Option Request
  | [] => none
  | word :: words =>
    if word = "help" then readHelp words
    else if isPlainWord word then do readRequest (← Verb.ofName? word) words
    else if word = "--" then none
    else
      match readFlag Flag.leading d word with
      | some (.done d) => (d.inquiry? none).or (readVerb d words)
      | _ => none

/-- 命令の行を読む。使いかたを誤っていれば、求めることはない。 -/
def ofWords? (words : List String) : Option Request := readVerb {} words

end Command

end SpecLineage
