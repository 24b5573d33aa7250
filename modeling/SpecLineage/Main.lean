import SpecLineage.Command.Run

/-!
# 命令としての入り口

書類を読み、命令の働きを決め、順に書き出す。働きを決めるのに新しい書類が要るとわかったら、読んで決め直す。
-/

namespace SpecLineage

/-- 読んだ書類。書類でない経路は中身を持たない。 -/
abbrev Known := List (String × Option ByteArray)

/-- 書類を読む。 -/
def readKnown (path : String) : IO (String × Option ByteArray) := do
  try
    let bytes ← IO.FS.readBinFile path
    return (path, some bytes)
  catch _ => return (path, none)

/-- 求める書類がすべて読めるまで、命令の働きを決め直す。 -/
partial def settleScript (cwd : Path) (words : List String) (known : Known) : IO Script := do
  let w : Workplace := { cwd, read? := fun path => (known.lookup path).join }
  let e := w.run words
  let unread := (e.consulted.filter fun path => (known.lookup path).isNone).eraseDups
  if unread.isEmpty then return e.script
  settleScript cwd words (known ++ (← unread.mapM readKnown))

/-- 書き出すものを順に書き出し、終わりの番号を答える。 -/
def playScript (exit : Nat) : List Emission → IO Nat
  | [] => return exit
  | .out text :: es => do
    (← IO.getStdout).putStr text
    playScript exit es
  | .err text :: es => do
    (← IO.getStderr).putStr text
    playScript exit es
  | .save path text :: es => do
    let failed ← try
        IO.FS.writeFile path text
        pure none
      catch e => pure (some e.toString)
    match failed with
    | none => playScript exit es
    | some reason =>
      (← IO.getStderr).putStr (savingMessage path reason)
      return 1

/-- 命令の行を実行し、終わりの番号を答える。 -/
def runCommand (words : List String) : IO UInt32 := do
  let cwd ← IO.currentDir
  let script ← settleScript (Path.ofString cwd.toString) words []
  return UInt32.ofNat (← playScript script.exit script.emissions)

end SpecLineage

/-- 命令の入り口。 -/
def main (words : List String) : IO UInt32 := SpecLineage.runCommand words
