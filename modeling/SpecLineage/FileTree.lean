import SpecLineage.Path

/-!
# 書類の木

名を根からたどって書類か置き場所に着く木。読むときも書くときも、途中の名はすべて置き場所を指さなければならない。
名の長さと経路の長さには限りがあり、どちらも UTF-8 のバイト数で測る。
-/

namespace SpecLineage

/-- 書類を読み書きできない理由。 -/
inductive FileFault where
  | missing
  | notDirectory
  | isDirectory
  /-- 名か経路が長すぎる。 -/
  | tooLong
  deriving DecidableEq

def FileFault.message : FileFault → String
  | missing => "No such file or directory (os error 2)"
  | notDirectory => "Not a directory (os error 20)"
  | isDirectory => "Is a directory (os error 21)"
  | tooLong => "File name too long (os error 36)"

/-- 名の指すもの。 -/
inductive FileEntry where
  | file (bytes : ByteArray)
  | directory

/-- 書類の木。根から始まる名の列で引く。 -/
structure FileTree where
  entries : List (List String × FileEntry) := []

/-- 経路の終わりかた。 -/
inductive PathEnding where
  /-- 名で終わる。 -/
  | name
  /-- 斜線で終わる。 -/
  | slash
  /-- `.` で終わる。 -/
  | dot
  deriving DecidableEq

/-- 経路の終わりかたを調べる。 -/
def PathEnding.ofString (s : String) : PathEnding :=
  let fillers := (Path.splitSlash s.toList).reverse.takeWhile Path.isFiller
  if fillers.contains ['.'] then .dot else if fillers.isEmpty then .name else .slash

namespace FileTree

/-- 名の列の指すもの。書類の上にある名は置き場所を指す。 -/
def entry? (t : FileTree) (names : List String) : Option FileEntry :=
  match t.entries.lookup names with
  | some e => some e
  | none =>
    if names.isEmpty || t.entries.any fun (ns, _) => names.isPrefixOf ns then some .directory else none

/-- 一つの名の長さの限り。 -/
def nameLimit : Nat := 255

/-- 経路の長さの限り。 -/
def pathLimit : Nat := 4095

/-- 置き場所 `dir` から、途中の名を一つたどる。 -/
def enter (t : FileTree) (dir : List String) (name : String) : Except FileFault (List String) :=
  if name = ".." then .ok dir.dropLast
  else if nameLimit < name.utf8ByteSize then .error .tooLong
  else
    match t.entry? (dir ++ [name]) with
    | some .directory => .ok (dir ++ [name])
    | some (.file _) => .error .notDirectory
    | none => .error .missing

/-- 経路を、たどり始める置き場所と名の列にする。 -/
def start (cwd : List String) (path : String) : Except FileFault (List String × List String) :=
  if path = "" then .error .missing
  else if pathLimit < path.utf8ByteSize then .error .tooLong
  else
    let p := Path.ofString path
    .ok (if p.rooted then [] else cwd, p.names)

/-- 書類の中身。書類でなければ `none` とする。 -/
def read? (t : FileTree) (cwd : List String) (path : String) : Option ByteArray := do
  let (dir, names) ← (start cwd path).toOption
  let dir ← (names.dropLast.foldlM t.enter dir).toOption
  match t.entry? (dir ++ [← names.getLast?]), PathEnding.ofString path with
  | some (.file bytes), .name => return bytes
  | _, _ => none

/-- 書類を置く。 -/
def insert (t : FileTree) (names : List String) (bytes : ByteArray) : FileTree :=
  ⟨(names, .file bytes) :: t.entries.filter (·.1 != names)⟩

/-- 置き場所 `dir` の名に書く。なければ作り、あれば中身を置き換える。 -/
def put (t : FileTree) (dir : List String) (name : String) (bytes : ByteArray) :
    Except FileFault FileTree :=
  if name = ".." then .error .isDirectory
  else if nameLimit < name.utf8ByteSize then .error .tooLong
  else
    match t.entry? (dir ++ [name]) with
    | some .directory => .error .isDirectory
    | _ => .ok (t.insert (dir ++ [name]) bytes)

/-- 書類を書く。斜線や `.` で終わる経路は、途中の名をたどれても置き場所を指すので書けない。 -/
def write (t : FileTree) (cwd : List String) (path : String) (bytes : ByteArray) :
    Except FileFault FileTree := do
  let (dir, names) ← start cwd path
  match PathEnding.ofString path, names.getLast? with
  | .name, some name => t.put (← names.dropLast.foldlM t.enter dir) name bytes
  | .slash, _ => do
    let _ ← names.dropLast.foldlM t.enter dir
    throw .isDirectory
  | _, _ => do
    let _ ← names.foldlM t.enter dir
    throw .isDirectory

end FileTree

end SpecLineage
