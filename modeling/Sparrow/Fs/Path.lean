import Sparrow.Fs.File

/-!
# Path names

`path_parse`, `path_depth_cnt` and `search_file` of `fs/fs.c`. A path is the list of its
bytes up to the terminating zero. The name buffer of both callers has 16 bytes and
`path_parse` writes no terminator, so a component of more than 16 bytes overruns it and
one of 16 bytes leaves it without an end.
-/

namespace Sparrow
set_option autoImplicit false

def slash : Byte := 0x2f#8

/-- `path_parse`: the name stored and the rest of the path, `none` at its end. -/
def pathParse (pathname : List Byte) : List Byte × Option (List Byte) :=
  let path := pathname.dropWhile (· == slash)
  let name := path.takeWhile (· != slash)
  let rest := path.dropWhile (· != slash)
  (name, if rest.isEmpty then none else some rest)

/-- The names that successive calls of `path_parse` store, up to the first empty one. -/
def pathNamesFuel : Nat → List Byte → List (List Byte)
  | 0, _ => []
  | fuel + 1, path =>
    match pathParse path with
    | ([], _) => []
    | (name, none) => [name]
    | (name, some rest) => name :: pathNamesFuel fuel rest

/-- Every name but the last is followed by a slash, so there are at most as many names as
bytes. -/
def pathNames (path : List Byte) : List (List Byte) := pathNamesFuel (path.length + 1) path

/-- `path_depth_cnt`. The first byte of the name buffer is read even when no name was
stored, and it has no initial value. -/
def pathDepthCnt (pathname : List Byte) : Exec Nat := do
  let names := pathNames pathname
  defined (names ≠ [] ∧ ∀ name ∈ names, name.length ≤ maxFileNameLen)
  return names.length

/-- `struct path_search_record` with the inode number `search_file` returns, `none` for
-1. -/
structure SearchResult where
  inodeNo : Option Nat
  searchedPath : List Byte
  parentDir : Dir
  fileType : FileTypes

/-- The state of the walk: the directory reached, the number of the one before, and the
last entry found. -/
structure Walk where
  parentDir : Dir
  parentInodeNo : Nat
  dirE : Option DirEntry
  searchedPath : List Byte

/-- `strcat(searched_path, "/"); strcat(searched_path, name)` into 512 bytes. -/
def appendSearched (searched name : List Byte) : Exec (List Byte) := do
  assertThat (searched.length < 512)
  defined (name.length < maxFileNameLen ∧ searched.length + 1 + name.length < maxPathLen)
  return searched ++ slash :: name

/-- The loop of `search_file` over the names of the path, and what follows it. -/
def walkPath (part : Partition) (me : Option Nat) : List (List Byte) → Walk → Fs → Exec (SearchResult × Fs)
  | [], w, s =>
    match w.dirE with
    | none => throw .undefined
    | some e => do
      let s ← dirClose me s w.parentDir
      let (dir, s) ← dirOpen part me s w.parentInodeNo
      return (⟨some e.iNo, w.searchedPath, dir, .directory⟩, s)
  | name :: rest, w, s => do
    let searched ← appendSearched w.searchedPath name
    let (found, s) ← searchDirEntry part me s w.parentDir name
    match found with
    | none => return (⟨none, searched, w.parentDir, .unknown⟩, s)
    | some e =>
      -- the next name is parsed into the buffer before the type is looked at
      defined (∀ next ∈ rest.head?, next.length ≤ maxFileNameLen)
      if e.fType = FileTypes.directory.code then
        let parentInodeNo := (s.inodes w.parentDir.inode).iNo
        let s ← dirClose me s w.parentDir
        let (dir, s) ← dirOpen part me s e.iNo
        walkPath part me rest ⟨dir, parentInodeNo, some e, searched⟩ s
      else if e.fType = FileTypes.regular.code then
        return (⟨some e.iNo, searched, w.parentDir, .regular⟩, s)
      else walkPath part me rest { w with dirE := some e, searchedPath := searched } s

/-- `search_file`. -/
def searchFile (part : Partition) (me : Option Nat) (s : Fs) (pathname : List Byte) :
    Exec (SearchResult × Fs) := do
  if pathname = [slash] ∨ pathname = [slash, 0x2e#8] ∨ pathname = [slash, 0x2e#8, 0x2e#8] then
    return (⟨some 0, [], s.root, .directory⟩, s)
  else
    assertThat (pathname.head? = some slash ∧ 1 < pathname.length ∧ pathname.length < maxPathLen)
    let names := pathNames pathname
    defined (∀ name ∈ names.head?, name.length ≤ maxFileNameLen)
    walkPath part me names ⟨s.root, 0, none, []⟩ s

/-- `strrchr(path, '/') + 1`: what follows the last slash. -/
def lastName (path : List Byte) : List Byte := (path.reverse.takeWhile (· != slash)).reverse

end Sparrow
