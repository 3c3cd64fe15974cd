import Sparrow.Fs.TreeWalk
import Sparrow.Userprog.WorkingDir

/-!
# The paths of the shell

`wash_path` of `shell/buildin_cmd.c` takes the dots out of a path before the path is given to a
system call: it works on the text alone, where `search_file` follows the entries `.` and `..` on
the disk. In a tree both come to the same inode (`washPath_agrees`).
-/

namespace Sparrow
set_option autoImplicit false

/-- `strrchr(path, '/')`, as an index. -/
def lastSlash (path : List Byte) : Nat := path.length - 1 - (lastName path).length

/-- `strcat` to a path in a buffer of `size` bytes. -/
def strcatPath (size : Nat) (path src : List Byte) : Exec (List Byte) := do
  defined (path.length + src.length < size)
  return path ++ src

/-- The turn of `wash_path` for one name. A name of 16 bytes has no terminator in the buffer. -/
def washName (size : Nat) (newAbsPath name : List Byte) : Exec (List Byte) := do
  defined (name.length < maxFileNameLen)
  if name = dotDot then
    let slashPtr := lastSlash newAbsPath
    if slashPtr ≠ 0 then return newAbsPath.take slashPtr
    else return newAbsPath.take (slashPtr + 1)
  else if name ≠ dot then
    let newAbsPath ← if newAbsPath ≠ [slash] then strcatPath size newAbsPath [slash] else pure newAbsPath
    strcatPath size newAbsPath name
  else return newAbsPath

/-- `wash_path`, with what it leaves in `new_abs_path`, a buffer of `size` bytes. -/
def washPathIn (size : Nat) (oldAbsPath : List Byte) : Exec (List Byte) := do
  assertThat (oldAbsPath.head? = some slash)
  (pathNames oldAbsPath).foldlM (washName size) [slash]

/-- `wash_path` into a buffer of `MAX_PATH_LEN` bytes, as both callers have it. -/
def washPath (oldAbsPath : List Byte) : Exec (List Byte) := washPathIn maxPathLen oldAbsPath

/-- The path of these names. -/
def absPath (names : List (List Byte)) : List Byte := if names = [] then [slash] else joinPath names

section Text

variable {size : Nat} {names done : List (List Byte)} {name path : List Byte}

theorem absPath_concat : absPath (done ++ [name]) = joinPath done ++ slash :: name := by
  rw [absPath, if_neg (by simp), joinPath, List.flatMap_append]
  simp [joinPath]

/-- The last slash stands in front of the last name. -/
theorem lastSlash_concat (noSlash : slash ∉ name) : lastSlash (joinPath done ++ slash :: name) = (joinPath done).length := by
  have last : lastName (joinPath done ++ slash :: name) = name := by
    rw [lastName_append List.mem_cons_self]
    exact lastName_component noSlash
  rw [lastSlash, last, List.length_append, List.length_cons]
  omega

theorem absPath_ne_slash (components : ∀ k ∈ done, IsComponent k) (some : done ≠ []) : absPath done ≠ [slash] := by
  obtain ⟨k, rest, rfl⟩ := List.exists_cons_of_ne_nil some
  have nonempty := (components k List.mem_cons_self).nonempty
  have pos := List.length_pos_of_ne_nil nonempty
  intro same
  have len := congrArg List.length same
  rw [absPath, if_neg some] at len
  simp only [joinPath, List.flatMap_cons, List.length_append, List.length_cons, List.length_nil] at len
  omega

/-- **One name** is washed as a label is. -/
theorem washName_eq (components : ∀ k ∈ done, IsComponent k) (short : name.length < maxFileNameLen)
    (fits : (joinPath done).length + 1 + name.length < size) :
    washName size (absPath done) name = .ok (absPath (Naming.washStep pathLabels done name)) := by
  rw [washName, defined_of short, ok_bind, Naming.washStep]
  by_cases isAbove : name = dotDot
  · have above : name = pathLabels.above := isAbove
    rw [if_pos isAbove, if_pos above]
    obtain rfl | ⟨front, k, rfl⟩ := List.eq_nil_or_concat done
    · rfl
    · rw [List.concat_eq_append] at components ⊢
      have noSlash := (components k (by simp)).noSlash
      simp only [List.dropLast_concat, absPath_concat, lastSlash_concat noSlash]
      obtain rfl | some := Decidable.em (front = [])
      · rfl
      · have pos : (joinPath front).length ≠ 0 := by
          obtain ⟨x, xs, rfl⟩ := List.exists_cons_of_ne_nil some
          simp [joinPath]
        rw [if_pos pos, List.take_left, absPath, if_neg some]
        rfl
  · have notAbove : name ≠ pathLabels.above := isAbove
    rw [if_neg isAbove, if_neg notAbove]
    by_cases isHere : name = dot
    · have here : name = pathLabels.here := isHere
      rw [if_neg (not_not.2 isHere), if_pos here]
      rfl
    · have notHere : name ≠ pathLabels.here := isHere
      rw [if_pos isHere, if_neg notHere, absPath_concat]
      by_cases none : done = []
      · subst none
        have fits' : ([slash] : List Byte).length + name.length < size := by
          simp only [joinPath, List.flatMap_nil, List.length_nil] at fits
          simp only [List.length_cons, List.length_nil]
          omega
        rw [absPath, if_pos rfl, if_neg (not_not.2 rfl)]
        simp only [pure, Except.pure, ok_bind, strcatPath, defined_of fits']
        rfl
      · have notTop := absPath_ne_slash components none
        have isJoin : absPath done = joinPath done := if_neg none
        have one : (joinPath done).length + ([slash] : List Byte).length < size := by
          simp only [List.length_cons, List.length_nil]
          omega
        have both : (joinPath done ++ [slash]).length + name.length < size := by
          simp only [List.length_append, List.length_cons, List.length_nil]
          omega
        rw [if_pos notTop, isJoin]
        simp only [strcatPath, defined_of one, ok_bind, pure, Except.pure, defined_of both]
        simp

/-- A washed name adds no more than itself. -/
theorem washStep_length : (joinPath (Naming.washStep pathLabels done name)).length ≤ (joinPath done).length + 1 + name.length := by
  rw [Naming.washStep]
  split
  · obtain rfl | ⟨front, k, rfl⟩ := List.eq_nil_or_concat done
    · exact Nat.zero_le _
    · rw [List.concat_eq_append, List.dropLast_concat, joinPath, joinPath, List.flatMap_append, List.length_append]
      omega
  · split
    · omega
    · rw [joinPath, joinPath, List.flatMap_append, List.length_append]
      simp
      omega

theorem washStep_components (components : ∀ k ∈ done, IsComponent k) (component : IsComponent name) :
    ∀ k ∈ Naming.washStep pathLabels done name, IsComponent k := by
  intro k mem
  rw [Naming.washStep] at mem
  split at mem
  · exact components k (List.dropLast_subset _ mem)
  · split at mem
    · exact components k mem
    · rcases List.mem_append.1 mem with mem | mem
      · exact components k mem
      · rw [List.mem_singleton.1 mem]
        exact component

/-- **The loop of `wash_path`.** -/
theorem washNames_eq : ∀ (names : List (List Byte)) {done : List (List Byte)}, (∀ k ∈ done, IsComponent k) →
    (∀ k ∈ names, IsComponent k ∧ k.length < maxFileNameLen) → (joinPath done).length + (joinPath names).length < size →
    names.foldlM (washName size) (absPath done) = .ok (absPath (names.foldl (Naming.washStep pathLabels) done)) ∧
      (joinPath (names.foldl (Naming.washStep pathLabels) done)).length ≤ (joinPath done).length + (joinPath names).length := by
  intro names
  induction names with
  | nil => exact fun _ _ _ => ⟨rfl, Nat.le_add_right _ _⟩
  | cons name names ih =>
    intro done components all fits
    obtain ⟨component, short⟩ := all name List.mem_cons_self
    have split : (joinPath (name :: names)).length = 1 + name.length + (joinPath names).length := by
      simp only [joinPath, List.flatMap_cons, List.length_append, List.length_cons]
      omega
    rw [split] at fits
    have grown := @washStep_length done name
    obtain ⟨ran, length⟩ := ih (washStep_components components component) (fun k mem => all k (List.mem_cons_of_mem _ mem))
      (by omega)
    rw [List.foldlM_cons, washName_eq components short (by omega), ok_bind, List.foldl_cons]
    exact ⟨ran, by omega⟩

/-- **`wash_path`** with room for the path itself. -/
theorem washPathIn_eq (abs : path.head? = some slash) (short : ∀ k ∈ pathNames path, k.length < maxFileNameLen)
    (fits : path.length < size) : washPathIn size path = .ok (absPath (Naming.wash pathLabels (pathNames path))) ∧
      (joinPath (Naming.wash pathLabels (pathNames path))).length ≤ path.length := by
  have bytes : (joinPath (pathNames path)).length ≤ path.length := joinPath_pathNames_le (path.length + 1) abs
  have start : ∀ k ∈ ([] : List (List Byte)), IsComponent k := fun k mem => by cases mem
  have none : (joinPath ([] : List (List Byte))).length = 0 := rfl
  have room : (joinPath ([] : List (List Byte))).length + (joinPath (pathNames path)).length < size := by omega
  obtain ⟨ran, length⟩ := washNames_eq (pathNames path) start (fun k mem => ⟨(mem_pathNamesFuel _ mem).1, short k mem⟩) room
  rw [washPathIn, assertThat_of abs, ok_bind]
  refine ⟨ran, ?_⟩
  rw [none, Nat.zero_add] at length
  exact Nat.le_trans length bytes

/-- **`wash_path`** of a path that fits the buffers is the washed path. -/
theorem washPath_eq (wf : Pathname path) : washPath path = .ok (absPath (Naming.wash pathLabels (pathNames path))) ∧
    (joinPath (Naming.wash pathLabels (pathNames path))).length < maxPathLen := by
  obtain ⟨ran, length⟩ := washPathIn_eq wf.abs wf.names wf.short
  exact ⟨ran, Nat.lt_of_le_of_lt length wf.short⟩

/-- A path made of names of an accepted path is accepted. -/
theorem Pathname.join (wf : Pathname path) (named : names ≠ []) (sub : ∀ k ∈ names, k ∈ pathNames path)
    (short : (joinPath names).length < maxPathLen) : Pathname (joinPath names) ∧ pathNames (joinPath names) = names := by
  have components : ∀ k ∈ names, IsComponent k := fun k mem => (mem_pathNamesFuel _ (sub k mem)).1
  have same := pathNames_join components
  refine ⟨⟨?_, short, fun zero => ?_, fun k mem => ?_⟩, same⟩
  · obtain ⟨x, xs, rfl⟩ := List.exists_cons_of_ne_nil named
    rfl
  · obtain ⟨k, mem, zero⟩ := List.mem_flatMap.1 zero
    rcases List.mem_cons.1 zero with no | zero
    · cases no
    · exact wf.noZero ((mem_pathNamesFuel _ (sub k mem)).2 _ zero)
  · rw [same] at mem
    exact wf.names k (sub k mem)

end Text

/-- The search went to the end of the path: a file was found under its last name. -/
def Consumed (path : List Byte) (r : SearchResult) : Prop :=
  r.fileType = .regular → r.searchedPath = joinPath (pathNames path)

section Agree

variable {part : Partition} {n i : Nat} {me : Option Nat} {s t : Fs} {sh : Shape} {H : Nat → Nat} {path : List Byte} {r : SearchResult}

/-- A search that went to the end found what the names lead to. -/
theorem Resolved.denotes (resolved : Resolved part s t sh (pathNames path) r) (found : r.inodeNo = some i) (consumed : Consumed path r) :
    Denotes part s.disk s.blockBitmap sh (pathNames path) i := by
  obtain ⟨q, done, search, stands, kind⟩ := resolved
  rw [found] at search
  have walk := search.walk
  suffices whole : done = pathNames path by
    rw [whole] at walk
    exact walk
  by_cases dir : sh.dir i
  · exact search.whole_of_dir dir
  · have regular := (kind i found).2 dir
    have searched := stands.searched (by rw [regular]; decide)
    rw [consumed regular] at searched
    have components : ∀ name ∈ pathNames path, IsComponent name := fun name mem => (mem_pathNamesFuel _ mem).1
    rw [← pathNames_join components, searched, pathNames_join fun name mem => components name (search.sub name mem)]

/-- The search for names that lead somewhere finds that. -/
theorem Resolved.of_denotes (inv : FsInv part n s sh H) {names : List (List Byte)} (named : names ≠ [])
    (denotes : Denotes part s.disk s.blockBitmap sh names i) (resolved : Resolved part s t sh names r) :
    r.inodeNo = some i ∧ (sh.dir i → r.fileType = .directory) ∧ (¬ sh.dir i → r.fileType = .regular) := by
  obtain ⟨q, done, search, -, kind⟩ := resolved
  obtain ⟨p, search'⟩ := Naming.Walk.search denotes named
  obtain ⟨found, -, -⟩ := search.unique inv.tree.naming inv.tree.clear search' inv.tree.naming.top.1
  exact ⟨found, kind i found⟩

/-- The search for the washed path: what the names lead to is found, unless memory is missing. -/
theorem FsInv.search_washed (lay : Layout part n) (room : ∀ a, H a + 2 < 2 ^ 32) (inv : FsInv part n s sh H) (wf : Pathname path)
    (denotes : Denotes part s.disk s.blockBitmap sh (pathNames path) i)
    (search : searchFile part me s (absPath (Naming.wash pathLabels (pathNames path))) = .ok (r, t)) :
    (r.inodeNo = some i ∧ (sh.dir i → r.fileType = .directory) ∧ (¬ sh.dir i → r.fileType = .regular)) ∨
      OutOfMemory s t ∧ r.inodeNo = none := by
  have washed : Denotes part s.disk s.blockBitmap sh (Naming.wash pathLabels (pathNames path)) i :=
    Naming.Walk.wash inv.tree.naming inv.tree.clear denotes
  have sub := Naming.wash_sub (L := pathLabels) (pathNames path)
  have short := (washPath_eq wf).2
  generalize Naming.wash pathLabels (pathNames path) = names at *
  by_cases named : names = []
  · subst named
    cases washed
    cases search
    exact .inl ⟨rfl, fun _ => rfl, fun file => absurd inv.tree.naming.top.2.1 file⟩
  · obtain ⟨wf', same⟩ := wf.join named sub short
    rw [absPath, if_neg named] at search
    rw [← same] at named washed
    obtain resolved | ⟨out, gaveUp⟩ := searchFile_resolved lay room inv wf'.noZero named search
    · exact .inl (resolved.of_denotes inv named washed)
    · obtain ⟨_, _, _, _, -, -, no, -⟩ := gaveUp
      exact .inr ⟨out, no⟩

/-- With memory the search for the washed path returns. -/
theorem FsInv.search_washed_returns (lay : Layout part n) (room : ∀ a, H a + 2 < 2 ^ 32) (inv : FsInv part n s sh H) (wf : Pathname path)
    (heap : s.mallocs = []) (reach : ∀ a ∈ s.openInodes, Reachable me s a) :
    ∃ r t, searchFile part me s (absPath (Naming.wash pathLabels (pathNames path))) = .ok (r, t) := by
  have sub := Naming.wash_sub (L := pathLabels) (pathNames path)
  have short := (washPath_eq wf).2
  generalize Naming.wash pathLabels (pathNames path) = names at *
  by_cases named : names = []
  · subst named
    exact ⟨_, _, rfl⟩
  · obtain ⟨wf', same⟩ := wf.join named sub short
    rw [absPath, if_neg named]
    rw [← same] at named
    obtain ⟨r, t, ran, -⟩ := searchFile_returns lay room inv (inv.calm heap reach) wf' (.inr named)
    exact ⟨r, t, ran⟩

end Agree

/-- **The shell and the kernel agree on paths.** Where the search for a path goes to its end and finds
an inode, the search for the washed path finds it too and says the same of its type, unless it has no
memory to look into a directory. -/
theorem washPath_agrees {disk : Image} {startLba secCnt sects n : Nat} {part : Partition} {s : Fs} {σ : Sys} (lt : secCnt < 2 ^ 32)
    (sizes : formatSizes secCnt = .ok (sects, n)) (blocks : 8 ≤ n) (formatted : formatAndMount disk startLba secCnt = .ok (part, s))
    (mallocs : List Bool)
    (run : Run part (fun σ pid call _ => DirectoryCall σ pid call ∧ SparesCwds part σ pid call)
      (bootSys { s with mallocs := mallocs }) σ)
    {path : List Byte} (wf : Pathname path) (named : pathNames path ≠ []) {me : Option Nat} {r : SearchResult} {t : Fs} {i : Nat}
    (search : searchFile part me σ.fs path = .ok (r, t)) (found : r.inodeNo = some i) (consumed : Consumed path r) :
    ∃ washed, washPath path = .ok washed ∧ ∀ me' memory,
      (∀ r' t', searchFile part me' { σ.fs with mallocs := memory } washed = .ok (r', t') →
        r'.inodeNo = some i ∧ r'.fileType = r.fileType ∨
          OutOfMemory { σ.fs with mallocs := memory } t' ∧ r'.inodeNo = none) ∧
      (memory = [] → (∀ a ∈ σ.fs.openInodes, Reachable me' σ.fs a) →
        ∃ r' t', searchFile part me' { σ.fs with mallocs := memory } washed = .ok (r', t')) := by
  obtain ⟨lay, sh, X, settled⟩ := settled_of_run lt sizes blocks formatted mallocs run
  have inv := settled.inv
  have resolved : Resolved part σ.fs t sh (pathNames path) r := by
    obtain resolved | ⟨-, _, _, _, _, -, -, no, -⟩ := searchFile_resolved lay settled.room_two inv wf.noZero named search
    · exact resolved
    · rw [found] at no
      cases no
  have denotes := resolved.denotes found consumed
  obtain ⟨-, isDir, isFile⟩ := resolved.of_denotes inv named denotes
  refine ⟨_, (washPath_eq wf).1, fun me' memory => ⟨fun r' t' search' => ?_, fun heap reach => ?_⟩⟩
  · obtain ⟨found', isDir', isFile'⟩ | none := (inv.heap memory).search_washed lay settled.room_two wf denotes search'
    · refine .inl ⟨found', ?_⟩
      by_cases dir : sh.dir i
      · rw [isDir dir, isDir' dir]
      · rw [isFile dir, isFile' dir]
    · exact .inr none
  · exact (inv.heap memory).search_washed_returns lay settled.room_two wf heap reach

section Examples

/-- The path `/d/../d`. -/
def pathDUpD : List Byte := [slash, 0x64#8, slash, 0x2e#8, 0x2e#8, slash, 0x64#8]

/-- A partition with the directory `/d`: the path leads there. -/
theorem upD_run (memory : List Bool) (test : Option Nat → Bool)
    (ran : returns (formatAndMount (fun _ => 0#8) 1 620) (fun x => returns (runCalls x.1
      (fun σ pid call _ => directoryCallTest σ pid call && sparesTest x.1 σ pid call) [(1, .mkdir pathD)] (bootSys x.2)) fun σ =>
        returns (searchFile x.1 none σ.fs pathDUpD) (fun y => decide (y.1.inodeNo = some 1) && y.1.fileType == .directory) &&
        returns (searchFile x.1 none { σ.fs with mallocs := memory } pathD) fun y => test y.1.inodeNo) = true) :
    ∃ part s σ r t r' t', formatAndMount (fun _ => 0#8) 1 620 = .ok (part, s) ∧
      Run part (fun σ pid call _ => DirectoryCall σ pid call ∧ SparesCwds part σ pid call) (bootSys s) σ ∧
      searchFile part none σ.fs pathDUpD = .ok (r, t) ∧ r.inodeNo = some 1 ∧ r.fileType = .directory ∧
      searchFile part none { σ.fs with mallocs := memory } pathD = .ok (r', t') ∧ test r'.inodeNo = true := by
  obtain ⟨⟨part, s⟩, formatted, ran⟩ := returns_true.1 ran
  obtain ⟨σ, ran, searches⟩ := returns_true.1 ran
  rw [Bool.and_eq_true] at searches
  obtain ⟨⟨r, t⟩, search, is⟩ := returns_true.1 searches.1
  obtain ⟨⟨r', t'⟩, search', test⟩ := returns_true.1 searches.2
  rw [Bool.and_eq_true, decide_eq_true_eq, beq_iff_eq] at is
  refine ⟨part, s, σ, r, t, r', t', formatted, runCalls_run (fun _ _ _ _ test => ?_) _ _ ran, search, is.1, is.2, search', test⟩
  rw [Bool.and_eq_true] at test
  exact ⟨directoryCallTest_sound test.1, sparesTest_sound test.2⟩

theorem washPath_agrees_upD : ∃ part s σ, formatAndMount (fun _ => 0#8) 1 620 = .ok (part, s) ∧
    Run part (fun σ pid call _ => DirectoryCall σ pid call ∧ SparesCwds part σ pid call) (bootSys s) σ ∧
    ∃ r t, searchFile part none { σ.fs with mallocs := [] } pathD = .ok (r, t) ∧ r.inodeNo = some 1 ∧ r.fileType = .directory := by
  obtain ⟨part, s, σ, r, t, r', t', formatted, run, search, found, type, search', -⟩ := upD_run [] (fun _ => true) (by decide)
  have consumed : Consumed pathDUpD r := fun no => by
    rw [type] at no
    cases no
  have wf : Pathname pathDUpD := ⟨rfl, by decide, by decide, by decide⟩
  obtain ⟨washed, isWashed, agrees⟩ := washPath_agrees (by decide) (show formatSizes 620 = .ok (1, 8) from rfl) (by decide) formatted
    s.mallocs run wf (by decide) search found consumed
  have isD : washPath pathDUpD = .ok pathD := by decide
  rw [isD] at isWashed
  cases isWashed
  obtain ⟨found', type'⟩ | ⟨no, -⟩ := (agrees none []).1 r' t' search'
  · exact ⟨part, s, σ, formatted, run, r', t', search', found', type'.trans type⟩
  · exact absurd rfl no.heap

/-- Without memory `/d` is not found where `/d/../d` was. -/
theorem washPath_noMemory : ¬ ∀ (part : Partition) (s : Fs) (σ : Sys) (path : List Byte) (r : SearchResult) (t : Fs) (i : Nat),
    formatAndMount (fun _ => 0#8) 1 620 = .ok (part, s) →
    Run part (fun σ pid call _ => DirectoryCall σ pid call ∧ SparesCwds part σ pid call) (bootSys s) σ →
    Pathname path → pathNames path ≠ [] → searchFile part none σ.fs path = .ok (r, t) → r.inodeNo = some i → Consumed path r →
    ∃ washed, washPath path = .ok washed ∧ ∀ memory r' t', searchFile part none { σ.fs with mallocs := memory } washed = .ok (r', t') →
      r'.inodeNo = some i ∧ r'.fileType = r.fileType := by
  intro claim
  obtain ⟨part, s, σ, r, t, r', t', formatted, run, search, found, type, search', no⟩ :=
    upD_run [false] (fun got => got.isNone) (by decide)
  have consumed : Consumed pathDUpD r := fun no => by
    rw [type] at no
    cases no
  have wf : Pathname pathDUpD := ⟨rfl, by decide, by decide, by decide⟩
  obtain ⟨washed, isWashed, agrees⟩ := claim part s σ pathDUpD r t 1 formatted run wf (by decide) search found consumed
  have isD : washPath pathDUpD = .ok pathD := by decide
  rw [isD] at isWashed
  cases isWashed
  have found' := (agrees [false] r' t' search').1
  rw [found'] at no
  cases no

end Examples

end Sparrow
