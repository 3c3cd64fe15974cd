import Mathlib.Logic.Relation
import Sparrow.Fs.Cache
import Sparrow.Fs.Handles
import Sparrow.Userprog.Boot

/-!
# Descriptors that stay valid

A descriptor is valid when the slot of the file table it names holds something. Opening
only fills slots that were free, so it disturbs no descriptor; a close or an exit frees a
slot whoever else refers to it. `descriptors_valid` shows that this is the only way a
descriptor can become invalid: as long as no slot is freed while another live process has
it, every descriptor stays valid under any interleaving of calls.
-/

namespace Sparrow
set_option autoImplicit false

/-- Slot `g` of the file table is taken. -/
def Held (s : Fs) (g : Nat) : Prop := (s.fileTable g).fdInode ≠ .null

/-- A descriptor table entry that is free, standard, or names a slot that is taken. -/
def ValidEntry (s : Fs) (e : Int) : Prop :=
  e ≠ -1 → e ≠ 0 → e ≠ 1 → e ≠ 2 → 0 ≤ e ∧ e < maxFileOpen ∧ Held s e.toNat

/-- Every descriptor of a live process is valid. -/
def DescriptorsValid (σ : Sys) : Prop :=
  ∀ pid ∈ σ.live, ∀ i, i < maxFilesOpenPerProc → ValidEntry σ.fs ((σ.procs pid).fdTable i)

theorem validEntry_of_held {s : Fs} {g : Nat} (lt : g < maxFileOpen) (held : Held s g) : ValidEntry s g := by
  intro _ _ _ _
  refine ⟨by omega, by omega, ?_⟩
  rw [Int.toNat_natCast]
  exact held

theorem ValidEntry.mono {s t : Fs} {e : Int} (kept : ∀ g, Held s g → Held t g) (h : ValidEntry s e) :
    ValidEntry t e := by
  intro h0 h1 h2 h3
  obtain ⟨lo, hi, held⟩ := h h0 h1 h2 h3
  exact ⟨lo, hi, kept _ held⟩

section Open

variable {part : Partition} {me : Option Nat} {s t : Fs} {fdTable fdTable' : Nat → Int}

/-- What opening does to the tables: slots stay taken, and an entry that changes names a
slot that is taken. -/
structure OpenEffect (s t : Fs) (fdTable fdTable' : Nat → Int) : Prop where
  kept : ∀ g, Held s g → Held t g
  entries : ∀ i, fdTable' i = fdTable i ∨ ∃ g : Nat, fdTable' i = g ∧ g < maxFileOpen ∧ Held t g

theorem OpenEffect.of_fileTable (same : t.fileTable = s.fileTable) (tbl : fdTable' = fdTable) :
    OpenEffect s t fdTable fdTable' :=
  ⟨fun g held => by rw [Held, same]; exact held, fun i => .inl (by rw [tbl])⟩

/-- A slot that was free may change at will. -/
theorem OpenEffect.of_free {g : Nat} (free : (s.fileTable g).fdInode = .null)
    (same : ∀ j, j ≠ g → t.fileTable j = s.fileTable j) (tbl : fdTable' = fdTable) :
    OpenEffect s t fdTable fdTable' := by
  refine ⟨fun j held => ?_, fun i => .inl (by rw [tbl])⟩
  have ne : j ≠ g := fun e => held (e ▸ free)
  rw [Held, same j ne]
  exact held

/-- A free slot is filled and its number installed. -/
theorem OpenEffect.install {g : Nat} {r : Option Nat} (slot : getFreeSlotInGlobal s.fileTable = some g)
    (same : ∀ j, j ≠ g → t.fileTable j = s.fileTable j) (held : Held t g)
    (installed : pcbFdInstall fdTable g = (r, fdTable')) : OpenEffect s t fdTable fdTable' := by
  obtain ⟨-, lt, free⟩ := getFreeSlotInGlobal_some slot
  have effect : OpenEffect s t fdTable fdTable := OpenEffect.of_free free same rfl
  have kept := effect.kept
  obtain ⟨-, rfl⟩ | ⟨l, -, -, -, -, rfl⟩ := pcbFdInstall_cases installed
  · exact ⟨kept, fun i => .inl rfl⟩
  · refine ⟨kept, fun i => ?_⟩
    by_cases e : i = l
    · exact .inr ⟨g, by simp [e], lt, held⟩
    · exact .inl (by simp [e])

/-- What changed before and after that does not touch the file table does not count. -/
theorem OpenEffect.frame {s' t' : Fs} (before : s'.fileTable = s.fileTable) (after : t'.fileTable = t.fileTable)
    (h : OpenEffect s' t fdTable fdTable') : OpenEffect s t' fdTable fdTable' := by
  refine ⟨fun g held => ?_, fun i => ?_⟩
  · rw [Held, after]
    exact h.kept g (by rw [Held, before]; exact held)
  · obtain same | ⟨g, is, lt, held⟩ := h.entries i
    · exact .inl same
    · exact .inr ⟨g, is, lt, by rw [Held, after]; exact held⟩

theorem fileOpen_effect {n flag : Nat} {r : Option Nat} (h : fileOpen part me s fdTable n flag = .ok (r, t, fdTable')) :
    OpenEffect s t fdTable fdTable' := by
  simp only [fileOpen] at h
  split at h
  · rw [pure_ok] at h
    cases h
    exact .of_fileTable rfl rfl
  · rename_i g slot
    simp only [bind_ok, Prod.exists] at h
    obtain ⟨addr, s1, opened, h⟩ := h
    have same := (inodeOpen_cacheOnly opened).fileTable
    obtain ⟨-, -, free⟩ := getFreeSlotInGlobal_some slot
    split at h
    · rw [pure_ok] at h
      cases h
      exact .of_free free (fun j ne => by simp [Fs.setFile, ne, same]) rfl
    · simp only [pure_ok] at h
      cases h
      refine .install slot (fun j ne => ?_) ?_ rfl
      · split <;> simp [Fs.setInode, Fs.setFile, ne, same]
      · split <;> simp [Held, Fs.setInode, Fs.setFile]

theorem fileCreated_fileTable {a b n : Nat} (h : fileCreated part s a b n = .ok t) : t.fileTable = s.fileTable := by
  simp only [fileCreated, bind_ok, pure_ok] at h
  obtain ⟨_, -, _, -, _, -, rfl⟩ := h
  rfl

theorem fileCreate_effect {dir : Dir} {name : List Byte} {flag : Nat} {r : Option Nat}
    (h : fileCreate part me s fdTable dir name flag = .ok (r, t, fdTable')) : OpenEffect s t fdTable fdTable' := by
  simp only [fileCreate] at h
  split at h
  · rw [pure_ok] at h
    cases h
    exact .of_fileTable rfl rfl
  split at h
  · rw [pure_ok] at h
    cases h
    exact .of_fileTable rfl rfl
  split at h
  · rw [pure_ok] at h
    cases h
    exact .of_fileTable rfl rfl
  split at h
  · rw [pure_ok] at h
    cases h
    exact .of_fileTable rfl rfl
  rename_i g slot
  obtain ⟨-, -, free⟩ := getFreeSlotInGlobal_some slot
  simp only [bind_ok, defined_ok, exists_const, Prod.exists] at h
  obtain ⟨e, -, -, ok, v, -, h⟩ := h
  split at h
  · rw [pure_ok] at h
    cases h
    exact .of_free free (fun j ne => by simp [Fs.setFile, Fs.setVnode, Fs.setInode, ne, Fs.malloc]) rfl
  · simp only [bind_ok, pure_ok] at h
    obtain ⟨s1, created, h⟩ := h
    cases h
    have same := fileCreated_fileTable created
    refine .install slot (fun j ne => ?_) ?_ rfl
    · rw [same]
      simp [Fs.setVnode, Fs.setInode, Fs.setFile, ne, Fs.malloc]
    · rw [Held, same]
      simp [Fs.setVnode, Fs.setInode, Fs.setFile]

theorem openPath_effect {path : List Byte} {flags : Nat} {r : Option Nat}
    (h : openPath part me s fdTable path flags = .ok (r, t, fdTable')) : OpenEffect s t fdTable fdTable' := by
  simp only [openPath, bind_ok, defined_ok, exists_const] at h
  obtain ⟨-, h⟩ := h
  split at h
  · rw [pure_ok] at h
    cases h
    exact .of_fileTable rfl rfl
  simp only [bind_ok, assertThat_ok, exists_const, Prod.exists] at h
  obtain ⟨-, depth, -, found, s1, search, h⟩ := h
  have before := (searchFile_cacheOnly search).fileTable
  have closed : ∀ {s2 t : Fs}, closeParent me s2 found = .ok t → t.fileTable = s2.fileTable :=
    fun h => (dirClose_cacheOnly h).fileTable
  split at h
  · simp only [bind_ok, pure_ok] at h
    obtain ⟨s2, close, h⟩ := h
    cases h
    exact .of_fileTable ((closed close).trans before) rfl
  simp only [bind_ok] at h
  obtain ⟨depth', -, h⟩ := h
  split at h
  · simp only [bind_ok, pure_ok] at h
    obtain ⟨s2, close, h⟩ := h
    cases h
    exact .of_fileTable ((closed close).trans before) rfl
  split at h
  · split at h
    · simp only [bind_ok, pure_ok] at h
      obtain ⟨s2, close, h⟩ := h
      cases h
      exact .of_fileTable ((closed close).trans before) rfl
    · simp only [bind_ok, pure_ok, Prod.exists] at h
      obtain ⟨fd, s2, tbl, created, s3, close, h⟩ := h
      cases h
      exact (fileCreate_effect created).frame before (closed close)
  · split at h
    · simp only [bind_ok, pure_ok] at h
      obtain ⟨s2, close, h⟩ := h
      cases h
      exact .of_fileTable ((closed close).trans before) rfl
    · exact (fileOpen_effect h).frame before rfl

end Open

section Close

variable {me : Option Nat} {s t : Fs} {σ σ' : Sys} {pid : Nat}

/-- Giving back one descriptor of slot `g` frees the slot: always for a file, for a pipe
when it was the last one counted. -/
def CloseFrees (s : Fs) (g : Nat) : Prop := isPipe s g = true → subU32 (s.fileTable g).fdPos 1 = 0

theorem dropPipe_other {g j : Nat} (h : dropPipe s g = .ok t) (ne : j ≠ g) : t.fileTable j = s.fileTable j := by
  simp only [dropPipe] at h
  split at h
  · simp only [bind_ok, assertThat_ok, pure_ok, exists_const] at h
    obtain ⟨-, rfl⟩ := h
    simp [Fs.setFile, ne]
  · rw [pure_ok] at h
    subst h
    simp [Fs.setFile, ne]

theorem dropPipe_more {g : Nat} (h : dropPipe s g = .ok t) (more : subU32 (s.fileTable g).fdPos 1 ≠ 0) :
    t.fileTable g = { s.fileTable g with fdPos := subU32 (s.fileTable g).fdPos 1 } := by
  simp only [dropPipe, if_neg more, pure_ok] at h
  subst h
  simp [Fs.setFile]

theorem fileClose_other {g j : Nat} (h : fileClose me s g = .ok t) (ne : j ≠ g) : t.fileTable j = s.fileTable j := by
  simp only [fileClose] at h
  split at h
  · simp only [bind_ok, defined_ok, pure_ok, exists_const] at h
    obtain ⟨-, s1, closed, rfl⟩ := h
    have same := (inodeClose_cacheOnly closed).fileTable
    simp [Fs.setFile, ne, same, Fs.setInode]
  · rw [throw_ok] at h
    exact h.elim

theorem closeSlot_other {g j : Nat} (h : closeSlot me s g = .ok t) (ne : j ≠ g) : t.fileTable j = s.fileTable j := by
  simp only [closeSlot] at h
  split at h
  · exact dropPipe_other h ne
  · exact fileClose_other h ne

/-- A slot that is not freed stays taken. -/
theorem closeSlot_kept {g : Nat} (h : closeSlot me s g = .ok t) (kept : ¬ CloseFrees s g) (held : Held s g) :
    Held t g := by
  simp only [CloseFrees, Classical.not_imp] at kept
  simp only [closeSlot, kept.1, if_true] at h
  rw [Held, dropPipe_more h kept.2]
  exact held

/-- **`sys_close`** of a descriptor proper. -/
theorem sysClose_ok {fd r : Int} (h : sysClose pid σ fd = .ok (r, σ')) :
    (fd ≤ 2 ∧ σ' = σ) ∨
      ∃ g s, 2 < fd ∧ fdLocal2Global (σ.procs pid).fdTable fd.toNat = .ok g ∧
        closeSlot (σ.heapOf pid) σ.fs g = .ok s ∧
        σ' = { σ with fs := s }.setFdTable pid (fun i => if i = fd.toNat then -1 else (σ.procs pid).fdTable i) := by
  simp only [sysClose] at h
  split at h
  · rename_i low
    rw [pure_ok] at h
    cases h
    exact .inl ⟨low, rfl⟩
  · simp only [bind_ok, pure_ok] at h
    obtain ⟨g, entry, s, closed, h⟩ := h
    cases h
    exact .inr ⟨g, s, by omega, entry, closed, rfl⟩

end Close

section Exit

variable {pid : Nat} {σ σ' : Sys}

/-- How many of the descriptors `l` of the task name slot `g`. -/
def ownCount (σ : Sys) (pid g : Nat) (l : List Nat) : Nat :=
  (l.filter fun i => (σ.procs pid).fdTable i = g).length

/-- An exit of the task frees slot `g`: some number of its descriptors given back is the
last one. -/
def ExitFrees (σ : Sys) (pid g : Nat) : Prop :=
  ∃ k, 0 < k ∧ k ≤ ownCount σ pid g localFds ∧
    (isPipe σ.fs g = true → subU32 (σ.fs.fileTable g).fdPos k = 0)

theorem subU32_succ {f k : Nat} (lt : k < 2 ^ 32) : subU32 (subU32 f 1) k = subU32 f (k + 1) := by
  simp only [subU32]
  omega

/-- What one turn of the loop does. -/
theorem releaseDescriptor_ok {i : Nat} (h : releaseDescriptor pid σ i = .ok σ') :
    ((σ.procs pid).fdTable i = -1 ∧ σ' = σ) ∨
      ∃ g, (σ.procs pid).fdTable i = (g : Nat) ∧ σ'.live = σ.live ∧ (∀ p, p ≠ pid → σ'.procs p = σ.procs p) ∧
        (∀ j, j ≠ i → (σ'.procs pid).fdTable j = (σ.procs pid).fdTable j) ∧
        (∀ j, j ≠ g → σ'.fs.fileTable j = σ.fs.fileTable j) ∧
        (¬ CloseFrees σ.fs g → σ'.fs.fileTable g =
          { σ.fs.fileTable g with fdPos := subU32 (σ.fs.fileTable g).fdPos 1 }) := by
  simp only [releaseDescriptor] at h
  split at h
  · rename_i free
    rw [pure_ok] at h
    exact .inl ⟨free, h.symm⟩
  simp only [bind_ok] at h
  obtain ⟨g, entry, h⟩ := h
  obtain ⟨lt, -, is⟩ := fdLocal2Global_ok entry
  refine .inr ⟨g, is, ?_⟩
  split at h
  · rename_i pipe
    simp only [bind_ok, pure_ok] at h
    obtain ⟨s, dropped, rfl⟩ := h
    refine ⟨rfl, fun _ _ => rfl, fun _ _ => rfl, fun j ne => dropPipe_other dropped ne, fun kept => ?_⟩
    exact dropPipe_more dropped fun zero => kept fun _ => zero
  · rename_i file
    simp only [bind_ok, pure_ok, Prod.exists] at h
    obtain ⟨r, σ1, closed, rfl⟩ := h
    obtain ⟨low, rfl⟩ | ⟨g', s, -, entry', closed, rfl⟩ := sysClose_ok closed
    · refine ⟨rfl, fun _ _ => rfl, fun _ _ => rfl, fun _ _ => rfl, fun kept => ?_⟩
      exact absurd (fun pipe => absurd pipe file) kept
    · rw [Int.toNat_natCast, entry] at entry'
      cases entry'
      refine ⟨rfl, fun p ne => ?_, fun j ne => ?_, fun j ne => closeSlot_other closed ne, fun kept => ?_⟩
      · simp [Sys.setFdTable, Sys.setProc, ne]
      · simp [Sys.setFdTable, Sys.setProc, ne]
      · exact absurd (fun pipe => absurd pipe file) kept

/-- The loop leaves the other tasks alone. -/
theorem release_others : ∀ (l : List Nat) {σ : Sys}, l.foldlM (releaseDescriptor pid) σ = .ok σ' →
    σ'.live = σ.live ∧ ∀ p, p ≠ pid → σ'.procs p = σ.procs p := by
  intro l
  induction l with
  | nil =>
    intro σ h
    simp only [List.foldlM_nil, pure_ok] at h
    subst h
    exact ⟨rfl, fun _ _ => rfl⟩
  | cons i rest ih =>
    intro σ h
    simp only [List.foldlM_cons, bind_ok] at h
    obtain ⟨σ1, first, h⟩ := h
    obtain ⟨live, procs⟩ := ih h
    obtain ⟨-, rfl⟩ | ⟨g, -, live1, procs1, -⟩ := releaseDescriptor_ok first
    · exact ⟨live, procs⟩
    · exact ⟨live.trans live1, fun p ne => (procs p ne).trans (procs1 p ne)⟩

/-- The loop keeps a slot taken that none of its turns frees. The induction follows the
number of descriptors of the slot still to be given back. -/
theorem release_kept {g : Nat} : ∀ (l : List Nat) {σ : Sys}, l.Nodup → l.length < 2 ^ 32 →
    l.foldlM (releaseDescriptor pid) σ = .ok σ' →
    (∀ k, 0 < k → k ≤ ownCount σ pid g l → isPipe σ.fs g = true ∧ subU32 (σ.fs.fileTable g).fdPos k ≠ 0) →
    Held σ.fs g → Held σ'.fs g := by
  intro l
  induction l with
  | nil =>
    intro σ _ _ h _ held
    simp only [List.foldlM_nil, pure_ok] at h
    subst h
    exact held
  | cons i rest ih =>
    intro σ nodup short h counted held
    simp only [List.foldlM_cons, bind_ok] at h
    obtain ⟨σ1, first, h⟩ := h
    obtain ⟨fresh, nodup⟩ := List.nodup_cons.1 nodup
    simp only [List.length_cons] at short
    obtain ⟨free, rfl⟩ | ⟨g', entry, -, -, entries, others, mine⟩ := releaseDescriptor_ok first
    · refine ih nodup (by omega) h (fun k pos le => counted k pos ?_) held
      refine Nat.le_trans le ?_
      simp only [ownCount, List.filter_cons]
      split <;> simp
    have same : ownCount σ1 pid g rest = ownCount σ pid g rest := by
      simp only [ownCount]
      congr 1
      apply List.filter_congr
      intro j mem
      rw [entries j (fun e => fresh (e ▸ mem))]
    by_cases e : g' = g
    · subst e
      have more : ownCount σ pid g' (i :: rest) = ownCount σ pid g' rest + 1 := by
        simp [ownCount, entry]
      obtain ⟨pipe, left⟩ := counted 1 (by omega) (by omega)
      have file := mine fun frees => left (frees pipe)
      have pipe1 : isPipe σ1.fs g' = true := by
        rw [isPipe, file]
        exact pipe
      refine ih nodup (by omega) h (fun k pos le => ⟨pipe1, ?_⟩) (by rw [Held, file]; exact held)
      have few : ownCount σ pid g' rest ≤ rest.length := List.length_filter_le _ _
      rw [file, subU32_succ (by omega)]
      exact (counted (k + 1) (by omega) (by omega)).2
    · have file := others g (fun h => e h.symm)
      have fewer : ownCount σ pid g (i :: rest) = ownCount σ pid g rest := by
        simp only [ownCount, List.filter_cons, entry, decide_eq_true_eq, Int.natCast_inj, if_neg e]
      refine ih nodup (by omega) h (fun k pos le => ?_) (by rw [Held, file]; exact held)
      rw [isPipe, file]
      exact counted k pos (by omega)

end Exit

section Fork

variable {me : Option Nat} {pid child : Nat} {s t : Fs} {σ σ' : Sys} {fdTable : Nat → Int}

theorem updateInodeOpenCnt_kept {i : Nat} (h : updateInodeOpenCnt me fdTable s i = .ok t) (g : Nat) :
    (t.fileTable g).fdInode = (s.fileTable g).fdInode := by
  simp only [updateInodeOpenCnt, bind_ok, assertThat_ok, exists_const] at h
  obtain ⟨-, h⟩ := h
  split at h
  · rw [pure_ok] at h
    rw [h]
  simp only [bind_ok] at h
  obtain ⟨g', -, h⟩ := h
  split at h
  · rw [pure_ok] at h
    subst h
    by_cases e : g = g' <;> simp [Fs.setFile, e]
  split at h
  · simp only [bind_ok, defined_ok, pure_ok, exists_const] at h
    obtain ⟨-, rfl⟩ := h
    rfl
  · rw [throw_ok] at h
    exact h.elim

theorem updateInodeOpenCnts_kept (g : Nat) : ∀ (l : List Nat) {s : Fs},
    l.foldlM (updateInodeOpenCnt me fdTable) s = .ok t → (t.fileTable g).fdInode = (s.fileTable g).fdInode := by
  intro l
  induction l with
  | nil =>
    intro s h
    simp only [List.foldlM_nil, pure_ok] at h
    rw [h]
  | cons i rest ih =>
    intro s h
    simp only [List.foldlM_cons, bind_ok] at h
    obtain ⟨s1, first, h⟩ := h
    rw [ih h, updateInodeOpenCnt_kept first]

theorem getPages_fileTable : ∀ (k : Nat) (s : Fs), (getPages k s).2.fileTable = s.fileTable := by
  intro k
  induction k with
  | zero => intro s; rfl
  | succ k ih =>
    intro s
    simp only [getPages]
    split
    · exact ih s.malloc
    · rfl

/-- **`sys_fork`** fails without a trace in the tables, or adds a process with the
descriptors of its parent. -/
theorem sysFork_ok {r : Int} (h : sysFork pid child σ = .ok (r, σ')) :
    (∀ g, (σ'.fs.fileTable g).fdInode = (σ.fs.fileTable g).fdInode) ∧
      ((σ'.live = σ.live ∧ σ'.procs = σ.procs) ∨
        (σ'.live = child :: σ.live ∧ (σ'.procs child).fdTable = (σ.procs pid).fdTable ∧
          ∀ p, p ≠ child → σ'.procs p = σ.procs p)) := by
  simp only [sysFork] at h
  split at h
  · rw [pure_ok] at h
    cases h
    exact ⟨fun g => by rw [getPages_fileTable], .inl ⟨rfl, rfl⟩⟩
  simp only [bind_ok, assertThat_ok, exists_const] at h
  obtain ⟨-, h⟩ := h
  split at h
  · rw [pure_ok] at h
    cases h
    exact ⟨fun g => by rw [getPages_fileTable, getPages_fileTable], .inl ⟨rfl, rfl⟩⟩
  simp only [bind_ok, pure_ok] at h
  obtain ⟨s, counted, h⟩ := h
  cases h
  refine ⟨fun g => ?_, .inr ⟨rfl, ?_, fun p ne => ?_⟩⟩
  · rw [← congrArg (fun ft => (ft g).fdInode) (getPages_fileTable 1 σ.fs),
      ← congrArg (fun ft => (ft g).fdInode) (getPages_fileTable 3 (getPages 1 σ.fs).2)]
    exact updateInodeOpenCnts_kept g _ counted
  · simp [Sys.setProc]
  · simp [Sys.setProc, ne]

end Fork

section Runs

variable {part : Partition} {pid : Nat} {σ σ' : Sys} {r : Int}

/-- The calls that deal with descriptors, made by live processes; a new process gets a
number that no live one has. -/
def DescriptorCall (σ : Sys) (pid : Nat) (call : Call) : Prop :=
  pid ∈ σ.live ∧ match call with
    | .open _ _ | .pipe | .fdRedirect _ _ | .close _ | .exit => True
    | .fork child => child ∉ σ.live
    | _ => False

/-- The call frees no slot that another descriptor of a live process names. -/
def FreesUnshared (σ : Sys) (pid : Nat) : Call → Prop
  | .close fd => 2 < fd → ∀ g : Nat, (σ.procs pid).fdTable fd.toNat = g → CloseFrees σ.fs g →
      ∀ p ∈ σ.live, ∀ j, j < maxFilesOpenPerProc → (σ.procs p).fdTable j = g → p = pid ∧ j = fd.toNat
  | .exit => ∀ g : Nat, ExitFrees σ pid g →
      ∀ p ∈ σ.live, ∀ j, j < maxFilesOpenPerProc → (σ.procs p).fdTable j = g → p = pid
  | _ => True

/-- The system before the first call: no slot is taken, every task has the standard
descriptors. -/
structure Booted (σ : Sys) : Prop where
  fileTable : ∀ g, σ.fs.fileTable g = File.empty
  fdTable : ∀ p ∈ σ.live, (σ.procs p).fdTable = initFdTable

theorem booted_bootSys {disk : Image} {startLba secCnt : Nat} {part : Partition} {s : Fs}
    (h : formatAndMount disk startLba secCnt = .ok (part, s)) : Booted (bootSys s) :=
  ⟨fun g => by rw [show (bootSys s).fs.fileTable = s.fileTable from rfl, formatAndMount_fileTable h], fun _ _ => rfl⟩

theorem Booted.descriptorsValid (boot : Booted σ) : DescriptorsValid σ := by
  intro p live i lt free zero one two
  rw [boot.fdTable p live] at free zero one two
  simp only [initFdTable] at free zero one two
  split at free
  · omega
  · exact absurd rfl free

/-- A call that changes only the table of the caller. -/
theorem DescriptorsValid.setFdTable {s : Fs} {fdTable : Nat → Int} (valid : DescriptorsValid σ)
    (kept : ∀ g, Held σ.fs g → Held s g) (mine : ∀ i, i < maxFilesOpenPerProc → ValidEntry s (fdTable i)) :
    DescriptorsValid ({ σ with fs := s }.setFdTable pid fdTable) := by
  intro p live i lt
  by_cases e : p = pid
  · subst e
    simpa [Sys.setFdTable, Sys.setProc] using mine i lt
  · have := (valid p live i lt).mono kept
    simpa [Sys.setFdTable, Sys.setProc, e] using this

theorem DescriptorsValid.openEffect {s : Fs} {fdTable : Nat → Int} (valid : DescriptorsValid σ) (live : pid ∈ σ.live)
    (effect : OpenEffect σ.fs s (σ.procs pid).fdTable fdTable) :
    DescriptorsValid ({ σ with fs := s }.setFdTable pid fdTable) := by
  refine valid.setFdTable effect.kept fun i lt => ?_
  obtain same | ⟨g, is, gt, held⟩ := effect.entries i
  · rw [same]
    exact (valid pid live i lt).mono effect.kept
  · rw [is]
    exact validEntry_of_held gt held

theorem sysPipe_valid {fds : Int × Int} (valid : DescriptorsValid σ) (live : pid ∈ σ.live)
    (h : sysPipe pid σ = .ok (r, fds, σ')) : DescriptorsValid σ' := by
  simp only [sysPipe] at h
  split at h
  · rw [throw_ok] at h
    exact h.elim
  · rename_i g slot
    simp only [bind_ok, mustMalloc_ok, pure_ok] at h
    obtain ⟨s, ⟨-, rfl⟩, h⟩ := h
    cases h
    -- the second descriptor is installed in the table that already has the first
    have first : OpenEffect σ.fs (σ.fs.malloc.setFile g ⟨2, pipeFlag, .pipe⟩) (σ.procs pid).fdTable
        (pcbFdInstall (σ.procs pid).fdTable g).2 :=
      .install slot (fun j ne => by simp [Fs.setFile, ne, Fs.malloc]) (by simp [Held, Fs.setFile]) rfl
    have second : OpenEffect σ.fs (σ.fs.malloc.setFile g ⟨2, pipeFlag, .pipe⟩)
        (pcbFdInstall (σ.procs pid).fdTable g).2 (pcbFdInstall (pcbFdInstall (σ.procs pid).fdTable g).2 g).2 :=
      .install slot (fun j ne => by simp [Fs.setFile, ne, Fs.malloc]) (by simp [Held, Fs.setFile]) rfl
    have both : OpenEffect σ.fs (σ.fs.malloc.setFile g ⟨2, pipeFlag, .pipe⟩) (σ.procs pid).fdTable
        (pcbFdInstall (pcbFdInstall (σ.procs pid).fdTable g).2 g).2 := by
      refine ⟨first.kept, fun i => ?_⟩
      obtain same | new := second.entries i
      · rw [same]
        exact first.entries i
      · exact .inr new
    exact valid.openEffect live both

theorem sysFdRedirect_valid {old new : Nat} (valid : DescriptorsValid σ) (live : pid ∈ σ.live)
    (h : sysFdRedirect pid σ old new = .ok σ') : DescriptorsValid σ' := by
  simp only [sysFdRedirect, bind_ok, defined_ok, pure_ok, exists_const] at h
  obtain ⟨⟨-, lt⟩, rfl⟩ := h
  refine valid.setFdTable (fun _ held => held) fun i lti => ?_
  by_cases e : i = old
  · rw [if_pos e]
    split
    · intro _ _ _ _
      omega
    · exact valid pid live new lt
  · rw [if_neg e]
    exact valid pid live i lti

theorem sysClose_valid {fd : Int} (valid : DescriptorsValid σ) (live : pid ∈ σ.live)
    (unshared : FreesUnshared σ pid (.close fd)) (h : sysClose pid σ fd = .ok (r, σ')) : DescriptorsValid σ' := by
  obtain ⟨-, rfl⟩ | ⟨g, s, proper, entry, closed, rfl⟩ := sysClose_ok h
  · exact valid
  obtain ⟨-, -, is⟩ := fdLocal2Global_ok entry
  -- a slot named by another descriptor is not the one freed
  have kept : ∀ p ∈ σ.live, ∀ i, i < maxFilesOpenPerProc → ¬ (p = pid ∧ i = fd.toNat) →
      ValidEntry s ((σ.procs p).fdTable i) := by
    intro p livep i lt other h0 h1 h2 h3
    obtain ⟨lo, hi, held⟩ := valid p livep i lt h0 h1 h2 h3
    refine ⟨lo, hi, ?_⟩
    by_cases e : ((σ.procs p).fdTable i).toNat = g
    · rw [e] at held ⊢
      refine closeSlot_kept closed (fun frees => other ?_) held
      exact unshared proper g is frees p livep i lt (by omega)
    · rw [Held, closeSlot_other closed e]
      exact held
  intro p livep i lt
  by_cases e : p = pid
  · subst e
    by_cases ei : i = fd.toNat
    · intro free
      simp [Sys.setFdTable, Sys.setProc, ei] at free
    · have := kept p livep i lt (fun h => ei h.2)
      simpa [Sys.setFdTable, Sys.setProc, ei] using this
  · have := kept p livep i lt (fun h => e h.1)
    simpa [Sys.setFdTable, Sys.setProc, e] using this

theorem sysFork_valid {child : Nat} (valid : DescriptorsValid σ) (live : pid ∈ σ.live) (fresh : child ∉ σ.live)
    (h : sysFork pid child σ = .ok (r, σ')) : DescriptorsValid σ' := by
  obtain ⟨same, tables⟩ := sysFork_ok h
  have kept : ∀ g, Held σ.fs g → Held σ'.fs g := fun g held => by rw [Held, same]; exact held
  intro p livep i lt
  obtain ⟨live', procs⟩ | ⟨live', new, procs⟩ := tables
  · rw [live'] at livep
    rw [procs]
    exact (valid p livep i lt).mono kept
  · rw [live', List.mem_cons] at livep
    by_cases e : p = child
    · subst e
      rw [new]
      exact (valid pid live i lt).mono kept
    · rw [procs p e]
      exact (valid p (livep.resolve_left e) i lt).mono kept

theorem sysExit_valid (valid : DescriptorsValid σ) (unshared : FreesUnshared σ pid .exit)
    (h : sysExit pid σ = .ok σ') : DescriptorsValid σ' := by
  simp only [sysExit, bind_ok, assertThat_ok, defined_ok, pure_ok, exists_const] at h
  obtain ⟨-, -, σ1, released, rfl⟩ := h
  obtain ⟨live, procs⟩ := release_others _ released
  have tables : ∀ p, ((adopt pid σ).procs p).fdTable = (σ.procs p).fdTable := by
    intro p
    simp only [adopt]
    split <;> rfl
  intro p livep i lt
  simp only [List.mem_filter, decide_eq_true_eq] at livep
  obtain ⟨livep, ne⟩ := livep
  rw [live] at livep
  have before := valid p livep i lt
  show ValidEntry σ1.fs ((σ1.procs p).fdTable i)
  rw [procs p ne, tables]
  intro h0 h1 h2 h3
  obtain ⟨lo, hi, held⟩ := before h0 h1 h2 h3
  refine ⟨lo, hi, release_kept localFds (by decide) (by decide) released (fun k pos le => ?_) held⟩
  by_contra frees
  refine ne (unshared ((σ.procs p).fdTable i).toNat ⟨k, pos, ?_, fun pipe => ?_⟩ p livep i lt (by omega))
  · simpa only [ownCount, tables] using le
  · by_contra more
    exact frees ⟨pipe, more⟩

/-- One call keeps the descriptors valid. -/
theorem DescriptorsValid.step {call : Call} (valid : DescriptorsValid σ) (allowed : DescriptorCall σ pid call)
    (unshared : FreesUnshared σ pid call) (h : exec part pid σ call = .ok (r, σ')) : DescriptorsValid σ' := by
  obtain ⟨live, among⟩ := allowed
  cases call with
  | «open» path flags =>
    simp only [exec, sysOpen, bind_ok, pure_ok, Prod.exists] at h
    obtain ⟨fd, s, fdTable, opened, h⟩ := h
    cases h
    exact valid.openEffect live (openPath_effect opened)
  | pipe =>
    simp only [exec, bind_ok, pure_ok, Prod.exists] at h
    obtain ⟨r', fd0, fd1, σ1, piped, h⟩ := h
    cases h
    exact sysPipe_valid valid live piped
  | fdRedirect old new =>
    simp only [exec, bind_ok, pure_ok] at h
    obtain ⟨σ1, redirected, h⟩ := h
    cases h
    exact sysFdRedirect_valid valid live redirected
  | close fd => exact sysClose_valid valid live unshared h
  | fork child => exact sysFork_valid valid live among h
  | exit =>
    simp only [exec, bind_ok, pure_ok] at h
    obtain ⟨σ1, exited, h⟩ := h
    cases h
    exact sysExit_valid valid unshared exited
  | read | write | lseek | unlink | mkdir | rmdir | opendir | readdir | closedir | getcwd | chdir | stat | execv => exact among.elim

/-- **Descriptors stay valid.** Along every interleaving of opens, pipes, redirections,
closes, forks and exits in which no close and no exit frees a slot that another descriptor
of a live process names, every descriptor of every live process is valid. -/
theorem descriptors_valid (boot : Booted σ)
    (run : Run part (fun σ pid call _ => DescriptorCall σ pid call ∧ FreesUnshared σ pid call) σ σ') :
    DescriptorsValid σ' :=
  run.invariant (fun _ _ _ _ _ valid ok h => valid.step ok.1 ok.2 h) boot.descriptorsValid

/-- A test that is true of the calls of live tasks among those above. -/
def descriptorCallTest (σ : Sys) (pid : Nat) (call : Call) : Bool :=
  decide (pid ∈ σ.live) && match call with
    | .open _ _ | .pipe | .fdRedirect _ _ | .close _ | .exit => true
    | .fork child => decide (child ∉ σ.live)
    | _ => false

theorem descriptorCallTest_sound {call : Call} (h : descriptorCallTest σ pid call = true) :
    DescriptorCall σ pid call := by
  cases call <;> simp_all [descriptorCallTest, DescriptorCall]

/-- A test that is true of calls that free no slot: a close only of a pipe with more
descriptors. -/
def freesNothingTest (σ : Sys) (pid : Nat) : Call → Bool
  | .close fd =>
    let g := ((σ.procs pid).fdTable fd.toNat).toNat
    isPipe σ.fs g && decide (subU32 (σ.fs.fileTable g).fdPos 1 ≠ 0)
  | .exit => false
  | _ => true

theorem freesNothingTest_sound {call : Call} (h : freesNothingTest σ pid call = true) : FreesUnshared σ pid call := by
  cases call with
  | close fd =>
    simp only [freesNothingTest, Bool.and_eq_true, decide_eq_true_eq] at h
    intro _ g is frees
    rw [is, Int.toNat_natCast] at h
    exact absurd (frees h.1) h.2
  | exit => cases h
  | _ => trivial

/-- A pipe shared by a fork survives the close of one of its ends in the child. -/
theorem descriptors_valid_pipe :
    ∃ part σ σ', Booted σ ∧ Run part (fun σ pid call _ => DescriptorCall σ pid call ∧ FreesUnshared σ pid call) σ σ' ∧
      3 ∈ σ'.live ∧ (σ'.procs 3).fdTable 3 = -1 ∧ (σ'.procs 1).fdTable 3 = 3 ∧ DescriptorsValid σ' := by
  have ran : returns (freshRun 620 (fun σ pid call _ => descriptorCallTest σ pid call && freesNothingTest σ pid call)
      [(1, .pipe), (1, .fork 3), (3, .close 3)])
      (fun x => decide (3 ∈ x.2.live) && decide ((x.2.procs 3).fdTable 3 = -1) &&
        decide ((x.2.procs 1).fdTable 3 = 3)) = true := by decide
  obtain ⟨⟨part, σ'⟩, ran, reached⟩ := returns_true.1 ran
  obtain ⟨s, formatted, ran⟩ := freshRun_ok ran
  have run : Run part (fun σ pid call _ => DescriptorCall σ pid call ∧ FreesUnshared σ pid call) (bootSys s) σ' := by
    refine runCalls_run (fun _ _ _ _ test => ?_) _ _ ran
    simp only [Bool.and_eq_true] at test
    exact ⟨descriptorCallTest_sound test.1, freesNothingTest_sound test.2⟩
  simp only [Bool.and_eq_true, decide_eq_true_eq] at reached
  exact ⟨part, bootSys s, σ', booted_bootSys formatted, run, reached.1.1, reached.1.2, reached.2,
    descriptors_valid (booted_bootSys formatted) run⟩

/-- The main thread leaves a file behind; `init` opens it and forks; the child closes. -/
def sharedClose : List (Nat × Call) :=
  [(2, .open pathF oCreat), (2, .close 3), (1, .open pathF 0), (1, .fork 3), (3, .close 3)]

/-- Process 1 has a descriptor 3 whose slot is free. -/
def danglingTest (σ : Sys) : Bool :=
  decide (1 ∈ σ.live) && decide ((σ.procs 1).fdTable 3 = 3) && decide ((σ.fs.fileTable 3).fdInode = .null)

/-- A close after a fork takes the file away from the parent. -/
theorem sharedClose_dangles :
    ¬ ∀ (part : Partition) (σ σ' : Sys), Booted σ → Run part (fun σ pid call _ => DescriptorCall σ pid call) σ σ' →
      DescriptorsValid σ' := by
  intro claim
  have ran : returns (freshRun 620 (fun σ pid call _ => descriptorCallTest σ pid call) sharedClose)
      (fun x => danglingTest x.2) = true := by decide
  obtain ⟨⟨part, σ'⟩, ran, dangling⟩ := returns_true.1 ran
  obtain ⟨s, formatted, run⟩ := freshRun_ok ran
  have valid := claim part (bootSys s) σ' (booted_bootSys formatted)
    (runCalls_run (fun _ _ _ _ => descriptorCallTest_sound) _ _ run)
  simp only [danglingTest, Bool.and_eq_true, decide_eq_true_eq] at dangling
  obtain ⟨⟨live, entry⟩, free⟩ := dangling
  have := valid 1 live 3 (by decide)
  rw [entry] at this
  exact (this (by decide) (by decide) (by decide) (by decide)).2.2 free

end Runs

end Sparrow
