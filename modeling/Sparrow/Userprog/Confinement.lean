import Sparrow.Userprog.Load
import Sparrow.Kernel.PagingInv

/-!
# Where a program is loaded

What `load` asks for is settled by the file and by the heap: a list of demands, read off the
headers without a look at memory. Which of the demanded pages get mapped depends on memory.
Loading stays in user space whatever memory is like exactly when the demands do, two kinds of
pages apart that are mapped in the kernel's half already.
-/

namespace Sparrow.Load
set_option autoImplicit false

open Paging

/-- What `load` asks for: a page, bytes to be stored, or sleep in its `k`-th read. -/
inductive Demand where
  | page (vaddr : Nat)
  | access (a : Access)
  | sleep (k : Nat)

/-- The demands of a read that gives `x`, and of what comes after it. -/
def readDemands (x : Traced Access (Option Nat × Nat)) (k : Nat) (next : Option Nat → Nat → List Demand) : List Demand :=
  x.trace.map .access ++ match x.result with
    | .ok (r, fdPos) => .sleep k :: next r fdPos
    | .error _ => []

/-- The demands of `n` program headers from `off` on. -/
def headerDemands (f : Content) (buffers : Nat → Buffers) : Nat → Nat → Nat → Nat → List Demand
  | 0, _, _, _ => []
  | n + 1, off, fdPos, k =>
    readDemands (sysRead f (buffers k) (sysLseek f fdPos off) none 32) k fun r fdPos' =>
      let h := progHeader (shifted f.bytes (sysLseek f fdPos off))
      if r ≠ some 32 then []
      else if h.pType = ptLoad then
        (segmentPages h).map .page ++
          readDemands (sysRead f (buffers (k + 1)) (sysLseek f fdPos' h.pOffset) (some h.pVaddr) h.pFilesz) (k + 1)
            fun _ fdPos => headerDemands f buffers n (addU32 off 32) fdPos (k + 2)
      else headerDemands f buffers n (addU32 off 32) fdPos' (k + 1)

/-- The demands of a file. -/
def demands (f : Content) (buffers : Nat → Buffers) : List Demand :=
  readDemands (sysRead f (buffers 0) 0 none 52) 0 fun r fdPos =>
    if r ≠ some 52 then []
    else if ¬ Accepted f.bytes then []
    else headerDemands f buffers (half16 f.bytes 44) (word32 f.bytes 28) fdPos 1

/-- A demand is met by memory, or there is no page for it. -/
def Demand.run (w : World) (p : Nat) (s : Memory) : Demand → Traced Access (Option Memory)
  | .page vaddr => loadPage p s vaddr
  | .access a => do
    Traced.emit a
    return some s
  | .sleep k => return some (w.others k s)

def runDemands (w : World) (p : Nat) : List Demand → Memory → Traced Access Unit
  | [], _ => pure ()
  | d :: rest, s => do
    match ← d.run w p s with
    | none => pure ()
    | some s => runDemands w p rest s

section Refinement

variable {f : Content} {w : World} {p : Nat} {α : Type}

theorem runDemands_accesses (as : List Access) (rest : List Demand) (s : Memory) :
    (runDemands w p (as.map .access ++ rest) s).trace = as ++ (runDemands w p rest s).trace := by
  induction as with
  | nil => rfl
  | cons a as ih =>
    rw [List.map_cons, List.cons_append, runDemands, List.cons_append, ← ih]
    rfl

/-- A read and what comes after it. -/
theorem readNext_trace (st : Progress) {fdPos count : Nat} {buf : Option Nat} {g : Option Nat × Progress → Traced Access α}
    {next : Option Nat → Nat → List Demand}
    (after : ∀ r fdPos', (g (r, ⟨w.others st.reads st.memory, fdPos', st.reads + 1⟩)).trace =
      (runDemands w p (next r fdPos') (w.others st.reads st.memory)).trace) :
    (readNext f w st fdPos buf count >>= g).trace =
      (runDemands w p (readDemands (sysRead f (w.buffers st.reads) fdPos buf count) st.reads next) st.memory).trace := by
  rw [readDemands, runDemands_accesses, readNext, bind_assoc]
  cases ran : (sysRead f (w.buffers st.reads) fdPos buf count).result with
  | error e => rw [(Traced.bind_error ran).1, runDemands, Traced.trace_pure, List.append_nil]
  | ok a =>
    rw [(Traced.bind_ok ran).1, pure_bind, after]
    rfl

/-- The pages of a segment and what comes after them. -/
theorem loadPages_trace {g : Option Memory → Traced Access α} {rest : List Demand} (refused : (g none).trace = [])
    (after : ∀ s, (g (some s)).trace = (runDemands w p rest s).trace) (pages : List Nat) (s : Memory) :
    (loadPages p pages s >>= g).trace = (runDemands w p (pages.map .page ++ rest) s).trace := by
  induction pages generalizing s with
  | nil =>
    rw [loadPages, pure_bind, after]
    rfl
  | cons vaddr pages ih =>
    rw [loadPages, bind_assoc, List.map_cons, List.cons_append, runDemands, Demand.run]
    cases ran : (loadPage p s vaddr).result with
    | error e => rw [(Traced.bind_error ran).1, (Traced.bind_error ran).1]
    | ok got =>
      rw [(Traced.bind_ok ran).1, (Traced.bind_ok ran).1]
      cases got with
      | none => rw [pure_bind, refused, Traced.trace_pure]
      | some s1 => rw [ih s1]

theorem progHeaders_trace (n off : Nat) (st : Progress) :
    (progHeaders f w p n off st).trace =
      (runDemands w p (headerDemands f w.buffers n off st.fdPos st.reads) st.memory).trace := by
  induction n generalizing off st with
  | zero => rfl
  | succ n ih =>
    rw [progHeaders, headerDemands]
    apply readNext_trace st
    intro r fdPos
    dsimp only
    split
    · rfl
    split
    · rw [segmentLoad, bind_assoc]
      apply loadPages_trace
      · rfl
      · intro s
        dsimp only
        rw [bind_assoc]
        apply readNext_trace ⟨s, fdPos, st.reads + 1⟩
        intro r fdPos
        rw [pure_bind]
        exact ih _ _
    · exact ih _ _

/-- `load` makes its demands, one after another. -/
theorem load_trace (f : Content) (w : World) (p : Nat) (s : Memory) :
    (load f w p s).trace = (runDemands w p (demands f w.buffers) s).trace := by
  rw [load, demands]
  apply readNext_trace ⟨s, 0, 0⟩
  intro r fdPos
  dsimp only
  split
  · rfl
  split
  · rfl
  · cases ran : (progHeaders f w p (half16 f.bytes 44) (word32 f.bytes 28) ⟨w.others 0 s, fdPos, 1⟩).result with
    | error e => rw [(Traced.bind_error ran).1, progHeaders_trace]
    | ok b => rw [(Traced.bind_ok ran).1, progHeaders_trace, Traced.trace_pure, List.append_nil]

theorem sysExecv_trace (f : Content) (w : World) (p : Nat) (s : Memory) :
    (sysExecv (some f) w p s).trace = (runDemands w p (demands f w.buffers) s).trace := by
  rw [← load_trace, sysExecv]
  cases ran : (load f w p s).result with
  | error e => rw [(Traced.bind_error ran).1]
  | ok b => rw [(Traced.bind_ok ran).1, Traced.trace_pure, List.append_nil]

end Refinement

/-- An address of user space. -/
def InUser (vaddr : Nat) : Prop := userVaddrStart ≤ vaddr ∧ vaddr < 0xc0000000

/-- An address whose page is mapped in every address space: the first megabyte, where the
kernel is, and the entries 768 to 1023 of the directory seen as page tables. -/
def Fixed (vaddr : Nat) : Prop := 0xc0000000 ≤ vaddr ∧ vaddr < 0xc0100000 ∨ 0xfff00000 ≤ vaddr

/-- The access stays in user space and in the bitmap. The bounds of user space are those of
pages, so the page at an address of user space is all in user space. -/
def Access.Confined : Access → Prop
  | .bit idx len => idx < 8 * len
  | .page vaddr => InUser vaddr
  | .bytes vaddr n => n = 0 ∨ userVaddrStart ≤ vaddr ∧ vaddr + n ≤ 0xc0000000

instance (a : Access) : Decidable a.Confined :=
  match a with
  | .bit idx len => inferInstanceAs (Decidable (idx < 8 * len))
  | .page vaddr => inferInstanceAs (Decidable (userVaddrStart ≤ vaddr ∧ vaddr < 0xc0000000))
  | .bytes vaddr n => inferInstanceAs (Decidable (n = 0 ∨ userVaddrStart ≤ vaddr ∧ vaddr + n ≤ 0xc0000000))

/-- What may be demanded after the demands `before`: pages of user space, pages that are
mapped in any case (the table of a page demanded before is one, seen through the directory),
and bytes of user space. -/
def Demand.Harmless (before : List Demand) : Demand → Prop
  | .page vaddr => InUser vaddr ∨ Fixed vaddr ∨
      (pdeIdx vaddr = 1023 ∧ ∃ u, Demand.page u ∈ before ∧ InUser u ∧ pdeIdx u = pteIdx vaddr)
  | .access a => a.Confined
  | .sleep _ => True

/-- Every demand is harmless after those before it. -/
def HarmlessFile (f : Content) (buffers : Nat → Buffers) : Prop :=
  ∀ before d after, demands f buffers = before ++ d :: after → d.Harmless before

/-- The page tables of the loader are in place, page tables are taken from above them, and
processes have the bitmap of `create_user_vaddr_bitmap`. -/
structure Booted (s : Memory) : Prop where
  image : ∀ i, i < 256 → (s.pte (kernelTable 0) i).present = true
  pool : kernelTable 0 < s.kernelPool.phyAddrStart
  bitmap : ∀ p, (s.userVaddr p).btmpBytesLen = userBitmapLen

/-- The directory entries of process `p` stay. -/
def KeepsTables (p : Nat) (s s' : Memory) : Prop := ∀ d, (s.pde (some p) d).isSome → (s'.pde (some p) d).isSome

/-- What other tasks and the heap do to memory leaves it as it was booted, and the process
its page tables. -/
def Respects (p : Nat) (others : Nat → Memory → Memory) : Prop :=
  ∀ k s, Booted s → Booted (others k s) ∧ KeepsTables p s (others k s)

section Sound

variable {s s' s1 : Memory} {p v t g : Nat} {pf : PoolFlags}

theorem Booted.setPte (booted : Booted s) (i : Nat) : Booted (s.setPte t i ⟨g, true⟩) := by
  refine ⟨fun j lt => ?_, booted.pool, booted.bitmap⟩
  simp only [Memory.setPte]
  split
  · rfl
  · exact booted.image j lt

theorem Booted.palloc {got : Option Nat} (booted : Booted s) (took : palloc s pf = (got, s')) :
    Booted s' ∧ s'.pde = s.pde := by
  simp only [Paging.palloc] at took
  split at took
  · cases took
    exact ⟨⟨booted.image, booted.pool, booted.bitmap⟩, rfl⟩
  · cases took
    cases pf with
    | kernel => exact ⟨⟨booted.image, booted.pool, booted.bitmap⟩, rfl⟩
    | user => exact ⟨⟨booted.image, booted.pool, booted.bitmap⟩, rfl⟩

/-- **`page_table_add`** for the running process. -/
theorem Booted.pageTableAdd (booted : Booted s) (call : pageTableAdd s (some p) v g = .ok s') :
    Booted s' ∧ KeepsTables p s s' ∧ (s'.table (some p) (pdeIdx v)).isSome := by
  simp only [Paging.pageTableAdd] at call
  split at call
  · rename_i table has
    simp only [bind_ok, assertThat_ok, exists_const, pure_ok] at call
    obtain ⟨-, rfl⟩ := call
    refine ⟨booted.setPte _, fun d some => some, ?_⟩
    show (s.table (some p) (pdeIdx v)).isSome
    rw [has]
    rfl
  · rename_i absent
    simp only [bind_ok, assertThat_ok, exists_const, pure_ok] at call
    obtain ⟨-, rfl⟩ := call
    have taken : Paging.palloc s .kernel = ((Paging.palloc s .kernel).1, (Paging.palloc s .kernel).2) := rfl
    obtain ⟨booted1, pde⟩ := booted.palloc taken
    -- a new table does not lie where the table of the kernel's first pages is
    have apart : kernelTable 0 ≠ (Paging.palloc s .kernel).1.getD 0 := by
      cases got : (Paging.palloc s .kernel).1 with
      | none => simp [kernelTable]
      | some table =>
        rw [got] at taken
        obtain ⟨k, -, -, rfl, -⟩ := palloc_some taken
        have := booted.pool
        simp only [Option.getD_some, Memory.frameAt, Memory.pool]
        omega
    have added : Booted ((Paging.palloc s .kernel).2.addTable (some p) (pdeIdx v) ((Paging.palloc s .kernel).1.getD 0)) := by
      refine ⟨fun i lt => ?_, booted1.pool, booted1.bitmap⟩
      simp only [Memory.addTable, if_neg apart]
      exact booted1.image i lt
    refine ⟨added.setPte _, fun d some => ?_, ?_⟩
    · simp only [Memory.setPte, Memory.addTable, pde]
      split
      · rfl
      · exact some
    · simp only [Memory.table, Memory.setPte, Memory.addTable]
      split
      · rfl
      · simp

/-- **`get_a_page`** for the running process, when there is a page. -/
theorem Booted.getAPage (booted : Booted s) (call : getAPage s (some p) .user v = .ok (some g, s')) :
    g = v ∧ Booted s' ∧ KeepsTables p s s' ∧ (s'.table (some p) (pdeIdx v)).isSome := by
  obtain ⟨-, s1, rfl, ⟨-, none⟩ | ⟨frame, s2, took, added, some⟩⟩ := getAPage_cases call
  · cases none
  cases some
  have marked : Booted (s.setVaddr (some p) (bitmapSet (s.userVaddr p) (bitIdx (some p) v) true)) := by
    refine ⟨booted.image, booted.pool, fun q => ?_⟩
    simp only [Memory.setVaddr]
    split
    · rw [bitmapSet_len, booted.bitmap]
    · exact booted.bitmap q
  obtain ⟨booted1, pde⟩ := marked.palloc took
  obtain ⟨booted2, keeps, has⟩ := booted1.pageTableAdd added
  refine ⟨rfl, booted2, fun d some => keeps d ?_, has⟩
  rw [pde]
  exact some

/-- Memory while the demands `before` have been met. -/
structure Met (p : Nat) (before : List Demand) (s : Memory) : Prop where
  booted : Booted s
  tables : ∀ u, Demand.page u ∈ before → InUser u → (s.pde (some p) (pdeIdx u)).isSome

theorem InUser.pdeIdx_lt (user : InUser v) : pdeIdx v < 768 := by
  obtain ⟨lo, hi⟩ := user
  unfold pdeIdx
  omega

theorem table_of_user (user : InUser v) : s.table (some p) (pdeIdx v) = s.pde (some p) (pdeIdx v) :=
  if_neg (by have := user.pdeIdx_lt; omega)

theorem Booted.present_fixed (booted : Booted s) (lt : v < 2 ^ 32) (fixed : Fixed v) : present s p v = true := by
  unfold present
  rcases fixed with ⟨lo, hi⟩ | lo
  · have dir : pdeIdx v = 768 := by unfold pdeIdx; omega
    have entry : pteIdx v < 256 := by unfold pteIdx pgSize; omega
    rw [if_neg (by omega), dir]
    exact booted.image _ entry
  · have dir : pdeIdx v = 1023 := by unfold pdeIdx; omega
    have entry : 768 ≤ pteIdx v := by unfold pteIdx pgSize; omega
    rw [if_pos dir, table_kernel entry]
    rfl

theorem present_table (user : InUser v) (here : present s p v = true) : (s.pde (some p) (pdeIdx v)).isSome := by
  have lt := user.pdeIdx_lt
  unfold present at here
  rw [if_neg (by omega), table_of_user user] at here
  split at here
  · cases here
  · rename_i table has
    rw [has]
    rfl

theorem bitIdx_user (user : InUser v) : bitIdx (some p) v < 8 * userBitmapLen := by
  obtain ⟨lo, hi⟩ := user
  simp only [bitIdx, vaddrStart, userBitmapLen, userVaddrStart, pgSize] at *
  omega

theorem bitIdx_outside (lt : v < 2 ^ 32) (outside : ¬ InUser v) : 8 * userBitmapLen ≤ bitIdx (some p) v := by
  simp only [InUser, bitIdx, vaddrStart, userBitmapLen, userVaddrStart, pgSize] at *
  omega

theorem Met.step {before : List Demand} {d : Demand} (met : Met p before s) (booted : Booted s') (keeps : KeepsTables p s s')
    (new : ∀ u, d = .page u → InUser u → (s'.pde (some p) (pdeIdx u)).isSome) : Met p (before ++ [d]) s' := by
  refine ⟨booted, fun u asked user => ?_⟩
  rcases List.mem_append.1 asked with old | last
  · exact keeps _ (met.tables u old user)
  · exact new u (List.mem_singleton.1 last).symm user

/-- A harmless demand makes harmless accesses. -/
theorem Met.run {w : World} {before : List Demand} {d : Demand} (respects : Respects p w.others) (met : Met p before s)
    (small : ∀ v, d = .page v → v < 2 ^ 32) (harmless : d.Harmless before) :
    (d.run w p s).Only Access.Confined ∧ ∀ s', (d.run w p s).result = .ok (some s') → Met p (before ++ [d]) s' := by
  cases d with
  | access a =>
    refine ⟨?_, fun s' ran => ?_⟩
    · intro e mem
      cases List.mem_singleton.1 mem
      exact harmless
    · cases ran
      exact met.step met.booted (fun _ h => h) nofun
  | sleep k =>
    refine ⟨nofun, fun s' ran => ?_⟩
    cases ran
    obtain ⟨booted, keeps⟩ := respects k s met.booted
    exact met.step booted keeps nofun
  | page v =>
    rw [Demand.run, loadPage]
    cases here : present s p v with
    | true =>
      refine ⟨nofun, fun s' ran => ?_⟩
      cases ran
      refine met.step met.booted (fun _ h => h) fun u is user => ?_
      cases is
      exact present_table user here
    | false =>
      -- the pages that are mapped in any case are not missing
      have user : InUser v := by
        rcases harmless with user | fixed | ⟨dir, u, asked, user, region⟩
        · exact user
        · rw [met.booted.present_fixed (small v rfl) fixed] at here
          cases here
        · have table := met.tables u asked user
          rw [present, if_pos dir, ← region, table_of_user user, table] at here
          cases here
      have bit : (Access.bit (bitIdx (some p) v) (s.userVaddr p).btmpBytesLen).Confined := by
        show _ < 8 * _
        rw [met.booted.bitmap]
        exact bitIdx_user user
      rw [if_neg (by simp)]
      cases got : getAPage s (some p) .user v with
      | error e =>
        refine ⟨fun a mem => ?_, nofun⟩
        cases List.mem_singleton.1 mem
        exact bit
      | ok r =>
        obtain ⟨page, s1⟩ := r
        cases page with
        | none =>
          refine ⟨fun a mem => ?_, nofun⟩
          cases List.mem_singleton.1 mem
          exact bit
        | some page =>
          obtain ⟨rfl, booted, keeps, table⟩ := met.booted.getAPage got
          refine ⟨fun a mem => ?_, fun s' ran => ?_⟩
          · rcases List.mem_cons.1 mem with rfl | mem
            · exact bit
            · cases List.mem_singleton.1 mem
              exact user
          · cases ran
            refine met.step booted keeps fun u is user => ?_
            cases is
            rw [← table_of_user user]
            exact table

/-- Harmless demands make harmless accesses. -/
theorem Met.runDemands {w : World} (respects : Respects p w.others) (ds : List Demand) {before : List Demand}
    (met : Met p before s) (small : ∀ v, Demand.page v ∈ ds → v < 2 ^ 32)
    (harmless : ∀ pre d post, ds = pre ++ d :: post → d.Harmless (before ++ pre)) :
    (runDemands w p ds s).Only Access.Confined := by
  induction ds generalizing before s with
  | nil => exact nofun
  | cons d ds ih =>
    obtain ⟨first, next⟩ := met.run respects (fun v is => small v (is ▸ List.mem_cons_self))
      (by simpa using harmless [] d ds rfl)
    rw [Load.runDemands]
    cases ran : (d.run w p s).result with
    | error e =>
      rw [Traced.Only, (Traced.bind_error ran).1]
      exact first
    | ok got =>
      rw [Traced.Only, (Traced.bind_ok ran).1]
      intro a mem
      rcases List.mem_append.1 mem with here | later
      · exact first a here
      · cases got with
        | none => cases later
        | some s1 =>
          refine ih (next s1 ran) (fun v asked => small v (List.mem_cons_of_mem _ asked)) (fun pre d' post is => ?_) a later
          rw [List.append_assoc]
          exact harmless (d :: pre) d' post (by rw [is]; rfl)

end Sound

section Pages

variable {f : Content} {buffers : Nat → Buffers} {v : Nat}

theorem page_mem_readDemands {x : Traced Access (Option Nat × Nat)} {k : Nat} {next : Option Nat → Nat → List Demand} :
    Demand.page v ∈ readDemands x k next → ∃ r fdPos, Demand.page v ∈ next r fdPos := by
  intro mem
  rcases List.mem_append.1 mem with stored | rest
  · obtain ⟨a, -, is⟩ := List.mem_map.1 stored
    cases is
  · split at rest
    · rename_i r fdPos ran
      rcases List.mem_cons.1 rest with is | rest
      · cases is
      · exact ⟨r, fdPos, rest⟩
    · cases rest

theorem headerDemands_page (n off fdPos k : Nat) : Demand.page v ∈ headerDemands f buffers n off fdPos k → v < 2 ^ 32 := by
  induction n generalizing off fdPos k with
  | zero => exact nofun
  | succ n ih =>
    intro mem
    obtain ⟨r, fdPos', mem⟩ := page_mem_readDemands mem
    dsimp only at mem
    split at mem
    · cases mem
    split at mem
    · rcases List.mem_append.1 mem with page | mem
      · obtain ⟨u, page, is⟩ := List.mem_map.1 page
        cases is
        obtain ⟨i, -, rfl⟩ := List.mem_map.1 page
        exact Nat.mod_lt _ (by decide)
      · obtain ⟨r, fdPos, mem⟩ := page_mem_readDemands mem
        exact ih _ _ _ mem
    · exact ih _ _ _ mem

/-- The pages demanded are addresses of 32 bits. -/
theorem demands_page (mem : Demand.page v ∈ demands f buffers) : v < 2 ^ 32 := by
  obtain ⟨r, fdPos, mem⟩ := page_mem_readDemands mem
  split at mem
  · cases mem
  split at mem
  · cases mem
  · exact headerDemands_page _ _ _ _ mem

end Pages

section Complete

/-- Memory in which all pages of user space are mapped, those of one directory entry apart,
and nothing else that need not be. -/
def roomy (gap : Option Nat) : Memory where
  kernelPool := ⟨⟨0, fun _ => 0#8⟩, usedMem⟩
  userPool := ⟨⟨0, fun _ => 0#8⟩, usedMem⟩
  kernelVaddr := ⟨0, fun _ => 0#8⟩
  userVaddr := fun _ => ⟨userBitmapLen, fun _ => 0#8⟩
  pde := fun _ d => if 32 ≤ d ∧ d < 768 ∧ gap ≠ some d then some d else none
  pte := fun table i =>
    ⟨0, if table < 768 then decide (userVaddrStart ≤ table * 2 ^ 22 + i * pgSize) else decide (table = kernelTable 0 ∧ i < 256)⟩
  starved := false

theorem roomy_booted (gap : Option Nat) : Booted (roomy gap) := by
  refine ⟨fun i lt => ?_, show kernelTable 0 < usedMem by decide, fun p => rfl⟩
  simp [roomy, lt, kernelTable]

variable {p v : Nat} {gap : Option Nat}

theorem InUser.pde_roomy (user : InUser v) (there : gap ≠ some (pdeIdx v)) : (roomy gap).pde (some p) (pdeIdx v) = some (pdeIdx v) := by
  have lt := user.pdeIdx_lt
  have ge : 32 ≤ pdeIdx v := by
    have := user.1
    simp only [pdeIdx, userVaddrStart] at *
    omega
  exact if_pos ⟨ge, lt, there⟩

theorem InUser.present_roomy (user : InUser v) (there : gap ≠ some (pdeIdx v)) : present (roomy gap) p v = true := by
  have lt := user.pdeIdx_lt
  rw [present, if_neg (by omega), table_of_user user, user.pde_roomy there]
  simp only [roomy, if_pos lt]
  rw [decide_eq_true_iff]
  have := user.1
  simp only [userVaddrStart, pdeIdx, pteIdx, pgSize] at *
  omega

/-- A page outside user space that is not mapped in any case may be missing. -/
theorem roomy_absent (lt : v < 2 ^ 32) (outside : ¬ InUser v) (free : ¬ Fixed v)
    (isGap : pdeIdx v = 1023 → gap = some (pteIdx v)) : present (roomy gap) p v = false := by
  unfold present
  split
  · rename_i dir
    -- an entry of the directory, seen as a table
    have entry : pteIdx v < 768 := by
      simp only [Fixed, pdeIdx, pteIdx, pgSize] at *
      omega
    rw [isGap dir, Memory.table, if_neg (by omega)]
    simp [roomy]
  · rename_i dir
    by_cases kernel : 768 ≤ pdeIdx v
    · rw [table_kernel kernel]
      have table : ¬ kernelTable (pdeIdx v - 768) < 768 := by
        unfold kernelTable
        omega
      simp only [roomy, if_neg table, decide_eq_false_iff_not]
      rintro ⟨first, low⟩
      simp only [Fixed, kernelTable, pdeIdx, pteIdx, pgSize] at *
      omega
    · rw [Memory.table, if_neg kernel]
      simp only [roomy]
      split
      · rfl
      · rename_i table has
        split at has
        · cases has
          rw [if_pos (by omega), decide_eq_false_iff_not]
          simp only [InUser, userVaddrStart, pdeIdx, pteIdx, pgSize] at *
          omega
        · cases has

/-- Demands that memory meets already are passed over. -/
theorem runDemands_quiet {buffers : Nat → Buffers} {s : Memory} {P : Access → Prop} (pre rest : List Demand)
    (met : ∀ u, Demand.page u ∈ pre → present s p u = true)
    (only : (runDemands ⟨buffers, fun _ s => s⟩ p (pre ++ rest) s).Only P) :
    (runDemands ⟨buffers, fun _ s => s⟩ p rest s).Only P := by
  induction pre with
  | nil => exact only
  | cons d pre ih =>
    refine ih (fun u asked => met u (List.mem_cons_of_mem _ asked)) fun a mem => only a ?_
    rw [List.cons_append, runDemands]
    cases d with
    | page u =>
      rw [Demand.run, loadPage, if_pos (met u List.mem_cons_self), pure_bind]
      exact mem
    | access b => exact List.mem_cons_of_mem _ mem
    | sleep k => exact mem

/-- The directory entry to leave out so that a page is missing that is not harmless. -/
def gapFor : Demand → Option Nat
  | .page v => if pdeIdx v = 1023 then some (pteIdx v) else none
  | _ => none

theorem gapFor_unseen {before : List Demand} {d : Demand} (bad : ¬ d.Harmless before) {u : Nat}
    (asked : Demand.page u ∈ before) (user : InUser u) : gapFor d ≠ some (pdeIdx u) := by
  intro same
  cases d with
  | access a => cases same
  | sleep k => cases same
  | page v =>
    simp only [gapFor] at same
    split at same
    · rename_i dir
      exact bad (.inr (.inr ⟨dir, u, asked, user, (Option.some.inj same).symm⟩))
    · cases same

/-- Harmless demands are met by a memory that lacks one page table for a page that is not. -/
theorem present_harmless {before : List Demand} (unseen : ∀ u, Demand.page u ∈ before → InUser u → gap ≠ some (pdeIdx u))
    (lt : v < 2 ^ 32) (harmless : (Demand.page v).Harmless before) (asked : Demand.page v ∈ before) :
    present (roomy gap) p v = true := by
  rcases harmless with user | fixed | ⟨dir, u, askedU, user, region⟩
  · exact user.present_roomy (unseen v asked user)
  · exact (roomy_booted gap).present_fixed lt fixed
  · rw [present, if_pos dir, ← region, table_of_user user, user.pde_roomy (unseen u askedU user)]
    rfl

/-- A demand that is not harmless makes an access that is not, in some memory. -/
theorem not_only_of_bad (buffers : Nat → Buffers) {before after : List Demand} {d : Demand}
    (small : ∀ v, Demand.page v ∈ before ++ d :: after → v < 2 ^ 32)
    (earlier : ∀ u, Demand.page u ∈ before → (Demand.page u).Harmless before) (bad : ¬ d.Harmless before) :
    ¬ (runDemands ⟨buffers, fun _ s => s⟩ p (before ++ d :: after) (roomy (gapFor d))).Only Access.Confined := by
  intro only
  have here := runDemands_quiet before (d :: after) (fun u asked =>
    present_harmless (fun u' => gapFor_unseen bad) (small u (List.mem_append_left _ asked)) (earlier u asked) asked) only
  rw [runDemands] at here
  cases d with
  | sleep k => exact bad trivial
  | access a => exact bad (here a List.mem_cons_self)
  | page v =>
    have lt := small v (List.mem_append_right _ List.mem_cons_self)
    have outside : ¬ InUser v := fun user => bad (.inl user)
    have absent : present (roomy (gapFor (.page v))) p v = false :=
      roomy_absent lt outside (fun fixed => bad (.inr (.inl fixed))) (fun dir => if_pos dir)
    have set : Access.bit (bitIdx (some p) v) userBitmapLen ∈
        (loadPage p (roomy (gapFor (.page v))) v).trace := by
      rw [loadPage, if_neg (by simp [absent])]
      exact List.mem_cons_self
    have := here _ (by
      cases ran : (loadPage p (roomy (gapFor (.page v))) v).result with
      | error e =>
        rw [Demand.run, (Traced.bind_error ran).1]
        exact set
      | ok got =>
        rw [Demand.run, (Traced.bind_ok ran).1]
        exact List.mem_append_left _ set)
    have := bitIdx_outside (p := p) lt outside
    simp only [Access.Confined] at *
    omega

theorem Demand.Harmless.mono {before before' : List Demand} {d : Demand} (sub : ∀ u, Demand.page u ∈ before → Demand.page u ∈ before')
    (harmless : d.Harmless before) : d.Harmless before' := by
  cases d with
  | sleep k => trivial
  | access a => exact harmless
  | page v =>
    rcases harmless with user | fixed | ⟨dir, u, asked, user, region⟩
    · exact .inl user
    · exact .inr (.inl fixed)
    · exact .inr (.inr ⟨dir, u, sub u asked, user, region⟩)

end Complete

/-- **Loading a file** stays in user space in every memory exactly when its demands are
harmless. -/
theorem sysExecv_confined_iff (f : Content) (buffers : Nat → Buffers) :
    (∀ p s others, Booted s → Respects p others → (sysExecv (some f) ⟨buffers, others⟩ p s).Only Access.Confined) ↔
      HarmlessFile f buffers := by
  constructor
  · intro confined before
    -- the first demand that is not harmless is made in a memory that meets those before it
    obtain ⟨n, is⟩ : ∃ n, before.length = n := ⟨_, rfl⟩
    induction n using Nat.strongRecOn generalizing before with
    | ind n ih =>
      intro d after isSplit
      by_contra bad
      have small : ∀ v, Demand.page v ∈ before ++ d :: after → v < 2 ^ 32 := fun v asked => demands_page (isSplit ▸ asked)
      refine not_only_of_bad (p := 0) buffers small (fun u asked => ?_) bad ?_
      · obtain ⟨pre, post, cut⟩ := List.append_of_mem asked
        have shorter : pre.length < n := by
          rw [← is, cut, List.length_append, List.length_cons]
          omega
        have harmless := ih pre.length shorter pre rfl (.page u) (post ++ d :: after) (by
          rw [isSplit, cut, List.append_assoc, List.cons_append])
        refine harmless.mono fun v earlier => ?_
        rw [cut]
        exact List.mem_append_left _ earlier
      · have run := confined 0 (roomy (gapFor d)) (fun _ s => s) (roomy_booted _) (fun k s booted => ⟨booted, fun _ h => h⟩)
        rw [Traced.Only, sysExecv_trace, isSplit] at run
        exact run
  · intro harmless p s others booted respects
    rw [Traced.Only, sysExecv_trace]
    have met : Met p [] s := ⟨booted, fun u asked => absurd asked List.not_mem_nil⟩
    exact met.runDemands respects _ (fun v => demands_page) harmless

/-- A program of one segment, its own 84 bytes, at address 0x1000. -/
def lowProgram : Content where
  bytes := fun x => [0x7f#8, 0x45#8, 0x4c#8, 0x46#8, 1#8, 1#8, 1#8, 0#8, 0#8, 0#8, 0#8, 0#8, 0#8, 0#8, 0#8, 0#8,
    2#8, 0#8, 3#8, 0#8, 1#8, 0#8, 0#8, 0#8, 0#8, 0x10#8, 0#8, 0#8, 52#8, 0#8, 0#8, 0#8, 0#8, 0#8, 0#8, 0#8, 0#8, 0#8, 0#8, 0#8,
    52#8, 0#8, 32#8, 0#8, 1#8, 0#8, 0#8, 0#8, 0#8, 0#8, 0#8, 0#8,
    1#8, 0#8, 0#8, 0#8, 0#8, 0#8, 0#8, 0#8, 0#8, 0x10#8, 0#8, 0#8, 0#8, 0x10#8, 0#8, 0#8, 84#8, 0#8, 0#8, 0#8, 84#8, 0#8, 0#8, 0#8,
    5#8, 0#8, 0#8, 0#8, 0#8, 0x10#8, 0#8, 0#8].getD x 0#8
  iSize := 84

/-- It is loaded there by a process on a machine of 32 MB: bit 1015737 of a bitmap of 753592
is set and a page below user space is mapped and filled. -/
theorem lowProgram_unconfined :
    Booted (memPoolInit 0x2000000) ∧ Respects 1 (fun _ s => s) ∧
      (sysExecv (some lowProgram) ⟨fun _ => ⟨true, true⟩, fun _ s => s⟩ 1 (memPoolInit 0x2000000)).trace =
        [.bit 1015737 94199, .page 0x1000, .bytes 0x1000 84] ∧
      ¬ (sysExecv (some lowProgram) ⟨fun _ => ⟨true, true⟩, fun _ s => s⟩ 1 (memPoolInit 0x2000000)).Only Access.Confined := by
  have trace : (sysExecv (some lowProgram) ⟨fun _ => ⟨true, true⟩, fun _ s => s⟩ 1 (memPoolInit 0x2000000)).trace =
      [.bit 1015737 94199, .page 0x1000, .bytes 0x1000 84] := by decide
  refine ⟨⟨fun i lt => ?_, by decide, fun _ => rfl⟩, fun k s booted => ⟨booted, fun _ h => h⟩, trace, fun only => ?_⟩
  · simp [memPoolInit, lt]
  · have := only (.page 0x1000) (by rw [trace]; simp)
    exact absurd this (by decide)

end Sparrow.Load
