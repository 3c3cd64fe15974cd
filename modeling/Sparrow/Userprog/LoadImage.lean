import Sparrow.Userprog.Confinement
import Sparrow.Userprog.ForkCopy

/-!
# What a loaded program contains

`load` of `userprog/exec.c` once more, now with the contents of the frames. A segment is the
`p_filesz` bytes of the file that are stored for it; `p_memsz` is a field that `load` does not look
at. What a task sees of its memory is a partial function of the address, to which loading adds the
bytes of one segment after another (`load_image`).
-/

namespace Sparrow.LoadImage
set_option autoImplicit false

open Paging ForkCopy
open Load hiding World Progress store fileRead sysRead loadPage loadPages readNext segmentLoad progHeaders load

/-- What surrounds a run: the outcome of the allocations of each read, and what happens to memory
while the task sleeps. -/
structure World where
  buffers : Nat → Buffers
  others : Nat → Ram → Ram

/-- What the loops of `load` carry: memory, `fd_pos` and how often the task has slept. -/
structure Progress where
  ram : Ram
  fdPos : Nat
  time : Nat

/-- The task allocates or waits for the disk. -/
def Progress.sleep (w : World) (st : Progress) : Progress := { st with ram := w.others st.time st.ram, time := st.time + 1 }

@[simp] theorem Progress.sleep_fdPos (w : World) (st : Progress) : (st.sleep w).fdPos = st.fdPos := rfl

/-- `memcpy(dst, src, n)`, byte by byte. -/
def memcpy (cur : Option Nat) : Nat → Nat → Image → Ram → Exec Ram
  | 0, _, _, r => return r
  | n + 1, dst, src, r => do
    let f ← frameOf r.mem cur dst
    memcpy cur n (addU32 dst 1) (shifted src 1) { r with phys := Function.update r.phys (f + dst % pgSize) (src 0) }

/-- The loop of `file_read`, with `left` bytes to go. It ends early where it leaves the 140 block
addresses. -/
def readLoop (f : Content) (w : World) (p : Nat) : Nat → Nat → Nat → Progress → Exec Progress
  | 0, _, _, st => return st
  | fuel + 1, left, dst, st =>
    if left = 0 then return st
    else do
      defined (st.fdPos / 512 < 140)
      let secLeftBytes := 512 - st.fdPos % 512
      let chunkSize := if left < secLeftBytes then left else secLeftBytes
      let st := st.sleep w
      let ram ← memcpy (some p) chunkSize dst (shifted f.bytes st.fdPos) st.ram
      readLoop f w p fuel (left - chunkSize) (addU32 dst chunkSize) { st with ram := ram, fdPos := addU32 st.fdPos chunkSize }

/-- `file_read`; the buffer is `none` for a variable of the caller. -/
def fileRead (f : Content) (w : World) (p : Nat) (st : Progress) (buf : Option Nat) (count : Nat) :
    Exec (Option Nat × Progress) := do
  match ← fileReadSize f (w.buffers st.time) st.fdPos count with
  | none => return (none, st.sleep w)
  | some size =>
    match buf with
    | none => do
      defined (size = 0 ∨ st.fdPos + size ≤ 512 * 140)
      return (some size, { st.sleep w with fdPos := st.fdPos + size })
    | some dst => do
      let st ← readLoop f w p size size dst (st.sleep w)
      return (some size, st)

/-- `sys_read` of the file. -/
def sysRead (f : Content) (w : World) (p : Nat) (st : Progress) (buf : Option Nat) (count : Nat) :
    Exec (Option Nat × Progress) := do
  assertThat (buf ≠ some 0)
  fileRead f w p st buf count

/-- One turn of the loop of `segment_load`; false when there is no memory. -/
def loadPage (p : Nat) (r : Ram) (vaddr : Nat) : Exec (Bool × Ram) :=
  if present r.mem p vaddr then return (true, r)
  else do
    let (page, mem) ← getAPage r.mem (some p) .user vaddr
    return (page.isSome, { r with mem := mem })

/-- The loop of `segment_load`. -/
def loadPages (p : Nat) : List Nat → Ram → Exec (Bool × Ram)
  | [], r => return (true, r)
  | vaddr :: rest, r => do
    match ← loadPage p r vaddr with
    | (false, r) => return (false, r)
    | (true, r) => loadPages p rest r

/-- `segment_load`. The results of `sys_lseek` and `sys_read` are ignored. -/
def segmentLoad (f : Content) (w : World) (p : Nat) (st : Progress) (h : Elf32Phdr) : Exec (Bool × Progress) := do
  match ← loadPages p (segmentPages h) st.ram with
  | (false, r) => return (false, { st with ram := r })
  | (true, r) =>
    let (_, st) ← sysRead f w p { st with ram := r, fdPos := Load.sysLseek f st.fdPos h.pOffset } (some h.pVaddr) h.pFilesz
    return (true, st)

/-- The loop over the program headers; false when `load` returns -1. -/
def progHeaders (f : Content) (w : World) (p : Nat) : Nat → Nat → Progress → Exec (Bool × Progress)
  | 0, _, st => return (true, st)
  | n + 1, off, st => do
    let fdPos := Load.sysLseek f st.fdPos off
    let (got, st) ← sysRead f w p { st with fdPos := fdPos } none 32
    if got ≠ some 32 then return (false, st)
    else
      let h := progHeader (shifted f.bytes fdPos)
      if h.pType = ptLoad then
        match ← segmentLoad f w p st h with
        | (false, st) => return (false, st)
        | (true, st) => progHeaders f w p n (addU32 off 32) st
      else progHeaders f w p n (addU32 off 32) st

/-- `load` of an opened file: `e_entry` or -1. `sys_close` gives memory back. -/
def load (f : Content) (w : World) (p : Nat) (r : Ram) : Exec (Int × Ram) := do
  let (got, st) ← sysRead f w p ⟨r, 0, 0⟩ none 52
  if got ≠ some 52 then return (-1, (st.sleep w).ram)
  else if ¬ Accepted f.bytes then return (-1, (st.sleep w).ram)
  else
    let (ok, st) ← progHeaders f w p (half16 f.bytes 44) (word32 f.bytes 28) st
    return (if ok then toInt32 (word32 f.bytes 24) else -1, (st.sleep w).ram)

/-! Memory as a task sees it. -/

/-- The byte at an address of task `p`; without one it is a page fault. -/
def view (r : Ram) (p u : Nat) : Option Byte := (r.mem.frame (some p) u).map fun f => r.phys (f + u % pgSize)

/-- The bytes of `new`, over those of `old`. -/
def overlay (new old : Nat → Option Byte) : Nat → Option Byte := fun u => (new u).or (old u)

/-- `n` bytes of `src` at `a`. -/
def bytesAt (a n : Nat) (src : Image) : Nat → Option Byte := fun u => if a ≤ u ∧ u < a + n then some (src (u - a)) else none

/-- The bytes that are stored by `p`, for the task `q`. -/
def seenBy (p q : Nat) (new : Nat → Option Byte) : Nat → Option Byte := if q = p then new else fun _ => none

/-- Task `q` sees the bytes of `new`, and where there are none what it saw before. -/
structure Grows (q : Nat) (new : Nat → Option Byte) (r r' : Ram) : Prop where
  frames : Frames r'.mem
  stored : ∀ u b, InUser u → new u = some b → view r' q u = some b
  kept : ∀ u b, InUser u → new u = none → view r q u = some b → view r' q u = some b

/-- What a step does for task `q`, unless an allocation fails. -/
def Does (q : Nat) (new : Nat → Option Byte) (r r' : Ram) : Prop :=
  r'.mem.starved = false → r.mem.starved = false ∧ (Frames r.mem → Grows q new r r')

/-- Whatever happens while the task sleeps, the bytes of task `q` stay. -/
def Apart (q : Nat) (others : Nat → Ram → Ram) : Prop := ∀ k r, Does q (fun _ => none) r (others k r)

section Views

variable {q p a b n : Nat} {new old : Nat → Option Byte} {r r' r1 r2 : Ram} {src : Image}

theorem Does.refl : Does q (fun _ => none) r r := fun fed => ⟨fed, fun fr => ⟨fr, nofun, fun _ _ _ _ seen => seen⟩⟩

theorem Does.trans (first : Does q old r r1) (second : Does q new r1 r2) : Does q (overlay new old) r r2 := by
  intro fed
  obtain ⟨fed1, later⟩ := second fed
  obtain ⟨fed0, before⟩ := first fed1
  refine ⟨fed0, fun fr => ?_⟩
  have one := before fr
  have two := later one.frames
  refine ⟨two.frames, fun u b user is => ?_, fun u b user is seen => ?_⟩
  · rcases Option.or_eq_some_iff.1 is with here | ⟨none, here⟩
    · exact two.stored u b user here
    · exact two.kept u b user none (one.stored u b user here)
  · obtain ⟨none, none'⟩ := Option.or_eq_none_iff.1 is
    exact two.kept u b user none (one.kept u b user none' seen)

theorem overlay_none : overlay new (fun _ => none) = new := by
  funext u
  exact Option.or_none

theorem none_overlay : overlay (fun _ => none) old = old := by
  funext u
  exact Option.none_or

theorem overlay_seenBy : overlay (seenBy p q new) (seenBy p q old) = seenBy p q (overlay new old) := by
  unfold seenBy
  split
  · rfl
  · exact overlay_none

theorem Does.after (first : Does q (fun _ => none) r r1) (second : Does q new r1 r2) : Does q new r r2 := by
  have whole := first.trans second
  rwa [overlay_none] at whole

theorem Does.before (first : Does q old r r1) (second : Does q (fun _ => none) r1 r2) : Does q old r r2 := by
  have whole := first.trans second
  rwa [none_overlay] at whole

theorem bytesAt_zero : bytesAt a 0 src = fun _ => none := by
  funext u
  exact if_neg (by omega)

/-- Bytes in two parts. -/
theorem bytesAt_add (m n : Nat) : overlay (bytesAt (a + m) n (shifted src m)) (bytesAt a m src) = bytesAt a (m + n) src := by
  funext u
  simp only [overlay, bytesAt, shifted]
  by_cases second : a + m ≤ u ∧ u < a + m + n
  · rw [if_pos second, if_pos (show a ≤ u ∧ u < a + (m + n) by omega), Option.some_or, show m + (u - (a + m)) = u - a by omega]
  · rw [if_neg second, Option.none_or]
    by_cases first : a ≤ u ∧ u < a + m
    · rw [if_pos first, if_pos (show a ≤ u ∧ u < a + (m + n) by omega)]
    · rw [if_neg first, if_neg (show ¬ (a ≤ u ∧ u < a + (m + n)) by omega)]

end Views

section Frames

variable {s s' : Memory} {p q u v f g : Nat} {cur : Option Nat}

theorem pageAddr_bitIdx (user : InUser u) : pageAddr (some p) (bitIdx (some p) u) = u - u % pgSize := by
  obtain ⟨lo, hi⟩ := user
  simp only [pageAddr, bitIdx, vaddrStart, userVaddrStart, pgSize] at *
  omega

theorem frame_page (u : Nat) : s.frame cur (u - u % pgSize) = s.frame cur u := by
  have dir : pdeIdx (u - u % pgSize) = pdeIdx u := by
    simp only [pdeIdx, pgSize]
    omega
  have idx : pteIdx (u - u % pgSize) = pteIdx u := by
    simp only [pteIdx, pgSize]
    omega
  rw [Memory.frame, dir, idx, Memory.frame]

/-- The frame behind an address of user space is held by its page. -/
theorem frame_user_iff (lay : Paging.Layout s) (user : InUser u) :
    s.frame (some p) u = some f ↔ s.Holds (.page (some p) (bitIdx (some p) u)) f := by
  have inside : bitIdx (some p) u < 8 * (s.vaddr (some p)).btmpBytesLen := by
    have len : (s.vaddr (some p)).btmpBytesLen = userBitmapLen := lay.user p
    rw [len]
    exact bitIdx_user user
  rw [holds_page_iff, pageAddr_bitIdx user, frame_page]
  exact (and_iff_right inside).symm

/-- No byte of physical memory is behind two addresses. -/
theorem phys_inj (fr : Frames s) (user : InUser u) (user' : InUser v) (isFrame : s.frame (some p) u = some f)
    (isFrame' : s.frame (some q) v = some g) (same : f + u % pgSize = g + v % pgSize) : q = p ∧ v = u := by
  have held := (frame_user_iff fr.layout user).1 isFrame
  have held' := (frame_user_iff fr.layout user').1 isFrame'
  have aligned := (fr.ofPool held).1.1
  have aligned' := (fr.ofPool held').1.1
  have eq : f = g := by
    unfold pgSize at *
    omega
  subst eq
  have page := fr.unique _ _ _ held held'
  simp only [Holder.page.injEq, Option.some.injEq] at page
  obtain ⟨rfl, idx⟩ := page
  have addr := pageAddr_bitIdx (p := p) user
  rw [idx, pageAddr_bitIdx user'] at addr
  refine ⟨rfl, ?_⟩
  unfold pgSize at *
  omega

theorem present_iff_frame (user : InUser v) : present s p v = true ↔ (s.frame (some p) v).isSome = true := by
  have lt := user.pdeIdx_lt
  rw [present, if_neg (by omega), Memory.frame]
  cases isTable : s.table (some p) (pdeIdx v) with
  | none => simp
  | some t =>
    rw [Option.bind_some]
    cases here : (s.pte t (pteIdx v)).present <;> simp [here]

/-- **`get_a_page`** of a page of user space changes the translation of that page only. -/
theorem getAPage_frame (fr : Frames s) (user : InUser v) (aligned : v % pgSize = 0) {page : Option Nat}
    (call : getAPage s (some p) .user v = .ok (page, s')) (fed : s'.starved = false) :
    Frames s' ∧ ∃ f, ∀ q u, InUser u → s'.frame (some q) u = if SharesEntry p q v u then some f else s.frame (some q) u := by
  obtain ⟨-, s1, isS1, ⟨taken, -⟩ | ⟨f, s2, taken, add, -⟩⟩ := getAPage_cases call
  · rw [palloc_none taken] at fed
    cases fed
  have len : (bitmapSet (s.vaddr (some p)) (bitIdx (some p) v) true).btmpBytesLen = (s.vaddr (some p)).btmpBytesLen := rfl
  have fr1 : Frames s1 := by
    rw [isS1]
    exact fr.setVaddr len
  have inside : bitIdx (some p) v < 8 * (s1.vaddr (some p)).btmpBytesLen := by
    have whole : (s1.vaddr (some p)).btmpBytesLen = userBitmapLen := fr1.layout.user p
    rw [whole]
    exact bitIdx_user user
  have addr : pageAddr (some p) (bitIdx (some p) v) = v := by
    rw [pageAddr_bitIdx user, aligned, Nat.sub_zero]
  have mapped := mapOne fr1 inside (.inr rfl) taken (addr.symm ▸ add) fed
  refine ⟨mapped.frames, f, fun q u user' => ?_⟩
  have lt := user.pdeIdx_lt
  have lt' := user'.pdeIdx_lt
  rw [pageTableAdd_frame (fr1.palloc taken) (by omega) add fed (by omega)]
  obtain ⟨k, -, -, -, rfl⟩ := palloc_some taken
  rw [setPool_frame, isS1, setVaddr_frame]

end Frames

/-! Steps of the loader. -/

section Steps

variable {p q a n f u v : Nat} {r r' : Ram} {src : Image}

theorem view_eq_some {b : Byte} : view r p u = some b ↔ ∃ f, r.mem.frame (some p) u = some f ∧ r.phys (f + u % pgSize) = b :=
  Option.map_eq_some_iff

/-- One byte is stored. -/
theorem store_does (user : InUser a) (isFrame : r.mem.frame (some p) a = some f) :
    Does q (seenBy p q (bytesAt a 1 src)) r { r with phys := Function.update r.phys (f + a % pgSize) (src 0) } := by
  refine fun fed => ⟨fed, fun fr => ⟨fr, fun u b user' is => ?_, fun u b user' is seen => ?_⟩⟩
  · simp only [seenBy] at is
    split at is
    · rename_i same
      subst same
      simp only [bytesAt] at is
      split at is
      · rename_i here
        obtain rfl : u = a := by omega
        rw [Nat.sub_self, Option.some.injEq] at is
        exact view_eq_some.2 ⟨f, isFrame, by rw [← is]; exact Function.update_self ..⟩
      · cases is
    · cases is
  · obtain ⟨g, isFrame', byte⟩ := view_eq_some.1 seen
    refine view_eq_some.2 ⟨g, isFrame', ?_⟩
    rw [← byte]
    refine Function.update_of_ne (fun same => ?_) ..
    obtain ⟨rfl, rfl⟩ := phys_inj fr user user' isFrame isFrame' same.symm
    rw [seenBy, if_pos rfl, bytesAt, if_pos (by omega)] at is
    cases is

/-- **`memcpy`** to user space. -/
theorem memcpy_does (low : userVaddrStart ≤ a) (high : a + n ≤ 0xc0000000) (call : memcpy (some p) n a src r = .ok r') :
    Does q (seenBy p q (bytesAt a n src)) r r' := by
  induction n generalizing a src r with
  | zero =>
    cases call
    rw [bytesAt_zero, seenBy, ite_self]
    exact .refl
  | succ n ih =>
    simp only [memcpy, bind_ok, frameOf_ok] at call
    obtain ⟨f, isFrame, rest⟩ := call
    rw [addU32_of_lt (by omega)] at rest
    have first : Does q (seenBy p q (bytesAt a 1 src)) r { r with phys := Function.update r.phys (f + a % pgSize) (src 0) } :=
      store_does ⟨low, by omega⟩ isFrame
    have whole := first.trans (ih (by omega) (by omega) rest)
    rwa [overlay_seenBy, bytesAt_add, Nat.add_comm] at whole

/-- A page is there, or the task gets one. -/
theorem loadPage_does (user : InUser v) (aligned : v % pgSize = 0) {ok : Bool} (call : loadPage p r v = .ok (ok, r')) :
    Does q (fun _ => none) r r' := by
  simp only [loadPage] at call
  split at call
  · cases call
    exact .refl
  rename_i absent
  simp only [bind_ok, pure_ok, Prod.exists] at call
  obtain ⟨page, mem, taken, is⟩ := call
  cases is
  refine fun fed => ⟨getAPage_starved taken fed, fun fr => ?_⟩
  obtain ⟨frames, f, others⟩ := getAPage_frame fr user aligned taken fed
  refine ⟨frames, nofun, fun u b user' _ seen => ?_⟩
  obtain ⟨g, isFrame, byte⟩ := view_eq_some.1 seen
  refine view_eq_some.2 ⟨g, ?_, byte⟩
  rw [others q u user', if_neg]
  · exact isFrame
  rintro ⟨dir, idx, who⟩
  have lt := user.pdeIdx_lt
  obtain rfl : q = p := who.resolve_left (by omega)
  rw [present_iff_frame user] at absent
  have same : r.mem.frame (some q) v = r.mem.frame (some q) u := by
    rw [Memory.frame, ← dir, ← idx, Memory.frame]
  rw [same, isFrame] at absent
  exact absent rfl

theorem loadPages_does {ok : Bool} : ∀ {pages : List Nat} {r : Ram}, (∀ v ∈ pages, InUser v ∧ v % pgSize = 0) →
    loadPages p pages r = .ok (ok, r') → Does q (fun _ => none) r r' := by
  intro pages
  induction pages with
  | nil =>
    intro r _ call
    cases call
    exact .refl
  | cons v pages ih =>
    intro r users call
    obtain ⟨user, aligned⟩ := users v List.mem_cons_self
    simp only [loadPages, bind_ok, Prod.exists] at call
    obtain ⟨got, r1, page, rest⟩ := call
    have first := loadPage_does (q := q) user aligned page
    cases got with
    | false =>
      cases rest
      exact first
    | true => exact first.after (ih (fun u mem => users u (List.mem_cons_of_mem _ mem)) rest)

end Steps

section Reads

variable {f : Content} {w : World} {p q a : Nat} {st st' : Progress} {got : Option Nat}

theorem sleep_does (apart : Apart q w.others) (st : Progress) : Does q (fun _ => none) st.ram (st.sleep w).ram :=
  apart st.time st.ram

/-- **The loop of `file_read`** stores the bytes of the file. -/
theorem readLoop_does (apart : Apart q w.others) : ∀ {fuel left a : Nat} {st : Progress}, left ≤ fuel → userVaddrStart ≤ a →
    a + left ≤ 0xc0000000 → readLoop f w p fuel left a st = .ok st' →
    Does q (seenBy p q (bytesAt a left (shifted f.bytes st.fdPos))) st.ram st'.ram := by
  intro fuel
  induction fuel with
  | zero =>
    intro left a st le _ _ call
    cases call
    obtain rfl : left = 0 := by omega
    rw [bytesAt_zero, seenBy, ite_self]
    exact .refl
  | succ fuel ih =>
    intro left a st le low high call
    simp only [readLoop] at call
    split at call
    · rename_i done
      cases call
      rw [done, bytesAt_zero, seenBy, ite_self]
      exact .refl
    rename_i more
    simp only [bind_ok, defined_ok, exists_const, Progress.sleep_fdPos] at call
    obtain ⟨sector, ram, copied, rest⟩ := call
    obtain ⟨chunk, isChunk⟩ : ∃ chunk, chunk = if left < 512 - st.fdPos % 512 then left else 512 - st.fdPos % 512 := ⟨_, rfl⟩
    rw [← isChunk] at copied rest
    have bounds : 0 < chunk ∧ chunk ≤ left ∧ chunk ≤ 512 := by
      rw [isChunk]
      split <;> refine ⟨?_, ?_, ?_⟩ <;> omega
    obtain ⟨some_, fits, small⟩ := bounds
    rw [addU32_of_lt (by omega), addU32_of_lt (by omega)] at rest
    have first := (sleep_does apart st).after (memcpy_does (q := q) low (by omega) copied)
    have whole := first.trans (ih (by omega) (by omega) (by omega) rest)
    have next : shifted f.bytes (st.fdPos + chunk) = shifted (shifted f.bytes st.fdPos) chunk := by
      funext x
      simp only [shifted, Nat.add_assoc]
    rw [overlay_seenBy] at whole
    dsimp only at whole
    rwa [next, bytesAt_add, show chunk + (left - chunk) = left by omega] at whole

/-- Where the loop of `file_read` ends. -/
theorem readLoop_fdPos : ∀ {fuel left a : Nat} {st : Progress}, left ≤ fuel → readLoop f w p fuel left a st = .ok st' →
    st'.fdPos = st.fdPos + left ∧ (left = 0 ∨ st.fdPos + left ≤ 512 * 140) := by
  intro fuel
  induction fuel with
  | zero =>
    intro left a st le call
    cases call
    obtain rfl : left = 0 := by omega
    exact ⟨rfl, .inl rfl⟩
  | succ fuel ih =>
    intro left a st le call
    simp only [readLoop] at call
    split at call
    · rename_i done
      cases call
      rw [done]
      exact ⟨rfl, .inl rfl⟩
    rename_i more
    simp only [bind_ok, defined_ok, exists_const, Progress.sleep_fdPos] at call
    obtain ⟨sector, ram, -, rest⟩ := call
    obtain ⟨chunk, isChunk⟩ : ∃ chunk, chunk = if left < 512 - st.fdPos % 512 then left else 512 - st.fdPos % 512 := ⟨_, rfl⟩
    rw [← isChunk] at rest
    have bounds : 0 < chunk ∧ chunk ≤ left ∧ st.fdPos % 512 + chunk ≤ 512 := by
      rw [isChunk]
      split <;> refine ⟨?_, ?_, ?_⟩ <;> omega
    rw [show addU32 st.fdPos chunk = st.fdPos + chunk from addU32_of_lt (by omega)] at rest
    obtain ⟨pos, low⟩ := ih (by omega) rest
    dsimp only at pos low
    exact ⟨by omega, .inr (by omega)⟩

/-- The read goes as the one whose effects are a trace. -/
theorem fileRead_traced {buf : Option Nat} {count : Nat} (call : fileRead f w p st buf count = .ok (got, st')) :
    (Load.fileRead f (w.buffers st.time) st.fdPos buf count).result = .ok (got, st'.fdPos) := by
  simp only [fileRead, bind_ok] at call
  obtain ⟨sized, isSize, call⟩ := call
  simp only [Load.fileRead, isSize, Traced.lift_ok_bind]
  cases sized with
  | none =>
    cases call
    rfl
  | some size =>
    cases buf with
    | none =>
      simp only [bind_ok, defined_ok, exists_const, pure_ok] at call
      obtain ⟨low, is⟩ := call
      cases is
      simp only [Load.store, pure_bind, defined_of low, Traced.lift_ok_bind, Traced.result_pure]
    | some a =>
      simp only [bind_ok, pure_ok] at call
      obtain ⟨st1, ran, is⟩ := call
      cases is
      obtain ⟨pos, low⟩ := readLoop_fdPos (Nat.le_refl _) ran
      rw [Progress.sleep_fdPos] at pos low
      simp only [Load.store, Traced.emit_bind_result, defined_of low, Traced.lift_ok_bind, Traced.result_pure, pos]

/-- A read into a variable of the caller. -/
theorem sysRead_variable (apart : Apart q w.others) {count : Nat} (call : sysRead f w p st none count = .ok (got, st')) :
    Does q (fun _ => none) st.ram st'.ram ∧ ∀ size, got = some size → st'.fdPos = st.fdPos + size := by
  simp only [sysRead, fileRead, bind_ok, assertThat_ok, exists_const] at call
  obtain ⟨-, size, -, call⟩ := call
  cases size with
  | none =>
    cases call
    refine ⟨sleep_does apart st, fun size is => ?_⟩
    cases is
  | some size =>
    simp only [bind_ok, defined_ok, exists_const, pure_ok] at call
    obtain ⟨-, is⟩ := call
    cases is
    refine ⟨sleep_does apart st, fun size is => ?_⟩
    cases is
    rfl

/-- A read of bytes that the file has gives all of them, when there is memory for it. -/
theorem fileReadSize_inside {b : Buffers} {fdPos count : Nat} (size : f.iSize ≤ 512 * 140) (inside : fdPos + count ≤ f.iSize)
    (memory : b.allBlocks = true) (call : fileReadSize f b fdPos count = .ok got) : got = some count := by
  have sum : addU32 fdPos count = fdPos + count := addU32_of_lt (by omega)
  have all : readSize f fdPos count = count := by
    rw [readSize, sum, if_neg (by omega)]
  simp only [fileReadSize, sum, all] at call
  rw [if_neg (by omega), if_neg (by rw [memory]; decide)] at call
  simp only [bind_ok, defined_ok, assertThat_ok, exists_const, pure_ok] at call
  exact call.2.2.symm

/-- **`sys_read`** into memory of the task. -/
theorem sysRead_does (apart : Apart q w.others) {count : Nat} (size : f.iSize ≤ 512 * 140) (inside : st.fdPos + count ≤ f.iSize)
    (memory : (w.buffers st.time).allBlocks = true) (low : userVaddrStart ≤ a) (high : a + count ≤ 0xc0000000)
    (call : sysRead f w p st (some a) count = .ok (got, st')) :
    Does q (seenBy p q (bytesAt a count (shifted f.bytes st.fdPos))) st.ram st'.ram := by
  simp only [sysRead, fileRead, bind_ok, assertThat_ok, exists_const] at call
  obtain ⟨-, sized, isSize, call⟩ := call
  cases fileReadSize_inside size inside memory isSize
  simp only [bind_ok, pure_ok] at call
  obtain ⟨st1, ran, is⟩ := call
  cases is
  exact (sleep_does apart st).after (readLoop_does apart (Nat.le_refl _) low high ran)

theorem sysLseek_inside {fdPos off : Nat} (size : f.iSize ≤ 512 * 140) (inside : off < f.iSize) : Load.sysLseek f fdPos off = off := by
  have isOff : toInt32 off = off := if_pos (by omega)
  have isSize : toInt32 f.iSize = f.iSize := if_pos (by omega)
  simp only [Load.sysLseek, isOff, isSize]
  rw [if_neg (by omega), Int.toNat_natCast]

theorem sysLseek_le {fdPos off : Nat} (size : f.iSize ≤ 512 * 140) (inside : fdPos ≤ f.iSize) : Load.sysLseek f fdPos off ≤ f.iSize := by
  have isSize : toInt32 f.iSize = f.iSize := if_pos (by omega)
  simp only [Load.sysLseek, isSize]
  split
  · exact inside
  · omega

end Reads

/-! Program files. -/

/-- Where program header `k` is. -/
def headerAt (f : Content) (k : Nat) : Nat := word32 f.bytes 28 + 32 * k

def phdr (f : Content) (k : Nat) : Elf32Phdr := progHeader (shifted f.bytes (headerAt f k))

/-- Its field `p_memsz`. -/
def pMemsz (f : Content) (k : Nat) : Nat := word32 (shifted f.bytes (headerAt f k)) 20

/-- Program header `k` is that of a segment to load. -/
def IsLoad (f : Content) (k : Nat) : Prop := k < half16 f.bytes 44 ∧ (phdr f k).pType = ptLoad

instance (f : Content) (k : Nat) : Decidable (IsLoad f k) := inferInstanceAs (Decidable (_ ∧ _))

/-- The bytes of the segment are in the file, and it lies in user space below the stack page. -/
def SegmentFits (f : Content) (k : Nat) : Prop :=
  (phdr f k).pOffset + (phdr f k).pFilesz ≤ f.iSize ∧ (phdr f k).pFilesz ≤ pMemsz f k ∧
    userVaddrStart ≤ (phdr f k).pVaddr ∧ (phdr f k).pVaddr + pMemsz f k ≤ 0xbffff000

instance (f : Content) (k : Nat) : Decidable (SegmentFits f k) := inferInstanceAs (Decidable (_ ∧ _ ∧ _ ∧ _))

/-- Two segments do not overlap. -/
def SegmentsApart (f : Content) (k l : Nat) : Prop :=
  (phdr f k).pVaddr + pMemsz f k ≤ (phdr f l).pVaddr ∨ (phdr f l).pVaddr + pMemsz f l ≤ (phdr f k).pVaddr

instance (f : Content) (k l : Nat) : Decidable (SegmentsApart f k l) := inferInstanceAs (Decidable (_ ∨ _))

/-- A program in a regular file, with its headers in the file. -/
structure WellFormed (f : Content) : Prop where
  iSize : f.iSize ≤ 512 * 140
  headers : word32 f.bytes 28 + 32 * half16 f.bytes 44 ≤ f.iSize
  segments : ∀ k, IsLoad f k → SegmentFits f k
  apart : ∀ k l, IsLoad f k → IsLoad f l → k ≠ l → SegmentsApart f k l

/-- Whether a file is a program can be tested. -/
theorem wellFormed_iff {f : Content} : WellFormed f ↔ (f.iSize ≤ 512 * 140 ∧ word32 f.bytes 28 + 32 * half16 f.bytes 44 ≤ f.iSize) ∧
    (∀ k, k < half16 f.bytes 44 → IsLoad f k → SegmentFits f k) ∧
    ∀ k, k < half16 f.bytes 44 → ∀ l, l < half16 f.bytes 44 → IsLoad f k → IsLoad f l → k ≠ l → SegmentsApart f k l := by
  constructor
  · intro wf
    exact ⟨⟨wf.iSize, wf.headers⟩, fun k _ => wf.segments k, fun k _ l _ => wf.apart k l⟩
  · rintro ⟨⟨iSize, headers⟩, segments, apart⟩
    exact ⟨iSize, headers, fun k isLoad => segments k isLoad.1 isLoad,
      fun k l isLoad isLoad' => apart k isLoad.1 l isLoad'.1 isLoad isLoad'⟩

instance (f : Content) : Decidable (WellFormed f) := decidable_of_iff _ wellFormed_iff.symm

/-- The bytes of a segment that are in the file, at the addresses where they belong. -/
def segmentImage (f : Content) (k : Nat) : Nat → Option Byte :=
  if IsLoad f k then bytesAt (phdr f k).pVaddr (phdr f k).pFilesz (shifted f.bytes (phdr f k).pOffset) else fun _ => none

/-- The bytes of the `n` program headers from `k` on. -/
def imageFrom (f : Content) : Nat → Nat → Nat → Option Byte
  | 0, _ => fun _ => none
  | n + 1, k => overlay (imageFrom f n (k + 1)) (segmentImage f k)

/-- What the file says is in memory. -/
def fileImage (f : Content) : Nat → Option Byte := imageFrom f (half16 f.bytes 44) 0

section Images

variable {f : Content} {k n u : Nat} {b : Byte}

theorem segmentImage_some : segmentImage f k u = some b ↔ IsLoad f k ∧ ((phdr f k).pVaddr ≤ u ∧
    u < (phdr f k).pVaddr + (phdr f k).pFilesz) ∧ f.bytes ((phdr f k).pOffset + (u - (phdr f k).pVaddr)) = b := by
  simp only [segmentImage]
  split
  · rename_i isLoad
    simp only [bytesAt, shifted]
    split
    · rename_i inside
      simp [isLoad, inside]
    · rename_i out
      simp [out]
  · rename_i other
    simp [other]

theorem imageFrom_some (is : imageFrom f n k u = some b) : ∃ j, segmentImage f j u = some b := by
  induction n generalizing k with
  | zero => cases is
  | succ n ih =>
    rcases Option.or_eq_some_iff.1 is with later | ⟨-, here⟩
    · exact ih later
    · exact ⟨k, here⟩

theorem imageFrom_isSome {j : Nat} (is : segmentImage f j u = some b) (le : k ≤ j) (lt : j < k + n) :
    ∃ b', imageFrom f n k u = some b' := by
  induction n generalizing k with
  | zero => omega
  | succ n ih =>
    by_cases here : k = j
    · subst here
      cases later : imageFrom f n (k + 1) u with
      | none => exact ⟨b, by rw [imageFrom, overlay, later, is, Option.none_or]⟩
      | some b' => exact ⟨b', by rw [imageFrom, overlay, later, Option.some_or]⟩
    · obtain ⟨b', later⟩ := ih (k := k + 1) (by omega) (by omega)
      exact ⟨b', by rw [imageFrom, overlay, later, Option.some_or]⟩

/-- An address lies in one segment. -/
theorem WellFormed.segment_unique (wf : WellFormed f) {j : Nat} {b' : Byte} (is : segmentImage f k u = some b)
    (is' : segmentImage f j u = some b') : k = j ∧ b = b' := by
  obtain ⟨isLoad, inside, byte⟩ := segmentImage_some.1 is
  obtain ⟨isLoad', inside', byte'⟩ := segmentImage_some.1 is'
  by_cases same : k = j
  · subst same
    exact ⟨rfl, byte.symm.trans byte'⟩
  · obtain ⟨-, size, -, -⟩ := wf.segments k isLoad
    obtain ⟨-, size', -, -⟩ := wf.segments j isLoad'
    have apart := wf.apart k j isLoad isLoad' same
    unfold SegmentsApart at apart
    omega

/-- The image of a program has the bytes of every segment, and no others. -/
theorem WellFormed.fileImage_some (wf : WellFormed f) : fileImage f u = some b ↔ ∃ k, segmentImage f k u = some b := by
  constructor
  · exact imageFrom_some
  · rintro ⟨k, is⟩
    obtain ⟨b', whole⟩ := imageFrom_isSome (k := 0) (n := half16 f.bytes 44) is (Nat.zero_le k)
      (by have := (segmentImage_some.1 is).1.1; omega)
    obtain ⟨j, is'⟩ := imageFrom_some whole
    rw [(wf.segment_unique is is').2]
    exact whole

/-- The pages of a segment are pages of user space. -/
theorem WellFormed.segmentPages (wf : WellFormed f) (isLoad : IsLoad f k) {v : Nat} (mem : v ∈ Load.segmentPages (phdr f k)) :
    InUser v ∧ v % pgSize = 0 := by
  obtain ⟨-, size, low, high⟩ := wf.segments k isLoad
  generalize phdr f k = h at mem low high size
  obtain ⟨i, lt, rfl⟩ := List.mem_map.1 mem
  rw [List.mem_range] at lt
  have last : h.pVaddr - h.pVaddr % pgSize + i * pgSize < 0xc0000000 := by
    simp only [occupyPages] at lt
    split at lt
    · rename_i more
      rw [addU32_of_lt (by simp only [pgSize]; omega)] at lt
      simp only [pgSize] at *
      omega
    · simp only [pgSize] at *
      omega
  rw [addU32_of_lt (by omega)]
  simp only [InUser, userVaddrStart, pgSize] at *
  omega

end Images

section Loading

variable {f : Content} {w : World} {p q k n : Nat} {st st' : Progress} {ok : Bool}

/-- **`segment_load`** of a segment of a well-formed program. -/
theorem segmentLoad_does (wf : WellFormed f) (apart : Apart q w.others) (memory : ∀ t, (w.buffers t).allBlocks = true)
    (isLoad : IsLoad f k) (inside : st.fdPos ≤ f.iSize) (call : segmentLoad f w p st (phdr f k) = .ok (true, st')) :
    Does q (seenBy p q (segmentImage f k)) st.ram st'.ram := by
  obtain ⟨inFile, size, low, high⟩ := wf.segments k isLoad
  simp only [segmentLoad, bind_ok, Prod.exists] at call
  obtain ⟨got, r, pages, call⟩ := call
  cases got with
  | false => cases call
  | true =>
    have mapped := loadPages_does (q := q) (fun v mem => wf.segmentPages isLoad mem) pages
    simp only [bind_ok, pure_ok, Prod.exists] at call
    obtain ⟨got, st1, read, is⟩ := call
    cases is
    rw [segmentImage, if_pos isLoad]
    by_cases empty : (phdr f k).pFilesz = 0
    · -- the offset of a segment without bytes may be the end of the file, which `sys_lseek` refuses
      rw [empty] at read ⊢
      have nothing := mapped.after (sysRead_does apart wf.iSize (sysLseek_le wf.iSize inside) (memory _) low (by omega) read)
      rw [bytesAt_zero] at nothing ⊢
      exact nothing
    · have pos : Load.sysLseek f st.fdPos (phdr f k).pOffset = (phdr f k).pOffset := sysLseek_inside wf.iSize (by omega)
      rw [pos] at read
      exact mapped.after (sysRead_does apart wf.iSize inFile (memory _) low (by omega) read)

/-- **The loop over the program headers.** -/
theorem progHeaders_does (wf : WellFormed f) (apart : Apart q w.others) (memory : ∀ t, (w.buffers t).allBlocks = true) :
    ∀ {n k : Nat} {st : Progress}, k + n = half16 f.bytes 44 → progHeaders f w p n (headerAt f k) st = .ok (true, st') →
      Does q (seenBy p q (imageFrom f n k)) st.ram st'.ram := by
  intro n
  induction n with
  | zero =>
    intro k st _ call
    cases call
    rw [imageFrom, seenBy, ite_self]
    exact .refl
  | succ n ih =>
    intro k st count call
    have headers := wf.headers
    have iSize := wf.iSize
    have next : addU32 (headerAt f k) 32 = headerAt f (k + 1) := by
      rw [addU32_of_lt (by unfold headerAt; omega)]
      unfold headerAt
      omega
    have pos : Load.sysLseek f st.fdPos (headerAt f k) = headerAt f k := sysLseek_inside iSize (by unfold headerAt; omega)
    simp only [progHeaders, pos, next, bind_ok, Prod.exists] at call
    obtain ⟨got, st1, read, call⟩ := call
    obtain ⟨header, fdPos⟩ := sysRead_variable (q := q) apart read
    split at call
    · cases call
    rename_i whole
    rw [not_not] at whole
    have inside : st1.fdPos ≤ f.iSize := by
      have at_ : st1.fdPos = headerAt f k + 32 := fdPos 32 whole
      rw [at_]
      unfold headerAt
      omega
    split at call
    · rename_i isLoad
      simp only [bind_ok, Prod.exists] at call
      obtain ⟨ok, st2, segment, rest⟩ := call
      cases ok with
      | false => cases rest
      | true =>
        have here := segmentLoad_does (q := q) wf apart memory (k := k) ⟨by omega, isLoad⟩ inside segment
        have later := ih (k := k + 1) (by omega) rest
        have both := header.after (here.trans later)
        rwa [overlay_seenBy] at both
    · rename_i other
      have later := header.after (ih (k := k + 1) (by omega) call)
      have none : segmentImage f k = fun _ => none := if_neg fun isLoad => other isLoad.2
      rwa [imageFrom, none, overlay_none]

/-- **`load`** of a well-formed program. -/
theorem load_does (wf : WellFormed f) (apart : Apart q w.others) (memory : ∀ t, (w.buffers t).allBlocks = true) {r r' : Ram}
    {entry : Int} (loaded : entry ≠ -1) (call : load f w p r = .ok (entry, r')) : Does q (seenBy p q (fileImage f)) r r' := by
  simp only [load, bind_ok, Prod.exists] at call
  obtain ⟨got, st1, read, call⟩ := call
  have first := (sysRead_variable (q := q) apart read).1
  split at call
  · cases call
    exact absurd rfl loaded
  split at call
  · cases call
    exact absurd rfl loaded
  simp only [bind_ok, pure_ok, Prod.exists] at call
  obtain ⟨ok, st2, headers, is⟩ := call
  cases is
  cases ok with
  | false => exact absurd rfl loaded
  | true =>
    have all := progHeaders_does (q := q) wf apart memory (k := 0) (Nat.zero_add _) headers
    exact first.after (all.before (sleep_does apart st2))

/-- Other tasks keep their bytes. -/
theorem load_apart (wf : WellFormed f) (apart : Apart q w.others) (memory : ∀ t, (w.buffers t).allBlocks = true) {r r' : Ram}
    {entry : Int} (loaded : entry ≠ -1) (other : q ≠ p) (call : load f w p r = .ok (entry, r')) : Does q (fun _ => none) r r' := by
  have whole := load_does (q := q) wf apart memory loaded call
  rwa [seenBy, if_neg other] at whole

end Loading

/-- The page of the address is mapped. -/
def Mapped (r : Ram) (p u : Nat) : Prop := (r.mem.frame (some p) u).isSome = true

/-- **What loading a program does.** When no allocation has failed, the bytes of the file are at the
addresses of their segments, and every other byte that the task could access before is as it was;
whatever `p_memsz` says, nothing is cleared. -/
theorem load_image {f : Content} {w : World} {p : Nat} {r r' : Ram} {entry : Int} (wf : WellFormed f) (frames : Frames r.mem)
    (apart : Apart p w.others) (memory : ∀ t, (w.buffers t).allBlocks = true) (call : load f w p r = .ok (entry, r'))
    (loaded : entry ≠ -1) (fed : r'.mem.starved = false) :
    (∀ k, IsLoad f k → (∀ u, (phdr f k).pVaddr ≤ u → u < (phdr f k).pVaddr + (phdr f k).pFilesz → Mapped r' p u) ∧
      ∀ i, i < (phdr f k).pFilesz → view r' p ((phdr f k).pVaddr + i) = some (f.bytes ((phdr f k).pOffset + i))) ∧
    ∀ u b, InUser u → (∀ k, IsLoad f k → ¬ ((phdr f k).pVaddr ≤ u ∧ u < (phdr f k).pVaddr + (phdr f k).pFilesz)) →
      view r p u = some b → view r' p u = some b := by
  obtain ⟨-, grows⟩ := load_does (q := p) wf apart memory loaded call fed
  have image := grows frames
  rw [seenBy, if_pos rfl] at image
  have bytes : ∀ k, IsLoad f k → ∀ i, i < (phdr f k).pFilesz →
      view r' p ((phdr f k).pVaddr + i) = some (f.bytes ((phdr f k).pOffset + i)) := by
    intro k isLoad i lt
    obtain ⟨-, size, low, high⟩ := wf.segments k isLoad
    refine image.stored _ _ ⟨by omega, by omega⟩ (wf.fileImage_some.2 ⟨k, segmentImage_some.2 ⟨isLoad, by omega, ?_⟩⟩)
    rw [Nat.add_sub_cancel_left]
  refine ⟨fun k isLoad => ⟨fun u low high => ?_, bytes k isLoad⟩, fun u b user outside seen => image.kept u b user ?_ seen⟩
  · have here := bytes k isLoad (u - (phdr f k).pVaddr) (by omega)
    rw [Nat.add_sub_cancel' low] at here
    obtain ⟨g, isFrame, -⟩ := view_eq_some.1 here
    exact Option.isSome_iff_exists.2 ⟨g, isFrame⟩
  · cases is : fileImage f u with
    | none => rfl
    | some b' =>
      obtain ⟨k, here⟩ := wf.fileImage_some.1 is
      obtain ⟨isLoad, inside, -⟩ := segmentImage_some.1 here
      exact absurd inside (outside k isLoad)

/-- The bytes of an ELF header for `n` program headers. -/
def elfHeader (n : Byte) : List Byte :=
  [0x7f#8, 0x45#8, 0x4c#8, 0x46#8, 1#8, 1#8, 1#8, 0#8, 0#8, 0#8, 0#8, 0#8, 0#8, 0#8, 0#8, 0#8,
    2#8, 0#8, 3#8, 0#8, 1#8, 0#8, 0#8, 0#8, 0#8, 0x80#8, 4#8, 8#8, 52#8, 0#8, 0#8, 0#8, 0#8, 0#8, 0#8, 0#8, 0#8, 0#8, 0#8, 0#8,
    52#8, 0#8, 32#8, 0#8, n, 0#8, 0#8, 0#8, 0#8, 0#8, 0#8, 0#8]

/-- The program header of the first 84 bytes of the file at `0x8048000 + 65536 * k`, with `memsz`
bytes in memory. -/
def elfSegment (k memsz : Byte) : List Byte :=
  [1#8, 0#8, 0#8, 0#8, 0#8, 0#8, 0#8, 0#8, 0#8, 0x80#8, 4#8 + k, 8#8, 0#8, 0x80#8, 4#8 + k, 8#8, 84#8, 0#8, 0#8, 0#8,
    memsz, 0#8, 0#8, 0#8, 5#8, 0#8, 0#8, 0#8, 0#8, 0x10#8, 0#8, 0#8]

/-- A program of one segment. -/
def oneSegment (memsz : Byte) : Content := ⟨fun x => (elfHeader 1#8 ++ elfSegment 0#8 memsz).getD x 0#8, 84⟩

/-- A program of two segments that are not in one page table. -/
def twoSegments : Content := ⟨fun x => (elfHeader 2#8 ++ elfSegment 0#8 84#8 ++ elfSegment 0x81#8 84#8).getD x 0#8, 116⟩

/-- A machine whose memory is full of ones. -/
def onesRam (allMem : Nat) : Ram := ⟨memPoolInit allMem, fun _ => 0xff#8⟩

/-- The task is alone on the machine. -/
theorem apart_alone (q : Nat) : Apart q fun _ r => r := fun _ _ => Does.refl

theorem load_image_one :
    ∃ r', load (oneSegment 84#8) ⟨fun _ => ⟨true, true⟩, fun _ r => r⟩ 1 (onesRam 0x2000000) = .ok (0x8048000, r') ∧
      Mapped r' 1 0x8048053 ∧ view r' 1 0x8048000 = some 0x7f#8 := by
  have ran : returns (load (oneSegment 84#8) ⟨fun _ => ⟨true, true⟩, fun _ r => r⟩ 1 (onesRam 0x2000000))
      (fun x => decide (x.1 = 0x8048000) && !x.2.mem.starved) = true := by
    decide
  obtain ⟨⟨entry, r'⟩, ran, found⟩ := returns_true.1 ran
  simp only [Bool.and_eq_true, decide_eq_true_eq, Bool.not_eq_true'] at found
  obtain ⟨rfl, fed⟩ := found
  have right := load_image (f := oneSegment 84#8) (w := ⟨fun _ => ⟨true, true⟩, fun _ r => r⟩) (r := onesRam 0x2000000)
    (by decide) (memPoolInit_inv _).frames (apart_alone 1) (fun _ => rfl) ran (by decide) fed
  obtain ⟨mapped, bytes⟩ := right.1 0 (by decide)
  exact ⟨r', ran, mapped _ (by decide) (by decide), bytes 0 (by decide)⟩

/-- Every segment has its pages, the bytes of the file and zeros after them. -/
def RightImage (f : Content) (p : Nat) (r : Ram) : Prop :=
  ∀ k, IsLoad f k → (∀ u, (phdr f k).pVaddr ≤ u → u < (phdr f k).pVaddr + pMemsz f k → Mapped r p u) ∧
    (∀ i, i < (phdr f k).pFilesz → view r p ((phdr f k).pVaddr + i) = some (f.bytes ((phdr f k).pOffset + i))) ∧
    ∀ i, (phdr f k).pFilesz ≤ i → i < pMemsz f k → view r p ((phdr f k).pVaddr + i) = some 0#8

/-- Nothing clears the byte after the 84 of a segment with 85 in memory. Of a segment without such
bytes, a read that finds no memory leaves what was there; and where no page is left for a page
table, the second segment takes the pages of the first away. -/
theorem load_not_right :
    (¬ ∀ f w p r r' entry, WellFormed f → Frames r.mem → Apart p w.others → (∀ t, (w.buffers t).allBlocks = true) →
      load f w p r = .ok (entry, r') → entry ≠ -1 → r'.mem.starved = false → RightImage f p r') ∧
    (¬ ∀ f w p r r' entry, WellFormed f → (∀ k, IsLoad f k → (phdr f k).pFilesz = pMemsz f k) → Frames r.mem →
      Apart p w.others → load f w p r = .ok (entry, r') → entry ≠ -1 → r'.mem.starved = false → RightImage f p r') ∧
    ¬ ∀ f w p r r' entry, WellFormed f → (∀ k, IsLoad f k → (phdr f k).pFilesz = pMemsz f k) → Frames r.mem →
      Apart p w.others → (∀ t, (w.buffers t).allBlocks = true) → load f w p r = .ok (entry, r') → entry ≠ -1 → RightImage f p r' := by
  refine ⟨fun claim => ?_, fun claim => ?_, fun claim => ?_⟩
  · have ran : returns (load (oneSegment 85#8) ⟨fun _ => ⟨true, true⟩, fun _ r => r⟩ 1 (onesRam 0x2000000))
        (fun x => decide (x.1 = 0x8048000) && !x.2.mem.starved && decide (view x.2 1 0x8048054 = some 0xff#8)) = true := by
      decide
    obtain ⟨⟨entry, r'⟩, ran, found⟩ := returns_true.1 ran
    simp only [Bool.and_eq_true, decide_eq_true_eq, Bool.not_eq_true'] at found
    obtain ⟨⟨rfl, fed⟩, byte⟩ := found
    obtain ⟨-, -, zeros⟩ := claim _ _ 1 _ r' _ (by decide) (memPoolInit_inv _).frames (apart_alone 1) (fun _ => rfl) ran
      (by decide) fed 0 (by decide)
    have zero : view r' 1 0x8048054 = some 0#8 := zeros 84 (by decide) (by decide)
    rw [byte] at zero
    exact absurd zero (by decide)
  · have ran : returns (load (oneSegment 84#8) ⟨fun t => ⟨true, decide (t ≠ 2)⟩, fun _ r => r⟩ 1 (onesRam 0x2000000))
        (fun x => decide (x.1 = 0x8048000) && !x.2.mem.starved && decide (view x.2 1 0x8048000 = some 0xff#8)) = true := by
      decide
    obtain ⟨⟨entry, r'⟩, ran, found⟩ := returns_true.1 ran
    simp only [Bool.and_eq_true, decide_eq_true_eq, Bool.not_eq_true'] at found
    obtain ⟨⟨rfl, fed⟩, byte⟩ := found
    have sizes : ∀ k, k < half16 (oneSegment 84#8).bytes 44 → (phdr (oneSegment 84#8) k).pFilesz = pMemsz (oneSegment 84#8) k := by
      decide
    obtain ⟨-, bytes, -⟩ := claim _ _ 1 _ r' _ (by decide) (fun k isLoad => sizes k isLoad.1) (memPoolInit_inv _).frames
      (apart_alone 1) ran (by decide) fed 0 (by decide)
    have first : view r' 1 0x8048000 = some 0x7f#8 := bytes 0 (by decide)
    rw [byte] at first
    exact absurd first (by decide)
  · have ran : returns (load twoSegments ⟨fun _ => ⟨true, true⟩, fun _ r => r⟩ 1 (onesRam (usedMem + 15 * pgSize)))
        (fun x => decide (x.1 = 0x8048000) && decide (view x.2 1 0x8048000 = none)) = true := by
      decide
    obtain ⟨⟨entry, r'⟩, ran, found⟩ := returns_true.1 ran
    simp only [Bool.and_eq_true, decide_eq_true_eq] at found
    obtain ⟨rfl, byte⟩ := found
    have sizes : ∀ k, k < half16 twoSegments.bytes 44 → (phdr twoSegments k).pFilesz = pMemsz twoSegments k := by
      decide
    obtain ⟨-, bytes, -⟩ := claim _ _ 1 _ r' _ (by decide) (fun k isLoad => sizes k isLoad.1) (memPoolInit_inv _).frames
      (apart_alone 1) (fun _ => rfl) ran (by decide) 0 (by decide)
    have first : view r' 1 0x8048000 = some 0x7f#8 := bytes 0 (by decide)
    rw [byte] at first
    exact absurd first (by decide)

end Sparrow.LoadImage
