import Sparrow.Kernel.Arenas
import Mathlib.Data.List.Perm.Subperm

/-!
# How memory shows the heap

`Shows o m A` relates the memory to the heap `A`: the descriptors, the free lists, the
headers of the arenas and their counts. List operations on class `i` touch only words that
are `Local` to it, and no other class, header or descriptor has one of these, so each step
of `sys_malloc` and `sys_free` is proved for its own class (`Shows.change`).
-/

namespace Sparrow
set_option autoImplicit false

/-- The descriptors lie beside the pages, and the pages below `2 ^ 32`. -/
structure HeapOwner.Ok (o : HeapOwner) (len : Nat) : Prop where
  aligned : o.vaddrStart % pgSize = 0
  low : 0 < o.vaddrStart
  high : o.vaddrStart + 8 * len * pgSize ≤ 2 ^ 32
  descs : 0 < o.descs
  apart : o.descs + descSize * descCnt ≤ o.vaddrStart ∨ o.vaddrStart + 8 * len * pgSize ≤ o.descs
  kernel : o.user = false → kHeapStart ≤ o.vaddrStart

/-- How many blocks of the arena at `a` are on the list. -/
def countIn (L : List Nat) (a : Nat) : Nat := L.countP fun b => block2arena b == a

/-- What the header of a run says. -/
def HeaderOk (o : HeapOwner) (m : Mem) (r : PageRun) : Prop :=
  match r.cls with
  | some i => m r.addr = o.desc i ∧ m (r.addr + 8) = 0
  | none => m r.addr = 0 ∧ m (r.addr + 4) = r.pages ∧ m (r.addr + 8) = 1

structure Shows (o : HeapOwner) (m : Mem) (A : Arenas) : Prop where
  descs : ∀ i, i < descCnt → m (o.desc i) = blockSize i ∧ m (o.desc i + 4) = perArena i
  lists : ∀ i, i < descCnt → IsList m (o.desc i + 8) (A.free i)
  headers : ∀ r ∈ A.runs, HeaderOk o m r
  counts : ∀ a i, A.Small a i → m (a + 4) = countIn (A.free i) a

/-- The words lists of class `i` use: the two end nodes and the blocks of its arenas. -/
def Arenas.Local (A : Arenas) (o : HeapOwner) (i x : Nat) : Prop :=
  (o.desc i + 8 ≤ x ∧ x < o.desc i + 24) ∨ ∃ a, A.Small a i ∧ a + 12 ≤ x ∧ x < a + 4096

/-- The word lies in the run. -/
def PageRun.Has (r : PageRun) (x : Nat) : Prop := r.addr ≤ x ∧ x < r.addr + r.pages * pgSize

/-- The words of a heap with these runs: its descriptors and its pages. -/
def HeapOwner.Owns (o : HeapOwner) (runs : List PageRun) (x : Nat) : Prop :=
  (o.descs ≤ x ∧ x < o.descs + descSize * descCnt) ∨ ∃ r ∈ runs, r.Has x

/-- Nothing changed beside the heap. -/
def SameBeside (o : HeapOwner) (runs : List PageRun) (m m' : Mem) : Prop := ∀ x, ¬ o.Owns runs x → m' x = m x

theorem SameBeside.refl (o : HeapOwner) (runs : List PageRun) (m : Mem) : SameBeside o runs m m := fun _ _ => rfl

theorem SameBeside.trans {o : HeapOwner} {runs : List PageRun} {m m' m'' : Mem} (h : SameBeside o runs m m')
    (h' : SameBeside o runs m' m'') : SameBeside o runs m m'' := fun x out => (h' x out).trans (h x out)

section Words

variable {o : HeapOwner} {A : Arenas} {len a i j x b : Nat} {L : List Nat} {r : PageRun}

/-- The words of the nodes of a list of blocks of class `i`. -/
theorem local_of_nodes (blocks : ∀ b ∈ L, ∃ a, A.Small a i ∧ IsBlock a i b)
    (h : OfNodes (nodesOf (o.desc i + 8) L) x) : A.Local o i x := by
  obtain ⟨u, mem, hx⟩ := h
  simp only [nodesOf, List.cons_append, List.mem_cons, List.mem_append, List.not_mem_nil, or_false] at mem
  rcases mem with rfl | mem | rfl
  · left; omega
  · obtain ⟨a, small, isBlock⟩ := blocks u mem
    have := isBlock.bounds
    have := blockSize_ge i
    exact .inr ⟨a, small, by omega⟩
  · left; omega

/-- A page of the heap is no part of the descriptors. -/
theorem Arenas.Ok.beside_descs (ok : A.Ok o.vaddrStart len) (own : o.Ok len) (mem : r ∈ A.runs) (lt : i < descCnt)
    (low : r.addr ≤ x) (high : x < r.addr + r.pages * pgSize) : x < o.desc i ∨ o.desc i + 24 ≤ x := by
  have inside := ok.inside r mem
  have := inside.low
  have := inside.high
  have apart := own.apart
  simp only [HeapOwner.desc, descSize, descCnt] at *
  omega

theorem Arenas.Ok.local_unique (ok : A.Ok o.vaddrStart len) (own : o.Ok len) (li : i < descCnt) (lj : j < descCnt)
    (h : A.Local o i x) (h' : A.Local o j x) : i = j := by
  rcases h with h | ⟨a, small, h⟩ <;> rcases h' with h' | ⟨a', small', h'⟩
  · simp only [HeapOwner.desc, descSize] at h h'
    omega
  · have := ok.beside_descs own small' li (x := x) (by simp only; omega) (by simp only [pgSize]; omega)
    omega
  · have := ok.beside_descs own small lj (x := x) (by simp only; omega) (by simp only [pgSize]; omega)
    omega
  · rcases ok.small_apart small small' with rfl | apart
    · exact ok.small_unique small small'
    · omega

theorem owns_desc {runs : List PageRun} (lt : i < descCnt) (hx : o.desc i ≤ x ∧ x < o.desc i + 24) : o.Owns runs x := by
  left
  simp only [HeapOwner.desc, descSize, descCnt] at *
  omega

theorem owns_local (lt : i < descCnt) (h : A.Local o i x) : o.Owns A.runs x := by
  rcases h with h | ⟨a, small, h⟩
  · exact owns_desc lt (by omega)
  · exact .inr ⟨_, small, by simp only [PageRun.Has, pgSize]; omega⟩

theorem owns_count (small : A.Small a i) : o.Owns A.runs (a + 4) :=
  .inr ⟨_, small, by simp only [PageRun.Has, pgSize]; omega⟩

/-- A change inside one class stays inside the heap. -/
theorem sameBeside_of_local (lt : i < descCnt) {m m' : Mem}
    (frame : ∀ x, ¬ A.Local o i x → (∀ a, A.Small a i → x ≠ a + 4) → m' x = m x) : SameBeside o A.runs m m' := by
  intro x out
  refine frame x (fun h => out (owns_local lt h)) fun a small e => ?_
  subst e
  exact out (owns_count small)

/-- The first two words of a descriptor are no part of a list. -/
theorem Arenas.Ok.desc_not_local (ok : A.Ok o.vaddrStart len) (own : o.Ok len) (lj : j < descCnt)
    (hx : o.desc j ≤ x ∧ x < o.desc j + 8) : ¬ A.Local o i x := by
  rintro (h | ⟨a, small, h⟩)
  · simp only [HeapOwner.desc, descSize] at h hx
    omega
  · have := ok.beside_descs own small lj (x := x) (by simp only; omega) (by simp only [pgSize]; omega)
    omega

/-- A header is no part of a list. -/
theorem Arenas.Ok.header_not_local (ok : A.Ok o.vaddrStart len) (own : o.Ok len) (li : i < descCnt) (mem : r ∈ A.runs)
    (hx : r.addr ≤ x ∧ x < r.addr + 12) : ¬ A.Local o i x := by
  have pages := (ok.inside r mem).pages
  rintro (h | ⟨a, small, h⟩)
  · have := ok.beside_descs own mem li (x := x) hx.1 (by simp only [pgSize]; omega)
    omega
  · rcases ok.eq_or_apart mem small with rfl | apart
    · simp only at hx
      omega
    · simp only [PageRun.Apart, pgSize] at apart
      omega

/-- The count of one arena is no word of a descriptor, of a list or of another header. -/
theorem Arenas.Ok.desc_not_count (ok : A.Ok o.vaddrStart len) (own : o.Ok len) (lj : j < descCnt) (small : A.Small a i)
    (hx : o.desc j ≤ x ∧ x < o.desc j + 24) : x ≠ a + 4 := by
  have := ok.beside_descs own small lj (x := a + 4) (by simp only; omega) (by simp only [pgSize]; omega)
  omega

theorem Arenas.Ok.header_not_count (ok : A.Ok o.vaddrStart len) (mem : r ∈ A.runs) (small : A.Small a i)
    (ne : r ≠ ⟨a, 1, some i⟩) (hx : r.addr ≤ x ∧ x < r.addr + 12) : x ≠ a + 4 := by
  have pages := (ok.inside r mem).pages
  rcases ok.eq_or_apart mem small with e | apart
  · exact absurd e ne
  · simp only [PageRun.Apart, pgSize] at apart
    omega

end Words

section Change

variable {o : HeapOwner} {A A' : Arenas} {m m' : Mem} {len a i b : Nat} {L : List Nat}

/-- A change inside one class: the memory is the same outside its lists and the counts of
its arenas, and these are in order. -/
theorem Shows.change (sh : Shows o m A) (ok : A.Ok o.vaddrStart len) (own : o.Ok len) (lt : i < descCnt)
    (runs : ∀ r ∈ A'.runs, r ∈ A.runs) (free : ∀ k, k ≠ i → A'.free k = A.free k)
    (frame : ∀ x, ¬ A.Local o i x → (∀ a, A.Small a i → x ≠ a + 4) → m' x = m x)
    (list : IsList m' (o.desc i + 8) (A'.free i))
    (counts : ∀ a, A'.Small a i → m' (a + 4) = countIn (A'.free i) a) : Shows o m' A' := by
  have descWord : ∀ k x, k < descCnt → o.desc k ≤ x ∧ x < o.desc k + 8 → m' x = m x := by
    intro k x lk hx
    exact frame x (ok.desc_not_local own lk hx) fun a small => ok.desc_not_count own lk small (by omega)
  refine ⟨?_, ?_, ?_, ?_⟩
  · intro k lk
    rw [descWord k _ lk (by omega), descWord k _ lk (by omega)]
    exact sh.descs k lk
  · intro k lk
    by_cases e : k = i
    · subst e
      exact list
    · rw [free k e]
      refine (sh.lists k lk).congr fun x hx => ?_
      have isLocal := local_of_nodes (ok.freeIn k) hx
      refine frame x (fun h => e (ok.local_unique own lk lt isLocal h)) fun a small => ?_
      rintro rfl
      exact ok.header_not_local own lk small (by simp only; omega) isLocal
  · intro r mem
    have old := sh.headers r (runs r mem)
    have word : ∀ x, r.addr ≤ x ∧ x < r.addr + 12 → (r.cls = some i → x ≠ r.addr + 4) → m' x = m x := by
      intro x hx notCount
      refine frame x (ok.header_not_local own lt (runs r mem) hx) fun a small => ?_
      by_cases e : r = ⟨a, 1, some i⟩
      · subst e
        exact notCount rfl
      · exact ok.header_not_count (runs r mem) small e hx
    simp only [HeaderOk] at old ⊢
    cases cls : r.cls with
    | some k =>
      rw [cls] at old
      simp only at old ⊢
      rw [word _ (by omega) (by omega), word _ (by omega) (by omega)]
      exact old
    | none =>
      rw [cls] at old
      simp only at old ⊢
      rw [word _ (by omega) (by omega), word _ (by omega) (by simp [cls]), word _ (by omega) (by omega)]
      exact old
  · intro a k small
    by_cases e : k = i
    · subst e
      exact counts a small
    · have small' := runs _ small
      rw [free k e, ← sh.counts a k small']
      refine frame _ (ok.header_not_local own lt small' (by simp only; omega)) fun a' h => ?_
      exact ok.header_not_count small' h (by simp [e]) (by simp only; omega)

/-- A block does not meet the nodes of a list it is not on. -/
theorem Arenas.Ok.block_beside (ok : A.Ok o.vaddrStart len) (own : o.Ok len) (small : A.Small a i) (isBlock : IsBlock a i b)
    (blocks : ∀ c ∈ L, ∃ a, A.Small a i ∧ IsBlock a i c) (out : b ∉ L) {u : Nat}
    (mem : u ∈ nodesOf (o.desc i + 8) L) : u + 8 ≤ b ∨ b + blockSize i ≤ u := by
  have bounds := isBlock.bounds
  have size := blockSize_ge i
  have lt := ok.cls_lt small
  have low := ok.beside_descs own small lt (x := b) (by simp only; omega) (by simp only [pgSize]; omega)
  have high := ok.beside_descs own small lt (x := b + blockSize i - 1) (by simp only; omega)
    (by simp only [pgSize]; omega)
  simp only [nodesOf, List.cons_append, List.mem_cons, List.mem_append, List.not_mem_nil, or_false] at mem
  have apart := own.apart
  have inside := ok.inside _ small
  have := inside.low
  have := inside.high
  simp only [HeapOwner.desc, descSize, descCnt, pgSize] at *
  rcases mem with rfl | mem | rfl
  · omega
  · obtain ⟨a', small', isBlock'⟩ := blocks u mem
    have ne : u ≠ b := fun e => out (e ▸ mem)
    rcases ok.blocks_disjoint small' small isBlock' isBlock ne with h | h <;> omega
  · omega

theorem memset0_out {x size : Nat} (out : x < a ∨ a + size ≤ x) : memset0 m a size x = m x :=
  if_neg (by omega)

theorem countIn_cons : countIn (b :: L) a = countIn L a + if block2arena b = a then 1 else 0 := by
  simp [countIn, List.countP_cons]

theorem countIn_concat : countIn (L ++ [b]) a = countIn L a + if block2arena b = a then 1 else 0 := by
  simp [countIn, List.countP_append, List.countP_cons]

/-- The free blocks of an arena, among all its blocks. -/
theorem Arenas.Ok.free_subperm (ok : A.Ok o.vaddrStart len) (small : A.Small a i) :
    List.Subperm ((A.free i).filter fun b => block2arena b == a) ((List.range (perArena i)).map (blockAt a i)) := by
  refine List.subperm_of_subset ((ok.nodup i).filter _) fun b hb => ?_
  rw [List.mem_filter, beq_iff_eq] at hb
  obtain ⟨a', small', isBlock⟩ := ok.freeIn i b hb.1
  have same : a' = a := by rw [← hb.2, isBlock.arena (ok.aligned small')]
  subst same
  exact mem_newBlocks.2 isBlock

theorem Arenas.Ok.countIn_le (ok : A.Ok o.vaddrStart len) (small : A.Small a i) :
    countIn (A.free i) a ≤ perArena i := by
  have := (ok.free_subperm small).length_le
  rw [countIn, List.countP_eq_length_filter]
  simpa using this

/-- When the count is full, every block of the arena is free. -/
theorem Arenas.Ok.all_free (ok : A.Ok o.vaddrStart len) (small : A.Small a i)
    (full : countIn (A.free i) a = perArena i) (isBlock : IsBlock a i b) : b ∈ A.free i := by
  rw [countIn, List.countP_eq_length_filter] at full
  have perm := (ok.free_subperm small).perm_of_length_le (by simp [full])
  exact List.mem_of_mem_filter (perm.mem_iff.2 (mem_newBlocks.2 isBlock))

/-- The first free block of class `i` is taken from its list and cleared. -/
theorem Shows.take {h : Heap} (sh : Shows o h.mem A) (ok : A.Ok o.vaddrStart len) (own : o.Ok len)
    (first : A.free i = b :: L) (size : Nat) :
    (takeBlock h (o.desc i)).1 = b ∧ Shows o (takeBlock h (o.desc i)).2.mem (A.take i b L size) ∧
      SameBeside o A.runs h.mem (takeBlock h (o.desc i)).2.mem := by
  obtain ⟨a, small, isBlock⟩ := ok.freeIn i b (by simp [first])
  have lt := ok.cls_lt small
  have list := sh.lists i lt
  rw [first] at list
  obtain ⟨popped, rest⟩ := list.pop
  have arena := isBlock.arena (ok.aligned small)
  have bounds := isBlock.bounds
  have blocks : ∀ c ∈ L, ∃ a, A.Small a i ∧ IsBlock a i c :=
    fun c hc => ok.freeIn i c (by rw [first]; exact List.mem_cons_of_mem _ hc)
  have out : b ∉ L := by
    have := ok.nodup i
    rw [first, List.nodup_cons] at this
    exact this.1
  have pop : ∀ x, ¬ A.Local o i x → (listPop h.mem (o.desc i + 8)).2 x = h.mem x := by
    intro x hx
    have := listRemove_frame list (e := b) (by simp) (x := x) fun hn =>
      hx (local_of_nodes (by rw [← first]; exact ok.freeIn i) hn)
    rw [← popped] at this
    exact this
  have isSize : (listPop h.mem (o.desc i + 8)).2 (o.desc i) = blockSize i := by
    rw [pop _ (ok.desc_not_local own lt (by omega))]
    exact (sh.descs i lt).1
  generalize taken : listPop h.mem (o.desc i + 8) = popResult at *
  obtain ⟨e, m1⟩ := popResult
  simp only at popped rest pop isSize
  subst popped
  have shape : takeBlock h (o.desc i) =
      (e, { h with mem := store (memset0 m1 e (blockSize i)) (a + 4) ((h.mem (a + 4) + (2 ^ 32 - 1)) % 2 ^ 32) }) := by
    have count : memset0 m1 e (blockSize i) (a + 4) = h.mem (a + 4) := by
      rw [memset0_out (by omega), pop _ (ok.header_not_local own lt small (by simp only; omega))]
    simp only [takeBlock, taken, isSize, arena, count]
  rw [shape]
  dsimp only
  have frame : ∀ x, ¬ A.Local o i x → (∀ a, A.Small a i → x ≠ a + 4) →
      store (memset0 m1 e (blockSize i)) (a + 4) ((h.mem (a + 4) + (2 ^ 32 - 1)) % 2 ^ 32) x = h.mem x := by
    intro x notLocal notCount
    rw [store_ne (notCount a small), memset0_out ?_, pop x notLocal]
    have : ¬ (a + 12 ≤ x ∧ x < a + 4096) := fun hx => notLocal (.inr ⟨a, small, hx⟩)
    omega
  refine ⟨rfl, sh.change ok own lt (fun _ => id) (fun k ne => if_neg ne) frame ?_ ?_, sameBeside_of_local lt frame⟩
  · rw [show (A.take i e L size).free i = L from if_pos rfl]
    refine rest.congr fun x hx => ?_
    rw [store_ne ?_, memset0_out ?_]
    · obtain ⟨u, mem, hu⟩ := hx
      have := ok.block_beside own small isBlock blocks out mem
      omega
    · rintro rfl
      exact ok.header_not_local own lt small (by simp only; omega) (local_of_nodes blocks hx)
  · intro a' small'
    rw [show (A.take i e L size).free i = L from if_pos rfl]
    have old := sh.counts a' i small'
    rw [first, countIn_cons, arena] at old
    by_cases same : a = a'
    · subst same
      rw [if_pos rfl] at old
      have few := ok.countIn_le small
      have := perArena_le i
      rw [first, countIn_cons, arena, if_pos rfl] at few
      rw [store_same, old]
      omega
    · rw [if_neg same] at old
      rw [store_ne (by omega), memset0_out ?_, pop _ (ok.header_not_local own lt small' (by simp only; omega))]
      · exact old
      · have := ok.small_apart small small'
        omega

/-- A block that is not on the list of its class is put there. -/
theorem Shows.isList_append (sh : Shows o m A) (ok : A.Ok o.vaddrStart len) (own : o.Ok len) (small : A.Small a i)
    (isBlock : IsBlock a i b) (out : b ∉ A.free i) :
    IsList (listAppend m (o.desc i + 8) b) (o.desc i + 8) (A.free i ++ [b]) ∧
      ∀ x, ¬ A.Local o i x → listAppend m (o.desc i + 8) b x = m x := by
  have lt := ok.cls_lt small
  have list := sh.lists i lt
  have size := blockSize_ge i
  refine ⟨list.append fun u mem => ?_, fun x hx => listAppend_frame list fun hn => hx (local_of_nodes ?_ hn)⟩
  · have := ok.block_beside own small isBlock (ok.freeIn i) out mem
    simp only [NodesApart]
    omega
  · intro c hc
    rw [List.mem_append, List.mem_singleton] at hc
    rcases hc with hc | rfl
    · exact ok.freeIn i c hc
    · exact ⟨a, small, isBlock⟩

/-- A block comes back to its class. -/
theorem Shows.give (sh : Shows o m A) (ok : A.Ok o.vaddrStart len) (own : o.Ok len) (small : A.Small a i)
    (isBlock : IsBlock a i b) (live : A.Live b) :
    Shows o (store (listAppend m (o.desc i + 8) b) (a + 4) ((listAppend m (o.desc i + 8) b (a + 4) + 1) % 2 ^ 32))
        (A.give i b) ∧
      SameBeside o A.runs m
        (store (listAppend m (o.desc i + 8) b) (a + 4) ((listAppend m (o.desc i + 8) b (a + 4) + 1) % 2 ^ 32)) := by
  have lt := ok.cls_lt small
  have out : b ∉ A.free i := fun mem => ok.free_not_live mem live
  obtain ⟨list, frame⟩ := sh.isList_append ok own small isBlock out
  have arena := isBlock.arena (ok.aligned small)
  have word : ∀ a', A.Small a' i → listAppend m (o.desc i + 8) b (a' + 4) = m (a' + 4) :=
    fun a' small' => frame _ (ok.header_not_local own lt small' (by simp only; omega))
  have isFree : (A.give i b).free i = A.free i ++ [b] := if_pos rfl
  have outside : ∀ x, ¬ A.Local o i x → (∀ a, A.Small a i → x ≠ a + 4) →
      store (listAppend m (o.desc i + 8) b) (a + 4) ((listAppend m (o.desc i + 8) b (a + 4) + 1) % 2 ^ 32) x = m x := by
    intro x notLocal notCount
    rw [store_ne (notCount a small), frame x notLocal]
  refine ⟨sh.change ok own lt (fun _ => id) (fun k ne => if_neg ne) outside ?_ ?_, sameBeside_of_local lt outside⟩
  · rw [isFree]
    refine list.congr fun x hx => store_ne ?_ _ _
    rintro rfl
    refine ok.header_not_local own lt small (by simp only; omega) (local_of_nodes ?_ hx)
    rw [← isFree]
    exact (ok.give small isBlock live).freeIn i
  · intro a' small'
    have old := sh.counts a' i small'
    rw [isFree, countIn_concat, arena]
    by_cases same : a = a'
    · subst same
      have := ok.countIn_le small
      have := perArena_le i
      rw [store_same, word a small, old, if_pos rfl]
      omega
    · rw [if_neg same, store_ne (by omega), word a' small']
      exact old

/-- A free list is shorter than the address space. -/
theorem Arenas.Ok.free_short (ok : A.Ok o.vaddrStart len) (own : o.Ok len) : (A.free i).length < 2 ^ 32 := by
  have bound : ∀ b ∈ A.free i, 0 < b ∧ b < 2 ^ 32 := by
    intro b hb
    obtain ⟨a, small, isBlock⟩ := ok.freeIn i b hb
    have bounds := isBlock.bounds
    have := blockSize_ge i
    have inside := (ok.inside _ small).high
    have := own.high
    simp only [pgSize] at *
    omega
  have sub : List.Subperm (0 :: A.free i) (List.range (2 ^ 32)) := by
    refine List.subperm_of_subset (List.nodup_cons.2 ⟨fun h => ?_, ok.nodup i⟩) ?_
    · exact absurd (bound 0 h).1 (by omega)
    · intro b hb
      rw [List.mem_range]
      rcases List.mem_cons.1 hb with rfl | hb
      · omega
      · exact (bound b hb).2
  have := sub.length_le
  rw [List.length_cons, List.length_range] at this
  omega

/-- What is left of a free list when some blocks of an arena are withdrawn. -/
def withdrawn (L : List Nat) (a i : Nat) (js : List Nat) : List Nat := L.filter fun c => c ∉ js.map (blockAt a i)

theorem withdrawn_cons {j : Nat} {js : List Nat} (nodup : L.Nodup) :
    withdrawn (L.erase (blockAt a i j)) a i js = withdrawn L a i (j :: js) := by
  rw [nodup.erase_eq_filter]
  simp only [withdrawn, List.filter_filter, List.map_cons, List.mem_cons, not_or]
  refine List.filter_congr fun c _ => ?_
  by_cases h : c = blockAt a i j <;> simp [h]

/-- The loop over the blocks of an arena of class `i`. -/
theorem dropBlocks_ok (header : ∀ m' : Mem, (∀ x, ¬ A.Local o i x → m' x = m x) → m' a = o.desc i ∧ m' (o.desc i) = blockSize i)
    (blocks : ∀ c ∈ A.free i, ∃ a, A.Small a i ∧ IsBlock a i c) :
    ∀ (js : List Nat) {L : List Nat} {m1 : Mem}, L.Sublist (A.free i) → L.Nodup → L.length < 2 ^ 32 → js.Nodup →
      (∀ j ∈ js, blockAt a i j ∈ L) → IsList m1 (o.desc i + 8) L → (∀ x, ¬ A.Local o i x → m1 x = m x) →
      ∃ m2, js.foldlM (dropBlock a) m1 = .ok m2 ∧ IsList m2 (o.desc i + 8) (withdrawn L a i js) ∧
        ∀ x, ¬ A.Local o i x → m2 x = m x := by
  intro js
  induction js with
  | nil =>
    intro L m1 _ _ _ _ _ list frame
    refine ⟨m1, rfl, ?_, frame⟩
    simpa [withdrawn] using list
  | cons j js ih =>
    intro L m1 sub nodup short distinct mem list frame
    obtain ⟨isDesc, isSize⟩ := header m1 frame
    have here := mem j (by simp)
    have first : dropBlock a m1 j = .ok (listRemove m1 (blockAt a i j)) := by
      simp only [dropBlock, arena2block, isDesc, isSize]
      rw [show a + arenaSize + j * blockSize i = blockAt a i j from rfl, list.find short]
      simp [here, assertThat, bind, Except.bind, pure, Except.pure]
    rw [List.nodup_cons] at distinct
    obtain ⟨m2, done, list2, frame2⟩ := ih (L := L.erase (blockAt a i j)) (List.erase_sublist.trans sub)
      (nodup.erase _) (Nat.lt_of_le_of_lt List.erase_sublist.length_le short) distinct.2
      (fun k hk => (nodup.mem_erase_iff).2 ⟨fun e => distinct.1 (blockAt_inj e ▸ hk), mem k (by simp [hk])⟩)
      (list.remove here)
      (fun x hx => by
        rw [listRemove_frame list here fun hn => hx (local_of_nodes (fun c hc => blocks c (sub.subset hc)) hn)]
        exact frame x hx)
    refine ⟨m2, ?_, ?_, frame2⟩
    · rw [List.foldlM_cons, first]
      exact done
    · rw [← withdrawn_cons nodup]
      exact list2

/-- An arena whose blocks are all free is withdrawn from its list. -/
theorem Shows.drop (sh : Shows o m A) (ok : A.Ok o.vaddrStart len) (own : o.Ok len) (small : A.Small a i)
    (full : countIn (A.free i) a = perArena i) :
    ∃ m', (List.range (perArena i)).foldlM (dropBlock a) m = .ok m' ∧ Shows o m' (A.dropSmall a i) ∧
      SameBeside o A.runs m m' := by
  have lt := ok.cls_lt small
  have header : ∀ m' : Mem, (∀ x, ¬ A.Local o i x → m' x = m x) → m' a = o.desc i ∧ m' (o.desc i) = blockSize i := by
    intro m' frame
    rw [frame _ (ok.header_not_local own lt small (by simp only; omega)),
      frame _ (ok.desc_not_local own lt (by omega))]
    exact ⟨(sh.headers _ small).1, (sh.descs i lt).1⟩
  obtain ⟨m', done, list, frame⟩ := dropBlocks_ok header (ok.freeIn i) (List.range (perArena i)) (List.Sublist.refl _)
    (ok.nodup i) (ok.free_short own) List.nodup_range
    (fun j hj => ok.all_free small full ⟨j, List.mem_range.1 hj, rfl⟩) (sh.lists i lt) (fun _ _ => rfl)
  have left : (A.dropSmall a i).free i = withdrawn (A.free i) a i (List.range (perArena i)) := by
    rw [show (A.dropSmall a i).free i = (A.free i).filter fun b => block2arena b ≠ a from if_pos rfl, withdrawn]
    refine List.filter_congr fun c hc => ?_
    obtain ⟨a', small', isBlock⟩ := ok.freeIn i c hc
    rw [decide_eq_decide, mem_newBlocks, isBlock.arena (ok.aligned small')]
    refine not_congr ⟨fun e => e ▸ isBlock, fun isBlock' => ?_⟩
    exact (ok.block_unique small' small isBlock isBlock').1
  refine ⟨m', done, sh.change ok own lt (fun r hr => List.mem_of_mem_erase hr) (fun k ne => if_neg ne)
    (fun x hx _ => frame x hx) (by rw [left]; exact list) ?_, sameBeside_of_local lt fun x hx _ => frame x hx⟩
  intro a' small'
  have small'' : A.Small a' i := List.mem_of_mem_erase small'
  have ne : a' ≠ a := by
    rintro rfl
    exact (ok.mem_erase.1 small').1 rfl
  rw [frame _ (ok.header_not_local own lt small'' (by simp only; omega)), sh.counts a' i small'',
    show (A.dropSmall a i).free i = (A.free i).filter fun b => block2arena b ≠ a from if_pos rfl]
  simp only [countIn, List.countP_filter]
  refine List.countP_congr fun c _ => ?_
  simp only [Bool.and_eq_true, beq_iff_eq, decide_eq_true_eq]
  exact ⟨fun e => ⟨e, by rw [e]; exact ne⟩, And.left⟩

/-- A large arena is given up: the memory of the others does not change. -/
theorem Shows.dropLarge {n : Nat} (sh : Shows o m A) : Shows o m (A.dropLarge a n) :=
  ⟨sh.descs, sh.lists, fun r hr => sh.headers r (List.mem_of_mem_erase hr),
    fun a' i small => sh.counts a' i (List.mem_of_mem_erase small)⟩

end Change

section Grow

variable {o : HeapOwner} {A : Arenas} {m m' : Mem} {len a i n : Nat} {r : PageRun}

/-- What is done to a fresh run and to the list of class `i`, which was empty, leaves the
rest of the heap as it is. -/
theorem Shows.grow (sh : Shows o m A) (ok : A.Ok o.vaddrStart len) (own : o.Ok len)
    (inside : r.Inside o.vaddrStart len) (fresh : ∀ r' ∈ A.runs, r.Apart r')
    (frame : ∀ x, ¬ r.Has x → ¬ (i < descCnt ∧ o.desc i + 8 ≤ x ∧ x < o.desc i + 24) → m' x = m x) :
    (∀ k, k < descCnt → m' (o.desc k) = blockSize k ∧ m' (o.desc k + 4) = perArena k) ∧
      (∀ k, k < descCnt → (i < descCnt → k ≠ i) → IsList m' (o.desc k + 8) (A.free k)) ∧
      (∀ r' ∈ A.runs, HeaderOk o m' r') ∧ ∀ a k, A.Small a k → m' (a + 4) = m (a + 4) := by
  have low := inside.low
  have high := inside.high
  have beside : ∀ k x, k < descCnt → o.desc k ≤ x ∧ x < o.desc k + 24 → ¬ r.Has x := by
    intro k x lk hx has
    have apart := own.apart
    simp only [PageRun.Has, HeapOwner.desc, descSize, descCnt] at *
    omega
  have other : ∀ r' ∈ A.runs, ∀ x, r'.Has x → ¬ r.Has x := by
    intro r' mem x has has'
    have apart := fresh r' mem
    simp only [PageRun.Has, PageRun.Apart] at *
    omega
  have header : ∀ r' ∈ A.runs, ∀ x, r'.addr ≤ x ∧ x < r'.addr + 12 → m' x = m x := by
    intro r' mem x hx
    have pages := (ok.inside r' mem).pages
    have has : r'.Has x := ⟨hx.1, by simp only [pgSize]; omega⟩
    refine frame x (other r' mem x has) fun hd => ?_
    have := ok.beside_descs own mem hd.1 has.1 has.2
    omega
  refine ⟨?_, ?_, ?_, ?_⟩
  · intro k lk
    have word : ∀ x, o.desc k ≤ x ∧ x < o.desc k + 8 → m' x = m x := by
      intro x hx
      refine frame x (beside k x lk (by omega)) fun hd => ?_
      simp only [HeapOwner.desc, descSize] at hd hx
      omega
    rw [word _ (by omega), word _ (by omega)]
    exact sh.descs k lk
  · intro k lk ne
    refine (sh.lists k lk).congr fun x hx => ?_
    rcases local_of_nodes (ok.freeIn k) hx with hd | ⟨a', small, hb⟩
    · refine frame x (beside k x lk (by omega)) fun hd' => ?_
      have := ne hd'.1
      simp only [HeapOwner.desc, descSize] at hd hd'
      omega
    · have has : PageRun.Has ⟨a', 1, some k⟩ x := by
        simp only [PageRun.Has, pgSize]
        omega
      refine frame x (other _ small x has) fun hd' => ?_
      have := ok.beside_descs own small hd'.1 has.1 has.2
      omega
  · intro r' mem
    have old := sh.headers r' mem
    simp only [HeaderOk] at old ⊢
    rw [header r' mem _ (by omega), header r' mem _ (by omega), header r' mem _ (by omega)]
    exact old
  · intro a' k small
    exact header _ small _ (by simp only; omega)

/-- A large arena in a fresh run. -/
theorem Shows.addLarge (sh : Shows o m A) (ok : A.Ok o.vaddrStart len) (own : o.Ok len)
    (inside : (PageRun.mk a n none).Inside o.vaddrStart len) (fresh : ∀ r' ∈ A.runs, (PageRun.mk a n none).Apart r') (size : Nat) :
    Shows o (setArena (memset0 m a (n * pgSize)) a 0 n 1) (A.addLarge a n size) ∧
      SameBeside o (A.addLarge a n size).runs m (setArena (memset0 m a (n * pgSize)) a 0 n 1) := by
  have pages := inside.pages
  have frame : ∀ x, ¬ (PageRun.mk a n none).Has x → setArena (memset0 m a (n * pgSize)) a 0 n 1 x = m x := by
    intro x out
    simp only [PageRun.Has, pgSize] at out pages
    simp only [setArena]
    rw [store_ne (by omega), store_ne (by omega), store_ne (by omega), memset0_out (by simp only [pgSize]; omega)]
  obtain ⟨descs, lists, headers, counts⟩ := sh.grow (i := descCnt)
    ok own inside fresh (fun x out _ => frame x out)
  refine ⟨⟨descs, fun k lk => lists k lk (by omega), List.forall_mem_cons.2 ⟨?_, headers⟩, ?_⟩,
    fun x out => frame x fun has => out (.inr ⟨_, List.mem_cons_self, has⟩)⟩
  · simp [HeaderOk, setArena, store]
  · intro a' k small
    have small' : A.Small a' k := by simpa [Arenas.Small, Arenas.addLarge] using small
    rw [counts a' k small']
    exact sh.counts a' k small'

/-- The words the loop that cuts the arena at `a` may touch. -/
def CutTouches (o : HeapOwner) (a i x : Nat) : Prop :=
  (o.desc i + 8 ≤ x ∧ x < o.desc i + 24) ∨ (a + 12 ≤ x ∧ x < a + 4096)

/-- The loop that cuts a new arena of class `i` into blocks. -/
theorem cutBlocks_ok (lt : i < descCnt) (own : o.Ok len) (inside : (PageRun.mk a 1 (some i)).Inside o.vaddrStart len)
    (isDesc : m a = o.desc i) (isSize : m (o.desc i) = blockSize i) :
    ∀ (js done : List Nat) {m1 : Mem}, (done ++ js).Nodup → (∀ j ∈ done ++ js, j < perArena i) →
      IsList m1 (o.desc i + 8) (done.map (blockAt a i)) → (∀ x, ¬ CutTouches o a i x → m1 x = m x) →
      ∃ m2, js.foldlM (cutBlock a) m1 = .ok m2 ∧ IsList m2 (o.desc i + 8) ((done ++ js).map (blockAt a i)) ∧
        ∀ x, ¬ CutTouches o a i x → m2 x = m x := by
  have apart := own.apart
  have low := inside.low
  have high := inside.high
  have size := blockSize_ge i
  simp only [descSize, descCnt, pgSize] at apart low high lt
  intro js
  induction js with
  | nil =>
    intro done m1 _ _ list frame
    exact ⟨m1, rfl, by simpa using list, frame⟩
  | cons j js ih =>
    intro done m1 nodup bound list frame
    have lj : j < perArena i := bound j (by simp)
    have isBlock : IsBlock a i (blockAt a i j) := ⟨j, lj, rfl⟩
    have bounds := isBlock.bounds
    have blocks : ∀ c ∈ done.map (blockAt a i), IsBlock a i c ∧ c ≠ blockAt a i j := by
      intro c hc
      obtain ⟨k, hk, rfl⟩ := List.mem_map.1 hc
      refine ⟨⟨k, bound k (by simp [hk]), rfl⟩, fun e => ?_⟩
      have := blockAt_inj e
      subst this
      exact (List.nodup_append.1 nodup).2.2 k hk k (by simp) rfl
    have out : blockAt a i j ∉ done.map (blockAt a i) := fun h => (blocks _ h).2 rfl
    have short : (done.map (blockAt a i)).length < 2 ^ 32 := by
      have sub : List.Subperm done (List.range (perArena i)) := by
        refine List.subperm_of_subset (List.nodup_append.1 nodup).1 fun k hk => ?_
        exact List.mem_range.2 (bound k (by simp [hk]))
      have := sub.length_le
      have := perArena_le i
      rw [List.length_range] at *
      rw [List.length_map]
      omega
    have fresh : ∀ u ∈ nodesOf (o.desc i + 8) (done.map (blockAt a i)), NodesApart u (blockAt a i j) := by
      intro u mem
      simp only [nodesOf, List.cons_append, List.mem_cons, List.mem_append, List.not_mem_nil, or_false] at mem
      simp only [NodesApart]
      rcases mem with rfl | mem | rfl
      · simp only [HeapOwner.desc, descSize]; omega
      · obtain ⟨isBlock', ne⟩ := blocks u mem
        rcases isBlock'.disjoint isBlock ne with h | h <;> omega
      · simp only [HeapOwner.desc, descSize]; omega
    have touched : ∀ x, OfNodes (nodesOf (o.desc i + 8) (done.map (blockAt a i) ++ [blockAt a i j])) x →
        CutTouches o a i x := by
      rintro x ⟨u, mem, hx⟩
      simp only [nodesOf, List.cons_append, List.mem_cons, List.mem_append, List.not_mem_nil, or_false] at mem
      rcases mem with rfl | (mem | rfl) | rfl
      · left; omega
      · have := (blocks u mem).1.bounds
        right; omega
      · right; omega
      · left; omega
    have first : cutBlock a m1 j = .ok (listAppend m1 (o.desc i + 8) (blockAt a i j)) := by
      have d : m1 a = o.desc i := by
        rw [frame a (by simp only [CutTouches, HeapOwner.desc, descSize]; omega)]
        exact isDesc
      have s : m1 (o.desc i) = blockSize i := by
        rw [frame _ (by simp only [CutTouches, HeapOwner.desc, descSize]; omega)]
        exact isSize
      simp only [cutBlock, arena2block, d, s]
      rw [show a + arenaSize + j * blockSize i = blockAt a i j from rfl, list.find short]
      simp only [out, decide_false, assertThat, bind, Except.bind, pure, Except.pure, if_true]
    obtain ⟨m2, rest, list2, frame2⟩ := ih (done ++ [j])
      (by simpa using nodup) (by simpa using bound)
      (by rw [List.map_append]; exact list.append fresh)
      (fun x hx => by
        rw [listAppend_frame list fun hn => hx (touched x hn)]
        exact frame x hx)
    refine ⟨m2, ?_, by simpa using list2, frame2⟩
    rw [List.foldlM_cons, first]
    exact rest

theorem countIn_newBlocks (aligned : a % pgSize = 0) : countIn ((List.range (perArena i)).map (blockAt a i)) a = perArena i := by
  have all : ∀ c ∈ (List.range (perArena i)).map (blockAt a i), (block2arena c == a) = true := by
    intro c hc
    rw [beq_iff_eq]
    exact (mem_newBlocks.1 hc).arena aligned
  rw [countIn, List.countP_eq_length.2 all]
  simp

theorem countIn_newBlocks_ne (aligned : a % pgSize = 0) {a' : Nat} (ne : a' ≠ a) :
    countIn ((List.range (perArena i)).map (blockAt a i)) a' = 0 := by
  rw [countIn, List.countP_eq_zero]
  intro c hc
  rw [(mem_newBlocks.1 hc).arena aligned, beq_iff_eq]
  exact Ne.symm ne

/-- A new arena of class `i` in a fresh page. -/
theorem Shows.addSmall (sh : Shows o m A) (ok : A.Ok o.vaddrStart len) (own : o.Ok len) (lt : i < descCnt)
    (none : A.free i = []) (inside : (PageRun.mk a 1 (some i)).Inside o.vaddrStart len)
    (fresh : ∀ r' ∈ A.runs, (PageRun.mk a 1 (some i)).Apart r') :
    ∃ m', (List.range (perArena i)).foldlM (cutBlock a) (setArena (memset0 m a pgSize) a (o.desc i) (perArena i) 0) = .ok m' ∧
      Shows o m' (A.addSmall a i) ∧ SameBeside o (A.addSmall a i).runs m m' := by
  have own' := own.apart
  have low := inside.low
  have high := inside.high
  have li := lt
  simp only [descSize, descCnt, pgSize] at own' low high li
  have start : ∀ x, ¬ (a ≤ x ∧ x < a + 4096) →
      setArena (memset0 m a pgSize) a (o.desc i) (perArena i) 0 x = m x := by
    intro x out
    simp only [setArena]
    rw [store_ne (by omega), store_ne (by omega), store_ne (by omega), memset0_out (by simp only [pgSize]; omega)]
  obtain ⟨m', done, list, frame⟩ := cutBlocks_ok (m := setArena (memset0 m a pgSize) a (o.desc i) (perArena i) 0) lt own inside
    (by simp [setArena, store])
    (by rw [start _ (by simp only [HeapOwner.desc, descSize]; omega)]; exact (sh.descs i lt).1)
    (List.range (perArena i)) []
    (by simpa using List.nodup_range) (by simp)
    (by
      have old := sh.lists i lt
      rw [none] at old
      refine old.congr fun x hx => start x ?_
      obtain ⟨u, mem, hu⟩ := hx
      simp only [nodesOf, List.cons_append, List.mem_cons, List.nil_append, List.not_mem_nil, or_false] at mem
      simp only [HeapOwner.desc, descSize] at mem
      omega)
    (fun _ _ => rfl)
  rw [List.nil_append] at list
  have outside : ∀ x, ¬ (PageRun.mk a 1 (some i)).Has x → ¬ (i < descCnt ∧ o.desc i + 8 ≤ x ∧ x < o.desc i + 24) →
      m' x = m x := by
    intro x out notList
    simp only [PageRun.Has, pgSize, lt, true_and] at out notList
    rw [frame x (by simp only [CutTouches]; omega), start x (by omega)]
  obtain ⟨descs, lists, headers, counts⟩ := sh.grow (i := i) ok own inside fresh outside
  have header : ∀ x, a ≤ x ∧ x < a + 12 →
      m' x = setArena (memset0 m a pgSize) a (o.desc i) (perArena i) 0 x := by
    intro x hx
    exact frame x (by simp only [CutTouches, HeapOwner.desc, descSize]; omega)
  have isFree : (A.addSmall a i).free i = (List.range (perArena i)).map (blockAt a i) := if_pos rfl
  refine ⟨m', done, ⟨descs, ?_, List.forall_mem_cons.2 ⟨?_, headers⟩, ?_⟩, fun x out =>
    outside x (fun has => out (.inr ⟨_, List.mem_cons_self, has⟩)) fun hd => out (owns_desc hd.1 (by omega))⟩
  · intro k lk
    by_cases e : k = i
    · subst e
      rw [isFree]
      exact list
    · rw [show (A.addSmall a i).free k = A.free k from if_neg e]
      exact lists k lk fun _ => e
  · simp only [HeaderOk]
    rw [header _ (by omega), header _ (by omega)]
    simp [setArena, store]
  · intro a' k small
    have aligned := inside.aligned
    by_cases new : a' = a ∧ k = i
    · obtain ⟨rfl, rfl⟩ := new
      rw [isFree, countIn_newBlocks aligned, header _ (by omega)]
      simp [setArena, store]
    · have small' : A.Small a' k := by
        simp only [Arenas.Small, Arenas.addSmall, Arenas.setFree, List.mem_cons] at small
        refine small.resolve_left fun e => new ?_
        simpa using e
      have apart := fresh _ small'
      have ne : a' ≠ a := by
        simp only [PageRun.Apart, pgSize] at apart
        omega
      rw [counts a' k small', sh.counts a' k small']
      by_cases e : k = i
      · subst e
        rw [isFree, countIn_newBlocks_ne aligned ne, none]
        rfl
      · rw [show (A.addSmall a i).free k = A.free k from if_neg e]

end Grow

end Sparrow
