import Mathlib.Data.List.Basic
import Mathlib.Data.List.Induction
import Sparrow.Lib.Naming

/-!
# Walking a naming graph

Entries have labels, and a path is a list of labels. A walk follows it from node to node; the
label `here` stands for the node itself and `above` for the node above it. A path has one end
at most (`Walk.unique`). Leaving out every `here`, and every `above` with the label it takes
back, does not change the end (`Walk.wash`), and there is one such path to a directory only
(`Walk.plain_unique`).
-/

namespace Sparrow.Naming
set_option autoImplicit false

/-- What an entry names, its label, and the two labels every directory understands. -/
structure Labels (ν ι κ : Type) where
  target : ι → ν
  label : ι → κ
  here : κ
  above : κ

variable {ν ι κ : Type} {L : Labels ν ι κ} {g : Naming ν ι} {isDir : ι → Prop} {root : ν}

/-- The entries of a directory differ in their labels, and none is `here` or `above`. -/
structure Labels.Clear (L : Labels ν ι κ) (g : Naming ν ι) : Prop where
  dots : L.here ≠ L.above
  ordinary : ∀ m x, g.live m → g.dir m → g.entry m x → L.label x ≠ L.here ∧ L.label x ≠ L.above
  once : ∀ m x y, g.live m → g.dir m → g.entry m x → g.entry m y → L.label x = L.label y → x = y

/-- The label `k` leads from `m` to `m'`. -/
def Step (L : Labels ν ι κ) (g : Naming ν ι) (m : ν) (k : κ) (m' : ν) : Prop :=
  (k = L.here ∧ m' = m) ∨ (k = L.above ∧ m' = g.up m) ∨ ∃ x, g.entry m x ∧ k = L.label x ∧ m' = L.target x

/-- The path leads from one node to another, through directories. -/
inductive Walk (L : Labels ν ι κ) (g : Naming ν ι) : ν → List κ → ν → Prop
  | nil {m : ν} : Walk L g m [] m
  | cons {m m' m'' : ν} {k : κ} {ks : List κ} (dir : g.dir m) (step : Step L g m k m') (rest : Walk L g m' ks m'') :
      Walk L g m (k :: ks) m''

theorem Step.live (wf : Wf L.target isDir root g) {m m' : ν} {k : κ} (step : Step L g m k m') (live : g.live m) (dir : g.dir m) :
    g.live m' := by
  obtain ⟨-, rfl⟩ | ⟨-, rfl⟩ | ⟨x, entry, -, rfl⟩ := step
  · exact live
  · exact (wf.up live dir).1
  · exact (wf.named m x live dir entry).1

theorem Step.unique (clear : L.Clear g) {m a b : ν} {k : κ} (live : g.live m) (dir : g.dir m) (one : Step L g m k a)
    (other : Step L g m k b) : a = b := by
  obtain ⟨rfl, rfl⟩ | ⟨rfl, rfl⟩ | ⟨x, entry, rfl, rfl⟩ := one
  · obtain ⟨-, rfl⟩ | ⟨no, -⟩ | ⟨y, entry, no, -⟩ := other
    · rfl
    · exact absurd no clear.dots
    · exact absurd no.symm (clear.ordinary _ y live dir entry).1
  · obtain ⟨no, -⟩ | ⟨-, rfl⟩ | ⟨y, entry, no, -⟩ := other
    · exact absurd no.symm clear.dots
    · rfl
    · exact absurd no.symm (clear.ordinary m y live dir entry).2
  · obtain ⟨no, -⟩ | ⟨no, -⟩ | ⟨y, entry', same, rfl⟩ := other
    · exact absurd no (clear.ordinary m x live dir entry).1
    · exact absurd no (clear.ordinary m x live dir entry).2
    · rw [clear.once m x y live dir entry entry' same]

theorem Walk.append {a b c : ν} {ks ks' : List κ} (first : Walk L g a ks b) (second : Walk L g b ks' c) :
    Walk L g a (ks ++ ks') c := by
  induction first with
  | nil => exact second
  | cons dir step _ ih => exact .cons dir step (ih second)

theorem Walk.concat {a b c : ν} {ks : List κ} {k : κ} (first : Walk L g a ks b) (dir : g.dir b) (step : Step L g b k c) :
    Walk L g a (ks ++ [k]) c := first.append (.cons dir step .nil)

theorem walk_append_iff {a c : ν} {ks ks' : List κ} :
    Walk L g a (ks ++ ks') c ↔ ∃ b, Walk L g a ks b ∧ Walk L g b ks' c := by
  constructor
  · induction ks generalizing a with
    | nil => exact fun walk => ⟨a, .nil, walk⟩
    | cons k ks ih =>
      intro walk
      cases walk with
      | cons dir step rest =>
        obtain ⟨b, first, second⟩ := ih rest
        exact ⟨b, .cons dir step first, second⟩
  · rintro ⟨b, first, second⟩
    exact first.append second

theorem walk_concat_iff {a c : ν} {ks : List κ} {k : κ} :
    Walk L g a (ks ++ [k]) c ↔ ∃ b, Walk L g a ks b ∧ g.dir b ∧ Step L g b k c := by
  rw [walk_append_iff]
  refine exists_congr fun b => and_congr_right fun _ => ⟨fun walk => ?_, fun ⟨dir, step⟩ => .cons dir step .nil⟩
  cases walk with
  | cons dir step rest =>
    cases rest
    exact ⟨dir, step⟩

theorem Walk.live (wf : Wf L.target isDir root g) {a b : ν} {ks : List κ} (walk : Walk L g a ks b) (live : g.live a) :
    g.live b := by
  induction walk with
  | nil => exact live
  | cons dir step _ ih => exact ih (step.live wf live dir)

/-- **A path has one end.** -/
theorem Walk.unique (wf : Wf L.target isDir root g) (clear : L.Clear g) {m a b : ν} {ks : List κ} (one : Walk L g m ks a)
    (other : Walk L g m ks b) (live : g.live m) : a = b := by
  induction one with
  | nil =>
    cases other
    rfl
  | cons dir step _ ih =>
    cases other with
    | cons _ step' rest' =>
      obtain rfl := step.unique clear live dir step'
      exact ih rest' (step.live wf live dir)

/-- Where a path goes on there is a directory. -/
theorem Walk.dir_of_more (wf : Wf L.target isDir root g) (clear : L.Clear g) {m a b : ν} {ks ks' : List κ}
    (whole : Walk L g m (ks ++ ks') b) (more : ks' ≠ []) (part : Walk L g m ks a) (live : g.live m) : g.dir a := by
  obtain ⟨a', first, second⟩ := walk_append_iff.1 whole
  obtain rfl := part.unique wf clear first live
  cases second with
  | nil => exact absurd rfl more
  | cons dir _ _ => exact dir

/-- A path to a directory leads through directories only. -/
theorem Walk.dir_of_prefix (wf : Wf L.target isDir root g) (clear : L.Clear g) {m a b : ν} {ks ks' : List κ}
    (whole : Walk L g m (ks ++ ks') b) (dir : g.dir b) (part : Walk L g m ks a) (live : g.live m) : g.dir a := by
  by_cases more : ks' = []
  · rw [more, List.append_nil] at whole
    rw [part.unique wf clear whole live]
    exact dir
  · exact whole.dir_of_more wf clear more part live

/-- Looking for a path label by label: what is found, the directory looked in last, and the
labels looked for. A node that is no directory ends the search. -/
inductive Search (L : Labels ν ι κ) (g : Naming ν ι) : ν → List κ → Option ν → ν → List κ → Prop
  | missing {m : ν} {k : κ} {ks : List κ} (dir : g.dir m) (nowhere : ∀ m', ¬ Step L g m k m') : Search L g m (k :: ks) none m [k]
  | leaf {m m' : ν} {k : κ} {ks : List κ} (dir : g.dir m) (step : Step L g m k m') (leaf : ¬ g.dir m') :
      Search L g m (k :: ks) (some m') m [k]
  | last {m m' : ν} {k : κ} (dir : g.dir m) (step : Step L g m k m') (dir' : g.dir m') : Search L g m [k] (some m') m [k]
  | next {m m' p : ν} {k : κ} {ks done : List κ} {r : Option ν} (dir : g.dir m) (step : Step L g m k m')
      (rest : Search L g m' ks r p done) : Search L g m (k :: ks) r p (k :: done)

theorem Search.dir {m p : ν} {ks done : List κ} {r : Option ν} (search : Search L g m ks r p done) : g.dir m := by
  cases search <;> assumption

/-- A search goes on from where a walk leads. -/
theorem Search.of_walk {a m p : ν} {ks ks' done : List κ} {r : Option ν} (walk : Walk L g a ks m)
    (search : Search L g m ks' r p done) : Search L g a (ks ++ ks') r p (ks ++ done) := by
  induction walk with
  | nil => exact search
  | cons dir step _ ih => exact .next dir step (ih search)

/-- The labels looked for are labels of the path. -/
theorem Search.sub {m p : ν} {ks done : List κ} {r : Option ν} (search : Search L g m ks r p done) : ∀ k ∈ done, k ∈ ks := by
  induction search with
  | missing _ _ => exact fun k mem => List.mem_cons.2 (.inl (List.mem_singleton.1 mem))
  | leaf _ _ _ => exact fun k mem => List.mem_cons.2 (.inl (List.mem_singleton.1 mem))
  | last _ _ _ => exact fun k mem => mem
  | next _ _ _ ih =>
    intro k mem
    rcases List.mem_cons.1 mem with rfl | mem
    · exact List.mem_cons_self
    · exact List.mem_cons_of_mem _ (ih k mem)

/-- What is found lies at the end of the labels looked for. -/
theorem Search.walk {m p i : ν} {ks done : List κ} (search : Search L g m ks (some i) p done) : Walk L g m done i := by
  generalize isSome : some i = r at search
  induction search with
  | missing _ _ => cases isSome
  | leaf dir step _ =>
    cases isSome
    exact .cons dir step .nil
  | last dir step _ =>
    cases isSome
    exact .cons dir step .nil
  | next dir step _ ih => exact .cons dir step (ih isSome)

/-- Only a node that is no directory ends a search before its last label. -/
theorem Search.whole_of_dir {m p i : ν} {ks done : List κ} (search : Search L g m ks (some i) p done) (dir : g.dir i) : done = ks := by
  generalize isSome : some i = r at search
  induction search with
  | missing _ _ => cases isSome
  | leaf _ _ leaf =>
    cases isSome
    exact absurd dir leaf
  | last _ _ _ => rfl
  | next _ _ _ ih => rw [ih isSome]

/-- A search for a path that leads somewhere finds its end. -/
theorem Walk.search {m i : ν} {ks : List κ} (walk : Walk L g m ks i) (named : ks ≠ []) : ∃ p, Search L g m ks (some i) p ks := by
  induction walk with
  | nil => exact absurd rfl named
  | @cons m m' m'' k ks dir step rest ih =>
    cases ks with
    | nil =>
      cases rest
      by_cases dir' : g.dir m'
      · exact ⟨m, .last dir step dir'⟩
      · exact ⟨m, .leaf dir step dir'⟩
    | cons k' ks =>
      obtain ⟨p, search⟩ := ih (List.cons_ne_nil _ _)
      exact ⟨p, .next dir step search⟩

/-- **A search has one outcome.** -/
theorem Search.unique (wf : Wf L.target isDir root g) (clear : L.Clear g) {m p p' : ν} {ks done done' : List κ} {r r' : Option ν}
    (one : Search L g m ks r p done) (other : Search L g m ks r' p' done') (live : g.live m) :
    r = r' ∧ p = p' ∧ done = done' := by
  induction one generalizing r' p' done' with
  | missing dir nowhere =>
    cases other with
    | missing _ _ => exact ⟨rfl, rfl, rfl⟩
    | leaf _ step _ => exact absurd step (nowhere _)
    | last _ step _ => exact absurd step (nowhere _)
    | next _ step _ => exact absurd step (nowhere _)
  | leaf dir step leaf =>
    cases other with
    | missing _ nowhere => exact absurd step (nowhere _)
    | leaf _ step' _ =>
      obtain rfl := step.unique clear live dir step'
      exact ⟨rfl, rfl, rfl⟩
    | last _ step' dir' =>
      obtain rfl := step.unique clear live dir step'
      exact absurd dir' leaf
    | next _ step' rest =>
      obtain rfl := step.unique clear live dir step'
      exact absurd rest.dir leaf
  | last dir step dir' =>
    cases other with
    | missing _ nowhere => exact absurd step (nowhere _)
    | leaf _ step' leaf =>
      obtain rfl := step.unique clear live dir step'
      exact absurd dir' leaf
    | last _ step' _ =>
      obtain rfl := step.unique clear live dir step'
      exact ⟨rfl, rfl, rfl⟩
    | next _ _ rest => cases rest
  | next dir step rest ih =>
    cases other with
    | missing _ nowhere => exact absurd step (nowhere _)
    | leaf _ step' leaf =>
      obtain rfl := step.unique clear live dir step'
      exact absurd rest.dir leaf
    | last _ _ _ => cases rest
    | next _ step' rest' =>
      obtain rfl := step.unique clear live dir step'
      obtain ⟨rfl, rfl, rfl⟩ := ih rest' (step.live wf live dir)
      exact ⟨rfl, rfl, rfl⟩

/-- The path comes to a directory from which its next label does not lead on. -/
inductive Stuck (L : Labels ν ι κ) (g : Naming ν ι) : ν → List κ → Prop
  | here {m : ν} {k : κ} {ks : List κ} (dir : g.dir m) (none : ∀ m', ¬ Step L g m k m') : Stuck L g m (k :: ks)
  | next {m m' : ν} {k : κ} {ks : List κ} (dir : g.dir m) (step : Step L g m k m') (rest : Stuck L g m' ks) :
      Stuck L g m (k :: ks)

theorem Search.stuck {m p : ν} {ks done : List κ} (search : Search L g m ks none p done) : Stuck L g m ks := by
  generalize isNone : (none : Option ν) = r at search
  induction search with
  | missing dir nowhere => exact .here dir nowhere
  | leaf _ _ _ => cases isNone
  | last _ _ _ => cases isNone
  | next dir step _ ih => exact .next dir step (ih isNone)

/-- As far as a stuck path leads there are directories, and it does not lead to its end. -/
theorem Stuck.dir_of_walk (wf : Wf L.target isDir root g) (clear : L.Clear g) {m a : ν} {ks ks' : List κ}
    (walk : Walk L g m ks a) (stuck : Stuck L g m (ks ++ ks')) (live : g.live m) : g.dir a ∧ ks' ≠ [] := by
  induction walk with
  | nil =>
    rw [List.nil_append] at stuck
    cases stuck with
    | here dir _ => exact ⟨dir, List.cons_ne_nil _ _⟩
    | next dir _ _ => exact ⟨dir, List.cons_ne_nil _ _⟩
  | cons dir step _ ih =>
    rw [List.cons_append] at stuck
    cases stuck with
    | here _ none => exact absurd step (none _)
    | next _ step' stuck' =>
      obtain rfl := step.unique clear live dir step'
      exact ih stuck' (step.live wf live dir)

/-- Every label the path comes to has the property, at the node it comes to. -/
def Along (L : Labels ν ι κ) (g : Naming ν ι) (P : ν → κ → Prop) (m : ν) (ks : List κ) : Prop :=
  ∀ pre k post a, ks = pre ++ k :: post → Walk L g m pre a → P a k

theorem along_cons {P : ν → κ → Prop} {m : ν} {k : κ} {ks : List κ} (dir : g.dir m) :
    Along L g P m (k :: ks) ↔ P m k ∧ ∀ m', Step L g m k m' → Along L g P m' ks := by
  constructor
  · intro along
    refine ⟨along [] k ks m rfl .nil, fun m' step pre k' post a is walk => ?_⟩
    exact along (k :: pre) k' post a (by rw [is, List.cons_append]) (.cons dir step walk)
  · rintro ⟨first, later⟩ pre k' post a is walk
    cases walk with
    | nil =>
      rw [List.nil_append, List.cons.injEq] at is
      obtain ⟨rfl, rfl⟩ := is
      exact first
    | cons _ step rest =>
      rw [List.cons_append, List.cons.injEq] at is
      obtain ⟨rfl, is⟩ := is
      exact later _ step _ k' post a is rest

theorem along_of_forall {P : ν → κ → Prop} {m : ν} {ks : List κ} (all : ∀ k ∈ ks, ∀ a, P a k) : Along L g P m ks := by
  intro pre k post a is _
  apply all
  rw [is]
  exact List.mem_append_right _ List.mem_cons_self

/-- On one path there is one node at most that is no directory. -/
theorem Walk.leaf_unique (wf : Wf L.target isDir root g) (clear : L.Clear g) {m a b : ν} {ks more ks' more' : List κ}
    (one : Walk L g m ks a) (other : Walk L g m ks' b) (same : ks ++ more = ks' ++ more') (leafA : ¬ g.dir a)
    (leafB : ¬ g.dir b) (live : g.live m) : ks = ks' ∧ a = b := by
  induction one generalizing ks' with
  | nil =>
    cases other with
    | nil => exact ⟨rfl, rfl⟩
    | cons dir _ _ => exact absurd dir leafA
  | cons dir step _ ih =>
    cases other with
    | nil => exact absurd dir leafB
    | cons _ step' rest' =>
      rw [List.cons_append, List.cons_append, List.cons.injEq] at same
      obtain ⟨rfl, same⟩ := same
      obtain rfl := step.unique clear live dir step'
      obtain ⟨rfl, rfl⟩ := ih rest' same leafA (step.live wf live dir)
      exact ⟨rfl, rfl⟩

/-- Neither `here` nor `above`. -/
def Labels.Plain (L : Labels ν ι κ) (ks : List κ) : Prop := ∀ k ∈ ks, k ≠ L.here ∧ k ≠ L.above

/-- A plain path leads to a directory by the name it has in the directory above. -/
theorem Walk.last_entry (wf : Wf L.target isDir root g) {front : List κ} {k : κ} {m : ν} (plain : L.Plain (front ++ [k]))
    (walk : Walk L g root (front ++ [k]) m) (live : g.live m) (dir : g.dir m) :
    m ≠ root ∧ Walk L g root front (g.up m) ∧ ∃ x, g.entry (g.up m) x ∧ k = L.label x ∧ L.target x = m := by
  obtain ⟨p, before, dirP, step⟩ := walk_concat_iff.1 walk
  obtain ⟨notHere, notAbove⟩ := plain k (by simp)
  obtain ⟨no, -⟩ | ⟨no, -⟩ | ⟨x, entry, label, rfl⟩ := step
  · exact absurd no notHere
  · exact absurd no notAbove
  · have liveP := before.live wf wf.top.1
    obtain ⟨-, notRoot, -⟩ := wf.named p x liveP dirP entry
    -- the directory above has an entry for `m` too, and there is only one
    obtain ⟨liveU, dirU, y, entry', same⟩ := wf.holder _ live dir notRoot
    obtain ⟨rfl, -⟩ := wf.once p _ x y liveP dirP liveU dirU entry entry' same.symm
    exact ⟨notRoot, before, x, entry, label, rfl⟩

/-- Without its last label a plain path to a directory leads to the directory above. -/
theorem Walk.dropLast (wf : Wf L.target isDir root g) {done : List κ} {m : ν} (plain : L.Plain done)
    (walk : Walk L g root done m) (live : g.live m) (dir : g.dir m) : Walk L g root done.dropLast (g.up m) := by
  obtain rfl | ⟨front, k, rfl⟩ := List.eq_nil_or_concat' done
  · cases walk
    rw [wf.top.2.2]
    exact .nil
  · rw [List.dropLast_concat]
    exact (walk.last_entry wf plain live dir).2.1

theorem Labels.Plain.front {front back : List κ} (plain : L.Plain (front ++ back)) : L.Plain front :=
  fun k mem => plain k (List.mem_append_left _ mem)

/-- **A directory has one plain path.** -/
theorem Walk.plain_unique (wf : Wf L.target isDir root g) {ks ks' : List κ} {m : ν} (plain : L.Plain ks) (plain' : L.Plain ks')
    (walk : Walk L g root ks m) (walk' : Walk L g root ks' m) (live : g.live m) (dir : g.dir m) : ks = ks' := by
  induction ks using List.reverseRecOn generalizing ks' m with
  | nil =>
    cases walk
    obtain rfl | ⟨front', k', rfl⟩ := List.eq_nil_or_concat' ks'
    · rfl
    · exact absurd rfl (walk'.last_entry wf plain' live dir).1
  | append_singleton front k ih =>
    obtain ⟨notRoot, before, x, entry, rfl, is⟩ := walk.last_entry wf plain live dir
    obtain rfl | ⟨front', k', rfl⟩ := List.eq_nil_or_concat' ks'
    · cases walk'
      exact absurd rfl notRoot
    · obtain ⟨-, before', x', entry', rfl, is'⟩ := walk'.last_entry wf plain' live dir
      obtain ⟨liveU, dirU⟩ := wf.up live dir
      obtain ⟨-, rfl⟩ := wf.once _ _ x x' liveU dirU liveU dirU entry entry' (is.trans is'.symm)
      rw [ih plain.front plain'.front before before' liveU dirU]

/-- No directory but the root is above itself, or above the one above it. -/
theorem Walk.up_ne (wf : Wf L.target isDir root g) {front : List κ} {k : κ} {m : ν} (plain : L.Plain (front ++ [k]))
    (walk : Walk L g root (front ++ [k]) m) (live : g.live m) (dir : g.dir m) : g.up m ≠ m ∧ g.up (g.up m) ≠ m := by
  obtain ⟨notRoot, before, -⟩ := walk.last_entry wf plain live dir
  obtain ⟨liveU, dirU⟩ := wf.up live dir
  have longer : ∀ ks, L.Plain ks → Walk L g root ks m → ks.length = front.length + 1 := by
    intro ks plain' walk'
    rw [← walk.plain_unique wf plain plain' walk' live dir, List.length_append, List.length_singleton]
  refine ⟨fun same => ?_, fun same => ?_⟩
  · rw [same] at before
    have := longer front plain.front before
    omega
  · obtain rfl | ⟨front', k', rfl⟩ := List.eq_nil_or_concat' front
    · have top : g.up m = root := by
        cases before
        rfl
      rw [top, wf.top.2.2] at same
      exact notRoot same.symm
    · obtain ⟨-, before', -⟩ := before.last_entry wf plain.front liveU dirU
      rw [same] at before'
      have := longer front' plain.front.front before'
      rw [List.length_append] at this
      omega

section Wash

variable [DecidableEq κ]

/-- One label more behind a path without `here` and `above`. -/
def washStep (L : Labels ν ι κ) (done : List κ) (k : κ) : List κ :=
  if k = L.above then done.dropLast else if k = L.here then done else done ++ [k]

/-- A path without `here` and `above` to the same node. -/
def wash (L : Labels ν ι κ) (ks : List κ) : List κ := ks.foldl (washStep L) []

theorem washStep_plain {done : List κ} (plain : L.Plain done) (k : κ) : L.Plain (washStep L done k) := by
  intro k' mem
  rw [washStep] at mem
  split at mem
  · exact plain k' (List.dropLast_subset _ mem)
  · rename_i notAbove
    split at mem
    · exact plain k' mem
    · rename_i notHere
      rcases List.mem_append.1 mem with mem | mem
      · exact plain k' mem
      · rw [List.mem_singleton.1 mem]
        exact ⟨notHere, notAbove⟩

/-- What is washed is plain. -/
theorem wash_plain (ks : List κ) : L.Plain (wash L ks) := by
  have fold : ∀ (ks done : List κ), L.Plain done → L.Plain (ks.foldl (washStep L) done) := by
    intro ks
    induction ks with
    | nil => exact fun _ plain => plain
    | cons k ks ih => exact fun done plain => ih _ (washStep_plain plain k)
  exact fold ks [] fun k mem => by cases mem
theorem Walk.washStep (wf : Wf L.target isDir root g) {done : List κ} {m m' : ν} {k : κ} (plain : L.Plain done)
    (clear : L.Clear g) (walk : Walk L g root done m) (dir : g.dir m) (step : Step L g m k m') :
    Walk L g root (Naming.washStep L done k) m' := by
  have live := walk.live wf wf.top.1
  rw [Naming.washStep]
  by_cases isAbove : k = L.above
  · subst isAbove
    rw [if_pos rfl, step.unique clear live dir (.inr (.inl ⟨rfl, rfl⟩))]
    exact walk.dropLast wf plain live dir
  rw [if_neg isAbove]
  by_cases isHere : k = L.here
  · subst isHere
    rw [if_pos rfl, step.unique clear live dir (.inl ⟨rfl, rfl⟩)]
    exact walk
  · rw [if_neg isHere]
    exact walk.concat dir step

theorem Walk.foldl_wash (wf : Wf L.target isDir root g) (clear : L.Clear g) {m i : ν} {ks : List κ} (walk : Walk L g m ks i) :
    ∀ {done : List κ}, L.Plain done → Walk L g root done m → Walk L g root (ks.foldl (Naming.washStep L) done) i := by
  induction walk with
  | nil => exact fun _ before => before
  | cons dir step _ ih => exact fun plain before => ih (washStep_plain plain _) (before.washStep wf plain clear dir step)

/-- **Washing a path** keeps its end. -/
theorem Walk.wash (wf : Wf L.target isDir root g) (clear : L.Clear g) {i : ν} {ks : List κ} (walk : Walk L g root ks i) :
    Walk L g root (Naming.wash L ks) i :=
  walk.foldl_wash wf clear (fun _ mem => by cases mem) .nil

/-- Washing adds no label. -/
theorem wash_sub (ks : List κ) : ∀ k ∈ wash L ks, k ∈ ks := by
  have fold : ∀ (ks done : List κ) (k : κ), k ∈ ks.foldl (washStep L) done → k ∈ done ∨ k ∈ ks := by
    intro ks
    induction ks with
    | nil => exact fun _ _ => .inl
    | cons k' ks ih =>
      intro done k mem
      rcases ih _ k mem with mem | mem
      · rw [washStep] at mem
        split at mem
        · exact .inl (List.dropLast_subset _ mem)
        · split at mem
          · exact .inl mem
          · rcases List.mem_append.1 mem with mem | mem
            · exact .inl mem
            · exact .inr (List.mem_cons.2 (.inl (List.mem_singleton.1 mem)))
      · exact .inr (List.mem_cons_of_mem _ mem)
  exact fun k mem => (fold ks [] k mem).resolve_left (List.not_mem_nil)

end Wash

end Sparrow.Naming
