import Mathlib.Logic.Basic

/-!
# Naming graphs and ownership

Two patterns a file system is an instance of, over arbitrary types.

In a naming graph some nodes are live and some of these are directories, which hold
entries; an entry names a node. `Naming.Wf` says that entries name live nodes, that no node
has two names, and that every directory but the root is named by the directory above it.
Giving a name to a new node and taking the name of a node away with the node keep this.

Nodes own blocks, no block has two owners (`Apart`), and this is kept when nodes give
blocks back and get blocks nobody owned.
-/

namespace Sparrow
set_option autoImplicit false

/-- Live nodes, directories, the directory above each of them, and their entries. -/
structure Naming (ν ι : Type) where
  live : ν → Prop
  dir : ν → Prop
  up : ν → ν
  entry : ν → ι → Prop

namespace Naming

variable {ν ι : Type}

/-- Every name is the name of a live node and its only one. `target` is the node an entry
names, `isDir` what the entry says about it. -/
structure Wf (target : ι → ν) (isDir : ι → Prop) (root : ν) (g : Naming ν ι) : Prop where
  top : g.live root ∧ g.dir root ∧ g.up root = root
  named : ∀ m x, g.live m → g.dir m → g.entry m x →
    g.live (target x) ∧ target x ≠ root ∧ (isDir x ↔ g.dir (target x))
  once : ∀ m m' x y, g.live m → g.dir m → g.live m' → g.dir m' → g.entry m x → g.entry m' y → target x = target y →
    m = m' ∧ x = y
  holder : ∀ m, g.live m → g.dir m → m ≠ root →
    g.live (g.up m) ∧ g.dir (g.up m) ∧ ∃ x, g.entry (g.up m) x ∧ target x = m

/-- The directories found from the root by following entries. -/
inductive Reach (target : ι → ν) (isDir : ι → Prop) (root : ν) (g : Naming ν ι) : ν → Prop
  | top : Reach target isDir root g root
  | step {m : ν} {x : ι} (before : Reach target isDir root g m) (entry : g.entry m x) (is : isDir x) :
      Reach target isDir root g (target x)

variable {target : ι → ν} {isDir : ι → Prop} {root : ν} {g g' : Naming ν ι}

theorem Wf.reach (wf : Wf target isDir root g) {m : ν} (h : Reach target isDir root g m) : g.live m ∧ g.dir m := by
  induction h with
  | top => exact ⟨wf.top.1, wf.top.2.1⟩
  | step _ entry is ih =>
    obtain ⟨live, -, kind⟩ := wf.named _ _ ih.1 ih.2 entry
    exact ⟨live, kind.1 is⟩

/-- The directory above a directory is one. -/
theorem Wf.up (wf : Wf target isDir root g) {m : ν} (live : g.live m) (dir : g.dir m) : g.live (g.up m) ∧ g.dir (g.up m) := by
  by_cases e : m = root
  · rw [e, wf.top.2.2]
    exact ⟨wf.top.1, wf.top.2.1⟩
  · obtain ⟨live', dir', -⟩ := wf.holder m live dir e
    exact ⟨live', dir'⟩

/-- Nothing the graph says has changed. -/
theorem Wf.congr (wf : Wf target isDir root g) (live : ∀ m, g'.live m ↔ g.live m)
    (dir : ∀ m, g.live m → (g'.dir m ↔ g.dir m)) (up : ∀ m, g.live m → g.dir m → g'.up m = g.up m)
    (entry : ∀ m x, g.live m → g.dir m → (g'.entry m x ↔ g.entry m x)) : Wf target isDir root g' := by
  refine ⟨?_, fun m x lm dm e => ?_, fun m m' x y lm dm lm' dm' e e' => ?_, fun m lm dm ne => ?_⟩
  · obtain ⟨lr, dr, ur⟩ := wf.top
    exact ⟨(live _).2 lr, (dir _ lr).2 dr, (up _ lr dr).trans ur⟩
  · rw [live] at lm
    rw [dir m lm] at dm
    obtain ⟨lt, nr, kind⟩ := wf.named m x lm dm ((entry m x lm dm).1 e)
    exact ⟨(live _).2 lt, nr, kind.trans (dir _ lt).symm⟩
  · rw [live] at lm lm'
    rw [dir m lm] at dm
    rw [dir m' lm'] at dm'
    exact wf.once m m' x y lm dm lm' dm' ((entry m x lm dm).1 e) ((entry m' y lm' dm').1 e')
  · rw [live] at lm
    rw [dir m lm] at dm
    obtain ⟨lu, du, x, e, is⟩ := wf.holder m lm dm ne
    rw [up m lm dm]
    exact ⟨(live _).2 lu, (dir _ lu).2 du, x, (entry _ x lu du).2 e, is⟩

/-- A new node gets a name. -/
theorem Wf.insert (wf : Wf target isDir root g) {p f : ν} {x : ι} (is : target x = f) (lp : g.live p) (dp : g.dir p)
    (fresh : ¬ g.live f) (live : ∀ m, g'.live m ↔ g.live m ∨ m = f)
    (dir : ∀ m, g.live m → (g'.dir m ↔ g.dir m)) (dirNew : g'.dir f ↔ isDir x)
    (up : ∀ m, g.live m → g.dir m → g'.up m = g.up m) (upNew : g'.dir f → g'.up f = p)
    (entry : ∀ m y, g.live m → g.dir m → (g'.entry m y ↔ g.entry m y ∨ m = p ∧ y = x))
    (entryNew : g'.dir f → ∀ y, ¬ g'.entry f y) : Wf target isDir root g' := by
  have ne : ∀ {m}, g.live m → m ≠ f := fun lm e => fresh (e ▸ lm)
  have isOld : ∀ {m}, g'.live m → m ≠ f → g.live m := fun h hf => ((live _).1 h).resolve_right hf
  have noEntry : ∀ {m y}, g'.live m → g'.dir m → g'.entry m y → g.live m ∧ g.dir m := by
    intro m y lm dm e
    by_cases isNew : m = f
    · subst isNew
      exact absurd e (entryNew dm y)
    · have old := isOld lm isNew
      exact ⟨old, (dir m old).1 dm⟩
  refine ⟨?_, fun m y lm dm e => ?_, fun m m' y z lm dm lm' dm' e e' same => ?_, fun m lm dm nr => ?_⟩
  · obtain ⟨lr, dr, ur⟩ := wf.top
    exact ⟨(live _).2 (.inl lr), (dir _ lr).2 dr, (up _ lr dr).trans ur⟩
  · obtain ⟨lm, dm⟩ := noEntry lm dm e
    rcases (entry m y lm dm).1 e with old | ⟨-, rfl⟩
    · obtain ⟨lt, nr, kind⟩ := wf.named m y lm dm old
      exact ⟨(live _).2 (.inl lt), nr, kind.trans (dir _ lt).symm⟩
    · rw [is]
      exact ⟨(live _).2 (.inr rfl), fun e => ne wf.top.1 e.symm, dirNew.symm⟩
  · obtain ⟨lm, dm⟩ := noEntry lm dm e
    obtain ⟨lm', dm'⟩ := noEntry lm' dm' e'
    -- an old entry names a live node, the new one names `f`
    rcases (entry m y lm dm).1 e with old | ⟨rfl, rfl⟩ <;> rcases (entry m' z lm' dm').1 e' with old' | ⟨rfl, rfl⟩
    · exact wf.once m m' y z lm dm lm' dm' old old' same
    · exact absurd (same.trans is) (ne (wf.named m y lm dm old).1)
    · exact absurd (same.symm.trans is) (ne (wf.named m' z lm' dm' old').1)
    · exact ⟨rfl, rfl⟩
  · by_cases isNew : m = f
    · subst isNew
      rw [upNew dm]
      exact ⟨(live _).2 (.inl lp), (dir p lp).2 dp, x, (entry p x lp dp).2 (.inr ⟨rfl, rfl⟩), is⟩
    · have lm := isOld lm isNew
      have dm := (dir m lm).1 dm
      obtain ⟨lu, du, y, e, is'⟩ := wf.holder m lm dm nr
      rw [up m lm dm]
      exact ⟨(live _).2 (.inl lu), (dir _ lu).2 du, y, (entry _ y lu du).2 (.inl e), is'⟩

/-- A node without entries loses its name and is gone. -/
theorem Wf.remove (wf : Wf target isDir root g) {p f : ν} {x : ι} (is : target x = f) (lp : g.live p) (dp : g.dir p)
    (has : g.entry p x) (empty : g.dir f → ∀ y, ¬ g.entry f y) (live : ∀ m, g'.live m ↔ g.live m ∧ m ≠ f)
    (dir : ∀ m, g'.live m → (g'.dir m ↔ g.dir m)) (up : ∀ m, g'.live m → g.dir m → g'.up m = g.up m)
    (entry : ∀ m y, g'.live m → g.dir m → (g'.entry m y ↔ g.entry m y ∧ ¬ (m = p ∧ y = x))) : Wf target isDir root g' := by
  have notRoot : root ≠ f := by
    have := (wf.named p x lp dp has).2.1
    rw [is] at this
    exact fun e => this e.symm
  refine ⟨?_, fun m y lm dm e => ?_, fun m m' y z lm dm lm' dm' e e' same => ?_, fun m lm dm nr => ?_⟩
  · obtain ⟨lr, dr, ur⟩ := wf.top
    have lr' := (live root).2 ⟨lr, notRoot⟩
    exact ⟨lr', (dir _ lr').2 dr, (up _ lr' dr).trans ur⟩
  · have dm := (dir m lm).1 dm
    have lm₀ := ((live m).1 lm).1
    obtain ⟨e, other⟩ := (entry m y lm dm).1 e
    obtain ⟨lt, nr, kind⟩ := wf.named m y lm₀ dm e
    -- only `x` names `f`
    have lt' : g'.live (target y) := (live _).2 ⟨lt, fun isF => other (wf.once m p y x lm₀ dm lp dp e has (isF.trans is.symm))⟩
    exact ⟨lt', nr, kind.trans (dir _ lt').symm⟩
  · have dm := (dir m lm).1 dm
    have dm' := (dir m' lm').1 dm'
    exact wf.once m m' y z ((live m).1 lm).1 dm ((live m').1 lm').1 dm' ((entry m y lm dm).1 e).1
      ((entry m' z lm' dm').1 e').1 same
  · have dm := (dir m lm).1 dm
    obtain ⟨lm₀, notF⟩ := (live m).1 lm
    obtain ⟨lu, du, y, e, is'⟩ := wf.holder m lm₀ dm nr
    have upNotF : g.up m ≠ f := fun isF => empty (isF ▸ du) y (isF ▸ e)
    have lu' := (live _).2 ⟨lu, upNotF⟩
    rw [up m lm dm]
    refine ⟨lu', (dir _ lu').2 du, y, (entry _ y lu' du).2 ⟨e, ?_⟩, is'⟩
    rintro ⟨-, rfl⟩
    exact notF (is'.symm.trans is)

end Naming

/-- No block has two live owners. -/
def Apart {ν β : Type} (live : ν → Prop) (own : ν → β → Prop) : Prop :=
  ∀ m m' b, live m → live m' → own m b → own m' b → m = m'

/-- Every block a node has it had before, or nobody had it and nobody else has got it. -/
theorem Apart.step {ν β : Type} {live live' : ν → Prop} {own own' : ν → β → Prop} (h : Apart live own)
    (got : ν → β → Prop) (had : ∀ m b, live' m → own' m b → (live m ∧ own m b) ∨ got m b)
    (free : ∀ m b, got m b → ∀ m', live m' → ¬ own m' b) (one : ∀ m m' b, got m b → got m' b → m = m') :
    Apart live' own' := by
  intro m m' b lm lm' o o'
  rcases had m b lm o with ⟨l, o⟩ | isNew <;> rcases had m' b lm' o' with ⟨l', o'⟩ | isNew'
  · exact h m m' b l l' o o'
  · exact absurd o (free m' b isNew' m l)
  · exact absurd o' (free m b isNew m' l')
  · exact one m m' b isNew isNew'

end Sparrow
