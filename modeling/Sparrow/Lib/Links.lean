import Mathlib.Data.List.Chain
import Mathlib.Data.List.Perm.Subperm

/-!
# Doubly linked lists in memory

A memory is a word for each address. A node of a list takes two words: the address of the
node before it and, four bytes on, the address of the node after it. `Linked m nodes` says
that the nodes, the two end nodes of the list included, are linked both ways in this order
and do not overlap.
-/

namespace Sparrow
set_option autoImplicit false

/-- The word at each address. -/
abbrev Mem := Nat → Nat

def store (m : Mem) (x v : Nat) : Mem := fun y => if y = x then v else m y

@[simp] theorem store_same (m : Mem) (x v : Nat) : store m x v x = v := if_pos rfl

theorem store_ne {x y : Nat} (ne : y ≠ x) (m : Mem) (v : Nat) : store m x v y = m y := if_neg ne

/-- The two words of one node lie beside the two words of the other. -/
def NodesApart (x y : Nat) : Prop := x + 8 ≤ y ∨ y + 8 ≤ x

theorem NodesApart.symm {x y : Nat} (h : NodesApart x y) : NodesApart y x := Or.symm h

/-- No word of one is a word of the other. -/
theorem NodesApart.words {x y : Nat} (h : NodesApart x y) : x ≠ y ∧ x + 4 ≠ y ∧ x ≠ y + 4 ∧ x + 4 ≠ y + 4 := by
  rcases h with h | h <;> omega

/-- `v` follows `u`. -/
def Follows (m : Mem) (u v : Nat) : Prop := m (u + 4) = v ∧ m v = u

structure Linked (m : Mem) (nodes : List Nat) : Prop where
  links : nodes.IsChain (Follows m)
  apart : nodes.Pairwise NodesApart

/-- The address is one of the two words of a node. -/
def OfNodes (nodes : List Nat) (x : Nat) : Prop := ∃ u ∈ nodes, x = u ∨ x = u + 4

section Nodes

variable {m m' : Mem} {nodes before after : List Nat} {p e n t u v x : Nat}

/-- Only the words of the nodes matter. -/
theorem Linked.congr (h : Linked m nodes) (same : ∀ x, OfNodes nodes x → m' x = m x) : Linked m' nodes := by
  refine ⟨h.links.imp_of_mem_imp fun a b ha hb link => ?_, h.apart⟩
  obtain ⟨next, prev⟩ := link
  exact ⟨by rw [same _ ⟨a, ha, .inr rfl⟩]; exact next, by rw [same _ ⟨b, hb, .inl rfl⟩]; exact prev⟩

/-- Taking a node out: its neighbours are linked to each other. -/
theorem Linked.unlink (h : Linked m (before ++ p :: e :: n :: after)) (next : m' (p + 4) = n) (prev : m' n = p)
    (rest : ∀ x, x ≠ p + 4 → x ≠ n → m' x = m x) : Linked m' (before ++ p :: n :: after) := by
  have apart : (before ++ p :: n :: after).Pairwise NodesApart := by
    refine h.apart.sublist (List.Sublist.append_left ?_ _)
    exact (List.sublist_cons_self _ _).cons_cons _
  have links := h.links
  rw [List.isChain_append_cons_cons, List.isChain_cons_cons] at links
  obtain ⟨front, pe, en, back⟩ := links
  have pairs := h.apart
  simp only [List.pairwise_append, List.pairwise_cons, List.mem_cons, forall_eq_or_imp] at pairs
  obtain ⟨-, ⟨⟨ape, apn, apB⟩, ⟨aen, aeB⟩, anB, -⟩, cross⟩ := pairs
  refine ⟨List.isChain_append_cons_cons.2 ⟨?_, ⟨next, prev⟩, ?_⟩, apart⟩
  · -- what lies before keeps its links, since `p` was followed by `e`
    refine front.imp_of_mem_imp fun a b ha hb link => ?_
    have far : ∀ x, x ∈ before ++ [p] → x ≠ e ∧ x ≠ n ∧ x + 4 ≠ n ∧ x ≠ p + 4 := by
      intro x hx
      rw [List.mem_append, List.mem_singleton] at hx
      obtain hx | rfl := hx
      · obtain ⟨xp, xe, xn, -⟩ := cross x hx
        exact ⟨xe.words.1, xn.words.1, xn.words.2.1, xp.words.2.2.1⟩
      · exact ⟨ape.words.1, apn.words.1, apn.words.2.1, by omega⟩
    have notP : a ≠ p := by
      rintro rfl
      exact (far b hb).1 (link.1.symm.trans pe.1)
    refine ⟨?_, ?_⟩
    · rw [rest _ (by omega) (far a ha).2.2.1]
      exact link.1
    · rw [rest _ (far b hb).2.2.2 (far b hb).2.1]
      exact link.2
  · -- what lies after keeps its links, since `n` was preceded by `e`
    refine back.imp_of_mem_imp fun a b ha hb link => ?_
    have far : ∀ x, x ∈ n :: after → x ≠ e ∧ x + 4 ≠ p + 4 ∧ x ≠ p + 4 ∧ x + 4 ≠ n := by
      intro x hx
      rw [List.mem_cons] at hx
      obtain rfl | hx := hx
      · exact ⟨aen.words.1.symm, apn.words.2.2.2.symm, apn.words.2.1.symm, by omega⟩
      · exact ⟨(aeB x hx).words.1.symm, (apB x hx).words.2.2.2.symm, (apB x hx).words.2.1.symm,
          (anB x hx).words.2.2.1.symm⟩
    have notN : b ≠ n := by
      rintro rfl
      exact (far a ha).1 (link.2.symm.trans en.2)
    refine ⟨?_, ?_⟩
    · rw [rest _ (far a ha).2.1 (far a ha).2.2.2]
      exact link.1
    · rw [rest _ (far b hb).2.2.1 notN]
      exact link.2

/-- Putting a node in between two neighbours. -/
theorem Linked.insert (h : Linked m (before ++ p :: t :: after)) (fresh : ∀ x, x ∈ before ++ p :: t :: after → NodesApart x e)
    (next : m' (p + 4) = e) (prev : m' e = p) (next' : m' (e + 4) = t) (prev' : m' t = e)
    (rest : ∀ x, x ≠ p + 4 → x ≠ e → x ≠ e + 4 → x ≠ t → m' x = m x) : Linked m' (before ++ p :: e :: t :: after) := by
  have links := h.links
  rw [List.isChain_append_cons_cons] at links
  obtain ⟨front, pt, back⟩ := links
  have pairs := h.apart
  simp only [List.pairwise_append, List.pairwise_cons, List.mem_cons, forall_eq_or_imp] at pairs
  obtain ⟨frontApart, ⟨⟨apt, apA⟩, atA, backApart⟩, cross⟩ := pairs
  have fp := fresh p (by simp)
  have ft := fresh t (by simp)
  have fA : ∀ x, x ∈ after → NodesApart e x := fun x hx => (fresh x (by simp [hx])).symm
  refine ⟨List.isChain_append_cons_cons.2 ⟨?_, ⟨next, prev⟩, List.isChain_cons_cons.2 ⟨⟨next', prev'⟩, ?_⟩⟩, ?_⟩
  · -- what lies before keeps its links, since `p` was followed by `t`
    refine front.imp_of_mem_imp fun a b ha hb link => ?_
    have far : ∀ x, x ∈ before ++ [p] → NodesApart x e ∧ NodesApart x t ∧ x ≠ p + 4 := by
      intro x hx
      rw [List.mem_append, List.mem_singleton] at hx
      obtain hx | rfl := hx
      · exact ⟨fresh x (by simp [hx]), (cross x hx).2.1, (cross x hx).1.words.2.2.1⟩
      · exact ⟨fp, apt, by omega⟩
    have notP : a ≠ p := by
      rintro rfl
      exact (far b hb).2.1.words.1 (link.1.symm.trans pt.1)
    obtain ⟨ae, at_, -⟩ := far a ha
    obtain ⟨be, bt, bp⟩ := far b hb
    refine ⟨?_, ?_⟩
    · rw [rest _ (by omega) ae.words.2.1 ae.words.2.2.2 at_.words.2.1]
      exact link.1
    · rw [rest _ bp be.words.1 be.words.2.2.1 bt.words.1]
      exact link.2
  · -- what lies after keeps its links, since `t` was preceded by `p`
    refine back.imp_of_mem_imp fun a b ha hb link => ?_
    have far : ∀ x, x ∈ t :: after → NodesApart x e ∧ NodesApart p x ∧ x + 4 ≠ t := by
      intro x hx
      rw [List.mem_cons] at hx
      obtain rfl | hx := hx
      · exact ⟨ft, apt, by omega⟩
      · exact ⟨(fA x hx).symm, apA x hx, (atA x hx).words.2.2.1.symm⟩
    have notT : b ≠ t := by
      rintro rfl
      exact (far a ha).2.1.words.1 (pt.2.symm.trans link.2)
    obtain ⟨ae, pa, at_⟩ := far a ha
    obtain ⟨be, pb, -⟩ := far b hb
    refine ⟨?_, ?_⟩
    · rw [rest _ pa.words.2.2.2.symm ae.words.2.1 ae.words.2.2.2 at_]
      exact link.1
    · rw [rest _ pb.words.2.1.symm be.words.1 be.words.2.2.1 notT]
      exact link.2
  · simp only [List.pairwise_append, List.pairwise_cons, List.mem_cons, forall_eq_or_imp]
    refine ⟨frontApart, ⟨⟨fp, apt, apA⟩, ⟨ft.symm, fA⟩, atA, backApart⟩, fun x hx => ?_⟩
    exact ⟨(cross x hx).1, fresh x (by simp [hx]), (cross x hx).2⟩

theorem Linked.tail (h : Linked m (u :: nodes)) : Linked m nodes :=
  ⟨h.links.tail, (List.pairwise_cons.1 h.apart).2⟩

/-- What follows a node before the last one `t`. -/
theorem Linked.next (h : Linked m (v :: nodes ++ [t])) : m (v + 4) = nodes.headD t ∧ v ≠ t := by
  refine ⟨?_, ((List.pairwise_cons.1 h.apart).1 t (by simp)).words.1⟩
  cases nodes with
  | nil => exact (List.isChain_cons_cons.1 h.links).1.1
  | cons w rest => exact (List.isChain_cons_cons.1 h.links).1.1

/-- Follow the links from `u` up to the last node `t` in search of `x`. -/
def reaches (m : Mem) (t x : Nat) : Nat → Nat → Option Bool
  | 0, _ => none
  | fuel + 1, u => if u = t then some false else if u = x then some true else reaches m t x fuel (m (u + 4))

/-- The search finds exactly the nodes before the last one. -/
theorem Linked.reaches_eq : ∀ {nodes : List Nat} {fuel : Nat}, Linked m (nodes ++ [t]) → nodes.length < fuel →
    reaches m t x fuel (nodes.headD t) = some (decide (x ∈ nodes)) := by
  intro nodes
  induction nodes with
  | nil =>
    intro fuel h enough
    obtain ⟨fuel, rfl⟩ := Nat.exists_eq_succ_of_ne_zero (Nat.ne_of_gt enough)
    simp [reaches]
  | cons v rest ih =>
    intro fuel h enough
    obtain ⟨fuel, rfl⟩ := Nat.exists_eq_succ_of_ne_zero (Nat.ne_of_gt (Nat.lt_of_le_of_lt (Nat.zero_le _) enough))
    obtain ⟨next, notEnd⟩ := h.next
    rw [List.length_cons] at enough
    simp only [reaches, List.headD_cons, if_neg notEnd, next, ih h.tail (Nat.lt_of_succ_lt_succ enough)]
    by_cases found : v = x
    · simp [found]
    · simp [found, Ne.symm found]

/-- Nodes that do not overlap are not more than fit into the memory they lie in. -/
theorem length_le_of_apart {size : Nat} (apart : nodes.Pairwise NodesApart) (inside : ∀ u ∈ nodes, u + 8 ≤ 8 * size) :
    nodes.length ≤ size := by
  have distinct : (nodes.map (· / 8)).Nodup := by
    rw [List.Nodup, List.pairwise_map]
    refine apart.imp fun {a b} far => ?_
    rcases far with far | far <;> omega
  have range : nodes.map (· / 8) ⊆ List.range size := by
    intro k mem
    obtain ⟨u, node, rfl⟩ := List.mem_map.1 mem
    have fits := inside u node
    exact List.mem_range.2 (by omega)
  have short := (List.subperm_of_subset distinct range).length_le
  rwa [List.length_map, List.length_range] at short

end Nodes

end Sparrow
