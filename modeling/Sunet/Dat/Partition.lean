/-
# The ranges of the siblings

The nodes that `_fetch_siblings` makes from the root node on have ranges of words.  Over a
sorted dictionary the ranges of the children of a node follow each other without a gap and fill
the range of the node, each with the words that go on with its code; a node whose words have
ended has no children.
-/
import Sunet.Dat.Total

namespace Sunet
namespace Dat

/-- The ranges of the nodes follow each other from `lo` to `hi`, none of them empty. -/
def Tiles : ℕ → ℕ → List TreeNode → Prop
  | lo, hi, [] => lo = hi
  | lo, hi, s :: ss => s.left = lo ∧ s.left < s.right ∧ Tiles s.right hi ss

lemma Chain.tiles {key : ℕ → ℕ} {depth lo hi : ℕ} {xs : List TreeNode}
    (h : Chain key depth lo hi xs) : Tiles lo hi xs := by
  induction xs generalizing lo with
  | nil => exact h
  | cons s ss ih =>
    obtain ⟨-, hleft, hlt, -, hrest⟩ := h
    exact ⟨hleft, hleft ▸ hlt, ih hrest⟩

/-- The children of a node: ascending codes, and ranges that fill the range of the node, each
with the words that have the code of the child behind the depth of the node, 0 where a word
ends. -/
structure Partition (T : List (List ℕ)) (nd : TreeNode) (sibs : List TreeNode) : Prop where
  asc : (sibs.map TreeNode.code).Pairwise (· < ·)
  tiles : Tiles nd.left nd.right sibs
  mem_iff : ∀ s ∈ sibs, ∀ i, s.left ≤ i ∧ i < s.right ↔
    (nd.left ≤ i ∧ i < nd.right) ∧ key T nd.depth i = s.code

namespace DatImpl

variable {α : Type}

/-- The nodes that are reached from the root node of `_build` by taking the children that
`_fetch_siblings` puts into the vector. -/
inductive Descendant (d : DatImpl α) : TreeNode → Prop
  | root : Descendant d d.root
  | child {nd s : TreeNode} {n : ℕ} {sibs : List TreeNode} (h : Descendant d nd)
      (hfetch : d.fetchSiblings nd = .ok (n, sibs)) (hs : s ∈ sibs) : Descendant d s

/-- A node is the node of a prefix, or the leaf of a word, or the root of an empty dictionary. -/
lemma Descendant.cases {d : DatImpl α} (hT : Table d.table) {nd : TreeNode}
    (h : Descendant d nd) :
    (∃ p, IsNode d.table p nd) ∨ (∃ p, IsLeaf d.table p nd) ∨ nd.left = nd.right := by
  induction h with
  | root =>
    by_cases hne : d.dicts = []
    · refine Or.inr (Or.inr ?_)
      rw [DatImpl.root, hne]
      rfl
    · exact Or.inl ⟨[], isNode_root hne⟩
  | @child nd s n sibs _ hfetch hs ih =>
    rcases ih with ⟨p, hnode⟩ | ⟨p, hleaf⟩ | hempty
    · obtain ⟨sibs', hfetch', hch⟩ := fetchSiblings_node hT hnode
      rw [hfetch'] at hfetch
      cases hfetch
      by_cases hcode : s.code = 0
      · exact Or.inr (Or.inl ⟨p, hch.leaf s hs hcode⟩)
      · exact Or.inl ⟨_, hch.node s hs hcode⟩
    · rw [fetchSiblings_leaf hleaf] at hfetch
      cases hfetch
      cases hs
    · rw [fetchSiblings, hempty, Nat.sub_self] at hfetch
      cases hfetch
      cases hs

/-- **Sibling ranges partition the range of their parent.**  The words of a node all end before
its depth, and it has no siblings below it, or none of them does, and they are divided among its
children. -/
theorem fetchSiblings_partition {d : DatImpl α} (hT : Table d.table) {nd : TreeNode}
    (h : Descendant d nd) :
    ((∀ i, nd.left ≤ i → i < nd.right → (word d.table i).length < nd.depth) ∧
        d.fetchSiblings nd = .ok (0, [])) ∨
      (∀ i, nd.left ≤ i → i < nd.right → nd.depth ≤ (word d.table i).length) ∧
        ∃ sibs, d.fetchSiblings nd = .ok (sibs.length, sibs) ∧ Partition d.table nd sibs := by
  rcases h.cases hT with ⟨p, hnode⟩ | ⟨p, hleaf⟩ | hempty
  · obtain ⟨sibs, hfetch, hchain, hasc⟩ := fetchSiblings_chain hT hnode
    refine Or.inr ⟨fun i hi hi' => ?_, sibs, hfetch, hasc, hchain.tiles,
      fun s hs i => hchain.mem_node_iff hasc hs i⟩
    rw [hnode.depth_eq]
    exact ((hnode.mem_iff i).mp ⟨hi, hi'⟩).2.length_le
  · refine Or.inl ⟨fun i hi hi' => ?_, fetchSiblings_leaf hleaf⟩
    rw [((hleaf.mem_iff i).mp ⟨hi, hi'⟩).2, hleaf.depth_eq]
    exact Nat.lt_succ_self _
  · refine Or.inl ⟨fun i hi hi' => by omega, ?_⟩
    rw [fetchSiblings, hempty, Nat.sub_self]
    rfl

/-- The words `a`, `ab` and `b`. -/
abbrev threeWords : DatImpl ℤ := (new 16 0).addWords [bytes "a", bytes "ab", bytes "b"]

/-- The node of the words that start with `a`. -/
theorem fetchSiblings_partition_a :
    ((∀ i, 0 ≤ i → i < 2 → (word threeWords.table i).length < 1) ∧
        threeWords.fetchSiblings ⟨1, 0, 2, 97⟩ = .ok (0, [])) ∨
      (∀ i, 0 ≤ i → i < 2 → 1 ≤ (word threeWords.table i).length) ∧
        ∃ sibs, threeWords.fetchSiblings ⟨1, 0, 2, 97⟩ = .ok (sibs.length, sibs) ∧
          Partition threeWords.table ⟨1, 0, 2, 97⟩ sibs := by
  have htable : threeWords.table = [[97], [97, 98], [98]] := by decide
  have hT : Table threeWords.table := by
    rw [htable]
    exact ⟨by decide, by decide⟩
  have hfetch : threeWords.fetchSiblings threeWords.root =
      .ok (2, [⟨1, 0, 2, 97⟩, ⟨1, 2, 3, 98⟩]) := by rfl
  have hnode : Descendant threeWords ⟨1, 0, 2, 97⟩ := .child .root hfetch List.mem_cons_self
  exact fetchSiblings_partition hT hnode

end DatImpl
end Dat
end Sunet
