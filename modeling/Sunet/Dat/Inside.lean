/-
# Queries that leave the arrays

A byte outside ASCII that does not begin a character of three bytes has the code 0, which is
also the code at the end of a word: a query with such a byte can step through a leaf, whose
`_base` is negative, and `_search` then reads at a negative index.  A code can also lead past
the end of the arrays.  The main result is `search_inside_iff`: it says exactly for which
queries `_search` stays inside the arrays that `_build` has filled.
-/
import Sunet.Dat.Exact

namespace Sunet
namespace Dat

open StringUtil

lemma cnCode_lt_of_isToken {t : Bytes} (h : IsToken t) : cnCode t < 65536 := by
  rcases h with ⟨b, rfl, hb, -⟩ | ⟨b, b₁, b₂, rfl, hb, h₁, h₂⟩
  · revert hb
    revert b
    decide +kernel
  · rw [cnCode_three hb h₁ h₂]
    rw [isLead_iff] at hb
    rw [isCont_iff] at h₁ h₂
    omega

namespace DatImpl

variable {α : Type}

/-- The value that the constructor of `DatImpl` gives `_size`. -/
abbrev initialSize : ℕ := 65536 * 32

/-- All indices that `_search` uses lie inside the arrays. -/
def SearchInside (d : DatImpl α) (key : Bytes) : Prop := d.search key ≠ .error .outOfBounds

/-- The codes `u` lead from the root to the children `sibs`, whose cells begin at `b`. -/
inductive Leads (d : DatImpl α) : List ℕ → ℕ → List TreeNode → Prop
  | root {n b : ℕ} {sibs : List TreeNode} : d.fetchSiblings d.root = .ok (n, sibs) →
      d.base 0 = b → Leads d [] b sibs
  | child {u : List ℕ} {b c n nb : ℕ} {sibs subs : List TreeNode} {s : TreeNode} :
      Leads d u b sibs → lastSib sibs c = some s → d.fetchSiblings s = .ok (n + 1, subs) →
      d.base (b + c) = nb → Leads d (u ++ [c]) nb subs

/-- The condition on a query, in terms of the codes of its characters. -/
structure QueryInside (d : DatImpl α) (key : Bytes) : Prop where
  /-- No code leads past the end of the arrays. -/
  room : ∀ u c v b sibs, codes key = u ++ c :: v → Leads d u b sibs → b + c < d.size
  /-- A node without children comes before the last character, and the next code is greater
  than the index of its first word. -/
  leaf : ∀ u c v b sibs s subs, codes key = u ++ c :: v → Leads d u b sibs →
    lastSib sibs c = some s → d.fetchSiblings s = .ok (0, subs) →
      ∃ c' v', v = c' :: v' ∧ s.left < c'

/-- The walk follows the codes that lead to a node. -/
lemma Leads.walk_eq {d : DatImpl α} {b₀ : ℕ} {sibs₀ : List TreeNode} {n₀ : ℕ}
    (hroot : d.fetchSiblings d.root = .ok (n₀, sibs₀)) (hbase : d.base 0 = b₀)
    (hbuilt : Built d.fetchSiblings d b₀ sibs₀) (ht : CellsInside d) {u : List ℕ} {b : ℕ}
    {sibs : List TreeNode} (h : Leads d u b sibs) :
    Built d.fetchSiblings d b sibs ∧ ∀ ts ts' : List Bytes, (∀ t ∈ ts, IsToken t) →
      ts.map cnCode = u → d.walk (ts ++ ts') b₀ = d.walk ts' b := by
  induction h with
  | root hfetch hb =>
    rw [hroot] at hfetch
    cases hfetch
    rw [hbase] at hb
    obtain rfl := Int.ofNat.inj hb
    refine ⟨hbuilt, fun ts ts' _ hnil => ?_⟩
    rw [List.map_eq_nil_iff.mp hnil, List.nil_append]
  | @child u b c n nb sibs subs s hlead hs hsubs hnb ih =>
    obtain ⟨hbuilt', hwalk⟩ := ih
    obtain ⟨nb', hnb', hbuilt''⟩ := hbuilt'.child hs hsubs
    rw [hnb] at hnb'
    obtain rfl := Int.ofNat.inj hnb'
    refine ⟨hbuilt'', fun ts ts' htok hcodes => ?_⟩
    obtain ⟨ts₁, ts₂, rfl, hcodes₁, hcodes₂⟩ := List.map_eq_append_iff.mp hcodes
    obtain ⟨w, rfl, hw⟩ := List.map_eq_singleton_iff.mp hcodes₂
    rw [List.append_assoc, hwalk ts₁ _ (fun t h => htok t (by simp [h])) hcodes₁,
      List.singleton_append]
    rw [← hw] at hs hnb
    rw [hbuilt'.walk_cons_some ht (htok w (by simp)) ts' hs, hnb]

/-- The walk from a node stays inside the arrays if the codes behind it do, by induction on the
characters that are left. -/
lemma walk_inside {d : DatImpl α} {key : Bytes} (ht : CellsInside d) (hcheck : ∀ i, 0 ≤ d.check i)
    (hsize : 65536 ≤ d.size) (hkey : QueryInside d key) :
    ∀ (ts : List Bytes) (u : List ℕ) (b : ℕ) (sibs : List TreeNode), (∀ t ∈ ts, IsToken t) →
      codes key = u ++ ts.map cnCode → Leads d u b sibs → Built d.fetchSiblings d b sibs →
      d.walk ts b ≠ .error .outOfBounds := by
  intro ts
  induction ts with
  | nil =>
    intro u b sibs _ _ _ hbuilt
    rw [walk_nil, if_pos (hbuilt.lt_size ht)]
    simp
  | cons w ts ih =>
    intro u b sibs htok hcodes hlead hbuilt
    have hw := htok w List.mem_cons_self
    rw [List.map_cons] at hcodes
    cases hlast : lastSib sibs (cnCode w) with
    | none =>
      rw [hbuilt.walk_cons_none hw ts hlast, if_pos (hkey.room _ _ _ _ _ hcodes hlead)]
      simp
    | some s =>
      rw [hbuilt.walk_cons_some ht hw ts hlast]
      obtain ⟨n, subs, hsubs⟩ := hbuilt.fetched hlast
      cases n with
      -- a leaf: its negative base is made up for by the next code
      | zero =>
        obtain ⟨c', v', hv, hlt⟩ := hkey.leaf _ _ _ _ _ _ _ hcodes hlead hlast hsubs
        cases ts with
        | nil => cases hv
        | cons w' ts =>
          have hw' := htok w' (by simp)
          have hc' : cnCode w' = c' := (List.cons.inj hv).1
          have hcode := cnCode_lt_of_isToken hw'
          rw [hbuilt.leaf hlast hsubs, walk_cons_of_neg d hcheck hw' ts (by omega),
            if_pos ⟨by omega, by omega⟩]
          simp
      | succ n =>
        obtain ⟨nb, hnb, hbuilt'⟩ := hbuilt.child hlast hsubs
        rw [hnb]
        refine ih (u ++ [cnCode w]) nb subs (fun t h => htok t (List.mem_cons_of_mem _ h)) ?_
          (Leads.child hlead hlast hsubs hnb) hbuilt'
        rw [hcodes, List.append_assoc, List.singleton_append]

/-- A split of the codes of a string is a split of its characters. -/
lemma tokens_of_codes_eq {key : Bytes} {u v : List ℕ} {c : ℕ} (h : codes key = u ++ c :: v) :
    ∃ ts w ts', tokens key = ts ++ w :: ts' ∧ ts.map cnCode = u ∧ cnCode w = c ∧
      ts'.map cnCode = v := by
  obtain ⟨ts, rest, heq, hu, hrest⟩ := List.map_eq_append_iff.mp h
  obtain ⟨w, ts', rfl, hw, hv⟩ := List.map_eq_cons_iff.mp hrest
  exact ⟨ts, w, ts', heq, hu, hw, hv⟩

/-- **Which queries leave the arrays.**  After a build without `resize` every index that
`_search` uses lies inside the arrays if and only if the query meets the condition. -/
theorem search_inside_iff {ws : List Bytes} {unset fuel : ℕ} {d : DatImpl α}
    (hbuild : build noResize fuel (dictionary initialSize unset ws) = .ok d) (q : Bytes) :
    SearchInside d q ↔ QueryInside d q := by
  have hload := loaded_dictionary (α := α) initialSize unset ws
  obtain ⟨n, sibs, b, hroot, hbase, hbuilt, hext⟩ := build_ok hload.fresh hbuild
  have ht := hload.fresh.cellsInside hext
  have hcheck : ∀ i, 0 ≤ d.check i := (hext.marked hload.fresh.marked).check_nonneg
  have hsize : d.size = initialSize := hext.size_eq
  have hroot' : d.fetchSiblings d.root = .ok (n, sibs) := by
    rw [hext.fetchSiblings_eq, root, hext.dicts_eq]
    exact hroot
  rw [← hext.fetchSiblings_eq] at hbuilt
  have hlt := hbuilt.lt_size ht
  have hsearch : d.search q = d.walk (tokens q) b := by
    rw [search_eq_walk, readBase, if_pos (by omega), Except.ok_bind, hbase]
  have htok := isToken_of_mem_tokens q
  rw [SearchInside, hsearch]
  constructor
  · intro hne
    -- the search goes on from the node that the codes before a character lead to
    have hwalk : ∀ {u c v b' sibs'}, codes q = u ++ c :: v → Leads d u b' sibs' →
        Built d.fetchSiblings d b' sibs' ∧ ∃ w ts', cnCode w = c ∧ ts'.map cnCode = v ∧
          (∀ t ∈ w :: ts', IsToken t) ∧ d.walk (w :: ts') b' ≠ .error .outOfBounds := by
      intro u c v b' sibs' hcodes hlead
      obtain ⟨ts, w, ts', heq, hu, hw, hv⟩ := tokens_of_codes_eq hcodes
      rw [heq] at htok hne
      obtain ⟨hbuilt', hstep⟩ := hlead.walk_eq hroot' hbase hbuilt ht
      rw [hstep ts (w :: ts') (fun t h => htok t (List.mem_append_left _ h)) hu] at hne
      exact ⟨hbuilt', w, ts', hw, hv, fun t h => htok t (List.mem_append_right _ h), hne⟩
    refine ⟨fun u c v b' sibs' hcodes hlead => ?_,
      fun u c v b' sibs' s subs hcodes hlead hlast hsubs => ?_⟩
    · obtain ⟨-, w, ts', rfl, -, htok', hne'⟩ := hwalk hcodes hlead
      by_contra hge
      rw [walk_cons d (htok' w List.mem_cons_self), if_neg hge] at hne'
      exact hne' rfl
    · obtain ⟨hbuilt', w, ts', rfl, rfl, htok', hne'⟩ := hwalk hcodes hlead
      rw [hbuilt'.walk_cons_some ht (htok' w List.mem_cons_self) ts' hlast,
        hbuilt'.leaf hlast hsubs] at hne'
      cases ts' with
      | nil =>
        rw [walk_nil_of_neg d (by omega)] at hne'
        exact absurd rfl hne'
      | cons w' ts' =>
        refine ⟨cnCode w', ts'.map cnCode, rfl, ?_⟩
        by_contra hge
        rw [walk_cons_of_neg d hcheck (htok' w' (by simp)) ts' (by omega),
          if_neg fun h => hge (by omega)] at hne'
        exact hne' rfl
  · intro hkey
    exact walk_inside ht hcheck (by rw [hsize]; decide) hkey (tokens q) [] b sibs htok rfl
      (Leads.root hroot' hbase) hbuilt

/-- The dictionary of the word "a" and the query "a". -/
theorem search_inside_iff_word :
    ∃ d : DatImpl ℕ, build noResize 200 (dictionary initialSize 0 [[0x61]]) = .ok d ∧
      (SearchInside d [0x61] ↔ QueryInside d [0x61]) := by
  have hrun : (build noResize 200 (dictionary initialSize 0 [[0x61]]) >>=
      fun d : DatImpl ℕ => d.search [0x61]) = .ok 0 := by
    decide
  obtain ⟨d, hbuild, -⟩ := Except.bind_eq_ok.mp hrun
  exact ⟨d, hbuild, search_inside_iff hbuild _⟩

/-- The dictionary of the word "a" and the query "a" with a stray continuation byte behind it:
the walk steps through the leaf and ends in the state -1. -/
theorem not_search_inside :
    ¬ ∀ (ws : List Bytes) (unset fuel : ℕ) (d : DatImpl ℕ), (∀ w ∈ ws, Utf8Word w) →
      build noResize fuel (dictionary initialSize unset ws) = .ok d → ∀ q, SearchInside d q := by
  intro h
  have hrun : (build noResize 200 (dictionary initialSize 0 [[0x61]]) >>=
      fun d : DatImpl ℕ => .ok (d.search [0x61, 0x80])) = .ok (.error .outOfBounds) := by
    decide
  obtain ⟨d, hbuild, hsearch⟩ := Except.bind_eq_ok.mp hrun
  have ha : Utf8Word [0x61] := .ascii (by decide) (by decide) .nil
  exact h [[0x61]] 0 200 d (by simp [ha]) hbuild [0x61, 0x80] (Except.ok.inj hsearch)

end DatImpl
end Dat
end Sunet
