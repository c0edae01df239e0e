/-
# Exactness of the double array

The main result is `search_build`: on a sorted dictionary `_build` ends, on large enough
arrays it ends without a `resize` and without an access outside them, and `_search` then
returns the least index of the query and -1 for a query that is not in the dictionary.

The children of the prefixes form a tree of bounded depth, since a prefix of a word cannot
become longer than the word, and of bounded width, since siblings have different codes.
-/
import Sunet.Dat.Total

namespace Sunet
namespace Dat

open StringUtil

namespace DatImpl

variable {α : Type}

/-! ## The tree of a sorted dictionary -/

/-- The words with the prefix `p` have less than `D` further characters. -/
def Shallow (T : List (List ℕ)) (p : List ℕ) (D : ℕ) : Prop :=
  ∀ i < T.length, p <+: word T i → (word T i).length < p.length + D

lemma Shallow.step {T : List (List ℕ)} {p : List ℕ} {D : ℕ} (h : Shallow T p (D + 1)) (c : ℕ) :
    Shallow T (p ++ [c]) D := by
  intro i hi hp
  have := h i hi ((List.prefix_append p [c]).trans hp)
  simp
  omega

lemma Children.not_shallow_zero {T : List (List ℕ)} (hT : Table T) {p : List ℕ}
    {sibs : List TreeNode} (h : Children T p sibs) : ¬ Shallow T p 0 := by
  intro hD
  obtain ⟨s, hs⟩ := List.exists_mem_of_ne_nil sibs h.ne_nil
  obtain ⟨i, hi, hp, -⟩ := (h.follows_iff hT s.code).mpr ⟨s, hs, rfl⟩
  have h1 := hD i hi hp
  have h2 := hp.length_le
  omega

/-- All codes of the table are codes of characters. -/
def CodesLt (T : List (List ℕ)) : Prop := ∀ w ∈ T, ∀ c ∈ w, c < 65536

lemma Children.code_lt {T : List (List ℕ)} (hT : Table T) (hK : CodesLt T) {p : List ℕ}
    {sibs : List TreeNode} (h : Children T p sibs) : ∀ s ∈ sibs, s.code < 65536 := by
  intro s hs
  obtain ⟨i, hi, -, hk⟩ := (h.follows_iff hT s.code).mpr ⟨s, hs, rfl⟩
  rw [← hk, key, List.getD_eq_getElem?_getD]
  rcases hget : (word T i)[p.length]? with _ | c
  · simp
  · exact hK _ (word_mem hi) c (List.mem_of_getElem? hget)

lemma Children.length_le {T : List (List ℕ)} (hT : Table T) (hK : CodesLt T) {p : List ℕ}
    {sibs : List TreeNode} (h : Children T p sibs) : sibs.length ≤ 65536 := by
  have hnodup : (sibs.map TreeNode.code).Nodup := h.asc.imp fun hlt => ne_of_lt hlt
  have hsub : sibs.map TreeNode.code ⊆ List.range 65536 := by
    intro c hc
    obtain ⟨s, hs, rfl⟩ := List.mem_map.mp hc
    exact List.mem_range.mpr (Children.code_lt hT hK h s hs)
  have hle := (List.subperm_of_subset hnodup hsub).length_le
  simpa only [List.length_map, List.length_range] using hle

/-- The children of the prefixes form a tree, by induction on the characters that are left. -/
lemma Children.tame {d : DatImpl α} (hT : Table d.table) (hK : CodesLt d.table) :
    ∀ (D : ℕ) (p : List ℕ) (sibs : List TreeNode), Children d.table p sibs →
      Shallow d.table p D → Tame d.fetchSiblings 65536 D sibs := by
  intro D
  induction D with
  | zero =>
    intro p sibs hch hD
    exact absurd hD (Children.not_shallow_zero hT hch)
  | succ D ih =>
    intro p sibs hch hD
    have hchild : ∀ s ∈ sibs, ∃ subs, d.fetchSiblings s = .ok (subs.length, subs) ∧
        (subs ≠ [] → Tame d.fetchSiblings 65536 D subs) := by
      intro s hs
      by_cases hc : s.code = 0
      · exact ⟨[], fetchSiblings_leaf (hch.leaf s hs hc), fun hne => absurd rfl hne⟩
      · obtain ⟨subs, hsubs, hch'⟩ := fetchSiblings_node hT (hch.node s hs hc)
        exact ⟨subs, hsubs, fun _ => ih _ subs hch' (hD.step s.code)⟩
    refine Tame.mk D sibs hch.ne_nil (Children.length_le hT hK hch)
      (Children.code_lt hT hK hch) (fun s hs => ?_) fun s hs n subs hn => ?_
    · obtain ⟨subs, hsubs, -⟩ := hchild s hs
      exact ⟨_, hsubs⟩
    · obtain ⟨subs', hsubs, htame⟩ := hchild s hs
      rw [hsubs, Except.ok.injEq, Prod.mk.injEq] at hn
      obtain ⟨hlen, rfl⟩ := hn
      exact htame (List.ne_nil_of_length_eq_add_one hlen)

/-! ## The result -/

/-- The object with the words of a dictionary, before `_build`. -/
def dictionary (size unset : ℕ) (ws : List Bytes) : DatImpl α := (new size unset).addWords ws

/-- What `_search` is for: the least index of a word with the characters of the query, and -1
if there is none. -/
def firstIndex (ws : List Bytes) (q : Bytes) : ℤ :=
  if ∃ w ∈ ws, tokens w = tokens q then ws.findIdx fun w => tokens w == tokens q else -1

/-- The dictionaries of the result: words over ASCII and three-byte characters, sorted by the
codes that `get_cn_code` gives the characters of `split_ch_words`. -/
structure Sorted (ws : List Bytes) : Prop where
  utf8 : ∀ w ∈ ws, Utf8Word w
  sorted : (ws.map codes).Pairwise (· ≤ ·)

lemma codes_pos_of_utf8 {ws : List Bytes} (h : ∀ w ∈ ws, Utf8Word w) :
    ∀ c ∈ ws.map codes, ∀ x ∈ c, 0 < x := by
  intro c hc
  obtain ⟨w, hw, rfl⟩ := List.mem_map.mp hc
  exact (h w hw).codes_pos

lemma codesLt_of_utf8 {ws : List Bytes} (h : ∀ w ∈ ws, Utf8Word w) : CodesLt (ws.map codes) := by
  intro c hc x hx
  obtain ⟨w, hw, rfl⟩ := List.mem_map.mp hc
  obtain ⟨t, ht, rfl⟩ := List.mem_map.mp hx
  exact ((h w hw).tokens_char t ht).cnCode_lt

lemma Sorted.table {ws : List Bytes} (h : Sorted ws) : Table (ws.map codes) :=
  ⟨h.sorted, codes_pos_of_utf8 h.utf8⟩

lemma Sorted.codesLt {ws : List Bytes} (h : Sorted ws) : CodesLt (ws.map codes) :=
  codesLt_of_utf8 h.utf8

lemma idxOf_codes {ws : List Bytes} (hws : ∀ w ∈ ws, Utf8Word w) {q : Bytes}
    (hq : Utf8Word q) :
    (ws.map codes).idxOf (codes q) = ws.findIdx fun w => tokens w == tokens q := by
  induction ws with
  | nil => rfl
  | cons w ws ih =>
    have hw := (hws w (by simp)).tokens_eq_iff hq
    rw [List.map_cons, List.idxOf_cons, List.findIdx_cons,
      ih fun w' hw' => hws w' (by simp [hw'])]
    by_cases heq : tokens w = tokens q
    · have hcode := hw.mp heq
      simp only [heq, hcode, beq_self_eq_true, cond_true]
    · have hcode : codes w ≠ codes q := fun h => heq (hw.mpr h)
      simp only [beq_eq_false_iff_ne.mpr heq, beq_eq_false_iff_ne.mpr hcode, cond_false]

lemma firstIndex_eq {ws : List Bytes} (hws : ∀ w ∈ ws, Utf8Word w) {q : Bytes}
    (hq : Utf8Word q) :
    (if codes q ∈ ws.map codes then ((ws.map codes).idxOf (codes q) : ℤ) else -1) =
      firstIndex ws q := by
  have hmem : codes q ∈ ws.map codes ↔ ∃ w ∈ ws, tokens w = tokens q := by
    rw [List.mem_map]
    refine exists_congr fun w => and_congr_right fun hw => ?_
    exact ((hws w hw).tokens_eq_iff hq).symm
  rw [firstIndex, idxOf_codes hws hq]
  exact if_congr hmem rfl rfl

lemma shallow_of_sum {T : List (List ℕ)} : Shallow T [] ((T.map List.length).sum + 1) := by
  intro i hi _
  have hle := List.single_le_sum (l := T.map List.length) (fun _ _ => Nat.zero_le _) _
    (List.mem_map_of_mem (word_mem hi))
  rw [List.length_nil]
  omega

/-- An object that has been loaded with the words of a dictionary. -/
structure Loaded (ws : List Bytes) (d : DatImpl α) : Prop where
  fresh : Fresh d
  dicts_eq : d.dicts = ws.map CnString.new

lemma loaded_dictionary (size unset : ℕ) (ws : List Bytes) :
    Loaded ws (dictionary (α := α) size unset ws) :=
  ⟨⟨fun _ => rfl, fun _ => rfl, rfl⟩, rfl⟩

lemma Loaded.table_eq {ws : List Bytes} {d : DatImpl α} (h : Loaded ws d) :
    d.table = ws.map codes := by
  simp [table, h.dicts_eq, codes, Function.comp_def]

/-- The siblings that `_build` starts from are the children of the empty prefix. -/
lemma Loaded.fetch_root {ws : List Bytes} {d : DatImpl α} (h : Loaded ws d) (hne : ws ≠ [])
    (hws : Sorted ws) : ∃ sibs, d.fetchSiblings d.root = .ok (sibs.length, sibs) ∧
      Children d.table [] sibs ∧
      Tame d.fetchSiblings 65536 (((ws.map codes).map List.length).sum + 1) sibs := by
  have htab := h.table_eq
  have hT : Table d.table := by
    rw [htab]
    exact hws.table
  have hdicts : d.dicts ≠ [] := by simpa [h.dicts_eq] using hne
  obtain ⟨sibs, hfetch, hch⟩ := fetchSiblings_node hT (isNode_root hdicts)
  refine ⟨sibs, hfetch, hch, Children.tame hT ?_ _ [] sibs hch ?_⟩
  · rw [htab]
    exact hws.codesLt
  · rw [htab]
    exact shallow_of_sum

/-- From some size on a loaded dictionary is built inside the arrays. -/
lemma Loaded.build_total (α : Type) {ws : List Bytes} (hne : ws ≠ []) (hws : Sorted ws)
    (unset : ℕ) : ∃ N, ∀ (d : DatImpl α) (fuel : ℕ), Loaded ws d → d.unset = unset →
      N ≤ d.size → N ≤ fuel → ∃ t, build noResize fuel d = .ok t ∧ Roomy t := by
  set d₀ : DatImpl α := dictionary 0 unset ws with hd₀
  obtain ⟨N, hN⟩ := DatImpl.build_total α d₀.fetchSiblings 65536
    (((ws.map codes).map List.length).sum + 1)
  refine ⟨N, fun d fuel hd hunset hsize hfuel => ?_⟩
  have hfetch : d.fetchSiblings = d₀.fetchSiblings :=
    fetchSiblings_congr (by rw [hd.dicts_eq, (loaded_dictionary 0 unset ws).dicts_eq]) hunset
  obtain ⟨sibs, hroot, -, htame⟩ := hd.fetch_root hne hws
  rw [hfetch] at htame
  exact hN d fuel sibs.length sibs hd.fresh hfetch hroot htame hsize hfuel

/-- What a query answers after the build, unless it leaves the arrays. -/
lemma Loaded.search_eq {ws : List Bytes} {d t : DatImpl α} (h : Loaded ws d) (hne : ws ≠ [])
    (hws : Sorted ws) {fuel : ℕ} (hbuild : build noResize fuel d = .ok t) {q : Bytes}
    (hq : Utf8Word q) :
    t.search q = .error .outOfBounds ∧ ¬ Roomy t ∨ t.search q = .ok (firstIndex ws q) := by
  have htab := h.table_eq
  have hT : Table d.table := by
    rw [htab]
    exact hws.table
  obtain ⟨sibs, hroot, hch, -⟩ := h.fetch_root hne hws
  obtain ⟨n, sibs', b, hroot', hbase, hbuilt, -⟩ := build_ok h.fresh hbuild
  rw [hroot] at hroot'
  cases hroot'
  have hrep := hbuilt.rep hT hch
  rw [htab] at hrep
  rw [← firstIndex_eq hws.utf8 hq]
  exact search_rep hws.table (by simpa using hne) hrep hbase hq

/-- **The double array is exact.**  For a non-empty sorted dictionary there is a size of the
arrays from which on `_build` ends without leaving them, and then every query is answered
with the least index of its characters.  On arrays of any size `_build` ends, and if it ends
without a `resize` and inside the arrays, so is every query that stays inside them. -/
theorem search_build (unset : ℕ) (ws : List Bytes) (hne : ws ≠ []) (hws : Sorted ws) :
    (∃ N, ∀ size fuel, N ≤ size → N ≤ fuel →
      ∃ d, build noResize fuel (dictionary (α := α) size unset ws) = .ok d ∧
        ∀ q, Utf8Word q → d.search q = .ok (firstIndex ws q)) ∧
    ∀ size,
      (∃ N, ∀ fuel, N ≤ fuel →
        build noResize fuel (dictionary (α := α) size unset ws) ≠ .error .fuel) ∧
      ∀ (fuel : ℕ) (d : DatImpl α), build noResize fuel (dictionary size unset ws) = .ok d →
        ∀ (q : Bytes) (r : ℤ), Utf8Word q → d.search q = .ok r → r = firstIndex ws q := by
  refine ⟨?_, fun size => ⟨?_, ?_⟩⟩
  · obtain ⟨N, hN⟩ := Loaded.build_total α hne hws unset
    refine ⟨N, fun size fuel hsize hfuel => ?_⟩
    have hload := loaded_dictionary (α := α) size unset ws
    obtain ⟨d, hbuild, hroomy⟩ := hN _ fuel hload rfl hsize hfuel
    refine ⟨d, hbuild, fun q hq => ?_⟩
    rcases hload.search_eq hne hws hbuild hq with ⟨-, hsmall⟩ | hsearch
    · exact absurd hroomy hsmall
    · exact hsearch
  · have hload := loaded_dictionary (α := α) size unset ws
    obtain ⟨sibs, hroot, -, htame⟩ := hload.fetch_root hne hws
    refine ⟨size + 1 + (((ws.map codes).map List.length).sum + 1), fun fuel hfuel => ?_⟩
    exact build_ne_fuel hload.fresh hroot htame (by omega) (by change size < fuel; omega)
  · intro fuel d hok q r hq hr
    rcases (loaded_dictionary size unset ws).search_eq hne hws hok hq with ⟨herr, -⟩ | hsearch
    · rw [herr] at hr
      cases hr
    · rw [hsearch] at hr
      exact (Except.ok.inj hr).symm

theorem search_build_pair :
    ∃ (size fuel : ℕ) (d : DatImpl ℕ),
      build noResize fuel (dictionary size 0 [[0x61], [0x61, 0x62], [0xe6, 0xb1, 0x89]]) = .ok d ∧
        d.search [0x61, 0x62] = .ok 1 ∧ d.search [0x62] = .ok (-1) := by
  have ha : Utf8Word [0x61] := .ascii (by decide) (by decide) .nil
  have hb : Utf8Word [0x62] := .ascii (by decide) (by decide) .nil
  have hab : Utf8Word [0x61, 0x62] := .ascii (by decide) (by decide) hb
  have hhan : Utf8Word [0xe6, 0xb1, 0x89] :=
    .three (by decide) (by decide) (by decide) (by decide) .nil
  have hws : Sorted [[0x61], [0x61, 0x62], [0xe6, 0xb1, 0x89]] := by
    refine ⟨?_, by decide⟩
    simp [ha, hab, hhan]
  obtain ⟨⟨N, hN⟩, -⟩ := search_build (α := ℕ) 0 _ (by decide) hws
  obtain ⟨d, hbuild, hsearch⟩ := hN N N le_rfl le_rfl
  refine ⟨N, N, d, hbuild, ?_, ?_⟩
  · rw [hsearch _ hab]
    decide
  · rw [hsearch _ hb]
    decide

end DatImpl
end Dat
end Sunet
