/-
# The suggestion trie of `trie.h`

The nodes of `Trie` carry a `std::map` of children, here a list of entries in the order of
their keys.  What a trie stores is the partial function `entry` from token sequences to
values; an insertion changes it at one place, and the depth-first walk lists it in the byte
order of the concatenated tokens, because the tokens form a prefix code.
-/
import Sunet.Dat.Code
import Sunet.Lib.SortedMap

namespace Sunet
namespace Dat

open StringUtil

/-- `trie_node`. -/
inductive TrieNode (α : Type)
  | node (val : Bytes) (status : ℤ) (tval : α) (children : List (Bytes × TrieNode α))

namespace TrieNode

variable {α : Type}

/-- `_val`. -/
def val : TrieNode α → Bytes
  | node v _ _ _ => v

/-- `_status`. -/
def status : TrieNode α → ℤ
  | node _ s _ _ => s

/-- `tval`. -/
def tval : TrieNode α → α
  | node _ _ t _ => t

/-- `_child_nodes_map`. -/
def children : TrieNode α → List (Bytes × TrieNode α)
  | node _ _ _ ch => ch

/-- A node as `insert` makes it: `tval` is left as it is found in memory. -/
def fresh (unset : α) (word : Bytes) : TrieNode α := node word 0 unset []

/-- The constructor of `Trie`, which sets neither `_status` nor `tval`. -/
def root (status : ℤ) (unset : α) : TrieNode α := node [] status unset []

/-- The loop of `insert` over the tokens that are left, and the marking behind it. -/
def insertLoop (unset : α) : TrieNode α → List Bytes → α → TrieNode α
  | node v _ _ ch, [], val => node v 1 val ch
  | node v s t ch, w :: ws, val =>
    let child := (SortedMap.find w ch).getD (fresh unset w)
    node v s t (SortedMap.set w (insertLoop unset child ws val) ch)

/-- `insert`. -/
def insert (unset : α) (root : TrieNode α) (str : CnString) (val : α) : TrieNode α :=
  if str.length = 0 then root else insertLoop unset root str.words val

/-- `extract_search`. -/
def extractSearch : TrieNode α → List Bytes → Option (TrieNode α)
  | t, [] => some t
  | t, w :: ws =>
    match SortedMap.find w t.children with
    | none => none
    | some child => extractSearch child ws

mutual

/-- `dfs_search`: the pairs that are appended. -/
def dfsSearch : TrieNode α → Bytes → List (Bytes × α)
  | node _ s t ch, beginStr => (if s = 1 then [(beginStr, t)] else []) ++ dfsChildren ch beginStr

/-- The loop of `dfs_search` over the children. -/
def dfsChildren : List (Bytes × TrieNode α) → Bytes → List (Bytes × α)
  | [], _ => []
  | (w, t) :: rest, beginStr => dfsSearch t (beginStr ++ w) ++ dfsChildren rest beginStr

end

/-- `search`: the results after the call. -/
def search (root : TrieNode α) (str : CnString) (searchResults : List (Bytes × α)) :
    List (Bytes × α) :=
  match extractSearch root str.words with
  | none => searchResults
  | some target => searchResults ++ dfsSearch target str.string

/-! ## What a trie stores -/

/-- The value stored for a token sequence. -/
def entry (t : TrieNode α) (ws : List Bytes) : Option α :=
  (extractSearch t ws).bind fun n => if n.status = 1 then some n.tval else none

lemma entry_nil (t : TrieNode α) :
    t.entry [] = if t.status = 1 then some t.tval else none := by
  simp [entry, extractSearch]

lemma entry_cons (t : TrieNode α) (w : Bytes) (ws : List Bytes) :
    t.entry (w :: ws) = (SortedMap.find w t.children).bind fun child => child.entry ws := by
  rw [entry, extractSearch]
  cases SortedMap.find w t.children with
  | none => rfl
  | some child => rfl

lemma entry_fresh (unset : α) (w : Bytes) (ws : List Bytes) : (fresh unset w).entry ws = none := by
  cases ws with
  | nil => simp [entry_nil, fresh, status]
  | cons w' ws => simp [entry_cons, fresh, children]

lemma entry_append (t : TrieNode α) (ws ws' : List Bytes) :
    t.entry (ws ++ ws') = (extractSearch t ws).bind fun n => n.entry ws' := by
  induction ws generalizing t with
  | nil => rfl
  | cons w ws ih =>
    rw [List.cons_append, entry_cons, extractSearch]
    cases SortedMap.find w t.children with
    | none => rfl
    | some child => exact ih child

/-- An insertion changes the entry of its token sequence and no other. -/
lemma entry_insertLoop (unset val : α) (ws : List Bytes) (t : TrieNode α) (ws' : List Bytes) :
    (insertLoop unset t ws val).entry ws' = if ws' = ws then some val else t.entry ws' := by
  induction ws generalizing t ws' with
  | nil =>
    obtain ⟨v, s, tv, ch⟩ := t
    cases ws' with
    | nil => simp [insertLoop, entry_nil, status, tval]
    | cons w' ws' => simp [insertLoop, entry_cons, children]
  | cons w ws ih =>
    obtain ⟨v, s, tv, ch⟩ := t
    rw [insertLoop]
    cases ws' with
    | nil =>
      rw [if_neg (by simp), entry_nil, entry_nil]
      rfl
    | cons w' ws' =>
      rw [entry_cons, entry_cons]
      show (SortedMap.find w' (SortedMap.set w _ ch)).bind _ = _
      by_cases hw : w' = w
      · subst hw
        rw [SortedMap.find_set_self, Option.bind_some, ih]
        by_cases hws : ws' = ws
        · rw [if_pos hws, if_pos (by rw [hws])]
        · rw [if_neg hws, if_neg (by simpa using hws)]
          show _ = (SortedMap.find w' ch).bind _
          cases SortedMap.find w' ch with
          | none => exact entry_fresh unset w' ws'
          | some child => rfl
      · have hne : w' :: ws' ≠ w :: ws := fun h => hw (List.cons.inj h).1
        rw [SortedMap.find_set_of_ne hw, if_neg hne]
        rfl

lemma entry_insert (unset val : α) (t : TrieNode α) (str : CnString) (ws : List Bytes) :
    (insert unset t str val).entry ws =
      if ws = str.words ∧ ws ≠ [] then some val else t.entry ws := by
  rw [insert, CnString.length]
  by_cases hlen : str.words.length = 0
  · have hnil : str.words = [] := List.length_eq_zero_iff.mp hlen
    rw [if_pos hlen, if_neg]
    rintro ⟨h, hne⟩
    exact hne (h.trans hnil)
  · rw [if_neg hlen, entry_insertLoop]
    have hne : str.words ≠ [] := fun h => hlen (by rw [h]; rfl)
    refine if_congr ⟨fun h => ⟨h, by rw [h]; exact hne⟩, fun h => h.1⟩ rfl rfl

/-! ## Well-formed tries -/

/-- The children of every node are sorted, and their keys are tokens. -/
inductive Ordered : TrieNode α → Prop
  | mk {v : Bytes} {s : ℤ} {tv : α} {ch : List (Bytes × TrieNode α)}
      (sorted : SortedMap.Sorted ch) (token : ∀ w t, (w, t) ∈ ch → IsToken w)
      (sub : ∀ w t, (w, t) ∈ ch → Ordered t) : Ordered (node v s tv ch)

lemma ordered_fresh (unset : α) (w : Bytes) : Ordered (fresh unset w) :=
  .mk (by simp [SortedMap.Sorted]) (fun _ _ h => by cases h) (fun _ _ h => by cases h)

lemma Ordered.insertLoop {unset val : α} {ws : List Bytes} (hws : ∀ w ∈ ws, IsToken w)
    {t : TrieNode α} (h : Ordered t) : Ordered (TrieNode.insertLoop unset t ws val) := by
  induction ws generalizing t with
  | nil =>
    obtain ⟨hsorted, htoken, hsub⟩ := h
    exact .mk hsorted htoken hsub
  | cons w ws ih =>
    obtain ⟨hsorted, htoken, hsub⟩ := h
    next v s tv ch =>
    have hchild : Ordered ((SortedMap.find w ch).getD (fresh unset w)) := by
      cases hfind : SortedMap.find w ch with
      | none => exact ordered_fresh unset w
      | some child => exact hsub w child (hsorted.mem_iff_find.mpr hfind)
    have hnew := ih (fun x hx => hws x (by simp [hx])) hchild
    refine .mk (hsorted.set _ _) ?_ ?_
    · intro w' t' hmem
      rcases SortedMap.mem_set hmem with ⟨rfl, -⟩ | hmem
      · exact hws w' (by simp)
      · exact htoken w' t' hmem
    · intro w' t' hmem
      rcases SortedMap.mem_set hmem with ⟨-, rfl⟩ | hmem
      · exact hnew
      · exact hsub w' t' hmem

lemma Ordered.insert {unset val : α} {t : TrieNode α} (h : Ordered t) (str : CnString) :
    Ordered (TrieNode.insert unset t str val) := by
  rw [TrieNode.insert]
  split
  · exact h
  · refine h.insertLoop fun w hw => ?_
    rw [str.words_eq] at hw
    exact isToken_of_mem_tokens _ _ hw

lemma Ordered.extractSearch {ws : List Bytes} {t t' : TrieNode α} (h : Ordered t)
    (ht : t.extractSearch ws = some t') : Ordered t' := by
  induction ws generalizing t with
  | nil =>
    cases ht
    exact h
  | cons w ws ih =>
    obtain ⟨hsorted, htoken, hsub⟩ := h
    rw [TrieNode.extractSearch] at ht
    split at ht
    · cases ht
    · next child hfind => exact ih (hsub w child (hsorted.mem_iff_find.mpr hfind)) ht

/-! ## The walk -/

mutual

/-- The token sequences below a node with their values, in the order of the walk. -/
def sequences : TrieNode α → List (List Bytes × α)
  | node _ s t ch => (if s = 1 then [([], t)] else []) ++ sequencesChildren ch

/-- The token sequences that start with a child. -/
def sequencesChildren : List (Bytes × TrieNode α) → List (List Bytes × α)
  | [] => []
  | (w, t) :: rest => (sequences t).map (fun e => (w :: e.1, e.2)) ++ sequencesChildren rest

end

mutual

theorem dfsSearch_eq : ∀ (t : TrieNode α) (b : Bytes),
    dfsSearch t b = (sequences t).map fun e => (b ++ e.1.flatten, e.2)
  | node v s tv ch, b => by
    rw [dfsSearch, sequences, List.map_append, dfsChildren_eq ch b]
    split <;> simp

theorem dfsChildren_eq : ∀ (ch : List (Bytes × TrieNode α)) (b : Bytes),
    dfsChildren ch b = (sequencesChildren ch).map fun e => (b ++ e.1.flatten, e.2)
  | [], b => rfl
  | (w, t) :: rest, b => by
    rw [dfsChildren, sequencesChildren, List.map_append, dfsSearch_eq t (b ++ w),
      dfsChildren_eq rest b, List.map_map]
    simp [Function.comp_def]

end

lemma mem_sequencesChildren {ch : List (Bytes × TrieNode α)} {ws : List Bytes} {v : α} :
    (ws, v) ∈ sequencesChildren ch ↔
      ∃ w t ws', (w, t) ∈ ch ∧ ws = w :: ws' ∧ (ws', v) ∈ sequences t := by
  induction ch with
  | nil => simp [sequencesChildren]
  | cons e rest ih =>
    obtain ⟨w, t⟩ := e
    rw [sequencesChildren, List.mem_append, List.mem_map, ih]
    constructor
    · rintro (⟨⟨ws', v'⟩, hmem, heq⟩ | ⟨w', t', ws', hmem, rfl, hseq⟩)
      · obtain ⟨rfl, rfl⟩ := Prod.mk.inj heq
        exact ⟨w, t, ws', by simp, rfl, hmem⟩
      · exact ⟨w', t', ws', by simp [hmem], rfl, hseq⟩
    · rintro ⟨w', t', ws', hmem, rfl, hseq⟩
      rcases List.mem_cons.mp hmem with heq | hmem
      · obtain ⟨rfl, rfl⟩ := Prod.mk.inj heq
        exact Or.inl ⟨(ws', v), hseq, rfl⟩
      · exact Or.inr ⟨w', t', ws', hmem, rfl, hseq⟩

/-- The walk lists the entries. -/
lemma Ordered.mem_sequences {t : TrieNode α} (h : Ordered t) {ws : List Bytes} {v : α} :
    (ws, v) ∈ sequences t ↔ t.entry ws = some v := by
  induction ws generalizing t with
  | nil =>
    obtain ⟨b, s, tv, ch⟩ := t
    have hchildren : ([], v) ∉ sequencesChildren ch := by
      rw [mem_sequencesChildren]
      rintro ⟨w, t, ws', -, heq, -⟩
      cases heq
    rw [sequences, List.mem_append, entry_nil]
    show _ ∨ _ ↔ (if s = 1 then some tv else none) = some v
    by_cases hs : s = 1
    · simp [hs, hchildren, eq_comm]
    · simp [hs, hchildren]
  | cons w ws ih =>
    obtain ⟨hsorted, htoken, hsub⟩ := h
    next b s tv ch =>
    have hown : (w :: ws, v) ∉ (if s = 1 then [(([] : List Bytes), tv)] else []) := by
      split <;> simp
    rw [sequences, List.mem_append, entry_cons, Option.bind_eq_some_iff, mem_sequencesChildren]
    show _ ↔ ∃ child, SortedMap.find w ch = some child ∧ _
    constructor
    · rintro (hmem | ⟨w', t', ws', hmem, heq, hseq⟩)
      · exact absurd hmem hown
      · obtain ⟨rfl, rfl⟩ := List.cons.inj heq
        exact ⟨t', hsorted.mem_iff_find.mp hmem, (ih (hsub w t' hmem)).mp hseq⟩
    · rintro ⟨child, hfind, hentry⟩
      have hmem := hsorted.mem_iff_find.mpr hfind
      exact Or.inr ⟨w, child, ws, hmem, rfl, (ih (hsub w child hmem)).mpr hentry⟩

/-- The strings below different children keep the order of their first tokens, since no token
is the beginning of another one. -/
lemma pairwise_sequencesChildren {ch : List (Bytes × TrieNode α)}
    (hsorted : SortedMap.Sorted ch) (htoken : ∀ w t, (w, t) ∈ ch → IsToken w)
    (hsub : ∀ w t, (w, t) ∈ ch → ((sequences t).map fun e => e.1.flatten).Pairwise (· < ·)) :
    ((sequencesChildren ch).map fun e => e.1.flatten).Pairwise (· < ·) := by
  induction ch with
  | nil => simp [sequencesChildren]
  | cons e rest ih =>
    obtain ⟨w, t⟩ := e
    rw [SortedMap.Sorted, List.map_cons, List.pairwise_cons] at hsorted
    obtain ⟨hhead, htail⟩ := hsorted
    have hrest := ih htail (fun w' t' hmem => htoken w' t' (by simp [hmem]))
      (fun w' t' hmem => hsub w' t' (by simp [hmem]))
    rw [sequencesChildren, List.map_append, List.pairwise_append]
    refine ⟨?_, hrest, ?_⟩
    · have hown := hsub w t (by simp)
      rw [List.pairwise_map] at hown
      rw [List.map_map, List.pairwise_map]
      refine hown.imp fun hlt => ?_
      show (w :: _).flatten < (w :: _).flatten
      rw [List.flatten_cons, List.flatten_cons]
      exact List.append_left_lt hlt
    · intro x hx y hy
      simp only [List.mem_map] at hx hy
      obtain ⟨-, ⟨e, -, rfl⟩, rfl⟩ := hx
      obtain ⟨⟨ws, v⟩, hmem, rfl⟩ := hy
      obtain ⟨w', t', ws', hmem', rfl, -⟩ := mem_sequencesChildren.mp hmem
      have hlt : w < w' := hhead w' (List.mem_map_of_mem hmem')
      show (w :: e.1).flatten < (w' :: ws').flatten
      rw [List.flatten_cons, List.flatten_cons]
      exact isPrefixCode_isToken.append_lt_append (htoken w t (by simp))
        (htoken w' t' (by simp [hmem'])) hlt _ _

/-- The walk goes through the strings in byte order. -/
lemma Ordered.pairwise_sequences {t : TrieNode α} (h : Ordered t) :
    ((sequences t).map fun e => e.1.flatten).Pairwise (· < ·) := by
  induction h with
  | mk hsorted htoken hsub ih =>
    next b s tv ch =>
    have hchildren := pairwise_sequencesChildren hsorted htoken ih
    rw [sequences, List.map_append, List.pairwise_append]
    refine ⟨by split <;> simp, hchildren, ?_⟩
    intro x hx y hy
    have hx : x = [] := by
      split at hx
      · simpa using hx
      · simp at hx
    obtain ⟨⟨ws, v⟩, hmem, rfl⟩ := List.mem_map.mp hy
    obtain ⟨w, t, ws', hmem', rfl, -⟩ := mem_sequencesChildren.mp hmem
    show x < (w :: ws').flatten
    rw [hx, List.flatten_cons]
    exact PrefixCode.lt_append [] (by simp [(htoken w t hmem').ne_nil])

/-! ## A trie after insertions -/

/-- What fresh nodes contain where nothing is set: `_status` and `tval` of the root, and
`tval` of the others. -/
structure Memory (α : Type) where
  rootStatus : ℤ
  rootVal : α
  nodeVal : α

/-- The constructor of `Trie`. -/
def new (m : Memory α) : TrieNode α := root m.rootStatus m.rootVal

/-- A new trie into which words are inserted one after the other. -/
def insertedOn (m : Memory α) (ins : List (Bytes × α)) : TrieNode α :=
  ins.foldl (fun root wv => insert m.nodeVal root (CnString.new wv.1) wv.2) (new m)

/-- An empty trie into which words are inserted one after the other. -/
def inserted (unset : α) (ins : List (Bytes × α)) : TrieNode α :=
  ins.foldl (fun root wv => insert unset root (CnString.new wv.1) wv.2) (root 0 unset)

/-- The value of the last insertion of a word with these tokens. -/
def lastInserted (ins : List (Bytes × α)) (ws : List Bytes) : Option α :=
  ((ins.filter fun wv => tokens wv.1 = ws).getLast?).map Prod.snd

lemma lastInserted_concat (ins : List (Bytes × α)) (wv : Bytes × α) (ws : List Bytes) :
    lastInserted (ins ++ [wv]) ws =
      if ws = tokens wv.1 then some wv.2 else lastInserted ins ws := by
  rw [lastInserted, List.filter_append]
  by_cases hws : ws = tokens wv.1
  · simp [hws]
  · simp [hws, eq_comm, lastInserted]

lemma exists_of_lastInserted {ins : List (Bytes × α)} {ws : List Bytes} {v : α}
    (h : lastInserted ins ws = some v) : ∃ wv ∈ ins, tokens wv.1 = ws ∧ wv.2 = v := by
  rw [lastInserted, Option.map_eq_some_iff] at h
  obtain ⟨wv, hlast, hv⟩ := h
  have hmem := List.mem_filter.mp (List.mem_of_getLast? hlast)
  exact ⟨wv, hmem.1, by simpa using hmem.2, hv⟩

lemma insertedOn_concat (m : Memory α) (ins : List (Bytes × α)) (wv : Bytes × α) :
    insertedOn m (ins ++ [wv]) = insert m.nodeVal (insertedOn m ins) (CnString.new wv.1) wv.2 := by
  rw [insertedOn, List.foldl_append]
  rfl

lemma ordered_insertedOn (m : Memory α) (ins : List (Bytes × α)) : Ordered (insertedOn m ins) := by
  induction ins using List.reverseRecOn with
  | nil => exact .mk (by simp [SortedMap.Sorted]) (fun _ _ h => by cases h) (fun _ _ h => by cases h)
  | append_singleton ins wv ih =>
    rw [insertedOn_concat]
    exact ih.insert _

/-- The entry of the empty sequence is what the memory says, all others are those of the
insertions. -/
lemma entry_insertedOn (m : Memory α) (ins : List (Bytes × α)) (ws : List Bytes) :
    (insertedOn m ins).entry ws =
      if ws = [] then if m.rootStatus = 1 then some m.rootVal else none
      else lastInserted ins ws := by
  induction ins using List.reverseRecOn with
  | nil =>
    cases ws with
    | nil => rfl
    | cons w ws => rfl
  | append_singleton ins wv ih =>
    rw [insertedOn_concat, entry_insert, CnString.words_new, lastInserted_concat, ih]
    by_cases hnil : ws = []
    · simp [hnil]
    · simp [hnil]

lemma inserted_eq (unset : α) (ins : List (Bytes × α)) :
    inserted unset ins = insertedOn ⟨0, unset, unset⟩ ins := rfl

lemma ordered_inserted (unset : α) (ins : List (Bytes × α)) : Ordered (inserted unset ins) := by
  rw [inserted_eq]
  exact ordered_insertedOn _ ins

lemma entry_inserted (unset : α) (ins : List (Bytes × α)) (ws : List Bytes) :
    (inserted unset ins).entry ws = if ws = [] then none else lastInserted ins ws := by
  rw [inserted_eq, entry_insertedOn]
  simp

/-- What `search` appends are the token sequences below the node that the query leads to, each
behind the query as it is, in the byte order of their text. -/
lemma exists_below {t : TrieNode α} (h : Ordered t) (q : Bytes)
    (searchResults : List (Bytes × α)) :
    ∃ below : List (List Bytes × α),
      search t (CnString.new q) searchResults =
          searchResults ++ below.map (fun e => (q ++ e.1.flatten, e.2)) ∧
        (∀ ws v, (ws, v) ∈ below ↔ t.entry (tokens q ++ ws) = some v) ∧
        (below.map fun e => e.1.flatten).Pairwise (· < ·) := by
  rw [search, CnString.words_new]
  cases htarget : extractSearch t (tokens q) with
  | none =>
    refine ⟨[], by simp, fun ws v => ?_, by simp⟩
    rw [entry_append, htarget]
    simp
  | some target =>
    have htargetOrdered := h.extractSearch htarget
    refine ⟨sequences target, ?_, fun ws v => ?_, htargetOrdered.pairwise_sequences⟩
    · show searchResults ++ dfsSearch target q = _
      rw [dfsSearch_eq]
    · rw [entry_append, htarget]
      exact htargetOrdered.mem_sequences

/-- The token sequences that `search` walks through, with their values. -/
lemma exists_search_eq {t : TrieNode α} (h : Ordered t) (q : Bytes) (hq : (tokens q).flatten = q)
    (searchResults : List (Bytes × α)) :
    ∃ found : List (List Bytes × α),
      search t (CnString.new q) searchResults =
          searchResults ++ found.map (fun e => (e.1.flatten, e.2)) ∧
        (∀ ws v, (ws, v) ∈ found ↔ tokens q <+: ws ∧ t.entry ws = some v) ∧
        (found.map fun e => e.1.flatten).Pairwise (· < ·) := by
  obtain ⟨below, hsearch, hmem, hsorted⟩ := exists_below h q searchResults
  -- each sequence with the characters of the query in front
  refine ⟨below.map fun e => (tokens q ++ e.1, e.2), ?_, ?_, ?_⟩
  · rw [hsearch, List.map_map]
    refine congrArg _ (List.map_congr_left fun e _ => ?_)
    show (q ++ e.1.flatten, e.2) = ((tokens q ++ e.1).flatten, e.2)
    rw [List.flatten_append, hq]
  · intro ws v
    rw [List.mem_map]
    constructor
    · rintro ⟨⟨ws', v'⟩, hbelow, heq⟩
      obtain ⟨rfl, rfl⟩ := Prod.mk.inj heq
      exact ⟨List.prefix_append _ _, (hmem ws' v').mp hbelow⟩
    · rintro ⟨⟨ws', rfl⟩, hentry⟩
      exact ⟨(ws', v), (hmem ws' v).mpr hentry, rfl⟩
  · rw [List.pairwise_map] at hsorted
    rw [List.map_map, List.pairwise_map]
    refine hsorted.imp fun hlt => ?_
    show (tokens q ++ _).flatten < (tokens q ++ _).flatten
    rw [List.flatten_append, List.flatten_append]
    exact List.append_left_lt hlt

/-- **Search in a trie.**  After any insertions, a query that is made of its own characters
is answered with one pair for each non-empty token sequence that was inserted and continues
the query: the concatenated tokens and the value inserted last, in ascending byte order. -/
theorem search_inserted (unset : α) (ins : List (Bytes × α)) (q : Bytes)
    (hq : (tokens q).flatten = q) (searchResults : List (Bytes × α)) :
    ∃ found : List (List Bytes × α),
      search (inserted unset ins) (CnString.new q) searchResults =
          searchResults ++ found.map (fun e => (e.1.flatten, e.2)) ∧
        (∀ ws v, (ws, v) ∈ found ↔
          ws ≠ [] ∧ tokens q <+: ws ∧ lastInserted ins ws = some v) ∧
        (found.map Prod.fst).Nodup ∧
        (found.map fun e => e.1.flatten).Pairwise (· < ·) ∧
        ((∀ wv ∈ ins, tokens wv.1 = [] ∨ ¬ tokens q <+: tokens wv.1) → found = []) := by
  obtain ⟨found, hsearch, hmem, hsorted⟩ :=
    exists_search_eq (ordered_inserted unset ins) q hq searchResults
  have hfound : ∀ ws v, (ws, v) ∈ found ↔
      ws ≠ [] ∧ tokens q <+: ws ∧ lastInserted ins ws = some v := by
    intro ws v
    rw [hmem, entry_inserted]
    by_cases hnil : ws = []
    · simp [hnil]
    · simp [hnil]
  refine ⟨found, hsearch, hfound, ?_, hsorted, ?_⟩
  · rw [List.pairwise_map] at hsorted
    rw [List.Nodup, List.pairwise_map]
    refine hsorted.imp fun hlt heq => ?_
    rw [heq] at hlt
    exact List.lt_irrefl _ hlt
  · intro hnone
    refine List.eq_nil_iff_forall_not_mem.mpr fun e he => ?_
    obtain ⟨hne, hpre, hlast⟩ := (hfound e.1 e.2).mp he
    obtain ⟨wv, hins, htok, -⟩ := exists_of_lastInserted hlast
    rcases hnone wv hins with hnil | hnot
    · exact hne (htok ▸ hnil)
    · exact hnot (htok ▸ hpre)

/-- The query `a` after insertions of `ab` and `a`. -/
theorem search_inserted_two : ∃ found : List (List Bytes × ℕ),
    search (inserted 0 [(bytes "ab", 1), (bytes "a", 2)]) (CnString.new (bytes "a")) [] =
        [] ++ found.map (fun e => (e.1.flatten, e.2)) ∧
      (∀ ws v, (ws, v) ∈ found ↔ ws ≠ [] ∧ tokens (bytes "a") <+: ws ∧
        lastInserted [(bytes "ab", 1), (bytes "a", 2)] ws = some v) ∧
      (found.map Prod.fst).Nodup ∧
      (found.map fun e => e.1.flatten).Pairwise (· < ·) ∧
      ((∀ wv ∈ [(bytes "ab", 1), (bytes "a", 2)],
        tokens wv.1 = [] ∨ ¬ tokens (bytes "a") <+: tokens wv.1) → found = []) :=
  search_inserted 0 _ (bytes "a") (by decide) []

example : search (inserted 0 [(bytes "ab", 1), (bytes "a", 2), (bytes "b", 3), (bytes "ab", 4)])
    (CnString.new (bytes "a")) [] = [(bytes "a", 2), (bytes "ab", 4)] := by
  decide

end TrieNode
end Dat
end Sunet
