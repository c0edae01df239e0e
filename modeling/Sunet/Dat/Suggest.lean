/-
# Suggestions

`SuggestStrategy` builds a trie from a file with an id and a title on each line and answers a
query with what `Trie::search` appends.  The constructor of `trie_node` sets no field, so
that a trie starts with what its memory contains: `insert` sets `_status` in every node that
it makes, and nothing sets it in the root.  A title comes out as the query followed by the
tokens behind it, which need not be the bytes of the line.
-/
import Sunet.Dat.Trie
import Sunet.Index.Load

namespace Sunet
namespace Dat
namespace TrieNode

open StringUtil Byte Index

variable {α : Type}

/-! ## Answers and memory -/

/-- An insertion goes past the root: it changes the children of the root and none of its own
fields, and these have no part in it. -/
lemma exists_children (unset : α) (ins : List (Bytes × α)) :
    ∃ ch, ∀ status val, insertedOn ⟨status, val, unset⟩ ins = node [] status val ch := by
  induction ins using List.reverseRecOn with
  | nil => exact ⟨[], fun _ _ => rfl⟩
  | append_singleton ins wv ih =>
    obtain ⟨ch, hch⟩ := ih
    cases hwords : (CnString.new wv.1).words with
    | nil =>
      refine ⟨ch, fun status val => ?_⟩
      rw [insertedOn_concat, hch, insert, CnString.length, hwords]
      rfl
    | cons w ws =>
      refine ⟨SortedMap.set w (insertLoop unset
        ((SortedMap.find w ch).getD (fresh unset w)) ws wv.2) ch, fun status val => ?_⟩
      rw [insertedOn_concat, hch, insert, CnString.length, hwords]
      rfl

/-- Lists of entries in the byte order of their texts are equal if they have the same
members. -/
lemma eq_of_mem_iff {l l' : List (List Bytes × α)}
    (hl : (l.map fun e => e.1.flatten).Pairwise (· < ·))
    (hl' : (l'.map fun e => e.1.flatten).Pairwise (· < ·))
    (hmem : ∀ e, e ∈ l ↔ e ∈ l') : l = l' := by
  rw [List.pairwise_map] at hl hl'
  have hirrefl : ∀ e e' : List Bytes × α, e.1.flatten < e'.1.flatten → e ≠ e' := by
    intro e e' hlt heq
    rw [heq] at hlt
    exact List.lt_irrefl _ hlt
  have hperm : l.Perm l' :=
    (List.perm_ext_iff_of_nodup (hl.imp (hirrefl _ _)) (hl'.imp (hirrefl _ _))).mpr hmem
  refine hperm.eq_of_pairwise (fun e e' _ _ h h' => ?_) hl hl'
  exact absurd (List.lt_trans h h') (List.lt_irrefl _)

/-- Whatever is inserted, the answer to a query is the same on every memory exactly if the
query has a token. -/
theorem search_insertedOn_eq_iff [Inhabited α] (ins : List (Bytes × α)) (q : Bytes)
    (searchResults : List (Bytes × α)) :
    (∀ m m' : Memory α, search (insertedOn m ins) (CnString.new q) searchResults =
      search (insertedOn m' ins) (CnString.new q) searchResults) ↔ tokens q ≠ [] := by
  constructor
  · intro h hnil
    obtain ⟨ch, hch⟩ := exists_children default ins
    have hwalk : ∀ status, search (insertedOn ⟨status, default, default⟩ ins) (CnString.new q)
        searchResults = searchResults ++ ((if status = 1 then [(q, default)] else []) ++
          dfsChildren ch q) := by
      intro status
      rw [search, CnString.words_new, hnil, hch]
      rfl
    -- the root is in the answer or not
    have hlen := congrArg List.length (h ⟨1, default, default⟩ ⟨0, default, default⟩)
    rw [hwalk, hwalk] at hlen
    simp at hlen
  · intro hne m m'
    obtain ⟨below, hsearch, hmem, hsorted⟩ :=
      exists_below (ordered_insertedOn m ins) q searchResults
    obtain ⟨below', hsearch', hmem', hsorted'⟩ :=
      exists_below (ordered_insertedOn m' ins) q searchResults
    have heq : below = below' := by
      refine eq_of_mem_iff hsorted hsorted' fun e => ?_
      obtain ⟨ws, v⟩ := e
      have hws : tokens q ++ ws ≠ [] := fun h => hne (List.append_eq_nil_iff.mp h).1
      rw [hmem, hmem', entry_insertedOn, entry_insertedOn, if_neg hws, if_neg hws]
    rw [hsearch, hsearch', heq]

/-- The empty query against an empty trie. -/
theorem search_reads_memory : ¬ ∀ (m m' : Memory ℤ) (ins : List (Bytes × ℤ)) (q : Bytes),
    search (insertedOn m ins) (CnString.new q) [] =
      search (insertedOn m' ins) (CnString.new q) [] := by
  intro h
  have hempty := h ⟨1, 7, 0⟩ ⟨0, 7, 0⟩ [] []
  revert hempty
  decide

/-! ## Answers and the file -/

/-- A line of a suggest file. -/
structure SuggestLine where
  id : Bytes
  title : Bytes
  tab_notMem_id : tab ∉ id
  tab_notMem_title : tab ∉ title
  title_ne_nil : title ≠ []

/-- The bytes of a line. -/
def SuggestLine.text (line : SuggestLine) : Bytes := dictLine line.id line.title

/-- The body of the loop of `build`, or `none` when the line has no second field. -/
def buildLine (unset : ℤ) (root : TrieNode ℤ) (line : Bytes) : Option (TrieNode ℤ) :=
  match split line [tab] with
  | vals₀ :: vals₁ :: _ => some (insert unset root (CnString.new vals₁) (atoi vals₀))
  | _ => none

/-- `build`. -/
def build (unset : ℤ) (root : TrieNode ℤ) (file : Bytes) : Option (TrieNode ℤ) :=
  (getLines file).foldlM (buildLine unset) root

/-- The insertions that the lines of a file ask for. -/
def insertions (lines : List SuggestLine) : List (Bytes × ℤ) :=
  lines.map fun line => (line.title, atoi line.id)

lemma build_lines (m : Memory ℤ) {lines : List SuggestLine} {file : Bytes}
    (hfile : getLines file = lines.map SuggestLine.text) :
    build m.nodeVal (new m) file = some (insertedOn m (insertions lines)) := by
  rw [build, hfile, insertedOn, insertions, List.foldl_map, List.foldlM_map]
  generalize new m = root
  clear hfile
  induction lines generalizing root with
  | nil => rfl
  | cons line lines ih =>
    have hline : buildLine m.nodeVal root line.text =
        some (insert m.nodeVal root (CnString.new line.title) (atoi line.id)) := by
      rw [buildLine, SuggestLine.text,
        split_dictLine line.tab_notMem_id line.tab_notMem_title line.title_ne_nil]
    rw [List.foldlM_cons, hline, List.foldl_cons]
    exact ih _

/-- A pair is the title and the id of a line. -/
def IsLine (lines : List SuggestLine) (title : Bytes) (id : ℤ) : Prop :=
  ∃ line ∈ lines, line.title = title ∧ atoi line.id = id

/-- A line that the trie keeps: it has tokens, and no line behind it has the same. -/
def Kept (lines : List SuggestLine) (line : SuggestLine) : Prop :=
  tokens line.title ≠ [] ∧ ∃ before behind, lines = before ++ line :: behind ∧
    ∀ later ∈ behind, tokens later.title ≠ tokens line.title

/-- The query, and the tokens of a title behind those of the query. -/
def retitled (q title : Bytes) : Bytes :=
  q ++ ((tokens title).drop (tokens q).length).flatten

/-- A line at the end of the file takes the place of those with its tokens. -/
lemma kept_concat {lines : List SuggestLine} {last line : SuggestLine} :
    Kept (lines ++ [last]) line ↔ (line = last ∧ tokens last.title ≠ []) ∨
      (Kept lines line ∧ tokens last.title ≠ tokens line.title) := by
  constructor
  · rintro ⟨hne, before, behind, heq, hlater⟩
    rcases List.eq_nil_or_concat behind with rfl | ⟨behind', last', rfl⟩
    · obtain ⟨-, hlast⟩ := List.append_inj' heq rfl
      cases hlast
      exact .inl ⟨rfl, hne⟩
    · rw [List.concat_eq_append] at heq hlater
      rw [← List.cons_append, ← List.append_assoc] at heq
      obtain ⟨hlines, hlast⟩ := List.append_inj' heq rfl
      cases hlast
      exact .inr ⟨⟨hne, before, behind', hlines, fun later h => hlater later (by simp [h])⟩,
        hlater _ (by simp)⟩
  · rintro (⟨rfl, hne⟩ | ⟨⟨hne, before, behind, rfl, hlater⟩, hlast⟩)
    · exact ⟨hne, lines, [], rfl, by simp⟩
    · refine ⟨hne, before, behind ++ [last], by simp, fun later h => ?_⟩
      rcases List.mem_append.mp h with h | h
      · exact hlater later h
      · rwa [List.mem_singleton.mp h]

/-- What is stored for tokens is the id of the kept line that has them. -/
lemma lastInserted_insertions {lines : List SuggestLine} {ws : List Bytes} (hne : ws ≠ [])
    {v : ℤ} : lastInserted (insertions lines) ws = some v ↔
      ∃ line, Kept lines line ∧ tokens line.title = ws ∧ atoi line.id = v := by
  induction lines using List.reverseRecOn with
  | nil => simp [insertions, lastInserted, Kept]
  | append_singleton lines last ih =>
    have hconcat : insertions (lines ++ [last]) =
        insertions lines ++ [(last.title, atoi last.id)] := by simp [insertions]
    rw [hconcat, lastInserted_concat]
    by_cases hlast : ws = tokens last.title
    · subst hlast
      rw [if_pos rfl]
      constructor
      · intro h
        exact ⟨last, kept_concat.mpr (.inl ⟨rfl, hne⟩), rfl, Option.some.inj h⟩
      · rintro ⟨line, hkept, htokens, rfl⟩
        rcases kept_concat.mp hkept with ⟨rfl, -⟩ | ⟨-, hother⟩
        · rfl
        · exact absurd htokens.symm hother
    · rw [if_neg hlast, ih]
      constructor
      · rintro ⟨line, hkept, htokens, hid⟩
        exact ⟨line, kept_concat.mpr (.inr ⟨hkept, fun h => hlast (htokens ▸ h.symm)⟩),
          htokens, hid⟩
      · rintro ⟨line, hkept, htokens, hid⟩
        rcases kept_concat.mp hkept with ⟨rfl, -⟩ | ⟨hkept, -⟩
        · exact absurd htokens.symm hlast
        · exact ⟨line, hkept, htokens, hid⟩

/-- What `search` appends after `build`: the query with what the memory holds in the root, if
the query has no token and the status found there is 1, and each kept line whose tokens begin
with those of the query. -/
lemma mem_appended (m : Memory ℤ) (lines : List SuggestLine) (q : Bytes)
    (searchResults : List (Bytes × ℤ)) :
    ∃ appended, search (insertedOn m (insertions lines)) (CnString.new q) searchResults =
        searchResults ++ appended ∧
      ∀ r, r ∈ appended ↔
        (tokens q = [] ∧ m.rootStatus = 1 ∧ r = (q, m.rootVal)) ∨
        ∃ line, Kept lines line ∧ tokens q <+: tokens line.title ∧
          r = (retitled q line.title, atoi line.id) := by
  obtain ⟨below, hsearch, hbelow, -⟩ :=
    exists_below (ordered_insertedOn m (insertions lines)) q searchResults
  refine ⟨_, hsearch, fun r => ?_⟩
  rw [List.mem_map]
  constructor
  · rintro ⟨⟨ws, v⟩, hmem, rfl⟩
    rw [hbelow, entry_insertedOn] at hmem
    split at hmem
    · next hnil =>
      obtain ⟨hq, rfl⟩ := List.append_eq_nil_iff.mp hnil
      split at hmem
      · next hstatus =>
        cases hmem
        exact .inl ⟨hq, hstatus, by simp⟩
      · cases hmem
    · next hne =>
      obtain ⟨line, hkept, htokens, rfl⟩ := (lastInserted_insertions hne).mp hmem
      refine .inr ⟨line, hkept, ⟨ws, htokens.symm⟩, ?_⟩
      rw [retitled, htokens, List.drop_left]
  · rintro (⟨hq, hstatus, rfl⟩ | ⟨line, hkept, ⟨ws, htokens⟩, rfl⟩)
    · refine ⟨([], m.rootVal), ?_, by simp⟩
      rw [hbelow, entry_insertedOn, hq, List.nil_append, if_pos rfl, if_pos hstatus]
    · have hne : tokens q ++ ws ≠ [] := htokens ▸ hkept.1
      refine ⟨(ws, atoi line.id), ?_, ?_⟩
      · rw [hbelow, entry_insertedOn, if_neg hne, lastInserted_insertions hne]
        exact ⟨line, hkept, htokens.symm, rfl⟩
      · rw [retitled, ← htokens, List.drop_left]

/-- After `build` of a file of lines with an id and a title, what `search` appends are titles
and ids of lines exactly if each kept line whose tokens begin with those of the query has,
rebuilt from the query, the title of a line with its id, and for a query without tokens the
memory has no entry in the root that is not a line. -/
theorem suggestions_are_lines_iff (m : Memory ℤ) {lines : List SuggestLine} {file : Bytes}
    (hfile : getLines file = lines.map SuggestLine.text) (q : Bytes)
    (searchResults : List (Bytes × ℤ)) :
    ∃ trie appended, build m.nodeVal (new m) file = some trie ∧
      search trie (CnString.new q) searchResults = searchResults ++ appended ∧
      ((∀ r ∈ appended, IsLine lines r.1 r.2) ↔
        (tokens q = [] → m.rootStatus = 1 → IsLine lines q m.rootVal) ∧
        ∀ line, Kept lines line → tokens q <+: tokens line.title →
          IsLine lines (retitled q line.title) (atoi line.id)) := by
  obtain ⟨appended, hsearch, hmem⟩ := mem_appended m lines q searchResults
  refine ⟨_, appended, build_lines m hfile, hsearch, ?_⟩
  constructor
  · intro h
    refine ⟨fun hq hstatus => ?_, fun line hkept hprefix => ?_⟩
    · exact h (q, m.rootVal) ((hmem _).mpr (.inl ⟨hq, hstatus, rfl⟩))
    · exact h (retitled q line.title, atoi line.id)
        ((hmem _).mpr (.inr ⟨line, hkept, hprefix, rfl⟩))
  · rintro ⟨hroot, hlines⟩ r hr
    rcases (hmem r).mp hr with ⟨hq, hstatus, rfl⟩ | ⟨line, hkept, hprefix, rfl⟩
    · exact hroot hq hstatus
    · exact hlines line hkept hprefix

/-- A file of one line, of which everything is a character. -/
theorem suggestions_are_lines_iff_ab :
    ∃ trie appended, build 0 (new ⟨0, 0, 0⟩) (bytes "1\tab\n") = some trie ∧
      search trie (CnString.new (bytes "a")) [] = [] ++ appended ∧
      ((∀ r ∈ appended, IsLine [⟨bytes "1", bytes "ab", by decide, by decide, by decide⟩] r.1 r.2) ↔
        (tokens (bytes "a") = [] → (0 : ℤ) = 1 →
          IsLine [⟨bytes "1", bytes "ab", by decide, by decide, by decide⟩] (bytes "a") 0) ∧
        ∀ line, Kept [⟨bytes "1", bytes "ab", by decide, by decide, by decide⟩] line →
          tokens (bytes "a") <+: tokens line.title →
          IsLine [⟨bytes "1", bytes "ab", by decide, by decide, by decide⟩]
            (retitled (bytes "a") line.title) (atoi line.id)) :=
  suggestions_are_lines_iff ⟨0, 0, 0⟩ (by decide) (bytes "a") []

/-- A title with a space in it, and a query that ends before the space. -/
theorem suggestion_without_space : ¬ ∀ (m : Memory ℤ) (lines : List SuggestLine) (file q : Bytes)
    (trie : TrieNode ℤ), getLines file = lines.map SuggestLine.text →
    build m.nodeVal (new m) file = some trie →
    ∀ r ∈ search trie (CnString.new q) [], IsLine lines r.1 r.2 := by
  intro h
  have hline := h ⟨0, 0, 0⟩ [⟨bytes "1", bytes "a b", by decide, by decide, by decide⟩]
    (bytes "1\ta b\n") (bytes "a") _ (by decide) rfl (bytes "ab", 1) (by decide)
  obtain ⟨line, hmem, htitle, -⟩ := hline
  rw [List.mem_singleton.mp hmem] at htitle
  revert htitle
  decide

/-- A title that is made of its characters is rebuilt from a query that is made of its own. -/
lemma retitled_eq {q title : Bytes} (hq : (tokens q).flatten = q)
    (htitle : (tokens title).flatten = title) (h : tokens q <+: tokens title) :
    retitled q title = title := by
  obtain ⟨ws, hws⟩ := h
  rw [retitled, ← hws, List.drop_left, ← htitle, ← hws, List.flatten_append, hq]

/-- Where every title and the query are made of their characters, and the query is not empty,
the suggestions are lines of the file. -/
theorem suggestions_are_lines_of_whole (m : Memory ℤ) {lines : List SuggestLine} {file q : Bytes}
    (hfile : getLines file = lines.map SuggestLine.text) (hq : (tokens q).flatten = q)
    (hne : q ≠ []) (hlines : ∀ line ∈ lines, (tokens line.title).flatten = line.title)
    (searchResults : List (Bytes × ℤ)) :
    ∃ trie appended, build m.nodeVal (new m) file = some trie ∧
      search trie (CnString.new q) searchResults = searchResults ++ appended ∧
      ∀ r ∈ appended, IsLine lines r.1 r.2 := by
  obtain ⟨appended, hsearch, hmem⟩ := mem_appended m lines q searchResults
  refine ⟨_, appended, build_lines m hfile, hsearch, fun r hr => ?_⟩
  rcases (hmem r).mp hr with ⟨hnil, -, -⟩ | ⟨line, hkept, hprefix, rfl⟩
  · rw [hnil] at hq
    exact absurd hq.symm hne
  · have hline : line ∈ lines := by
      obtain ⟨-, before, behind, rfl, -⟩ := hkept
      simp
    exact ⟨line, hline, (retitled_eq hq (hlines line hline) hprefix).symm, rfl⟩

end TrieNode
end Dat
end Sunet
