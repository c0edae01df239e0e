/-
# Ordered maps as sorted lists

An ordered map is the list of its entries in the order of their keys.  The laws of look-up
and replacement hold for all lists; replacement keeps a sorted list sorted.
-/
import Mathlib.Tactic

namespace Sunet
namespace SortedMap

variable {κ β : Type} [LT κ] [DecidableEq κ] [DecidableLT κ]

/-- The value at a key. -/
def find (k : κ) : List (κ × β) → Option β
  | [] => none
  | (k', v) :: rest => if k = k' then some v else find k rest

/-- The map with the value at a key replaced. -/
def set (k : κ) (v : β) : List (κ × β) → List (κ × β)
  | [] => [(k, v)]
  | (k', v') :: rest =>
    if k = k' then (k, v) :: rest
    else if k < k' then (k, v) :: (k', v') :: rest
    else (k', v') :: set k v rest

/-- The keys ascend. -/
def Sorted (m : List (κ × β)) : Prop := (m.map Prod.fst).Pairwise (· < ·)

omit [DecidableEq κ] [DecidableLT κ] in
lemma Sorted.filter {m : List (κ × β)} (h : Sorted m) (p : κ × β → Bool) :
    Sorted (m.filter p) :=
  h.sublist (List.filter_sublist.map Prod.fst)

omit [LT κ] [DecidableLT κ] in
@[simp] lemma find_nil (k : κ) : find k ([] : List (κ × β)) = none := rfl

lemma find_set_self (k : κ) (v : β) (m : List (κ × β)) : find k (set k v m) = some v := by
  induction m with
  | nil => simp [set, find]
  | cons e m ih =>
    obtain ⟨k', v'⟩ := e
    by_cases hk : k = k'
    · simp [set, find, hk]
    · by_cases hlt : k < k'
      · simp [set, find, hk, hlt]
      · simp [set, find, hk, hlt, ih]

lemma find_set_of_ne {k k₀ : κ} (hne : k₀ ≠ k) (v : β) (m : List (κ × β)) :
    find k₀ (set k v m) = find k₀ m := by
  induction m with
  | nil => simp [set, find, hne]
  | cons e m ih =>
    obtain ⟨k', v'⟩ := e
    by_cases hk : k = k'
    · subst hk
      simp [set, find, hne]
    · by_cases hlt : k < k'
      · simp [set, find, hk, hlt, hne]
      · simp [set, find, hk, hlt, ih]

lemma find_set (k k₀ : κ) (v : β) (m : List (κ × β)) :
    find k₀ (set k v m) = if k₀ = k then some v else find k₀ m := by
  split
  · next h => rw [h, find_set_self]
  · next h => rw [find_set_of_ne h]

lemma mem_set {k k₀ : κ} {v v₀ : β} {m : List (κ × β)} (h : (k₀, v₀) ∈ set k v m) :
    (k₀ = k ∧ v₀ = v) ∨ (k₀, v₀) ∈ m := by
  induction m with
  | nil =>
    rw [set, List.mem_singleton, Prod.mk.injEq] at h
    exact Or.inl h
  | cons e m ih =>
    obtain ⟨k', v'⟩ := e
    rw [set] at h
    split at h
    · rcases List.mem_cons.mp h with h | h
      · exact Or.inl (Prod.mk.inj h)
      · exact Or.inr (by simp [h])
    · split at h
      · rcases List.mem_cons.mp h with h | h
        · exact Or.inl (Prod.mk.inj h)
        · exact Or.inr h
      · rcases List.mem_cons.mp h with h | h
        · exact Or.inr (by simp [h])
        · rcases ih h with h | h
          · exact Or.inl h
          · exact Or.inr (by simp [h])

/-- The map with a function applied to its values. -/
def mapVal {γ : Type} (f : β → γ) (m : List (κ × β)) : List (κ × γ) := m.map fun e => (e.1, f e.2)

omit [LT κ] [DecidableLT κ] in
lemma find_mapVal {γ : Type} (f : β → γ) (k : κ) (m : List (κ × β)) :
    find k (mapVal f m) = (find k m).map f := by
  induction m with
  | nil => rfl
  | cons e m ih =>
    obtain ⟨k', v⟩ := e
    have hcons : mapVal f ((k', v) :: m) = (k', f v) :: mapVal f m := rfl
    rw [hcons, find, find, ih]
    split <;> rfl

lemma set_mapVal {γ : Type} (f : β → γ) (k : κ) (v : β) (m : List (κ × β)) :
    set k (f v) (mapVal f m) = mapVal f (set k v m) := by
  induction m with
  | nil => rfl
  | cons e m ih =>
    obtain ⟨k', v'⟩ := e
    have hcons : mapVal f ((k', v') :: m) = (k', f v') :: mapVal f m := rfl
    rw [hcons, set, set, ih]
    split
    · rfl
    · split <;> rfl

lemma find_foldl_set_of_notMem {k : κ} {entries : List (κ × β)} (hk : k ∉ entries.map Prod.fst)
    (m : List (κ × β)) :
    find k (entries.foldl (fun m e => SortedMap.set e.1 e.2 m) m) = find k m := by
  induction entries generalizing m with
  | nil => rfl
  | cons e entries ih =>
    rw [List.map_cons, List.mem_cons, not_or] at hk
    rw [List.foldl_cons, ih hk.2, find_set_of_ne hk.1]

/-- Entries with keys of their own are all found after they are set. -/
lemma find_foldl_set {entries : List (κ × β)} (hnodup : (entries.map Prod.fst).Nodup)
    (m : List (κ × β)) {e : κ × β} (he : e ∈ entries) :
    find e.1 (entries.foldl (fun m e => SortedMap.set e.1 e.2 m) m) = some e.2 := by
  induction entries generalizing m with
  | nil => cases he
  | cons e₀ entries ih =>
    rw [List.map_cons, List.nodup_cons] at hnodup
    rw [List.foldl_cons]
    rcases List.mem_cons.mp he with rfl | he
    · rw [find_foldl_set_of_notMem hnodup.1, find_set_self]
    · exact ih hnodup.2 _ he

section order

variable [IsTrans κ (· < ·)] [Std.Trichotomous (fun a b : κ => a < b)]

lemma Sorted.set {m : List (κ × β)} (h : Sorted m) (k : κ) (v : β) :
    Sorted (SortedMap.set k v m) := by
  induction m with
  | nil => simp [SortedMap.set, Sorted]
  | cons e m ih =>
    obtain ⟨k', v'⟩ := e
    rw [Sorted, List.map_cons, List.pairwise_cons] at h
    obtain ⟨hhead, htail⟩ := h
    rw [SortedMap.set]
    split
    · next hk =>
      subst hk
      rw [Sorted, List.map_cons, List.pairwise_cons]
      exact ⟨hhead, htail⟩
    · next hk =>
      split
      · next hlt =>
        rw [Sorted, List.map_cons, List.pairwise_cons, List.map_cons, List.pairwise_cons]
        refine ⟨?_, hhead, htail⟩
        intro x hx
        rcases List.mem_cons.mp hx with rfl | hx
        · exact hlt
        · exact IsTrans.trans _ _ _ hlt (hhead x hx)
      · next hlt =>
        rw [Sorted, List.map_cons, List.pairwise_cons]
        refine ⟨?_, ih htail⟩
        intro x hx
        obtain ⟨⟨x', y⟩, hmem, rfl⟩ := List.mem_map.mp hx
        rcases mem_set hmem with ⟨rfl, -⟩ | hmem
        · by_contra hge
          exact hk (Std.Trichotomous.trichotomous (r := fun a b : κ => a < b) _ _ hlt hge)
        · exact hhead x' (List.mem_map_of_mem hmem)

end order

section irrefl

variable [Std.Irrefl (fun a b : κ => a < b)]

omit [DecidableLT κ] in
/-- The entries of a sorted list are what look-up finds. -/
lemma Sorted.mem_iff_find {m : List (κ × β)} (h : Sorted m) {k : κ} {v : β} :
    (k, v) ∈ m ↔ find k m = some v := by
  induction m with
  | nil => simp
  | cons e m ih =>
    obtain ⟨k', v'⟩ := e
    rw [Sorted, List.map_cons, List.pairwise_cons] at h
    obtain ⟨hhead, htail⟩ := h
    rw [find, List.mem_cons, Prod.mk.injEq]
    by_cases hk : k = k'
    · subst hk
      rw [if_pos rfl, Option.some.injEq]
      constructor
      · rintro (⟨-, rfl⟩ | hmem)
        · rfl
        · exact absurd (hhead k (List.mem_map_of_mem hmem)) (Std.Irrefl.irrefl k)
      · rintro rfl
        exact Or.inl ⟨rfl, rfl⟩
    · rw [if_neg hk, ← ih htail]
      exact ⟨fun h => h.resolve_left fun h => hk h.1, Or.inr⟩

omit [DecidableLT κ] in
/-- The key of an entry does not come up again behind it. -/
lemma Sorted.find_tail {k : κ} {v : β} {m : List (κ × β)} (h : Sorted ((k, v) :: m)) :
    find k m = none := by
  rw [Sorted, List.map_cons, List.pairwise_cons] at h
  obtain ⟨hhead, htail⟩ := h
  by_contra hne
  obtain ⟨v', hv'⟩ := Option.ne_none_iff_exists'.mp hne
  have hmem := (Sorted.mem_iff_find htail).mpr hv'
  exact Std.Irrefl.irrefl k (hhead k (List.mem_map_of_mem hmem))

omit [DecidableEq κ] [DecidableLT κ] in
lemma Sorted.nodup {m : List (κ × β)} (h : Sorted m) : (m.map Prod.fst).Nodup := by
  refine List.Pairwise.imp (fun {k k'} hlt heq => ?_) h
  rw [heq] at hlt
  exact Std.Irrefl.irrefl k' hlt

end irrefl

section build

variable [IsTrans κ (· < ·)] [Std.Irrefl (fun a b : κ => a < b)]

/-- A key that is greater than all others is put at the end. -/
lemma set_eq_append {k : κ} (v : β) {m : List (κ × β)} (h : ∀ e ∈ m, e.1 < k) :
    set k v m = m ++ [(k, v)] := by
  induction m with
  | nil => rfl
  | cons e m ih =>
    obtain ⟨k', v'⟩ := e
    have hlt : k' < k := h (k', v') List.mem_cons_self
    have hne : k ≠ k' := by
      rintro rfl
      exact Std.Irrefl.irrefl k hlt
    have hnot : ¬ k < k' := fun hgt => Std.Irrefl.irrefl k (IsTrans.trans _ _ _ hgt hlt)
    rw [set, if_neg hne, if_neg hnot, ih fun e he => h e (List.mem_cons_of_mem _ he)]
    rfl

/-- The entries of a map, put into a smaller one in their order. -/
lemma Sorted.foldl_set_append {m : List (κ × β)} (h : Sorted m) {m₀ : List (κ × β)}
    (hlt : ∀ e₀ ∈ m₀, ∀ e ∈ m, e₀.1 < e.1) :
    m.foldl (fun d e => SortedMap.set e.1 e.2 d) m₀ = m₀ ++ m := by
  induction m generalizing m₀ with
  | nil => simp
  | cons e m ih =>
    rw [Sorted, List.map_cons, List.pairwise_cons] at h
    obtain ⟨hhead, htail⟩ := h
    rw [List.foldl_cons, set_eq_append e.2 fun e₀ he₀ => hlt e₀ he₀ e List.mem_cons_self,
      ih htail, List.append_assoc]
    · rfl
    · intro e₀ he₀ e' he'
      rcases List.mem_append.mp he₀ with he₀ | he₀
      · exact hlt e₀ he₀ e' (List.mem_cons_of_mem _ he')
      · rw [List.mem_singleton] at he₀
        rw [he₀]
        exact hhead e'.1 (List.mem_map_of_mem he')

/-- A map is built again from its entries. -/
lemma Sorted.foldl_set {m : List (κ × β)} (h : Sorted m) :
    m.foldl (fun d e => SortedMap.set e.1 e.2 d) [] = m :=
  h.foldl_set_append fun _ he₀ => by cases he₀

/-- What is there already is set without a change. -/
lemma Sorted.set_of_find {m : List (κ × β)} (h : Sorted m) {k : κ} {v : β}
    (hfind : find k m = some v) : SortedMap.set k v m = m := by
  induction m with
  | nil => cases hfind
  | cons e m ih =>
    obtain ⟨k', v'⟩ := e
    rw [Sorted, List.map_cons, List.pairwise_cons] at h
    obtain ⟨hhead, htail⟩ := h
    rw [find] at hfind
    rw [SortedMap.set]
    split at hfind
    · next hk => rw [if_pos hk, hk, Option.some.inj hfind]
    · next hk =>
      -- the key is behind the first one, so it is not less
      have hmem := (Sorted.mem_iff_find htail).mpr hfind
      have hnot : ¬ k < k' := fun hlt => Std.Irrefl.irrefl k'
        (IsTrans.trans _ _ _ (hhead k (List.mem_map_of_mem hmem)) hlt)
      rw [if_neg hk, if_neg hnot, ih htail hfind]

/-- Setting entries with keys of their own changes a map unless they are all there. -/
lemma Sorted.foldl_set_eq_iff {m : List (κ × β)} (h : Sorted m) {entries : List (κ × β)}
    (hnodup : (entries.map Prod.fst).Nodup) :
    entries.foldl (fun m e => SortedMap.set e.1 e.2 m) m = m ↔
      ∀ e ∈ entries, find e.1 m = some e.2 := by
  constructor
  · intro heq e he
    rw [← find_foldl_set hnodup m he, heq]
  · intro hfind
    clear hnodup
    induction entries with
    | nil => rfl
    | cons e entries ih =>
      rw [List.foldl_cons, h.set_of_find (hfind e List.mem_cons_self)]
      exact ih fun x hx => hfind x (List.mem_cons_of_mem _ hx)

end build

end SortedMap
end Sunet
