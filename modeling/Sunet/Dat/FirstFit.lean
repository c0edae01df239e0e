/-
# First-fit insertion

`_insert` chooses `begin` for its siblings, takes their cells, and places the subtrees into the
same arrays before it writes the bases of the cells.  As long as the arrays are not resized and
no index leaves them, no call of the recursion touches a cell that was in use before it: this is
`insert_firstFit`, for the call that starts a run and for all that it leads to.
-/
import Sunet.Dat.Total

namespace Sunet
namespace Dat
namespace DatImpl

variable {α : Type}

/-! ## The calls of a run -/

/-- A run of `_insert` on the siblings `sibs` with fuel `n` comes to a call on `sibs'` in the
state `d'`, with fuel `m`: it is this call itself, or one of those that the last loop makes
after it has gone through the siblings before `s`. -/
inductive Calls (fuel : ℕ) : ℕ → List TreeNode → DatImpl α → ℕ → List TreeNode → DatImpl α → Prop
  | self (n : ℕ) (sibs : List TreeNode) (d : DatImpl α) : Calls fuel n sibs d n sibs d
  | sub {n m k b : ℕ} {pre post subs sibs' : List TreeNode} {s : TreeNode} {d d₁ d₂ d' : DatImpl α}
      (hplace : place noResize fuel (pre ++ s :: post) d = .ok (b, d₁))
      (hpre : pre.foldlM (attach (insert noResize fuel n) b) d₁ = .ok d₂)
      (hfetch : d₂.fetchSiblings s = .ok (k + 1, subs)) (h : Calls fuel n subs d₂ m sibs' d') :
      Calls fuel (n + 1) (pre ++ s :: post) d m sibs' d'

/-- What a call of `_insert` on `sibs` does between the states `d` and `d'` when it returns `b`:
the cells that were in use are unchanged, `b` was not in use as a `begin` and is now, and the
cells that carry it are those of the siblings. -/
structure FirstFit (sibs : List TreeNode) (d : DatImpl α) (b : ℕ) (d' : DatImpl α) : Prop where
  check_eq : ∀ i, d.check i ≠ 0 → d'.check i = d.check i
  base_eq : ∀ i, d.check i ≠ 0 → d'.base i = d.base i
  pos : 1 ≤ b
  free : d.used b = false
  used : d'.used b = true
  check_iff : ∀ c, d'.check (b + c) = b ↔ ∃ s ∈ sibs, s.code = c

lemma Keeps.self (d d' : DatImpl α) : Keeps ∅ d d' d' :=
  ⟨fun _ _ _ => rfl, fun _ _ => rfl, fun _ _ _ _ _ => rfl⟩

/-- A call that starts where all cells in use are marked. -/
lemma firstFit_of_insert {fuel n b : ℕ} {sibs : List TreeNode} {d d' : DatImpl α} (hd : Marked d)
    (h : insert noResize fuel n sibs d = .ok (b, d')) : FirstFit sibs d b d' := by
  obtain ⟨hext, hbuilt⟩ := insert_builds d.fetchSiblings fuel n sibs d b d' rfl hd h
  obtain ⟨_, _, _, hpos, -, hcheck, -, -, -, -⟩ := hbuilt d' (Keeps.self d d')
  have hused : d.used b = false ∧ d'.used b = true := by
    cases n with
    | zero => cases h
    | succ n =>
      simp only [insert, Except.bind_eq_ok] at h
      obtain ⟨⟨b₁, d₁⟩, hplace, d₂, hloop, h⟩ := h
      obtain ⟨rfl, rfl⟩ : b₁ = b ∧ d₂ = d' := by simpa using h
      have hpl := place_ok hplace
      have hbet := hpl.between rfl hd
      obtain ⟨-, hext', -⟩ := attachAll_ok (insert_builds d.fetchSiblings fuel n) sibs d₁ d₂
        hbet.fetch_eq hbet.marked hbet.taken hloop
      exact ⟨hpl.free, hext'.used_mono b₁ (by rw [hpl.used]; simp)⟩
  exact ⟨hext.check_eq, fun i hi => hext.base_eq i hi (by simp), hpos, hused.1, hused.2, hcheck⟩

/-- Every call of a run that returns starts where all cells in use are marked, and returns. -/
lemma Calls.returns {fuel n m : ℕ} {sibs sibs' : List TreeNode} {d e : DatImpl α}
    (hcalls : Calls fuel n sibs d m sibs' e) (hd : Marked d) {b : ℕ} {d' : DatImpl α}
    (h : insert noResize fuel n sibs d = .ok (b, d')) :
    Marked e ∧ ∃ b' e', insert noResize fuel m sibs' e = .ok (b', e') := by
  induction hcalls generalizing b d' with
  | self n sibs d => exact ⟨hd, b, d', h⟩
  | @sub n m k b₀ pre post subs sibs' s d d₁ d₂ e hplace hpre hfetch _ ih =>
    simp only [insert, hplace, Except.ok_bind, Except.bind_eq_ok] at h
    obtain ⟨d₃, hloop, -⟩ := h
    have hbet := (place_ok hplace).between rfl hd
    have hsub : ∀ i ∈ cells b₀ pre, i ∈ cells b₀ (pre ++ s :: post) := by
      rintro i ⟨x, hx, rfl⟩
      exact ⟨x, List.mem_append_left _ hx, rfl⟩
    obtain ⟨-, hext, -⟩ := attachAll_ok (insert_builds d.fetchSiblings fuel n) pre d₁ d₂
      hbet.fetch_eq hbet.marked (fun i hi => hbet.taken i (hsub i hi)) hpre
    -- the loop goes on at `s` with the call
    rw [List.foldlM_append, hpre, Except.ok_bind, Except.foldlM_cons_eq_ok] at hloop
    obtain ⟨d₄, hatt, -⟩ := hloop
    rcases attach_cases hatt with ⟨subs', -, hleaf, -⟩ | ⟨k', subs', nb, d₅, hnode, hins, -⟩
    · rw [hfetch] at hleaf
      cases hleaf
    · rw [hfetch] at hnode
      cases hnode
      exact ih (hext.marked hbet.marked) hins

/-! ## Runs end -/

/-- The nodes that the loop of `_fetch_siblings` has collected: one deeper than the node, and
closed at a word before `hi`, except the last one. -/
structure Opened (depth hi : ℕ) (sibs : List TreeNode) : Prop where
  depth_eq : ∀ s ∈ sibs, s.depth = depth + 1
  right_le : ∀ s ∈ sibs.dropLast, s.right ≤ hi

lemma Opened.close {depth hi i : ℕ} {sibs : List TreeNode} (h : Opened depth hi sibs)
    (hi' : i ≤ hi) : ∀ s ∈ setLastRight sibs i, s.depth = depth + 1 ∧ s.right ≤ hi := by
  rcases List.eq_nil_or_concat' sibs with rfl | ⟨init, last, rfl⟩
  · simp
  · rw [setLastRight_concat]
    intro s hs
    rcases List.mem_append.mp hs with hs | hs
    · exact ⟨h.depth_eq s (List.mem_append_left _ hs), h.right_le s (by simpa using hs)⟩
    · rw [List.mem_singleton] at hs
      subst hs
      exact ⟨h.depth_eq last (by simp), hi'⟩

lemma fetchLoop_opened (d : DatImpl α) (depth hi : ℕ) :
    ∀ (n i prev : ℕ) (sibs : List TreeNode), i + n ≤ d.table.length → i + n ≤ hi →
      Opened depth hi sibs → ∃ done sibs', d.fetchLoop depth n i prev sibs = .ok (done, sibs') ∧
        Opened depth hi sibs' := by
  intro n
  induction n with
  | zero => exact fun i prev sibs _ _ h => ⟨true, sibs, rfl, h⟩
  | succ n ih =>
    intro i prev sibs hin hhi h
    by_cases hshort : (word d.table i).length < depth
    · rw [fetchLoop_skip (by omega) hshort]
      exact ih (i + 1) prev sibs (by omega) (by omega) h
    · rw [fetchLoop_step (by omega) (not_lt.mp hshort)]
      split
      · exact ⟨false, sibs, rfl, h⟩
      · split
        · refine ih (i + 1) _ _ (by omega) (by omega) ⟨fun s hs => ?_, fun s hs => ?_⟩
          · rcases List.mem_append.mp hs with hs | hs
            · exact (h.close (i := i) (by omega) s hs).1
            · rw [List.mem_singleton] at hs
              rw [hs]
          · rw [List.dropLast_concat] at hs
            exact (h.close (by omega) s hs).2
        · exact ih (i + 1) _ sibs (by omega) (by omega) h

/-- On a range of words `_fetch_siblings` returns, and its nodes have ranges of words. -/
lemma fetchSiblings_total {d : DatImpl α} {nd : TreeNode} (hright : nd.right ≤ d.table.length) :
    ∃ n subs, d.fetchSiblings nd = .ok (n, subs) ∧
      (n ≠ 0 → ∀ s ∈ subs, s.depth = nd.depth + 1 ∧ s.right ≤ d.table.length) := by
  by_cases hne : nd.left < nd.right
  · obtain ⟨done, sibs, hloop, hopened⟩ := fetchLoop_opened d nd.depth nd.right
      (nd.right - nd.left) nd.left 0 [] (by omega) (by omega) ⟨by simp, by simp⟩
    rw [fetchSiblings, hloop]
    cases done with
    | false => exact ⟨0, sibs, rfl, fun h => absurd rfl h⟩
    | true =>
      refine ⟨_, _, rfl, fun _ s hs => ?_⟩
      obtain ⟨hdepth, hle⟩ := hopened.close le_rfl s hs
      exact ⟨hdepth, hle.trans hright⟩
  · rw [fetchSiblings, Nat.sub_eq_zero_of_le (not_lt.mp hne)]
    exact ⟨0, [], rfl, by simp⟩

/-- Every level of the recursion is one character deeper, and there is nothing below the longest
word. -/
lemma ends_of_right_le {d : DatImpl α} {M : ℕ} (hM : ∀ i, (word d.table i).length < M) :
    ∀ (D : ℕ) (sibs : List TreeNode),
      (∀ s ∈ sibs, s.right ≤ d.table.length ∧ M ≤ s.depth + D) →
      Ends d.fetchSiblings (D + 1) sibs := by
  intro D
  induction D with
  | zero =>
    intro sibs h
    have hleaf : ∀ s ∈ sibs, d.fetchSiblings s = .ok (0, []) := fun s hs =>
      fetchSiblings_of_short (h s hs).1 fun j _ _ => lt_of_lt_of_le (hM j) (h s hs).2
    refine .mk 0 sibs (fun s hs => ⟨_, hleaf s hs⟩) fun s hs n subs hn => ?_
    rw [hleaf s hs] at hn
    cases hn
  | succ D ih =>
    intro sibs h
    refine .mk (D + 1) sibs (fun s hs => ?_) fun s hs n subs hn => ?_
    · obtain ⟨n, subs, hfetch, -⟩ := fetchSiblings_total (h s hs).1
      exact ⟨_, hfetch⟩
    · obtain ⟨n', subs', hfetch, hsubs⟩ := fetchSiblings_total (h s hs).1
      rw [hn] at hfetch
      cases hfetch
      refine ih subs fun s' hs' => ?_
      obtain ⟨hdepth, hright⟩ := hsubs (Nat.succ_ne_zero n) s' hs'
      have := (h s hs).2
      exact ⟨hright, by omega⟩

lemma length_word_le (T : List (List ℕ)) (i : ℕ) :
    (word T i).length ≤ (T.map List.length).sum := by
  by_cases hi : i < T.length
  · exact List.le_sum_of_mem (List.mem_map_of_mem (word_mem hi))
  · rw [word, List.getD_eq_default _ _ (not_lt.mp hi)]
    exact Nat.zero_le _

/-! ## The result -/

/-- **First-fit insertion never overwrites.**  In a state where all cells in use are marked, an
insertion of siblings over ranges of words ends: it is stopped by a `resize` or by an index
outside the arrays, or it returns, and every call of the recursion leaves the cells that were in
use before it as they were, returns a `begin` that was free, and puts it into the cells of its
siblings and nowhere else.  The cells and the characters of the words together are more than the
loop and the recursion need. -/
theorem insert_firstFit {d : DatImpl α} (hd : Marked d) {sibs : List TreeNode}
    (hrange : ∀ s ∈ sibs, s.right ≤ d.dicts.length) :
    let N := d.size + (d.table.map List.length).sum + 2
    ∀ fuel n, N ≤ fuel → N ≤ n →
      insert noResize fuel n sibs d = .error .resize ∨
        insert noResize fuel n sibs d = .error .outOfBounds ∨
        (∃ b d', insert noResize fuel n sibs d = .ok (b, d')) ∧
          ∀ m sibs' e, Calls fuel n sibs d m sibs' e →
            ∃ b e', insert noResize fuel m sibs' e = .ok (b, e') ∧ FirstFit sibs' e b e' := by
  intro N fuel n hfuel hn
  set M := (d.table.map List.length).sum + 1 with hM
  have hends : Ends d.fetchSiblings (M + 1) sibs := by
    refine ends_of_right_le (fun i => Nat.lt_succ_of_le (length_word_le d.table i)) M sibs
      fun s hs => ⟨?_, by omega⟩
    rw [table, List.length_map]
    exact hrange s hs
  have hstop : ∀ e : Stop, e ≠ .outOfBounds → e ≠ .resize →
      insert noResize fuel n sibs d ≠ .error e := fun e he he' =>
    insert_ne_error he he' (M + 1) n sibs d hends (by omega) rfl hd (by omega)
  cases h : insert noResize fuel n sibs d with
  | error e =>
    cases e with
    | outOfBounds => exact Or.inr (Or.inl rfl)
    | resize => exact Or.inl rfl
    | exit => exact absurd h (hstop .exit (by decide) (by decide))
    | fuel => exact absurd h (hstop .fuel (by decide) (by decide))
  | ok r =>
    obtain ⟨b, d'⟩ := r
    refine Or.inr (Or.inr ⟨⟨b, d', rfl⟩, fun m sibs' e hcalls => ?_⟩)
    obtain ⟨hmarked, b', e', hins⟩ := hcalls.returns hd h
    exact ⟨b', e', hins, firstFit_of_insert hmarked hins⟩

/-- The siblings below the root over the words 1, 1 2 and 2, in arrays of 16 cells: the insertion
returns, and so do all its calls. -/
theorem insert_firstFit_three :
    let sibs : List TreeNode := [⟨1, 0, 2, 1⟩, ⟨1, 2, 3, 2⟩]
    let d : DatImpl ℤ := (new 16 0).addWords [[1], [1, 2], [2]]
    ∃ b d', insert noResize 25 25 sibs d = .ok (b, d') ∧ FirstFit sibs d b d' ∧
      ∀ m sibs' e, Calls 25 25 sibs d m sibs' e →
        ∃ b e', insert noResize 25 m sibs' e = .ok (b, e') ∧ FirstFit sibs' e b e' := by
  intro sibs d
  have hreturns : (insert noResize 25 25 sibs d).isOk = true := by decide +kernel
  rcases insert_firstFit (d := d) (fun _ hi => absurd rfl hi)
      (show ∀ s ∈ sibs, s.right ≤ d.dicts.length by decide) 25 25 (by decide) (by decide) with
    herr | herr | ⟨⟨b, d', hins⟩, hcalls⟩
  · rw [herr] at hreturns
    cases hreturns
  · rw [herr] at hreturns
    cases hreturns
  · obtain ⟨b', e', hself, hfit⟩ := hcalls _ _ _ (.self _ _ _)
    cases hins.symm.trans hself
    exact ⟨b, d', hins, hfit, hcalls⟩

end DatImpl
end Dat
end Sunet
