/-
# Messages on a stream

A stream is the text of messages one after the other, and a reader takes one message off its
front.  When it takes off what was written, whatever follows, and waits for the rest of a
message that is not there yet, the messages of a stream arrive as they were written, however
the stream is cut into pieces on its way.
-/
import Mathlib.Tactic

namespace Sunet
namespace Frames

variable {α β : Type} {read : List α → Option (β × List α)} {write : β → List α}

/-- The reader takes the message off the front of every stream that begins with it. -/
def Reads (read : List α → Option (β × List α)) (write : β → List α) (x : β) : Prop :=
  ∀ rest, read (write x ++ rest) = some (x, rest)

/-- The reader takes nothing off a proper beginning of the message. -/
def Waits (read : List α → Option (β × List α)) (write : β → List α) (x : β) : Prop :=
  ∀ p, p <+: write x → p ≠ write x → read p = none

/-- The messages that can be taken off, at most so many, and what is left of the stream. -/
def readSome (read : List α → Option (β × List α)) : ℕ → List α → List β × List α
  | 0, s => ([], s)
  | n + 1, s =>
    match read s with
    | none => ([], s)
    | some (x, rest) => (x :: (readSome read n rest).1, (readSome read n rest).2)

/-- A client that has read messages and keeps what is left, when a piece of the stream arrives. -/
def feed (read : List α → Option (β × List α)) (st : List β × List α) (piece : List α) :
    List β × List α :=
  let r := readSome read (st.2 ++ piece).length (st.2 ++ piece)
  (st.1 ++ r.1, r.2)

/-- The part of a message that is left: nothing, or a proper beginning of the next one. -/
def Partial (write : β → List α) (xs : List β) (left : List α) : Prop :=
  left = [] ∨ ∃ x, xs.head? = some x ∧ left <+: write x ∧ left ≠ write x

/-- The first message that is taken off. -/
lemma readSome_eq_cons {n : ℕ} {s : List α} {x : β} {xs : List β}
    (h : (readSome read n s).1 = x :: xs) :
    ∃ m rest, read s = some (x, rest) ∧ (readSome read m rest).1 = xs := by
  cases n with
  | zero => cases h
  | succ n =>
    rw [readSome] at h
    cases hread : read s with
    | none =>
      rw [hread] at h
      cases h
    | some r =>
      rw [hread] at h
      obtain ⟨rfl, hxs⟩ := List.cons.inj h
      exact ⟨n, r.2, rfl, hxs⟩

lemma Reads.write_ne_nil {x : β} (hx : Reads read write x) (hnil : read [] = none) :
    write x ≠ [] := by
  intro h
  have hread := hx []
  rw [h, List.append_nil, hnil] at hread
  cases hread

/-- A beginning of a stream is made of the first messages and a part of the next one. -/
lemma exists_take_of_prefix {xs : List β} {p : List α} (hp : p <+: xs.flatMap write) :
    ∃ k left, k ≤ xs.length ∧ p = (xs.take k).flatMap write ++ left ∧
      Partial write (xs.drop k) left := by
  induction xs generalizing p with
  | nil =>
    rw [List.flatMap_nil, List.prefix_nil] at hp
    exact ⟨0, [], le_rfl, hp, Or.inl rfl⟩
  | cons x xs ih =>
    rw [List.flatMap_cons] at hp
    rcases le_or_gt (write x).length p.length with hle | hlt
    · obtain ⟨p', rfl⟩ := List.prefix_of_prefix_length_le (List.prefix_append _ _) hp hle
      obtain ⟨k, left, hk, rfl, hleft⟩ := ih ((List.prefix_append_right_inj _).mp hp)
      exact ⟨k + 1, left, Nat.succ_le_succ hk, by simp, hleft⟩
    · have hpre := List.prefix_of_prefix_length_le hp (List.prefix_append _ _) hlt.le
      refine ⟨0, p, Nat.zero_le _, rfl, Or.inr ⟨x, rfl, hpre, ?_⟩⟩
      rintro rfl
      exact lt_irrefl _ hlt

section stream

variable {xs : List β} (hreads : ∀ x ∈ xs, Reads read write x) (hnil : read [] = none)

include hreads hnil

lemma length_le_flatMap : xs.length ≤ (xs.flatMap write).length := by
  induction xs with
  | nil => exact le_rfl
  | cons x xs ih =>
    have hrest := ih fun y hy => hreads y (List.mem_cons_of_mem _ hy)
    have hpos := List.length_pos_of_ne_nil ((hreads x List.mem_cons_self).write_ne_nil hnil)
    rw [List.flatMap_cons, List.length_cons, List.length_append]
    omega

variable (hwaits : ∀ x ∈ xs, Waits read write x)

include hwaits

/-- Of the beginning of a stream the messages are taken off that are there as a whole. -/
lemma readSome_take {k : ℕ} {left : List α} (hk : k ≤ xs.length)
    (hleft : Partial write (xs.drop k) left) {n : ℕ} (hn : k ≤ n) :
    readSome read n ((xs.take k).flatMap write ++ left) = (xs.take k, left) := by
  induction k generalizing xs n with
  | zero =>
    have hnone : read left = none := by
      rcases hleft with rfl | ⟨x, hx, hpre, hne⟩
      · exact hnil
      · exact hwaits x (List.mem_of_mem_head? hx) left hpre hne
    cases n with
    | zero => rfl
    | succ n =>
      show readSome read (n + 1) left = ([], left)
      rw [readSome, hnone]
  | succ k ih =>
    obtain ⟨n, rfl⟩ : ∃ m, n = m + 1 := ⟨n - 1, by omega⟩
    cases xs with
    | nil => exact absurd hk (Nat.not_succ_le_zero k)
    | cons x xs =>
      have hrest := ih (fun y hy => hreads y (List.mem_cons_of_mem _ hy))
        (fun y hy => hwaits y (List.mem_cons_of_mem _ hy)) (Nat.le_of_succ_le_succ hk) hleft
        (Nat.le_of_succ_le_succ hn)
      rw [List.take_succ_cons, List.flatMap_cons, List.append_assoc, readSome,
        hreads x List.mem_cons_self]
      simp only [hrest]

/-- What a client has when a beginning of the stream has arrived. -/
def Arrived (write : β → List α) (xs : List β) (p : List α) (st : List β × List α) : Prop :=
  ∃ k, k ≤ xs.length ∧ st.1 = xs.take k ∧ p = st.1.flatMap write ++ st.2 ∧
    Partial write (xs.drop k) st.2

/-- One more piece. -/
lemma Arrived.feed {p piece : List α} {st : List β × List α} (h : Arrived write xs p st)
    (hpre : p ++ piece <+: xs.flatMap write) :
    Arrived write xs (p ++ piece) (feed read st piece) := by
  obtain ⟨k, hk, hread, rfl, -⟩ := h
  obtain ⟨msgs, left⟩ := st
  change msgs = xs.take k at hread
  subst hread
  -- what is left and the piece are a beginning of the rest of the stream
  have hrest : left ++ piece <+: (xs.drop k).flatMap write := by
    conv at hpre => rhs; rw [← List.take_append_drop k xs, List.flatMap_append]
    rw [List.append_assoc, List.prefix_append_right_inj] at hpre
    exact hpre
  obtain ⟨j, left', hj, heq, hleft'⟩ := exists_take_of_prefix hrest
  have hreads' : ∀ x ∈ xs.drop k, Reads read write x := fun x hx => hreads x (List.mem_of_mem_drop hx)
  have hfuel : j ≤ (left ++ piece).length := by
    have hle := length_le_flatMap (fun x hx => hreads' x (List.mem_of_mem_take (i := j) hx)) hnil
    rw [List.length_take, min_eq_left hj] at hle
    rw [heq, List.length_append]
    omega
  have hrun := readSome_take hreads' hnil (fun x hx => hwaits x (List.mem_of_mem_drop hx)) hj hleft'
    hfuel
  rw [← heq] at hrun
  rw [List.length_drop] at hj
  refine ⟨k + j, by omega, ?_, ?_, ?_⟩
  · show xs.take k ++ (readSome read _ (left ++ piece)).1 = _
    rw [hrun, List.take_add]
  · show _ = (xs.take k ++ (readSome read _ (left ++ piece)).1).flatMap write ++
      (readSome read _ (left ++ piece)).2
    rw [hrun, List.flatMap_append, List.append_assoc, List.append_assoc, ← heq]
  · show Partial write _ (readSome read _ (left ++ piece)).2
    rw [hrun, ← List.drop_drop]
    exact hleft'

/-- A beginning of the stream in pieces, by induction on their list. -/
lemma arrived_pieces (pieces : List (List α)) (hpre : pieces.flatten <+: xs.flatMap write) :
    Arrived write xs pieces.flatten (pieces.foldl (Frames.feed read) ([], [])) := by
  induction pieces using List.reverseRecOn with
  | nil => exact ⟨0, Nat.zero_le _, rfl, rfl, Or.inl rfl⟩
  | append_singleton pieces piece ih =>
    rw [List.flatten_append, List.flatten_singleton] at hpre ⊢
    rw [List.foldl_append]
    exact (ih ((List.prefix_append _ _).trans hpre)).feed hreads hnil hwaits hpre

/-- **The messages of a stream arrive** in whatever pieces it comes. -/
theorem feed_pieces {pieces : List (List α)} (hall : pieces.flatten = xs.flatMap write) :
    pieces.foldl (Frames.feed read) ([], []) = (xs, []) := by
  obtain ⟨k, hk, hread, heq, hleft⟩ :=
    arrived_pieces hreads hnil hwaits pieces (by rw [hall])
  generalize pieces.foldl (Frames.feed read) ([], []) = st at *
  obtain ⟨msgs, left⟩ := st
  change msgs = xs.take k at hread
  subst hread
  -- nothing of the stream is missing, so no message is
  have hrest : (xs.drop k).flatMap write = left := by
    rw [hall] at heq
    conv at heq => lhs; rw [← List.take_append_drop k xs, List.flatMap_append]
    exact List.append_cancel_left heq
  have hdrop : xs.drop k = [] := by
    cases hd : xs.drop k with
    | nil => rfl
    | cons x rest =>
      have hx := hreads x (List.mem_of_mem_drop (hd ▸ List.mem_cons_self))
      rw [hd, List.flatMap_cons] at hrest
      rcases hleft with hnil' | ⟨y, hy, hpre, hne⟩
      · change left = [] at hnil'
        rw [hnil', List.append_eq_nil_iff] at hrest
        exact absurd hrest.1 (hx.write_ne_nil hnil)
      · rw [hd, List.head?_cons, Option.some.injEq] at hy
        subst hy
        have hlen := hpre.length_le
        refine absurd (hpre.eq_of_length ?_) hne
        rw [← hrest, List.length_append] at hlen ⊢
        omega
  rw [hdrop, List.flatMap_nil] at hrest
  rw [List.drop_eq_nil_iff] at hdrop
  rw [List.take_of_length_le hdrop, ← hrest]

end stream

end Frames
end Sunet
