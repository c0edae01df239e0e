/-
# The pages of a search

`SearchStrategy::_process` cuts the ranked list into pages of 20 records.  The page comes from
the request and is not checked, and all numbers are of the type `int`: the model of an
operation has no result where it overflows.  A page of at least 1 lies inside the list when
the list has less than `2 ^ 31` records, and the pages of such a list are its records in order.
-/
import Sunet.Util.Numeral
import Sunet.Http.Parse

namespace Sunet

/-- `Request::get_page`. -/
def Http.Request.getPage (req : Http.Request) : ℤ :=
  match req.params[bytes "p"]? with
  | none => 1
  | some p => atoi p

namespace Plugin

/-- `PAGE_RESULT_CNT`. -/
abbrev pageResultCnt : ℤ := 20

/-- The variables for the page. -/
structure PageVars where
  totCnt : ℤ
  pageCnt : ℤ
  nxtPage : ℤ
  befPage : ℤ
  beginRecordIndex : ℤ
  endRecordIndex : ℤ
deriving DecidableEq, Repr

/-- `nxt_page`. -/
def nxtPage (pageCnt page : ℤ) : Option ℤ :=
  if page ≥ pageCnt then some pageCnt else checkInt (page + 1)

/-- `bef_page`. -/
def befPage (page : ℤ) : Option ℤ := if page > 1 then checkInt (page - 1) else some 1

/-- `end_record_index`. -/
def endRecordIndex (totCnt pageCnt page : ℤ) : Option ℤ :=
  if page ≥ pageCnt then some totCnt else checkInt (page * pageResultCnt)

/-- The statements that compute the variables from the number of results and the page of the
request, or `none` when one of them overflows. -/
def pageVars (size : ℕ) (page : ℤ) : Option PageVars := do
  let totCnt := wrapInt size
  let last ← checkInt (totCnt - 1)
  let pageCnt ← checkInt (last.tdiv pageResultCnt + 1)
  -- the page is not bounded from below
  let page := if page > pageCnt then pageCnt else page
  let nxt ← nxtPage pageCnt page
  let bef ← befPage page
  let before ← checkInt (page - 1)
  let beginIndex ← checkInt (before * pageResultCnt)
  let endIndex ← endRecordIndex totCnt pageCnt page
  some ⟨totCnt, pageCnt, nxt, bef, beginIndex, endIndex⟩

/-- The loop over the records from the index `i` on: it ends at the end of the list or at the
index `stop`, which it compares for equality. -/
def recordLoop {α : Type} : List α → ℤ → ℤ → List α
  | [], _, _ => []
  | r :: rest, i, stop => if i = stop then [] else r :: recordLoop rest (i + 1) stop

/-- The variables for a page and the records the loop walks over, or `none` when it starts
outside the list. -/
def pageOf {α : Type} (vec : List α) (page : ℤ) : Option (PageVars × List α) := do
  let v ← pageVars vec.length page
  if 0 ≤ v.beginRecordIndex ∧ v.beginRecordIndex ≤ vec.length then
    some (v, recordLoop (vec.drop v.beginRecordIndex.toNat) v.beginRecordIndex v.endRecordIndex)
  else none

/-! ## The record range -/

/-- The number of pages: one page for an empty list. -/
def pages (size : ℕ) : ℕ := (size - 1) / 20 + 1

lemma tdiv_pages (size : ℕ) : ((size : ℤ) - 1).tdiv pageResultCnt + 1 = pages size := by
  rw [pages]
  cases size with
  | zero => rfl
  | succ n =>
    have hn : ((n + 1 : ℕ) : ℤ) - 1 = n := by omega
    rw [hn, Int.natCast_tdiv_eq_ediv, Nat.add_sub_cancel]
    rfl

lemma size_le_pages (size : ℕ) : size ≤ 20 * pages size ∧ 20 * (pages size - 1) ≤ size := by
  rw [pages]
  omega

/-- What the variables are for a page of at least 1. -/
lemma pageVars_eq {size : ℕ} (hsize : size < 2 ^ 31) {page : ℤ} (hpage : 1 ≤ page) :
    pageVars size page = some
      { totCnt := size
        pageCnt := pages size
        nxtPage := min (min page (pages size) + 1) (pages size)
        befPage := max (min page (pages size) - 1) 1
        beginRecordIndex := 20 * (min page (pages size) - 1)
        endRecordIndex := min (20 * min page (pages size)) size } := by
  obtain ⟨hle, hge⟩ := size_le_pages size
  have htot : wrapInt size = size := isInt_of_lt hsize
  have hpos : 1 ≤ pages size := Nat.le_add_left 1 _
  have hclamp : (if page > pages size then (pages size : ℤ) else page) = min page (pages size) := by
    split <;> omega
  simp only [pageVars, htot, checkInt_of_bounds (show -2 ^ 31 ≤ (size : ℤ) - 1 by omega) (by omega),
    Option.bind_eq_bind, Option.bind_some, tdiv_pages,
    checkInt_of_bounds (show -2 ^ 31 ≤ (pages size : ℤ) by omega) (by omega), hclamp]
  -- from here on only the bounds of the page in range count
  generalize hm : min page (pages size : ℤ) = m
  have hm1 : 1 ≤ m := by omega
  have hm2 : m ≤ pages size := by omega
  have hmul : ∀ k : ℤ, k * pageResultCnt = 20 * k := fun k => mul_comm k 20
  have hnxt : nxtPage (pages size) m = some (min (m + 1) (pages size)) := by
    rw [nxtPage]
    split
    · exact congrArg some (by omega)
    · rw [checkInt_of_bounds (by omega) (by omega)]
      exact congrArg some (by omega)
  have hbef : befPage m = some (max (m - 1) 1) := by
    rw [befPage]
    split
    · rw [checkInt_of_bounds (by omega) (by omega)]
      exact congrArg some (by omega)
    · exact congrArg some (by omega)
  have hend : endRecordIndex size (pages size) m = some (min (20 * m) size) := by
    rw [endRecordIndex, hmul]
    split
    · exact congrArg some (by omega)
    · rw [checkInt_of_bounds (by omega) (by omega)]
      exact congrArg some (by omega)
  simp only [hnxt, hbef, hend, checkInt_of_bounds (show -2 ^ 31 ≤ m - 1 by omega) (by omega),
    Option.bind_some, hmul,
    checkInt_of_bounds (show -2 ^ 31 ≤ 20 * (m - 1) by omega) (by omega)]

/-- The steps of a run that computes the variables. -/
lemma pageVars_eq_some {size : ℕ} {page : ℤ} {v : PageVars} (h : pageVars size page = some v) :
    v.totCnt = wrapInt size ∧ v.pageCnt = (v.totCnt - 1).tdiv pageResultCnt + 1 ∧
      v.beginRecordIndex = 20 * ((if page > v.pageCnt then v.pageCnt else page) - 1) := by
  simp only [pageVars, Option.bind_eq_bind, Option.bind_eq_some_iff] at h
  obtain ⟨last, hlast, pageCnt, hcnt, nxt, -, bef, -, before, hbefore, beg, hbeg, fin, -, hv⟩ := h
  obtain ⟨hlast, -⟩ := checkInt_eq_some.mp hlast
  obtain ⟨hcnt, -⟩ := checkInt_eq_some.mp hcnt
  obtain ⟨hbefore, -⟩ := checkInt_eq_some.mp hbefore
  obtain ⟨hbeg, -⟩ := checkInt_eq_some.mp hbeg
  rw [← Option.some.inj hv]
  dsimp only
  rw [hlast, hcnt]
  refine ⟨rfl, rfl, ?_⟩
  rw [← hbeg, ← hbefore, mul_comm]

/-- The range that the loop over the records walks lies inside the list of results, and no
operation that computes it overflows. -/
def RangeInside (size : ℕ) (page : ℤ) : Prop :=
  ∃ v, pageVars size page = some v ∧ v.totCnt = size ∧ 0 ≤ v.beginRecordIndex ∧
    v.beginRecordIndex ≤ v.endRecordIndex ∧ v.endRecordIndex ≤ v.totCnt

/-- The first record of a page that is not positive would lie before the list. -/
lemma beginRecordIndex_neg {size : ℕ} {page : ℤ} (hpage : page < 1) {v : PageVars}
    (h : pageVars size page = some v) : v.beginRecordIndex < 0 := by
  obtain ⟨-, -, hbeg⟩ := pageVars_eq_some h
  have hclamp : (if page > v.pageCnt then v.pageCnt else page) < 1 := by
    split <;> omega
  omega

/-- **The record range lies inside the list of results** exactly for pages of at least 1 and
lists of less than `2 ^ 31` results. -/
theorem rangeInside_iff (size : ℕ) (req : Http.Request) :
    RangeInside size req.getPage ↔ 1 ≤ req.getPage ∧ size < 2 ^ 31 := by
  constructor
  · rintro ⟨v, hv, htot, hbeg, -, -⟩
    refine ⟨?_, ?_⟩
    · by_contra hpage
      have := beginRecordIndex_neg (by omega) hv
      omega
    · -- the number of results is the value of an `int`
      have hint := (pageVars_eq_some hv).1
      rw [htot] at hint
      obtain ⟨-, hlt⟩ := (show IsInt size from hint.symm).bounds
      omega
  · rintro ⟨hpage, hsize⟩
    obtain ⟨hle, hge⟩ := size_le_pages size
    have hpos : 1 ≤ pages size := Nat.le_add_left 1 _
    refine ⟨_, pageVars_eq hsize hpage, rfl, ?_, ?_, ?_⟩
    · show 0 ≤ 20 * (min req.getPage (pages size) - 1)
      omega
    · show 20 * (min req.getPage (pages size) - 1) ≤ min (20 * min req.getPage (pages size)) size
      omega
    · show min (20 * min req.getPage (pages size)) size ≤ size
      omega

/-- The request for the page 0. -/
theorem not_rangeInside : ¬ ∀ (size : ℕ) (req : Http.Request), RangeInside size req.getPage := by
  intro h
  let req : Http.Request :=
    { Http.Request.new with
      params := (∅ : Std.ExtTreeMap Bytes Bytes).insert (bytes "p") (bytes "0") }
  have hpage : req.getPage = 0 := by
    rw [Http.Request.getPage, Std.ExtTreeMap.getElem?_insert_self]
    decide
  obtain ⟨v, hv, -, hbegin, -⟩ := h 0 req
  rw [hpage] at hv
  exact absurd hbegin (not_le.mpr (beginRecordIndex_neg (by decide) hv))

/-! ## The pages of a list -/

lemma recordLoop_eq {α : Type} (rest : List α) {i stop : ℤ} (h : i ≤ stop) :
    recordLoop rest i stop = rest.take (stop - i).toNat := by
  induction rest generalizing i with
  | nil => rw [recordLoop, List.take_nil]
  | cons r rest ih =>
    rw [recordLoop]
    split
    · next heq => rw [heq, sub_self, Int.toNat_zero, List.take_zero]
    · next hne =>
      have hstop : (stop - i).toNat = (stop - (i + 1)).toNat + 1 := by omega
      rw [hstop, List.take_succ_cons, ih (by omega)]

/-- The records of a page. -/
def pageRecords {α : Type} (vec : List α) (k : ℕ) : List α := (vec.drop (20 * (k - 1))).take 20

/-- The answer for a page between the first and the last. -/
def answer {α : Type} (vec : List α) (k : ℕ) : PageVars × List α :=
  ({ totCnt := vec.length
     pageCnt := pages vec.length
     nxtPage := min (k + 1) (pages vec.length)
     befPage := max (k - 1) 1
     beginRecordIndex := 20 * (k - 1)
     endRecordIndex := min (20 * k) vec.length }, pageRecords vec k)

/-- What is answered for a page of at least 1: the page, or the last page when there are fewer. -/
lemma pageOf_eq {α : Type} {vec : List α} (hsize : vec.length < 2 ^ 31) {page : ℤ}
    (hpage : 1 ≤ page) {k : ℕ} (hk : (k : ℤ) = min page (pages vec.length)) :
    pageOf vec page = some (answer vec k) := by
  obtain ⟨hle, hge⟩ := size_le_pages vec.length
  have hpos : 1 ≤ pages vec.length := Nat.le_add_left 1 _
  have hbegin : (20 * ((k : ℤ) - 1)).toNat = 20 * (k - 1) := by omega
  have hrecords : recordLoop (vec.drop (20 * (k - 1))) (20 * (k - 1)) (min (20 * k) vec.length) =
      pageRecords vec k := by
    rw [recordLoop_eq _ (by omega), pageRecords, List.take_eq_take_iff, List.length_drop]
    omega
  simp only [pageOf, pageVars_eq hsize hpage, ← hk, Option.bind_eq_bind, Option.bind_some, hbegin,
    hrecords]
  exact if_pos ⟨by omega, by omega⟩

/-- The pages one after the other are the list. -/
lemma flatMap_pageRecords {α : Type} (vec : List α) (n : ℕ) :
    (List.range' 1 n).flatMap (pageRecords vec) = vec.take (20 * n) := by
  induction n with
  | zero => rfl
  | succ n ih =>
    have hlast : pageRecords vec (1 + n) = (vec.drop (20 * n)).take 20 := by
      rw [pageRecords, Nat.add_sub_cancel_left]
    rw [List.range'_1_concat, List.flatMap_append, ih, List.flatMap_singleton, hlast, Nat.mul_succ,
      List.take_add]

/-! ## The walk along the links -/

/-- The pages that are visited from `p` on by following a link until it does not change the
page any more. -/
def visit (link : ℤ → Option ℤ) : ℕ → ℤ → List ℤ
  | 0, p => [p]
  | n + 1, p =>
    match link p with
    | none => [p]
    | some q => if q = p then [p] else p :: visit link n q

lemma visit_up {link : ℤ → Option ℤ} {tot : ℕ}
    (h : ∀ k : ℕ, 1 ≤ k → k ≤ tot → link k = some (min (k + 1) tot : ℤ)) :
    ∀ n k : ℕ, 1 ≤ k → k ≤ tot → tot - k ≤ n →
      visit link n k = (List.range' k (tot + 1 - k)).map Nat.cast := by
  intro n
  induction n with
  | zero =>
    intro k _ hk hn
    obtain rfl : k = tot := by omega
    rw [visit, Nat.add_sub_cancel_left]
    rfl
  | succ n ih =>
    intro k hk1 hk hn
    rw [visit, h k hk1 hk]
    rcases Nat.eq_or_lt_of_le hk with rfl | hlt
    · have hmin : min ((k : ℤ) + 1) k = k := by omega
      simp only [hmin, if_true, Nat.add_sub_cancel_left]
      rfl
    · have hmin : min ((k : ℤ) + 1) tot = (k + 1 : ℕ) := by omega
      have hne : ((k + 1 : ℕ) : ℤ) ≠ k := by omega
      have hlen : tot + 1 - k = tot + 1 - (k + 1) + 1 := by omega
      simp only [hmin, hne, if_false]
      rw [ih (k + 1) (by omega) hlt (by omega), hlen, List.range'_succ, List.map_cons]

lemma visit_down {link : ℤ → Option ℤ} {tot : ℕ}
    (h : ∀ k : ℕ, 1 ≤ k → k ≤ tot → link k = some (max (k - 1) 1 : ℤ)) :
    ∀ n k : ℕ, 1 ≤ k → k ≤ tot → k - 1 ≤ n →
      visit link n k = ((List.range' 1 k).map Nat.cast).reverse := by
  intro n
  induction n with
  | zero =>
    intro k hk1 _ hn
    obtain rfl : k = 1 := by omega
    rfl
  | succ n ih =>
    intro k hk1 hk hn
    rw [visit, h k hk1 hk]
    rcases Nat.eq_or_lt_of_le hk1 with rfl | hlt
    · rfl
    · obtain ⟨j, rfl⟩ : ∃ j, k = j + 1 := ⟨k - 1, by omega⟩
      have hmax : max (((j + 1 : ℕ) : ℤ) - 1) 1 = j := by omega
      have hne : (j : ℤ) ≠ (j + 1 : ℕ) := by omega
      simp only [hmax, hne, if_false]
      rw [ih j (by omega) (by omega) (by omega), List.range'_1_concat, List.map_append,
        List.reverse_append, Nat.add_comm 1 j]
      rfl

/-! ## The partition -/

/-- The answers for the pages 1 to `tot` of a ranked list cut it into pages, and their links
lead from the first to the last page and back. -/
structure Partitioned {α : Type} (vec : List α) (tot : ℕ) (page : ℕ → PageVars × List α) :
    Prop where
  pos : 1 ≤ tot
  answer : ∀ k : ℕ, 1 ≤ k → k ≤ tot → pageOf vec k = some (page k)
  pageCnt_eq : ∀ k, 1 ≤ k → k ≤ tot → (page k).1.pageCnt = tot
  concat : (List.range' 1 tot).flatMap (fun k => (page k).2) = vec
  length_le : ∀ k, 1 ≤ k → k ≤ tot → (page k).2.length ≤ 20
  length_eq : ∀ k, 1 ≤ k → k < tot → (page k).2.length = 20
  above : ∀ p : ℤ, tot < p → pageOf vec p = some (page tot)
  forth : ∀ n, tot ≤ n → visit (fun p => (pageOf vec p).map fun r => r.1.nxtPage) n 1 =
    (List.range' 1 tot).map Nat.cast
  back : ∀ n, tot ≤ n → visit (fun p => (pageOf vec p).map fun r => r.1.befPage) n tot =
    ((List.range' 1 tot).map Nat.cast).reverse

lemma partitioned_answer {α : Type} {vec : List α} (hsize : vec.length < 2 ^ 31) :
    Partitioned vec (pages vec.length) (answer vec) := by
  obtain ⟨hle, hge⟩ := size_le_pages vec.length
  have hpos : 1 ≤ pages vec.length := Nat.le_add_left 1 _
  have hanswer : ∀ k : ℕ, 1 ≤ k → k ≤ pages vec.length → pageOf vec k = some (answer vec k) :=
    fun k hk1 hk => pageOf_eq hsize (by omega) (by omega)
  refine ⟨hpos, hanswer, fun _ _ _ => rfl, ?_, ?_, ?_, ?_, ?_, ?_⟩
  · exact (flatMap_pageRecords vec _).trans (List.take_of_length_le hle)
  · intro k _ _
    exact List.length_take_le _ _
  · intro k hk1 hk
    show (pageRecords vec k).length = 20
    rw [pageRecords, List.length_take, List.length_drop]
    omega
  · exact fun p hp => pageOf_eq hsize (by omega) (by omega)
  · intro n hn
    refine (visit_up ?_ n 1 le_rfl hpos (by omega)).trans ?_
    · intro k hk1 hk
      rw [hanswer k hk1 hk]
      rfl
    · rw [Nat.add_sub_cancel]
  · intro n hn
    refine visit_down ?_ n _ hpos le_rfl (by omega)
    intro k hk1 hk
    rw [hanswer k hk1 hk]
    rfl

/-- The number of pages is computed from the number of results as an `int`. -/
lemma Partitioned.length_lt {α : Type} {vec : List α} {tot : ℕ} {page : ℕ → PageVars × List α}
    (h : Partitioned vec tot page) : vec.length < 2 ^ 31 := by
  have hlen : vec.length ≤ 20 * tot := by
    have hsum : ((List.range' 1 tot).map fun k => (page k).2.length).sum ≤
        ((List.range' 1 tot).map fun k => (page k).2.length).length • 20 := by
      refine List.sum_le_card_nsmul _ _ fun n hn => ?_
      obtain ⟨k, hk, rfl⟩ := List.mem_map.mp hn
      rw [List.mem_range'_1] at hk
      exact h.length_le k hk.1 (by omega)
    rw [List.length_map, List.length_range', smul_eq_mul, mul_comm] at hsum
    calc vec.length = ((List.range' 1 tot).flatMap fun k => (page k).2).length := by rw [h.concat]
      _ = ((List.range' 1 tot).map fun k => (page k).2.length).sum := List.length_flatMap
      _ ≤ 20 * tot := hsum
  have hfirst := h.answer 1 le_rfl h.pos
  simp only [pageOf, Option.bind_eq_bind, Option.bind_eq_some_iff] at hfirst
  obtain ⟨v, hv, hif⟩ := hfirst
  -- the number of pages that the first page tells
  have hcnt : v.pageCnt = tot := by
    split at hif
    · rw [← h.pageCnt_eq 1 le_rfl h.pos, ← Option.some.inj hif]
    · cases hif
  obtain ⟨htot, hpages, -⟩ := pageVars_eq_some hv
  rw [hcnt, htot] at hpages
  obtain ⟨k, hk⟩ := wrapInt_eq_sub vec.length
  obtain ⟨hlow, hhigh⟩ := (isInt_wrapInt vec.length).bounds
  generalize wrapInt vec.length = w at *
  by_contra hge
  rcases le_or_gt w 0 with hneg | hpos
  · -- a count that is not positive gives one page
    have hdiv : (w - 1).tdiv pageResultCnt ≤ 0 := by
      rw [show w - 1 = -(1 - w) by omega, Int.neg_tdiv]
      have := Int.tdiv_nonneg (show 0 ≤ 1 - w by omega) (show (0 : ℤ) ≤ pageResultCnt by decide)
      omega
    omega
  · rw [Int.tdiv_eq_ediv_of_nonneg (by omega)] at hpages
    have hdiv : 20 * ((w - 1) / 20) ≤ w - 1 := Int.mul_ediv_self_le (by norm_num)
    have hpages' : (tot : ℤ) = (w - 1) / 20 + 1 := hpages
    omega

/-- **The pages of a ranked list partition it** exactly when the number of its records is an
`int`. -/
theorem partitioned_iff {α : Type} (vec : List α) :
    (∃ tot page, Partitioned vec tot page) ↔ vec.length < 2 ^ 31 := by
  constructor
  · rintro ⟨tot, page, h⟩
    exact h.length_lt
  · intro hsize
    exact ⟨_, _, partitioned_answer hsize⟩

/-- A list with a record for each document from 0 to `2 ^ 31 - 1`. -/
theorem not_partitioned :
    ¬ ∀ vec : List (ℤ × ℚ), ∃ tot page, Partitioned vec tot page := by
  intro h
  obtain ⟨tot, page, hpart⟩ :=
    h ((List.range (2 ^ 31)).map fun id : ℕ => ((id : ℤ), (0 : ℚ)))
  have hlt := hpart.length_lt
  rw [List.length_map, List.length_range] at hlt
  exact lt_irrefl _ hlt

end Plugin
end Sunet
