/-
# The query of a request line

The round trip of `key=value` pairs through the percent coder, the three nested calls of
`split` and the scanner of `_parse_desc`.
-/
import Sunet.Http.Line

namespace Sunet
namespace Http

open Byte StringUtil

/-- `key=value` with the value encoded. -/
def queryField (kv : Bytes × Bytes) : Bytes := kv.1 ++ eqSign :: encode kv.2

/-- The fields joined by `&`. -/
def queryString (pairs : List (Bytes × Bytes)) : Bytes :=
  [amp].intercalate (pairs.map queryField)

/-- The request line for a method, a path, the pairs and a version, with its end of line. -/
def queryLine (m p : Bytes) (pairs : List (Bytes × Bytes)) (v : Bytes) : Bytes :=
  m ++ [sp] ++ p ++ [qmark] ++ queryString pairs ++ [sp] ++ v ++ [cr, lf]

/-- The bytes that a key may not have. -/
def IsKey (k : Bytes) : Prop :=
  amp ∉ k ∧ eqSign ∉ k ∧ qmark ∉ k ∧ sp ∉ k ∧ cr ∉ k ∧ nul ∉ k

instance : DecidablePred IsKey := fun k => by
  unfold IsKey
  infer_instance

lemma notMem_queryField {kv : Bytes × Bytes} {b : Byte} (hk : b ∉ kv.1) (heq : b ≠ eqSign)
    (hplain : ¬ isPlain b) (hpct : b ≠ percent) : b ∉ queryField kv := by
  rw [queryField, List.mem_append, List.mem_cons, not_or, not_or]
  exact ⟨hk, heq, notMem_encode hplain hpct⟩

lemma notMem_queryString {pairs : List (Bytes × Bytes)} {b : Byte}
    (hk : ∀ kv ∈ pairs, b ∉ kv.1) (heq : b ≠ eqSign) (hamp : b ≠ amp)
    (hplain : ¬ isPlain b) (hpct : b ≠ percent) : b ∉ queryString pairs := by
  rw [queryString]
  induction pairs with
  | nil => simp
  | cons kv pairs ih =>
    have hfield := notMem_queryField (hk kv (by simp)) heq hplain hpct
    cases pairs with
    | nil => simpa using hfield
    | cons kv' pairs =>
      have hrest := ih fun x hx => hk x (by simp [hx])
      rw [List.map_cons, List.map_cons, List.intercalate_cons_cons, List.mem_append,
        List.mem_append, List.mem_singleton, not_or, not_or]
      exact ⟨⟨hfield, hamp⟩, by simpa using hrest⟩

/-- A field does not end in a tab, whatever its key is. -/
lemma queryField_last (kv : Bytes × Bytes) : (queryField kv).getLast? ≠ some tab := by
  intro h
  rw [queryField, List.getLast?_append_cons] at h
  have hmem := List.mem_of_getLast? h
  rcases List.mem_cons.mp hmem with h | h
  · exact absurd h (by decide)
  · exact notMem_encode (by decide) (by decide) h

lemma queryString_last (pairs : List (Bytes × Bytes)) :
    (queryString pairs).getLast? ≠ some tab := by
  rw [queryString]
  induction pairs with
  | nil => simp
  | cons kv pairs ih =>
    cases pairs with
    | nil => simpa using queryField_last kv
    | cons kv' pairs =>
      have hne : [amp].intercalate ((kv' :: pairs).map queryField) ≠ [] := by
        cases pairs <;> simp [queryField]
      rw [List.map_cons, List.map_cons, List.intercalate_cons_cons, ← List.map_cons,
        List.getLast?_append_of_ne_nil _ hne]
      exact ih

/-- One pair is stored under its key. -/
lemma addParam_queryField (beyond : Byte) (params : Std.ExtTreeMap Bytes Bytes)
    {kv : Bytes × Bytes} (hk : eqSign ∉ kv.1) :
    addParam beyond params (queryField kv) = params.insert kv.1 kv.2 := by
  have hfield : queryField kv = [eqSign].intercalate [kv.1, encode kv.2] := by
    simp [queryField]
  have hsplit : split (queryField kv) [eqSign] = [kv.1, encode kv.2] := by
    have hlast := queryField_last kv
    rw [hfield] at hlast ⊢
    refine split_intercalate ?_ (by simp) hlast
    intro f hf
    simp only [List.mem_cons, List.not_mem_nil, or_false] at hf
    rcases hf with rfl | rfl
    · exact hk
    · exact notMem_encode (by decide) (by decide)
  rw [addParam, hsplit]
  simp only [decode_encode]

/-- The pairs of a query are stored in order. -/
lemma foldl_addParam (beyond : Byte) {pairs : List (Bytes × Bytes)}
    (hk : ∀ kv ∈ pairs, IsKey kv.1) (params : Std.ExtTreeMap Bytes Bytes) :
    (split (queryString pairs) [amp]).foldl (addParam beyond) params =
      pairs.foldl (fun ps kv => ps.insert kv.1 kv.2) params := by
  have hfold : ∀ ps, (pairs.map queryField).foldl (addParam beyond) ps =
      pairs.foldl (fun ps kv => ps.insert kv.1 kv.2) ps := by
    intro ps
    induction pairs generalizing ps with
    | nil => rfl
    | cons kv pairs ih =>
      rw [List.map_cons, List.foldl_cons, List.foldl_cons,
        addParam_queryField beyond ps (hk kv (by simp)).2.1]
      exact ih (fun x hx => hk x (by simp [hx])) _
  rw [← hfold params]
  congr 1
  cases pairs with
  | nil => simp [queryString]
  | cons kv pairs =>
    refine split_intercalate ?_ ?_ (queryString_last _)
    · intro f hf
      obtain ⟨x, hx, rfl⟩ := List.mem_map.mp hf
      exact notMem_queryField (hk x hx).1 (by decide) (by decide) (by decide)
    · cases pairs <;> simp [queryField]

/-- The URL of the line is cut at its question mark. -/
lemma readUrl_query (beyond : Byte) {p : Bytes} (hp : qmark ∉ p)
    {pairs : List (Bytes × Bytes)} (hk : ∀ kv ∈ pairs, IsKey kv.1) (req : Request) :
    readUrl beyond (p ++ qmark :: queryString pairs) req =
      some { req with
        url := p
        params := pairs.foldl (fun ps kv => ps.insert kv.1 kv.2) req.params } := by
  have hq : qmark ∉ queryString pairs :=
    notMem_queryString (fun kv hkv => (hk kv hkv).2.2.1) (by decide) (by decide) (by decide)
      (by decide)
  have hint : p ++ qmark :: queryString pairs =
      [qmark].intercalate [p, queryString pairs] := by
    simp
  have hsplit : split (p ++ qmark :: queryString pairs) [qmark] = [p, queryString pairs] := by
    rw [hint]
    refine split_intercalate ?_ (by simp) ?_
    · intro f hf
      simp only [List.mem_cons, List.not_mem_nil, or_false] at hf
      rcases hf with rfl | rfl
      · exact hp
      · exact hq
    · rw [← hint, List.getLast?_append_cons]
      intro h
      rcases List.eq_nil_or_concat (queryString pairs) with hnil | ⟨init, last, hcat⟩
      · rw [hnil] at h
        exact absurd h (by decide)
      · have hlast := queryString_last pairs
        rw [hcat, List.concat_eq_append, List.getLast?_concat] at hlast
        rw [hcat, List.concat_eq_append, ← List.cons_append, List.getLast?_concat] at h
        exact hlast h
  rw [readUrl, hsplit]
  simp only [foldl_addParam beyond hk]

/-- **A query comes back from its request line.**  The method, the path and the parameters
are those that the line was made of, the last value of a repeated key wins, and the value
returned is the length of the line. -/
theorem parseDesc_query (beyond : Byte) (m p : Bytes) (pairs : List (Bytes × Bytes))
    (v tail : Bytes) (hm : IsMethod m) (hp : qmark ∉ p ∧ sp ∉ p ∧ cr ∉ p ∧ nul ∉ p)
    (hk : ∀ kv ∈ pairs, IsKey kv.1) (hv : sp ∉ v ∧ cr ∉ v ∧ nul ∉ v) :
    ∃ req, parseDesc beyond (queryLine m p pairs v ++ tail ++ [nul]) Request.new =
        .ok (req, some (queryLine m p pairs v).length) ∧
      req.method = m ∧ req.url = p ∧
      req.params = pairs.foldl (fun ps kv => ps.insert kv.1 kv.2) Request.new.params := by
  obtain ⟨hpq, hpsp, hpcr, hpnul⟩ := hp
  obtain ⟨u, hu⟩ : ∃ u, u = p ++ qmark :: queryString pairs := ⟨_, rfl⟩
  have hrun : IsRun u := by
    constructor <;> rw [hu, List.mem_append, List.mem_cons, not_or, not_or]
    · exact ⟨hpsp, by decide, notMem_queryString (fun kv h => (hk kv h).2.2.2.1) (by decide)
        (by decide) (by decide) (by decide)⟩
    · exact ⟨hpcr, by decide, notMem_queryString (fun kv h => (hk kv h).2.2.2.2.1) (by decide)
        (by decide) (by decide) (by decide)⟩
  have hunul : nul ∉ u := by
    rw [hu, List.mem_append, List.mem_cons, not_or, not_or]
    exact ⟨hpnul, by decide, notMem_queryString (fun kv h => (hk kv h).2.2.2.2.2) (by decide)
      (by decide) (by decide) (by decide)⟩
  have hbuf : queryLine m p pairs v ++ tail ++ [nul] =
      m ++ sp :: (u ++ sp :: (v ++ cr :: (lf :: tail ++ [nul]))) := by
    simp [queryLine, hu]
  have hlen : (queryLine m p pairs v).length = m.length + 1 + u.length + 1 + v.length + 2 := by
    simp [queryLine, hu]
    omega
  obtain ⟨req, hreq⟩ : ∃ req : Request, req = { withMethod m Request.new with
    url := p
    params := pairs.foldl (fun ps kv => ps.insert kv.1 kv.2) Request.new.params } := ⟨_, rfl⟩
  have hurl : readUrl beyond (untilNul u) (withMethod m Request.new) = some req := by
    rw [untilNul_eq_self hunul, hu, hreq]
    exact readUrl_query beyond hpq hk _
  -- the version is taken from a place inside the line, though not always the right one
  have hsplit : m ++ sp :: (u ++ sp :: (v ++ cr :: (lf :: tail ++ [nul]))) =
      (m ++ sp :: (p ++ [qmark])) ++
        (queryString pairs ++ sp :: (v ++ cr :: (lf :: tail ++ [nul]))) := by
    simp [hu]
  have hpre : nul ∉ m ++ sp :: (p ++ [qmark]) := by
    simp only [List.mem_append, List.mem_cons, List.not_mem_nil, or_false, not_or]
    exact ⟨hm.nul_notMem, by decide, hpnul, by decide⟩
  have hpos : req.method.length + req.url.length + 2 = (m ++ sp :: (p ++ [qmark])).length := by
    simp [hreq, withMethod]
    omega
  have hrest : nul ∈ queryString pairs ++ sp :: (v ++ cr :: (lf :: tail ++ [nul])) := by simp
  obtain ⟨ver, hver⟩ := readVersion_ok hpre hrest hpos.le (v.countP (· ≠ sp))
  refine ⟨{ req with version := ver }, ?_, by rw [hreq]; rfl, by rw [hreq], by rw [hreq]⟩
  rw [hbuf, parseDesc_ver hm hrun hv.2.1 (by simp) hurl, hlen, hsplit, hver, Except.ok_bind]

theorem parseDesc_query_search :
    ∃ req, parseDesc 0 (bytes "GET /s?q=a%26b&q=%00 HTTP/1.1\r\nHost: x" ++ [nul]) Request.new =
        .ok (req, some 31) ∧
      req.url = bytes "/s" ∧ req.params[bytes "q"]? = some [0] := by
  obtain ⟨req, hparse, -, hurl, hparams⟩ := parseDesc_query 0 (bytes "GET") (bytes "/s")
    [(bytes "q", bytes "a&b"), (bytes "q", [0])] (bytes "HTTP/1.1") (bytes "Host: x")
    (by decide) (by decide) (by decide) (by decide)
  refine ⟨req, ?_, hurl, ?_⟩
  · have hline : queryLine (bytes "GET") (bytes "/s")
        [(bytes "q", bytes "a&b"), (bytes "q", [0])] (bytes "HTTP/1.1") =
        bytes "GET /s?q=a%26b&q=%00 HTTP/1.1\r\n" := by decide +kernel
    rw [hline] at hparse
    exact hparse
  · rw [hparams]
    decide

end Http
end Sunet
