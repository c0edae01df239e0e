/-
# The fields of a request line

`_parse_desc` computes where the version starts from the lengths of the method and of the URL,
after the URL has lost its query; and it takes the URL of a line without a version as it is,
while the URL of a line with a version is split.  This file says for which lines the version
is the one in the line, for which URLs the two ways agree, and which lines are accepted at
all.
-/
import Sunet.Http.Bounds

namespace Sunet
namespace Http

open Byte StringUtil

variable (beyond : Byte) {m u v : Bytes} (tail : Bytes)

/-! ## The URL in front of a version -/

/-- A URL without a query is stored as it is. -/
lemma readUrl_path (hne : u ≠ []) (hq : qmark ∉ u) (htab : u.getLast? ≠ some tab)
    (req : Request) : readUrl beyond u req = some { req with url := u } := by
  rw [readUrl, split_of_notMem hne hq, if_neg htab]

/-- A URL without a query that ends in a tab has no field. -/
lemma readUrl_tab (hne : u ≠ []) (hq : qmark ∉ u) (htab : u.getLast? = some tab)
    (req : Request) : readUrl beyond u req = none := by
  rw [readUrl, split_of_notMem hne hq, if_pos htab]

/-- Of a URL with a query the part in front of the first `?` is stored. -/
lemma readUrl_cut {a b : Bytes} (ha : qmark ∉ a) (req : Request) :
    ∃ req', readUrl beyond (a ++ qmark :: b) req = some req' ∧ req'.url = a ∧
      req'.method = req.method := by
  obtain ⟨fs, hfs⟩ := split_of_cut (b := b) ha
  rw [readUrl, hfs]
  cases fs with
  | nil => exact ⟨_, rfl, rfl, rfl⟩
  | cons f fs => exact ⟨_, rfl, rfl, rfl⟩

/-! ## The version -/

/-- A request line with a version, with its end of line. -/
def versionLine (m u v : Bytes) : Bytes := m ++ [sp] ++ u ++ [sp] ++ v ++ [cr, lf]

/-- `_parse_desc` accepts the line and sets the version to `v`. -/
def SetsVersion (r : Except Fault (Request × Option ℕ)) (v : Bytes) : Prop :=
  ∃ req n, r = .ok (req, some n) ∧ req.version = v

/-- A word of a request line. -/
def IsWord (w : Bytes) : Prop := w ≠ [] ∧ sp ∉ w ∧ cr ∉ w ∧ nul ∉ w

instance : DecidablePred IsWord := fun w => by
  unfold IsWord
  infer_instance

lemma IsWord.isRun (hu : IsWord u) : IsRun u := ⟨hu.2.1, hu.2.2.1⟩

lemma versionLine_buffer (m u v tail : Bytes) :
    versionLine m u v ++ tail ++ [nul] =
      m ++ sp :: (u ++ sp :: (v ++ cr :: (lf :: tail ++ [nul]))) := by
  simp [versionLine]

/-- The version is the part of the line behind the method and the stored URL that is as long as
the version. -/
lemma parseDesc_versionLine (hm : IsMethod m) (hu : IsWord u) (hv : IsWord v) {req req' : Request}
    (hurl : readUrl beyond u (withMethod m req) = some req') (hmeth : req'.method = m)
    {pre s rest : Bytes} (hpre : nul ∉ pre) (hpos : m.length + req'.url.length + 2 = pre.length)
    (hs : nul ∉ s) (hlen : s.length = v.length) (hrest : nul ∈ rest)
    (hbuf : versionLine m u v ++ tail ++ [nul] = pre ++ (s ++ rest)) :
    parseDesc beyond (versionLine m u v ++ tail ++ [nul]) req =
      .ok ({ req' with version := s }, some (m.length + 1 + u.length + 1 + v.length + 2)) := by
  obtain ⟨hvne, hvsp, hvcr, -⟩ := hv
  have hcount : v.countP (· ≠ sp) = v.length := by
    rw [List.countP_eq_length]
    intro c hc
    have hne : c ≠ sp := fun h => hvsp (h ▸ hc)
    simpa using hne
  have hread : readUrl beyond (untilNul u) (withMethod m req) = some req' := by
    rwa [untilNul_eq_self hu.2.2.2]
  have hversion : readVersion (pre ++ (s ++ rest)) v.length req' =
      .ok { req' with version := s } := by
    rw [readVersion, if_neg (by simpa using hvne), hmeth, hpos, ← hlen, assign_part hpre hrest,
      untilNul_eq_self hs, Except.ok_bind]
  have hdesc : parseDesc beyond (m ++ sp :: (u ++ sp :: (v ++ cr :: (lf :: tail ++ [nul])))) req =
      _ := parseDesc_ver hm hu.isRun hvcr (by simp) hread
  rw [← versionLine_buffer, hcount, hbuf, hversion, Except.ok_bind] at hdesc
  rw [hbuf]
  exact hdesc

lemma setsVersion_iff {req : Request} {n : ℕ} {w : Bytes} :
    SetsVersion (.ok ({ req with version := w }, some n)) v ↔ w = v := by
  constructor
  · rintro ⟨req', n', h, rfl⟩
    cases h
    rfl
  · intro h
    exact ⟨_, n, rfl, h⟩

/-- The version starts at the right place when the URL has no query. -/
lemma setsVersion_path (hm : IsMethod m) (hu : IsWord u) (hv : IsWord v) (hq : qmark ∉ u)
    (htab : u.getLast? ≠ some tab) (req : Request) :
    SetsVersion (parseDesc beyond (versionLine m u v ++ tail ++ [nul]) req) v := by
  have hpre : nul ∉ m ++ sp :: (u ++ [sp]) := by
    simp [hm.nul_notMem, hu.2.2.2]
  have hrest : nul ∈ cr :: (lf :: tail ++ [nul]) := by simp
  rw [parseDesc_versionLine beyond tail hm hu hv (readUrl_path beyond hu.1 hq htab _) rfl hpre
    (by simp; omega) hv.2.2.2 rfl hrest (by simp [versionLine])]
  exact setsVersion_iff.mpr rfl

/-- With a query the version starts behind the `?`. -/
lemma setsVersion_cut {a b : Bytes} (hm : IsMethod m) (ha : qmark ∉ a)
    (hu : IsWord (a ++ qmark :: b)) (hv : IsWord v) (req : Request) :
    SetsVersion (parseDesc beyond (versionLine m (a ++ qmark :: b) v ++ tail ++ [nul]) req) v ↔
      v <+: b := by
  obtain ⟨req', hread, hurl, hmeth⟩ :=
    readUrl_cut beyond (b := b) ha (withMethod m req)
  have hnul := hu.2.2.2
  simp only [List.mem_append, List.mem_cons, not_or] at hnul
  obtain ⟨hanul, -, hbnul⟩ := hnul
  have hpre : nul ∉ m ++ sp :: (a ++ [qmark]) := by
    simp [hm.nul_notMem, hanul]
  have hs : nul ∉ (b ++ sp :: v).take v.length := by
    intro h
    have hmem := List.mem_of_mem_take h
    simp [hbnul, hv.2.2.2] at hmem
  have hlen : ((b ++ sp :: v).take v.length).length = v.length := by
    rw [List.length_take, List.length_append, List.length_cons]
    omega
  have hbuf : versionLine m (a ++ qmark :: b) v ++ tail ++ [nul] =
      (m ++ sp :: (a ++ [qmark])) ++ ((b ++ sp :: v).take v.length ++
        ((b ++ sp :: v).drop v.length ++ cr :: (lf :: tail ++ [nul]))) := by
    rw [← List.append_assoc (List.take _ _), List.take_append_drop]
    simp [versionLine]
  rw [parseDesc_versionLine beyond tail hm hu hv hread hmeth hpre (by rw [hurl]; simp; omega) hs hlen
    (by simp) hbuf, setsVersion_iff]
  -- a version that reached beyond the query would have the space in it
  rw [eq_comm, ← List.prefix_iff_eq_take]
  constructor
  · intro h
    rcases Cut.prefix_append_cons h with h | ⟨l, rfl, -⟩
    · exact h
    · exact absurd hv.2.1 (by simp)
  · exact fun h => h.trans (List.prefix_append _ _)

/-- **The version is that of the line** exactly when the URL has no query and does not end in a
tab, or when what follows the first `?` starts with the version too. -/
theorem setsVersion_versionLine (beyond : Byte) (m u v tail : Bytes) (req : Request)
    (hm : m ≠ [] ∧ IsMethod m) (hu : IsWord u) (hv : IsWord v) :
    SetsVersion (parseDesc beyond (versionLine m u v ++ tail ++ [nul]) req) v ↔
      (qmark ∉ u ∧ u.getLast? ≠ some tab) ∨
        ∃ a b, u = a ++ qmark :: b ∧ qmark ∉ a ∧ v <+: b := by
  by_cases hq : qmark ∈ u
  · obtain ⟨a, b, rfl, ha⟩ := List.eq_append_cons_of_mem hq
    rw [setsVersion_cut beyond tail hm.2 ha hu hv]
    constructor
    · exact fun h => Or.inr ⟨a, b, rfl, ha, h⟩
    · rintro (h | ⟨a', b', heq, ha', h⟩)
      · exact absurd hq h.1
      · obtain ⟨rfl, rfl⟩ := Cut.cut_unique ha ha' heq
        exact h
  · have hno : ¬ ∃ a b, u = a ++ qmark :: b ∧ qmark ∉ a ∧ v <+: b := by
      rintro ⟨a, b, rfl, -⟩
      simp at hq
    by_cases htab : u.getLast? = some tab
    · -- the line is rejected
      have hbad : readUrl beyond (untilNul u) (withMethod m req) = none := by
        rw [untilNul_eq_self hu.2.2.2]
        exact readUrl_tab beyond hu.1 hq htab _
      rw [versionLine_buffer, parseDesc_badUrl hm.2 hu.isRun (by simp) hbad]
      constructor
      · rintro ⟨req', n, h, -⟩
        cases h
      · rintro (h | h)
        · exact absurd htab h.2
        · exact absurd h hno
    · exact ⟨fun _ => Or.inl ⟨hq, htab⟩, fun _ => setsVersion_path beyond tail hm.2 hu hv hq htab req⟩

/-- The line `GET /a HTTP/1.1`. -/
theorem setsVersion_versionLine_plain :
    SetsVersion (parseDesc 0 (versionLine (bytes "GET") (bytes "/a") (bytes "HTTP/1.1") ++ [] ++
      [nul]) Request.new) (bytes "HTTP/1.1") :=
  (setsVersion_versionLine 0 _ _ _ [] Request.new (by decide) (by decide) (by decide)).mpr
    (Or.inl (by decide))

/-- The line `GET /a?b HTTP/1.1` has the version `b HTTP/1`. -/
theorem not_setsVersion_versionLine :
    ¬ ∀ (beyond : Byte) (m u v tail : Bytes) (req : Request), m ≠ [] ∧ IsMethod m → IsWord u →
      IsWord v → SetsVersion (parseDesc beyond (versionLine m u v ++ tail ++ [nul]) req) v := by
  intro h
  have hget := h 0 (bytes "GET") (bytes "/a" ++ qmark :: bytes "b") (bytes "HTTP/1.1") []
    Request.new (by decide) (by decide) (by decide)
  rw [setsVersion_cut 0 [] (by decide) (by decide) (by decide) (by decide)] at hget
  exact absurd hget (by decide)

/-! ## With and without a version -/

/-- A request line without a version, with its end of line. -/
def urlLine (m u : Bytes) : Bytes := m ++ [sp] ++ u ++ [cr, lf]

/-- Both lines are rejected, or both give the same method, URL and parameters. -/
def SameFields (r₁ r₂ : Except Fault (Request × Option ℕ)) : Prop :=
  (∃ req₁ req₂, r₁ = .ok (req₁, none) ∧ r₂ = .ok (req₂, none)) ∨
    ∃ req₁ n₁ req₂ n₂, r₁ = .ok (req₁, some n₁) ∧ r₂ = .ok (req₂, some n₂) ∧
      req₁.method = req₂.method ∧ req₁.url = req₂.url ∧ req₁.params = req₂.params

lemma parseDesc_urlLine (hm : IsMethod m) (hu : IsWord u) (req : Request) :
    parseDesc beyond (urlLine m u ++ tail ++ [nul]) req =
      .ok ({ withMethod m req with url := u, version := bytes "HTTP/1.1" },
        some (m.length + 1 + u.length + 2)) := by
  have hbuf : urlLine m u ++ tail ++ [nul] = m ++ sp :: (u ++ cr :: (lf :: tail ++ [nul])) := by
    simp [urlLine]
  have hdesc : parseDesc beyond (m ++ sp :: (u ++ cr :: (lf :: tail ++ [nul]))) req = _ :=
    parseDesc_url hm hu.isRun hu.1 (by simp) req
  rw [hbuf, hdesc, untilNul_eq_self hu.2.2.2]

/-- A line with a version that is accepted keeps what was read from the URL. -/
lemma parseDesc_versionLine_fields (hm : IsMethod m) (hu : IsWord u) (hv : IsWord v)
    {req req' : Request} (hurl : readUrl beyond u (withMethod m req) = some req')
    {req'' : Request} {n : Option ℕ}
    (h : parseDesc beyond (versionLine m u v ++ tail ++ [nul]) req = .ok (req'', n)) :
    req''.method = req'.method ∧ req''.url = req'.url ∧ req''.params = req'.params := by
  have hread : readUrl beyond (untilNul u) (withMethod m req) = some req' := by
    rwa [untilNul_eq_self hu.2.2.2]
  rw [versionLine_buffer, parseDesc_ver hm hu.isRun hv.2.2.1 (by simp) hread,
    Except.bind_eq_ok] at h
  obtain ⟨req₀, hver, h⟩ := h
  cases h
  rw [readVersion_eq hver]
  exact ⟨rfl, rfl, rfl⟩

/-- **The URL is parsed alike with and without a version** exactly when it has no query and does
not end in a tab. -/
theorem sameFields_iff (beyond₁ beyond₂ : Byte) (m u tail₁ tail₂ : Bytes)
    (hm : m ≠ [] ∧ IsMethod m) (hu : IsWord u) :
    SameFields (parseDesc beyond₁ (urlLine m u ++ tail₁ ++ [nul]) Request.new)
        (parseDesc beyond₂ (versionLine m u (bytes "HTTP/1.1") ++ tail₂ ++ [nul]) Request.new) ↔
      qmark ∉ u ∧ u.getLast? ≠ some tab := by
  have hv : IsWord (bytes "HTTP/1.1") := by decide
  have hfirst := parseDesc_urlLine beyond₁ tail₁ hm.2 hu Request.new
  constructor
  · -- the line without a version is accepted, and its URL is the one in the line
    rintro (⟨req₁, req₂, h₁, -⟩ | ⟨req₁, n₁, req₂, n₂, h₁, h₂, -, hurl, -⟩)
    · rw [hfirst] at h₁
      cases h₁
    rw [hfirst] at h₁
    cases h₁
    have hurl' : u = req₂.url := hurl
    by_cases hq : qmark ∈ u
    · obtain ⟨a, b, rfl, ha⟩ := List.eq_append_cons_of_mem hq
      obtain ⟨req', hread, hpath, -⟩ :=
        readUrl_cut beyond₂ (b := b) ha (withMethod m Request.new)
      have hfields := parseDesc_versionLine_fields beyond₂ tail₂ hm.2 hu hv hread h₂
      rw [hfields.2.1, hpath] at hurl'
      have hlen := congrArg List.length hurl'
      simp at hlen
    · refine ⟨hq, fun htab => ?_⟩
      have hbad : readUrl beyond₂ (untilNul u) (withMethod m Request.new) = none := by
        rw [untilNul_eq_self hu.2.2.2]
        exact readUrl_tab beyond₂ hu.1 hq htab _
      rw [versionLine_buffer, parseDesc_badUrl hm.2 hu.isRun (by simp) hbad] at h₂
      cases h₂
  · rintro ⟨hq, htab⟩
    right
    have hread := readUrl_path beyond₂ hu.1 hq htab (withMethod m Request.new)
    obtain ⟨req₂, n₂, h₂, -⟩ :=
      setsVersion_path beyond₂ tail₂ hm.2 hu hv hq htab Request.new
    obtain ⟨hmeth, hurl, hparams⟩ := parseDesc_versionLine_fields beyond₂ tail₂ hm.2 hu hv hread h₂
    exact ⟨_, _, _, _, hfirst, h₂, hmeth.symm, hurl.symm, hparams.symm⟩

theorem sameFields_plain :
    SameFields (parseDesc 0 (urlLine (bytes "GET") (bytes "/a") ++ [] ++ [nul]) Request.new)
      (parseDesc 0 (versionLine (bytes "GET") (bytes "/a") (bytes "HTTP/1.1") ++ [] ++ [nul])
        Request.new) :=
  (sameFields_iff 0 0 _ _ [] [] (by decide) (by decide)).mpr (by decide)

/-- The URL `/a?q=b`: without a version its query is a part of the path. -/
theorem not_sameFields :
    ¬ ∀ (beyond₁ beyond₂ : Byte) (m u tail₁ tail₂ : Bytes), m ≠ [] ∧ IsMethod m → IsWord u →
      SameFields (parseDesc beyond₁ (urlLine m u ++ tail₁ ++ [nul]) Request.new)
        (parseDesc beyond₂ (versionLine m u (bytes "HTTP/1.1") ++ tail₂ ++ [nul])
          Request.new) := by
  intro h
  have hm : IsMethod (bytes "GET") := by decide
  have hu : IsWord (bytes "/a" ++ qmark :: bytes "q=b") := by decide
  have hv : IsWord (bytes "HTTP/1.1") := by decide
  rcases h 0 0 (bytes "GET") (bytes "/a" ++ qmark :: bytes "q=b") [] [] (by decide) hu with
    ⟨req₁, req₂, h₁, -⟩ | ⟨req₁, n₁, req₂, n₂, h₁, h₂, -, hurl, -⟩
  · rw [parseDesc_urlLine 0 [] hm hu] at h₁
    cases h₁
  · rw [parseDesc_urlLine 0 [] hm hu] at h₁
    cases h₁
    obtain ⟨req', hread, hpath, -⟩ := readUrl_cut 0 (b := bytes "q=b")
      (show qmark ∉ bytes "/a" by decide) (withMethod (bytes "GET") Request.new)
    have hfields := parseDesc_versionLine_fields 0 [] hm hu hv hread h₂
    rw [hfields.2.1, hpath] at hurl
    exact absurd hurl (by decide)

end Http
end Sunet
