/-
# The round trip of a request

A request with a query and headers as a client writes it.  `_parse` finds the path, the
parameters and the headers again, whatever stands behind the blank line.
-/
import Sunet.Http.Bounds
import Sunet.Http.HeaderBlock
import Sunet.Http.Query

namespace Sunet
namespace Http

open Byte StringUtil

/-- A block of headers, with the map that it makes. -/
lemma parseHeaders_block {headers : List (Bytes × Bytes)} (hh : ∀ kv ∈ headers, IsHeaderPair kv)
    (body : Bytes) (req : Request) :
    parseHeaders (headerBlock headers ++ (body ++ [nul])) req =
      .ok ({ req with headers := headers.foldl (fun hs kv => hs.insert kv.1 kv.2) req.headers },
        (headerBlock headers).length) := by
  have hcut : ∀ f ∈ headers.map headerPairField, f.IsCut ∧ cr ∉ f.key ∧ nul ∉ f.line := by
    intro f hf
    obtain ⟨kv, hkv, rfl⟩ := List.mem_map.mp hf
    obtain ⟨⟨hkcolon, hkcr, -, hknul⟩, hvcr, hvnul, -⟩ := hh kv hkv
    refine ⟨⟨hkcolon, ?_⟩, hkcr, ?_⟩
    · simpa [headerPairField] using ⟨by decide, hvcr⟩
    · simp [headerPairField, Field.line, hknul, hvnul]
  have hrun := parseHeaders_fieldArea (fun f hf => (hcut f hf).1) (fun f hf => (hcut f hf).2.1)
    (fun f hf => (hcut f hf).2.2) body req
  rw [headerBlock_eq, List.append_assoc, List.length_append, ← putFields_headerPairs hh]
  exact hrun

/-- A request as it can be written: the parameters are a query and the headers a block. -/
structure Message where
  method : Bytes
  path : Bytes
  params : List (Bytes × Bytes)
  version : Bytes
  headers : List (Bytes × Bytes)
  isMethod : IsMethod method
  isPath : qmark ∉ path ∧ sp ∉ path ∧ cr ∉ path ∧ nul ∉ path
  isKey : ∀ kv ∈ params, IsKey kv.1
  isVersion : cr ∉ version
  isHeaderPair : ∀ kv ∈ headers, IsHeaderPair kv

namespace Message

/-- The text of a request. -/
def text (msg : Message) : Bytes :=
  queryLine msg.method msg.path msg.params msg.version ++ headerBlock msg.headers

/-- The URL with its query. -/
def url (msg : Message) : Bytes := msg.path ++ qmark :: queryString msg.params

lemma notMem_url (msg : Message) {b : Byte} (hpath : b ∉ msg.path)
    (hkey : ∀ kv ∈ msg.params, b ∉ kv.1)
    (hb : b ≠ qmark ∧ b ≠ eqSign ∧ b ≠ amp ∧ ¬ isPlain b ∧ b ≠ percent) : b ∉ msg.url := by
  obtain ⟨hqmark, heq, hamp, hplain, hpct⟩ := hb
  rw [url, List.mem_append, List.mem_cons, not_or, not_or]
  exact ⟨hpath, hqmark, notMem_queryString hkey heq hamp hplain hpct⟩

lemma isRun_url (msg : Message) : IsRun msg.url where
  left := msg.notMem_url msg.isPath.2.1 (fun kv h => (msg.isKey kv h).2.2.2.1) (by decide)
  right := msg.notMem_url msg.isPath.2.2.1 (fun kv h => (msg.isKey kv h).2.2.2.2.1) (by decide)

lemma nul_notMem_url (msg : Message) : nul ∉ msg.url :=
  msg.notMem_url msg.isPath.2.2.2 (fun kv h => (msg.isKey kv h).2.2.2.2.2) (by decide)

/-- What is read of the request line in front of the version. -/
def front (msg : Message) : Request :=
  { withMethod msg.method Request.new with
    url := msg.path
    params := msg.params.foldl (fun ps kv => ps.insert kv.1 kv.2) Request.new.params }

lemma readUrl_url (beyond : Byte) (msg : Message) :
    readUrl beyond (untilNul msg.url) (withMethod msg.method Request.new) = some msg.front := by
  rw [untilNul_eq_self msg.nul_notMem_url]
  exact readUrl_query beyond msg.isPath.1 msg.isKey (withMethod msg.method Request.new)

/-- The request line. -/
lemma parseDesc_text (beyond : Byte) (msg : Message) (rest : Bytes) :
    let line := queryLine msg.method msg.path msg.params msg.version
    ∃ version, parseDesc beyond (line ++ (rest ++ [nul])) Request.new =
      .ok ({ msg.front with version := version }, some line.length) := by
  intro line
  have hbuf : line ++ (rest ++ [nul]) =
      msg.method ++ sp :: (msg.url ++ sp :: (msg.version ++ cr :: (lf :: (rest ++ [nul])))) := by
    simp [line, queryLine, url]
  have hlen : msg.method.length + 1 + msg.url.length + 1 + msg.version.length + 2 = line.length := by
    simp [line, queryLine, url]
    omega
  have huntil := untilNul_eq_self msg.nul_notMem_url
  have hqmark : qmark ∈ untilNul msg.url := by
    rw [huntil, url]
    simp
  have hshorter : msg.front.url.length < (untilNul msg.url).length := by
    rw [huntil, url]
    simp [front]
  -- the version that is read is a part of the buffer, though not always the version
  obtain ⟨req, hver⟩ := readVersion_of_notMem msg.isMethod (show msg.front.method = msg.method from rfl)
    (fun h => absurd hqmark h) (fun _ => hshorter) msg.nul_notMem_url
    (show nul ∈ msg.version ++ cr :: (lf :: (rest ++ [nul])) by simp)
    (msg.version.countP (· ≠ sp))
  refine ⟨req.version, ?_⟩
  rw [hbuf, parseDesc_ver msg.isMethod msg.isRun_url msg.isVersion (by simp) (msg.readUrl_url beyond),
    hver, Except.ok_bind, hlen, readVersion_eq hver]

/-- What `_parse` makes of the text of a request. -/
lemma parse_parts (beyond : Byte) (msg : Message) (body : Bytes) :
    ∃ version, parse beyond (msg.text ++ body ++ [nul]) Request.new =
      .ok { msg.front with
        version := version
        headers := msg.headers.foldl (fun hs kv => hs.insert kv.1 kv.2) ∅ } := by
  have hbuf : msg.text ++ body ++ [nul] =
      queryLine msg.method msg.path msg.params msg.version ++
        ((headerBlock msg.headers ++ body) ++ [nul]) := by
    rw [text]
    simp only [List.append_assoc]
  obtain ⟨version, hdesc⟩ := msg.parseDesc_text beyond (headerBlock msg.headers ++ body)
  have hheaders := parseHeaders_block msg.isHeaderPair body { msg.front with version := version }
  refine ⟨version, ?_⟩
  rw [hbuf, parse, hdesc, Except.ok_bind]
  simp only
  rw [List.drop_left, List.append_assoc, hheaders, Except.ok_bind]
  rfl

/-- **A request comes back from its text.**  Whatever stands behind the blank line, `_parse` does
not fail, the method and the path are those of the request, each parameter and each header has
the value that stands last, and besides them there are only the defaults of `Request`. -/
theorem parse_text (beyond : Byte) (msg : Message) (body : Bytes) :
    ∃ req, parse beyond (msg.text ++ body ++ [nul]) Request.new = .ok req ∧
      req.method = msg.method ∧ req.url = msg.path ∧
      (∀ k, req.params[k]? = (msg.params.reverse.lookup k).or Request.new.params[k]?) ∧
      ∀ k, req.headers[k]? = msg.headers.reverse.lookup k := by
  obtain ⟨version, hparse⟩ := msg.parse_parts beyond body
  refine ⟨_, hparse, rfl, rfl, fun k => getElem?_foldl_insert msg.params _ k, fun k => ?_⟩
  refine (getElem?_foldl_insert msg.headers _ k).trans ?_
  exact (congrArg _ Std.ExtTreeMap.getElem?_empty).trans (Option.or_none)

end Message
end Http
end Sunet
