/-
# Responses on a connection

The constructor of `SUB_EPOLL_OUT_ENV` puts a status line and two headers in front of the JSON
text.  A client that reads the headers with the parser of the repository, and then as many bytes
as `Content-Length` says, gets the text back, and the texts of all responses of a connection in
their order, in whatever pieces they arrive.  The length passes through an `int`, which is where
this ends.
-/
import Sunet.Http.Message
import Sunet.Http.WellFormed
import Sunet.Io.Event
import Sunet.Lib.Frames

namespace Sunet
namespace Io

open Byte Http Frames

/-! ## The client -/

/-- A response. -/
def responseText (httpBody : Bytes) : Bytes := responseHead httpBody ++ httpBody

/-- What follows the first line. -/
def behindLine (s : Bytes) : Bytes := (s.dropWhile (· ≠ cr)).drop 2

/-- A response off the front of what a client has received: the body and what follows it.  The
client waits where the first line, the headers or the body have not come as a whole, which it
sees in the headers by a read of `_parse_headers` beyond what has come. -/
def readResponse (s : Bytes) : Option (Bytes × Bytes) :=
  match parseHeaders (behindLine s ++ [nul]) Request.new with
  | .error _ => none
  | .ok (req, n) => do
    let value ← req.headers[bytes "Content-Length"]?
    let rest := (behindLine s).drop n
    if 0 ≤ atoi value ∧ (atoi value).toNat ≤ rest.length then
      some (rest.take (atoi value).toNat, rest.drop (atoi value).toNat)
    else none

/-! ## The head -/

/-- The headers of a response. -/
def responseHeaders (httpBody : Bytes) : List (Bytes × Bytes) :=
  [(bytes "Content-Length", numToStr (wrapInt httpBody.length)),
    (bytes "Access-Control-Allow-Origin", bytes "*")]

lemma isHeaderPair_responseHeaders (httpBody : Bytes) :
    ∀ kv ∈ responseHeaders httpBody, IsHeaderPair kv := by
  have hnum : ∀ b : Byte, b ≠ 45 → isDigit b = false → b ∉ numToStr (wrapInt httpBody.length) :=
    fun b => notMem_numToStr
  have hlength : colon ∉ bytes "Content-Length" ∧ cr ∉ bytes "Content-Length" ∧
      lf ∉ bytes "Content-Length" ∧ nul ∉ bytes "Content-Length" := by decide +kernel
  rw [responseHeaders]
  generalize numToStr (wrapInt httpBody.length) = num at hnum ⊢
  intro kv hkv
  rcases List.mem_cons.mp hkv with rfl | hkv
  · refine ⟨hlength, hnum cr (by decide) (by decide), hnum nul (by decide) (by decide), ?_⟩
    intro hsp
    exact hnum sp (by decide) (by decide) (List.mem_of_mem_head? hsp)
  · rw [List.mem_singleton] at hkv
    subst hkv
    decide +kernel

/-- Two headers behind a line. -/
lemma headerBlock_two (line k v k' v' : Bytes) :
    line ++ cr :: lf :: (k ++ [colon, sp]) ++ v ++
        ([cr, lf] ++ (k' ++ [colon, sp] ++ v' ++ [cr, lf] ++ [cr, lf])) =
      line ++ cr :: lf :: headerBlock [(k, v), (k', v')] := by
  simp [headerBlock]

/-- The head is the status line and a block of headers. -/
lemma responseHead_eq (httpBody : Bytes) :
    responseHead httpBody = bytes "HTTP/1.1 200 OK" ++ cr :: lf ::
      headerBlock (responseHeaders httpBody) := by
  have hlength : bytes "HTTP/1.1 200 OK\r\nContent-Length: " =
      bytes "HTTP/1.1 200 OK" ++ cr :: lf :: (bytes "Content-Length" ++ [colon, sp]) := by decide +kernel
  have horigin : bytes "\r\nAccess-Control-Allow-Origin: *\r\n\r\n" =
      [cr, lf] ++ (bytes "Access-Control-Allow-Origin" ++ [colon, sp] ++ bytes "*" ++ [cr, lf] ++
        [cr, lf]) := by decide +kernel
  rw [responseHead, hlength, horigin, headerBlock_two]
  rfl

/-- What follows the first line of a response. -/
lemma behindLine_response (rest : Bytes) :
    behindLine (bytes "HTTP/1.1 200 OK" ++ cr :: lf :: rest) = rest := by
  have hline : ∀ b ∈ bytes "HTTP/1.1 200 OK", decide (b ≠ cr) = true := by decide +kernel
  rw [behindLine, List.dropWhile_append_of_pos hline, List.dropWhile_cons_of_neg (by simp)]
  rfl

/-! ## One response -/

lemma behindLine_responseHead (httpBody rest : Bytes) :
    behindLine (responseHead httpBody ++ rest) = headerBlock (responseHeaders httpBody) ++ rest := by
  rw [responseHead_eq, List.append_assoc, List.cons_append, List.cons_append, behindLine_response]

lemma getElem?_responseHeaders (httpBody : Bytes) :
    ((responseHeaders httpBody).foldl (fun hs kv => hs.insert kv.1 kv.2)
      Request.new.headers)[bytes "Content-Length"]? = some (numToStr (wrapInt httpBody.length)) := by
  have hne : (bytes "Content-Length" == bytes "Access-Control-Allow-Origin") = false := by
    decide +kernel
  rw [getElem?_foldl_insert, responseHeaders, List.reverse_cons, List.reverse_singleton,
    List.singleton_append, List.lookup_cons, hne]
  dsimp only
  rw [List.lookup_cons, beq_self_eq_true]
  rfl

/-- The headers of a response with anything behind them. -/
lemma readResponse_head (httpBody rest : Bytes) :
    readResponse (responseHead httpBody ++ rest) =
      if 0 ≤ wrapInt httpBody.length ∧ (wrapInt httpBody.length).toNat ≤ rest.length then
        some (rest.take (wrapInt httpBody.length).toNat, rest.drop (wrapInt httpBody.length).toNat)
      else none := by
  have hparse := parseHeaders_block (isHeaderPair_responseHeaders httpBody) rest Request.new
  have hatoi : atoi (numToStr (wrapInt httpBody.length)) = wrapInt httpBody.length :=
    atoi_numToStr (isInt_wrapInt _)
  rw [readResponse, behindLine_responseHead, List.append_assoc, hparse]
  dsimp only
  rw [getElem?_responseHeaders, Option.bind_eq_bind, Option.bind_some, hatoi, List.drop_left]

/-- A response is taken off whatever follows. -/
lemma reads_responseText {httpBody : Bytes} (hlt : httpBody.length < 2 ^ 31) :
    Reads readResponse responseText httpBody := by
  intro rest
  have hwrap : wrapInt httpBody.length = httpBody.length := isInt_of_lt hlt
  rw [responseText, List.append_assoc, readResponse_head, hwrap, Int.toNat_natCast, if_pos,
    List.take_left, List.drop_left]
  exact ⟨Int.natCast_nonneg _, by rw [List.length_append]; omega⟩

/-- A body that is read has a length that is an `int`. -/
lemma length_lt_of_readResponse {httpBody rest rest' : Bytes}
    (h : readResponse (responseText httpBody ++ rest) = some (httpBody, rest')) :
    httpBody.length < 2 ^ 31 ∧ rest' = rest := by
  rw [responseText, List.append_assoc, readResponse_head] at h
  split at h
  · next hlen =>
    obtain ⟨-, hlt⟩ := (isInt_wrapInt httpBody.length).bounds
    obtain ⟨htake, hdrop⟩ := Prod.mk.inj (Option.some.inj h)
    have hlength := congrArg List.length htake
    rw [List.length_take, min_eq_left hlen.2] at hlength
    rw [hlength, List.drop_left] at hdrop
    exact ⟨by omega, hdrop.symm⟩
  · cases h

/-! ## A response that is not there as a whole -/

/-- A header area that breaks off makes the parser leave its buffer. -/
lemma parseHeaders_prefix {headers : List (Bytes × Bytes)} (hh : ∀ kv ∈ headers, IsHeaderPair kv)
    {h : Bytes} (hpre : h <+: headerBlock headers) (hne : h ≠ headerBlock headers) (req : Request) :
    parseHeaders (h ++ [nul]) req = .error .overread := by
  have harea : headerBlock headers = headerArea (headers.map fun kv => (kv.1, sp :: kv.2)) := by
    rw [headerBlock, headerArea, List.map_map]
    congr 3
    funext kv
    simp [headerLine]
  have hheader : ∀ kv ∈ headers.map fun kv => (kv.1, sp :: kv.2), IsHeader kv := by
    intro kv hkv
    obtain ⟨kv, hmem, rfl⟩ := List.mem_map.mp hkv
    obtain ⟨⟨hcolon, hcr, -, hnul⟩, hvcr, hvnul, -⟩ := hh kv hmem
    exact ⟨hcolon, hcr, hnul, by simp [hvcr, show cr ≠ sp by decide], by simp [hvnul]⟩
  rw [harea] at hpre hne
  have hopen := not_headersClose_prefix hheader hpre hne
  obtain ⟨-, hiff⟩ := headersLoop_ne_overread ((h ++ [nul]).length + 1) [] (h ++ [nul]) req
    (Nat.lt_succ_self _) (Or.inr (by simp))
  rw [List.nil_append, List.length_nil, decide_eq_false List.not_mem_nil] at hiff
  by_contra hover
  exact hopen (hiff.mp hover)

/-- Nothing is read where the first line or the headers break off. -/
lemma readResponse_prefix (httpBody : Bytes) {s : Bytes}
    (hpre : behindLine s <+: headerBlock (responseHeaders httpBody))
    (hne : behindLine s ≠ headerBlock (responseHeaders httpBody)) : readResponse s = none := by
  rw [readResponse, parseHeaders_prefix (isHeaderPair_responseHeaders httpBody) hpre hne]

/-- A client waits for the rest of a response. -/
lemma waits_responseText {httpBody : Bytes} (hlt : httpBody.length < 2 ^ 31) :
    Waits readResponse responseText httpBody := by
  intro p hpre hne
  have hblock : headerBlock (responseHeaders httpBody) ≠ [] := by simp [headerBlock]
  have hline : ∀ b ∈ bytes "HTTP/1.1 200 OK", decide (b ≠ cr) = true := by decide +kernel
  have hnothing : behindLine p = [] → readResponse p = none := fun h =>
    readResponse_prefix httpBody (h ▸ List.nil_prefix) (h ▸ hblock.symm)
  rw [responseText, responseHead_eq, List.append_assoc, List.cons_append, List.cons_append] at hpre
  rcases Cut.prefix_append_cons hpre with hfirst | ⟨p₁, rfl, hpre₁⟩
  · -- the break lies in the status line
    refine hnothing ?_
    have hall : p.dropWhile (· ≠ cr) = [] :=
      List.dropWhile_eq_nil_iff.mpr fun b hb => hline b (hfirst.subset hb)
    rw [behindLine, hall, List.drop_nil]
  rcases List.prefix_cons_iff.mp hpre₁ with rfl | ⟨p₂, rfl, hpre₂⟩
  · refine hnothing ?_
    rw [behindLine, List.dropWhile_append_of_pos hline, List.dropWhile_cons_of_neg (by simp)]
    rfl
  have hbehind := behindLine_response p₂
  rcases le_or_gt (headerBlock (responseHeaders httpBody)).length p₂.length with hle | hgt
  · -- the break lies in the body
    obtain ⟨b, rfl⟩ := List.prefix_of_prefix_length_le (List.prefix_append _ _) hpre₂ hle
    have hbody : b <+: httpBody := (List.prefix_append_right_inj _).mp hpre₂
    have hshort : b.length < httpBody.length := by
      refine lt_of_le_of_ne hbody.length_le fun hlen => hne ?_
      rw [hbody.eq_of_length hlen, responseText, responseHead_eq, List.append_assoc,
        List.cons_append, List.cons_append]
    have hwrap : wrapInt httpBody.length = httpBody.length := isInt_of_lt hlt
    have hread := readResponse_head httpBody b
    rw [hwrap, if_neg (by omega), responseHead_eq, List.append_assoc, List.cons_append,
      List.cons_append] at hread
    exact hread
  · -- the break lies in the headers
    have hhead := List.prefix_of_prefix_length_le hpre₂ (List.prefix_append _ _) hgt.le
    refine readResponse_prefix httpBody (by rwa [hbehind]) ?_
    rw [hbehind]
    rintro rfl
    exact lt_irrefl _ hgt

/-! ## The responses of a connection -/

/-- The bodies that are read off their responses, by induction on the list. -/
lemma length_lt_of_readSome {bodies : List Bytes} {n : ℕ}
    (h : (readSome readResponse n (bodies.flatMap responseText)).1 = bodies) :
    ∀ b ∈ bodies, b.length < 2 ^ 31 := by
  induction bodies generalizing n with
  | nil => simp
  | cons b bodies ih =>
    obtain ⟨m, rest, hread, hrest⟩ := readSome_eq_cons h
    rw [List.flatMap_cons] at hread
    obtain ⟨hlt, rfl⟩ := length_lt_of_readResponse hread
    exact List.forall_mem_cons.mpr ⟨hlt, ih hrest⟩

/-- **The responses of a connection arrive.**  A client that takes the responses off what it has
received has their bodies in order when all has come, in whatever pieces that was, exactly if
the lengths of the bodies are of the type `int`; and when only a beginning has come, it has the
bodies of those responses that are complete in it. -/
theorem responses_arrive (bodies : List Bytes) :
    ((∀ pieces : List Bytes, pieces.flatten = bodies.flatMap responseText →
        pieces.foldl (feed readResponse) ([], []) = (bodies, [])) ↔
      ∀ b ∈ bodies, b.length < 2 ^ 31) ∧
    ((∀ b ∈ bodies, b.length < 2 ^ 31) → ∀ pieces : List Bytes,
      pieces.flatten <+: bodies.flatMap responseText → ∃ k left,
        pieces.foldl (feed readResponse) ([], []) = (bodies.take k, left) ∧
        pieces.flatten = (bodies.take k).flatMap responseText ++ left ∧
        (left = [] ∨
          ∃ b, bodies[k]? = some b ∧ left <+: responseText b ∧ left ≠ responseText b)) := by
  have hnil : readResponse [] = none := by
    refine readResponse_prefix [] List.nil_prefix ?_
    simp [behindLine, headerBlock]
  refine ⟨⟨?_, ?_⟩, ?_⟩
  · intro h
    have hone := h [bodies.flatMap responseText] (List.flatten_singleton)
    exact length_lt_of_readSome (congrArg Prod.fst hone)
  · intro hbodies pieces hall
    exact feed_pieces (fun b hb => reads_responseText (hbodies b hb)) hnil
      (fun b hb => waits_responseText (hbodies b hb)) hall
  · intro hbodies pieces hpre
    obtain ⟨k, -, hread, heq, hleft⟩ :=
      arrived_pieces (fun b hb => reads_responseText (hbodies b hb)) hnil
        (fun b hb => waits_responseText (hbodies b hb)) pieces hpre
    rw [hread] at heq
    refine ⟨k, (pieces.foldl (feed readResponse) ([], [])).2, by rw [← hread], heq, ?_⟩
    rwa [Partial, List.head?_drop] at hleft

end Io
end Sunet
