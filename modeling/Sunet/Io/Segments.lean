/-
# Requests in several read batches

Every read batch becomes a task of its own, and the worker parses the buffer of its task
alone.  Two deliveries of one request therefore lead to the same parsed requests only if
they agree on the batch in which the request line is completed.
-/
import Sunet.Http.WellFormed
import Sunet.Io.Receive

namespace Sunet
namespace Io

open Byte Http

/-- A stream of bytes as it arrives: batches of chunks, each batch ended by `EAGAIN`. -/
structure Delivery (stream : Bytes) where
  batches : List (List Bytes)
  isChunk : ∀ b ∈ batches, ∀ c ∈ b, IsChunk c
  nonempty : ∀ b ∈ batches, b ≠ []
  flatten_eq : (batches.map List.flatten).flatten = stream

/-- The bytes of the batches. -/
def Delivery.parts {stream : Bytes} (d : Delivery stream) : List Bytes :=
  d.batches.map List.flatten

/-- The buffers of the tasks that `_on_http_read` queues for the batches. -/
def queuedBuffers (batches : List (List Bytes)) : Option (List Bytes) := do
  let rets ← batches.mapM fun chunks => onHttpRead chunks .again
  some (rets.filterMap Prod.snd)

/-- The request that a task parses from its buffer, if the parser returns. -/
def parseTask (beyond : Byte) (buf : Bytes) : Option Request :=
  match parse beyond buf Request.new with
  | .ok request => some request
  | .error _ => none

/-- The list of requests that the tasks parse. -/
def parsedRequests (beyond : Byte) (batches : List (List Bytes)) : Option (List Request) := do
  let bufs ← queuedBuffers batches
  bufs.mapM (parseTask beyond)

/-- The two deliveries lead to the same list of parsed requests. -/
def SameRequests (beyond : Byte) {stream : Bytes} (d d' : Delivery stream) : Prop :=
  ∃ requests, parsedRequests beyond d.batches = some requests ∧
    parsedRequests beyond d'.batches = some requests

variable {beyond : Byte}

lemma queuedBuffers_eq {stream : Bytes} (d : Delivery stream) :
    queuedBuffers d.batches = some (d.parts.map (· ++ [nul])) := by
  have hret : ∀ bs : List (List Bytes), (∀ b ∈ bs, b ∈ d.batches) →
      bs.mapM (fun chunks => onHttpRead chunks .again) =
        some (bs.map fun b => (ReadRet.ok, some (b.flatten ++ [nul]))) := by
    intro bs
    induction bs with
    | nil =>
      intro _
      rfl
    | cons b bs ih =>
      intro hbs
      have hb := hbs b (by simp)
      rw [List.mapM_cons, onHttpRead_again (d.isChunk b hb) (d.nonempty b hb),
        ih fun x hx => hbs x (by simp [hx])]
      rfl
  rw [queuedBuffers, hret d.batches fun _ h => h]
  simp [Delivery.parts, List.filterMap_map, Function.comp_def]

lemma parts_ne_nil {stream : Bytes} (d : Delivery stream) : ∀ p ∈ d.parts, p ≠ [] := by
  intro p hp
  obtain ⟨b, hb, rfl⟩ := List.mem_map.mp hp
  obtain ⟨c, cs, rfl⟩ := List.exists_cons_of_ne_nil (d.nonempty b hb)
  have hc := (d.isChunk _ hb c (by simp)).1
  simp [hc]

lemma parsedRequests_eq {stream : Bytes} (d : Delivery stream) :
    parsedRequests beyond d.batches =
      d.parts.mapM fun p => parseTask beyond (p ++ [nul]) := by
  rw [parsedRequests, queuedBuffers_eq, Option.bind_eq_bind, Option.bind_some, List.mapM_map]
  rfl

/-- The batches that arrive in front of the last one lie within the first `n` bytes. -/
def EarlyWithin (parts : List Bytes) (n : ℕ) : Prop := parts.dropLast.flatten.length ≤ n

/-- The requests parsed from the batches of a request, the beginning of whose method may have
arrived already. -/
lemma mapM_parseTask (beyond : Byte) (r : WellFormed) :
    ∀ (parts : List Bytes) (m : Bytes), IsMethod m → (∀ p ∈ parts, p ≠ []) →
      parts.flatten = m ++ sp :: r.tail →
      (EarlyWithin parts m.length ∧
        ∃ last req, parts.getLast? = some last ∧ parseTask beyond (last ++ [nul]) = some req ∧
          req.method = m.drop parts.dropLast.flatten.length ∧
          (parts.mapM fun p => parseTask beyond (p ++ [nul])) =
            some (List.replicate (parts.length - 1) Request.new ++ [req])) ∨
      ¬ EarlyWithin parts m.length ∧
        (parts.mapM fun p => parseTask beyond (p ++ [nul])) = none := by
  intro parts
  induction parts with
  | nil =>
    intro m _ _ hflat
    simp at hflat
  | cons p ps ih =>
    intro m hm hne hflat
    rw [List.flatten_cons] at hflat
    cases ps with
    | nil =>
      -- the last batch holds the rest of the request
      left
      rw [List.flatten_nil, List.append_nil] at hflat
      obtain ⟨req, hreq, hmeth⟩ : ∃ req,
          parse beyond (m ++ sp :: r.tail ++ [nul]) Request.new = .ok req ∧ req.method = m :=
        parse_wellFormed r hm
      have htask : parseTask beyond (p ++ [nul]) = some req := by
        rw [parseTask, hflat, hreq]
      refine ⟨by simp [EarlyWithin], p, req, rfl, htask, by simpa using hmeth, ?_⟩
      rw [List.mapM_cons, htask]
      rfl
    | cons q qs =>
      have hrest : (q :: qs).flatten ≠ [] := by
        have := hne q (by simp)
        simp [this]
      have hdrop : (p :: q :: qs).dropLast.flatten = p ++ (q :: qs).dropLast.flatten := by
        rw [List.dropLast_cons_cons, List.flatten_cons]
      have hpre : p <+: m ++ sp :: r.tail := ⟨_, hflat⟩
      rcases Cut.prefix_append_cons hpre with ⟨m', rfl⟩ | ⟨t, rfl, ht⟩
      · -- the batch lies in the method, so its task parses nothing
        have hp : IsMethod p := hm.of_subset (List.subset_append_left p m')
        have hm' : IsMethod m' := hm.of_subset (List.subset_append_right p m')
        have htask : parseTask beyond (p ++ [nul]) = some Request.new := by
          rw [parseTask, parse_method hp]
        have hearly : EarlyWithin (p :: q :: qs) (p ++ m').length ↔
            EarlyWithin (q :: qs) m'.length := by
          rw [EarlyWithin, EarlyWithin, hdrop, List.length_append, List.length_append]
          omega
        rw [List.append_assoc] at hflat
        rw [List.mapM_cons, htask, hearly, hdrop]
        rcases ih m' hm' (fun x hx => hne x (by simp [hx])) (List.append_cancel_left hflat) with
          ⟨hin, last, req, hlast, hreq, hmeth, hmap⟩ | ⟨hin, hmap⟩
        · refine Or.inl ⟨hin, last, req, hlast, hreq, ?_, ?_⟩
          · rw [hmeth, List.length_append, ← List.drop_drop, List.drop_left]
          · rw [hmap]
            rfl
        · refine Or.inr ⟨hin, ?_⟩
          rw [hmap]
          rfl
      · -- the batch goes beyond the method but not to the end of the request
        have htne : t ≠ r.tail := by
          rintro rfl
          rw [List.append_right_eq_self] at hflat
          exact hrest hflat
        have hstay : ¬ StaysInside (parse beyond (m ++ sp :: t ++ [nul]) Request.new) :=
          not_staysInside_prefix r hm ht htne
        have htask : parseTask beyond (m ++ sp :: t ++ [nul]) = none := by
          rw [parseTask]
          cases hparse : parse beyond (m ++ sp :: t ++ [nul]) Request.new with
          | error e => rfl
          | ok req =>
            rw [hparse] at hstay
            exact absurd ⟨by simp, by simp⟩ hstay
        refine Or.inr ⟨?_, ?_⟩
        · rw [EarlyWithin, hdrop, List.length_append]
          simp
          omega
        · rw [List.mapM_cons, htask]
          rfl

/-- The last batch of a delivery is what the earlier ones leave of the stream. -/
lemma last_eq_drop {parts : List Bytes} {last stream : Bytes} (hlast : parts.getLast? = some last)
    (hflat : parts.flatten = stream) : last = stream.drop parts.dropLast.flatten.length := by
  rcases List.eq_nil_or_concat parts with rfl | ⟨init, x, rfl⟩
  · cases hlast
  · rw [List.concat_eq_append, List.getLast?_concat] at hlast
    cases hlast
    rw [List.concat_eq_append, List.dropLast_concat, ← hflat]
    simp

/-- **Two deliveries of a request lead to the same parsed requests exactly when** they have
equally many batches and the same last batch, and all earlier batches lie in the method. -/
theorem sameRequests_iff (beyond : Byte) (r : WellFormed) (d d' : Delivery r.stream) :
    SameRequests beyond d d' ↔
      d.parts.length = d'.parts.length ∧ d.parts.getLast? = d'.parts.getLast? ∧
        EarlyWithin d.parts r.method.length ∧ EarlyWithin d'.parts r.method.length := by
  rw [SameRequests, parsedRequests_eq, parsedRequests_eq]
  have hlen : ∀ e : Delivery r.stream, ∀ last, e.parts.getLast? = some last →
      0 < e.parts.length := by
    intro e last hlast
    refine List.length_pos_iff.mpr ?_
    intro hnil
    rw [hnil] at hlast
    cases hlast
  have hdrop : ∀ e : Delivery r.stream, ∀ last, e.parts.getLast? = some last →
      last = r.stream.drop e.parts.dropLast.flatten.length :=
    fun e last hlast => last_eq_drop hlast e.flatten_eq
  rcases mapM_parseTask beyond r d.parts r.method r.isMethod (parts_ne_nil d) d.flatten_eq with
    ⟨hin, last, req, hlast, hreq, hmeth, hmap⟩ | ⟨hout, hmap⟩
  · rcases mapM_parseTask beyond r d'.parts r.method r.isMethod (parts_ne_nil d')
      d'.flatten_eq with ⟨hin', last', req', hlast', hreq', hmeth', hmap'⟩ | ⟨hout', hmap'⟩
    · have hpos := hlen d last hlast
      have hpos' := hlen d' last' hlast'
      rw [hmap, hmap', hlast, hlast']
      rw [EarlyWithin] at hin hin' ⊢
      constructor
      · rintro ⟨requests, h, h'⟩
        rw [← h, Option.some.injEq] at h'
        obtain ⟨hrep, hlastreq⟩ := List.append_inj' h' rfl
        have hcount := congrArg List.length hrep
        rw [List.length_replicate, List.length_replicate] at hcount
        -- the method of the last request tells how much of it came earlier
        have hmeths : r.method.drop d'.parts.dropLast.flatten.length =
            r.method.drop d.parts.dropLast.flatten.length := by
          rw [← hmeth, ← hmeth']
          simpa using congrArg (List.map Request.method) hlastreq
        have hlens := congrArg List.length hmeths
        rw [List.length_drop, List.length_drop] at hlens
        have heq : d.parts.dropLast.flatten.length = d'.parts.dropLast.flatten.length := by
          omega
        refine ⟨by omega, ?_, hin, hin'⟩
        rw [hdrop d last hlast, hdrop d' last' hlast', heq]
      · rintro ⟨hn, hl, -, -⟩
        rw [Option.some.injEq] at hl
        subst hl
        rw [hreq, Option.some.injEq] at hreq'
        subst hreq'
        exact ⟨_, rfl, by rw [hn]⟩
    · rw [hmap']
      constructor
      · rintro ⟨requests, -, h⟩
        cases h
      · rintro ⟨-, -, -, h⟩
        exact absurd h hout'
  · rw [hmap]
    constructor
    · rintro ⟨requests, h, -⟩
      cases h
    · rintro ⟨-, -, h, -⟩
      exact absurd h hout

/-- The request `GET / HTTP/1.1` without headers. -/
def getRequest : WellFormed where
  method := bytes "GET"
  url := bytes "/"
  version := bytes "HTTP/1.1"
  headers := []
  method_ne := by decide
  isMethod := by decide
  url_ne := by decide
  url_visible := by decide +kernel
  version_visible := by decide +kernel
  isHeader := by simp

/-- The request in one batch. -/
def wholeDelivery : Delivery getRequest.stream where
  batches := [[getRequest.stream]]
  isChunk := by
    intro b hb c hc
    simp only [List.mem_singleton] at hb
    rw [hb, List.mem_singleton] at hc
    rw [hc]
    constructor <;> decide
  nonempty := by simp
  flatten_eq := by simp

/-- The request with its first byte in a batch of its own. -/
def cutDelivery : Delivery getRequest.stream where
  batches := [[bytes "G"], [bytes "ET / HTTP/1.1\r\n\r\n"]]
  isChunk := by
    intro b hb c hc
    simp only [List.mem_cons, List.not_mem_nil, or_false] at hb
    rcases hb with rfl | rfl
    · rw [List.mem_singleton] at hc
      rw [hc]
      constructor <;> decide
    · rw [List.mem_singleton] at hc
      rw [hc]
      constructor <;> decide
  nonempty := by simp
  flatten_eq := by decide

/-- The two deliveries of one request are answered differently. -/
theorem not_sameRequests :
    ¬ ∀ (beyond : Byte) (r : WellFormed) (d d' : Delivery r.stream), SameRequests beyond d d' := by
  intro h
  obtain ⟨requests, h₁, h₂⟩ := h 0 getRequest wholeDelivery cutDelivery
  have hone : (parsedRequests 0 wholeDelivery.batches).map List.length = some 1 := by decide
  have htwo : (parsedRequests 0 cutDelivery.batches).map List.length = some 2 := by decide
  rw [h₁] at hone
  rw [h₂, hone] at htwo
  exact absurd htwo (by decide)

end Io
end Sunet
