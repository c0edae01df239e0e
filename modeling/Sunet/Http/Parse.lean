/-
# The parser of `http_parse.cpp`

`HttpParser::_parse` reads a request through a pointer into the receive buffer.  The buffer
is the list of its bytes up to and including the terminator, a pointer is the part of the
list from its position on, and a read through a pointer behind the terminator ends the run
with `Fault.overread`.  The three-argument `std::string::assign` on the buffer makes a
string of the buffer first, which ends at the first NUL, and throws `out_of_range` when the
position lies behind the end of that string.
-/
import Sunet.Util.StringUtil
import Sunet.Http.Codec

namespace Sunet
namespace Http

open Byte StringUtil

/-- `Request`. -/
structure Request where
  url : Bytes
  method : Bytes
  version : Bytes
  headers : Std.ExtTreeMap Bytes Bytes
  params : Std.ExtTreeMap Bytes Bytes

/-- The constructor of `Request`. -/
def Request.new : Request where
  url := []
  method := []
  version := []
  headers := ∅
  params := ((∅ : Std.ExtTreeMap Bytes Bytes).insert (bytes "q") []).insert (bytes "p") (bytes "1")

/-- How a run of the parser can end early. -/
inductive Fault
  /-- A read behind the terminator of the receive buffer. -/
  | overread
  /-- The exception of `std::string::assign`. -/
  | outOfRange
  /-- The fuel of the model is used up. -/
  | fuel
deriving DecidableEq, Repr

/-- `str.assign(recv_buf, pos, len)`. -/
def assign (recvBuf : Bytes) (pos len : ℕ) : Except Fault Bytes :=
  match cstr recvBuf with
  | none => .error .overread
  | some str =>
    match substr str pos len with
    | none => .error .outOfRange
    | some part => .ok part

/-! ## The request line -/

/-- `req_part`. -/
inductive ReqPart
  | method
  | url
  | ver
deriving DecidableEq, Repr

/-- `request.params[key_value[0]] = decode_val` for one `key=value` field. -/
def addParam (beyond : Byte) (params : Std.ExtTreeMap Bytes Bytes) (param : Bytes) :
    Std.ExtTreeMap Bytes Bytes :=
  match split param [eqSign] with
  | [key, value] => params.insert key (decode beyond value)
  | _ => params

/-- What `_parse_desc` does with the URL in front of a second space; `none` if it has no
field. -/
def readUrl (beyond : Byte) (urlInfo : Bytes) (request : Request) : Option Request :=
  match split urlInfo [qmark] with
  | [] => none
  | [url] => some { request with url := url }
  | url :: query :: _ =>
    some { request with
      url := url
      params := (split query [amp]).foldl (addParam beyond) request.params }

/-- The loop of `_parse_desc` from the pointer on: the request and, unless the line is
rejected, `req_part`, `i` and `parse_len` at the carriage return. -/
def descLoop (beyond : Byte) (recvBuf : Bytes) :
    Bytes → ReqPart → ℕ → ℕ → Request → Except Fault (Request × Option (ReqPart × ℕ × ℕ))
  | [], _, _, _, _ => .error .overread
  | c :: rest, reqPart, i, parseLen, request =>
    if c = cr then .ok (request, some (reqPart, i, parseLen))
    else if c ≠ sp then
      -- every byte of the method is looked at, of the other parts none
      if reqPart = .method ∧ (schar c < 0x41 ∨ schar c > 0x5a) then .ok (request, none)
      else descLoop beyond recvBuf rest reqPart (i + 1) (parseLen + 1) request
    else
      match reqPart with
      | .method => do
        let method ← assign recvBuf 0 parseLen
        descLoop beyond recvBuf rest .url (i + 1) 0 { request with method := method }
      | .url => do
        let urlInfo ← assign recvBuf (request.method.length + 1) parseLen
        match readUrl beyond urlInfo request with
        | none => .ok (request, none)
        | some request => descLoop beyond recvBuf rest .ver (i + 1) 0 request
      -- the version can hold spaces: they are passed over and not counted
      | .ver => descLoop beyond recvBuf rest .ver (i + 1) parseLen request

/-- The part of `_parse_desc` behind its loop that sets the version. -/
def readVersion (recvBuf : Bytes) (parseLen : ℕ) (request : Request) : Except Fault Request :=
  if parseLen = 0 then .ok { request with version := bytes "HTTP/1.1" }
  else do
    -- the offset is that of a URL without a query
    let version ← assign recvBuf (request.method.length + request.url.length + 2) parseLen
    .ok { request with version := version }

/-- `_parse_desc`: the request and the value returned, `none` for `HTTP_PARSE_FAIL`. -/
def parseDesc (beyond : Byte) (recvBuf : Bytes) (request : Request) :
    Except Fault (Request × Option ℕ) := do
  match ← descLoop beyond recvBuf recvBuf .method 0 0 request with
  | (request, none) => .ok (request, none)
  | (request, some (.url, i, parseLen)) =>
    if parseLen ≠ 0 then do
      let url ← assign recvBuf (request.method.length + 1) parseLen
      let request ← readVersion recvBuf 0 { request with url := url }
      .ok (request, some (i + 2))
    else .ok (request, none)
  -- a line without any space gets here too, with the length of its method
  | (request, some (_, i, parseLen)) => do
    let request ← readVersion recvBuf parseLen request
    .ok (request, some (i + 2))

/-! ## The headers -/

/-- `*p == '\r' && *(p + 1) == '\n'`. -/
def blankLine : Bytes → Except Fault Bool
  | [] => .error .overread
  | c :: rest =>
    if c = cr then
      match rest with
      | [] => .error .overread
      | c' :: _ => .ok (c' = lf)
    else .ok false

/-- `while (*p != stop)`: the number of bytes passed and the pointer at the stop byte. -/
def scanTo (stop : Byte) : Bytes → Except Fault (ℕ × Bytes)
  | [] => .error .overread
  | c :: rest =>
    if c = stop then .ok (0, c :: rest)
    else do
      let (n, p) ← scanTo stop rest
      .ok (n + 1, p)

/-- `while (*p == ' ')`. -/
def skipSpaces : Bytes → Except Fault (ℕ × Bytes)
  | [] => .error .overread
  | c :: rest =>
    if c = sp then do
      let (n, p) ← skipSpaces rest
      .ok (n + 1, p)
    else .ok (0, c :: rest)

/-- One header: the pointer, `i` and the request behind it. -/
def headerField (recvBuf : Bytes) (p : Bytes) (i : ℕ) (request : Request) :
    Except Fault (Bytes × ℕ × Request) := do
  let (keyLen, p) ← scanTo colon p
  let i := i + keyLen
  let key ← assign recvBuf (i - keyLen) keyLen
  let (spaces, p) ← skipSpaces (p.drop 1)
  let i := i + 1 + spaces
  let (valueLen, p) ← scanTo cr p
  let i := i + valueLen
  let value ← assign recvBuf (i - valueLen) valueLen
  .ok (p.drop 2, i + 2, { request with headers := request.headers.insert key value })

/-- The `while (1)` loop of `_parse_headers`. -/
def headersLoop (recvBuf : Bytes) : ℕ → Bytes → ℕ → Request → Except Fault (Request × ℕ)
  | 0, _, _, _ => .error .fuel
  | n + 1, p, i, request => do
    if ← blankLine p then .ok (request, i + 2)
    else
      let (p, i, request) ← headerField recvBuf p i request
      headersLoop recvBuf n p i request

/-- `_parse_headers`. -/
def parseHeaders (recvBuf : Bytes) (request : Request) : Except Fault (Request × ℕ) :=
  headersLoop recvBuf (recvBuf.length + 1) recvBuf 0 request

/-- `_parse`. -/
def parse (beyond : Byte) (recvBuf : Bytes) (request : Request) : Except Fault Request := do
  match ← parseDesc beyond recvBuf request with
  | (request, none) => .ok request
  | (request, some len) => do
    let (request, _) ← parseHeaders (recvBuf.drop len) request
    .ok request

end Http
end Sunet
