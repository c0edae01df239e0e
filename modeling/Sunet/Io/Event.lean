/-
# Tasks and responses

What passes between the event loop and the worker threads: the task that the read callback
queues (`REQ_TASK_DATA`), the response a worker leaves for the descriptor it was given
(`SUB_EPOLL_OUT_ENV`), and the queue of buffers that the select loop takes responses from
(`SubEventQueue`).  A task and a response carry in addition the connection that the request
was read from; the program does not have it.
-/
import Sunet.Util.Numeral

namespace Sunet
namespace Io

/-- `REQ_TASK_DATA`: the descriptor and the buffer that the read callback has filled. -/
structure ReqTaskData where
  fd : ℕ
  data : Bytes
  /-- The connection the data was read from. -/
  conn : ℕ
deriving DecidableEq, Repr

/-- The text that the constructor of `SUB_EPOLL_OUT_ENV` puts before the body.  The length
passes through an `int`. -/
def responseHead (httpBody : Bytes) : Bytes :=
  bytes "HTTP/1.1 200 OK\r\nContent-Length: " ++
    numToStr (wrapInt httpBody.length) ++
    bytes "\r\nAccess-Control-Allow-Origin: *\r\n\r\n"

/-- `SUB_EPOLL_OUT_ENV`. -/
structure OutEnv where
  buf : Bytes
  fd : ℕ
  /-- The connection the request was read from. -/
  conn : ℕ
  /-- The number of responses that were produced before. -/
  serial : ℕ
deriving DecidableEq, Repr

/-- The constructor of `SUB_EPOLL_OUT_ENV`, called at the end of `ReqTask::_run`. -/
def OutEnv.new (task : ReqTaskData) (httpBody : Bytes) (serial : ℕ) : OutEnv where
  buf := responseHead httpBody ++ httpBody
  fd := task.fd
  conn := task.conn
  serial := serial

lemma responseHead_ne_nil (httpBody : Bytes) : responseHead httpBody ≠ [] := by
  rw [responseHead, List.append_assoc]
  refine List.append_ne_nil_of_right_ne_nil _ (List.append_ne_nil_of_left_ne_nil ?_ _)
  exact numToStr_ne_nil _

lemma OutEnv.new_buf_ne_nil (task : ReqTaskData) (httpBody : Bytes) (serial : ℕ) :
    (OutEnv.new task httpBody serial).buf ≠ [] := by
  simp [OutEnv.new, responseHead_ne_nil]

/-! ## `SubEventQueue` -/

/-- `_data_buf`. -/
abbrev EventQueue := ℕ → Option (List Bytes)

/-- `_get_evt_data`. -/
def EventQueue.getEvtData (q : EventQueue) (fd : ℕ) : List Bytes := (q fd).getD []

end Io
end Sunet
