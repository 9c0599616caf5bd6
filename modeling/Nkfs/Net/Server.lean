import Nkfs.Core.State
import Nkfs.Net.Packet

/-!
# A connection of the server

The thread of a connection reads packets from a byte stream and answers them. What the memory
allocator and the storage do for a request is an `Outcome`; whether a socket call succeeds is said by
the socket. A request is a packet that passes the check, followed by its payload if it is a put.

Two handlers break the framing: a get with payload size 0 is not answered, and a put whose pages
cannot be allocated is answered before its payload is read. All other requests are either answered
once, with exactly their bytes consumed, or the connection fails (`serve_framed`).
-/

namespace Nkfs

open Lib.Bytes Lib.Program

/-! ### The socket -/

/-- The results of the socket calls by number: whether a read succeeds while there are bytes, and
after how many bytes a write fails, if it does. -/
structure Sock where
  readOk : ℕ → Bool
  wrote : ℕ → Option ℕ

/-- Source: `core/net.h` `struct nkfs_con`, with what is still to be read and what was written. -/
structure Con where
  err : Option Errno
  inp : List UInt8
  out : List UInt8
  sock : Sock
  tick : ℕ

/-- Functions on a connection. -/
abbrev N := Prog Con Fault

/-- The connection with an error; the first one stays. -/
def Con.failed (con : Con) (err : Errno) : Con := { con with err := con.err.or (some err) }

/-- Source: `core/net.c` `nkfs_con_fail` -/
def conFail (err : Errno) : N Unit := modify fun con => con.failed err

/-- Source: `core/net.c` `nkfs_con_recv` -/
def conRecv (nob : ℕ) : N (Except Errno (List UInt8)) := do
  let con ← get
  match con.err with
  | some err => return .error err
  | none =>
    if con.sock.readOk con.tick = true ∧ nob ≤ con.inp.length then
      set { con with inp := con.inp.drop nob, tick := con.tick + 1 }
      return .ok (con.inp.take nob)
    else
      set { con with tick := con.tick + 1 }
      conFail .eio
      return .error .eio

/-- Source: `core/net.c` `nkfs_con_send` -/
def conSend (buffer : List UInt8) : N (Except Errno Unit) := do
  let con ← get
  match con.err with
  | some err => return .error err
  | none =>
    match con.sock.wrote con.tick with
    | none =>
      set { con with out := con.out ++ buffer, tick := con.tick + 1 }
      return .ok ()
    | some wrote =>
      set { con with out := con.out ++ buffer.take wrote, tick := con.tick + 1 }
      conFail .eio
      return .error .eio

/-! ### Packets and pages -/

/-- Bytes in memory. -/
def memOf (l : List UInt8) : Mem := fun i => l.getD i 0

/-- A packet as `net_pkt_alloc` gives it. -/
def zeroPkt : Mem := fun _ => 0

section

variable (csum : List UInt8 → UInt64)

/-- Source: `core/net.c` `nkfs_con_send_pkt` -/
def conSendPkt (pkt : Mem) : N (Except Errno Unit) := conSend (slice (netPktSign csum pkt) 0 pktSize)

/-- Source: `core/net.c` `nkfs_con_send_reply` -/
def conSendReply (reply : Mem) (err : Except Errno Unit) : N (Except Errno Unit) :=
  conSendPkt csum (storeLe reply errOff 4 (resCode err))

/-- Source: `core/net.c` `nkfs_con_recv_pkt` -/
def conRecvPkt : N (Except Errno Mem) := do
  match ← conRecv pktSize with
  | .error err => return .error err
  | .ok bytes =>
    match netPktCheck csum (memOf bytes) with
    | .error err =>
      conFail .einval
      return .error err
    | .ok () => return .ok (memOf bytes)

/-- `pages.nr_pages` for `len` bytes. Source: `core/upages.c` `nkfs_pages_create` -/
def pagesFor (len : ℕ) : ℕ := len / pageSize + if len % pageSize ≠ 0 then 1 else 0

/-- The loop of `nkfs_con_recv_pages` with `left` pages left to fill. -/
def recvLoop : ℕ → ℕ → N (Except Errno (List UInt8))
  | _, 0 => return .ok []
  | 0, _ + 1 => stop .bug
  | left + 1, read + 1 => do
    let llen := if read + 1 > pageSize then pageSize else read + 1
    match ← conRecv llen with
    | .error err =>
      conFail err
      return .error err
    | .ok buf =>
      match ← recvLoop left (read + 1 - llen) with
      | .error err => return .error err
      | .ok bufs => return .ok (buf ++ bufs)

/-- The loop of `nkfs_con_send_pages` with `left` pages left, from offset `off` of their contents. -/
def sendLoop (data : Mem) : ℕ → ℕ → ℕ → N (Except Errno Unit)
  | _, 0, _ => return .ok ()
  | 0, _ + 1, _ => stop .bug
  | left + 1, len + 1, off => do
    let ilen := if len + 1 > pageSize then pageSize else len + 1
    match ← conSend (slice data off ilen) with
    | .error err =>
      conFail err
      return .error err
    | .ok () => sendLoop data left (len + 1 - ilen) (off + ilen)

/-- The checksum of the first `len` bytes of pages for `total` bytes.
Source: `core/upages.c` `nkfs_pages_dsum` -/
def pagesDsum (total : ℕ) (data : Mem) (len : ℕ) : Except Errno UInt64 :=
  if total < len then .error .einval else .ok (csum (slice data 0 len))

/-! ### Handlers -/

/-- What the environment does for one request: the allocations of the packet, of the reply and of the
pages, and the results of the storage. `getObj` gives the number of bytes read and the contents of the
pages, `other` the result of the remaining operations, `u` what they leave in the reply's union. -/
structure Outcome where
  pktMem : Bool
  replyMem : Bool
  pagesMem : Bool
  getObj : Except Errno (ℕ × Mem)
  putObj : Except Errno Unit
  other : Except Errno Unit
  u : Mem

variable (o : Outcome)

/-- Source: `core/net.c` `nkfs_con_recv_pages` -/
def conRecvPages (pkt : Mem) : N (Except Errno (List UInt8)) := do
  if pktDsize pkt = 0 ∨ pktDsize pkt > netPktMaxDsize then return .error .einval
  else if o.pagesMem = false then return .error .enomem
  else
    match ← recvLoop (pagesFor (pktDsize pkt)) (pktDsize pkt) with
    | .error err => return .error err
    | .ok data =>
      match pagesDsum csum (pktDsize pkt) (memOf data) (pktDsize pkt) with
      | .error err => return .error err
      | .ok dsum =>
        if loadLe pkt dsumOff 8 ≠ dsum.toNat then return .error .einval
        else return .ok data

/-- Source: `core/net.c` `nkfs_con_send_pages` -/
def conSendPages (total : ℕ) (data : Mem) (len : ℕ) : N (Except Errno Unit) := do
  if total < len then return .error .einval
  else sendLoop data (pagesFor total) len 0

/-- Source: `core/net.c` `nkfs_con_get_obj` -/
def conGetObj (pkt reply : Mem) : N (Except Errno Unit) := do
  if pktDsize pkt = 0 ∨ pktDsize pkt > netPktMaxDsize then return .error .einval
  else if o.pagesMem = false then
    let _ ← conSendReply csum reply (.error .enomem)
    return .error .enomem
  else
    match o.getObj with
    | .error err =>
      let _ ← conSendReply csum reply (.error err)
      return .error err
    | .ok (read, data) =>
      if read = 0 then
        conSendReply csum (storeLe reply dsizeOff 4 read) (.ok ())
      else
        match pagesDsum csum (pktDsize pkt) data read with
        | .error err =>
          let _ ← conSendReply csum reply (.error err)
          return .error err
        | .ok dsum =>
          let reply := storeLe reply dsumOff 8 dsum.toNat
          match ← conSendReply csum (storeLe reply dsizeOff 4 read) (.ok ()) with
          | .error err => return .error err
          | .ok () => conSendPages (pktDsize pkt) data read

/-- Source: `core/net.c` `nkfs_con_put_obj` -/
def conPutObj (pkt reply : Mem) : N (Except Errno Unit) := do
  match ← conRecvPages csum o pkt with
  | .error err =>
    let con ← get
    if con.err = none then
      let _ ← conSendReply csum reply (.error err)
      return .error err
    else return .error err
  | .ok _ => conSendReply csum reply o.putObj

/-- The handlers that do one operation of the storage or of the route module and reply. -/
def conReply (reply : Mem) (err : Except Errno Unit) (u : Mem) : N (Except Errno Unit) :=
  conSendReply csum (copyIn reply uOff u uSize) err

/-- Source: `core/net.c` `nkfs_con_create_obj` -/
def conCreateObj (reply : Mem) : N (Except Errno Unit) := conReply csum reply o.other o.u

/-- Source: `core/net.c` `nkfs_con_delete_obj` -/
def conDeleteObj (reply : Mem) : N (Except Errno Unit) := conReply csum reply o.other zeroPkt

/-- Source: `core/net.c` `nkfs_con_echo` -/
def conEcho (reply : Mem) : N (Except Errno Unit) := conReply csum reply (.ok ()) zeroPkt

/-- Source: `core/net.c` `nkfs_con_query_obj` -/
def conQueryObj (reply : Mem) : N (Except Errno Unit) := conReply csum reply o.other o.u

/-- Source: `core/route.c` `nkfs_route_neigh_handshake` -/
def conNeighHandshake (reply : Mem) : N (Except Errno Unit) := conReply csum reply o.other o.u

/-- Source: `core/route.c` `nkfs_route_neigh_heartbeat` -/
def conNeighHeartbeat (reply : Mem) : N (Except Errno Unit) := conReply csum reply o.other o.u

/-- Source: `core/net.c` `nkfs_con_process_pkt` -/
def conProcessPkt (pkt : Mem) : N (Except Errno Unit) := do
  if o.replyMem = false then
    conFail .enomem
    return .error .enomem
  else
    match pktType pkt with
    | .echo => conEcho csum zeroPkt
    | .putObj => conPutObj csum o pkt zeroPkt
    | .getObj => conGetObj csum o pkt zeroPkt
    | .deleteObj => conDeleteObj csum o zeroPkt
    | .createObj => conCreateObj csum o zeroPkt
    | .queryObj => conQueryObj csum o zeroPkt
    | .neighHandshake => conNeighHandshake csum o zeroPkt
    | .neighHeartbeat => conNeighHeartbeat csum o zeroPkt
    | .unknown => conReply csum zeroPkt (.error .einval) zeroPkt

/-- One round of the loop of `nkfs_con_thread_routine`. -/
def serve : N Unit := do
  if o.pktMem = false then conFail .enomem
  else
    match ← conRecvPkt csum with
    | .error _ => return ()
    | .ok pkt =>
      let _ ← conProcessPkt csum o pkt

end

/-! ### Requests and runs -/

/-- A packet that passes the check, with its payload. -/
structure Req (csum : List UInt8 → UInt64) where
  bytes : List UInt8
  payload : List UInt8
  length : bytes.length = pktSize
  check : netPktCheck csum (memOf bytes) = .ok ()
  payload_length : payload.length =
    if pktType (memOf bytes) = .putObj then pktDsize (memOf bytes) else 0

section

variable {csum : List UInt8 → UInt64}

/-- The bytes of a request. -/
def Req.stream (req : Req csum) : List UInt8 := req.bytes ++ req.payload

def Req.type (req : Req csum) : PktType := pktType (memOf req.bytes)

def Req.dsize (req : Req csum) : ℕ := pktDsize (memOf req.bytes)

/-- A get asks for something, and the pages for the payload of a put can be allocated. -/
def Admissible (req : Req csum) (o : Outcome) : Prop :=
  (req.type = .getObj → req.dsize ≠ 0) ∧ (req.type = .putObj → req.dsize ≠ 0 → o.pagesMem = true)

/-- Exactly the request was consumed and one reply was sent, followed by its data if it answers a get
with success. -/
def Handled (req : Req csum) (con con' : Con) : Prop :=
  con.inp = req.stream ++ con'.inp ∧ ∃ reply data, netPktCheck csum reply = .ok () ∧
    con'.out = con.out ++ slice reply 0 pktSize ++ data ∧
    data.length = if req.type = .getObj ∧ pktErr reply = 0 then pktDsize reply else 0

/-- The requests are handled in turn until the connection fails. -/
def FramedRun : List (Req csum × Outcome) → Con → Prop
  | [], _ => True
  | (req, o) :: run, con => ∃ con', serve csum o con = .ok ((), con') ∧
      (con'.err ≠ none ∨ (Handled req con con' ∧ FramedRun run con'))

end

end Nkfs
