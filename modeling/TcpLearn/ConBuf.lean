import TcpLearn.MbufOps

/-!
# The buffer of a connection

The functions of `corvus.c` on one connection. `con_buf_write` appends bytes to
the last mbuf of the queue and to as many new ones as it takes, `con_buf_read`
takes bytes from the first mbufs and recycles those read and written to the end,
`con_buf_peek` copies bytes and changes nothing, `connection_buf_free` recycles
the whole queue. A function that follows a NULL pointer, or whose loop does not
end, has no result.
-/
namespace TcpLearn.ConBuf
open TcpLearn.Memory TcpLearn.MbufOps

def con_info_new (w : World) : ConInfo × World :=
  match w.ctx.free_con_infoq with
  | info :: rest =>
    let w := { w with ctx := { w.ctx with free_con_infoq := rest } }
    let w := w.count fun m => { m with free_conn_info := m.free_conn_info - 1 }
    ({ info with data := [], ctx := w.ctx.block }, w.count fun m => { m with conn_info := m.conn_info + 1 })
  | [] =>
    let block := (cv_malloc .con_info w.heap).1
    let w := { w with heap := (cv_malloc .con_info w.heap).2 }
    (⟨block, [], w.ctx.block⟩, w.count fun m => { m with conn_info := m.conn_info + 1 })

/-- The loop of `connection_buf_free` over the queue. -/
def connection_buf_free_loop : List Mbuf → World → World
  | [], w => w
  | buf :: rest, w => connection_buf_free_loop rest (mbuf_recycle buf w)

def connection_buf_free (w : World) (con : Connection) : World × Connection :=
  match con.info with
  | none => (w, con)
  | some info => (connection_buf_free_loop info.data w, { con with info := some { info with data := [] } })

/-- `mbuf_get`, and the new mbuf's `queue` set to `&info->data`. -/
def get_for (info : Nat) (w : World) : Mbuf × World := ({ (mbuf_get w).1 with queue := some info }, (mbuf_get w).2)

/-- The loop of `con_buf_write`: `buf` is the last mbuf of the queue, `front` the
    mbufs before it and `data` what `data_ptr` and `num_to_write` still cover. The
    last component tells whether the loop ends by its condition, so that the
    function goes on to `con->data_size+=len`, or by the return inside it. -/
def con_buf_write_loop (info : Nat) : Nat → World → List Mbuf → Mbuf → List UInt8 → Option (World × List Mbuf × Bool)
  | 0, _, _, _, _ => none
  | fuel + 1, w, front, buf, data =>
    if data.length ≠ 0 then
      let writable := mbuf_write_size buf
      if writable > data.length then
        let (write, buf) := mbuf_write buf data data.length
        con_buf_write_loop info fuel w front buf (data.drop write)
      else
        let (write, buf) := mbuf_write buf data writable
        if data.length - write = 0 then some (w, front ++ [buf], false)
        else
          let (next, w) := get_for info w
          con_buf_write_loop info fuel w (front ++ [buf]) next (data.drop write)
    else some (w, front ++ [buf], true)

/-- The queue `con_buf_write` starts its loop with: its last mbuf has room. -/
def make_room (info : Nat) (w : World) (queue : List Mbuf) : World × List Mbuf :=
  match queue.getLast? with
  | none => ((get_for info w).2, queue ++ [(get_for info w).1])
  | some buf =>
    if mbuf_write_size buf = 0 then ((get_for info w).2, queue ++ [(get_for info w).1]) else (w, queue)

/-- The con_info of the connection, created when it has none. -/
def attach_info (w : World) (con : Connection) : ConInfo × World :=
  match con.info with
  | none => con_info_new w
  | some info => (info, w)

/-- A pass of the loop writes at least one byte when a new mbuf has room for one,
    so the fuel is enough then; otherwise the loop does not end. -/
def con_buf_write (w : World) (con : Connection) (data : List UInt8) : Option (World × Connection) :=
  if data.length = 0 then some (w, con)
  else
    let (info, w) := attach_info w con
    let (w, queue) := make_room info.block w info.data
    match queue.getLast? with
    | none => none
    | some buf =>
      match con_buf_write_loop info.block (data.length + 1) w queue.dropLast buf data with
      | none => none
      | some (w, queue, counted) =>
        let con := { con with info := some { info with data := queue } }
        some (w, if counted then { con with data_size := con.data_size + data.length } else con)

/-- What a read or a peek returns and the bytes it stores from `dst` on. -/
structure Reply where
  ret : Int
  dst : List UInt8
deriving DecidableEq

/-- The loop of `con_buf_read`: `len` stays what the caller asked for. -/
def con_buf_read_loop (len : Nat) : List Mbuf → World → Int → Reply → World × List Mbuf × Reply
  | [], w, _, reply => (w, [], reply)
  | buf :: rest, w, allow_read, reply =>
    if mhdr_readable (buf :: rest) ∧ allow_read ≠ 0 then
      let (ret, copied, buf) := mbuf_read buf len
      let reply := ⟨reply.ret + ret, reply.dst ++ copied⟩
      if mbuf_can_recycle buf then con_buf_read_loop len rest (mbuf_recycle buf w) (allow_read - ret) reply
      else (w, buf :: rest, reply)
    else (w, buf :: rest, reply)

def con_buf_read (w : World) (con : Connection) (len : Nat) : Option (World × Connection × Reply) :=
  match con.info with
  | none => none
  | some info =>
    let read := con.data_size
    let allow_read := if len > read then read else len
    let (w, queue, reply) := con_buf_read_loop len info.data w allow_read ⟨0, []⟩
    some (w, { con with info := some { info with data := queue }, data_size := con.data_size - reply.ret }, reply)

/-- The loop of `con_buf_peek` over the queue. -/
def con_buf_peek_loop : List Mbuf → Nat → Reply → Reply
  | [], _, reply => reply
  | buf :: rest, len, reply =>
    let tmp := mbuf_read_size buf
    let read := if tmp > len then len else tmp
    let reply := ⟨reply.ret + read, reply.dst ++ (mbuf_peek buf read).2⟩
    if len - read = 0 then reply else con_buf_peek_loop rest (len - read) reply

def con_buf_peek (con : Connection) (len : Nat) : Reply :=
  match con.info with
  | none => ⟨0, []⟩
  | some info => con_buf_peek_loop info.data len ⟨0, []⟩

end TcpLearn.ConBuf
