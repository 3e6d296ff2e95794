import TcpLearn.ConBuf

/-!
# Contexts and connections

The functions of `corvus.c` on a context: creating it, handing out connections
and taking them back, releasing its pools. Connections given back are linked into
`ctx->conns`, whose head `context_init` leaves zeroed. `context_connection_new`
unlinks through `con`, which is still NULL, when that list is not empty, so it
has a result only while the list is empty (`connection_new_pooled`).
-/
namespace TcpLearn.Contexts
open TcpLearn.Memory TcpLearn.MbufOps TcpLearn.ConBuf TcpLearn.Tailq

/-- `sizeof(struct mbuf)`. -/
def sizeof_mbuf : Int := 56

/-- The size is computed in `size_t`. -/
def context_init (ctx : Context) (bufsize : Int) : Context :=
  { ctx with
    mbuf_offset := ((bufsize - sizeof_mbuf) % 2 ^ 64).toNat
    mstats := ⟨0, 0, 0, 0, 0, 0, 0⟩
    free_mbufq := []
    free_con_infoq := [] }

def context_new (heap : Heap) (bufsize : Int) : World :=
  ⟨(cv_malloc .context heap).2,
    context_init ⟨(cv_malloc .context heap).1, 0, zeroed, [], [], ⟨0, 0, 0, 0, 0, 0, 0⟩⟩ bufsize⟩

def context_destroy (w : World) : Heap := cv_free w.ctx.block w.heap

/-- The loop of `context_free_content` over the pool of con_infos. -/
def free_con_info_loop : List ConInfo → World → World
  | [], w => { w with ctx := { w.ctx with free_con_infoq := [] } }
  | info :: rest, w =>
    let w := { w with ctx := { w.ctx with free_con_infoq := rest } }
    free_con_info_loop rest { w with heap := cv_free info.block w.heap }

def context_free_content (w : World) : Int × World :=
  if w.ctx.mstats.conns ≠ 0 then (1, w)
  else
    let w := mbuf_destroy w
    (0, free_con_info_loop w.ctx.free_con_infoq w)

/-- All fields are zeroed, the links of the entry `next` included, and `ctx` set. -/
def conn_init (con : Nat) (w : World) : World × Connection :=
  ({ w with ctx := { w.ctx with conns := TAILQ_RESET w.ctx.conns con } }, ⟨0, none, some w.ctx.block⟩)

def context_connection_new (w : World) : Option (World × Nat × Connection) :=
  let con : Option Nat := none
  if TAILQ_FIRST w.ctx.conns () ≠ none then do
    let conns ← TAILQ_REMOVE w.ctx.conns () con
    let w := { w with ctx := { w.ctx with conns := conns } }
    let w := w.count fun m => { m with free_conns := m.free_conns - 1 }
    let con ← con
    let (w, c) := conn_init con w
    some (w.count fun m => { m with conns := m.conns + 1 }, con, c)
  else
    let con := (cv_malloc .connection w.heap).1
    let w := { w with heap := (cv_malloc .connection w.heap).2 }
    let (w, c) := conn_init con w
    some (w.count fun m => { m with conns := m.conns + 1 }, con, c)

/-- Giving up the con_info and the mbufs queued on it. -/
def recyle_info (w : World) (c : Connection) : World × Connection :=
  if c.info.isSome then
    let w := w.count fun m => { m with conn_info := m.conn_info - 1 }
    let (w, c) := connection_buf_free w c
    let w := { w with ctx := { w.ctx with free_con_infoq := w.ctx.free_con_infoq ++ c.info.toList } }
    (w.count fun m => { m with free_conn_info := m.free_conn_info + 1 }, c)
  else (w, c)

/-- Putting a connection at the front of `ctx->conns`, unlinked first if a link of it is set. -/
def link_free (conns : Links Unit Nat) (con : Nat) : Option (Links Unit Nat) := do
  let conns ←
    if conns.cell (.next con) ≠ none ∨ conns.prev con ≠ none then do
      let conns ← TAILQ_REMOVE conns () (some con)
      some (TAILQ_RESET conns con)
    else some conns
  some (TAILQ_INSERT_HEAD conns () con)

def context_conn_recyle (w : World) (con : Nat) (c : Connection) : Option (World × Connection) := do
  let (w, c) := recyle_info w c
  let w := w.count fun m => { m with conns := m.conns - 1 }
  let conns ← link_free w.ctx.conns con
  let w := { w with ctx := { w.ctx with conns := conns } }
  some (w.count fun m => { m with free_conns := m.free_conns + 1 }, { c with info := none })

/-! ## Connections handed out -/

theorem connection_new_pooled {w : World} (pooled : TAILQ_FIRST w.ctx.conns () ≠ none) :
    context_connection_new w = none := by
  simp [context_connection_new, pooled, TAILQ_REMOVE]

/-- A new block, zeroed, with its links unset. -/
theorem connection_new_fresh {w : World} (empty : TAILQ_FIRST w.ctx.conns () = none) :
    context_connection_new w = some
      (({ w with
          heap := (cv_malloc .connection w.heap).2
          ctx := { w.ctx with conns := TAILQ_RESET w.ctx.conns (cv_malloc .connection w.heap).1 } } : World).count
        fun m => { m with conns := m.conns + 1 }, (cv_malloc .connection w.heap).1, ⟨0, none, some w.ctx.block⟩) := by
  simp [context_connection_new, empty, conn_init]

end TcpLearn.Contexts
