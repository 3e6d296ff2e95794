import TcpLearn.Frame
import TcpLearn.Runs

/-!
# Connections sharing a context

A context, the connections at their addresses and any order of operations on
them. Callers name a connection by the number of the call of
`context_connection_new` that returned it (`handles`). `inUse` lists the
connections handed out and not given back since.

`ctx->conns` always links the connections given back (`Linked`), so giving one
back always has a result, and a new one can be had as long as none has been given
back.
-/
namespace TcpLearn.Pools
open TcpLearn.Memory TcpLearn.MbufOps TcpLearn.ConBuf TcpLearn.Chain TcpLearn.Contexts TcpLearn.Tailq TcpLearn.Frame
open TcpLearn.Runs

inductive PoolOp where
  | new
  | write (i : Nat) (data : List UInt8)
  | read (i len : Nat)
  | peek (i len : Nat)
  | free (i : Nat)
  | recycle (i : Nat)
deriving DecidableEq

structure Pool where
  world : World
  /-- The connection at an address. -/
  con : Nat → Connection
  /-- What the calls of `context_connection_new` returned. -/
  handles : List Nat
  inUse : List Nat
  /-- What reads and peeks returned and stored, with the handle they were given. -/
  replies : List (Nat × Reply)

/-- A context before any connection is created. -/
def start (w : World) : Pool := ⟨w, fun _ => ⟨0, none, none⟩, [], [], []⟩

/-- An operation has changed the connection `c` and what it shares with others. -/
def Pool.set (s : Pool) (w : World) (c : Nat) (con : Connection) : Pool :=
  { s with world := w, con := Function.update s.con c con }

def step (s : Pool) : PoolOp → Option Pool
  | .new => do
    let (w, c, con) ← context_connection_new s.world
    some { s.set w c con with handles := s.handles ++ [c], inUse := c :: s.inUse }
  | .write i data => do
    let c ← s.handles[i]?
    let (w, con) ← con_buf_write s.world (s.con c) data
    some (s.set w c con)
  | .read i len => do
    let c ← s.handles[i]?
    let (w, con, reply) ← con_buf_read s.world (s.con c) len
    some { s.set w c con with replies := s.replies ++ [(i, reply)] }
  | .peek i len => do
    let c ← s.handles[i]?
    some { s with replies := s.replies ++ [(i, con_buf_peek (s.con c) len)] }
  | .free i => do
    let c ← s.handles[i]?
    let (w, con) := connection_buf_free s.world (s.con c)
    some (s.set w c con)
  | .recycle i => do
    let c ← s.handles[i]?
    let (w, con) ← context_conn_recyle s.world c (s.con c)
    some { s.set w c con with inUse := s.inUse.erase c }

section
variable (s : Pool) (w : World) (c : Nat) (con : Connection)
@[simp] theorem set_world : (s.set w c con).world = w := rfl
@[simp] theorem set_handles : (s.set w c con).handles = s.handles := rfl
@[simp] theorem set_inUse : (s.set w c con).inUse = s.inUse := rfl
@[simp] theorem set_replies : (s.set w c con).replies = s.replies := rfl
@[simp] theorem set_con_self : (s.set w c con).con c = con := by simp [Pool.set]
theorem set_con_other {k : Nat} (other : k ≠ c) : (s.set w c con).con k = s.con k := by simp [Pool.set, other]
end

/-! ## What a step does -/

variable {s s' : Pool}

theorem step_new (stepped : step s .new = some s') :
    TAILQ_FIRST s.world.ctx.conns () = none ∧
      s'.world.ctx.conns = TAILQ_RESET s.world.ctx.conns s.world.heap.kinds.length ∧
      s'.world.ctx.mbuf_offset = s.world.ctx.mbuf_offset ∧
      s'.world.heap = (cv_malloc .connection s.world.heap).2 ∧
      s'.con = Function.update s.con s.world.heap.kinds.length ⟨0, none, some s.world.ctx.block⟩ ∧
      s'.handles = s.handles ++ [s.world.heap.kinds.length] ∧ s'.inUse = s.world.heap.kinds.length :: s.inUse ∧
      s'.replies = s.replies := by
  by_cases empty : TAILQ_FIRST s.world.ctx.conns () = none
  · simp only [step, connection_new_fresh empty] at stepped
    cases stepped
    exact ⟨empty, rfl, rfl, rfl, rfl, rfl, rfl, rfl⟩
  · simp [step, connection_new_pooled empty] at stepped

theorem step_write {i : Nat} {data : List UInt8} :
    step s (.write i data) = some s' ↔
      ∃ c w con, s.handles[i]? = some c ∧ con_buf_write s.world (s.con c) data = some (w, con) ∧ s.set w c con = s' := by
  simp [step, Option.bind_eq_some_iff]

theorem step_read {i len : Nat} :
    step s (.read i len) = some s' ↔
      ∃ c w con reply, s.handles[i]? = some c ∧ con_buf_read s.world (s.con c) len = some (w, con, reply) ∧
        { s.set w c con with replies := s.replies ++ [(i, reply)] } = s' := by
  simp [step, Option.bind_eq_some_iff]

theorem step_peek {i len : Nat} :
    step s (.peek i len) = some s' ↔
      ∃ c, s.handles[i]? = some c ∧ { s with replies := s.replies ++ [(i, con_buf_peek (s.con c) len)] } = s' := by
  simp [step, Option.bind_eq_some_iff]

theorem step_free {i : Nat} :
    step s (.free i) = some s' ↔
      ∃ c, s.handles[i]? = some c ∧
        s.set (connection_buf_free s.world (s.con c)).1 c (connection_buf_free s.world (s.con c)).2 = s' := by
  simp [step, Option.bind_eq_some_iff]

theorem step_recycle {i : Nat} :
    step s (.recycle i) = some s' ↔
      ∃ c w con, s.handles[i]? = some c ∧ context_conn_recyle s.world c (s.con c) = some (w, con) ∧
        { s.set w c con with inUse := s.inUse.erase c } = s' := by
  simp [step, Option.bind_eq_some_iff]

/-! ## The connections given back -/

/-- `ctx->conns` links the connections of `pool`, and every connection is linked
    there or in use and unlinked. -/
structure Linked (s : Pool) (pool : List Nat) : Prop where
  queue : Queue s.world.ctx.conns () pool
  known : ∀ c ∈ s.handles, c ∈ pool ∨ c ∈ s.inUse ∧ Unlinked s.world.ctx.conns c
  below : ∀ c ∈ s.handles, c < s.world.heap.kinds.length
  distinct : s.handles.Nodup

theorem start_linked {w : World} (empty : Queue w.ctx.conns () []) : Linked (start w) [] :=
  ⟨empty, by simp [start], by simp [start], by simp [start]⟩

/-- Operations on buffers keep the links. -/
theorem linked_keeps {pool : List Nat} (linked : Linked s pool) (keeps : Keeps s.world s'.world)
    (handles : s'.handles = s.handles) (inUse : s'.inUse = s.inUse) : Linked s' pool := by
  obtain ⟨queue, known, below, distinct⟩ := linked
  refine ⟨by rwa [keeps.conns], by rwa [handles, inUse, keeps.conns], ?_, by rwa [handles]⟩
  intro c member
  exact Nat.lt_of_lt_of_le (below c (by rwa [← handles])) keeps.grown.length_le

theorem linked_new {pool : List Nat} (linked : Linked s pool) (stepped : step s .new = some s') :
    pool = [] ∧ Linked s' [] := by
  obtain ⟨empty, conns, _, heap, _, handles, inUse, _⟩ := step_new stepped
  have none : pool = [] := by
    rw [queue_first linked.queue] at empty
    exact List.head?_eq_none_iff.mp empty
  subst none
  refine ⟨rfl, ?_, ?_, ?_, ?_⟩
  · rw [conns]
    exact reset_queue linked.queue (by simp)
  · intro c member
    rw [handles] at member
    refine .inr ?_
    rw [inUse, conns]
    rcases List.mem_append.mp member with earlier | last
    · obtain ⟨used, unlinked⟩ := (linked.known c earlier).resolve_left (by simp)
      exact ⟨by simp [used], reset_unlinked _ unlinked⟩
    · rw [List.mem_singleton.mp last]
      exact ⟨by simp, reset_self _ _⟩
  · intro c member
    rw [handles] at member
    simp only [heap, cv_malloc, List.length_append, List.length_singleton]
    rcases List.mem_append.mp member with earlier | last
    · exact Nat.lt_succ_of_lt (linked.below c earlier)
    · rw [List.mem_singleton.mp last]
      exact Nat.lt_succ_self _
  · rw [handles]
    refine List.nodup_append.mpr ⟨linked.distinct, by simp, ?_⟩
    intro a earlier b last same
    rw [List.mem_singleton.mp last] at same
    exact absurd (linked.below a earlier) (by omega)

theorem linked_recycle {pool : List Nat} (linked : Linked s pool) {i c : Nat} (found : s.handles[i]? = some c) :
    ∃ w, context_conn_recyle s.world c (s.con c) = some (w, { s.con c with info := none }) ∧
      w.ctx.mbuf_offset = s.world.ctx.mbuf_offset ∧
      Linked { s.set w c { s.con c with info := none } with inUse := s.inUse.erase c } (c :: pool.erase c) := by
  have member := List.mem_of_getElem? found
  obtain ⟨queue, known, below, distinct⟩ := linked
  obtain ⟨links, executed, listed, apart⟩ := link_free_spec queue ((known c member).imp id And.right)
  have keeps := keeps_recyle_info s.world (s.con c)
  refine ⟨_, conn_recyle_spec (s.con c) executed, keeps.offset, listed, ?_, ?_, distinct⟩
  · intro k handed
    by_cases same : k = c
    · exact .inl (by simp [same])
    · by_cases pooled : k ∈ pool
      · exact .inl (List.mem_cons_of_mem _ ((List.mem_erase_of_ne same).mpr pooled))
      · obtain ⟨used, unlinked⟩ := (known k handed).resolve_left pooled
        exact .inr ⟨(List.mem_erase_of_ne same).mpr used, apart k same pooled unlinked⟩
  · intro k handed
    exact Nat.lt_of_lt_of_le (below k handed) keeps.grown.length_le

/-- Every step keeps the links of the connections given back. -/
theorem linked_step {pool : List Nat} (linked : Linked s pool) {op : PoolOp} (stepped : step s op = some s') :
    ∃ pool', Linked s' pool' := by
  cases op with
  | new => exact ⟨[], (linked_new linked stepped).2⟩
  | write i data =>
    obtain ⟨c, w, con, _, executed, rfl⟩ := step_write.mp stepped
    exact ⟨pool, linked_keeps linked (keeps_write executed) rfl rfl⟩
  | read i len =>
    obtain ⟨c, w, con, reply, _, executed, rfl⟩ := step_read.mp stepped
    exact ⟨pool, linked_keeps linked (keeps_read executed) rfl rfl⟩
  | peek i len =>
    obtain ⟨c, _, rfl⟩ := step_peek.mp stepped
    exact ⟨pool, linked_keeps linked (keeps_refl _) rfl rfl⟩
  | free i =>
    obtain ⟨c, _, rfl⟩ := step_free.mp stepped
    exact ⟨pool, linked_keeps linked (keeps_free _ _) rfl rfl⟩
  | recycle i =>
    obtain ⟨c, w, con, found, executed, rfl⟩ := step_recycle.mp stepped
    obtain ⟨_, same, _, after⟩ := linked_recycle linked found
    cases executed.symm.trans same
    exact ⟨_, after⟩

theorem linked_run {pool : List Nat} (linked : Linked s pool) {ops : List PoolOp} (executed : run step s ops = some s') :
    ∃ pool', Linked s' pool' := by
  induction ops generalizing s pool with
  | nil => cases executed; exact ⟨pool, linked⟩
  | cons op ops ih =>
    obtain ⟨mid, stepped, rest⟩ := run_cons_eq_some executed
    obtain ⟨_, kept⟩ := linked_step linked stepped
    exact ih kept rest

end TcpLearn.Pools
