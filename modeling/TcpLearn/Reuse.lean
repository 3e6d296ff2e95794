import TcpLearn.Pools

/-!
# Connections handed out again, and teardown

`context_connection_new` unlinks a connection of `ctx->conns` through a pointer
that is still NULL, so the connections given back are never handed out again: the
first call after one was given back has no result (`reuse_iff`). Nothing else
takes a connection out of `ctx->conns`. A second call of `context_conn_recyle`
moves the connection to the front of the list and counts it once more
(`recycled_twice`). `context_free_content` does not visit that list, so a context
that ever had a connection is not torn down completely (`torn_down_iff`).
-/
namespace TcpLearn.Reuse
open TcpLearn.Memory TcpLearn.MbufOps TcpLearn.ConBuf TcpLearn.Contexts TcpLearn.Tailq TcpLearn.Frame TcpLearn.Pools
open TcpLearn.Runs

/-! ## Creating and giving back -/

/-- Only connections in use are given back, and nothing else is done. -/
def Issued (s : Pool) : PoolOp → Prop
  | .new => True
  | .recycle i => ∃ c, s.handles[i]? = some c ∧ c ∈ s.inUse
  | _ => False

/-- What the call that returns `c` promises. -/
structure Reused (s s' : Pool) (c : Nat) : Prop where
  returned : s'.handles = s.handles ++ [c]
  apart : c ∉ s.inUse
  /-- One of the connections given back is taken from the list if there are any. -/
  cached : ∀ pool, Queue s.world.ctx.conns () pool → pool ≠ [] →
    c ∈ pool ∧ Queue s'.world.ctx.conns () (pool.erase c) ∧ s'.world.heap = s.world.heap
  allocated : Queue s.world.ctx.conns () [] →
    c = (cv_malloc .connection s.world.heap).1 ∧ s'.world.heap = (cv_malloc .connection s.world.heap).2
  unlisted : ∀ pool, Queue s'.world.ctx.conns () pool → c ∉ pool
  initialised : s'.con c = ⟨0, none, some s.world.ctx.block⟩
  unlinked : Unlinked s'.world.ctx.conns c

/-- Every connection ever allocated is counted once. -/
def Total (s : Pool) : Prop :=
  s.world.ctx.mstats.conns + s.world.ctx.mstats.free_conns = s.world.heap.kinds.count .connection

/-- The operation succeeds, and a new connection is as good as an allocated one. -/
def Meets (s : Pool) (op : PoolOp) : Prop :=
  ∃ s', step s op = some s' ∧ Total s' ∧ (op = .new → ∃ c, Reused s s' c)

/-- No connection that was given back waits in `ctx->conns`. -/
def NonePooled (s : Pool) (op : PoolOp) : Prop := op = .new → TAILQ_FIRST s.world.ctx.conns () = none

structure Inv (s : Pool) : Prop where
  pool : ∃ pool, Linked s pool ∧ s.handles.Perm (pool ++ s.inUse)
  bare : ∀ c ∈ s.inUse, (s.con c).info = none
  total : Total s

theorem start_inv (junk : Nat → Nat → UInt8) (bufsize : Int) : Inv (start (context_new (no_blocks junk) bufsize)) :=
  ⟨⟨[], start_linked (zeroed_queue ()), List.Perm.refl _⟩, nofun, rfl⟩

variable {s s' : Pool}

theorem new_meets (inv : Inv s) (empty : TAILQ_FIRST s.world.ctx.conns () = none) :
    ∃ s', step s .new = some s' ∧ Inv s' ∧ Reused s s' s.world.heap.kinds.length := by
  obtain ⟨⟨pool, linked, handed⟩, bare, total⟩ := inv
  have stepped : ∃ s', step s .new = some s' := ⟨_, by simp only [step, connection_new_fresh empty]; rfl⟩
  obtain ⟨s', stepped⟩ := stepped
  obtain ⟨unpooled, linked'⟩ := linked_new linked stepped
  subst unpooled
  obtain ⟨_, conns, _, heap, con, handles, inUse, _⟩ := step_new stepped
  have outside : s.world.heap.kinds.length ∉ s.inUse := fun used =>
    absurd (linked.below _ (handed.mem_iff.mpr (by simpa using used))) (by omega)
  refine ⟨s', stepped, ⟨⟨[], linked', ?_⟩, ?_, ?_⟩, ?_⟩
  · rw [handles, inUse]
    exact (handed.append_right _).trans (List.perm_append_singleton _ s.inUse)
  · intro c used
    rw [inUse] at used
    rw [con]
    rcases List.mem_cons.mp used with rfl | earlier
    · rw [Function.update_self]
    · have other : c ≠ s.world.heap.kinds.length := by
        rintro rfl
        exact outside earlier
      rw [Function.update_of_ne other]
      exact bare c earlier
  · have counted : s'.world.ctx.mstats.conns = s.world.ctx.mstats.conns + 1 ∧
        s'.world.ctx.mstats.free_conns = s.world.ctx.mstats.free_conns := by
      simp only [step, connection_new_fresh empty] at stepped
      cases stepped
      exact ⟨rfl, rfl⟩
    simp only [Total, counted, heap, cv_malloc, List.count_append, List.count_singleton_self] at total ⊢
    push_cast
    omega
  · refine ⟨handles, outside, ?_, fun _ => ⟨rfl, heap⟩, ?_, ?_, ?_⟩
    · intro pool queue some
      exact absurd (queue_unique queue linked.queue) some
    · intro pool queue
      rw [queue_unique queue linked'.queue]
      exact List.not_mem_nil
    · rw [con, Function.update_self]
    · rw [conns]
      exact reset_self _ _

theorem recycle_meets (inv : Inv s) {i : Nat} (issued : Issued s (.recycle i)) :
    ∃ s', step s (.recycle i) = some s' ∧ Inv s' := by
  obtain ⟨⟨pool, linked, handed⟩, bare, total⟩ := inv
  obtain ⟨c, found, used⟩ := issued
  have distinct := List.nodup_append.mp (handed.nodup_iff.mp linked.distinct)
  have fresh : c ∉ pool := fun pooled => distinct.2.2 c pooled c used rfl
  obtain ⟨w, executed, _, after⟩ := linked_recycle linked found
  rw [List.erase_of_not_mem fresh] at after
  refine ⟨_, step_recycle.mpr ⟨c, w, _, found, executed, rfl⟩, ⟨_, after, ?_⟩, ?_, ?_⟩
  · exact handed.trans (((List.perm_cons_erase used).append_left pool).trans List.perm_middle)
  · intro k member
    have other : k ≠ c := fun same => distinct.2.1.not_mem_erase (same ▸ member)
    simpa [set_con_other _ _ _ _ other] using bare k (List.mem_of_mem_erase member)
  · -- Without a con_info only the links and the counters of connections change.
    have given : recyle_info s.world (s.con c) = (s.world, s.con c) := by simp [recyle_info, bare c used]
    simp only [context_conn_recyle, given] at executed
    obtain ⟨links, _, same⟩ := Option.bind_eq_some_iff.mp executed
    cases same
    simp only [Total, Pool.set, World.count] at total ⊢
    omega

theorem inv_keeps (s : Pool) (op : PoolOp) (s' : Pool) (inv : Inv s) (issued : Issued s op)
    (stepped : step s op = some s') : Inv s' := by
  cases op with
  | new =>
    obtain ⟨other, same, after, _⟩ := new_meets inv (step_new stepped).1
    cases stepped.symm.trans same
    exact after
  | recycle i =>
    obtain ⟨other, same, after⟩ := recycle_meets inv issued
    cases stepped.symm.trans same
    exact after
  | write | read | peek | free => exact issued.elim

theorem meets_iff (inv : Inv s) {op : PoolOp} (issued : Issued s op) : Meets s op ↔ NonePooled s op := by
  cases op with
  | new =>
    constructor
    · rintro ⟨s', stepped, _⟩ _
      exact (step_new stepped).1
    · intro empty
      obtain ⟨s', stepped, after, reused⟩ := new_meets inv (empty rfl)
      exact ⟨s', stepped, after.total, fun _ => ⟨_, reused⟩⟩
  | recycle i =>
    obtain ⟨s', stepped, after⟩ := recycle_meets inv issued
    exact ⟨fun _ => nofun, fun _ => ⟨s', stepped, after.total, nofun⟩⟩
  | write | read | peek | free => exact issued.elim

/-- Creating connections works exactly as long as none has been given back. -/
theorem reuse_iff (junk : Nat → Nat → UInt8) (bufsize : Int) (ops : List PoolOp)
    (issued : Each step Issued (start (context_new (no_blocks junk) bufsize)) ops) :
    Each step Meets (start (context_new (no_blocks junk) bufsize)) ops ↔
      Each step NonePooled (start (context_new (no_blocks junk) bufsize)) ops :=
  each_iff inv_keeps (fun _ _ inv good => meets_iff inv good) (start_inv junk bufsize) issued

theorem reuse_new_recycle :
    Each step Meets (start (context_new (no_blocks fun _ _ => 0) 1024)) [.new, .new, .recycle 0] ↔
      Each step NonePooled (start (context_new (no_blocks fun _ _ => 0) 1024)) [.new, .new, .recycle 0] :=
  reuse_iff _ _ _ (each_cons trivial rfl <| each_cons trivial rfl <| each_cons ⟨1, rfl, by decide⟩ rfl trivial)

/-- A connection is created, given back, and the next one cannot be created. -/
theorem reuse_fails :
    Each step Issued (start (context_new (no_blocks fun _ _ => 0) 1024)) [.new, .recycle 0, .new] ∧
      ¬ Each step Meets (start (context_new (no_blocks fun _ _ => 0) 1024)) [.new, .recycle 0, .new] := by
  refine ⟨each_cons trivial rfl <| each_cons ⟨1, rfl, by decide⟩ rfl <| ⟨trivial, fun _ _ => trivial⟩, ?_⟩
  intro meets
  obtain ⟨_, stepped, _⟩ := ((meets.2 _ rfl).2 _ rfl).1
  cases stepped

/-! ## Giving a connection back twice -/

/-- What giving back a connection that is in `ctx->conns` already promises. -/
structure Idempotent (s s' : Pool) : Prop where
  /-- The list stays one without repetitions, of the same connections. -/
  listed : ∀ pool, Queue s.world.ctx.conns () pool → ∃ pool', Queue s'.world.ctx.conns () pool' ∧ pool'.Perm pool
  mstats : s'.world.ctx.mstats = s.world.ctx.mstats

theorem mbuf_recycle_connections (buf : Mbuf) (w : World) :
    (mbuf_recycle buf w).ctx.mstats.conns = w.ctx.mstats.conns ∧
      (mbuf_recycle buf w).ctx.mstats.free_conns = w.ctx.mstats.free_conns := by
  by_cases above : w.ctx.mstats.free_buffers > RECYCLE_LENGTH
  · rw [mbuf_recycle_freed buf above]
    exact ⟨rfl, rfl⟩
  · rw [mbuf_recycle_pooled buf above]
    exact ⟨rfl, rfl⟩

theorem free_loop_connections (queue : List Mbuf) (w : World) :
    (connection_buf_free_loop queue w).ctx.mstats.conns = w.ctx.mstats.conns ∧
      (connection_buf_free_loop queue w).ctx.mstats.free_conns = w.ctx.mstats.free_conns := by
  induction queue generalizing w with
  | nil => exact ⟨rfl, rfl⟩
  | cons buf rest ih =>
    obtain ⟨conns, free⟩ := mbuf_recycle_connections buf w
    obtain ⟨conns', free'⟩ := ih (mbuf_recycle buf w)
    exact ⟨conns'.trans conns, free'.trans free⟩

/-- Giving up the con_info does not touch the counters of connections. -/
theorem recyle_info_connections (w : World) (con : Connection) :
    (recyle_info w con).1.ctx.mstats.conns = w.ctx.mstats.conns ∧
      (recyle_info w con).1.ctx.mstats.free_conns = w.ctx.mstats.free_conns := by
  obtain ⟨size, info, ctx⟩ := con
  cases info with
  | none => exact ⟨rfl, rfl⟩
  | some info => exact free_loop_connections info.data (w.count fun m => { m with conn_info := m.conn_info - 1 })

/-- The list survives a second call wherever the connection stands in it, but the
    counters are changed outside the guard that finds it there. -/
theorem recycled_twice (junk : Nat → Nat → UInt8) (bufsize : Int) (ops : List PoolOp) (s : Pool)
    (executed : run step (start (context_new (no_blocks junk) bufsize)) ops = some s) (i c : Nat) (pool : List Nat)
    (found : s.handles[i]? = some c) (listed : Queue s.world.ctx.conns () pool) (pooled : c ∈ pool) :
    ∃ s' pool', step s (.recycle i) = some s' ∧ Queue s'.world.ctx.conns () pool' ∧ pool'.Perm pool ∧
      s'.world.ctx.mstats.conns = s.world.ctx.mstats.conns - 1 ∧
      s'.world.ctx.mstats.free_conns = s.world.ctx.mstats.free_conns + 1 ∧ ¬ Idempotent s s' := by
  obtain ⟨known, linked⟩ := linked_run (start_linked (zeroed_queue ())) executed
  obtain rfl := queue_unique linked.queue listed
  obtain ⟨links, relinked, queue, _⟩ := link_free_spec listed (.inl pooled)
  have stepped := step_recycle.mpr ⟨c, _, _, found, conn_recyle_spec (s.con c) relinked, rfl⟩
  obtain ⟨conns, free⟩ := recyle_info_connections s.world (s.con c)
  have more : (recyle_info s.world (s.con c)).1.ctx.mstats.free_conns + 1 = s.world.ctx.mstats.free_conns + 1 := by
    rw [free]
  refine ⟨_, c :: known.erase c, stepped, queue, (List.perm_cons_erase pooled).symm, ?_, more, ?_⟩
  · show (recyle_info s.world (s.con c)).1.ctx.mstats.conns - 1 = _
    rw [conns]
  · intro same
    have still : (recyle_info s.world (s.con c)).1.ctx.mstats.free_conns + 1 = s.world.ctx.mstats.free_conns :=
      congrArg MemoryStats.free_conns same.mstats
    omega

/-- Three connections given back, the one in the middle of the list twice. -/
theorem recycled_twice_in_the_middle :
    ∃ s, run step (start (context_new (no_blocks fun _ _ => 0) 1024))
        [.new, .new, .new, .recycle 0, .recycle 1, .recycle 2] = some s ∧
      ∃ s' pool', step s (.recycle 1) = some s' ∧ Queue s'.world.ctx.conns () pool' ∧ pool'.Perm [3, 2, 1] ∧
        s'.world.ctx.mstats.conns = s.world.ctx.mstats.conns - 1 ∧
        s'.world.ctx.mstats.free_conns = s.world.ctx.mstats.free_conns + 1 ∧ ¬ Idempotent s s' := by
  refine ⟨_, rfl, recycled_twice (fun _ _ => 0) 1024 [.new, .new, .new, .recycle 0, .recycle 1, .recycle 2] _ rfl 1 2
    [3, 2, 1] rfl ⟨by decide, .next 1, ?_, rfl, fun _ => rfl⟩ (by decide)⟩
  exact ⟨rfl, rfl, rfl, rfl, rfl, rfl, rfl⟩

/-- After two calls one connection is listed, two are counted, and the number in use is negative. -/
theorem recycle_counts_twice :
    ∃ s s', run step (start (context_new (no_blocks fun _ _ => 0) 1024)) [.new, .recycle 0] = some s ∧
      Queue s.world.ctx.conns () [1] ∧ s.world.ctx.mstats = ⟨0, 0, 0, 0, 0, 1, 0⟩ ∧
      step s (.recycle 0) = some s' ∧ s'.world.ctx.mstats = ⟨0, 0, 0, -1, 0, 2, 0⟩ ∧ ¬ Idempotent s s' :=
  ⟨_, _, rfl, ⟨by decide, .next 1, ⟨rfl, rfl, rfl⟩, rfl, fun _ => rfl⟩, rfl, rfl, rfl,
    fun same => absurd same.mstats (by decide)⟩

/-! ## Teardown -/

/-- What `context_free_content` promises once every connection is given back. -/
structure TornDown (w : World) : Prop where
  accepted : (context_free_content w).1 = 0
  /-- Every block other than the context itself has been freed once. -/
  freed : ∀ n kind, (context_free_content w).2.heap.kinds[n]? = some kind → kind ≠ .context →
    (context_free_content w).2.heap.freed.count n = 1
  free_mbufq : (context_free_content w).2.ctx.free_mbufq = []
  free_con_infoq : (context_free_content w).2.ctx.free_con_infoq = []
  conns : TAILQ_EMPTY (context_free_content w).2.ctx.conns ()
  mstats : (context_free_content w).2.ctx.mstats = ⟨0, 0, 0, 0, 0, 0, 0⟩

theorem destroy_loop_conns (queue : List Mbuf) (w : World) : (mbuf_destroy_loop queue w).ctx.conns = w.ctx.conns := by
  induction queue generalizing w with
  | nil => rfl
  | cons buf rest ih => rw [mbuf_destroy_loop, ih]; rfl

theorem free_con_info_loop_conns (infos : List ConInfo) (w : World) :
    (free_con_info_loop infos w).ctx.conns = w.ctx.conns := by
  induction infos generalizing w with
  | nil => rfl
  | cons info rest ih => rw [free_con_info_loop, ih]

/-- The connections given back stay where they are. -/
theorem free_content_conns (w : World) : (context_free_content w).2.ctx.conns = w.ctx.conns := by
  unfold context_free_content
  split_ifs
  · rfl
  · rw [free_con_info_loop_conns, mbuf_destroy, destroy_loop_conns]

/-- Handles are never taken back. -/
theorem run_handles {ops : List PoolOp} (executed : run step s ops = some s') :
    s.handles <+: s'.handles ∧ (PoolOp.new ∈ ops → s'.handles ≠ []) := by
  induction ops generalizing s with
  | nil => cases executed; exact ⟨List.prefix_refl _, nofun⟩
  | cons op ops ih =>
    obtain ⟨mid, stepped, rest⟩ := run_cons_eq_some executed
    obtain ⟨grown, created⟩ := ih rest
    have here : s.handles <+: mid.handles ∧ (op = .new → mid.handles ≠ []) := by
      cases op with
      | new =>
        obtain ⟨_, _, _, _, _, handles, _⟩ := step_new stepped
        exact ⟨handles ▸ List.prefix_append _ _, fun _ => by simp [handles]⟩
      | write i data =>
        obtain ⟨c, w, con, _, _, rfl⟩ := step_write.mp stepped
        exact ⟨List.prefix_refl _, nofun⟩
      | read i len =>
        obtain ⟨c, w, con, reply, _, _, rfl⟩ := step_read.mp stepped
        exact ⟨List.prefix_refl _, nofun⟩
      | peek i len =>
        obtain ⟨c, _, rfl⟩ := step_peek.mp stepped
        exact ⟨List.prefix_refl _, nofun⟩
      | free i =>
        obtain ⟨c, _, rfl⟩ := step_free.mp stepped
        exact ⟨List.prefix_refl _, nofun⟩
      | recycle i =>
        obtain ⟨c, w, con, _, _, rfl⟩ := step_recycle.mp stepped
        exact ⟨List.prefix_refl _, nofun⟩
    refine ⟨here.1.trans grown, ?_⟩
    intro member
    rcases List.mem_cons.mp member with same | later
    · intro none
      rw [none, List.prefix_nil] at grown
      exact here.2 same.symm grown
    · exact created later

/-- Without a connection there is nothing to operate on. -/
theorem run_nothing {ops : List PoolOp} (executed : run step s ops = some s') (none : s.handles = [])
    (never : PoolOp.new ∉ ops) : s' = s := by
  cases ops with
  | nil => cases executed; rfl
  | cons op ops =>
    obtain ⟨mid, stepped, _⟩ := run_cons_eq_some executed
    cases op with
    | new => exact absurd (by simp) never
    | write | read | peek | free | recycle => simp [step, none] at stepped

/-- Teardown is complete exactly when the context never had a connection. -/
theorem torn_down_iff (junk : Nat → Nat → UInt8) (bufsize : Int) (ops : List PoolOp) (s : Pool)
    (executed : run step (start (context_new (no_blocks junk) bufsize)) ops = some s) (returned : s.inUse = []) :
    TornDown s.world ↔ PoolOp.new ∉ ops := by
  constructor
  · intro torn created
    obtain ⟨pool, linked⟩ := linked_run (start_linked (zeroed_queue ())) executed
    obtain ⟨c, handed⟩ := List.exists_mem_of_ne_nil _ ((run_handles executed).2 created)
    have pooled : c ∈ pool := (linked.known c handed).resolve_right (by simp [returned])
    have empty := torn.conns
    rw [free_content_conns, TAILQ_EMPTY, queue_first linked.queue, Option.isNone_iff_eq_none,
      List.head?_eq_none_iff] at empty
    exact absurd (empty ▸ pooled) List.not_mem_nil
  · intro never
    rw [run_nothing executed rfl never]
    refine ⟨rfl, ?_, rfl, rfl, rfl, rfl⟩
    intro n kind found other
    cases n with
    | zero => exact absurd (Option.some.inj found).symm other
    | succ n => cases found

theorem torn_down_one_connection :
    ∃ s, run step (start (context_new (no_blocks fun _ _ => 0) 1024)) [.new, .write 0 [1], .recycle 0] = some s ∧
      (TornDown s.world ↔ PoolOp.new ∉ [PoolOp.new, .write 0 [1], .recycle 0]) :=
  ⟨_, rfl, torn_down_iff (fun _ _ => 0) 1024 _ _ rfl rfl⟩

/-- A connection written to and given back is not freed, and three counters stay. -/
theorem teardown_leaks :
    ∃ s, run step (start (context_new (no_blocks fun _ _ => 0) 1024)) [.new, .write 0 [1], .recycle 0] = some s ∧
      s.inUse = [] ∧ (context_free_content s.world).2.ctx.mstats = ⟨1, 0, 0, 0, 0, 1, 1⟩ ∧
      (context_free_content s.world).2.heap.kinds[1]? = some .connection ∧
      1 ∉ (context_free_content s.world).2.heap.freed ∧ ¬ TornDown s.world :=
  ⟨_, rfl, rfl, rfl, rfl, by decide, fun torn => absurd torn.mstats (by decide)⟩

end TcpLearn.Reuse
