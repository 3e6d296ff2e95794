import TcpLearn.Frame

/-!
# Ownership and accounting

`Accounts w mbufs infos conns pool` splits the live blocks of a context: the
mbufs of `mbufs`, the con_infos of `infos` and the connections of `conns` are
handed out, the others stand once in `free_mbufq`, `free_con_infoq` and
`ctx->conns`, which is the list `pool`. The counters of `mstats` are the lengths
of these lists. Every function moves blocks between the lists; what is handed out
to somebody else stays as it is, so the rules frame it through `mbufs`, `infos`
and `conns`.
-/
namespace TcpLearn.Ownership
open TcpLearn.Memory TcpLearn.MbufOps TcpLearn.ConBuf TcpLearn.Chain TcpLearn.Contexts TcpLearn.Tailq TcpLearn.Frame

structure Accounts (w : World) (mbufs infos conns pool : List Nat) : Prop where
  balanced : Balanced w.heap
  ownMbufs : Owns w.heap .mbuf (w.ctx.free_mbufq.map Mbuf.block ++ mbufs)
  ownInfos : Owns w.heap .con_info (w.ctx.free_con_infoq.map ConInfo.block ++ infos)
  ownConns : Owns w.heap .connection (pool ++ conns)
  listed : Queue w.ctx.conns () pool
  unlinked : ∀ c ∈ conns, Unlinked w.ctx.conns c
  total_buffers : w.ctx.mstats.total_buffers = w.ctx.mstats.buffers + w.ctx.mstats.free_buffers
  buffers : w.ctx.mstats.buffers = mbufs.length
  free_buffers : w.ctx.mstats.free_buffers = w.ctx.free_mbufq.length
  bounded : w.ctx.mstats.free_buffers ≤ RECYCLE_LENGTH + 1
  conn_info : w.ctx.mstats.conn_info = infos.length
  free_conn_info : w.ctx.mstats.free_conn_info = w.ctx.free_con_infoq.length
  connections : w.ctx.mstats.conns = conns.length
  free_conns : w.ctx.mstats.free_conns = pool.length

section
variable {w : World} {mbufs infos conns pool : List Nat}

theorem accounts_mbufs {mbufs' : List Nat} (accounts : Accounts w mbufs infos conns pool) (perm : mbufs.Perm mbufs') :
    Accounts w mbufs' infos conns pool :=
  { accounts with
    ownMbufs := owns_perm (perm.append_left _) accounts.ownMbufs
    buffers := by rw [accounts.buffers, perm.length_eq] }

theorem accounts_infos {infos' : List Nat} (accounts : Accounts w mbufs infos conns pool) (perm : infos.Perm infos') :
    Accounts w mbufs infos' conns pool :=
  { accounts with
    ownInfos := owns_perm (perm.append_left _) accounts.ownInfos
    conn_info := by rw [accounts.conn_info, perm.length_eq] }

theorem accounts_conns {conns' : List Nat} (accounts : Accounts w mbufs infos conns pool) (perm : conns.Perm conns') :
    Accounts w mbufs infos conns' pool :=
  { accounts with
    ownConns := owns_perm (perm.append_left _) accounts.ownConns
    unlinked := fun c member => accounts.unlinked c (perm.mem_iff.mpr member)
    connections := by rw [accounts.connections, perm.length_eq] }

/-! ## Mbufs -/

/-- An mbuf comes from the pool or is a new block. -/
theorem accounts_get (accounts : Accounts w mbufs infos conns pool) :
    Accounts (mbuf_get w).2 ((mbuf_get w).1.block :: mbufs) infos conns pool := by
  obtain ⟨balanced, ownMbufs, ownInfos, ownConns, listed, unlinked, total, buffers, free, bounded,
    connInfo, freeInfo, connections, freeConns⟩ := accounts
  cases freeIs : w.ctx.free_mbufq with
  | cons mbuf rest =>
    simp only [freeIs, List.length_cons] at free
    simp only [freeIs, List.map_cons] at ownMbufs
    simp only [mbuf_get, mbuf_create, freeIs]
    refine ⟨balanced, ?_, ownInfos, ownConns, listed, unlinked, ?_, ?_, ?_, ?_, connInfo, freeInfo, connections,
      freeConns⟩
    · exact owns_perm List.perm_middle.symm ownMbufs
    · simp; omega
    · simp; omega
    · simp; omega
    · simp; omega
  | nil =>
    simp only [freeIs, List.length_nil] at free
    simp only [freeIs, List.map_nil, List.nil_append] at ownMbufs
    simp only [mbuf_get, mbuf_create, freeIs]
    refine ⟨balanced_malloc balanced _, ?_, owns_malloc_other balanced (by decide) ownInfos,
      owns_malloc_other balanced (by decide) ownConns, listed, unlinked, ?_, ?_, ?_, ?_, connInfo, freeInfo,
      connections, freeConns⟩
    · simpa [freeIs] using owns_malloc balanced ownMbufs
    · simp; omega
    · simp; omega
    · simp [freeIs]; omega
    · simpa using bounded

/-- An mbuf given back stands in the pool or is freed. -/
theorem accounts_recycle {buf : Mbuf} (accounts : Accounts w (buf.block :: mbufs) infos conns pool) :
    Accounts (mbuf_recycle buf w) mbufs infos conns pool := by
  obtain ⟨balanced, ownMbufs, ownInfos, ownConns, listed, unlinked, total, buffers, free, bounded,
    connInfo, freeInfo, connections, freeConns⟩ := accounts
  simp only [List.length_cons] at buffers
  have moved := owns_perm List.perm_middle ownMbufs
  by_cases above : w.ctx.mstats.free_buffers > RECYCLE_LENGTH
  · rw [mbuf_recycle_freed buf above, mbuf_free]
    have live : Live w.heap .mbuf buf.block := (moved.live _).mp (by simp)
    refine ⟨balanced_free balanced live, owns_free moved, owns_free_other (by decide) live ownInfos,
      owns_free_other (by decide) live ownConns, listed, unlinked, ?_, ?_, free, bounded, connInfo, freeInfo,
      connections, freeConns⟩
    · simp; omega
    · simp; omega
  · rw [mbuf_recycle_pooled buf above]
    refine ⟨balanced, by simpa using moved, ownInfos, ownConns, listed, unlinked, ?_, ?_, ?_, ?_, connInfo, freeInfo,
      connections, freeConns⟩
    · simp; omega
    · simp; omega
    · simp; omega
    · simp; omega

theorem accounts_get_for (info : Nat) (accounts : Accounts w mbufs infos conns pool) :
    Accounts (get_for info w).2 ((get_for info w).1.block :: mbufs) infos conns pool := accounts_get accounts

theorem accounts_free_loop {queue : List Mbuf}
    (accounts : Accounts w (queue.map Mbuf.block ++ mbufs) infos conns pool) :
    Accounts (connection_buf_free_loop queue w) mbufs infos conns pool := by
  induction queue generalizing w with
  | nil => exact accounts
  | cons buf rest ih => exact ih (accounts_recycle accounts)

theorem accounts_read_loop {len : Nat} {queue : List Mbuf} {allow : Int} {reply : Reply}
    (accounts : Accounts w (queue.map Mbuf.block ++ mbufs) infos conns pool) :
    Accounts (con_buf_read_loop len queue w allow reply).1
      ((con_buf_read_loop len queue w allow reply).2.1.map Mbuf.block ++ mbufs) infos conns pool := by
  induction queue generalizing w allow reply with
  | nil => exact accounts
  | cons buf rest ih =>
    rw [con_buf_read_loop, mbuf_read_spec]
    dsimp only
    split_ifs
    · exact ih (accounts_recycle accounts)
    · exact accounts
    · exact accounts

theorem mbuf_write_block (buf : Mbuf) (data : List UInt8) (len : Nat) :
    (mbuf_write buf data len).2.block = buf.block ∧ (mbuf_write buf data len).2.queue = buf.queue := by
  unfold mbuf_write
  dsimp only
  split_ifs <;> exact ⟨rfl, rfl⟩

/-- A queue that grows by one mbuf, in front of what others hold. -/
theorem blocks_concat (queue : List Mbuf) (buf : Mbuf) (others : List Nat) :
    (buf.block :: (queue.map Mbuf.block ++ others)).Perm ((queue ++ [buf]).map Mbuf.block ++ others) := by
  rw [List.map_append, List.append_assoc]
  exact List.perm_middle.symm

theorem accounts_writes {info : Nat} {w' : World} {front queue : List Mbuf} {buf : Mbuf} {data : List UInt8}
    {counted : Bool} (writes : Writes info w front buf data w' queue counted)
    (accounts : Accounts w ((front ++ [buf]).map Mbuf.block ++ mbufs) infos conns pool) :
    Accounts w' (queue.map Mbuf.block ++ mbufs) infos conns pool := by
  induction writes with
  | fits nonempty room => simpa [mbuf_write_block] using accounts
  | fills nonempty exactly => simpa [mbuf_write_block] using accounts
  | next more rest ih =>
    apply ih
    refine accounts_mbufs (accounts_get_for _ ?_) (blocks_concat _ _ _)
    simpa [mbuf_write_block] using accounts

theorem accounts_make_room (info : Nat) {queue : List Mbuf}
    (accounts : Accounts w (queue.map Mbuf.block ++ mbufs) infos conns pool) :
    Accounts (make_room info w queue).1 ((make_room info w queue).2.map Mbuf.block ++ mbufs) infos conns pool := by
  rcases make_room_cases info w queue with ⟨front, buf, _, _, made⟩ | ⟨_, made⟩
  · rw [made]
    exact accounts
  · rw [made]
    exact accounts_mbufs (accounts_get_for info accounts) (blocks_concat _ _ _)

/-! ## Con_infos -/

theorem accounts_info_new (accounts : Accounts w mbufs infos conns pool) :
    Accounts (con_info_new w).2 mbufs ((con_info_new w).1.block :: infos) conns pool := by
  obtain ⟨balanced, ownMbufs, ownInfos, ownConns, listed, unlinked, total, buffers, free, bounded,
    connInfo, freeInfo, connections, freeConns⟩ := accounts
  cases freeIs : w.ctx.free_con_infoq with
  | cons info rest =>
    simp only [freeIs, List.length_cons] at freeInfo
    simp only [freeIs, List.map_cons] at ownInfos
    simp only [con_info_new, freeIs]
    refine ⟨balanced, ownMbufs, owns_perm List.perm_middle.symm ownInfos, ownConns, listed, unlinked, total, buffers,
      free, bounded, ?_, ?_, connections, freeConns⟩
    · simp; omega
    · simp; omega
  | nil =>
    simp only [freeIs, List.map_nil, List.nil_append] at ownInfos
    simp only [con_info_new, freeIs]
    refine ⟨balanced_malloc balanced _, owns_malloc_other balanced (by decide) ownMbufs, ?_,
      owns_malloc_other balanced (by decide) ownConns, listed, unlinked, total, buffers, free, bounded, ?_, ?_,
      connections, freeConns⟩
    · simpa [freeIs] using owns_malloc balanced ownInfos
    · simp; omega
    · simpa using freeInfo

/-- The mbufs of a connection. -/
def blocks (con : Connection) : List Nat := (queued con).map Mbuf.block
/-- The con_info of a connection, if it has one. -/
def infoBlocks (con : Connection) : List Nat := con.info.toList.map ConInfo.block

theorem accounts_attach {con : Connection} (accounts : Accounts w mbufs (infoBlocks con ++ infos) conns pool) :
    Accounts (attach_info w con).2 mbufs ((attach_info w con).1.block :: infos) conns pool := by
  obtain ⟨size, info, ctx⟩ := con
  cases info with
  | none => exact accounts_info_new accounts
  | some info => exact accounts

/-! ## Operations on a connection -/

variable {con con' : Connection} {w' : World}

theorem accounts_write (positive : 0 < w.ctx.mbuf_offset) {data : List UInt8}
    (executed : con_buf_write w con data = some (w', con'))
    (accounts : Accounts w (blocks con ++ mbufs) (infoBlocks con ++ infos) conns pool) :
    Accounts w' (blocks con' ++ mbufs) (infoBlocks con' ++ infos) conns pool := by
  by_cases empty : data = []
  · subst empty
    cases (con_buf_write_nil w con).symm.trans executed
    exact accounts
  · obtain ⟨_, _, same, written⟩ := con_buf_write_written positive con empty
    cases same.symm.trans executed
    obtain @⟨front, queue, buf, counted, room, writes⟩ := written
    have attached := accounts_attach accounts
    rw [blocks, ← attach_info_data w con] at attached
    have roomy := accounts_make_room (attach_info w con).1.block attached
    rw [room] at roomy
    exact accounts_writes writes roomy

theorem accounts_read {len : Nat} {reply : Reply} (executed : con_buf_read w con len = some (w', con', reply))
    (accounts : Accounts w (blocks con ++ mbufs) (infoBlocks con ++ infos) conns pool) :
    Accounts w' (blocks con' ++ mbufs) (infoBlocks con' ++ infos) conns pool := by
  obtain ⟨size, info, ctx⟩ := con
  cases info with
  | none => simp [con_buf_read] at executed
  | some info =>
    simp only [con_buf_read, Option.some.injEq, Prod.mk.injEq] at executed
    obtain ⟨rfl, rfl, _⟩ := executed
    exact accounts_read_loop accounts

theorem accounts_free (accounts : Accounts w (blocks con ++ mbufs) (infoBlocks con ++ infos) conns pool) :
    Accounts (connection_buf_free w con).1 (blocks (connection_buf_free w con).2 ++ mbufs)
      (infoBlocks (connection_buf_free w con).2 ++ infos) conns pool := by
  obtain ⟨size, info, ctx⟩ := con
  cases info with
  | none => exact accounts
  | some info => exact accounts_free_loop accounts

/-! ## Queue fields -/

/-- The mbufs queued on a connection name the queue of its con_info. -/
def Named (con : Connection) : Prop :=
  ∀ info, con.info = some info → ∀ buf ∈ info.data, buf.queue = some info.block

theorem named_none (size : Int) (ctx : Option Nat) : Named ⟨size, none, ctx⟩ := nofun

theorem named_writes {info : Nat} {front queue : List Mbuf} {buf : Mbuf} {data : List UInt8} {counted : Bool}
    (writes : Writes info w front buf data w' queue counted) (named : ∀ b ∈ front ++ [buf], b.queue = some info) :
    ∀ b ∈ queue, b.queue = some info := by
  induction writes with
  | fits nonempty room => simpa [or_imp, forall_and, mbuf_write_block] using named
  | fills nonempty exactly => simpa [or_imp, forall_and, mbuf_write_block] using named
  | next more rest ih =>
    apply ih
    simpa [or_imp, forall_and, mbuf_write_block, get_for] using named

theorem named_write (positive : 0 < w.ctx.mbuf_offset) {data : List UInt8}
    (executed : con_buf_write w con data = some (w', con')) (named : Named con) : Named con' := by
  by_cases empty : data = []
  · subst empty
    cases (con_buf_write_nil w con).symm.trans executed
    exact named
  · obtain ⟨_, _, same, written⟩ := con_buf_write_written positive con empty
    cases same.symm.trans executed
    obtain @⟨front, queue, buf, counted, room, writes⟩ := written
    have attached : ∀ b ∈ (attach_info w con).1.data, b.queue = some (attach_info w con).1.block := by
      obtain ⟨size, info, ctx⟩ := con
      cases info with
      | none => simp
      | some info => exact named info rfl
    rintro info same
    cases same
    refine named_writes writes ?_
    rw [← room]
    rcases make_room_cases (attach_info w con).1.block (attach_info w con).2 (attach_info w con).1.data with
      ⟨_, _, _, _, made⟩ | ⟨_, made⟩
    · rw [made]
      exact attached
    · rw [made]
      intro b member
      rcases List.mem_append.mp member with earlier | last
      · exact attached b earlier
      · rw [List.mem_singleton.mp last]
        rfl

theorem named_read_loop {info len : Nat} {queue : List Mbuf} (w : World) (allow : Int) (reply : Reply)
    (named : ∀ b ∈ queue, b.queue = some info) :
    ∀ b ∈ (con_buf_read_loop len queue w allow reply).2.1, b.queue = some info := by
  induction queue generalizing w allow reply with
  | nil => simp [con_buf_read_loop]
  | cons buf rest ih =>
    rw [con_buf_read_loop, mbuf_read_spec]
    dsimp only
    split_ifs
    · exact ih _ _ _ fun b member => named b (by simp [member])
    · simpa [or_imp, forall_and] using named
    · exact named

theorem named_read {len : Nat} {reply : Reply} (executed : con_buf_read w con len = some (w', con', reply))
    (named : Named con) : Named con' := by
  obtain ⟨size, info, ctx⟩ := con
  cases info with
  | none => simp [con_buf_read] at executed
  | some info =>
    simp only [con_buf_read, Option.some.injEq, Prod.mk.injEq] at executed
    obtain ⟨_, rfl, _⟩ := executed
    rintro _ same
    cases same
    exact named_read_loop _ _ _ (named info rfl)

theorem named_free (w : World) (named : Named con) : Named (connection_buf_free w con).2 := by
  obtain ⟨size, info, ctx⟩ := con
  cases info with
  | none => exact named
  | some info =>
    rintro _ same
    cases same
    simp

/-! ## Connections -/

/-- While no connection has been given back, a new one is a new block. -/
theorem accounts_connection_new (accounts : Accounts w mbufs infos conns []) :
    ∃ w' c, context_connection_new w = some (w', c, ⟨0, none, some w.ctx.block⟩) ∧
      c = w.heap.kinds.length ∧ w'.ctx.mbuf_offset = w.ctx.mbuf_offset ∧ Accounts w' mbufs infos (c :: conns) [] := by
  obtain ⟨balanced, ownMbufs, ownInfos, ownConns, listed, unlinked, total, buffers, free, bounded,
    connInfo, freeInfo, connections, freeConns⟩ := accounts
  refine ⟨_, _, connection_new_fresh (queue_first listed), rfl, rfl, balanced_malloc balanced _,
    owns_malloc_other balanced (by decide) ownMbufs, owns_malloc_other balanced (by decide) ownInfos,
    owns_malloc balanced ownConns, reset_queue listed (by simp), ?_, total, buffers, free, bounded, connInfo, freeInfo,
    ?_, freeConns⟩
  · intro c member
    rcases List.mem_cons.mp member with rfl | earlier
    · exact reset_self _ _
    · exact reset_unlinked _ (unlinked c earlier)
  · simp [connections]

/-- The loop over the queue does not look at the count of con_infos. -/
theorem free_loop_count (queue : List Mbuf) (w : World) :
    connection_buf_free_loop queue (w.count fun m => { m with conn_info := m.conn_info - 1 }) =
      (connection_buf_free_loop queue w).count fun m => { m with conn_info := m.conn_info - 1 } := by
  induction queue generalizing w with
  | nil => rfl
  | cons buf rest ih =>
    rw [connection_buf_free_loop, connection_buf_free_loop, ← ih]
    congr 1
    unfold mbuf_recycle
    dsimp only [World.count]
    split_ifs <;> rfl

/-- The con_info goes to the end of its pool. -/
theorem accounts_recyle_info (accounts : Accounts w (blocks con ++ mbufs) (infoBlocks con ++ infos) conns pool) :
    Accounts (recyle_info w con).1 mbufs infos conns pool := by
  obtain ⟨size, info, ctx⟩ := con
  cases info with
  | none => exact accounts
  | some info =>
    have freed := @accounts_free_loop _ _ _ _ _ info.data accounts
    obtain ⟨balanced, ownMbufs, ownInfos, ownConns, listed, unlinked, total, buffers, free, bounded,
      connInfo, freeInfo, connections, freeConns⟩ := freed
    simp only [recyle_info, connection_buf_free, free_loop_count, Option.isSome_some, ↓reduceIte, Option.toList_some]
    refine ⟨balanced, ownMbufs, ?_, ownConns, listed, unlinked, total, buffers, free, bounded, ?_, ?_, connections,
      freeConns⟩
    · simpa [infoBlocks] using ownInfos
    · simp [connInfo, infoBlocks]
    · simp [freeInfo]

/-- A connection in use goes to the front of the pool. -/
theorem accounts_conn_recyle {c : Nat}
    (accounts : Accounts w (blocks con ++ mbufs) (infoBlocks con ++ infos) (c :: conns) pool) :
    ∃ w', context_conn_recyle w c con = some (w', { con with info := none }) ∧
      w'.ctx.mbuf_offset = w.ctx.mbuf_offset ∧ Accounts w' mbufs infos conns (c :: pool) := by
  have distinct := accounts.ownConns.nodup
  have fresh : c ∉ pool := fun member => List.disjoint_of_nodup_append distinct member (by simp)
  have once : c ∉ conns := (List.nodup_cons.mp (List.Nodup.of_append_right distinct)).1
  obtain ⟨linked, executed, queue, apart⟩ := link_free_spec accounts.listed (.inr (accounts.unlinked c (by simp)))
  obtain ⟨balanced, ownMbufs, ownInfos, ownConns, _, unlinked, total, buffers, free, bounded,
    connInfo, freeInfo, connections, freeConns⟩ := accounts_recyle_info accounts
  rw [(keeps_recyle_info w con).conns] at unlinked
  rw [List.erase_of_not_mem fresh] at queue
  refine ⟨_, conn_recyle_spec con executed, (keeps_recyle_info w con).offset, balanced, ownMbufs, ownInfos,
    owns_perm List.perm_middle ownConns, queue, ?_, total, buffers, free, bounded, connInfo, freeInfo, ?_, ?_⟩
  · intro k member
    exact apart k (fun same => once (same ▸ member))
      (fun pooled => List.disjoint_of_nodup_append distinct pooled (by simp [member])) (unlinked k (by simp [member]))
  · simp [connections]
  · simp [freeConns]

end
end TcpLearn.Ownership
