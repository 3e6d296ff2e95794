import TcpLearn.Chain
import TcpLearn.Contexts

/-!
# What operations on buffers leave alone

The operations on the buffer of a connection move mbufs and con_infos between the
connection, the pools and the allocator. They leave the links of `ctx->conns`, the
capacity of mbufs and the address of the context as they are, and allocate blocks
behind those handed out before (`Keeps`).
-/
namespace TcpLearn.Frame
open TcpLearn.Memory TcpLearn.MbufOps TcpLearn.ConBuf TcpLearn.Chain TcpLearn.Contexts TcpLearn.Tailq

structure Keeps (w w' : World) : Prop where
  offset : w'.ctx.mbuf_offset = w.ctx.mbuf_offset
  conns : w'.ctx.conns = w.ctx.conns
  block : w'.ctx.block = w.ctx.block
  grown : w.heap.kinds <+: w'.heap.kinds

theorem keeps_refl (w : World) : Keeps w w := ⟨rfl, rfl, rfl, List.prefix_refl _⟩

theorem keeps_trans {w v u : World} (first : Keeps w v) (second : Keeps v u) : Keeps w u :=
  ⟨second.offset.trans first.offset, second.conns.trans first.conns, second.block.trans first.block,
    first.grown.trans second.grown⟩

theorem keeps_get (w : World) : Keeps w (mbuf_get w).2 := by
  unfold mbuf_get mbuf_create
  split
  · exact ⟨rfl, rfl, rfl, List.prefix_refl _⟩
  · exact ⟨rfl, rfl, rfl, List.prefix_append _ _⟩

theorem keeps_recycle (buf : Mbuf) (w : World) : Keeps w (mbuf_recycle buf w) := by
  unfold mbuf_recycle
  dsimp only
  split_ifs <;> exact ⟨rfl, rfl, rfl, List.prefix_refl _⟩

theorem keeps_info_new (w : World) : Keeps w (con_info_new w).2 := by
  unfold con_info_new
  split
  · exact ⟨rfl, rfl, rfl, List.prefix_refl _⟩
  · exact ⟨rfl, rfl, rfl, List.prefix_append _ _⟩

theorem keeps_attach (w : World) (con : Connection) : Keeps w (attach_info w con).2 := by
  unfold attach_info
  split
  · exact keeps_info_new w
  · exact keeps_refl w

theorem keeps_free_loop (queue : List Mbuf) (w : World) : Keeps w (connection_buf_free_loop queue w) := by
  induction queue generalizing w with
  | nil => exact keeps_refl w
  | cons buf rest ih => exact keeps_trans (keeps_recycle buf w) (ih _)

theorem keeps_read_loop (len : Nat) (queue : List Mbuf) (w : World) (allow : Int) (reply : Reply) :
    Keeps w (con_buf_read_loop len queue w allow reply).1 := by
  induction queue generalizing w allow reply with
  | nil => exact keeps_refl w
  | cons buf rest ih =>
    rw [con_buf_read_loop]
    dsimp only
    split_ifs
    · exact keeps_trans (keeps_recycle _ w) (ih _ _ _)
    · exact keeps_refl w
    · exact keeps_refl w

theorem keeps_make_room (info : Nat) (w : World) (queue : List Mbuf) : Keeps w (make_room info w queue).1 := by
  unfold make_room
  split
  · exact keeps_get w
  · split_ifs
    · exact keeps_get w
    · exact keeps_refl w

theorem keeps_write_loop {info fuel : Nat} {w w' : World} {front queue : List Mbuf} {buf : Mbuf} {data : List UInt8}
    {counted : Bool} (executed : con_buf_write_loop info fuel w front buf data = some (w', queue, counted)) :
    Keeps w w' := by
  induction fuel generalizing w front buf data with
  | zero => cases executed
  | succ fuel ih =>
    rw [con_buf_write_loop] at executed
    dsimp only at executed
    split_ifs at executed
    · exact ih executed
    · cases executed
      exact keeps_refl _
    · exact keeps_trans (keeps_get w) (ih executed)
    · cases executed
      exact keeps_refl _

theorem keeps_write {w w' : World} {con con' : Connection} {data : List UInt8}
    (executed : con_buf_write w con data = some (w', con')) : Keeps w w' := by
  unfold con_buf_write at executed
  dsimp only at executed
  split_ifs at executed
  · cases executed
    exact keeps_refl _
  · split at executed
    · cases executed
    · split at executed
      · cases executed
      · rename_i looped
        cases executed
        exact keeps_trans (keeps_attach _ _) (keeps_trans (keeps_make_room _ _ _) (keeps_write_loop looped))

theorem keeps_read {w w' : World} {con con' : Connection} {len : Nat} {reply : Reply}
    (executed : con_buf_read w con len = some (w', con', reply)) : Keeps w w' := by
  unfold con_buf_read at executed
  split at executed
  · cases executed
  · cases executed
    exact keeps_read_loop _ _ _ _ _

theorem con_buf_read_attached (w : World) {con : Connection} (attached : con.info ≠ none) (len : Nat) :
    ∃ w' con' reply, con_buf_read w con len = some (w', con', reply) := by
  obtain ⟨size, info, ctx⟩ := con
  cases info with
  | none => exact absurd rfl attached
  | some info => exact ⟨_, _, _, rfl⟩

theorem keeps_free (w : World) (con : Connection) : Keeps w (connection_buf_free w con).1 := by
  unfold connection_buf_free
  split
  · exact keeps_refl w
  · exact keeps_free_loop _ w

theorem keeps_recyle_info (w : World) (con : Connection) : Keeps w (recyle_info w con).1 := by
  unfold recyle_info
  split_ifs
  · obtain ⟨offset, conns, block, grown⟩ := keeps_free (w.count fun m => { m with conn_info := m.conn_info - 1 }) con
    exact ⟨offset, conns, block, grown⟩
  · exact keeps_refl w

/-! ## Giving a connection back -/

/-- Only the entry `next` and the con_info of a connection are changed. -/
theorem recyle_info_con (w : World) (con : Connection) :
    (recyle_info w con).2.data_size = con.data_size ∧ (recyle_info w con).2.ctx = con.ctx := by
  obtain ⟨size, info, ctx⟩ := con
  cases info with
  | none => exact ⟨rfl, rfl⟩
  | some info => exact ⟨rfl, rfl⟩

/-- A connection goes to the front of the pool, whether it is new there or taken
    from its place in it. -/
theorem link_free_spec {conns : Links Unit Nat} {pool : List Nat} (listed : Queue conns () pool) {c : Nat}
    (known : c ∈ pool ∨ Unlinked conns c) :
    ∃ linked, link_free conns c = some linked ∧ Queue linked () (c :: pool.erase c) ∧
      ∀ k, k ≠ c → k ∉ pool → Unlinked conns k → Unlinked linked k := by
  by_cases member : c ∈ pool
  · obtain ⟨left, right, rfl⟩ := List.append_of_mem member
    have distinct := List.nodup_cons.mp (List.perm_middle.nodup_iff.mp listed.nodup)
    have erased : (left ++ c :: right).erase c = left ++ right := by
      rw [List.erase_append_right _ (fun again => distinct.1 (by simp [again])), List.erase_cons_head]
    have guard : conns.cell (.next c) ≠ none ∨ conns.prev c ≠ none := .inr (queue_prev listed member)
    obtain ⟨removed, executed, remaining⟩ := remove_queue listed
    have reset := reset_queue remaining distinct.1
    refine ⟨_, by simp only [link_free, guard, executed]; rfl, ?_, ?_⟩
    · rw [erased]
      exact insert_head_queue reset distinct.1
    · intro k other outside unlinked
      have apart : k ∉ left ++ right := by
        simp only [List.mem_append, List.mem_cons, not_or] at outside ⊢
        exact ⟨outside.1, outside.2.2⟩
      exact insert_head_unlinked reset other apart
        (reset_unlinked c (remove_unlinked listed executed outside unlinked))
  · obtain ⟨next, prev⟩ := known.resolve_left member
    have guard : ¬ (conns.cell (.next c) ≠ none ∨ conns.prev c ≠ none) := by simp [next, prev]
    refine ⟨_, by simp only [link_free, guard]; rfl, ?_, ?_⟩
    · rw [List.erase_of_not_mem member]
      exact insert_head_queue listed member
    · intro k other outside unlinked
      exact insert_head_unlinked listed other outside unlinked

theorem conn_recyle_spec {w : World} {c : Nat} {linked : Links Unit Nat} (con : Connection)
    (executed : link_free w.ctx.conns c = some linked) :
    context_conn_recyle w c con = some
      (({ (recyle_info w con).1 with ctx := { (recyle_info w con).1.ctx with conns := linked } } : World).count
        fun m => { m with conns := m.conns - 1, free_conns := m.free_conns + 1 }, { con with info := none }) := by
  obtain ⟨size, ctx⟩ := recyle_info_con w con
  simp only [context_conn_recyle, count_conns, (keeps_recyle_info w con).conns, executed]
  simp [size, ctx]
  rfl

end TcpLearn.Frame
