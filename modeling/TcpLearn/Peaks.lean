import TcpLearn.Pools

/-!
# How many mbufs there are

An mbuf is allocated only when the pool is empty, and one given back is freed once the
pool holds more than `RECYCLE_LENGTH`. So however the operations on the connections of a
context are ordered, the mbufs that exist are never more than were in use at some time
before (`peak_bounds`), and at most eleven more than are in use now.
-/
namespace TcpLearn.Peaks
open TcpLearn.Memory TcpLearn.MbufOps TcpLearn.ConBuf TcpLearn.Chain TcpLearn.Contexts TcpLearn.Pools TcpLearn.Runs

/-- The counters agree with the pool. -/
structure Tallied (w : World) : Prop where
  total : w.ctx.mstats.total_buffers = w.ctx.mstats.buffers + w.ctx.mstats.free_buffers
  free : w.ctx.mstats.free_buffers = w.ctx.free_mbufq.length
  bounded : w.ctx.mstats.free_buffers ≤ RECYCLE_LENGTH + 1

/-- From `w` to `w'` no more mbufs were allocated than are in use at the end. -/
structure Climbs (w w' : World) : Prop where
  tallied : Tallied w → Tallied w'
  buffers : w.ctx.mstats.buffers ≤ w'.ctx.mstats.buffers
  total : Tallied w → w'.ctx.mstats.total_buffers ≤ max w.ctx.mstats.total_buffers w'.ctx.mstats.buffers

/-- From `w` to `w'` mbufs were given back only. -/
structure Falls (w w' : World) : Prop where
  tallied : Tallied w → Tallied w'
  total : w'.ctx.mstats.total_buffers ≤ w.ctx.mstats.total_buffers

theorem climbs_refl (w : World) : Climbs w w := ⟨id, Int.le_refl _, fun _ => Int.le_max_left _ _⟩

theorem climbs_trans {w v u : World} (first : Climbs w v) (second : Climbs v u) : Climbs w u := by
  refine ⟨second.tallied ∘ first.tallied, first.buffers.trans second.buffers, ?_⟩
  intro tallied
  have later := second.total (first.tallied tallied)
  have earlier := first.total tallied
  have grown := second.buffers
  omega

theorem falls_refl (w : World) : Falls w w := ⟨id, Int.le_refl _⟩

theorem falls_trans {w v u : World} (first : Falls w v) (second : Falls v u) : Falls w u :=
  ⟨second.tallied ∘ first.tallied, second.total.trans first.total⟩

/-- Changes that leave the mbufs and their counters alone. -/
theorem climbs_same {w w' : World} (queue : w'.ctx.free_mbufq = w.ctx.free_mbufq)
    (total : w'.ctx.mstats.total_buffers = w.ctx.mstats.total_buffers)
    (buffers : w'.ctx.mstats.buffers = w.ctx.mstats.buffers)
    (free : w'.ctx.mstats.free_buffers = w.ctx.mstats.free_buffers) : Climbs w w' := by
  refine ⟨fun tallied => ⟨?_, ?_, ?_⟩, Int.le_of_eq buffers.symm, fun _ => by rw [total]; exact Int.le_max_left _ _⟩
  · rw [total, buffers, free, tallied.total]
  · rw [free, queue, tallied.free]
  · rw [free]
    exact tallied.bounded

theorem falls_same {w w' : World} (queue : w'.ctx.free_mbufq = w.ctx.free_mbufq)
    (total : w'.ctx.mstats.total_buffers = w.ctx.mstats.total_buffers)
    (buffers : w'.ctx.mstats.buffers = w.ctx.mstats.buffers)
    (free : w'.ctx.mstats.free_buffers = w.ctx.mstats.free_buffers) : Falls w w' :=
  ⟨(climbs_same queue total buffers free).tallied, Int.le_of_eq total⟩

/-! ## The functions -/

theorem get_climbs (w : World) : Climbs w (mbuf_get w).2 := by
  unfold mbuf_get mbuf_create
  cases pooled : w.ctx.free_mbufq with
  | cons mbuf rest =>
    refine ⟨?_, ?_, ?_⟩
    · rintro ⟨total, free, bounded⟩
      rw [pooled, List.length_cons] at free
      refine ⟨?_, ?_, ?_⟩ <;> simp only [World.count] <;> push_cast at free ⊢ <;> omega
    · simp only [World.count]
      omega
    · intro _
      simp only [World.count]
      omega
  | nil =>
    refine ⟨?_, ?_, ?_⟩
    · rintro ⟨total, free, bounded⟩
      refine ⟨?_, ?_, ?_⟩ <;> simp only [World.count, pooled] at free ⊢ <;> omega
    · simp only [World.count]
      omega
    · -- the pool is empty, so that all mbufs there are were in use
      rintro ⟨total, free, _⟩
      rw [pooled, List.length_nil] at free
      simp only [World.count]
      push_cast at free
      omega

theorem recycle_falls (buf : Mbuf) (w : World) : Falls w (mbuf_recycle buf w) := by
  by_cases above : w.ctx.mstats.free_buffers > RECYCLE_LENGTH
  · rw [mbuf_recycle_freed buf above]
    refine ⟨?_, ?_⟩
    · rintro ⟨total, free, bounded⟩
      refine ⟨?_, free, bounded⟩
      simp only [mbuf_free, World.count]
      omega
    · simp only [mbuf_free, World.count]
      omega
  · rw [mbuf_recycle_pooled buf above]
    refine ⟨?_, Int.le_refl _⟩
    rintro ⟨total, free, bounded⟩
    refine ⟨?_, ?_, ?_⟩ <;> simp only [World.count, List.length_cons] <;> push_cast <;> omega

theorem free_loop_falls (queue : List Mbuf) (w : World) : Falls w (connection_buf_free_loop queue w) := by
  induction queue generalizing w with
  | nil => exact falls_refl w
  | cons buf rest ih => exact falls_trans (recycle_falls buf w) (ih _)

theorem read_loop_falls (len : Nat) (queue : List Mbuf) (w : World) (allow : Int) (reply : Reply) :
    Falls w (con_buf_read_loop len queue w allow reply).1 := by
  induction queue generalizing w allow reply with
  | nil => exact falls_refl w
  | cons buf rest ih =>
    rw [con_buf_read_loop]
    dsimp only
    split_ifs
    · exact falls_trans (recycle_falls _ w) (ih _ _ _)
    · exact falls_refl w
    · exact falls_refl w

theorem attach_climbs (w : World) (con : Connection) : Climbs w (attach_info w con).2 := by
  unfold attach_info
  split
  · unfold con_info_new
    split <;> exact climbs_same rfl rfl rfl rfl
  · exact climbs_refl w

theorem make_room_climbs (info : Nat) (w : World) (queue : List Mbuf) : Climbs w (make_room info w queue).1 := by
  rcases make_room_cases info w queue with ⟨front, buf, _, _, same⟩ | ⟨_, grown⟩
  · rw [same]
    exact climbs_refl w
  · rw [grown]
    exact get_climbs w

theorem write_loop_climbs {info fuel : Nat} {w w' : World} {front queue : List Mbuf} {buf : Mbuf} {data : List UInt8}
    {counted : Bool} (executed : con_buf_write_loop info fuel w front buf data = some (w', queue, counted)) :
    Climbs w w' := by
  induction fuel generalizing w front buf data with
  | zero => cases executed
  | succ fuel ih =>
    rw [con_buf_write_loop] at executed
    dsimp only at executed
    split_ifs at executed
    · exact ih executed
    · cases executed
      exact climbs_refl _
    · exact climbs_trans (get_climbs w) (ih executed)
    · cases executed
      exact climbs_refl _

theorem write_climbs {w w' : World} {con con' : Connection} {data : List UInt8}
    (executed : con_buf_write w con data = some (w', con')) : Climbs w w' := by
  unfold con_buf_write at executed
  dsimp only at executed
  split_ifs at executed
  · cases executed
    exact climbs_refl _
  · split at executed
    · cases executed
    · split at executed
      · cases executed
      · rename_i looped
        cases executed
        exact climbs_trans (attach_climbs _ _) (climbs_trans (make_room_climbs _ _ _) (write_loop_climbs looped))

theorem free_falls (w : World) (con : Connection) : Falls w (connection_buf_free w con).1 := by
  unfold connection_buf_free
  split
  · exact falls_refl w
  · exact free_loop_falls _ w

theorem recyle_info_falls (w : World) (con : Connection) : Falls w (recyle_info w con).1 := by
  unfold recyle_info
  split_ifs
  · have before : Falls w (w.count fun m => { m with conn_info := m.conn_info - 1 }) := falls_same rfl rfl rfl rfl
    exact falls_trans (falls_trans before (free_falls _ con)) (falls_same rfl rfl rfl rfl)
  · exact falls_refl w

theorem conn_recyle_falls {w w' : World} {c : Nat} {con con' : Connection}
    (executed : context_conn_recyle w c con = some (w', con')) : Falls w w' := by
  have given := recyle_info_falls w con
  rcases listed : recyle_info w con with ⟨v, k⟩
  rw [listed] at given
  simp only [context_conn_recyle, listed] at executed
  obtain ⟨conns, _, result⟩ := Option.bind_eq_some_iff.mp executed
  cases result
  exact falls_trans given (falls_same rfl rfl rfl rfl)

theorem connection_new_climbs {w w' : World} {c : Nat} {con : Connection}
    (executed : context_connection_new w = some (w', c, con)) : Climbs w w' := by
  by_cases empty : Tailq.TAILQ_FIRST w.ctx.conns () = none
  · rw [connection_new_fresh empty] at executed
    cases executed
    exact climbs_same rfl rfl rfl rfl
  · rw [connection_new_pooled empty] at executed
    cases executed

/-! ## Runs -/

/-- What a step allocates was not there before, and is in use after it. -/
theorem step_peak {s s' : Pool} {op : PoolOp} (tallied : Tallied s.world) (stepped : step s op = some s') :
    Tallied s'.world ∧
      s'.world.ctx.mstats.total_buffers ≤ max s.world.ctx.mstats.total_buffers s'.world.ctx.mstats.buffers := by
  have climbed : Climbs s.world s'.world → Tallied s'.world ∧
      s'.world.ctx.mstats.total_buffers ≤ max s.world.ctx.mstats.total_buffers s'.world.ctx.mstats.buffers :=
    fun climbs => ⟨climbs.tallied tallied, climbs.total tallied⟩
  have fallen : Falls s.world s'.world → Tallied s'.world ∧
      s'.world.ctx.mstats.total_buffers ≤ max s.world.ctx.mstats.total_buffers s'.world.ctx.mstats.buffers :=
    fun falls => ⟨falls.tallied tallied, falls.total.trans (Int.le_max_left _ _)⟩
  cases op with
  | new =>
    simp only [step, Option.bind_eq_bind] at stepped
    obtain ⟨⟨w, c, con⟩, executed, result⟩ := Option.bind_eq_some_iff.mp stepped
    cases result
    exact climbed (connection_new_climbs executed)
  | write i data =>
    obtain ⟨c, w, con, _, executed, rfl⟩ := step_write.mp stepped
    exact climbed (write_climbs executed)
  | read i len =>
    obtain ⟨c, w, con, reply, _, executed, rfl⟩ := step_read.mp stepped
    unfold con_buf_read at executed
    split at executed
    · cases executed
    · cases executed
      exact fallen (read_loop_falls _ _ _ _ _)
  | peek i len =>
    obtain ⟨c, _, rfl⟩ := step_peek.mp stepped
    exact fallen (falls_refl _)
  | free i =>
    obtain ⟨c, _, rfl⟩ := step_free.mp stepped
    exact fallen (free_falls _ _)
  | recycle i =>
    obtain ⟨c, w, con, _, executed, rfl⟩ := step_recycle.mp stepped
    exact fallen (conn_recyle_falls executed)

/-- The most mbufs in use in any state of the run. -/
def peak (s : Pool) : List PoolOp → Int
  | [] => s.world.ctx.mstats.buffers
  | op :: ops => max s.world.ctx.mstats.buffers (((step s op).map fun s' => peak s' ops).getD s.world.ctx.mstats.buffers)

theorem run_peak {s s' : Pool} {ops : List PoolOp} (tallied : Tallied s.world) (executed : run step s ops = some s') :
    Tallied s'.world ∧ s'.world.ctx.mstats.total_buffers ≤ max s.world.ctx.mstats.total_buffers (peak s ops) := by
  induction ops generalizing s with
  | nil =>
    cases executed
    exact ⟨tallied, Int.le_max_left _ _⟩
  | cons op ops ih =>
    obtain ⟨mid, stepped, rest⟩ := run_cons_eq_some executed
    obtain ⟨kept, climbed⟩ := step_peak tallied stepped
    obtain ⟨last, bound⟩ := ih kept rest
    have first : mid.world.ctx.mstats.buffers ≤ peak mid ops := by
      cases ops with
      | nil => exact Int.le_refl _
      | cons => exact Int.le_max_left _ _
    refine ⟨last, ?_⟩
    simp only [peak, stepped, Option.map_some, Option.getD_some]
    omega

/-- There are never more mbufs than were in use at some time, nor eleven more than are in use. -/
theorem peak_bounds (heap : Heap) (bufsize : Int) (ops : List PoolOp) (s : Pool)
    (executed : run step (start (context_new heap bufsize)) ops = some s) :
    s.world.ctx.mstats.total_buffers ≤ peak (start (context_new heap bufsize)) ops ∧
      s.world.ctx.mstats.total_buffers ≤ s.world.ctx.mstats.buffers + (RECYCLE_LENGTH + 1) := by
  have initial : Tallied (start (context_new heap bufsize)).world := ⟨rfl, rfl, by show (0 : Int) ≤ _; decide⟩
  obtain ⟨tallied, bound⟩ := run_peak initial executed
  have used : 0 ≤ peak (start (context_new heap bufsize)) ops := by
    cases ops with
    | nil => exact Int.le_refl _
    | cons => exact Int.le_max_left _ _
  refine ⟨?_, ?_⟩
  · rwa [show (start (context_new heap bufsize)).world.ctx.mstats.total_buffers = 0 from rfl, max_eq_right used] at bound
  · have total := tallied.total
    have bounded := tallied.bounded
    omega

/-- Two mbufs are in use, one of them is given back and taken again. -/
theorem peak_bounds_reused : ∃ s,
    run step (start (context_new (no_blocks fun _ _ => 0) 64)) [.new, .write 0 [0, 1, 2, 3, 4, 5, 6, 7, 8], .read 0 8,
      .write 0 [9, 9, 9, 9, 9, 9, 9, 9]] = some s ∧
      s.world.ctx.mstats.total_buffers ≤ peak (start (context_new (no_blocks fun _ _ => 0) 64))
        [.new, .write 0 [0, 1, 2, 3, 4, 5, 6, 7, 8], .read 0 8, .write 0 [9, 9, 9, 9, 9, 9, 9, 9]] ∧
      s.world.ctx.mstats.total_buffers ≤ s.world.ctx.mstats.buffers + (RECYCLE_LENGTH + 1) :=
  ⟨_, rfl, peak_bounds (no_blocks fun _ _ => 0) 64 _ _ rfl⟩

end TcpLearn.Peaks
