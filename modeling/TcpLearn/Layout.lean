import TcpLearn.Pools
import TcpLearn.Sessions

/-!
# The layout of a queue

The functions on a connection look at one end of its queue only: `con_buf_read` and
`mhdr_readable` at the first mbuf, `con_buf_write` at the last. In every state of a
run on one context the mbufs of every queue are laid out so that this is enough
(`always_represented`): only the first may be partly read and only the last partly
written.
-/
namespace TcpLearn.Layout
open TcpLearn.Memory TcpLearn.MbufOps TcpLearn.ConBuf TcpLearn.Chain TcpLearn.Contexts TcpLearn.Frame TcpLearn.Pools
open TcpLearn.Runs

/-! ## Every queue holds some bytes -/

structure Laid (cap : Nat) (s : Pool) : Prop where
  offset : s.world.ctx.mbuf_offset = cap
  queues : ∀ c, ∃ off bs, Holds cap off (queued (s.con c)) bs

variable {cap : Nat} {s s' : Pool}

theorem start_laid {w : World} (positive : 1 ≤ w.ctx.mbuf_offset) : Laid w.ctx.mbuf_offset (start w) :=
  ⟨rfl, fun _ => ⟨0, [], holds_nil positive⟩⟩

/-- An operation on one connection leaves the queues of the others. -/
theorem laid_set (laid : Laid cap s) {w : World} {c : Nat} {con : Connection} {off : Nat} {bs : List UInt8}
    (offset : w.ctx.mbuf_offset = s.world.ctx.mbuf_offset) (holds : Holds cap off (queued con) bs) :
    Laid cap (s.set w c con) := by
  refine ⟨offset.trans laid.offset, ?_⟩
  intro k
  by_cases same : k = c
  · rw [same, set_con_self]
    exact ⟨off, bs, holds⟩
  · rw [set_con_other s w c con same]
    exact laid.queues k

theorem laid_nil (laid : Laid cap s) : Holds cap 0 [] [] := by
  obtain ⟨off, bs, holds⟩ := laid.queues 0
  have inside := holds.inside
  exact holds_nil (by omega)

theorem step_laid (laid : Laid cap s) {op : PoolOp} (stepped : step s op = some s') : Laid cap s' := by
  cases op with
  | new =>
    obtain ⟨_, _, offset, _, con, _, _, _⟩ := step_new stepped
    have set := @laid_set cap s laid s'.world s.world.heap.kinds.length ⟨0, none, some s.world.ctx.block⟩ 0 [] offset
      (laid_nil laid)
    refine ⟨set.offset, ?_⟩
    rw [con]
    exact set.queues
  | write i data =>
    obtain ⟨c, w, con, _, executed, rfl⟩ := step_write.mp stepped
    obtain ⟨off, bs, holds⟩ := laid.queues c
    obtain ⟨w', con', again, _, after, _⟩ := con_buf_write_spec laid.offset holds data
    cases executed.symm.trans again
    exact laid_set laid (keeps_write executed).offset after
  | read i len =>
    obtain ⟨c, w, con, reply, _, executed, rfl⟩ := step_read.mp stepped
    obtain ⟨off, bs, holds⟩ := laid.queues c
    have attached : (s.con c).info ≠ none := by
      intro none
      simp [con_buf_read, none] at executed
    obtain ⟨w', con', again, _, after, _⟩ := con_buf_read_spec holds s.world len attached
    cases executed.symm.trans again
    have set := laid_set (c := c) laid (keeps_read executed).offset after
    exact ⟨set.offset, set.queues⟩
  | peek i len =>
    obtain ⟨c, _, rfl⟩ := step_peek.mp stepped
    exact ⟨laid.offset, laid.queues⟩
  | free i =>
    obtain ⟨c, _, rfl⟩ := step_free.mp stepped
    obtain ⟨offset, empty, _⟩ := connection_buf_free_spec s.world (s.con c)
    apply laid_set laid offset
    rw [empty]
    exact laid_nil laid
  | recycle i =>
    obtain ⟨c, w, con, _, executed, rfl⟩ := step_recycle.mp stepped
    obtain ⟨linked, given⟩ : ∃ linked, link_free s.world.ctx.conns c = some linked := by
      cases links : link_free s.world.ctx.conns c with
      | none => simp [context_conn_recyle, (keeps_recyle_info s.world (s.con c)).conns, links] at executed
      | some linked => exact ⟨linked, rfl⟩
    rw [conn_recyle_spec (s.con c) given] at executed
    cases executed
    have set := @laid_set _ _ laid _ c { s.con c with info := none } _ _ (keeps_recyle_info s.world (s.con c)).offset
      (laid_nil laid)
    exact ⟨set.offset, set.queues⟩

theorem run_laid (laid : Laid cap s) {ops : List PoolOp} (executed : run step s ops = some s') : Laid cap s' := by
  induction ops generalizing s with
  | nil => cases executed; exact laid
  | cons op ops ih =>
    obtain ⟨mid, stepped, rest⟩ := run_cons_eq_some executed
    exact ih (step_laid laid stepped) rest

/-! ## The representation invariant -/

/-- What the functions rely on: only the first mbuf may be partly read, only the
    last partly written, and none has nothing left to read and nothing left to write. -/
structure Represented (queue : List Mbuf) : Prop where
  markers : ∀ b ∈ queue, b.start ≤ b.pos ∧ b.pos ≤ b.last ∧ b.last ≤ b.end_
  written : ∀ b ∈ queue.dropLast, b.last = b.end_
  unread : ∀ b ∈ queue.tail, b.pos = b.start
  unspent : ∀ b ∈ queue, ¬ (b.last = b.end_ ∧ b.pos = b.last)
  filled : 2 ≤ queue.length → ∀ b ∈ queue, 0 < mbuf_read_size b
  /-- The first mbuf tells whether there is anything to read. -/
  readable : mhdr_readable queue = true ↔ queue.flatMap content ≠ []

theorem holds_readable {off : Nat} {queue : List Mbuf} {bs : List UInt8} (holds : Holds cap off queue bs) :
    mhdr_readable queue = true ↔ queue.flatMap content ≠ [] := by
  rw [holds.bytes]
  cases queue with
  | nil => simp [mhdr_readable, ← holds.bytes]
  | cons buf rest =>
    obtain ⟨_, _, size, _, _, _⟩ := holds_first holds
    have inside := holds.inside
    rw [mhdr_readable, decide_eq_true_eq, size, ne_eq, ne_eq, ← List.length_eq_zero_iff]
    omega

/-- Every mbuf of a longer queue has a byte to read. -/
theorem holds_filled {off : Nat} {queue : List Mbuf} {bs : List UInt8} (holds : Holds cap off queue bs)
    (several : 2 ≤ queue.length) : ∀ b ∈ queue, 0 < mbuf_read_size b := by
  intro b member
  cases queue with
  | nil => cases member
  | cons buf rest =>
    rcases List.mem_cons.mp member with rfl | later
    · obtain ⟨_, _, size, _, _, more⟩ := holds_first holds
      have inside := holds.inside
      have left := more (by rintro rfl; simp at several)
      omega
    · have pos := holds.unread b later
      have last := holds.written b later
      rw [mbuf_read_size]
      omega

theorem holds_represented {off : Nat} {queue : List Mbuf} {bs : List UInt8} (holds : Holds cap off queue bs) :
    Represented queue := by
  refine ⟨?_, ?_, ?_, ?_, holds_filled holds, holds_readable holds⟩
  · intro b member
    have sound := holds.sound b member
    exact ⟨by rw [sound.start]; exact Nat.zero_le _, sound.read, by rw [sound.stop]; exact sound.written⟩
  · intro b member
    rw [holds.full b member, (holds.sound b (List.mem_of_mem_dropLast member)).stop]
  · intro b member
    rw [holds.unread b member, (holds.sound b (List.mem_of_mem_tail member)).start]
  · rintro b member ⟨atEnd, spent⟩
    have sound := holds.sound b member
    have inside := holds.inside
    rw [sound.stop] at atEnd
    cases queue with
    | nil => cases member
    | cons buf rest =>
      rcases List.mem_cons.mp member with rfl | later
      · have pos : b.pos = off := by simpa using holds.head
        omega
      · have pos := holds.unread b later
        omega

/-- Every queue of the context is laid out so, and bytes written join what is unread. -/
structure WellLaid (s : Pool) : Prop where
  represented : ∀ c ∈ s.handles, Represented (queued (s.con c))
  gapless : ∀ c ∈ s.handles, ∀ data w con, con_buf_write s.world (s.con c) data = some (w, con) →
    (queued con).flatMap content = (queued (s.con c)).flatMap content ++ data

theorem laid_well (laid : Laid cap s) : WellLaid s := by
  constructor
  · intro c _
    obtain ⟨off, bs, holds⟩ := laid.queues c
    exact holds_represented holds
  · intro c _ data w con executed
    obtain ⟨off, bs, holds⟩ := laid.queues c
    obtain ⟨w', con', again, _, after, _⟩ := con_buf_write_spec laid.offset holds data
    cases executed.symm.trans again
    rw [after.bytes, holds.bytes]

theorem always_represented (w : World) (positive : 1 ≤ w.ctx.mbuf_offset) (ops : List PoolOp) :
    Always step WellLaid (start w) ops := by
  have kept : Always step (Laid w.ctx.mbuf_offset) (start w) ops :=
    always_of_inv (fun s op s' laid _ stepped => step_laid laid stepped) (start_laid positive) (each_true _ _)
  exact always_mono (fun s laid => laid_well laid) kept

/-- Twenty bytes over three mbufs, of which twelve are asked for. -/
theorem always_represented_three_mbufs :
    Always step WellLaid (start Sessions.test_context)
      [.new, .write 0 [0, 1, 2, 3, 4, 5, 6, 7, 8, 9, 10, 11, 12, 13, 14, 15, 16, 17, 18, 19], .read 0 12] :=
  always_represented Sessions.test_context (by decide) _

end TcpLearn.Layout
