import TcpLearn.Frame
import TcpLearn.Sessions

/-!
# The con_info of a connection

A connection gets its con_info from its first write of some bytes. The other
operations may come before that: `con_buf_peek` and `connection_buf_free` ask
whether there is one, `con_buf_read` follows `con->info` all the same. So a sequence
of operations on a new connection follows no NULL pointer exactly when no read comes
before the first write of some bytes (`null_safe_iff`).
-/
namespace TcpLearn.ConInfo
open TcpLearn.Memory TcpLearn.MbufOps TcpLearn.ConBuf TcpLearn.Chain TcpLearn.Contexts TcpLearn.Tailq TcpLearn.Frame
open TcpLearn.Sessions TcpLearn.Runs

/-- The operation follows no NULL pointer and finds every mbuf it uses. Without a
    con_info it returns 0 and changes nothing, a write of some bytes apart. -/
def NullSafe (s : Session) : ConOp → Prop
  | .write data => data ≠ [] →
    (make_room (attach_info s.world s.con).1.block (attach_info s.world s.con).2 (attach_info s.world s.con).1.data).2 ≠ []
  | .read len => ∃ w con reply, con_buf_read s.world s.con len = some (w, con, reply) ∧
      (s.con.info = none → w = s.world ∧ con = s.con ∧ reply = ⟨0, []⟩)
  | .peek len => s.con.info = none → con_buf_peek s.con len = ⟨0, []⟩
  | .free => s.con.info = none → connection_buf_free s.world s.con = (s.world, s.con)

/-- Operations on a connection, and giving it back after them. -/
structure Safe (w : World) (c : Nat) (con : Connection) (ops : List ConOp) : Prop where
  operations : Each step NullSafe ⟨w, con, [], []⟩ ops
  recycle : ∀ s, run step ⟨w, con, [], []⟩ ops = some s → ∃ r, context_conn_recyle s.world c s.con = some r

/-- A write of some bytes comes before the first read. -/
def WrittenFirst : List ConOp → Prop
  | [] => True
  | .write data :: ops => data ≠ [] ∨ WrittenFirst ops
  | .read _ :: _ => False
  | .peek _ :: ops | .free :: ops => WrittenFirst ops

variable {s s' : Session}

/-- Only a write of some bytes gives a connection its con_info, and none takes it away. -/
theorem write_attached {w w' : World} {con con' : Connection} {data : List UInt8}
    (executed : con_buf_write w con data = some (w', con')) : con'.info = none ↔ con.info = none ∧ data = [] := by
  unfold con_buf_write at executed
  dsimp only at executed
  split_ifs at executed with empty
  · cases executed
    simp [List.length_eq_zero_iff.mp empty]
  · have some : data ≠ [] := fun none => empty (by simp [none])
    split at executed
    · cases executed
    · split at executed
      · cases executed
      · cases executed
        split_ifs <;> simp [some]

theorem step_attached (attached : s.con.info ≠ none) {op : ConOp} (stepped : step s op = some s') :
    s'.con.info ≠ none := by
  cases op with
  | write data =>
    obtain ⟨⟨w, con⟩, executed, rfl⟩ := Option.map_eq_some_iff.mp stepped
    exact fun none => attached ((write_attached executed).mp none).1
  | read len =>
    obtain ⟨⟨w, con, reply⟩, executed, rfl⟩ := Option.map_eq_some_iff.mp stepped
    unfold con_buf_read at executed
    split at executed
    · cases executed
    · cases executed
      simp
  | peek len => cases stepped; exact attached
  | free =>
    cases stepped
    obtain ⟨_, _, _, _, same⟩ := connection_buf_free_spec s.world s.con
    exact fun none => attached (same.mp none)

theorem room_made (info : Nat) (w : World) (queue : List Mbuf) : (make_room info w queue).2 ≠ [] := by
  rcases make_room_cases info w queue with ⟨front, buf, same, _, made⟩ | ⟨_, made⟩
  · rw [made]
    simp [same]
  · simp [made]

theorem attached_safe (attached : s.con.info ≠ none) (op : ConOp) : NullSafe s op := by
  cases op with
  | write data => exact fun _ => room_made _ _ _
  | read len =>
    obtain ⟨w, con, reply, executed⟩ := con_buf_read_attached s.world attached len
    exact ⟨w, con, reply, executed, fun none => absurd none attached⟩
  | peek len => exact fun none => absurd none attached
  | free => exact fun none => absurd none attached

theorem attached_run (attached : s.con.info ≠ none) (ops : List ConOp) : Each step NullSafe s ops := by
  induction ops generalizing s with
  | nil => trivial
  | cons op ops ih => exact ⟨attached_safe attached op, fun s' stepped => ih (step_attached attached stepped)⟩

/-- From a connection without con_info the first read must come after some bytes. -/
theorem unattached_run (unattached : s.con.info = none) (ops : List ConOp) :
    Each step NullSafe s ops ↔ WrittenFirst ops := by
  induction ops generalizing s with
  | nil => exact Iff.rfl
  | cons op ops ih =>
    cases op with
    | write data =>
      by_cases empty : data = []
      · subst empty
        simp only [WrittenFirst, ne_eq, not_true_eq_false, false_or, ← ih unattached]
        constructor
        · rintro ⟨_, rest⟩
          exact rest _ (by simp only [step, con_buf_write_nil, Option.map_some, List.append_nil])
        · intro rest
          refine ⟨fun some => absurd rfl some, ?_⟩
          intro s' stepped
          simp only [step, con_buf_write_nil, Option.map_some, List.append_nil] at stepped
          cases stepped
          exact rest
      · refine iff_of_true ⟨fun _ => room_made _ _ _, fun s' stepped => attached_run ?_ ops⟩ (.inl empty)
        obtain ⟨⟨w, con⟩, executed, rfl⟩ := Option.map_eq_some_iff.mp stepped
        exact fun none => empty ((write_attached executed).mp none).2
    | read len =>
      refine iff_of_false ?_ id
      rintro ⟨⟨w, con, reply, executed, _⟩, _⟩
      simp [con_buf_read, unattached] at executed
    | peek len =>
      rw [WrittenFirst, ← ih unattached]
      constructor
      · exact fun both => both.2 s rfl
      · intro rest
        refine ⟨fun none => by simp [con_buf_peek, none], ?_⟩
        intro s' stepped
        cases stepped
        exact rest
    | free =>
      have same : connection_buf_free s.world s.con = (s.world, s.con) := by simp [connection_buf_free, unattached]
      rw [WrittenFirst, ← ih unattached]
      constructor
      · intro both
        exact both.2 s (by simp only [step, same])
      · intro rest
        refine ⟨fun _ => same, ?_⟩
        intro s' stepped
        simp only [step, same] at stepped
        cases stepped
        exact rest

/-- The operations on a connection leave the links of `ctx->conns`. -/
theorem run_conns {ops : List ConOp} (executed : run step s ops = some s') :
    s'.world.ctx.conns = s.world.ctx.conns := by
  induction ops generalizing s with
  | nil => cases executed; rfl
  | cons op ops ih =>
    obtain ⟨mid, stepped, rest⟩ := run_cons_eq_some executed
    apply (ih rest).trans
    cases op with
    | write data =>
      obtain ⟨⟨w, con⟩, written, rfl⟩ := Option.map_eq_some_iff.mp stepped
      exact (keeps_write written).conns
    | read len =>
      obtain ⟨⟨w, con, reply⟩, read, rfl⟩ := Option.map_eq_some_iff.mp stepped
      exact (keeps_read read).conns
    | peek len => cases stepped; rfl
    | free => cases stepped; exact (keeps_free s.world s.con).conns

theorem null_safe_iff (w : World) (empty : Queue w.ctx.conns () []) (ops : List ConOp) :
    ∃ w' c con, context_connection_new w = some (w', c, con) ∧ (Safe w' c con ops ↔ WrittenFirst ops) := by
  have first : TAILQ_FIRST w.ctx.conns () = none := by rw [queue_first empty, List.head?_nil]
  refine ⟨_, _, _, connection_new_fresh first, ?_⟩
  constructor
  · intro safe
    exact (unattached_run rfl ops).mp safe.operations
  · intro written
    refine ⟨(unattached_run rfl ops).mpr written, ?_⟩
    intro s executed
    have conns : s.world.ctx.conns = TAILQ_RESET w.ctx.conns (cv_malloc .connection w.heap).1 := run_conns executed
    have listed := reset_queue (n := (cv_malloc .connection w.heap).1) empty (by simp)
    have unlinked := reset_self w.ctx.conns (cv_malloc .connection w.heap).1
    rw [← conns] at listed unlinked
    obtain ⟨linked, given, _⟩ := link_free_spec listed (.inr unlinked)
    exact ⟨_, conn_recyle_spec s.con given⟩

theorem null_safe_after_write :
    ∃ w' c con, context_connection_new test_context = some (w', c, con) ∧
      (Safe w' c con [.peek 4, .write [], .write [1], .read 4, .free, .read 4] ↔
        WrittenFirst [.peek 4, .write [], .write [1], .read 4, .free, .read 4]) :=
  null_safe_iff test_context (zeroed_queue ()) _

/-- A read comes first, with no con_info to follow. -/
theorem read_follows_null :
    ∃ w' c con, context_connection_new test_context = some (w', c, con) ∧ con_buf_peek con 1 = ⟨0, []⟩ ∧
      con_buf_read w' con 1 = none ∧ ¬ Safe w' c con [.read 1] := by
  refine ⟨_, _, _, rfl, rfl, rfl, ?_⟩
  intro safe
  obtain ⟨_, _, _, executed, _⟩ := safe.operations.1
  cases executed

end TcpLearn.ConInfo
