import TcpLearn.Chain
import TcpLearn.Contexts
import TcpLearn.Runs

/-!
# Runs on one connection

Any sequence of writes, reads, peeks and frees on one connection, from a context
whose pools hold any mbufs and con_infos. In every state the queue holds some
byte string (`step_inv`), every operation has a result as long as reads are
issued once the connection has a con_info (`session_total`), and no byte is lost,
duplicated, reordered or invented (`bytes_conserved`).

`con->data_size` is maintained beside the queue. It keeps up with the queue
exactly as long as no write ends at the end of an mbuf, where `con_buf_write`
returns without counting its bytes, and `connection_buf_free` drops no bytes,
because it never resets the counter (`data_size_agrees_iff`).
-/
namespace TcpLearn.Sessions
open TcpLearn.Memory TcpLearn.MbufOps TcpLearn.ConBuf TcpLearn.Chain TcpLearn.Contexts TcpLearn.Runs

inductive ConOp where
  | write (data : List UInt8)
  | read (len : Nat)
  | peek (len : Nat)
  | free

/-- A connection and what its operations were given and have delivered so far. -/
structure Session where
  world : World
  con : Connection
  /-- All bytes passed to `con_buf_write`. -/
  written : List UInt8
  /-- What the calls of `con_buf_read` returned and stored. -/
  replies : List Reply

/-- A connection as `conn_init` leaves it. -/
def start (w : World) : Session := ⟨w, ⟨0, none, some w.ctx.block⟩, [], []⟩

def step (s : Session) : ConOp → Option Session
  | .write data => (con_buf_write s.world s.con data).map fun (w, con) =>
      { s with world := w, con := con, written := s.written ++ data }
  | .read len => (con_buf_read s.world s.con len).map fun (w, con, reply) =>
      { s with world := w, con := con, replies := s.replies ++ [reply] }
  | .peek _ => some s
  | .free => some { s with
      world := (connection_buf_free s.world s.con).1, con := (connection_buf_free s.world s.con).2 }

/-- `DEFAULT_BUFSIZE` of `mbuf_test.c`, which leaves buffers of 8 bytes. -/
def DEFAULT_BUFSIZE : Int := 64
def test_context : World := context_new (no_blocks fun _ _ => 0) DEFAULT_BUFSIZE

/-- Reads are issued once `con->info` exists. -/
def Issued (s : Session) : ConOp → Prop
  | .read _ => s.con.info ≠ none
  | _ => True

/-- The queue holds the bytes `bs` from the offset `off` on. -/
structure Buffered (cap off : Nat) (bs : List UInt8) (s : Session) : Prop where
  offset : s.world.ctx.mbuf_offset = cap
  holds : Holds cap off (queued s.con) bs

def Inv (cap : Nat) (s : Session) : Prop := ∃ off bs, Buffered cap off bs s

theorem start_buffered {w : World} (positive : 1 ≤ w.ctx.mbuf_offset) :
    Buffered w.ctx.mbuf_offset 0 [] (start w) := ⟨rfl, holds_nil positive⟩

/-! ## One step -/

theorem step_write {cap off : Nat} {bs : List UInt8} {s : Session} (buffered : Buffered cap off bs s)
    (data : List UInt8) :
    ∃ s', step s (.write data) = some s' ∧ Buffered cap off (bs ++ data) s' ∧ s'.written = s.written ++ data ∧
      s'.replies = s.replies ∧ s'.con.data_size = s.con.data_size +
        if data ≠ [] ∧ cap ∣ fill (queued s.con) + data.length then 0 else (data.length : Int) := by
  obtain ⟨w', con', executed, offset, holds, _, _, counted⟩ := con_buf_write_spec buffered.offset buffered.holds data
  exact ⟨{ s with world := w', con := con', written := s.written ++ data },
    by simp only [step, executed, Option.map_some], ⟨offset, holds⟩, rfl, rfl, counted⟩

theorem step_read {cap off : Nat} {bs : List UInt8} {s : Session} (buffered : Buffered cap off bs s) (len : Nat)
    (attached : s.con.info ≠ none) :
    ∃ s' k, step s (.read len) = some s' ∧ k = taken cap len (allowed s.con len) off bs.length ∧
      Buffered cap ((off + k) % cap) (bs.drop k) s' ∧ s'.written = s.written ∧
      s'.replies = s.replies ++ [⟨k, bs.take k⟩] ∧ s'.con.data_size = s.con.data_size - k := by
  obtain ⟨w', con', executed, offset, holds, _, _, size⟩ := con_buf_read_spec buffered.holds s.world len attached
  set k := taken cap len (allowed s.con len) off bs.length
  exact ⟨{ s with world := w', con := con', replies := s.replies ++ [⟨k, bs.take k⟩] }, k,
    by simp only [step, executed, Option.map_some], rfl, ⟨offset.trans buffered.offset, holds⟩, rfl, rfl, size⟩

theorem step_free {cap off : Nat} {bs : List UInt8} {s : Session} (buffered : Buffered cap off bs s) :
    ∃ s', step s .free = some s' ∧ Buffered cap 0 [] s' ∧ s'.written = s.written ∧ s'.replies = s.replies ∧
      s'.con.data_size = s.con.data_size := by
  obtain ⟨offset, empty, size, _, _⟩ := connection_buf_free_spec s.world s.con
  have positive : 0 < cap := by have := buffered.holds.inside; omega
  exact ⟨_, rfl, ⟨offset.trans buffered.offset, by simpa [empty] using holds_nil positive⟩, rfl, rfl, size⟩

/-- Every operation issued as it should be has a result and leaves a queue that
    holds some bytes. -/
theorem step_inv {cap : Nat} {s : Session} {op : ConOp} (inv : Inv cap s) (issued : Issued s op) :
    ∃ s', step s op = some s' ∧ Inv cap s' := by
  obtain ⟨off, bs, buffered⟩ := inv
  cases op with
  | write data =>
    obtain ⟨s', stepped, after, _⟩ := step_write buffered data
    exact ⟨s', stepped, off, _, after⟩
  | read len =>
    obtain ⟨s', k, stepped, _, after, _⟩ := step_read buffered len issued
    exact ⟨s', stepped, _, _, after⟩
  | peek len => exact ⟨s, rfl, off, bs, buffered⟩
  | free =>
    obtain ⟨s', stepped, after, _⟩ := step_free buffered
    exact ⟨s', stepped, _, _, after⟩

theorem step_keeps {cap : Nat} (s : Session) (op : ConOp) (s' : Session) (inv : Inv cap s) (issued : Issued s op)
    (stepped : step s op = some s') : Inv cap s' := by
  obtain ⟨other, same, after⟩ := step_inv inv issued
  cases stepped.symm.trans same
  exact after

theorem session_total {w : World} (positive : 1 ≤ w.ctx.mbuf_offset) {ops : List ConOp}
    (issued : Each step Issued (start w) ops) :
    ∃ s, run step (start w) ops = some s ∧ Inv w.ctx.mbuf_offset s :=
  run_total (fun _ _ inv issued => step_inv inv issued) ⟨0, [], start_buffered positive⟩ issued

/-! ## The bytes -/

/-- The bytes written are the bytes read, as the calls report them, followed by
    the unread ones. -/
def Conserved (s : Session) : Prop :=
  s.written = s.replies.flatMap Reply.dst ++ (queued s.con).flatMap content ∧
    ∀ reply ∈ s.replies, reply.ret = reply.dst.length

theorem step_conserved {cap : Nat} {s s' : Session} {op : ConOp} (inv : Inv cap s) (conserved : Conserved s)
    (issued : Issued s op) (kept : op ≠ .free) (stepped : step s op = some s') : Conserved s' := by
  obtain ⟨off, bs, buffered⟩ := inv
  obtain ⟨bytes, honest⟩ := conserved
  rw [buffered.holds.bytes] at bytes
  cases op with
  | write data =>
    obtain ⟨other, same, after, written, replies, _⟩ := step_write buffered data
    cases stepped.symm.trans same
    refine ⟨?_, by rw [replies]; exact honest⟩
    rw [written, replies, after.holds.bytes, bytes, List.append_assoc]
  | read len =>
    obtain ⟨other, k, same, kIs, after, written, replies, _⟩ := step_read buffered len issued
    cases stepped.symm.trans same
    constructor
    · rw [written, replies, after.holds.bytes, bytes]
      simp
    · intro reply member
      rw [replies] at member
      rcases List.mem_append.mp member with earlier | last
      · exact honest reply earlier
      · rw [List.mem_singleton.mp last]
        have := taken_le cap len (allowed s.con len) off bs.length
        rw [← kIs] at this
        simp [this]
  | peek len => cases stepped; exact ⟨by rw [buffered.holds.bytes]; exact bytes, honest⟩
  | free => exact absurd rfl kept

/-- Every byte written is read once, in order, or still unread. The results are those of
    the C functions as long as less than 2^31 bytes are unread, where they fit an `int`. -/
theorem bytes_conserved (w : World) (positive : 1 ≤ w.ctx.mbuf_offset) (ops : List ConOp) (kept : ConOp.free ∉ ops)
    (issued : Each step Issued (start w) ops) :
    (∃ s, run step (start w) ops = some s) ∧ Always step Conserved (start w) ops := by
  refine ⟨(session_total positive issued).imp fun _ h => h.1, ?_⟩
  have kept' : Each step (fun s op => Issued s op ∧ op ≠ .free) (start w) ops := by
    clear positive
    generalize start w = s at issued
    induction ops generalizing s with
    | nil => trivial
    | cons op ops ih =>
      simp only [List.mem_cons, not_or] at kept
      exact ⟨⟨issued.1, fun same => kept.1 same.symm⟩, fun s' stepped => ih kept.2 s' (issued.2 s' stepped)⟩
  refine always_mono (fun s (both : Inv w.ctx.mbuf_offset s ∧ Conserved s) => both.2) (always_of_inv
    (fun s op s' both good stepped => ⟨step_keeps s op s' both.1 good.1 stepped,
      step_conserved both.1 both.2 good.1 good.2 stepped⟩)
    ⟨⟨0, [], start_buffered positive⟩, by simp [start], by simp [start]⟩ kept')

/-- Ten bytes over two mbufs, of which nine are read. -/
theorem bytes_conserved_two_mbufs :
    (∃ s, run step (start test_context) [.write [0, 1, 2, 3, 4, 5, 6, 7, 8, 9], .read 9] = some s) ∧
      Always step Conserved (start test_context) [.write [0, 1, 2, 3, 4, 5, 6, 7, 8, 9], .read 9] := by
  refine bytes_conserved test_context (by decide) _ (by simp) ⟨trivial, fun s stepped => ⟨?_, fun _ _ => trivial⟩⟩
  cases stepped
  nofun

/-! ## The counter -/

/-- `data_size` is the number of unread bytes. -/
def Agrees (s : Session) : Prop :=
  s.con.data_size = unread (queued s.con) ∧ 0 ≤ s.con.data_size ∧
    (s.con.data_size = 0 ↔ (queued s.con).flatMap content = [])

/-- The write does not end at the end of an mbuf, and no bytes are freed. -/
def Counted (s : Session) : ConOp → Prop
  | .write data => data = [] ∨ ¬ s.world.ctx.mbuf_offset ∣ fill (queued s.con) + data.length
  | .free => (queued s.con).flatMap content = []
  | _ => True

theorem agrees_iff {cap off : Nat} {bs : List UInt8} {s : Session} (buffered : Buffered cap off bs s) :
    Agrees s ↔ s.con.data_size = bs.length := by
  simp only [Agrees, holds_unread buffered.holds, buffered.holds.bytes]
  constructor
  · exact fun both => both.1
  · intro same
    refine ⟨same, by omega, ?_⟩
    rw [same, ← List.length_eq_zero_iff]
    omega

theorem step_agrees {cap : Nat} {s : Session} {op : ConOp} (inv : Inv cap s) (agrees : Agrees s)
    (issued : Issued s op) : ∃ s', step s op = some s' ∧ (Agrees s' ↔ Counted s op) := by
  obtain ⟨off, bs, buffered⟩ := inv
  have size := (agrees_iff buffered).mp agrees
  cases op with
  | write data =>
    obtain ⟨s', stepped, after, _, _, counted⟩ := step_write buffered data
    refine ⟨s', stepped, ?_⟩
    rw [agrees_iff after, counted, size, Counted, buffered.offset, List.length_append]
    by_cases empty : data = []
    · simp [empty]
    · have some : 0 < data.length := List.length_pos_of_ne_nil empty
      by_cases atEnd : cap ∣ fill (queued s.con) + data.length
      · simp only [ne_eq, empty, not_false_eq_true, atEnd, and_self, ↓reduceIte, not_true_eq_false, or_self,
          iff_false]
        omega
      · simp [empty, atEnd]
  | read len =>
    obtain ⟨s', k, stepped, kIs, after, _, _, counted⟩ := step_read buffered len issued
    refine ⟨s', stepped, ?_⟩
    have := taken_le cap len (allowed s.con len) off bs.length
    rw [agrees_iff after, counted, size, List.length_drop]
    simp only [Counted, iff_true]
    omega
  | peek len => exact ⟨s, rfl, by simp [agrees, Counted]⟩
  | free =>
    obtain ⟨s', stepped, after, _, _, same⟩ := step_free buffered
    refine ⟨s', stepped, ?_⟩
    rw [agrees_iff after, same, size, Counted, buffered.holds.bytes, ← List.length_eq_zero_iff]
    simp

/-- The counter is right in every state of a run exactly when every write stops
    short of the end of an mbuf and nothing unread is freed. -/
theorem data_size_agrees_iff (w : World) (positive : 1 ≤ w.ctx.mbuf_offset) (ops : List ConOp)
    (issued : Each step Issued (start w) ops) :
    Always step Agrees (start w) ops ↔ Each step Counted (start w) ops :=
  always_iff_each (fun s op s' => step_keeps s op s') (fun _ _ inv agrees issued => step_agrees inv agrees issued)
    ⟨0, [], start_buffered positive⟩ ((agrees_iff (start_buffered positive)).mpr rfl) issued

/-- A write of 8 bytes into an empty buffer of 8 bytes is not counted. -/
theorem data_size_misses_full_mbuf :
    Each step Issued (start test_context) [.write [0, 1, 2, 3, 4, 5, 6, 7]] ∧
      ¬ Always step Agrees (start test_context) [.write [0, 1, 2, 3, 4, 5, 6, 7]] := by
  refine ⟨⟨trivial, fun _ _ => trivial⟩, ?_⟩
  intro always
  have agrees := always.2 _ rfl
  exact absurd agrees.1 (by decide)

theorem data_size_agrees_three_bytes :
    Always step Agrees (start test_context) [.write [0, 1, 2], .read 2, .peek 4] ↔
      Each step Counted (start test_context) [.write [0, 1, 2], .read 2, .peek 4] := by
  refine data_size_agrees_iff test_context (by decide) _ ⟨trivial, fun s stepped => ⟨?_, fun _ _ => ⟨trivial, fun _ _ => trivial⟩⟩⟩
  cases stepped
  nofun

end TcpLearn.Sessions
