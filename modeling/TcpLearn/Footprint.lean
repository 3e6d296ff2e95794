import TcpLearn.Peaks
import TcpLearn.Server
import TcpLearn.Writing

/-!
# The memory of the server

Nothing in `server.cc` reads from the buffers of its clients, and none of them is
deleted while `Process` runs. What a run of the server does to its context is a run of
`Pools` that creates connections and writes to them, one for each call of `su_accept`
and one for each chunk that a client is given (`runs_on_pool`). So the bytes given to
the clients so far fix how many con_infos and mbufs there are, whether their
connections are still open or not (`footprint_exact`).
-/
namespace TcpLearn.Footprint
open TcpLearn.Memory TcpLearn.MbufOps TcpLearn.ConBuf TcpLearn.Chain TcpLearn.Contexts TcpLearn.Pools TcpLearn.Runs
open TcpLearn.Server
open TcpLearn.Client (mbuf_size)
open TcpLearn.Writing (needed)

/-! ## What the server asks its context for -/

/-- A connection is created or bytes are written. -/
def Grows : PoolOp → Prop
  | .new => True
  | .write _ data => data ≠ []
  | _ => False

/-- The bytes an operation writes, with the handle. -/
def written : PoolOp → List (Nat × List UInt8)
  | .write i data => [(i, data)]
  | _ => []

/-- From `s` to `s'` the server did these operations on its context. -/
structure Does (ops : List PoolOp) (s s' : TcpServer) : Prop where
  ran : run step s.pool ops = some s'.pool
  grows : ∀ op ∈ ops, Grows op
  delivered : s'.delivered = s.delivered ++ ops.flatMap written
  accepted : s'.accepted.length = s.accepted.length + ops.count .new

section
variable {s mid s' : TcpServer}

theorem does_nothing (pool : s'.pool = s.pool) (delivered : s'.delivered = s.delivered)
    (accepted : s'.accepted = s.accepted) : Does [] s s' :=
  ⟨by rw [pool]; rfl, by simp, by simp [delivered], by simp [accepted]⟩

theorem does_trans {ops later : List PoolOp} (first : Does ops s mid) (second : Does later mid s') :
    Does (ops ++ later) s s' := by
  refine ⟨?_, ?_, ?_, ?_⟩
  · rw [run_append, first.ran]
    exact second.ran
  · intro op member
    exact (List.mem_append.mp member).elim (first.grows op) (second.grows op)
  · rw [second.delivered, first.delivered, List.flatMap_append, List.append_assoc]
  · rw [second.accepted, first.accepted, List.count_append, Nat.add_assoc]

/-! ## The branches of `Process` -/

theorem called_does (s : TcpServer) (call : Call) (fd : Int) : Does [] s (called s call fd) := by
  rw [(called_cases s call fd).1]
  exact does_nothing rfl rfl rfl

theorem recv_does (s : TcpServer) (fd : Int) (pending : List (List UInt8)) : Does [] s (su_tcp_recv s fd pending).2 := by
  unfold su_tcp_recv
  split
  · exact does_nothing rfl rfl rfl
  · exact does_nothing rfl rfl rfl
  · exact called_does s .recv fd

theorem shut_does (s : TcpServer) (fd : Int) : Does [] s (shut s fd) := by
  have shuts := shut_spec s fd
  exact does_nothing shuts.pool shuts.delivered shuts.accepted

theorem data_does {it : Option Nat} {bytes : List UInt8} (nonempty : bytes ≠ [])
    (executed : on_new_data s it bytes = some s') : ∃ ops, Does ops s s' := by
  cases it with
  | none =>
    cases executed
    exact ⟨[], does_nothing rfl rfl rfl⟩
  | some client =>
    obtain ⟨c, found, rest⟩ := Option.bind_eq_some_iff.mp executed
    rw [OnNewData_none] at rest
    obtain ⟨⟨w, con, calls⟩, wrote, result⟩ := Option.bind_eq_some_iff.mp rest
    obtain ⟨⟨w', con'⟩, stored, same⟩ := Option.map_eq_some_iff.mp wrote
    cases same
    cases result
    refine ⟨[.write client bytes], ?_, ?_, rfl, rfl⟩
    · rw [run_cons, step_write.mpr ⟨c, w', con', found, stored, rfl⟩]
      rfl
    · simpa [Grows] using nonempty

theorem drain_does {fd : Int} {it : Option Nat} {pending : List (List UInt8)}
    (executed : drain_loop fd it pending s = some s') : ∃ ops, Does ops s s' := by
  induction pending generalizing s with
  | nil =>
    cases executed
    exact ⟨[], recv_does s fd []⟩
  | cons bytes pending ih =>
    have received := recv_does s fd (bytes :: pending)
    rw [drain_loop] at executed
    dsimp only at executed
    split_ifs at executed with some
    · obtain ⟨mid, given, rest⟩ := Option.bind_eq_some_iff.mp executed
      obtain ⟨wrote, does⟩ := data_does some given
      obtain ⟨later, doesLater⟩ := ih rest
      exact ⟨_, does_trans received (does_trans does doesLater)⟩
    · cases executed
      exact ⟨[], received⟩

theorem epoll_in_does {fd : Int} {pending : List (List UInt8)} (executed : epoll_in s fd pending = some s') :
    ∃ ops, Does ops s s' := by
  have received := recv_does s fd pending
  by_cases none : (su_tcp_recv s fd pending).1 = []
  · simp only [epoll_in, none, ne_eq, not_true_eq_false, ↓reduceIte] at executed
    obtain ⟨later, drained⟩ := drain_does executed
    exact ⟨_, does_trans received (does_trans (shut_does _ fd) drained)⟩
  · simp only [epoll_in, none, ne_eq, not_false_eq_true, ↓reduceIte] at executed
    obtain ⟨mid, given, rest⟩ := Option.bind_eq_some_iff.mp executed
    obtain ⟨wrote, does⟩ := data_does none given
    obtain ⟨later, drained⟩ := drain_does rest
    exact ⟨_, does_trans received (does_trans does drained)⟩

theorem accept_does {con_fd : Int} (executed : accept s con_fd = some s') : ∃ ops, Does ops s s' := by
  obtain ⟨pool, created, result⟩ := Option.bind_eq_some_iff.mp executed
  cases result
  set joined : TcpServer := { s with
    accepted := s.accepted ++ [con_fd], pool := pool
    sockets := if 0 ≤ con_fd then (con_fd, s.accepted.length) :: s.sockets else s.sockets
    clients_ := map_insert s.clients_ con_fd s.accepted.length }
  have first : Does [.new] s joined := by
    refine ⟨?_, by simp [Grows], by simp [joined, written], by simp [joined]⟩
    rw [run_cons, created]
    rfl
  exact ⟨_, does_trans first (called_does joined .epoll_ctl con_fd)⟩

theorem handle_does {e : Event} (executed : handle s e = some s') : ∃ ops, Does ops s s' := by
  by_cases listening : e.data_fd = s.listenfd_
  · rw [handle_listen listening] at executed
    exact accept_does executed
  · obtain ⟨mid, ops, does, last⟩ : ∃ mid ops, Does ops s mid ∧
        some (if e.epollrdhup then shut mid e.data_fd else mid) = some s' := by
      by_cases readable : e.epollin = true
      · simp only [handle, if_neg listening, if_pos readable] at executed
        obtain ⟨mid, given, last⟩ := Option.bind_eq_some_iff.mp executed
        obtain ⟨ops, does⟩ := epoll_in_does given
        exact ⟨mid, ops, does, last⟩
      · simp only [handle, if_neg listening, if_neg readable] at executed
        exact ⟨s, [], does_nothing rfl rfl rfl, executed⟩
    cases last
    split_ifs
    · exact ⟨_, does_trans does (shut_does mid e.data_fd)⟩
    · exact ⟨ops, does⟩

theorem run_does {events : List Event} (executed : run handle s events = some s') : ∃ ops, Does ops s s' := by
  induction events generalizing s with
  | nil =>
    cases executed
    exact ⟨[], does_nothing rfl rfl rfl⟩
  | cons e events ih =>
    obtain ⟨mid, handled, rest⟩ := run_cons_eq_some executed
    obtain ⟨ops, does⟩ := handle_does handled
    obtain ⟨later, doesLater⟩ := ih rest
    exact ⟨_, does_trans does doesLater⟩

end

/-! ## What such operations leave in the context -/

/-- The bytes of an mbuf of the server. -/
def capacity : Nat := 968

/-- The bytes written to a handle. -/
def written_to (i : Nat) (given : List (Nat × List UInt8)) : List UInt8 :=
  ((given.filter fun e => e.1 = i).map Prod.snd).flatten

/-- Every queue holds from the first byte of its first mbuf on what was written to it, and
    no mbuf is out of use. -/
structure Filled (given : List (Nat × List UInt8)) (p : Pool) : Prop where
  inv : Accounting.Inv p []
  offset : p.world.ctx.mbuf_offset = capacity
  known : ∀ e ∈ given, e.1 < p.handles.length
  buffers : ∀ i c, p.handles[i]? = some c →
    Holds capacity 0 (queued (p.con c)) (written_to i given) ∧
      ((p.con c).info = none ↔ written_to i given = [])
  used : p.world.ctx.mstats.total_buffers = p.world.ctx.mstats.buffers

section
variable {p p' : Pool} {given : List (Nat × List UInt8)} {op : PoolOp}

theorem written_to_concat (i k : Nat) (given : List (Nat × List UInt8)) (data : List UInt8) :
    written_to i (given ++ [(k, data)]) = written_to i given ++ if k = i then data else [] := by
  simp only [written_to, List.filter_append, List.map_append, List.flatten_append, List.filter_singleton]
  split_ifs with same <;> simp [same]

theorem inv_tallied (inv : Accounting.Inv p []) : Peaks.Tallied p.world :=
  ⟨inv.accounts.total_buffers, inv.accounts.free_buffers, inv.accounts.bounded⟩

/-- While nothing is given back, no mbuf goes out of use. -/
theorem climbs_used {w w' : World} (climbs : Peaks.Climbs w w') (tallied : Peaks.Tallied w)
    (used : w.ctx.mstats.total_buffers = w.ctx.mstats.buffers) : w'.ctx.mstats.total_buffers = w'.ctx.mstats.buffers := by
  have after := climbs.tallied tallied
  have total := climbs.total tallied
  have grown := climbs.buffers
  have sum := after.total
  have free := after.free
  omega

theorem grows_issued (inv : Accounting.Inv p []) (grows : Grows op) (stepped : step p op = some p') :
    Accounting.Issued p op ∧ Accounting.Inv p' [] := by
  have used : ∀ c ∈ p.handles, c ∈ p.inUse := fun c member => by simpa using inv.handed.mem_iff.mp member
  cases op with
  | new =>
    obtain ⟨other, same, after⟩ := Accounting.inv_new inv used
    cases stepped.symm.trans same
    exact ⟨used, after⟩
  | write i data =>
    obtain ⟨c, w, con, found, _, _⟩ := step_write.mp stepped
    have issued : Accounting.Issued p (.write i data) := ⟨c, found, used c (List.mem_of_getElem? found)⟩
    obtain ⟨other, same, after⟩ := Accounting.inv_write inv issued
    cases stepped.symm.trans same
    exact ⟨issued, after⟩
  | _ => exact absurd grows id

theorem filled_new (filled : Filled given p) (stepped : step p .new = some p') : Filled given p' := by
  obtain ⟨other, same, after, length, offset, older, newest⟩ := pool_new filled.inv
  cases stepped.symm.trans same
  obtain ⟨_, _, _, _, con, handles, _, _⟩ := step_new stepped
  refine ⟨after, offset.trans filled.offset, fun e member => (filled.known e member).trans (by omega), ?_, ?_⟩
  · intro i c at_i
    have inside := (List.getElem?_eq_some_iff.mp at_i).1
    by_cases old : i < p.handles.length
    · obtain ⟨before, kept⟩ := older i old c at_i
      rw [kept]
      exact filled.buffers i c before
    · have last : i = p.handles.length := by omega
      subst last
      have nothing : written_to p.handles.length given = [] := by
        simp only [written_to, List.flatten_eq_nil_iff, List.mem_map, List.mem_filter, decide_eq_true_eq]
        rintro _ ⟨e, ⟨member, same⟩, rfl⟩
        exact absurd same (Nat.ne_of_lt (filled.known e member))
      have created : c = p.world.heap.kinds.length := by simpa [handles] using at_i.symm
      rw [nothing, newest c at_i, created, con, Function.update_self]
      exact ⟨holds_nil (by decide), iff_of_true rfl rfl⟩
  · obtain ⟨⟨w, c, con⟩, executed, result⟩ := Option.bind_eq_some_iff.mp stepped
    cases result
    exact climbs_used (Peaks.connection_new_climbs executed) (inv_tallied filled.inv) filled.used

theorem filled_write {i : Nat} {data : List UInt8} (filled : Filled given p) (nonempty : data ≠ [])
    (stepped : step p (.write i data) = some p') : Filled (given ++ [(i, data)]) p' := by
  obtain ⟨_, after⟩ := grows_issued filled.inv (show Grows (.write i data) from nonempty) stepped
  obtain ⟨c, w, con, found, executed, rfl⟩ := step_write.mp stepped
  have inside := (List.getElem?_eq_some_iff.mp found).1
  obtain ⟨holds, _⟩ := filled.buffers i c found
  obtain ⟨w', con', again, offset, holds', _, attached, _⟩ := con_buf_write_spec filled.offset holds data
  cases executed.symm.trans again
  refine ⟨after, offset, ?_, ?_, climbs_used (Peaks.write_climbs executed) (inv_tallied filled.inv) filled.used⟩
  · intro e member
    rcases List.mem_append.mp member with earlier | last
    · exact filled.known e earlier
    · rw [List.mem_singleton.mp last]
      exact inside
  · intro j k at_j
    rw [written_to_concat]
    by_cases same : i = j
    · subst same
      cases found.symm.trans at_j
      rw [set_con_self, if_pos rfl]
      exact ⟨holds', by simp [attached, nonempty]⟩
    · have distinct : p.handles.Nodup :=
        filled.inv.handed.nodup_iff.mpr (by simpa using Accounting.inv_distinct filled.inv)
      have apart : k ≠ c := by
        rintro rfl
        exact same ((List.getElem?_inj inside distinct).mp (found.trans at_j.symm))
      rw [set_con_other _ _ _ _ apart, if_neg same, List.append_nil]
      exact filled.buffers j k at_j

theorem filled_step (filled : Filled given p) (grows : Grows op) (stepped : step p op = some p') :
    Filled (given ++ written op) p' := by
  cases op with
  | new => simpa [written] using filled_new filled stepped
  | write i data => exact filled_write filled grows stepped
  | _ => exact absurd grows id

theorem filled_run {ops : List PoolOp} (filled : Filled given p) (grows : ∀ op ∈ ops, Grows op)
    (executed : run step p ops = some p') :
    Filled (given ++ ops.flatMap written) p' ∧ Each step Accounting.Issued p ops := by
  induction ops generalizing p given with
  | nil =>
    cases executed
    exact ⟨by simpa using filled, trivial⟩
  | cons op ops ih =>
    obtain ⟨mid, stepped, rest⟩ := run_cons_eq_some executed
    obtain ⟨here, later⟩ := List.forall_mem_cons.mp grows
    obtain ⟨last, issued⟩ := ih (filled_step filled here stepped) later rest
    refine ⟨?_, each_cons (grows_issued filled.inv here stepped).1 stepped issued⟩
    rw [List.flatMap_cons, ← List.append_assoc]
    exact last

theorem start_filled (junk : Nat → Nat → UInt8) : Filled [] (start (context_new (no_blocks junk) mbuf_size)) :=
  ⟨Accounting.start_inv junk (server_capacity junk), rfl, by simp, by simp [start], rfl⟩

end

/-! ## How many mbufs a queue has -/

theorem needed_full {cap k : Nat} (n : Nat) (some : 0 < k) (fits : k ≤ cap) : needed cap (n * cap + k) = n + 1 := by
  have positive : 0 < cap := some.trans_le fits
  have split : n * cap + k + cap - 1 = k + cap - 1 + cap * n := by
    rw [Nat.mul_comm n cap]
    omega
  rw [needed, split, Nat.add_mul_div_left _ _ positive, Nat.div_eq_of_lt_le (k := 1) (by omega) (by omega), Nat.add_comm]

/-- A queue that was never read from has as many mbufs as its bytes need. -/
theorem holds_needed {cap : Nat} {queue : List Mbuf} {bs : List UInt8} (holds : Holds cap 0 queue bs)
    (empty : bs = [] → queue = []) : queue.length = needed cap bs.length := by
  rcases List.eq_nil_or_concat queue with rfl | ⟨front, buf, rfl⟩
  · rw [← holds.bytes]
    exact (Writing.needed_zero holds.inside).symm
  · rw [List.concat_eq_append] at holds empty ⊢
    have unmoved : ∀ b ∈ front ++ [buf], b.pos = 0 := by
      intro b member
      have head := holds.head
      cases whole : front ++ [buf] with
      | nil => simp at whole
      | cons first rest =>
        rw [whole] at member head
        rcases List.mem_cons.mp member with rfl | later
        · exact head
        · exact holds.unread b (by rw [whole]; exact later)
    have full : front.map mbuf_read_size = List.replicate front.length cap := by
      refine List.eq_replicate_iff.mpr ⟨List.length_map _, ?_⟩
      intro size member
      obtain ⟨b, old, rfl⟩ := List.mem_map.mp member
      rw [mbuf_read_size, holds.full b (by simpa using old), unmoved b (by simp [old]), Nat.sub_zero]
    have length := holds_unread holds
    rw [unread, List.map_append, List.map_singleton, List.sum_append, full, List.sum_replicate, List.sum_singleton,
      smul_eq_mul, mbuf_read_size, unmoved buf (by simp), Nat.sub_zero] at length
    have fits : buf.last ≤ cap := by
      have sound := holds.sound buf (by simp)
      exact sound.stop ▸ sound.written
    have some : 0 < buf.last := by
      cases front with
      | nil =>
        have present : bs ≠ [] := fun none => by simpa using empty none
        have positive := List.length_pos_of_ne_nil present
        simpa [← length] using positive
      | cons first rest => exact holds.written buf (by simp)
    rw [← length, needed_full front.length some fits, List.length_append, List.length_singleton]

/-! ## The server -/

/-- The operations of a run of the server, and what they leave in its context. -/
theorem run_filled {junk : Nat → Nat → UInt8} {listenfd : Int} {others : List Int} {events : List Event} {s : TcpServer}
    (executed : run handle (TcpServer_new junk listenfd others) events = some s) :
    ∃ ops, run step (start (context_new (no_blocks junk) mbuf_size)) ops = some s.pool ∧
      Each step Accounting.Issued (start (context_new (no_blocks junk) mbuf_size)) ops ∧ (∀ op ∈ ops, Grows op) ∧
      ops.flatMap written = s.delivered ∧ ops.count .new = s.accepted.length ∧ Filled s.delivered s.pool := by
  obtain ⟨ops, does⟩ := run_does executed
  obtain ⟨filled, issued⟩ := filled_run (start_filled junk) does.grows does.ran
  have delivered : s.delivered = ops.flatMap written := does.delivered
  have accepted : s.accepted.length = 0 + ops.count .new := does.accepted
  rw [List.nil_append, ← delivered] at filled
  exact ⟨ops, does.ran, issued, does.grows, delivered.symm, by omega, filled⟩

/-- Every run of the server creates a connection for each call of `su_accept`, writes the
    chunks its clients are given, and asks its context for nothing else. -/
theorem runs_on_pool (junk : Nat → Nat → UInt8) (listenfd : Int) (others : List Int) (events : List Event)
    (s : TcpServer) (executed : run handle (TcpServer_new junk listenfd others) events = some s) :
    ∃ ops, run step (start (context_new (no_blocks junk) mbuf_size)) ops = some s.pool ∧
      Each step Accounting.Issued (start (context_new (no_blocks junk) mbuf_size)) ops ∧ (∀ op ∈ ops, Grows op) ∧
      ops.flatMap written = s.delivered ∧ ops.count .new = s.accepted.length := by
  obtain ⟨ops, ran, issued, grows, delivered, accepted, _⟩ := run_filled executed
  exact ⟨ops, ran, issued, grows, delivered, accepted⟩

theorem runs_on_pool_two_connections : ∃ s,
    run handle first_server [listening 5, listening 6, bytes_on 6 [[1], [2, 3]]] = some s ∧
      ∃ ops, run step (start (context_new (no_blocks fun _ _ => 0) mbuf_size)) ops = some s.pool ∧
        Each step Accounting.Issued (start (context_new (no_blocks fun _ _ => 0) mbuf_size)) ops ∧
        (∀ op ∈ ops, Grows op) ∧ ops.flatMap written = s.delivered ∧ ops.count .new = s.accepted.length := by
  have executed : run handle first_server [listening 5, listening 6, bytes_on 6 [[1], [2, 3]]] = some _ := rfl
  exact ⟨_, executed, runs_on_pool (fun _ _ => 0) 3 [0, 1, 2, 4] _ _ executed⟩

/-- The mbufs that the bytes given to the clients need. -/
def mbufs_needed (s : TcpServer) : Nat :=
  ((List.range s.accepted.length).map fun i => needed capacity (delivered_to i s).flatten.length).sum

/-- The allocator and the counters agree with the bytes given to the clients. -/
structure Exact (s : TcpServer) : Prop where
  conns : s.pool.world.ctx.mstats.conns = s.accepted.length
  conn_info : s.pool.world.ctx.mstats.conn_info =
    (List.range s.accepted.length).countP fun i => (delivered_to i s).flatten ≠ []
  buffers : s.pool.world.ctx.mstats.buffers = mbufs_needed s
  total_buffers : s.pool.world.ctx.mstats.total_buffers = mbufs_needed s
  allocated : ∃ mbufs, Owns s.pool.world.heap .mbuf mbufs ∧ mbufs.length = mbufs_needed s

theorem run_handles {p p' : Pool} {ops : List PoolOp} (grows : ∀ op ∈ ops, Grows op)
    (executed : run step p ops = some p') : p'.handles.length = p.handles.length + ops.count .new := by
  induction ops generalizing p with
  | nil =>
    cases executed
    rfl
  | cons op ops ih =>
    obtain ⟨mid, stepped, rest⟩ := run_cons_eq_some executed
    obtain ⟨here, later⟩ := List.forall_mem_cons.mp grows
    rw [ih later rest, List.count_cons]
    cases op with
    | new =>
      obtain ⟨_, _, _, _, _, handles, _, _⟩ := step_new stepped
      simp [handles]
      omega
    | write i data =>
      obtain ⟨c, w, con, _, _, rfl⟩ := step_write.mp stepped
      simp
    | _ => exact absurd here id

/-- What the connections in use have, in the order of their handles. -/
theorem in_use_range {p : Pool} {given : List (Nat × List UInt8)} (filled : Filled given p) {α : Type} (f : Nat → α)
    (g : Nat → α) (same : ∀ i c, p.handles[i]? = some c → f c = g i) :
    (p.inUse.map f).Perm ((List.range p.handles.length).map g) := by
  have order : p.inUse.Perm p.handles := by simpa using filled.inv.handed.symm
  refine (order.map f).trans (List.Perm.of_eq (List.ext_getElem (by simp) ?_))
  intro i inside _
  rw [List.length_map] at inside
  rw [List.getElem_map, List.getElem_map, List.getElem_range]
  exact same i _ (List.getElem?_eq_getElem inside)

/-- The bytes the clients were given so far fix how much memory there is, whatever has
    become of their connections. -/
theorem footprint_exact (junk : Nat → Nat → UInt8) (listenfd : Int) (others : List Int) (events : List Event)
    (s : TcpServer) (executed : run handle (TcpServer_new junk listenfd others) events = some s) : Exact s := by
  obtain ⟨ops, ran, _, grows, _, accepted, filled⟩ := run_filled executed
  have handles : s.pool.handles.length = s.accepted.length := by
    rw [run_handles grows ran, accepted]
    exact Nat.zero_add _
  have owned := Accounting.owned_of_inv filled.inv
  have lengths := in_use_range filled (fun c => (queued (s.pool.con c)).length)
    (fun i => needed capacity (delivered_to i s).flatten.length) fun i c at_i => by
      obtain ⟨holds, info⟩ := filled.buffers i c at_i
      exact holds_needed holds fun none => by rw [queued, info.mpr none]; rfl
  have infos := in_use_range filled (fun c => (s.pool.con c).info.isSome)
    (fun i => decide ((delivered_to i s).flatten ≠ [])) fun i c at_i => by
      obtain ⟨_, info⟩ := filled.buffers i c at_i
      rw [Bool.eq_iff_iff, decide_eq_true_eq, Option.isSome_iff_ne_none]
      exact not_congr info
  rw [handles] at lengths infos
  have buffers : s.pool.world.ctx.mstats.buffers = mbufs_needed s := by rw [owned.buffers, lengths.sum_eq, mbufs_needed]
  have total : s.pool.world.ctx.mstats.total_buffers = mbufs_needed s := filled.used.trans buffers
  refine ⟨?_, ?_, buffers, total, _, owned.mbufs, ?_⟩
  · rw [owned.conns, ← handles, filled.inv.handed.length_eq, List.nil_append]
  · have counts := infos.countP_eq id
    rw [List.countP_map, List.countP_map] at counts
    rw [owned.conn_info]
    exact congrArg Nat.cast counts
  · have places := filled.inv.accounts.buffers
    have free := owned.free_buffers
    have sum := owned.total_buffers
    rw [Accounting.places, List.length_append, List.length_map]
    omega

/-- A connection is closed after three bytes; its mbuf stays. -/
theorem footprint_exact_closed : ∃ s,
    run handle first_server [listening 5, bytes_on 5 [[1], [2, 3]], hung_up 5] = some s ∧ Exact s := by
  have executed : run handle first_server [listening 5, bytes_on 5 [[1], [2, 3]], hung_up 5] = some _ := rfl
  exact ⟨_, executed, footprint_exact (fun _ _ => 0) 3 [0, 1, 2, 4] _ _ executed⟩

end TcpLearn.Footprint
