import TcpLearn.Ownership
import TcpLearn.Pools

/-!
# Ownership and accounting over runs

In every state of a run on one context each live mbuf, con_info and connection
stands in exactly one place: in a pool of the context, or with one connection in
use. The counters of `mstats` are the lengths of these places (`Owned`).
-/
namespace TcpLearn.Accounting
open TcpLearn.Memory TcpLearn.MbufOps TcpLearn.ConBuf TcpLearn.Chain TcpLearn.Contexts TcpLearn.Tailq TcpLearn.Frame
open TcpLearn.Ownership TcpLearn.Pools TcpLearn.Runs

/-- The mbufs of a context and of its connections in use. -/
def places (s : Pool) : List Nat :=
  s.world.ctx.free_mbufq.map Mbuf.block ++ s.inUse.flatMap fun c => blocks (s.con c)

structure Owned (s : Pool) : Prop where
  /-- Every live mbuf stands in one place. -/
  mbufs : Owns s.world.heap .mbuf (places s)
  /-- Its field `queue` names the con_info of the connection it is queued on. -/
  named : ∀ c ∈ s.inUse, ∀ info, (s.con c).info = some info → ∀ buf ∈ info.data, buf.queue = some info.block
  /-- No two connections in use are one or share a con_info. -/
  apart : s.inUse.Nodup ∧ (s.inUse.flatMap fun c => infoBlocks (s.con c)).Nodup
  total_buffers : s.world.ctx.mstats.total_buffers = s.world.ctx.mstats.buffers + s.world.ctx.mstats.free_buffers
  buffers : s.world.ctx.mstats.buffers = (s.inUse.map fun c => (queued (s.con c)).length).sum
  free_buffers : s.world.ctx.mstats.free_buffers = s.world.ctx.free_mbufq.length
  bounded : s.world.ctx.mstats.free_buffers ≤ RECYCLE_LENGTH + 1
  conn_info : s.world.ctx.mstats.conn_info = s.inUse.countP fun c => (s.con c).info.isSome
  free_conn_info : s.world.ctx.mstats.free_conn_info = s.world.ctx.free_con_infoq.length
  conns : s.world.ctx.mstats.conns = s.inUse.length
  /-- `ctx->conns` is a list whose length is counted. -/
  free_conns : ∃ pool, Queue s.world.ctx.conns () pool ∧ s.world.ctx.mstats.free_conns = pool.length

/-- All connections are created before the first is given back, the others of the
    operations are on connections in use, reads on those with a con_info. -/
def Issued (s : Pool) : PoolOp → Prop
  | .new => ∀ c ∈ s.handles, c ∈ s.inUse
  | .read i _ => ∃ c, s.handles[i]? = some c ∧ c ∈ s.inUse ∧ (s.con c).info ≠ none
  | .write i _ | .peek i _ | .free i | .recycle i => ∃ c, s.handles[i]? = some c ∧ c ∈ s.inUse

structure Inv (s : Pool) (pool : List Nat) : Prop where
  positive : 0 < s.world.ctx.mbuf_offset
  accounts : Accounts s.world (s.inUse.flatMap fun c => blocks (s.con c))
    (s.inUse.flatMap fun c => infoBlocks (s.con c)) s.inUse pool
  handed : s.handles.Perm (pool ++ s.inUse)
  named : ∀ c ∈ s.inUse, Named (s.con c)

/-! ## One connection among others -/

/-- What the connections hold, that of one of them in front. -/
theorem held_focus (held : Connection → List Nat) (con : Nat → Connection) {xs : List Nat} {c : Nat} (member : c ∈ xs) :
    (xs.flatMap fun k => held (con k)).Perm (held (con c) ++ (xs.erase c).flatMap fun k => held (con k)) :=
  (List.perm_cons_erase member).flatMap_right _

theorem held_update (held : Connection → List Nat) (con : Nat → Connection) (c : Nat) (changed : Connection)
    {xs : List Nat} (outside : c ∉ xs) :
    (xs.flatMap fun k => held (Function.update con c changed k)) = xs.flatMap fun k => held (con k) := by
  apply List.flatMap_congr
  intro k member
  rw [Function.update_of_ne]
  rintro rfl
  exact outside member

/-- A connection just created holds nothing. -/
theorem held_new (held : Connection → List Nat) (con : Nat → Connection) {c : Nat} {created : Connection} {xs : List Nat}
    (outside : c ∉ xs) (nothing : held created = []) :
    ((c :: xs).flatMap fun k => held (Function.update con c created k)) = xs.flatMap fun k => held (con k) := by
  rw [List.flatMap_cons, Function.update_self, nothing, List.nil_append, held_update held con c created outside]

variable {s : Pool} {pool : List Nat}

theorem inv_distinct (inv : Inv s pool) : s.inUse.Nodup := inv.accounts.ownConns.nodup.of_append_right

theorem inv_focus (inv : Inv s pool) {c : Nat} (used : c ∈ s.inUse) :
    Accounts s.world (blocks (s.con c) ++ (s.inUse.erase c).flatMap fun k => blocks (s.con k))
      (infoBlocks (s.con c) ++ (s.inUse.erase c).flatMap fun k => infoBlocks (s.con k)) s.inUse pool :=
  accounts_infos (accounts_mbufs inv.accounts (held_focus blocks s.con used)) (held_focus infoBlocks s.con used)

/-- Only the connection in front has changed. -/
theorem inv_set (inv : Inv s pool) {c : Nat} (used : c ∈ s.inUse) {w : World} {con : Connection}
    (positive : 0 < w.ctx.mbuf_offset) (named : Named con)
    (accounts : Accounts w (blocks con ++ (s.inUse.erase c).flatMap fun k => blocks (s.con k))
      (infoBlocks con ++ (s.inUse.erase c).flatMap fun k => infoBlocks (s.con k)) s.inUse pool) :
    Inv (s.set w c con) pool := by
  have outside : c ∉ s.inUse.erase c := (inv_distinct inv).not_mem_erase
  have refocus : ∀ held : Connection → List Nat,
      (held con ++ (s.inUse.erase c).flatMap fun k => held (s.con k)).Perm
        (s.inUse.flatMap fun k => held ((s.set w c con).con k)) := by
    intro held
    have front := held_focus held (s.set w c con).con used
    rw [set_con_self, Pool.set, held_update held s.con c con outside] at front
    exact front.symm
  refine ⟨positive, accounts_infos (accounts_mbufs accounts (refocus blocks)) (refocus infoBlocks), inv.handed, ?_⟩
  intro k member
  by_cases same : k = c
  · rw [same, set_con_self]
    exact named
  · rw [set_con_other s w c con same]
    exact inv.named k member

/-! ## One step -/

theorem inv_new (inv : Inv s pool) (issued : Issued s .new) : ∃ s', step s .new = some s' ∧ Inv s' [] := by
  have unpooled : pool = [] := by
    apply List.eq_nil_iff_forall_not_mem.mpr
    intro c pooled
    have used := issued c (inv.handed.mem_iff.mpr (by simp [pooled]))
    exact List.disjoint_of_nodup_append inv.accounts.ownConns.nodup pooled used
  subst unpooled
  obtain ⟨w, c, executed, fresh, offset, accounts⟩ := accounts_connection_new inv.accounts
  have outside : c ∉ s.inUse := (List.nodup_cons.mp accounts.ownConns.nodup).1
  refine ⟨_, by simp only [step, executed]; rfl, ?_, ?_, ?_, ?_⟩
  · simpa [offset] using inv.positive
  · have blocksNew := @held_new blocks s.con c ⟨0, none, some s.world.ctx.block⟩ s.inUse outside rfl
    have infosNew := @held_new infoBlocks s.con c ⟨0, none, some s.world.ctx.block⟩ s.inUse outside rfl
    simp only [Pool.set, blocksNew, infosNew]
    exact accounts
  · exact (inv.handed.append_right [c]).trans (List.perm_append_singleton c s.inUse)
  · intro k member
    rcases List.mem_cons.mp member with rfl | earlier
    · simpa using named_none 0 _
    · have other : k ≠ c := fun same => outside (same ▸ earlier)
      simpa [set_con_other _ _ _ _ other] using inv.named k earlier

theorem inv_write (inv : Inv s pool) {i : Nat} {data : List UInt8} (issued : Issued s (.write i data)) :
    ∃ s', step s (.write i data) = some s' ∧ Inv s' pool := by
  obtain ⟨c, found, used⟩ := issued
  obtain ⟨w, con, executed⟩ : ∃ w con, con_buf_write s.world (s.con c) data = some (w, con) := by
    by_cases empty : data = []
    · exact ⟨_, _, empty ▸ con_buf_write_nil _ _⟩
    · obtain ⟨w, con, executed, _⟩ := con_buf_write_written inv.positive (s.con c) empty
      exact ⟨w, con, executed⟩
  refine ⟨_, step_write.mpr ⟨c, w, con, found, executed, rfl⟩, inv_set inv used ?_ ?_ ?_⟩
  · rw [(keeps_write executed).offset]
    exact inv.positive
  · exact named_write inv.positive executed (inv.named c used)
  · exact accounts_write inv.positive executed (inv_focus inv used)

theorem inv_read (inv : Inv s pool) {i len : Nat} (issued : Issued s (.read i len)) :
    ∃ s', step s (.read i len) = some s' ∧ Inv s' pool := by
  obtain ⟨c, found, used, attached⟩ := issued
  obtain ⟨w, con, reply, executed⟩ := con_buf_read_attached s.world attached len
  have set := @inv_set _ _ inv c used w con (by rw [(keeps_read executed).offset]; exact inv.positive)
    (named_read executed (inv.named c used)) (accounts_read executed (inv_focus inv used))
  exact ⟨_, step_read.mpr ⟨c, w, con, reply, found, executed, rfl⟩, set.positive, set.accounts, set.handed, set.named⟩

theorem inv_free (inv : Inv s pool) {i : Nat} (issued : Issued s (.free i)) :
    ∃ s', step s (.free i) = some s' ∧ Inv s' pool := by
  obtain ⟨c, found, used⟩ := issued
  refine ⟨_, step_free.mpr ⟨c, found, rfl⟩, inv_set inv used ?_ ?_ ?_⟩
  · rw [(keeps_free _ _).offset]
    exact inv.positive
  · exact named_free _ (inv.named c used)
  · exact accounts_free (inv_focus inv used)

theorem inv_recycle (inv : Inv s pool) {i : Nat} (issued : Issued s (.recycle i)) :
    ∃ s' c, step s (.recycle i) = some s' ∧ Inv s' (c :: pool) := by
  obtain ⟨c, found, used⟩ := issued
  obtain ⟨w, executed, offset, accounts⟩ :=
    accounts_conn_recyle (accounts_conns (inv_focus inv used) (List.perm_cons_erase used))
  have outside : c ∉ s.inUse.erase c := (inv_distinct inv).not_mem_erase
  refine ⟨_, c, step_recycle.mpr ⟨c, w, _, found, executed, rfl⟩, ?_, ?_, ?_, ?_⟩
  · simpa [offset] using inv.positive
  · simpa [Pool.set, held_update _ s.con c _ outside] using accounts
  · exact inv.handed.trans (((List.perm_cons_erase used).append_left pool).trans List.perm_middle)
  · intro k member
    have other : k ≠ c := fun same => outside (same ▸ member)
    simpa [set_con_other _ _ _ _ other] using inv.named k (List.mem_of_mem_erase member)

/-- Every operation issued as it should be has a result and keeps the accounts. -/
theorem inv_step (inv : Inv s pool) {op : PoolOp} (issued : Issued s op) :
    ∃ s' pool', step s op = some s' ∧ Inv s' pool' := by
  cases op with
  | new =>
    obtain ⟨s', stepped, after⟩ := inv_new inv issued
    exact ⟨s', [], stepped, after⟩
  | write i data =>
    obtain ⟨s', stepped, after⟩ := inv_write inv issued
    exact ⟨s', pool, stepped, after⟩
  | read i len =>
    obtain ⟨s', stepped, after⟩ := inv_read inv issued
    exact ⟨s', pool, stepped, after⟩
  | peek i len =>
    obtain ⟨c, found, used⟩ := issued
    exact ⟨_, pool, step_peek.mpr ⟨c, found, rfl⟩, inv.positive, inv.accounts, inv.handed, inv.named⟩
  | free i =>
    obtain ⟨s', stepped, after⟩ := inv_free inv issued
    exact ⟨s', pool, stepped, after⟩
  | recycle i =>
    obtain ⟨s', c, stepped, after⟩ := inv_recycle inv issued
    exact ⟨s', c :: pool, stepped, after⟩

theorem start_inv (junk : Nat → Nat → UInt8) {bufsize : Int}
    (positive : 1 ≤ (context_new (no_blocks junk) bufsize).ctx.mbuf_offset) :
    Inv (start (context_new (no_blocks junk) bufsize)) [] := by
  have nothing : ∀ kind, kind ≠ .context → Owns (context_new (no_blocks junk) bufsize).heap kind [] := by
    intro kind other
    refine ⟨List.nodup_nil, ?_⟩
    intro n
    cases n with
    | zero => simpa [Live, context_new, cv_malloc, no_blocks] using fun same => absurd same.symm other
    | succ n => simp [Live, context_new, cv_malloc, no_blocks]
  refine ⟨positive, ⟨⟨List.nodup_nil, by simp [start, context_new, cv_malloc, no_blocks]⟩, nothing .mbuf (by decide),
    nothing .con_info (by decide), nothing .connection (by decide), zeroed_queue (), by simp [start], rfl, rfl, rfl, ?_,
    rfl, rfl, rfl, rfl⟩, List.Perm.refl _, by simp [start]⟩
  show (0 : Int) ≤ _
  decide

theorem owned_of_inv (inv : Inv s pool) : Owned s := by
  obtain ⟨positive, accounts, handed, named⟩ := inv
  have infos : (s.inUse.flatMap fun c => infoBlocks (s.con c)).length =
      s.inUse.countP fun c => (s.con c).info.isSome := by
    induction s.inUse with
    | nil => rfl
    | cons c rest ih =>
      rw [List.flatMap_cons, List.length_append, ih, List.countP_cons, infoBlocks]
      cases (s.con c).info <;> simp [Nat.add_comm]
  have mbufs : (s.inUse.flatMap fun c => blocks (s.con c)).length =
      (s.inUse.map fun c => (queued (s.con c)).length).sum := by
    simp [List.length_flatMap, blocks]
  refine ⟨accounts.ownMbufs, named, ⟨accounts.ownConns.nodup.of_append_right, accounts.ownInfos.nodup.of_append_right⟩,
    accounts.total_buffers, by rw [accounts.buffers, mbufs], accounts.free_buffers, accounts.bounded,
    by rw [accounts.conn_info, infos], accounts.free_conn_info, accounts.connections, pool, accounts.listed,
    accounts.free_conns⟩

/-- In every state of a run every live block stands in one place and is counted there. -/
theorem always_owned (junk : Nat → Nat → UInt8) (bufsize : Int)
    (positive : 1 ≤ (context_new (no_blocks junk) bufsize).ctx.mbuf_offset) (ops : List PoolOp)
    (issued : Each step Issued (start (context_new (no_blocks junk) bufsize)) ops) :
    (∃ s, run step (start (context_new (no_blocks junk) bufsize)) ops = some s) ∧
      Always step Owned (start (context_new (no_blocks junk) bufsize)) ops := by
  have progress : ∀ s op, (∃ pool, Inv s pool) → Issued s op → ∃ s', step s op = some s' ∧ ∃ pool, Inv s' pool := by
    rintro s op ⟨pool, inv⟩ good
    obtain ⟨s', pool', stepped, after⟩ := inv_step inv good
    exact ⟨s', stepped, pool', after⟩
  have initial : ∃ pool, Inv (start (context_new (no_blocks junk) bufsize)) pool := ⟨[], start_inv junk positive⟩
  refine ⟨(run_total progress initial issued).imp fun _ both => both.1, ?_⟩
  have kept : Always step (fun s => ∃ pool, Inv s pool) (start (context_new (no_blocks junk) bufsize)) ops := by
    refine always_of_inv ?_ initial issued
    intro s op s' inv good stepped
    obtain ⟨other, same, after⟩ := progress s op inv good
    cases stepped.symm.trans same
    exact after
  exact always_mono (fun s held => held.elim fun _ inv => owned_of_inv inv) kept

/-- Two connections, one of them written over two mbufs, read and given back. -/
theorem always_owned_two_connections :
    (∃ s, run step (start (context_new (no_blocks fun _ _ => 0) 64))
        [.new, .new, .write 0 [0, 1, 2, 3, 4, 5, 6, 7, 8], .read 0 8, .recycle 0, .write 1 [9]] = some s) ∧
      Always step Owned (start (context_new (no_blocks fun _ _ => 0) 64))
        [.new, .new, .write 0 [0, 1, 2, 3, 4, 5, 6, 7, 8], .read 0 8, .recycle 0, .write 1 [9]] := by
  refine always_owned (fun _ _ => 0) 64 (by decide) _ ?_
  refine each_cons (by simp [Issued, start]) rfl <|
    each_cons (show ∀ c ∈ [1], c ∈ [1] from fun _ => id) rfl <| each_cons ⟨1, rfl, by decide⟩ rfl <|
    each_cons ⟨1, rfl, by decide, nofun⟩ rfl <| each_cons ⟨1, rfl, by decide⟩ rfl <|
    each_cons ⟨2, rfl, by decide⟩ rfl trivial

end TcpLearn.Accounting
