import TcpLearn.LinkedMbufs
import TcpLearn.Accounting

/-!
# Connections sharing a context, in their links

The operations of `Pools` on the links. A run that is issued as it should be has a
result on the links when it has one on lists, with the same replies and counters
(`run_shows`), and following the links of a state meets every mbuf that was allocated
and not freed, each once (`walks_own`).
-/
namespace TcpLearn.LinkedPools
open TcpLearn.Memory TcpLearn.Tailq TcpLearn.LinkedMbufs TcpLearn.Runs
open TcpLearn.Pools (PoolOp Pool)

/-! ## The code -/

def context_connection_new (l : Linked) : Option (Linked × Nat × Connection) := do
  let (world, con, c) ← Contexts.context_connection_new l.world
  some ({ l with world := world }, con, c)

def recyle_info (l : Linked) (c : Connection) : Option Linked :=
  if c.info.isSome then do
    let l ← connection_buf_free (l.count fun m => { m with conn_info := m.conn_info - 1 }) c
    let infos := l.world.ctx.free_con_infoq ++ c.info.toList
    let l := { l with world := { l.world with ctx := { l.world.ctx with free_con_infoq := infos } } }
    some (l.count fun m => { m with free_conn_info := m.free_conn_info + 1 })
  else some l

def context_conn_recyle (l : Linked) (con : Nat) (c : Connection) : Option (Linked × Connection) := do
  let l ← recyle_info l c
  let l := l.count fun m => { m with conns := m.conns - 1 }
  let conns ← Contexts.link_free l.world.ctx.conns con
  let l := { l with world := { l.world with ctx := { l.world.ctx with conns := conns } } }
  some (l.count fun m => { m with free_conns := m.free_conns + 1 }, { c with info := none })

structure LinkedPool where
  mbufs : Linked
  con : Nat → Connection
  handles : List Nat
  inUse : List Nat
  replies : List (Nat × ConBuf.Reply)

/-- The memory holds anything when the context is created; the head of its pool is initialised. -/
def start (links : Links Head Nat) (mem : Nat → Mbuf) (w : World) : LinkedPool :=
  ⟨⟨w, TAILQ_INIT links .free_mbufq, mem⟩, fun _ => ⟨0, none, none⟩, [], [], []⟩

def LinkedPool.set (s : LinkedPool) (l : Linked) (c : Nat) (con : Connection) : LinkedPool :=
  { s with mbufs := l, con := Function.update s.con c con }

def step (s : LinkedPool) : PoolOp → Option LinkedPool
  | .new => do
    let (l, c, con) ← context_connection_new s.mbufs
    some { s.set l c con with handles := s.handles ++ [c], inUse := c :: s.inUse }
  | .write i data => do
    let c ← s.handles[i]?
    let (l, con) ← con_buf_write s.mbufs (s.con c) data
    some (s.set l c con)
  | .read i len => do
    let c ← s.handles[i]?
    let (l, con, reply) ← con_buf_read s.mbufs (s.con c) len
    some { s.set l c con with replies := s.replies ++ [(i, reply)] }
  | .peek i len => do
    let c ← s.handles[i]?
    let reply ← con_buf_peek s.mbufs (s.con c) len
    some { s with replies := s.replies ++ [(i, reply)] }
  | .free i => do
    let c ← s.handles[i]?
    let l ← connection_buf_free s.mbufs (s.con c)
    some { s with mbufs := l }
  | .recycle i => do
    let c ← s.handles[i]?
    let (l, con) ← context_conn_recyle s.mbufs c (s.con c)
    some { s.set l c con with inUse := s.inUse.erase c }

/-! ## What a state shows -/

/-- The heads that connections in use and the context rely on. -/
def InUse (s : LinkedPool) (h : Head) : Prop :=
  h = .free_mbufq ∨ ∃ c ∈ s.inUse, ∃ info, (s.con c).info = some info ∧ h = .data info.block

/-- The state on lists that the links stand for. -/
structure Shows (s : LinkedPool) (q : Head → List Nat) (t : Pool) : Prop where
  holds : Holds s.mbufs (InUse s) q
  /-- The list in a con_info is not used. -/
  unused : ∀ c ∈ s.inUse, ∀ info, (s.con c).info = some info → info.data = []
  world : shown s.mbufs q = t.world
  con : ∀ c ∈ s.inUse, shown_con s.mbufs q (s.con c) = t.con c
  handles : s.handles = t.handles
  inUse : s.inUse = t.inUse
  replies : s.replies = t.replies

section
variable {s : LinkedPool} {q : Head → List Nat} {t : Pool} {pool : List Nat}

theorem shown_info {l : Linked} {con : Connection} {info : ConInfo} (given : con.info = some info) :
    (shown_con l q con).info = some { info with data := data l q info.block } := by
  simp [shown_con, given]

/-- Connections in use do not share a con_info. -/
theorem infos_apart {l l' : Linked} {q' : Head → List Nat} {con con' : Connection} {c d : Nat} (inv : Accounting.Inv t pool)
    (used : c ∈ t.inUse) (usedD : d ∈ t.inUse) (differ : d ≠ c) (here : t.con c = shown_con l q con)
    (there : t.con d = shown_con l' q' con') {info other : ConInfo} (given : con.info = some info)
    (givenD : con'.info = some other) : other.block ≠ info.block := by
  intro same
  have distinct := inv.accounts.ownInfos.nodup.of_append_right
  have split := distinct.perm (Accounting.held_focus Ownership.infoBlocks t.con used)
  refine (List.nodup_append.mp split).2.2 info.block ?_ other.block ?_ same.symm
  · simp [Ownership.infoBlocks, here, shown_con, given]
  · refine List.mem_flatMap.mpr ⟨d, (List.mem_erase_of_ne differ).mpr usedD, ?_⟩
    simp [Ownership.infoBlocks, there, shown_con, givenD]

theorem live_data {c : Nat} (used : c ∈ s.inUse) :
    ∀ info, (s.con c).info = some info → InUse s (.data info.block) :=
  fun info given => .inr ⟨c, used, info, given, rfl⟩

theorem attach_unused {l : Linked} {con : Connection} (unused : ∀ info, con.info = some info → info.data = []) :
    (attach_info l con).1.data = [] := by
  cases given : con.info with
  | some info => simpa [attach_info, given] using unused info given
  | none => cases pooled : l.world.ctx.free_con_infoq <;> simp [attach_info, given, con_info_new, ConBuf.con_info_new, pooled]

/-- One connection changes, the others show what they did. -/
theorem shows_set (shows : Shows s q t) {c : Nat} {l' : Linked} {q' : Head → List Nat} {con' : Connection}
    (holds : Holds l' (InUse (s.set l' c con')) q') (unused : ∀ info, con'.info = some info → info.data = [])
    (others : ∀ d ∈ s.inUse, d ≠ c → ∀ info, (s.con d).info = some info → data l' q' info.block = data s.mbufs q info.block) :
    Shows (s.set l' c con') q' (t.set (shown l' q') c (shown_con l' q' con')) := by
  refine ⟨holds, ?_, rfl, ?_, shows.handles, shows.inUse, shows.replies⟩
  · intro d usedD info given
    by_cases same : d = c
    · subst same
      exact unused info (by simpa [LinkedPool.set] using given)
    · exact shows.unused d usedD info (by simpa [LinkedPool.set, same] using given)
  · intro d usedD
    by_cases same : d = c
    · subst same
      simp [LinkedPool.set, Pool.set]
    · simp only [LinkedPool.set, Pool.set, Function.update_of_ne same]
      rw [← shows.con d usedD]
      cases given : (s.con d).info with
      | none => simp [shown_con, given]
      | some info => simp [shown_con, given, others d usedD same info given]

theorem shows_reply (shows : Shows s q t) (reply : Nat × ConBuf.Reply) :
    Shows { s with replies := s.replies ++ [reply] } q { t with replies := t.replies ++ [reply] } :=
  ⟨shows.holds, shows.unused, shows.world, shows.con, shows.handles, shows.inUse, by simp [shows.replies]⟩

theorem write_shows (shows : Shows s q t) (inv : Accounting.Inv t pool) {i : Nat} {bytes : List UInt8}
    (issued : Accounting.Issued t (.write i bytes)) : ∃ s' q' t', step s (.write i bytes) = some s' ∧
      Pools.step t (.write i bytes) = some t' ∧ Accounting.Inv t' pool ∧ Shows s' q' t' := by
  obtain ⟨t', stepped, inv'⟩ := Accounting.inv_write inv issued
  obtain ⟨c, found, used⟩ := issued
  obtain ⟨_, w', conT, same, executed, rfl⟩ := Pools.step_write.mp stepped
  cases found.symm.trans same
  have usedS : c ∈ s.inUse := by rwa [shows.inUse]
  rw [← shows.world, ← shows.con c usedS] at executed
  obtain ⟨l', c', q', ran, attached, holds, rfl, rfl, kept⟩ :=
    con_buf_write_linked shows.holds (live_data usedS) executed
  refine ⟨s.set l' c c', q', _, ?_, stepped, inv', shows_set shows ?_ ?_ ?_⟩
  · simp only [step, shows.handles, found, Option.bind_eq_bind, Option.bind_some, ran]
  · refine holds_fewer ?_ (.inl rfl) holds
    rintro h (rfl | ⟨d, usedD, info, given, rfl⟩)
    · exact .inl (.inl rfl)
    · by_cases at' : d = c
      · subst at'
        exact .inr ⟨info, by simpa [LinkedPool.set] using given, rfl⟩
      · exact .inl (.inr ⟨d, usedD, info, by simpa [LinkedPool.set, at'] using given, rfl⟩)
  · intro info given
    rcases attached with kept | new
    · exact shows.unused c usedS info (kept ▸ given)
    · cases new.symm.trans given
      exact attach_unused (shows.unused c usedS)
  · intro d usedD differ other given
    refine kept.data ⟨live_data usedD other given, ?_⟩
    intro info givenC block
    have there : (t.set (shown l' q') c (shown_con l' q' c')).con d = shown_con s.mbufs q (s.con d) := by
      rw [Pools.set_con_other _ _ _ _ differ, ← shows.con d usedD]
    exact infos_apart inv' used (shows.inUse ▸ usedD) differ (Pools.set_con_self _ _ _ _) there givenC given
      (Head.data.inj block)

/-- Other connections keep what they show while the queue of one changes. -/
theorem others_kept (shows : Shows s q t) (inv : Accounting.Inv t pool) {c : Nat} (used : c ∈ s.inUse) {l' : Linked}
    {q' : Head → List Nat} (kept : Same (Apart (InUse s) (s.con c)) s.mbufs q l' q') :
    ∀ d ∈ s.inUse, d ≠ c → ∀ info, (s.con d).info = some info → data l' q' info.block = data s.mbufs q info.block := by
  intro d usedD differ other given
  refine kept.data ⟨live_data usedD other given, ?_⟩
  intro info givenC block
  exact infos_apart inv (shows.inUse ▸ used) (shows.inUse ▸ usedD) differ (shows.con c used).symm (shows.con d usedD).symm
    givenC given (Head.data.inj block)

/-- The heads in use are the same while no connection changes its con_info. -/
theorem holds_same {c : Nat} {l' : Linked} {q' : Head → List Nat} {con' : Connection} (holds : Holds l' (InUse s) q')
    (same : con'.info = (s.con c).info) : Holds l' (InUse (s.set l' c con')) q' := by
  refine holds_fewer ?_ (.inl rfl) holds
  rintro h (rfl | ⟨d, usedD, info, given, rfl⟩)
  · exact .inl rfl
  · by_cases at' : d = c
    · subst at'
      exact .inr ⟨d, usedD, info, by simpa [LinkedPool.set, same] using given, rfl⟩
    · exact .inr ⟨d, usedD, info, by simpa [LinkedPool.set, at'] using given, rfl⟩

theorem read_shows (shows : Shows s q t) (inv : Accounting.Inv t pool) {i len : Nat}
    (issued : Accounting.Issued t (.read i len)) : ∃ s' q' t', step s (.read i len) = some s' ∧
      Pools.step t (.read i len) = some t' ∧ Accounting.Inv t' pool ∧ Shows s' q' t' := by
  obtain ⟨t', stepped, inv'⟩ := Accounting.inv_read inv issued
  obtain ⟨c, found, used, _⟩ := issued
  obtain ⟨_, w', conT, reply, same, executed, rfl⟩ := Pools.step_read.mp stepped
  cases found.symm.trans same
  rw [← shows.inUse] at used
  rw [← shows.world, ← shows.con c used] at executed
  obtain ⟨l', c', q', ran, attached, holds, rfl, rfl, kept⟩ :=
    con_buf_read_linked shows.holds (live_data used) executed
  refine ⟨_, q', _, ?_, stepped, inv', shows_reply (shows_set shows (c := c) (holds_same holds attached) ?_
    (others_kept shows inv used kept)) (i, reply)⟩
  · simp only [step, shows.handles, found, Option.bind_eq_bind, Option.bind_some, ran]
    rfl
  · rw [attached]
    exact shows.unused c used

theorem peek_shows (shows : Shows s q t) {i len : Nat} (issued : Accounting.Issued t (.peek i len)) :
    ∃ s' t', step s (.peek i len) = some s' ∧ Pools.step t (.peek i len) = some t' ∧ Shows s' q t' := by
  obtain ⟨c, found, used⟩ := issued
  rw [← shows.inUse] at used
  have peeked := con_buf_peek_linked shows.holds (live_data used) len
  rw [shows.con c used] at peeked
  refine ⟨_, _, ?_, Pools.step_peek.mpr ⟨c, found, rfl⟩, shows_reply shows (i, ConBuf.con_buf_peek (t.con c) len)⟩
  simp only [step, shows.handles, found, Option.bind_eq_bind, Option.bind_some, peeked]

theorem free_shows (shows : Shows s q t) (inv : Accounting.Inv t pool) {i : Nat} (issued : Accounting.Issued t (.free i)) :
    ∃ s' q' t', step s (.free i) = some s' ∧ Pools.step t (.free i) = some t' ∧ Accounting.Inv t' pool ∧
      Shows s' q' t' := by
  obtain ⟨t', stepped, inv'⟩ := Accounting.inv_free inv issued
  obtain ⟨c, found, used⟩ := issued
  obtain ⟨_, same, rfl⟩ := Pools.step_free.mp stepped
  cases found.symm.trans same
  rw [← shows.inUse] at used
  obtain ⟨l', q', ran, holds, listed, kept⟩ := connection_buf_free_linked shows.holds (live_data used)
  rw [shows.world, shows.con c used] at listed
  have unchanged : ({ s with mbufs := l' } : LinkedPool) = s.set l' c (s.con c) := by
    simp [LinkedPool.set]
  refine ⟨s.set l' c (s.con c), q', _, ?_, stepped, inv', ?_⟩
  · rw [← shows.handles] at found
    simp only [step, found, Option.bind_eq_bind, Option.bind_some, ran, unchanged]
  · rw [← listed]
    exact shows_set shows (holds_same holds rfl) (shows.unused c used) (others_kept shows inv used kept)

/-- The context after a new connection was allocated. -/
def created (w : World) : World :=
  ({ w with
      heap := (cv_malloc .connection w.heap).2
      ctx := { w.ctx with conns := TAILQ_RESET w.ctx.conns w.heap.kinds.length } } : World).count
    fun m => { m with conns := m.conns + 1 }

theorem new_shows (shows : Shows s q t) (inv : Accounting.Inv t pool) (issued : Accounting.Issued t .new) :
    ∃ s' t', step s .new = some s' ∧ Pools.step t .new = some t' ∧ Accounting.Inv t' [] ∧ Shows s' q t' := by
  obtain ⟨t', stepped, inv'⟩ := Accounting.inv_new inv issued
  obtain ⟨empty, _⟩ := Pools.step_new stepped
  have emptyS : TAILQ_FIRST s.mbufs.world.ctx.conns () = none := by
    rw [← shows.world] at empty
    exact empty
  have address : t.world.heap.kinds.length = s.mbufs.world.heap.kinds.length := by
    rw [← shows.world]
    rfl
  have block : t.world.ctx.block = s.mbufs.world.ctx.block := by
    rw [← shows.world]
    rfl
  have fresh : ∀ d ∈ s.inUse, d ≠ s.mbufs.world.heap.kinds.length := by
    intro d used same
    have taken := (inv.accounts.ownConns.live d).mp (List.mem_append.mpr (.inr (shows.inUse ▸ used)))
    have inside := (List.getElem?_eq_some_iff.mp taken.1).1
    rw [address, same] at inside
    exact Nat.lt_irrefl _ inside
  obtain ⟨n, nIs⟩ : ∃ n, n = s.mbufs.world.heap.kinds.length := ⟨_, rfl⟩
  have ran : step s .new = some { s.set { s.mbufs with world := created s.mbufs.world } n
      ⟨0, none, some s.mbufs.world.ctx.block⟩ with handles := s.handles ++ [n], inUse := n :: s.inUse } := by
    simp only [step, context_connection_new, Contexts.connection_new_fresh emptyS, nIs]
    rfl
  have ranT : Pools.step t .new = some { t.set (created t.world) n ⟨0, none, some t.world.ctx.block⟩ with
      handles := t.handles ++ [n], inUse := n :: t.inUse } := by
    simp only [Pools.step, Contexts.connection_new_fresh empty, nIs, ← address]
    rfl
  cases stepped.symm.trans ranT
  have unlike : ∀ d ∈ s.inUse, d ≠ n := fun d used => nIs ▸ fresh d used
  have before : ∀ h, InUse { s.set { s.mbufs with world := created s.mbufs.world } n
      ⟨0, none, some s.mbufs.world.ctx.block⟩ with handles := s.handles ++ [n], inUse := n :: s.inUse } h → InUse s h := by
    rintro h (rfl | ⟨d, usedD, info, given, rfl⟩)
    · exact .inl rfl
    · rcases List.mem_cons.mp usedD with rfl | earlier
      · simp [LinkedPool.set] at given
      · exact .inr ⟨d, earlier, info, by simpa [LinkedPool.set, unlike d earlier] using given, rfl⟩
  refine ⟨_, _, ran, ranT, inv', ⟨⟨queues_fewer before shows.holds.queues, .inl rfl, ?_, ?_⟩, ?_, ?_, ?_, ?_, ?_, shows.replies⟩⟩
  · exact fun h old => shows.holds.named h (before h old)
  · intro h old k member
    have taken := shows.holds.taken h (before h old) k member
    simp only [LinkedPool.set, created, cv_malloc, World.count, List.length_append]
    exact Nat.lt_add_right _ taken
  · intro d usedD info given
    rcases List.mem_cons.mp usedD with rfl | earlier
    · simp [LinkedPool.set] at given
    · exact shows.unused d earlier info (by simpa [LinkedPool.set, unlike d earlier] using given)
  · simp only [LinkedPool.set, Pools.set_world, ← shows.world]
    rfl
  · intro d usedD
    rcases List.mem_cons.mp usedD with rfl | earlier
    · simp [LinkedPool.set, Pool.set, shown_con, block]
    · simp only [LinkedPool.set, Pool.set, Function.update_of_ne (unlike d earlier)]
      exact shows.con d earlier
  · simp [shows.handles]
  · simp [shows.inUse]

theorem recyle_info_shown {l : Linked} {live : Head → Prop} {con : Connection} (holds : Holds l live q)
    (known : ∀ info, con.info = some info → live (.data info.block)) (unused : ∀ info, con.info = some info → info.data = []) :
    ∃ l' q', recyle_info l con = some l' ∧ Holds l' live q' ∧
      shown l' q' = (Contexts.recyle_info (shown l q) (shown_con l q con)).1 ∧ Same (Apart live con) l q l' q' := by
  cases given : con.info with
  | none =>
    refine ⟨l, q, by simp [recyle_info, given], holds, ?_, ⟨fun _ _ => rfl, fun _ _ _ _ => rfl⟩⟩
    simp [Contexts.recyle_info, shown_con, given]
  | some info =>
    obtain ⟨l', q', ran, holds', listed, same⟩ := connection_buf_free_linked
      (holds_count holds fun m => { m with conn_info := m.conn_info - 1 }) known
    have freed : (shown_con (l.count fun m => { m with conn_info := m.conn_info - 1 }) q con) = shown_con l q con := rfl
    rw [freed, shown_count] at listed
    refine ⟨_, q', by simp only [recyle_info, given, Option.isSome_some, if_true, ran]; rfl, ?_, ?_, ?_⟩
    · exact ⟨holds'.queues, holds'.pool, holds'.named, holds'.taken⟩
    · have attached : (shown_con l q con).info.isSome = true := by simp [shown_con, given]
      have back : (shown_con l' q' con).info.toList = [info] := by
        have empty : data l' q' info.block = [] := by
          have list := congrArg (fun r => r.2.info) listed
          simp only [ConBuf.connection_buf_free, shown_con, given, Option.map_some, Option.some.injEq] at list
          exact congrArg ConInfo.data list
        have same : { info with data := [] } = info := by rw [← unused info given]
        simp [shown_con, given, empty, same]
      rw [Contexts.recyle_info, if_pos attached]
      dsimp only
      rw [← listed]
      simp only [back]
      rfl
    · exact ⟨same.queue, same.mem⟩

theorem conn_recyle_shown {l : Linked} {live : Head → Prop} {con con' : Connection} {k : Nat} {w' : World}
    (holds : Holds l live q) (known : ∀ info, con.info = some info → live (.data info.block))
    (unused : ∀ info, con.info = some info → info.data = [])
    (executed : Contexts.context_conn_recyle (shown l q) k (shown_con l q con) = some (w', con')) :
    ∃ l' q', context_conn_recyle l k con = some (l', { con with info := none }) ∧ Holds l' live q' ∧ shown l' q' = w' ∧
      con' = { con with info := none } ∧ Same (Apart live con) l q l' q' := by
  obtain ⟨l₁, q₁, ran, holds₁, shown₁, same⟩ := recyle_info_shown holds known unused
  obtain ⟨size, ctx⟩ := Frame.recyle_info_con (shown l q) (shown_con l q con)
  rcases listed : Contexts.recyle_info (shown l q) (shown_con l q con) with ⟨w, c⟩
  rw [listed] at shown₁ size ctx
  subst shown₁
  simp only [Contexts.context_conn_recyle, listed] at executed
  obtain ⟨conns, linked, result⟩ := Option.bind_eq_some_iff.mp executed
  simp only [Option.some.injEq, Prod.mk.injEq] at result
  obtain ⟨rfl, rfl⟩ := result
  have linkedL : Contexts.link_free (l₁.count fun m => { m with conns := m.conns - 1 }).world.ctx.conns k = some conns :=
    linked
  refine ⟨_, q₁, by simp only [context_conn_recyle, ran, Option.bind_eq_bind, Option.bind_some, linkedL]; rfl, ?_, rfl, ?_, ?_⟩
  · exact ⟨holds₁.queues, holds₁.pool, holds₁.named, holds₁.taken⟩
  · cases c
    cases size
    cases ctx
    rfl
  · exact ⟨same.queue, same.mem⟩

theorem recycle_shows (shows : Shows s q t) (inv : Accounting.Inv t pool) {i : Nat}
    (issued : Accounting.Issued t (.recycle i)) : ∃ s' q' t' c, step s (.recycle i) = some s' ∧
      Pools.step t (.recycle i) = some t' ∧ Accounting.Inv t' (c :: pool) ∧ Shows s' q' t' := by
  obtain ⟨t', k, stepped, inv'⟩ := Accounting.inv_recycle inv issued
  obtain ⟨c, found, used⟩ := issued
  obtain ⟨_, w', conT, same, executed, rfl⟩ := Pools.step_recycle.mp stepped
  cases found.symm.trans same
  rw [← shows.inUse] at used
  have distinct : s.inUse.Nodup := shows.inUse ▸ Accounting.inv_distinct inv
  rw [← shows.world, ← shows.con c used] at executed
  obtain ⟨l', q', ran, holds, rfl, rfl, kept⟩ :=
    conn_recyle_shown shows.holds (live_data used) (shows.unused c used) executed
  have others := others_kept shows inv used kept
  have earlier : ∀ d ∈ s.inUse.erase c, d ∈ s.inUse ∧ d ≠ c := fun d member =>
    ⟨List.mem_of_mem_erase member, fun same => distinct.not_mem_erase (same ▸ member)⟩
  refine ⟨{ s.set l' c { s.con c with info := none } with inUse := s.inUse.erase c }, q', _, k, ?_, stepped, inv',
    ⟨holds_fewer ?_ (.inl rfl) holds, ?_, rfl, ?_, shows.handles, ?_, shows.replies⟩⟩
  · simp only [step, shows.handles, found, Option.bind_eq_bind, Option.bind_some, ran]
  · rintro h (rfl | ⟨d, usedD, info, given, rfl⟩)
    · exact .inl rfl
    · obtain ⟨before, differ⟩ := earlier d usedD
      exact .inr ⟨d, before, info, by simpa [LinkedPool.set, differ] using given, rfl⟩
  · intro d usedD info given
    obtain ⟨before, differ⟩ := earlier d usedD
    exact shows.unused d before info (by simpa [LinkedPool.set, differ] using given)
  · intro d usedD
    obtain ⟨before, differ⟩ := earlier d usedD
    simp only [LinkedPool.set, Pool.set, Function.update_of_ne differ]
    rw [← shows.con d before]
    cases given : (s.con d).info with
    | none => simp [shown_con, given]
    | some info => simp [shown_con, given, others d before differ info given]
  · simp [shows.inUse]

/-! ## Runs -/

theorem step_shows (shows : Shows s q t) (inv : Accounting.Inv t pool) {op : PoolOp} (issued : Accounting.Issued t op) :
    ∃ s' q' t' pool', step s op = some s' ∧ Pools.step t op = some t' ∧ Accounting.Inv t' pool' ∧ Shows s' q' t' := by
  cases op with
  | new =>
    obtain ⟨s', t', ran, ranT, inv', shows'⟩ := new_shows shows inv issued
    exact ⟨s', q, t', [], ran, ranT, inv', shows'⟩
  | write i bytes =>
    obtain ⟨s', q', t', ran, ranT, inv', shows'⟩ := write_shows shows inv issued
    exact ⟨s', q', t', pool, ran, ranT, inv', shows'⟩
  | read i len =>
    obtain ⟨s', q', t', ran, ranT, inv', shows'⟩ := read_shows shows inv issued
    exact ⟨s', q', t', pool, ran, ranT, inv', shows'⟩
  | peek i len =>
    obtain ⟨s', t', ran, ranT, shows'⟩ := peek_shows shows issued
    obtain ⟨t'', pool', again, inv'⟩ := Accounting.inv_step inv issued
    cases ranT.symm.trans again
    exact ⟨s', q, t', pool', ran, ranT, inv', shows'⟩
  | free i =>
    obtain ⟨s', q', t', ran, ranT, inv', shows'⟩ := free_shows shows inv issued
    exact ⟨s', q', t', pool, ran, ranT, inv', shows'⟩
  | recycle i =>
    obtain ⟨s', q', t', c, ran, ranT, inv', shows'⟩ := recycle_shows shows inv issued
    exact ⟨s', q', t', c :: pool, ran, ranT, inv', shows'⟩

theorem start_shows (links : Links Head Nat) (mem : Nat → Mbuf) {w : World} (none : w.ctx.free_mbufq = []) :
    Shows (start links mem w) (fun _ => []) (Pools.start w) := by
  have nothing : Queues links (fun _ => False) (fun _ : Head => ([] : List Nat)) :=
    ⟨fun _ => False.elim, fun _ _ => False.elim, fun _ => False.elim⟩
  have empty : Function.update (fun _ : Head => ([] : List Nat)) .free_mbufq [] = fun _ => [] := by simp
  have queues := init_queues nothing .free_mbufq
  rw [empty] at queues
  refine ⟨⟨queues_fewer ?_ queues, .inl rfl, nofun, nofun⟩, nofun, ?_, nofun, rfl, rfl, rfl⟩
  · rintro h (rfl | ⟨c, used, _⟩)
    · exact .inl rfl
    · cases used
  · obtain ⟨heap, ctx⟩ := w
    cases ctx
    cases none
    rfl

/-- A state on lists that the links of the state stand for, and that keeps the accounts. -/
def Stands (s : LinkedPool) (t : Pool) : Prop := ∃ q pool, Shows s q t ∧ Accounting.Inv t pool

theorem start_stands (links : Links Head Nat) (mem : Nat → Mbuf) (junk : Nat → Nat → UInt8) {bufsize : Int}
    (positive : 1 ≤ (Contexts.context_new (no_blocks junk) bufsize).ctx.mbuf_offset) :
    Stands (start links mem (Contexts.context_new (no_blocks junk) bufsize))
      (Pools.start (Contexts.context_new (no_blocks junk) bufsize)) :=
  ⟨_, [], start_shows links mem rfl, Accounting.start_inv junk positive⟩

theorem step_stands (s : LinkedPool) (t : Pool) (op : PoolOp) (stands : Stands s t) (issued : Accounting.Issued t op) :
    ∃ s' t', step s op = some s' ∧ Pools.step t op = some t' ∧ Stands s' t' := by
  obtain ⟨q, pool, shows, inv⟩ := stands
  obtain ⟨s', q', t', pool', ran, ranT, inv', shows'⟩ := step_shows shows inv issued
  exact ⟨s', t', ran, ranT, q', pool', shows', inv'⟩

/-- The code on links and the code on lists, given the same operations: whatever the
    memory holds at the start, both have a result, and the links stand for the lists. -/
theorem run_shows (links : Links Head Nat) (mem : Nat → Mbuf) (junk : Nat → Nat → UInt8) (bufsize : Int)
    (positive : 1 ≤ (Contexts.context_new (no_blocks junk) bufsize).ctx.mbuf_offset) (ops : List PoolOp)
    (issued : Each Pools.step Accounting.Issued (Pools.start (Contexts.context_new (no_blocks junk) bufsize)) ops) :
    ∃ s q t, run step (start links mem (Contexts.context_new (no_blocks junk) bufsize)) ops = some s ∧
      run Pools.step (Pools.start (Contexts.context_new (no_blocks junk) bufsize)) ops = some t ∧ Shows s q t := by
  obtain ⟨s, t, ran, ranT, q, pool, shows, _⟩ :=
    run_simulates step_stands (start_stands links mem junk positive) issued
  exact ⟨s, q, t, ran, ranT, shows⟩

/-- Two connections are written, read, peeked at, emptied and given back. -/
def served : List PoolOp :=
  [.new, .new, .write 0 [0, 1, 2, 3, 4, 5, 6, 7, 8], .write 1 [9], .read 0 8, .peek 1 1, .free 1, .recycle 0]

theorem served_issued : Each Pools.step Accounting.Issued (Pools.start (Contexts.context_new (no_blocks fun _ _ => 0) 64))
    served := by
  refine each_cons (by simp [Accounting.Issued, Pools.start]) rfl <|
    each_cons (show ∀ c ∈ [1], c ∈ [1] from fun _ => id) rfl <| each_cons ⟨1, rfl, by decide⟩ rfl <|
    each_cons ⟨2, rfl, by decide⟩ rfl <| each_cons ⟨1, rfl, by decide, nofun⟩ rfl <| each_cons ⟨2, rfl, by decide⟩ rfl <|
    each_cons ⟨2, rfl, by decide⟩ rfl <| each_cons ⟨1, rfl, by decide⟩ rfl trivial

/-- Links and mbufs as a memory full of zeros holds them. -/
theorem run_shows_served : ∃ s q t,
    run step (start zeroed (fun _ => ⟨0, 0, 0, 0, 0, none, fun _ => 0⟩) (Contexts.context_new (no_blocks fun _ _ => 0) 64))
        served = some s ∧
      run Pools.step (Pools.start (Contexts.context_new (no_blocks fun _ _ => 0) 64)) served = some t ∧ Shows s q t :=
  run_shows zeroed (fun _ => ⟨0, 0, 0, 0, 0, none, fun _ => 0⟩) (fun _ _ => 0) 64 (by decide) served served_issued

/-! ## Following the links -/

/-- The mbufs that `TAILQ_FOREACH` meets. -/
def walk (s : LinkedPool) (h : Head) : List Nat := TAILQ_FOREACH s.mbufs.links h (steps s.mbufs)

/-- The mbufs met from the pool and from each connection in use. -/
def walks (s : LinkedPool) : List Nat :=
  walk s .free_mbufq ++ s.inUse.flatMap fun c => (s.con c).info.toList.flatMap fun info => walk s (.data info.block)

theorem walk_shows (shows : Shows s q t) {h : Head} (live : InUse s h) : walk s h = q h :=
  foreach_queues shows.holds.queues live (steps_enough shows.holds live)

theorem blocks_shows (shows : Shows s q t) {h : Head} (live : InUse s h) :
    ((q h).map s.mbufs.mem).map Mbuf.block = q h := by
  rw [List.map_map]
  exact (List.map_congr_left fun n member => shows.holds.named h live n member).trans (List.map_id _)

/-- The walks are the places of the accounts. -/
theorem walks_shows (shows : Shows s q t) :
    walks s = t.world.ctx.free_mbufq.map Mbuf.block ++ t.inUse.flatMap fun c => Ownership.blocks (t.con c) := by
  have pooled : t.world.ctx.free_mbufq.map Mbuf.block = walk s .free_mbufq := by
    rw [← shows.world, walk_shows shows (.inl rfl)]
    exact blocks_shows shows (.inl rfl)
  rw [walks, pooled, ← shows.inUse]
  congr 1
  refine List.flatMap_congr fun c used => ?_
  rw [← shows.con c used]
  cases given : (s.con c).info with
  | none => simp [Ownership.blocks, queued, shown_con, given]
  | some info =>
    have live := live_data used info given
    simpa [Ownership.blocks, queued, shown_con, given, data, walk_shows shows live] using (blocks_shows shows live).symm

/-- Every mbuf allocated and not freed is met once, whichever way the links are followed. -/
theorem walks_own (links : Links Head Nat) (mem : Nat → Mbuf) (junk : Nat → Nat → UInt8) (bufsize : Int)
    (positive : 1 ≤ (Contexts.context_new (no_blocks junk) bufsize).ctx.mbuf_offset) (ops : List PoolOp)
    (issued : Each Pools.step Accounting.Issued (Pools.start (Contexts.context_new (no_blocks junk) bufsize)) ops) :
    ∃ s, run step (start links mem (Contexts.context_new (no_blocks junk) bufsize)) ops = some s ∧
      Owns s.mbufs.world.heap .mbuf (walks s) ∧ s.mbufs.world.ctx.mstats.total_buffers = (walks s).length := by
  obtain ⟨s, t, ran, ranT, q, pool, shows, inv⟩ :=
    run_simulates step_stands (start_stands links mem junk positive) issued
  have walked := walks_shows shows
  have heap : s.mbufs.world.heap = t.world.heap := by
    rw [← shows.world]
    rfl
  have counted : s.mbufs.world.ctx.mstats = t.world.ctx.mstats := by
    rw [← shows.world]
    rfl
  refine ⟨s, ran, ?_, ?_⟩
  · rw [heap, walked]
    exact inv.accounts.ownMbufs
  · rw [counted, walked, inv.accounts.total_buffers, inv.accounts.buffers, inv.accounts.free_buffers, List.length_append,
      List.length_map]
    push_cast
    exact add_comm _ _

theorem walks_own_served : ∃ s,
    run step (start zeroed (fun _ => ⟨0, 0, 0, 0, 0, none, fun _ => 0⟩) (Contexts.context_new (no_blocks fun _ _ => 0) 64))
        served = some s ∧
      Owns s.mbufs.world.heap .mbuf (walks s) ∧ s.mbufs.world.ctx.mstats.total_buffers = (walks s).length :=
  walks_own zeroed (fun _ => ⟨0, 0, 0, 0, 0, none, fun _ => 0⟩) (fun _ _ => 0) 64 (by decide) served served_issued

end

end TcpLearn.LinkedPools
