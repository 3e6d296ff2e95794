import TcpLearn.LinkedPools
import TcpLearn.SinglyTailQueues

/-!
# A context in its links

The last list of a context, that of the con_infos given back, as the singly linked tail
queue that the code keeps, and the functions that use it: `con_info_new` takes its first
element, `context_conn_recyle` puts one at its end, `context_free_content` frees all of
them after the mbufs. Nothing in a state is a list of the code now; the lists in the
context that `mbufs` holds are not used.

A run that is issued as it should be has a result, which the run on lists shows
(`run_chained`), and the teardown after it frees what the one on lists frees
(`teardown_chained`).
-/
namespace TcpLearn.LinkedContexts
open TcpLearn.Memory TcpLearn.Tailq TcpLearn.LinkedMbufs TcpLearn.LinkedPools TcpLearn.Runs TcpLearn.Stailq
open TcpLearn.Pools (PoolOp Pool)

structure Chained where
  mbufs : Linked
  free_con_infoq : Stailq.Links Nat

/-! ## The code -/

def Chained.count (l : Chained) (f : MemoryStats → MemoryStats) : Chained := { l with mbufs := l.mbufs.count f }

/-- What `con_info_new` does with a con_info from either source. -/
def init_info (info : Nat) (l : Chained) : ConInfo × Chained :=
  (⟨info, [], l.mbufs.world.ctx.block⟩,
    ({ l with mbufs := { l.mbufs with links := TAILQ_INIT l.mbufs.links (.data info) } } : Chained).count
      fun m => { m with conn_info := m.conn_info + 1 })

def con_info_new (l : Chained) : Option (ConInfo × Chained) :=
  if !STAILQ_EMPTY l.free_con_infoq then do
    let info ← STAILQ_FIRST l.free_con_infoq
    let free_con_infoq ← STAILQ_REMOVE_HEAD l.free_con_infoq
    let l := { l with free_con_infoq := free_con_infoq }
    some (init_info info (l.count fun m => { m with free_conn_info := m.free_conn_info - 1 }))
  else
    let world := { l.mbufs.world with heap := (cv_malloc .con_info l.mbufs.world.heap).2 }
    some (init_info (cv_malloc .con_info l.mbufs.world.heap).1 { l with mbufs := { l.mbufs with world := world } })

def attach_info (l : Chained) (con : Connection) : Option (ConInfo × Chained) :=
  match con.info with
  | none => con_info_new l
  | some info => some (info, l)

/-- Once `con->info` is set the function does not look at the con_infos given back. -/
def con_buf_write (l : Chained) (con : Connection) (data : List UInt8) : Option (Chained × Connection) :=
  if data.length = 0 then some (l, con)
  else do
    let (info, l) ← attach_info l con
    let (mbufs, con) ← LinkedMbufs.con_buf_write l.mbufs { con with info := some info } data
    some ({ l with mbufs := mbufs }, con)

def recyle_info (l : Chained) (c : Connection) : Option Chained :=
  match c.info with
  | none => some l
  | some info => do
    let mbufs ← connection_buf_free (l.mbufs.count fun m => { m with conn_info := m.conn_info - 1 }) c
    let l := { mbufs := mbufs, free_con_infoq := STAILQ_INSERT_TAIL l.free_con_infoq info.block }
    some (Chained.count l fun m => { m with free_conn_info := m.free_conn_info + 1 })

def context_conn_recyle (l : Chained) (con : Nat) (c : Connection) : Option (Chained × Connection) := do
  let l ← recyle_info l c
  let l := l.count fun m => { m with conns := m.conns - 1 }
  let world := l.mbufs.world
  let conns ← Contexts.link_free world.ctx.conns con
  let l := { l with mbufs := { l.mbufs with world := { world with ctx := { world.ctx with conns := conns } } } }
  some (l.count fun m => { m with free_conns := m.free_conns + 1 }, { c with info := none })

def mbuf_destroy : Nat → Linked → Option Linked
  | 0, _ => none
  | fuel + 1, l =>
    match TAILQ_FIRST l.links .free_mbufq with
    | none => some l
    | some buf => do
      let links ← TAILQ_REMOVE l.links .free_mbufq (some buf)
      let l := { l with links := links, world := { l.world with heap := cv_free buf l.world.heap } }
      mbuf_destroy fuel (l.count fun m => { m with free_buffers := m.free_buffers - 1 })

/-- The loop of `context_free_content`. -/
def free_con_info_loop : Nat → Chained → Option Chained
  | 0, _ => none
  | fuel + 1, l =>
    if STAILQ_EMPTY l.free_con_infoq then some l
    else do
      let info ← STAILQ_FIRST l.free_con_infoq
      let free_con_infoq ← STAILQ_REMOVE_HEAD l.free_con_infoq
      let world := { l.mbufs.world with heap := cv_free info l.mbufs.world.heap }
      free_con_info_loop fuel ⟨{ l.mbufs with world := world }, free_con_infoq⟩

def context_free_content (l : Chained) : Option (Int × Chained) :=
  if l.mbufs.world.ctx.mstats.conns ≠ 0 then some (1, l)
  else do
    let mbufs ← mbuf_destroy (steps l.mbufs) l.mbufs
    let l ← free_con_info_loop (steps l.mbufs) { l with mbufs := mbufs }
    some (0, l)

structure ChainedPool where
  context : Chained
  con : Nat → Connection
  handles : List Nat
  inUse : List Nat
  replies : List (Nat × ConBuf.Reply)

/-- `context_init` on a memory that holds anything. -/
def start (links : Links Head Nat) (infos : Stailq.Links Nat) (mem : Nat → Mbuf) (w : World) : ChainedPool :=
  ⟨⟨⟨w, TAILQ_INIT links .free_mbufq, mem⟩, STAILQ_INIT infos⟩, fun _ => ⟨0, none, none⟩, [], [], []⟩

def ChainedPool.set (s : ChainedPool) (l : Chained) (c : Nat) (con : Connection) : ChainedPool :=
  { s with context := l, con := Function.update s.con c con }

/-- The functions that do not use the con_infos given back. -/
def ChainedPool.set_mbufs (s : ChainedPool) (l : Linked) (c : Nat) (con : Connection) : ChainedPool :=
  s.set { s.context with mbufs := l } c con

def step (s : ChainedPool) : PoolOp → Option ChainedPool
  | .new => do
    let (l, c, con) ← context_connection_new s.context.mbufs
    some { s.set_mbufs l c con with handles := s.handles ++ [c], inUse := c :: s.inUse }
  | .write i data => do
    let c ← s.handles[i]?
    let (l, con) ← con_buf_write s.context (s.con c) data
    some (s.set l c con)
  | .read i len => do
    let c ← s.handles[i]?
    let (l, con, reply) ← con_buf_read s.context.mbufs (s.con c) len
    some { s.set_mbufs l c con with replies := s.replies ++ [(i, reply)] }
  | .peek i len => do
    let c ← s.handles[i]?
    let reply ← con_buf_peek s.context.mbufs (s.con c) len
    some { s with replies := s.replies ++ [(i, reply)] }
  | .free i => do
    let c ← s.handles[i]?
    let l ← connection_buf_free s.context.mbufs (s.con c)
    some { s with context := { s.context with mbufs := l } }
  | .recycle i => do
    let c ← s.handles[i]?
    let (l, con) ← context_conn_recyle s.context c (s.con c)
    some { s.set l c con with inUse := s.inUse.erase c }

/-! ## The list is not looked at -/

/-- The list of con_infos put into a context. -/
def with_infos (qs : List ConInfo) (l : Linked) : Linked :=
  { l with world := { l.world with ctx := { l.world.ctx with free_con_infoq := qs } } }

section
variable (qs : List ConInfo) (l : Linked)

@[simp] theorem infos_links : (with_infos qs l).links = l.links := rfl
@[simp] theorem infos_mem : (with_infos qs l).mem = l.mem := rfl
@[simp] theorem infos_heap : (with_infos qs l).world.heap = l.world.heap := rfl
@[simp] theorem infos_mstats : (with_infos qs l).world.ctx.mstats = l.world.ctx.mstats := rfl
@[simp] theorem infos_count (f : MemoryStats → MemoryStats) : (with_infos qs l).count f = with_infos qs (l.count f) := rfl
@[simp] theorem infos_store (buf : Nat) (m : Mbuf) : (with_infos qs l).store buf m = with_infos qs (l.store buf m) := rfl
@[simp] theorem infos_linked (links : Links Head Nat) :
    (⟨(with_infos qs l).world, links, l.mem⟩ : Linked) = with_infos qs { l with links := links } := rfl

theorem create_infos : mbuf_create (with_infos qs l) = (mbuf_create l).map (Prod.map id (with_infos qs)) := by
  simp only [mbuf_create, infos_links, infos_mem, infos_linked]
  cases TAILQ_FIRST l.links .free_mbufq with
  | none => rfl
  | some mbuf =>
    dsimp only
    cases TAILQ_REMOVE l.links .free_mbufq (some mbuf) <;> rfl

theorem get_infos : mbuf_get (with_infos qs l) = (mbuf_get l).map (Prod.map id (with_infos qs)) := by
  simp only [mbuf_get, create_infos]
  cases mbuf_create l <;> rfl

theorem recycle_infos (mbuf : Nat) : mbuf_recycle mbuf (with_infos qs l) = with_infos qs (mbuf_recycle mbuf l) := by
  by_cases above : l.world.ctx.mstats.free_buffers > MbufOps.RECYCLE_LENGTH
  · have freed : mbuf_recycle mbuf l = _ := if_pos above
    have freedToo : mbuf_recycle mbuf (with_infos qs l) = _ := if_pos above
    rw [freed, freedToo]
    rfl
  · have pooled : mbuf_recycle mbuf l = _ := if_neg above
    have pooledToo : mbuf_recycle mbuf (with_infos qs l) = _ := if_neg above
    rw [pooled, pooledToo]
    rfl

theorem append_infos (info : Nat) :
    append_mbuf info (with_infos qs l) = (append_mbuf info l).map (Prod.map id (with_infos qs)) := by
  simp only [append_mbuf, get_infos]
  cases mbuf_get l with
  | none => rfl
  | some r =>
    obtain ⟨buf, l⟩ := r
    show (TAILQ_INSERT_TAIL l.links (.data info) buf).bind _ = ((TAILQ_INSERT_TAIL l.links (.data info) buf).bind _).map _
    cases TAILQ_INSERT_TAIL l.links (.data info) buf <;> rfl

theorem room_infos (info : Nat) : make_room info (with_infos qs l) = (make_room info l).map (with_infos qs) := by
  have appended : (append_mbuf info (with_infos qs l)).map Prod.snd =
      ((append_mbuf info l).map Prod.snd).map (with_infos qs) := by
    rw [append_infos, Option.map_map, Option.map_map]
    rfl
  simp only [make_room, appended, Option.bind_eq_bind, Option.map_bind, infos_links, infos_mem]
  refine Option.bind_congr fun buf _ => ?_
  cases buf with
  | none => rfl
  | some buf =>
    dsimp only [Function.comp]
    split_ifs <;> rfl

theorem write_loop_infos (info fuel buf : Nat) (data : List UInt8) :
    con_buf_write_loop info fuel (with_infos qs l) buf data =
      (con_buf_write_loop info fuel l buf data).map (Prod.map (with_infos qs) id) := by
  induction fuel generalizing l buf data with
  | zero => rfl
  | succ fuel ih =>
    simp only [con_buf_write_loop, infos_mem, infos_store, ih, append_infos]
    split_ifs
    · rfl
    · rfl
    · set written := (MbufOps.mbuf_write (l.mem buf) data (MbufOps.mbuf_write_size (l.mem buf))).2
      cases append_mbuf info (l.store buf written) with
      | none => rfl
      | some r => exact ih _ _ _
    · rfl

theorem write_infos {con : Connection} (attached : con.info ≠ none) (data : List UInt8) :
    LinkedMbufs.con_buf_write (with_infos qs l) con data =
      (LinkedMbufs.con_buf_write l con data).map (Prod.map (with_infos qs) id) := by
  obtain ⟨info, given⟩ := Option.ne_none_iff_exists'.mp attached
  simp only [LinkedMbufs.con_buf_write, LinkedMbufs.attach_info, given, room_infos]
  split_ifs
  · rfl
  · cases make_room info.block l with
    | none => rfl
    | some l =>
      show (TAILQ_LAST l.links (.data info.block)).bind _ = ((TAILQ_LAST l.links (.data info.block)).bind _).map _
      cases TAILQ_LAST l.links (.data info.block) with
      | none => rfl
      | some last =>
        cases last with
        | none => rfl
        | some buf =>
          simp only [Option.bind_some, Option.bind_eq_bind, write_loop_infos]
          cases con_buf_write_loop info.block (data.length + 1) l buf data <;> rfl

theorem free_loop_infos (info fuel : Nat) : connection_buf_free_loop info fuel (with_infos qs l) =
    (connection_buf_free_loop info fuel l).map (with_infos qs) := by
  induction fuel generalizing l with
  | zero => rfl
  | succ fuel ih =>
    simp only [connection_buf_free_loop, infos_links]
    cases TAILQ_FIRST l.links (.data info) with
    | none => rfl
    | some buf =>
      dsimp only
      cases TAILQ_REMOVE l.links (.data info) (some buf) with
      | none => rfl
      | some links =>
        have recycled := recycle_infos qs { l with links := links } buf
        exact (congrArg (connection_buf_free_loop info fuel) recycled).trans (ih _)

theorem free_infos (con : Connection) :
    connection_buf_free (with_infos qs l) con = (connection_buf_free l con).map (with_infos qs) := by
  simp only [connection_buf_free]
  cases con.info with
  | none => rfl
  | some info => exact free_loop_infos qs l info.block _

theorem read_loop_infos (info len fuel : Nat) (allow : Int) (reply : ConBuf.Reply) :
    con_buf_read_loop info len fuel (with_infos qs l) allow reply =
      (con_buf_read_loop info len fuel l allow reply).map (Prod.map (with_infos qs) id) := by
  induction fuel generalizing l allow reply with
  | zero => rfl
  | succ fuel ih =>
    have readable : mhdr_readable (with_infos qs l) (.data info) = mhdr_readable l (.data info) := rfl
    simp only [con_buf_read_loop, readable, infos_links, infos_mem, infos_store]
    split_ifs
    · cases TAILQ_FIRST l.links (.data info) with
      | none => rfl
      | some buf =>
        simp only [Option.bind_eq_bind, Option.bind_some]
        by_cases done : MbufOps.mbuf_can_recycle (MbufOps.mbuf_read (l.mem buf) len).2.2 = true
        · simp only [done, ↓reduceIte]
          cases TAILQ_REMOVE (l.store buf (MbufOps.mbuf_read (l.mem buf) len).2.2).links (.data info) (some buf) with
          | none => rfl
          | some links => simp only [Option.bind_some, infos_linked, recycle_infos, ih]
        · simp only [done, Bool.false_eq_true, ↓reduceIte]
          rfl
    · rfl

theorem read_infos (con : Connection) (len : Nat) : con_buf_read (with_infos qs l) con len =
    (con_buf_read l con len).map (Prod.map (with_infos qs) id) := by
  simp only [con_buf_read]
  cases con.info with
  | none => rfl
  | some info =>
    have same : steps (with_infos qs l) = steps l := rfl
    simp only [Option.bind_eq_bind, Option.bind_some, same, read_loop_infos]
    set allow : Int := if (len : Int) > con.data_size then con.data_size else len
    cases con_buf_read_loop info.block len (steps l) l allow ⟨0, []⟩ <;> rfl

theorem peek_loop_infos (fuel : Nat) (buf : Option Nat) (len : Nat) (reply : ConBuf.Reply) :
    con_buf_peek_loop (with_infos qs l) fuel buf len reply = con_buf_peek_loop l fuel buf len reply := by
  induction fuel generalizing buf len reply with
  | zero => rfl
  | succ fuel ih =>
    cases buf with
    | none => rfl
    | some buf =>
      rw [con_buf_peek_loop, con_buf_peek_loop, ih]
      rfl

theorem peek_infos (con : Connection) (len : Nat) : con_buf_peek (with_infos qs l) con len = con_buf_peek l con len := by
  simp only [con_buf_peek]
  cases con.info with
  | none => rfl
  | some info => exact peek_loop_infos qs l _ _ _ _

theorem new_infos : context_connection_new (with_infos qs l) =
    (context_connection_new l).map (Prod.map (with_infos qs) id) := by
  by_cases empty : TAILQ_FIRST l.world.ctx.conns () = none
  · have emptyToo : TAILQ_FIRST (with_infos qs l).world.ctx.conns () = none := empty
    simp only [context_connection_new, Contexts.connection_new_fresh empty, Contexts.connection_new_fresh emptyToo]
    rfl
  · have pooledToo : TAILQ_FIRST (with_infos qs l).world.ctx.conns () ≠ none := empty
    simp only [context_connection_new, Contexts.connection_new_pooled empty, Contexts.connection_new_pooled pooledToo]
    rfl

end

/-! ## What the chain stands for -/

/-- The list of con_infos that the chain stands for. -/
structure Chain (l : Chained) (m : Linked) (qs : List ConInfo) : Prop where
  mbufs : m = with_infos qs l.mbufs
  queue : Stailq.Queue l.free_con_infoq (qs.map ConInfo.block)

section
variable {l : Chained} {m m' : Linked} {qs : List ConInfo}

theorem info_new_chained (chain : Chain l m qs) :
    ∃ l' qs', con_info_new l = some ((LinkedMbufs.con_info_new m).1, l') ∧
      Chain l' (LinkedMbufs.con_info_new m).2 qs' := by
  obtain ⟨rfl, queue⟩ := chain
  cases qs with
  | nil =>
    have empty := queue_empty queue
    set world := { l.mbufs.world with heap := (cv_malloc .con_info l.mbufs.world.heap).2 }
    refine ⟨(init_info (cv_malloc .con_info l.mbufs.world.heap).1
      { l with mbufs := { l.mbufs with world := world } }).2, [], ?_, rfl, queue⟩
    simp only [con_info_new, empty, List.map_nil, List.isEmpty_nil, Bool.not_true, Bool.false_eq_true, ↓reduceIte]
    rfl
  | cons info rest =>
    have empty := queue_empty queue
    have first := queue_first queue
    obtain ⟨links, removed, left⟩ := remove_head_queue queue
    refine ⟨(init_info info.block (Chained.count { l with free_con_infoq := links } fun m =>
      { m with free_conn_info := m.free_conn_info - 1 })).2, rest, ?_, rfl, left⟩
    simp only [con_info_new, empty, List.map_cons, List.isEmpty_cons, Bool.not_false, ↓reduceIte, first, removed]
    rfl

theorem attach_chained (chain : Chain l m qs) (con : Connection) :
    ∃ l' qs', attach_info l con = some ((LinkedMbufs.attach_info m con).1, l') ∧
      Chain l' (LinkedMbufs.attach_info m con).2 qs' := by
  cases given : con.info with
  | none =>
    obtain ⟨l', qs', made, after⟩ := info_new_chained chain
    exact ⟨l', qs', by simpa [attach_info, LinkedMbufs.attach_info, given] using made,
      by simpa [LinkedMbufs.attach_info, given] using after⟩
  | some info =>
    exact ⟨l, qs, by simp [attach_info, LinkedMbufs.attach_info, given],
      by simpa [LinkedMbufs.attach_info, given] using chain⟩

/-- The function goes on as it would with a con_info that was there before. -/
theorem write_attached (m : Linked) (con : Connection) {data : List UInt8} (some : data.length ≠ 0) :
    LinkedMbufs.con_buf_write m con data =
      LinkedMbufs.con_buf_write (LinkedMbufs.attach_info m con).2
        { con with info := Option.some (LinkedMbufs.attach_info m con).1 } data := by
  rw [LinkedMbufs.con_buf_write, LinkedMbufs.con_buf_write, if_neg some, if_neg some]
  rfl

theorem write_chained {con con' : Connection} {data : List UInt8} (chain : Chain l m qs)
    (executed : LinkedMbufs.con_buf_write m con data = some (m', con')) :
    ∃ l' qs', con_buf_write l con data = some (l', con') ∧ Chain l' m' qs' := by
  by_cases empty : data.length = 0
  · rw [LinkedMbufs.con_buf_write, if_pos empty] at executed
    cases executed
    exact ⟨l, qs, if_pos empty, chain⟩
  · obtain ⟨mid, qs', attached, same, queue⟩ := attach_chained chain con
    rw [write_attached m con empty, same, write_infos qs' mid.mbufs (Option.some_ne_none _) data] at executed
    obtain ⟨⟨mbufs, con₁⟩, wrote, result⟩ := Option.map_eq_some_iff.mp executed
    cases result
    refine ⟨{ mid with mbufs := mbufs }, qs', ?_, rfl, queue⟩
    simp only [con_buf_write, if_neg empty, attached, Option.bind_eq_bind, Option.bind_some, wrote, id]

theorem recyle_info_chained {con : Connection} (chain : Chain l m qs)
    (apart : ∀ info, con.info = some info → info.block ∉ qs.map ConInfo.block)
    (executed : LinkedPools.recyle_info m con = some m') : ∃ l' qs', recyle_info l con = some l' ∧ Chain l' m' qs' := by
  cases given : con.info with
  | none =>
    simp only [LinkedPools.recyle_info, given, Option.isSome_none, Bool.false_eq_true, ↓reduceIte,
      Option.some.injEq] at executed
    cases executed
    exact ⟨l, qs, by simp [recyle_info, given], chain⟩
  | some info =>
    obtain ⟨rfl, queue⟩ := chain
    simp only [LinkedPools.recyle_info, given, Option.isSome_some, ↓reduceIte, infos_count, free_infos] at executed
    obtain ⟨freed, ran, result⟩ := Option.bind_eq_some_iff.mp executed
    obtain ⟨mbufs, released, rfl⟩ := Option.map_eq_some_iff.mp ran
    cases result
    refine ⟨Chained.count ⟨mbufs, STAILQ_INSERT_TAIL l.free_con_infoq info.block⟩
      fun m => { m with free_conn_info := m.free_conn_info + 1 }, qs ++ [info], ?_, rfl, ?_⟩
    · simp only [recyle_info, given, released, Option.bind_eq_bind, Option.bind_some]
    · rw [List.map_append]
      exact insert_tail_queue queue (apart info given)

theorem conn_recyle_chained {c : Nat} {con con' : Connection} (chain : Chain l m qs)
    (apart : ∀ info, con.info = some info → info.block ∉ qs.map ConInfo.block)
    (executed : LinkedPools.context_conn_recyle m c con = some (m', con')) :
    ∃ l' qs', context_conn_recyle l c con = some (l', con') ∧ Chain l' m' qs' := by
  obtain ⟨mid, recycled, rest⟩ := Option.bind_eq_some_iff.mp executed
  obtain ⟨conns, linked, result⟩ := Option.bind_eq_some_iff.mp rest
  cases result
  obtain ⟨l', qs', ran, rfl, queue⟩ := recyle_info_chained chain apart recycled
  set world := (l'.count fun m => { m with conns := m.conns - 1 }).mbufs.world with worldIs
  set given := { l' with mbufs := { l'.mbufs with world := { world with ctx := { world.ctx with conns := conns } } } }
  refine ⟨Chained.count given fun m => { m with free_conns := m.free_conns + 1 }, qs', ?_, rfl, queue⟩
  have linkedToo : Contexts.link_free world.ctx.conns c = some conns := linked
  simp only [context_conn_recyle, ran, Option.bind_eq_bind, Option.bind_some, ← worldIs, linkedToo]
  rfl

end

/-! ## One step -/

/-- The state with a list of con_infos in its context. -/
def ChainedPool.listed (s : ChainedPool) (qs : List ConInfo) : LinkedPool :=
  ⟨with_infos qs s.context.mbufs, s.con, s.handles, s.inUse, s.replies⟩

section
variable {s : ChainedPool} {q : Head → List Nat} {t : Pool} {pool : List Nat} {qs : List ConInfo}

theorem chain_listed (queue : Stailq.Queue s.context.free_con_infoq (qs.map ConInfo.block)) :
    Chain s.context (s.listed qs).mbufs qs := ⟨rfl, queue⟩

/-- A step with the list is one with the chain. -/
theorem step_chained {t' : LinkedPool} {op : PoolOp} (queue : Stailq.Queue s.context.free_con_infoq (qs.map ConInfo.block))
    (apart : ∀ i, op = .recycle i → ∀ c, s.handles[i]? = some c → ∀ info, (s.con c).info = some info →
      info.block ∉ qs.map ConInfo.block)
    (executed : LinkedPools.step (s.listed qs) op = some t') :
    ∃ s' qs', step s op = some s' ∧ t' = s'.listed qs' ∧
      Stailq.Queue s'.context.free_con_infoq (qs'.map ConInfo.block) := by
  cases op with
  | new =>
    obtain ⟨⟨m, c, con⟩, ran, result⟩ := Option.bind_eq_some_iff.mp executed
    cases result
    rw [ChainedPool.listed, new_infos] at ran
    obtain ⟨⟨l, c', con'⟩, created, same⟩ := Option.map_eq_some_iff.mp ran
    cases same
    refine ⟨{ s.set_mbufs l c con with handles := s.handles ++ [c], inUse := c :: s.inUse }, qs, ?_, rfl, queue⟩
    simp only [step, created, Option.bind_eq_bind, Option.bind_some]
  | write i data =>
    obtain ⟨c, found, rest⟩ := Option.bind_eq_some_iff.mp executed
    obtain ⟨⟨m, con⟩, ran, result⟩ := Option.bind_eq_some_iff.mp rest
    cases result
    obtain ⟨l, qs', wrote, rfl, after⟩ := write_chained (chain_listed queue) ran
    have here : s.handles[i]? = some c := found
    have there : con_buf_write s.context (s.con c) data = some (l, con) := wrote
    refine ⟨s.set l c con, qs', ?_, rfl, after⟩
    simp only [step, here, there, Option.bind_eq_bind, Option.bind_some]
  | read i len =>
    obtain ⟨c, found, rest⟩ := Option.bind_eq_some_iff.mp executed
    obtain ⟨⟨m, con, reply⟩, ran, result⟩ := Option.bind_eq_some_iff.mp rest
    cases result
    rw [ChainedPool.listed, read_infos] at ran
    obtain ⟨⟨l, con', reply'⟩, took, same⟩ := Option.map_eq_some_iff.mp ran
    cases same
    have here : s.handles[i]? = some c := found
    have there : con_buf_read s.context.mbufs (s.con c) len = some (l, con, reply) := took
    refine ⟨{ s.set_mbufs l c con with replies := s.replies ++ [(i, reply)] }, qs, ?_, rfl, queue⟩
    simp only [step, here, there, Option.bind_eq_bind, Option.bind_some]
  | peek i len =>
    obtain ⟨c, found, rest⟩ := Option.bind_eq_some_iff.mp executed
    obtain ⟨reply, ran, result⟩ := Option.bind_eq_some_iff.mp rest
    cases result
    rw [ChainedPool.listed, peek_infos] at ran
    have here : s.handles[i]? = some c := found
    have there : con_buf_peek s.context.mbufs (s.con c) len = some reply := ran
    refine ⟨{ s with replies := s.replies ++ [(i, reply)] }, qs, ?_, rfl, queue⟩
    simp only [step, here, there, Option.bind_eq_bind, Option.bind_some]
  | free i =>
    obtain ⟨c, found, rest⟩ := Option.bind_eq_some_iff.mp executed
    obtain ⟨m, ran, result⟩ := Option.bind_eq_some_iff.mp rest
    cases result
    rw [ChainedPool.listed, free_infos] at ran
    obtain ⟨l, freed, rfl⟩ := Option.map_eq_some_iff.mp ran
    have here : s.handles[i]? = some c := found
    have there : connection_buf_free s.context.mbufs (s.con c) = some l := freed
    refine ⟨{ s with context := { s.context with mbufs := l } }, qs, ?_, rfl, queue⟩
    simp only [step, here, there, Option.bind_eq_bind, Option.bind_some]
  | recycle i =>
    obtain ⟨c, found, rest⟩ := Option.bind_eq_some_iff.mp executed
    obtain ⟨⟨m, con⟩, ran, result⟩ := Option.bind_eq_some_iff.mp rest
    cases result
    obtain ⟨l, qs', gave, rfl, after⟩ := conn_recyle_chained (chain_listed queue) (apart i rfl c found) ran
    have here : s.handles[i]? = some c := found
    have there : context_conn_recyle s.context c (s.con c) = some (l, con) := gave
    refine ⟨{ s.set l c con with inUse := s.inUse.erase c }, qs', ?_, rfl, after⟩
    simp only [step, here, there, Option.bind_eq_bind, Option.bind_some]

/-! ## Runs -/

/-- The state on lists that the links of the state stand for. -/
structure Shows (s : ChainedPool) (q : Head → List Nat) (t : Pool) : Prop where
  mbufs : LinkedPools.Shows (s.listed t.world.ctx.free_con_infoq) q t
  infos : Stailq.Queue s.context.free_con_infoq (t.world.ctx.free_con_infoq.map ConInfo.block)

def Stands (s : ChainedPool) (t : Pool) : Prop := ∃ q pool, Shows s q t ∧ Accounting.Inv t pool

/-- A con_info in use is not one of those given back. -/
theorem infos_outside (shows : Shows s q t) (inv : Accounting.Inv t pool) {c : Nat} (used : c ∈ s.inUse) {info : ConInfo}
    (given : (s.con c).info = some info) : info.block ∉ t.world.ctx.free_con_infoq.map ConInfo.block := by
  intro pooled
  refine List.disjoint_of_nodup_append inv.accounts.ownInfos.nodup pooled (List.mem_flatMap.mpr ⟨c, ?_, ?_⟩)
  · rw [← shows.mbufs.inUse]
    exact used
  · have attached : ((s.listed t.world.ctx.free_con_infoq).con c).info = some info := given
    rw [← shows.mbufs.con c used, Ownership.infoBlocks, shown_info attached]
    simp

theorem step_stands (s : ChainedPool) (t : Pool) (op : PoolOp) (stands : Stands s t) (issued : Accounting.Issued t op) :
    ∃ s' t', step s op = some s' ∧ Pools.step t op = some t' ∧ Stands s' t' := by
  obtain ⟨q, pool, shows, inv⟩ := stands
  obtain ⟨m, t', ran, ranT, q', pool', shows', inv'⟩ :=
    LinkedPools.step_stands _ t op ⟨q, pool, shows.mbufs, inv⟩ issued
  obtain ⟨s', qs, stepped, rfl, queue⟩ := step_chained shows.infos (fun i same c found info given => by
    subst same
    obtain ⟨d, foundD, used⟩ := issued
    rw [← shows.mbufs.handles] at foundD
    cases found.symm.trans foundD
    rw [← shows.mbufs.inUse] at used
    exact infos_outside shows inv used given) ran
  have listed : qs = t'.world.ctx.free_con_infoq := by
    rw [← shows'.world]
    rfl
  subst listed
  exact ⟨s', t', stepped, ranT, q', pool', ⟨shows', queue⟩, inv'⟩

theorem start_stands (links : Links Head Nat) (infos : Stailq.Links Nat) (mem : Nat → Mbuf) (junk : Nat → Nat → UInt8)
    {bufsize : Int} (positive : 1 ≤ (Contexts.context_new (no_blocks junk) bufsize).ctx.mbuf_offset) :
    Stands (start links infos mem (Contexts.context_new (no_blocks junk) bufsize))
      (Pools.start (Contexts.context_new (no_blocks junk) bufsize)) :=
  ⟨_, [], ⟨start_shows links mem rfl, init_queue infos⟩, Accounting.start_inv junk positive⟩

/-- The code on links alone has a result wherever the code on lists has one, and its
    links stand for the lists. -/
theorem run_chained (links : Links Head Nat) (infos : Stailq.Links Nat) (mem : Nat → Mbuf) (junk : Nat → Nat → UInt8)
    (bufsize : Int) (positive : 1 ≤ (Contexts.context_new (no_blocks junk) bufsize).ctx.mbuf_offset) (ops : List PoolOp)
    (issued : Each Pools.step Accounting.Issued (Pools.start (Contexts.context_new (no_blocks junk) bufsize)) ops) :
    ∃ s q t, run step (start links infos mem (Contexts.context_new (no_blocks junk) bufsize)) ops = some s ∧
      run Pools.step (Pools.start (Contexts.context_new (no_blocks junk) bufsize)) ops = some t ∧ Shows s q t := by
  obtain ⟨s, t, ran, ranT, q, pool, shows, _⟩ :=
    run_simulates step_stands (start_stands links infos mem junk positive) issued
  exact ⟨s, q, t, ran, ranT, shows⟩

/-- The con_info of one connection is given back and taken by another. -/
def reused : List PoolOp := [.new, .new, .write 0 [1], .recycle 0, .write 1 [2], .recycle 1]

theorem reused_issued : Each Pools.step Accounting.Issued (Pools.start (Contexts.context_new (no_blocks fun _ _ => 0) 64))
    reused := by
  refine each_cons (by simp [Accounting.Issued, Pools.start]) rfl <|
    each_cons (show ∀ c ∈ [1], c ∈ [1] from fun _ => id) rfl <| each_cons ⟨1, rfl, by decide⟩ rfl <|
    each_cons ⟨1, rfl, by decide⟩ rfl <| each_cons ⟨2, rfl, by decide⟩ rfl <| each_cons ⟨2, rfl, by decide⟩ rfl trivial

theorem run_chained_reused : ∃ s q t,
    run step (start zeroed ⟨fun _ => none, .first⟩ (fun _ => ⟨0, 0, 0, 0, 0, none, fun _ => 0⟩)
        (Contexts.context_new (no_blocks fun _ _ => 0) 64)) reused = some s ∧
      run Pools.step (Pools.start (Contexts.context_new (no_blocks fun _ _ => 0) 64)) reused = some t ∧ Shows s q t :=
  run_chained zeroed ⟨fun _ => none, .first⟩ (fun _ => ⟨0, 0, 0, 0, 0, none, fun _ => 0⟩) (fun _ _ => 0) 64 (by decide)
    reused reused_issued

end

/-! ## The teardown -/

section
variable {l : Linked} {live : Head → Prop} {q : Head → List Nat}

theorem destroy_infos (qs : List ConInfo) (fuel : Nat) (l : Linked) :
    mbuf_destroy fuel (with_infos qs l) = (mbuf_destroy fuel l).map (with_infos qs) := by
  induction fuel generalizing l with
  | zero => rfl
  | succ fuel ih =>
    simp only [mbuf_destroy, infos_links]
    cases TAILQ_FIRST l.links .free_mbufq with
    | none => rfl
    | some buf =>
      dsimp only
      cases TAILQ_REMOVE l.links .free_mbufq (some buf) with
      | none => rfl
      | some links =>
        set freed : Linked := { l with links := links, world := { l.world with heap := cv_free buf l.world.heap } }
        exact ih (freed.count fun m => { m with free_buffers := m.free_buffers - 1 })

/-- Every mbuf of the pool is taken out and freed. -/
theorem destroy_linked {fuel : Nat} (holds : Holds l live q) (enough : (q .free_mbufq).length < fuel) :
    ∃ l' q', mbuf_destroy fuel l = some l' ∧ Holds l' live q' ∧ q' .free_mbufq = [] ∧
      shown l' q' = MbufOps.mbuf_destroy (shown l q) ∧ l'.world.heap.kinds = l.world.heap.kinds := by
  induction fuel generalizing l q with
  | zero => exact absurd enough (Nat.not_lt_zero _)
  | succ fuel ih =>
    have looked := Tailq.queue_first (holds.queues.queue _ holds.pool)
    cases whole : q .free_mbufq with
    | nil =>
      rw [whole] at looked
      refine ⟨l, q, by simp only [mbuf_destroy, looked, List.head?_nil], holds, whole, ?_, rfl⟩
      simp [MbufOps.mbuf_destroy, shown, whole, MbufOps.mbuf_destroy_loop]
    | cons n rest =>
      obtain ⟨_, links, removed, after, _⟩ := take_linked holds holds.pool whole
      have named := holds.named _ holds.pool n (by rw [whole]; exact List.mem_cons_self)
      rw [whole] at looked enough
      set freed : Linked := { l with links := links, world := { l.world with heap := cv_free n l.world.heap } } with freedIs
      have holds₁ : Holds (freed.count fun m => { m with free_buffers := m.free_buffers - 1 }) live
          (Function.update q .free_mbufq rest) := ⟨after.queues, after.pool, after.named, after.taken⟩
      obtain ⟨l', q', ran, holds', empty, shown', kinds⟩ := ih holds₁ (by
        rw [Function.update_self]
        exact Nat.lt_of_succ_lt_succ enough)
      refine ⟨l', q', ?_, holds', empty, ?_, kinds⟩
      · simp only [mbuf_destroy, looked, List.head?_cons, removed]
        exact ran
      · rw [shown']
        simp [MbufOps.mbuf_destroy, MbufOps.mbuf_destroy_loop, MbufOps.mbuf_free, shown, whole, named, freedIs, Linked.count,
          World.count]

/-- Every con_info of the chain is taken out and freed. -/
theorem infos_freed {l : Chained} {qs : List ConInfo} {fuel : Nat} {w : World}
    (queue : Stailq.Queue l.free_con_infoq (qs.map ConInfo.block)) (enough : qs.length < fuel)
    (same : w.heap = l.mbufs.world.heap) : ∃ free_con_infoq,
      free_con_info_loop fuel l = some ⟨{ l.mbufs with world :=
        { l.mbufs.world with heap := (Contexts.free_con_info_loop qs w).heap } }, free_con_infoq⟩ ∧
      Stailq.Queue free_con_infoq [] := by
  induction qs generalizing l fuel w with
  | nil =>
    obtain ⟨fuel, rfl⟩ := Nat.exists_eq_succ_of_ne_zero (Nat.ne_zero_of_lt enough)
    refine ⟨l.free_con_infoq, ?_, queue⟩
    rw [free_con_info_loop, queue_empty queue]
    simp [Contexts.free_con_info_loop, same]
  | cons info rest ih =>
    obtain ⟨fuel, rfl⟩ := Nat.exists_eq_succ_of_ne_zero (Nat.ne_zero_of_lt enough)
    have first := Stailq.queue_first queue
    have empty := queue_empty queue
    obtain ⟨links, removed, left⟩ := remove_head_queue queue
    set freed : Chained :=
      ⟨{ l.mbufs with world := { l.mbufs.world with heap := cv_free info.block l.mbufs.world.heap } }, links⟩ with freedIs
    set w₁ : World := { w with ctx := { w.ctx with free_con_infoq := rest }, heap := cv_free info.block w.heap } with w₁Is
    obtain ⟨last, ran, none⟩ := @ih freed fuel w₁ left (Nat.lt_of_succ_lt_succ enough) (by rw [w₁Is, same])
    refine ⟨last, ?_, none⟩
    simp only [free_con_info_loop, empty, List.map_cons, List.isEmpty_cons, Bool.false_eq_true, ↓reduceIte, first, removed,
      List.head?_cons, Option.bind_eq_bind, Option.bind_some]
    exact ran

theorem destroy_owns {w : World} {queue : List Mbuf} {infos : List Nat} (balanced : Balanced w.heap)
    (mbufs : Owns w.heap .mbuf (queue.map Mbuf.block)) (others : Owns w.heap .con_info infos) :
    Balanced (MbufOps.mbuf_destroy_loop queue w).heap ∧ Owns (MbufOps.mbuf_destroy_loop queue w).heap .mbuf [] ∧
      Owns (MbufOps.mbuf_destroy_loop queue w).heap .con_info infos := by
  induction queue generalizing w with
  | nil => exact ⟨balanced, mbufs, others⟩
  | cons buf rest ih =>
    have live : Live w.heap .mbuf buf.block := (mbufs.live _).mp (by simp)
    exact ih (balanced_free balanced live) (owns_free mbufs) (owns_free_other (by decide) live others)

theorem infos_owns {w : World} {qs : List ConInfo} (balanced : Balanced w.heap)
    (infos : Owns w.heap .con_info (qs.map ConInfo.block)) (others : Owns w.heap .mbuf []) :
    Balanced (Contexts.free_con_info_loop qs w).heap ∧ Owns (Contexts.free_con_info_loop qs w).heap .con_info [] ∧
      Owns (Contexts.free_con_info_loop qs w).heap .mbuf [] := by
  induction qs generalizing w with
  | nil => exact ⟨balanced, infos, others⟩
  | cons info rest ih =>
    have live : Live w.heap .con_info info.block := (infos.live _).mp (by simp)
    exact ih (balanced_free balanced live) (owns_free infos) (owns_free_other (by decide) live others)

/-- Nothing of the lists of a context is left, and no block was freed twice. -/
structure TornDown (l : Chained) : Prop where
  balanced : Balanced l.mbufs.world.heap
  mbufs : Owns l.mbufs.world.heap .mbuf []
  infos : Owns l.mbufs.world.heap .con_info []
  free_mbufq : TAILQ_EMPTY l.mbufs.links .free_mbufq = true
  free_con_infoq : STAILQ_EMPTY l.free_con_infoq = true

theorem infos_bounded {heap : Heap} {xs : List Nat} (owns : Owns heap .con_info xs) : xs.length < heap.kinds.length + 1 := by
  have within : xs ⊆ List.range heap.kinds.length := fun n member =>
    List.mem_range.mpr (List.getElem?_eq_some_iff.mp ((owns.live n).mp member).1).1
  have fits := (owns.nodup.subperm within).length_le
  rw [List.length_range] at fits
  exact Nat.lt_succ_of_le fits

/-- The counter of connections tells whether one is in use. -/
theorem shows_conns {s : ChainedPool} {t : Pool} {pool : List Nat} (shows : Shows s q t) (inv : Accounting.Inv t pool) :
    s.context.mbufs.world.ctx.mstats.conns = s.inUse.length := by
  have mstats : s.context.mbufs.world.ctx.mstats = t.world.ctx.mstats := by
    rw [← shows.mbufs.world]
    rfl
  have inUse : s.inUse = t.inUse := shows.mbufs.inUse
  rw [mstats, inv.accounts.connections, inUse]

theorem teardown_shown {s : ChainedPool} {t : Pool} {pool : List Nat} (shows : Shows s q t) (inv : Accounting.Inv t pool)
    (returned : s.inUse = []) : ∃ l, context_free_content s.context = some (0, l) ∧ TornDown l := by
  have none : s.context.mbufs.world.ctx.mstats.conns = 0 := by
    rw [shows_conns shows inv, returned]
    rfl
  have returnedT : t.inUse = [] := shows.mbufs.inUse.symm.trans returned
  have mbufs := inv.accounts.ownMbufs
  have infos := inv.accounts.ownInfos
  rw [returnedT, List.flatMap_nil, List.append_nil] at mbufs infos
  obtain ⟨l', q', ran, holds, empty, shown', kinds⟩ :=
    destroy_linked shows.mbufs.holds (steps_enough shows.mbufs.holds shows.mbufs.holds.pool)
  rw [ChainedPool.listed, destroy_infos] at ran
  obtain ⟨l, destroyed, rfl⟩ := Option.map_eq_some_iff.mp ran
  rw [shows.mbufs.world] at shown'
  have heap : l.world.heap = (MbufOps.mbuf_destroy t.world).heap := by
    rw [← shown']
    rfl
  obtain ⟨balanced, gone, kept⟩ := destroy_owns inv.accounts.balanced mbufs infos
  have enough : t.world.ctx.free_con_infoq.length < steps s.context.mbufs := by
    have bounded := infos_bounded inv.accounts.ownInfos
    rw [← shows.mbufs.world, List.length_append, List.length_map] at bounded
    exact Nat.lt_of_le_of_lt (Nat.le_add_right _ _) bounded
  obtain ⟨last, freed, left⟩ := @infos_freed ⟨l, s.context.free_con_infoq⟩ _ _ (MbufOps.mbuf_destroy t.world)
    shows.infos enough heap.symm
  obtain ⟨balanced', infos', mbufs'⟩ := infos_owns balanced kept gone
  set heap' := (Contexts.free_con_info_loop t.world.ctx.free_con_infoq (MbufOps.mbuf_destroy t.world)).heap
  refine ⟨⟨{ l with world := { l.world with heap := heap' } }, last⟩, ?_, balanced', mbufs', infos', ?_, queue_empty left⟩
  · have through : mbuf_destroy (steps s.context.mbufs) s.context.mbufs = some l := destroyed
    simp only [context_free_content, none, ne_eq, not_true_eq_false, ↓reduceIte, through, Option.bind_eq_bind,
      Option.bind_some, freed]
  · rw [TAILQ_EMPTY]
    have looked := Tailq.queue_first (holds.queues.queue _ holds.pool)
    rw [empty] at looked
    exact Option.isNone_iff_eq_none.mpr looked

/-- After a run the teardown frees every mbuf and every con_info once, provided that every
    connection was given back; if one was not it touches nothing. -/
theorem teardown_chained (links : Links Head Nat) (infos : Stailq.Links Nat) (mem : Nat → Mbuf) (junk : Nat → Nat → UInt8)
    (bufsize : Int) (positive : 1 ≤ (Contexts.context_new (no_blocks junk) bufsize).ctx.mbuf_offset) (ops : List PoolOp)
    (issued : Each Pools.step Accounting.Issued (Pools.start (Contexts.context_new (no_blocks junk) bufsize)) ops) :
    ∃ s ret l, run step (start links infos mem (Contexts.context_new (no_blocks junk) bufsize)) ops = some s ∧
      context_free_content s.context = some (ret, l) ∧
      if s.inUse = [] then ret = 0 ∧ TornDown l else ret = 1 ∧ l = s.context := by
  obtain ⟨s, t, ran, _, q, pool, shows, inv⟩ :=
    run_simulates step_stands (start_stands links infos mem junk positive) issued
  by_cases returned : s.inUse = []
  · obtain ⟨l, executed, torn⟩ := teardown_shown shows inv returned
    exact ⟨s, 0, l, ran, executed, by rw [if_pos returned]; exact ⟨rfl, torn⟩⟩
  · have some : s.context.mbufs.world.ctx.mstats.conns ≠ 0 := by
      rw [shows_conns shows inv]
      exact fun none => returned (List.length_eq_zero_iff.mp (Int.ofNat_eq_zero.mp none))
    exact ⟨s, 1, s.context, ran, if_pos some, by rw [if_neg returned]; exact ⟨rfl, rfl⟩⟩

theorem teardown_chained_reused : ∃ s ret l,
    run step (start zeroed ⟨fun _ => none, .first⟩ (fun _ => ⟨0, 0, 0, 0, 0, none, fun _ => 0⟩)
        (Contexts.context_new (no_blocks fun _ _ => 0) 64)) reused = some s ∧
      context_free_content s.context = some (ret, l) ∧
      if s.inUse = [] then ret = 0 ∧ TornDown l else ret = 1 ∧ l = s.context :=
  teardown_chained zeroed ⟨fun _ => none, .first⟩ (fun _ => ⟨0, 0, 0, 0, 0, none, fun _ => 0⟩) (fun _ _ => 0) 64 (by decide)
    reused reused_issued

end

end TcpLearn.LinkedContexts
