import TcpLearn.TailQueues
import TcpLearn.Ownership

/-!
# The mbufs in their links

The functions of `mbuf.c` and `corvus.c` on mbufs once more, this time as the code moves
the mbufs: the pool and the queue of each con_info are heads, and the entries of all
mbufs are links in one memory. `Linked` holds the links and the structures; the lists of
mbufs in its context and its con_infos are not used. `shown` and `shown_con` read the
lists off the links, and every function here agrees with the one on lists
(`get_linked`, `recycle_linked`, `con_buf_write_linked`, `con_buf_read_linked`,
`con_buf_peek_linked`, `connection_buf_free_linked`).
-/
namespace TcpLearn.LinkedMbufs
open TcpLearn.Memory TcpLearn.Tailq

/-- The heads of tail queues of mbufs. -/
inductive Head where
  | free_mbufq
  /-- The field `data` of the con_info in the block. -/
  | data (info : Nat)
deriving DecidableEq

structure Linked where
  world : World
  links : Links Head Nat
  /-- The structure of the mbuf in the block. -/
  mem : Nat → Mbuf

/-! ## The code -/

def Linked.count (l : Linked) (f : MemoryStats → MemoryStats) : Linked := { l with world := l.world.count f }

def Linked.store (l : Linked) (buf : Nat) (m : Mbuf) : Linked := { l with mem := Function.update l.mem buf m }

def mbuf_create (l : Linked) : Option (Nat × Linked) :=
  match TAILQ_FIRST l.links .free_mbufq with
  | some mbuf => do
    let links ← TAILQ_REMOVE l.links .free_mbufq (some mbuf)
    some (mbuf, { l with links := links }.count fun m => { m with free_buffers := m.free_buffers - 1 })
  | none =>
    let block := (cv_malloc .mbuf l.world.heap).1
    let l := { l with world := { l.world with heap := (cv_malloc .mbuf l.world.heap).2 } }
    let l := l.store block ⟨block, 0, 0, 0, 0, none, l.world.heap.junk block⟩
    some (block, l.count fun m => { m with total_buffers := m.total_buffers + 1 })

def mbuf_get (l : Linked) : Option (Nat × Linked) := do
  let (mbuf, l) ← mbuf_create l
  let l := l.store mbuf
    { l.mem mbuf with start := 0, end_ := l.world.ctx.mbuf_offset, pos := 0, last := 0, queue := none }
  let l := { l with links := set_next_null l.links mbuf }
  some (mbuf, l.count fun m => { m with buffers := m.buffers + 1 })

def mbuf_recycle (mbuf : Nat) (l : Linked) : Linked :=
  let l := l.count fun m => { m with buffers := m.buffers - 1 }
  if l.world.ctx.mstats.free_buffers > MbufOps.RECYCLE_LENGTH then
    let l := l.count fun m => { m with total_buffers := m.total_buffers - 1 }
    { l with world := { l.world with heap := cv_free mbuf l.world.heap } }
  else
    let l := { l with links := TAILQ_INSERT_HEAD (set_next_null l.links mbuf) .free_mbufq mbuf }
    l.count fun m => { m with free_buffers := m.free_buffers + 1 }

def connection_buf_free_loop (info : Nat) : Nat → Linked → Option Linked
  | 0, _ => none
  | fuel + 1, l =>
    match TAILQ_FIRST l.links (.data info) with
    | none => some l
    | some buf => do
      let links ← TAILQ_REMOVE l.links (.data info) (some buf)
      connection_buf_free_loop info fuel (mbuf_recycle buf { l with links := links })

/-- More steps than a queue has mbufs. -/
def steps (l : Linked) : Nat := l.world.heap.kinds.length + 1

def connection_buf_free (l : Linked) (con : Connection) : Option Linked :=
  match con.info with
  | none => some l
  | some info => connection_buf_free_loop info.block (steps l) l

/-- The queue of the new con_info is initialised; the pool of con_infos is a list here too. -/
def con_info_new (l : Linked) : ConInfo × Linked :=
  let (info, world) := ConBuf.con_info_new l.world
  (info, { l with world := world, links := TAILQ_INIT l.links (.data info.block) })

/-- `mbuf_get`, the field `queue`, and the new mbuf put at the end of the queue. -/
def append_mbuf (info : Nat) (l : Linked) : Option (Nat × Linked) := do
  let (buf, l) ← mbuf_get l
  let l := l.store buf { l.mem buf with queue := some info }
  let links ← TAILQ_INSERT_TAIL l.links (.data info) buf
  some (buf, { l with links := links })

def make_room (info : Nat) (l : Linked) : Option Linked := do
  let buf ← (if TAILQ_EMPTY l.links (.data info) then some none else TAILQ_LAST l.links (.data info))
  match buf with
  | none => (append_mbuf info l).map Prod.snd
  | some buf =>
    if MbufOps.mbuf_write_size (l.mem buf) = 0 then (append_mbuf info l).map Prod.snd else some l

def con_buf_write_loop (info : Nat) : Nat → Linked → Nat → List UInt8 → Option (Linked × Bool)
  | 0, _, _, _ => none
  | fuel + 1, l, buf, data =>
    if data.length ≠ 0 then
      let writable := MbufOps.mbuf_write_size (l.mem buf)
      if writable > data.length then
        let (write, m) := MbufOps.mbuf_write (l.mem buf) data data.length
        con_buf_write_loop info fuel (l.store buf m) buf (data.drop write)
      else
        let (write, m) := MbufOps.mbuf_write (l.mem buf) data writable
        let l := l.store buf m
        if data.length - write = 0 then some (l, false)
        else do
          let (next, l) ← append_mbuf info l
          con_buf_write_loop info fuel l next (data.drop write)
    else some (l, true)

def attach_info (l : Linked) (con : Connection) : ConInfo × Linked :=
  match con.info with
  | none => con_info_new l
  | some info => (info, l)

def con_buf_write (l : Linked) (con : Connection) (data : List UInt8) : Option (Linked × Connection) :=
  if data.length = 0 then some (l, con)
  else do
    let (info, l) := attach_info l con
    let l ← make_room info.block l
    let last ← TAILQ_LAST l.links (.data info.block)
    let buf ← last
    let (l, counted) ← con_buf_write_loop info.block (data.length + 1) l buf data
    let con := { con with info := some info }
    some (l, if counted then { con with data_size := con.data_size + data.length } else con)

def mhdr_readable (l : Linked) (h : Head) : Bool :=
  match TAILQ_FIRST l.links h with
  | none => false
  | some buf => MbufOps.mbuf_read_size (l.mem buf) ≠ 0

def con_buf_read_loop (info len : Nat) : Nat → Linked → Int → ConBuf.Reply → Option (Linked × ConBuf.Reply)
  | 0, _, _, _ => none
  | fuel + 1, l, allow_read, reply =>
    if mhdr_readable l (.data info) ∧ allow_read ≠ 0 then do
      let buf ← TAILQ_FIRST l.links (.data info)
      let (ret, copied, m) := MbufOps.mbuf_read (l.mem buf) len
      let l := l.store buf m
      let reply := ⟨reply.ret + ret, reply.dst ++ copied⟩
      if MbufOps.mbuf_can_recycle m then do
        let links ← TAILQ_REMOVE l.links (.data info) (some buf)
        con_buf_read_loop info len fuel (mbuf_recycle buf { l with links := links }) (allow_read - ret) reply
      else some (l, reply)
    else some (l, reply)

def con_buf_read (l : Linked) (con : Connection) (len : Nat) : Option (Linked × Connection × ConBuf.Reply) := do
  let info ← con.info
  let read := con.data_size
  let allow_read := if len > read then read else len
  let (l, reply) ← con_buf_read_loop info.block len (steps l) l allow_read ⟨0, []⟩
  some (l, { con with data_size := con.data_size - reply.ret }, reply)

/-- `TAILQ_FOREACH` with its `break`. -/
def con_buf_peek_loop (l : Linked) : Nat → Option Nat → Nat → ConBuf.Reply → Option ConBuf.Reply
  | 0, _, _, _ => none
  | _ + 1, none, _, reply => some reply
  | fuel + 1, some buf, len, reply =>
    let tmp := MbufOps.mbuf_read_size (l.mem buf)
    let read := if tmp > len then len else tmp
    let reply := ⟨reply.ret + read, reply.dst ++ (MbufOps.mbuf_peek (l.mem buf) read).2⟩
    if len - read = 0 then some reply else con_buf_peek_loop l fuel (TAILQ_NEXT l.links buf) (len - read) reply

def con_buf_peek (l : Linked) (con : Connection) (len : Nat) : Option ConBuf.Reply :=
  match con.info with
  | none => some ⟨0, []⟩
  | some info => con_buf_peek_loop l (steps l) (TAILQ_FIRST l.links (.data info.block)) len ⟨0, []⟩

/-! ## What the links show -/

/-- The context with the pool as a list. -/
def shown (l : Linked) (q : Head → List Nat) : World :=
  { l.world with ctx := { l.world.ctx with free_mbufq := (q .free_mbufq).map l.mem } }

/-- The queue of a con_info as a list. -/
def data (l : Linked) (q : Head → List Nat) (info : Nat) : List Mbuf := (q (.data info)).map l.mem

/-- The connection with its queue as a list. -/
def shown_con (l : Linked) (q : Head → List Nat) (con : Connection) : Connection :=
  { con with info := con.info.map fun info => { info with data := data l q info.block } }

structure Holds (l : Linked) (live : Head → Prop) (q : Head → List Nat) : Prop where
  queues : Queues l.links live q
  pool : live .free_mbufq
  named : ∀ h, live h → ∀ n ∈ q h, (l.mem n).block = n
  taken : ∀ h, live h → ∀ n ∈ q h, n < l.world.heap.kinds.length

/-- An mbuf in the hands of the code: it stands in no queue. -/
structure Held (l : Linked) (live : Head → Prop) (q : Head → List Nat) (n : Nat) : Prop where
  outside : Outside live q n
  named : (l.mem n).block = n
  taken : n < l.world.heap.kinds.length

section
variable {l : Linked} {live : Head → Prop} {q : Head → List Nat} {n : Nat}

theorem holds_count (holds : Holds l live q) (f : MemoryStats → MemoryStats) : Holds (l.count f) live q :=
  ⟨holds.queues, holds.pool, holds.named, holds.taken⟩

theorem held_count (held : Held l live q n) (f : MemoryStats → MemoryStats) : Held (l.count f) live q n :=
  ⟨held.outside, held.named, held.taken⟩

theorem holds_store (holds : Holds l live q) {m : Mbuf} (named : m.block = n) : Holds (l.store n m) live q := by
  refine ⟨holds.queues, holds.pool, ?_, holds.taken⟩
  intro h old k member
  by_cases same : k = n
  · subst same
    simpa [Linked.store] using named
  · simpa [Linked.store, same] using holds.named h old k member

theorem map_store {xs : List Nat} (outside : n ∉ xs) (m : Mbuf) : xs.map (l.store n m).mem = xs.map l.mem := by
  refine List.map_congr_left fun k member => ?_
  exact Function.update_of_ne (fun same => outside (by rw [← same]; exact member)) _ _

theorem shown_count (f : MemoryStats → MemoryStats) : shown (l.count f) q = (shown l q).count f := rfl

theorem shown_store (holds : Holds l live q) (outside : Outside live q n) (m : Mbuf) :
    shown (l.store n m) q = shown l q := by
  simp only [shown]
  rw [map_store (outside _ holds.pool)]
  rfl

/-! ## One mbuf -/

/-- The first mbuf of a live head is taken out. -/
theorem take_linked (holds : Holds l live q) {h : Head} (liveH : live h) {rest : List Nat} (first : q h = n :: rest) :
    TAILQ_FIRST l.links h = some n ∧ ∃ links, TAILQ_REMOVE l.links h (some n) = some links ∧
      Holds { l with links := links } live (Function.update q h rest) ∧
      Held { l with links := links } live (Function.update q h rest) n := by
  have named := queue_first (holds.queues.queue h liveH)
  rw [first] at named
  have member : n ∈ q h := by rw [first]; exact List.mem_cons_self
  obtain ⟨links, removed, queues⟩ := remove_queues [] holds.queues liveH first
  rw [List.nil_append] at queues
  have fewer : ∀ k, live k → ∀ m ∈ Function.update q h rest k, m ∈ q k := by
    intro k _ m inside
    by_cases same : k = h
    · subst same
      rw [Function.update_self] at inside
      rw [first]
      exact List.mem_cons_of_mem _ inside
    · rwa [Function.update_of_ne same] at inside
  refine ⟨named, links, removed, ⟨queues, holds.pool, ?_, ?_⟩, ?_, holds.named h liveH n member, holds.taken h liveH n member⟩
  · exact fun k old m inside => holds.named k old m (fewer k old m inside)
  · exact fun k old m inside => holds.taken k old m (fewer k old m inside)
  · intro k old
    by_cases same : k = h
    · subst same
      rw [Function.update_self]
      have distinct := (holds.queues.queue k old).nodup
      rw [first] at distinct
      exact (List.nodup_cons.mp distinct).1
    · rw [Function.update_of_ne same]
      exact holds.queues.apart h k liveH old (Ne.symm same) n member

/-- The queues of the con_infos are as before, and so are the mbufs in them. -/
structure Same (live : Head → Prop) (l : Linked) (q : Head → List Nat) (l' : Linked) (q' : Head → List Nat) : Prop where
  queue : ∀ info, live (.data info) → q' (.data info) = q (.data info)
  mem : ∀ info, live (.data info) → ∀ k ∈ q (.data info), l'.mem k = l.mem k

theorem Same.data {l' : Linked} {q' : Head → List Nat} (same : Same live l q l' q') {info : Nat}
    (liveInfo : live (.data info)) : data l' q' info = data l q info := by
  rw [LinkedMbufs.data, LinkedMbufs.data, same.queue info liveInfo]
  exact List.map_congr_left fun k member => same.mem info liveInfo k member

theorem Same.trans {l' l'' : Linked} {q' q'' : Head → List Nat} (first : Same live l q l' q')
    (second : Same live l' q' l'' q'') : Same live l q l'' q'' := by
  refine ⟨fun info old => (second.queue info old).trans (first.queue info old), ?_⟩
  intro info old k member
  rw [second.mem info old k (by rw [first.queue info old]; exact member), first.mem info old k member]

theorem create_linked (holds : Holds l live q) : ∃ n l' q', mbuf_create l = some (n, l') ∧ Holds l' live q' ∧
    Held l' live q' n ∧ l'.mem n = (MbufOps.mbuf_create (shown l q)).1 ∧
      shown l' q' = (MbufOps.mbuf_create (shown l q)).2 ∧ Same live l q l' q' := by
  cases pooled : q .free_mbufq with
  | cons n rest =>
    obtain ⟨first, links, removed, after, held⟩ := take_linked holds holds.pool pooled
    refine ⟨n, ({ l with links := links } : Linked).count fun m => { m with free_buffers := m.free_buffers - 1 },
      Function.update q .free_mbufq rest, ?_, holds_count after _, held_count held _, ?_, ?_, ?_⟩
    · simp only [mbuf_create, first, removed]
      rfl
    · simp [MbufOps.mbuf_create, shown, pooled, Linked.count]
    · simp [MbufOps.mbuf_create, shown, pooled, Linked.count, World.count]
    · exact ⟨fun info _ => Function.update_of_ne (by simp) _ _, fun _ _ _ _ => rfl⟩
  | nil =>
    have first := queue_first (holds.queues.queue .free_mbufq holds.pool)
    rw [pooled] at first
    have outside : Outside live q l.world.heap.kinds.length := fun h old member =>
      absurd (holds.taken h old _ member) (Nat.lt_irrefl _)
    have grown : ∀ k, k < l.world.heap.kinds.length → k < (cv_malloc .mbuf l.world.heap).2.kinds.length := by
      intro k below
      simp only [cv_malloc, List.length_append, List.length_singleton]
      omega
    refine ⟨l.world.heap.kinds.length, (({ l with world := { l.world with heap := (cv_malloc .mbuf l.world.heap).2 } } :
      Linked).store l.world.heap.kinds.length ⟨l.world.heap.kinds.length, 0, 0, 0, 0, none,
        l.world.heap.junk l.world.heap.kinds.length⟩).count fun m => { m with total_buffers := m.total_buffers + 1 }, q,
      ?_, ⟨holds.queues, holds.pool, ?_, ?_⟩, ⟨outside, ?_, ?_⟩, ?_, ?_, ?_⟩
    · rw [mbuf_create, first]
      rfl
    · intro h old k member
      have ne : k ≠ l.world.heap.kinds.length := fun same => outside h old (same ▸ member)
      simpa [Linked.count, Linked.store, cv_malloc, ne] using holds.named h old k member
    · exact fun h old k member => grown k (holds.taken h old k member)
    · simp [Linked.count, Linked.store, cv_malloc]
    · simp [Linked.count, Linked.store, cv_malloc]
    · simp [Linked.count, Linked.store, cv_malloc, MbufOps.mbuf_create, shown, pooled]
    · simp [Linked.count, Linked.store, cv_malloc, MbufOps.mbuf_create, shown, pooled, World.count]
    · refine ⟨fun _ _ => rfl, ?_⟩
      intro info old k member
      have ne : k ≠ l.world.heap.kinds.length := fun same => outside _ old (same ▸ member)
      simp [Linked.count, Linked.store, cv_malloc, ne]

/-- A new mbuf is the one that the list of free mbufs gives. -/
theorem get_linked (holds : Holds l live q) : ∃ n l' q', mbuf_get l = some (n, l') ∧ Holds l' live q' ∧
    Held l' live q' n ∧ l'.mem n = (MbufOps.mbuf_get (shown l q)).1 ∧ shown l' q' = (MbufOps.mbuf_get (shown l q)).2 ∧
      Same live l q l' q' := by
  obtain ⟨n, l₁, q₁, created, holds₁, ⟨outside, named, taken⟩, memIs, shownIs, same⟩ := create_linked holds
  have stored := holds_store (n := n) holds₁
    (m := { l₁.mem n with start := 0, end_ := l₁.world.ctx.mbuf_offset, pos := 0, last := 0, queue := none }) named
  have offset : l₁.world.ctx.mbuf_offset = (MbufOps.mbuf_create (shown l q)).2.ctx.mbuf_offset := by
    rw [← shownIs]
    rfl
  refine ⟨n, ({ l₁.store n
      { l₁.mem n with start := 0, end_ := l₁.world.ctx.mbuf_offset, pos := 0, last := 0, queue := none } with
        links := set_next_null l₁.links n } : Linked).count fun m => { m with buffers := m.buffers + 1 }, q₁,
    ?_, ?_, ⟨outside, ?_, taken⟩, ?_, ?_, same.trans ⟨fun _ _ => rfl, ?_⟩⟩
  · rw [mbuf_get, created]
    rfl
  · exact ⟨set_next_queues holds₁.queues outside, holds₁.pool, stored.named, stored.taken⟩
  · simpa [Linked.count, Linked.store] using named
  · simp [MbufOps.mbuf_get, Linked.count, Linked.store, ← memIs, offset]
  · rw [MbufOps.mbuf_get, ← shownIs]
    exact congrArg (fun w : World => w.count fun m => { m with buffers := m.buffers + 1 }) (shown_store holds₁ outside _)
  · intro info old k member
    have ne : k ≠ n := fun same => outside _ old (same ▸ member)
    simp [Linked.count, Linked.store, ne]

/-- An mbuf given back goes where the list of free mbufs puts it. -/
theorem recycle_linked (holds : Holds l live q) (held : Held l live q n) :
    ∃ q', Holds (mbuf_recycle n l) live q' ∧ shown (mbuf_recycle n l) q' = MbufOps.mbuf_recycle (l.mem n) (shown l q) ∧
      Same live l q (mbuf_recycle n l) q' := by
  by_cases above : l.world.ctx.mstats.free_buffers > MbufOps.RECYCLE_LENGTH
  · have freed : mbuf_recycle n l = { (l.count fun m => { m with
        buffers := m.buffers - 1, total_buffers := m.total_buffers - 1 }) with
          world := { (l.count fun m => { m with buffers := m.buffers - 1, total_buffers := m.total_buffers - 1 }).world with
            heap := cv_free n l.world.heap } } := by
      rw [mbuf_recycle]
      exact if_pos above
    rw [freed]
    refine ⟨q, ⟨holds.queues, holds.pool, holds.named, holds.taken⟩, ?_, ⟨fun _ _ => rfl, fun _ _ _ _ => rfl⟩⟩
    rw [MbufOps.mbuf_recycle]
    refine Eq.trans ?_ (if_pos above).symm
    rw [MbufOps.mbuf_free, held.named]
    rfl
  · have pooled : mbuf_recycle n l = { (l.count fun m => { m with
        buffers := m.buffers - 1, free_buffers := m.free_buffers + 1 }) with
          links := TAILQ_INSERT_HEAD (set_next_null l.links n) .free_mbufq n } := by
      rw [mbuf_recycle]
      exact if_neg above
    have queues := insert_head_queues (set_next_queues holds.queues held.outside) holds.pool held.outside
    rw [pooled]
    refine ⟨Function.update q .free_mbufq (n :: q .free_mbufq), ⟨queues, holds.pool, ?_, ?_⟩, ?_, ?_⟩
    · intro h old k member
      by_cases pool : h = .free_mbufq
      · subst pool
        rw [Function.update_self] at member
        rcases List.mem_cons.mp member with rfl | inside
        · exact held.named
        · exact holds.named _ old k inside
      · rw [Function.update_of_ne pool] at member
        exact holds.named h old k member
    · intro h old k member
      by_cases pool : h = .free_mbufq
      · subst pool
        rw [Function.update_self] at member
        rcases List.mem_cons.mp member with rfl | inside
        · exact held.taken
        · exact holds.taken _ old k inside
      · rw [Function.update_of_ne pool] at member
        exact holds.taken h old k member
    · rw [MbufOps.mbuf_recycle]
      refine Eq.trans ?_ (if_neg above).symm
      simp [shown, Linked.count, World.count]
    · exact ⟨fun info _ => Function.update_of_ne (by simp) _ _, fun _ _ _ _ => rfl⟩

/-! ## The queue of a con_info -/

/-- The heads other than the queue of the con_info. -/
def Others (live : Head → Prop) (info : Nat) (h : Head) : Prop := live h ∧ h ≠ .data info

theorem same_others {l' : Linked} {q' : Head → List Nat} (same : Same live l q l' q') (info : Nat) :
    Same (Others live info) l q l' q' :=
  ⟨fun other old => same.queue other old.1, fun other old => same.mem other old.1⟩

/-- The mbufs of one queue change, those of the others do not. -/
theorem same_store (holds : Holds l live q) {info : Nat} (liveInfo : live (.data info)) (member : n ∈ q (.data info))
    (m : Mbuf) : Same (Others live info) l q (l.store n m) q := by
  refine ⟨fun _ _ => rfl, ?_⟩
  intro other old k inside
  refine Function.update_of_ne ?_ _ _
  rintro rfl
  exact holds.queues.apart _ _ liveInfo old.1 (Ne.symm old.2) k member inside

/-- The new mbuf goes to the end of the queue. -/
theorem append_linked {info : Nat} (holds : Holds l live q) (liveInfo : live (.data info)) :
    ∃ n l' q', append_mbuf info l = some (n, l') ∧ Holds l' live q' ∧ q' (.data info) = q (.data info) ++ [n] ∧
      (∀ k ∈ q (.data info), l'.mem k = l.mem k) ∧ l'.mem n = (ConBuf.get_for info (shown l q)).1 ∧
        shown l' q' = (ConBuf.get_for info (shown l q)).2 ∧ Same (Others live info) l q l' q' := by
  obtain ⟨n, l₁, q₁, got, holds₁, ⟨outside, named, taken⟩, memIs, shownIs, same⟩ := get_linked holds
  have stored := holds_store (n := n) holds₁ (m := { l₁.mem n with queue := some info }) named
  obtain ⟨links, inserted, queues⟩ := insert_tail_queues holds₁.queues liveInfo outside
  have member : ∀ h, live h → ∀ k ∈ Function.update q₁ (.data info) (q₁ (.data info) ++ [n]) h, k ∈ q₁ h ∨ k = n := by
    intro h _ k inside
    by_cases at' : h = .data info
    · subst at'
      rw [Function.update_self] at inside
      exact (List.mem_append.mp inside).imp id List.mem_singleton.mp
    · rw [Function.update_of_ne at'] at inside
      exact .inl inside
  refine ⟨n, { l₁.store n { l₁.mem n with queue := some info } with links := links },
    Function.update q₁ (.data info) (q₁ (.data info) ++ [n]), ?_, ⟨queues, holds₁.pool, ?_, ?_⟩, ?_, ?_, ?_, ?_, ?_⟩
  · simp only [append_mbuf, got, Option.bind_eq_bind, Option.bind_some, Linked.store, inserted]
  · intro h old k inside
    rcases member h old k inside with before | rfl
    · exact stored.named h old k before
    · simpa [Linked.store] using named
  · intro h old k inside
    rcases member h old k inside with before | rfl
    · exact holds₁.taken h old k before
    · exact taken
  · rw [Function.update_self, same.queue info liveInfo]
  · intro k inside
    have ne : k ≠ n := fun at' => outside _ liveInfo (by rw [same.queue info liveInfo, ← at']; exact inside)
    rw [← same.mem info liveInfo k inside]
    exact Function.update_of_ne ne _ _
  · simp [ConBuf.get_for, Linked.store, ← memIs]
  · rw [ConBuf.get_for, ← shownIs]
    refine Eq.trans ?_ (shown_store holds₁ outside { l₁.mem n with queue := some info })
    simp [shown]
  · refine ⟨?_, ?_⟩
    · intro other old
      rw [Function.update_of_ne old.2, same.queue other old.1]
    · intro other old k inside
      have ne : k ≠ n := fun at' => outside _ old.1 (by rw [same.queue other old.1, ← at']; exact inside)
      rw [← same.mem other old.1 k inside]
      exact Function.update_of_ne ne _ _

theorem append_data {info : Nat} {l' : Linked} {q' : Head → List Nat} (queue : q' (.data info) = q (.data info) ++ [n])
    (before : ∀ k ∈ q (.data info), l'.mem k = l.mem k) : data l' q' info = data l q info ++ [l'.mem n] := by
  rw [data, data, queue, List.map_append, List.map_congr_left before]
  rfl

/-- The queue is given an mbuf with room, if its last one has none. -/
theorem make_room_linked {info : Nat} (holds : Holds l live q) (liveInfo : live (.data info)) :
    ∃ l' q', make_room info l = some l' ∧ Holds l' live q' ∧ q' (.data info) ≠ [] ∧
      shown l' q' = (ConBuf.make_room info (shown l q) (data l q info)).1 ∧
      data l' q' info = (ConBuf.make_room info (shown l q) (data l q info)).2 ∧ Same (Others live info) l q l' q' := by
  have first := queue_first (holds.queues.queue _ liveInfo)
  have last := last_queues holds.queues liveInfo
  have looked : (if TAILQ_EMPTY l.links (.data info) then some none else TAILQ_LAST l.links (.data info)) =
      some (q (.data info)).getLast? := by
    rw [TAILQ_EMPTY, first, last]
    cases q (.data info) <;> simp
  obtain ⟨n, l₁, q₁, appended, holds₁, queue, before, memIs, shownIs, same⟩ := append_linked holds liveInfo
  have more : ∃ l' q', (append_mbuf info l).map Prod.snd = some l' ∧ Holds l' live q' ∧ q' (.data info) ≠ [] ∧
      shown l' q' = (ConBuf.get_for info (shown l q)).2 ∧
      data l' q' info = data l q info ++ [(ConBuf.get_for info (shown l q)).1] ∧ Same (Others live info) l q l' q' :=
    ⟨l₁, q₁, by rw [appended]; rfl, holds₁, by simp [queue], shownIs, by rw [append_data queue before, memIs], same⟩
  rw [make_room, looked]
  rcases List.eq_nil_or_concat (q (.data info)) with empty | ⟨front, buf, whole⟩
  · simpa [empty, ConBuf.make_room, data] using more
  · rw [List.concat_eq_append] at whole
    have lastIs : (data l q info).getLast? = some (l.mem buf) := by simp [data, whole]
    simp only [ConBuf.make_room, lastIs]
    by_cases full : MbufOps.mbuf_write_size (l.mem buf) = 0
    · simpa [full, whole] using more
    · refine ⟨l, q, by simp [full, whole], holds, by simp [whole], by simp [full], by simp [full], ?_⟩
      exact ⟨fun _ _ => rfl, fun _ _ _ _ => rfl⟩

theorem store_data {info buf : Nat} (holds : Holds l live q) (liveInfo : live (.data info)) {front : List Nat}
    (whole : q (.data info) = front ++ [buf]) (m : Mbuf) : front.map (l.store buf m).mem = front.map l.mem := by
  have distinct := (holds.queues.queue _ liveInfo).nodup
  rw [whole] at distinct
  exact map_store (fun member => List.nodup_append.mp distinct |>.2.2 buf member buf (by simp) rfl) m

/-- The loop of `con_buf_write` on the links does what it does on lists. -/
theorem write_loop_linked {info fuel : Nat} {w' : World} {front : List Nat} {buf : Nat} {bytes : List UInt8}
    {queue' : List Mbuf} {counted : Bool} (holds : Holds l live q) (liveInfo : live (.data info))
    (whole : q (.data info) = front ++ [buf])
    (executed : ConBuf.con_buf_write_loop info fuel (shown l q) (front.map l.mem) (l.mem buf) bytes =
      some (w', queue', counted)) :
    ∃ l' q', con_buf_write_loop info fuel l buf bytes = some (l', counted) ∧ Holds l' live q' ∧ shown l' q' = w' ∧
      data l' q' info = queue' ∧ Same (Others live info) l q l' q' := by
  induction fuel generalizing l q front buf bytes with
  | zero => simp [ConBuf.con_buf_write_loop] at executed
  | succ fuel ih =>
    have member : buf ∈ q (.data info) := by simp [whole]
    -- storing into the last mbuf changes nothing else
    have stored : ∀ m : Mbuf, m.block = (l.mem buf).block →
        Holds (l.store buf m) live q ∧ shown (l.store buf m) q = shown l q ∧
          front.map (l.store buf m).mem = front.map l.mem ∧ (l.store buf m).mem buf = m ∧
          Same (Others live info) l q (l.store buf m) q := by
      intro m block
      refine ⟨holds_store holds (block.trans (holds.named _ liveInfo buf member)), ?_, store_data holds liveInfo whole m,
        Function.update_self _ _ _, same_store holds liveInfo member m⟩
      rw [shown, shown, map_store]
      · rfl
      · exact holds.queues.apart _ _ liveInfo holds.pool (by simp) buf member
    simp only [ConBuf.con_buf_write_loop] at executed
    simp only [con_buf_write_loop]
    by_cases left : bytes.length ≠ 0
    · rw [if_pos left] at executed ⊢
      by_cases fits : MbufOps.mbuf_write_size (l.mem buf) > bytes.length
      · rw [if_pos fits] at executed ⊢
        obtain ⟨holds₁, shown₁, front₁, buf₁, same₁⟩ := stored (MbufOps.mbuf_write (l.mem buf) bytes bytes.length).2
          (Ownership.mbuf_write_block _ _ _).1
        have again : ConBuf.con_buf_write_loop info fuel
            (shown (l.store buf (MbufOps.mbuf_write (l.mem buf) bytes bytes.length).2) q)
            (front.map (l.store buf (MbufOps.mbuf_write (l.mem buf) bytes bytes.length).2).mem)
            ((l.store buf (MbufOps.mbuf_write (l.mem buf) bytes bytes.length).2).mem buf)
            (bytes.drop (MbufOps.mbuf_write (l.mem buf) bytes bytes.length).1) = some (w', queue', counted) := by
          rw [shown₁, front₁, buf₁]
          exact executed
        obtain ⟨l', q', ran, holds', shown', data', same'⟩ := ih holds₁ whole again
        exact ⟨l', q', ran, holds', shown', data', same₁.trans same'⟩
      · rw [if_neg fits] at executed ⊢
        obtain ⟨holds₁, shown₁, front₁, buf₁, same₁⟩ := stored
          (MbufOps.mbuf_write (l.mem buf) bytes (MbufOps.mbuf_write_size (l.mem buf))).2 (Ownership.mbuf_write_block _ _ _).1
        by_cases done : bytes.length -
            (MbufOps.mbuf_write (l.mem buf) bytes (MbufOps.mbuf_write_size (l.mem buf))).1 = 0
        · rw [if_pos done] at executed ⊢
          cases executed
          refine ⟨_, q, rfl, holds₁, shown₁, ?_, same₁⟩
          rw [data, whole, List.map_append, front₁, List.map_singleton, buf₁]
        · rw [if_neg done] at executed ⊢
          obtain ⟨n, l₂, q₂, appended, holds₂, queue₂, before₂, mem₂, shown₂, same₂⟩ := append_linked holds₁ liveInfo
          rw [← shown₁, ← shown₂, ← mem₂] at executed
          have fronts : (front ++ [buf]).map l₂.mem = front.map l.mem ++
              [(MbufOps.mbuf_write (l.mem buf) bytes (MbufOps.mbuf_write_size (l.mem buf))).2] := by
            rw [← whole, List.map_congr_left before₂, whole, List.map_append, front₁, List.map_singleton, buf₁]
          rw [← fronts] at executed
          obtain ⟨l', q', ran, holds', shown', data', same'⟩ := ih holds₂ (by rw [queue₂, whole]) executed
          refine ⟨l', q', ?_, holds', shown', data', same₁.trans (same₂.trans same')⟩
          simp only [appended, Option.bind_eq_bind, Option.bind_some, ran]
    · rw [if_neg left] at executed ⊢
      cases executed
      refine ⟨l, q, rfl, holds, rfl, ?_, ⟨fun _ _ => rfl, fun _ _ _ _ => rfl⟩⟩
      rw [data, whole, List.map_append, List.map_singleton]

/-- The first mbuf of a queue is taken out and recycled. -/
theorem drop_linked {info : Nat} (holds : Holds l live q) (liveInfo : live (.data info)) {rest : List Nat}
    (first : q (.data info) = n :: rest) :
    ∃ links, TAILQ_REMOVE l.links (.data info) (some n) = some links ∧
      ∃ q', Holds (mbuf_recycle n { l with links := links }) live q' ∧ q' (.data info) = rest ∧
        shown (mbuf_recycle n { l with links := links }) q' = MbufOps.mbuf_recycle (l.mem n) (shown l q) ∧
        data (mbuf_recycle n { l with links := links }) q' info = rest.map l.mem ∧
        Same (Others live info) l q (mbuf_recycle n { l with links := links }) q' := by
  obtain ⟨_, links, removed, after, held⟩ := take_linked holds liveInfo first
  obtain ⟨q', holds', shown', same⟩ := recycle_linked after held
  have queue : q' (.data info) = rest := by
    rw [same.queue info liveInfo, Function.update_self]
  refine ⟨links, removed, q', holds', queue, ?_, ?_, ?_⟩
  · rw [shown']
    simp [shown]
  · rw [same.data liveInfo, data, Function.update_self]
  · have unlinked : Same (Others live info) l q { l with links := links } (Function.update q (.data info) rest) :=
      ⟨fun other old => Function.update_of_ne old.2 _ _, fun _ _ _ _ => rfl⟩
    exact unlinked.trans (same_others same info)

theorem free_loop_linked {info fuel : Nat} (holds : Holds l live q) (liveInfo : live (.data info))
    (enough : (q (.data info)).length < fuel) :
    ∃ l' q', connection_buf_free_loop info fuel l = some l' ∧ Holds l' live q' ∧ q' (.data info) = [] ∧
      shown l' q' = ConBuf.connection_buf_free_loop (data l q info) (shown l q) ∧ Same (Others live info) l q l' q' := by
  induction fuel generalizing l q with
  | zero => exact absurd enough (Nat.not_lt_zero _)
  | succ fuel ih =>
    have looked := queue_first (holds.queues.queue _ liveInfo)
    cases whole : q (.data info) with
    | nil =>
      rw [whole] at looked
      refine ⟨l, q, ?_, holds, whole, by simp [data, whole, ConBuf.connection_buf_free_loop], ⟨fun _ _ => rfl, fun _ _ _ _ => rfl⟩⟩
      simp only [connection_buf_free_loop, looked, List.head?_nil]
    | cons n rest =>
      rw [whole] at looked enough
      obtain ⟨links, removed, q₁, holds₁, queue₁, shown₁, data₁, same₁⟩ := drop_linked holds liveInfo whole
      obtain ⟨l', q', ran, holds', empty, shown', same'⟩ := ih holds₁ (by
        rw [queue₁]
        exact Nat.lt_of_succ_lt_succ enough)
      refine ⟨l', q', ?_, holds', empty, ?_, same₁.trans same'⟩
      · simp only [connection_buf_free_loop, looked, List.head?_cons, removed]
        exact ran
      · rw [shown', data₁, shown₁, data, whole]
        rfl

theorem readable_linked {h : Head} (holds : Holds l live q) (liveH : live h) :
    mhdr_readable l h = MbufOps.mhdr_readable ((q h).map l.mem) := by
  rw [mhdr_readable, queue_first (holds.queues.queue h liveH)]
  cases q h <;> rfl

/-- The loop of `con_buf_read` on the links does what it does on lists. -/
theorem read_loop_linked {info fuel : Nat} (len : Nat) (allow : Int) (reply : ConBuf.Reply) (holds : Holds l live q)
    (liveInfo : live (.data info)) (enough : (q (.data info)).length < fuel) :
    ∃ l' q', con_buf_read_loop info len fuel l allow reply =
        some (l', (ConBuf.con_buf_read_loop len (data l q info) (shown l q) allow reply).2.2) ∧ Holds l' live q' ∧
      shown l' q' = (ConBuf.con_buf_read_loop len (data l q info) (shown l q) allow reply).1 ∧
      data l' q' info = (ConBuf.con_buf_read_loop len (data l q info) (shown l q) allow reply).2.1 ∧
      Same (Others live info) l q l' q' := by
  induction fuel generalizing l q allow reply with
  | zero => exact absurd enough (Nat.not_lt_zero _)
  | succ fuel ih =>
    have looked := queue_first (holds.queues.queue _ liveInfo)
    have unchanged : Same (Others live info) l q l q := ⟨fun _ _ => rfl, fun _ _ _ _ => rfl⟩
    simp only [con_buf_read_loop, readable_linked holds liveInfo]
    cases whole : q (.data info) with
    | nil =>
      have nothing : data l q info = [] := by simp [data, whole]
      refine ⟨l, q, ?_, holds, ?_, ?_, unchanged⟩ <;>
        simp [nothing, ConBuf.con_buf_read_loop, MbufOps.mhdr_readable]
    | cons n rest =>
      rw [whole] at looked enough
      have queued : data l q info = l.mem n :: rest.map l.mem := by simp [data, whole]
      rw [queued]
      simp only [ConBuf.con_buf_read_loop, List.map_cons]
      by_cases goes : MbufOps.mhdr_readable (l.mem n :: rest.map l.mem) = true ∧ allow ≠ 0
      · rw [if_pos goes, if_pos goes]
        have member : n ∈ q (.data info) := by simp [whole]
        have holds₁ : Holds (l.store n (MbufOps.mbuf_read (l.mem n) len).2.2) live q :=
          holds_store holds (holds.named _ liveInfo n member)
        have same₁ := same_store holds liveInfo member (MbufOps.mbuf_read (l.mem n) len).2.2
        have shown₁ : shown (l.store n (MbufOps.mbuf_read (l.mem n) len).2.2) q = shown l q := by
          rw [shown, shown, map_store]
          · rfl
          · exact holds.queues.apart _ _ liveInfo holds.pool (by simp) n member
        have rest₁ : rest.map (l.store n (MbufOps.mbuf_read (l.mem n) len).2.2).mem = rest.map l.mem := by
          have distinct := (holds.queues.queue _ liveInfo).nodup
          rw [whole] at distinct
          exact map_store (List.nodup_cons.mp distinct).1 _
        have first₁ : (l.store n (MbufOps.mbuf_read (l.mem n) len).2.2).mem n = (MbufOps.mbuf_read (l.mem n) len).2.2 :=
          Function.update_self _ _ _
        simp only [looked, List.head?_cons, Option.bind_eq_bind, Option.bind_some]
        by_cases gone : MbufOps.mbuf_can_recycle (MbufOps.mbuf_read (l.mem n) len).2.2 = true
        · rw [if_pos gone, if_pos gone]
          obtain ⟨links, removed, q₂, holds₂, queue₂, shown₂, data₂, same₂⟩ := drop_linked holds₁ liveInfo whole
          obtain ⟨l', q', ran, holds', shown', data', same'⟩ := ih
            (allow - (MbufOps.mbuf_read (l.mem n) len).1)
            ⟨reply.ret + (MbufOps.mbuf_read (l.mem n) len).1, reply.dst ++ (MbufOps.mbuf_read (l.mem n) len).2.1⟩ holds₂ (by
              rw [queue₂]
              exact Nat.lt_of_succ_lt_succ enough)
          rw [data₂, shown₂, rest₁, first₁, shown₁] at ran shown' data'
          refine ⟨l', q', ?_, holds', shown', data', same₁.trans (same₂.trans same')⟩
          rw [removed]
          exact ran
        · rw [if_neg gone, if_neg gone]
          refine ⟨_, q, rfl, holds₁, shown₁, ?_, same₁⟩
          rw [data, whole, List.map_cons, first₁, rest₁]
      · rw [if_neg goes, if_neg goes]
        exact ⟨l, q, rfl, holds, rfl, queued, unchanged⟩

theorem peek_loop_linked {e : Slot Head Nat} (stop : l.links.cell e = none) {fuel : Nat} (len : Nat) (reply : ConBuf.Reply) :
    ∀ {queue : List Nat} {s : Slot Head Nat}, Seg l.links s queue e → queue.length < fuel →
      con_buf_peek_loop l fuel (l.links.cell s) len reply =
        some (ConBuf.con_buf_peek_loop (queue.map l.mem) len reply) := by
  induction fuel generalizing len reply with
  | zero => exact fun _ enough => absurd enough (Nat.not_lt_zero _)
  | succ fuel ih =>
    intro queue s seg enough
    cases queue with
    | nil =>
      cases seg
      rw [stop]
      rfl
    | cons n rest =>
      obtain ⟨named, _, after⟩ := seg
      rw [named]
      simp only [con_buf_peek_loop, ConBuf.con_buf_peek_loop, List.map_cons]
      by_cases done : len - (if MbufOps.mbuf_read_size (l.mem n) > len then len
          else MbufOps.mbuf_read_size (l.mem n)) = 0
      · rw [if_pos done, if_pos done]
      · rw [if_neg done, if_neg done]
        exact ih _ _ after (Nat.lt_of_succ_lt_succ enough)

/-! ## The functions on a connection -/

/-- The heads in use, that of the connection among them. -/
def Attached (live : Head → Prop) (con : Connection) (h : Head) : Prop :=
  live h ∨ ∃ info, con.info = some info ∧ h = .data info.block

/-- The heads in use, without that of the connection. -/
def Apart (live : Head → Prop) (con : Connection) (h : Head) : Prop :=
  live h ∧ ∀ info, con.info = some info → h ≠ .data info.block

theorem holds_fewer {live' : Head → Prop} (fewer : ∀ h, live' h → live h) (pool : live' .free_mbufq)
    (holds : Holds l live q) : Holds l live' q :=
  ⟨queues_fewer fewer holds.queues, pool, fun h old => holds.named h (fewer h old), fun h old => holds.taken h (fewer h old)⟩

/-- The loops over a queue come to their end. -/
theorem steps_enough (holds : Holds l live q) {h : Head} (liveH : live h) : (q h).length < steps l := by
  have within : q h ⊆ List.range l.world.heap.kinds.length := fun k member => List.mem_range.mpr (holds.taken h liveH k member)
  have fits := ((holds.queues.queue h liveH).nodup.subperm within).length_le
  rw [List.length_range] at fits
  exact Nat.lt_succ_of_le fits

theorem attach_linked {con : Connection} (holds : Holds l live q)
    (known : ∀ info, con.info = some info → live (.data info.block)) :
    ∃ q', Holds (attach_info l con).2 (fun h => h = .data (attach_info l con).1.block ∨ live h) q' ∧
      ConBuf.attach_info (shown l q) (shown_con l q con) =
        ({ (attach_info l con).1 with data := data (attach_info l con).2 q' (attach_info l con).1.block },
          shown (attach_info l con).2 q') ∧
      Same (Others live (attach_info l con).1.block) l q (attach_info l con).2 q' := by
  cases given : con.info with
  | some info =>
    have liveInfo := known info given
    rw [show attach_info l con = (info, l) by simp [attach_info, given]]
    refine ⟨q, holds_fewer ?_ (.inr holds.pool) holds, ?_, ⟨fun _ _ => rfl, fun _ _ _ _ => rfl⟩⟩
    · rintro h (rfl | old)
      · exact liveInfo
      · exact old
    · simp [ConBuf.attach_info, shown_con, given]
  | none =>
    rw [show attach_info l con = con_info_new l by simp [attach_info, given]]
    have world : (con_info_new l).2.world = (ConBuf.con_info_new l.world).2 := rfl
    have kinds : l.world.heap.kinds.length ≤ (ConBuf.con_info_new l.world).2.heap.kinds.length :=
      (Frame.keeps_info_new l.world).grown.length_le
    refine ⟨Function.update q (.data (con_info_new l).1.block) [], ⟨init_queues holds.queues _, .inr holds.pool, ?_, ?_⟩,
      ?_, ⟨fun other old => Function.update_of_ne old.2 _ _, fun _ _ _ _ => rfl⟩⟩
    · intro h old k member
      by_cases new : h = .data (con_info_new l).1.block
      · rw [new, Function.update_self] at member
        cases member
      · rw [Function.update_of_ne new] at member
        exact holds.named h (old.resolve_left new) k member
    · intro h old k member
      by_cases new : h = .data (con_info_new l).1.block
      · rw [new, Function.update_self] at member
        cases member
      · rw [Function.update_of_ne new] at member
        exact Nat.lt_of_lt_of_le (holds.taken h (old.resolve_left new) k member) kinds
    · simp only [ConBuf.attach_info, shown_con, given, Option.map_none]
      cases pool : l.world.ctx.free_con_infoq <;>
        simp [con_info_new, ConBuf.con_info_new, shown, data, pool, World.count]

/-- `con_buf_write` on the links does what it does on lists, and leaves the other queues as they are. -/
theorem con_buf_write_linked {con con' : Connection} {w' : World} {bytes : List UInt8} (holds : Holds l live q)
    (known : ∀ info, con.info = some info → live (.data info.block))
    (executed : ConBuf.con_buf_write (shown l q) (shown_con l q con) bytes = some (w', con')) :
    ∃ l' c' q', con_buf_write l con bytes = some (l', c') ∧ (c'.info = con.info ∨ c'.info = some (attach_info l con).1) ∧
      Holds l' (Attached live c') q' ∧ shown l' q' = w' ∧ shown_con l' q' c' = con' ∧ Same (Apart live c') l q l' q' := by
  by_cases none : bytes.length = 0
  · rw [ConBuf.con_buf_write, if_pos none] at executed
    cases executed
    refine ⟨l, con, q, by rw [con_buf_write, if_pos none], .inl rfl, ?_, rfl, rfl, ⟨fun _ _ => rfl, fun _ _ _ _ => rfl⟩⟩
    refine holds_fewer ?_ (.inl holds.pool) holds
    rintro h (old | ⟨info, given, rfl⟩)
    · exact old
    · exact known info given
  · obtain ⟨q₁, holds₁, attached, same₁⟩ := attach_linked holds known
    obtain ⟨l₂, q₂, room, holds₂, filled, shown₂, data₂, same₂⟩ := make_room_linked holds₁ (.inl rfl)
    have last := last_queues holds₂.queues (.inl rfl)
    rw [ConBuf.con_buf_write, if_neg none, attached] at executed
    simp only [← shown₂, ← data₂] at executed
    rcases List.eq_nil_or_concat (q₂ (.data (attach_info l con).1.block)) with empty | ⟨front, buf, whole⟩
    · exact absurd empty filled
    · rw [List.concat_eq_append] at whole
      simp only [data, whole, List.map_append, List.map_singleton, List.getLast?_concat, List.dropLast_concat] at executed
      cases ran : ConBuf.con_buf_write_loop (attach_info l con).1.block (bytes.length + 1) (shown l₂ q₂)
          (front.map l₂.mem) (l₂.mem buf) bytes with
      | none => simp [ran] at executed
      | some result =>
        obtain ⟨w, queue, counted⟩ := result
        obtain ⟨l₃, q₃, looped, holds₃, shown₃, data₃, same₃⟩ := write_loop_linked holds₂ (.inl rfl) whole ran
        simp only [ran, Option.some.injEq, Prod.mk.injEq] at executed
        obtain ⟨rfl, rfl⟩ := executed
        obtain ⟨c', result, given⟩ : ∃ c' : Connection, (if counted then
            { con with info := some (attach_info l con).1, data_size := con.data_size + bytes.length }
            else { con with info := some (attach_info l con).1 }) = c' ∧ c'.info = some (attach_info l con).1 :=
          ⟨_, rfl, by split <;> rfl⟩
        have only : ∀ info, c'.info = some info → info = (attach_info l con).1 :=
          fun info same => Option.some.inj (same.symm.trans given)
        refine ⟨l₃, c', q₃, ?_, .inr given, ?_, shown₃, ?_, ?_⟩
        · rw [con_buf_write, if_neg none]
          simp only [room, last, whole, List.getLast?_concat, looped, Option.bind_eq_bind, Option.bind_some]
          rw [← result]
        · refine holds_fewer ?_ (.inl holds.pool) holds₃
          rintro h (old | ⟨info, attachedTo, rfl⟩)
          · exact .inr old
          · exact .inl (by rw [only info attachedTo])
        · subst result
          split <;> simp [shown_con, data₃]
        · have others : ∀ h, Apart live c' h → Others live (attach_info l con).1.block h :=
            fun h apart => ⟨apart.1, apart.2 _ given⟩
          have whole' := same₁.trans ⟨fun other old => (same₂.trans same₃).queue other ⟨.inr old.1, old.2⟩,
            fun other old => (same₂.trans same₃).mem other ⟨.inr old.1, old.2⟩⟩
          exact ⟨fun other old => whole'.queue other (others _ old), fun other old => whole'.mem other (others _ old)⟩

theorem con_buf_read_linked {con con' : Connection} {w' : World} {len : Nat} {reply : ConBuf.Reply} (holds : Holds l live q)
    (known : ∀ info, con.info = some info → live (.data info.block))
    (executed : ConBuf.con_buf_read (shown l q) (shown_con l q con) len = some (w', con', reply)) :
    ∃ l' c' q', con_buf_read l con len = some (l', c', reply) ∧ c'.info = con.info ∧ Holds l' live q' ∧
      shown l' q' = w' ∧ shown_con l' q' c' = con' ∧ Same (Apart live con) l q l' q' := by
  cases given : con.info with
  | none => simp [ConBuf.con_buf_read, shown_con, given] at executed
  | some info =>
    have liveInfo := known info given
    obtain ⟨l', q', ran, holds', shown', data', same⟩ := read_loop_linked len
      (if (len : Int) > con.data_size then con.data_size else len) ⟨0, []⟩ holds liveInfo (steps_enough holds liveInfo)
    rcases listed : ConBuf.con_buf_read_loop len (data l q info.block) (shown l q)
      (if (len : Int) > con.data_size then con.data_size else len) ⟨0, []⟩ with ⟨w, queue, taken⟩
    rw [listed] at ran shown' data'
    simp only [ConBuf.con_buf_read, shown_con, given, Option.map_some, listed, Option.some.injEq, Prod.mk.injEq] at executed
    obtain ⟨rfl, rfl, rfl⟩ := executed
    refine ⟨l', { con with data_size := con.data_size - taken.ret }, q', ?_, given, holds', shown', ?_, ?_⟩
    · simp only [con_buf_read, given, Option.bind_eq_bind, Option.bind_some, ran]
    · simp [shown_con, given, data']
    · exact ⟨fun other old => same.queue other ⟨old.1, old.2 info given⟩,
        fun other old => same.mem other ⟨old.1, old.2 info given⟩⟩

theorem con_buf_peek_linked {con : Connection} (holds : Holds l live q)
    (known : ∀ info, con.info = some info → live (.data info.block)) (len : Nat) :
    con_buf_peek l con len = some (ConBuf.con_buf_peek (shown_con l q con) len) := by
  cases given : con.info with
  | none => simp [con_buf_peek, ConBuf.con_buf_peek, shown_con, given]
  | some info =>
    obtain ⟨e, seg, stop, _⟩ := queues_last holds.queues (known info given)
    have walked := peek_loop_linked stop len ⟨0, []⟩ seg (steps_enough holds (known info given))
    simp only [con_buf_peek, ConBuf.con_buf_peek, shown_con, given, Option.map_some]
    exact walked

theorem connection_buf_free_linked {con : Connection} (holds : Holds l live q)
    (known : ∀ info, con.info = some info → live (.data info.block)) :
    ∃ l' q', connection_buf_free l con = some l' ∧ Holds l' live q' ∧
      (shown l' q', shown_con l' q' con) = ConBuf.connection_buf_free (shown l q) (shown_con l q con) ∧
      Same (Apart live con) l q l' q' := by
  cases given : con.info with
  | none =>
    refine ⟨l, q, by simp [connection_buf_free, given], holds, ?_, ⟨fun _ _ => rfl, fun _ _ _ _ => rfl⟩⟩
    simp [ConBuf.connection_buf_free, shown_con, given]
  | some info =>
    have liveInfo := known info given
    obtain ⟨l', q', ran, holds', empty, shown', same⟩ := free_loop_linked holds liveInfo (steps_enough holds liveInfo)
    refine ⟨l', q', by simp [connection_buf_free, given, ran], holds', ?_, ?_⟩
    · simp [ConBuf.connection_buf_free, shown_con, given, shown', data, empty]
    · exact ⟨fun other old => same.queue other ⟨old.1, old.2 info given⟩,
        fun other old => same.mem other ⟨old.1, old.2 info given⟩⟩

end

end TcpLearn.LinkedMbufs
