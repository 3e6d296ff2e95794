import TcpLearn.Accounting
import TcpLearn.Client

/-!
# The server

`TcpServer` of `server.cc` and the descriptors the kernel keeps for it. A
connection is named by the number of calls of `su_accept` before the one that
returned it, and so is the client `Process` creates right after it; the connection
structure of that client is the one with this handle. An event carries what the
kernel answers while it is handled: the result of `su_accept`, or the bytes that
the calls of `su_tcp_recv` return until one returns nothing or an error.

`received` and `delivered` record what `su_tcp_recv` returned for each connection
and what `OnNewData` of each client was given, `stale` the calls on numbers that
were not open, `deleted` the clients deleted.
-/
namespace TcpLearn.Server
open TcpLearn.Memory TcpLearn.ConBuf TcpLearn.Chain TcpLearn.Contexts TcpLearn.Pools TcpLearn.Runs
open TcpLearn.Client (mbuf_size)

/-! ## Maps -/

/-- `std::map::find`. -/
def map_find (m : List (Int × Nat)) (key : Int) : Option Nat := (m.find? fun e => e.1 = key).map Prod.snd

/-- `std::map::insert`, which leaves the entry of a key that is there as it is. -/
def map_insert (m : List (Int × Nat)) (key : Int) (value : Nat) : List (Int × Nat) :=
  if (map_find m key).isSome then m
  else m.takeWhile (fun e => e.1 < key) ++ (key, value) :: m.dropWhile (fun e => e.1 < key)

theorem map_find_none {m : List (Int × Nat)} {key : Int} : map_find m key = none ↔ ∀ v, (key, v) ∉ m := by
  simp only [map_find, Option.map_eq_none_iff, List.find?_eq_none, decide_eq_true_eq]
  constructor
  · intro absent v member
    exact absent _ member rfl
  · rintro absent ⟨k, v⟩ member rfl
    exact absent v member

theorem map_find_some {m : List (Int × Nat)} (distinct : (m.map Prod.fst).Nodup) {key : Int} {v : Nat} :
    map_find m key = some v ↔ (key, v) ∈ m := by
  constructor
  · intro found
    obtain ⟨⟨k, w⟩, here, rfl⟩ := Option.map_eq_some_iff.mp found
    have same : k = key := by simpa using List.find?_some here
    exact same ▸ List.mem_of_find?_eq_some here
  · intro member
    cases found : map_find m key with
    | none => exact absurd member (map_find_none.mp found v)
    | some w =>
      obtain ⟨⟨k, w'⟩, here, rfl⟩ := Option.map_eq_some_iff.mp found
      have same : k = key := by simpa using List.find?_some here
      have other := List.mem_of_find?_eq_some here
      have one := List.inj_on_of_nodup_map distinct other member same
      rw [Prod.mk.injEq] at one
      exact congrArg some one.2

theorem insert_perm {m : List (Int × Nat)} {key : Int} (absent : map_find m key = none) (v : Nat) :
    (map_insert m key v).Perm ((key, v) :: m) := by
  rw [map_insert, absent]
  simp only [Option.isSome_none, Bool.false_eq_true, ↓reduceIte]
  apply List.perm_middle.trans
  rw [List.takeWhile_append_dropWhile]

theorem insert_present {m : List (Int × Nat)} {key : Int} {w : Nat} (present : map_find m key = some w) (v : Nat) :
    map_insert m key v = m := by
  rw [map_insert, present]
  rfl

/-! ## The code -/

/-- The calls on a descriptor that `stale` records. -/
inductive Call where
  | recv | close | epoll_ctl
deriving DecidableEq

structure TcpServer where
  /-- `context_` and the connections of the clients. -/
  pool : Pool
  clients_ : List (Int × Nat)
  listenfd_ : Int
  /-- The descriptors of the process that are not of accepted connections. -/
  others : List Int
  /-- The open descriptors of accepted connections. -/
  sockets : List (Int × Nat)
  /-- What the calls of `su_accept` returned. -/
  accepted : List Int
  received : List (Nat × List UInt8)
  delivered : List (Nat × List UInt8)
  stale : List (Call × Int)
  deleted : List Nat

/-- The buffers of the server have room. -/
theorem server_capacity (junk : Nat → Nat → UInt8) : 1 ≤ (context_new (no_blocks junk) mbuf_size).ctx.mbuf_offset := by
  show 1 ≤ ((mbuf_size - sizeof_mbuf) % 2 ^ 64).toNat
  decide

/-- The constructor, with the listening descriptor and the others of the process. -/
def TcpServer_new (junk : Nat → Nat → UInt8) (listenfd : Int) (others : List Int) : TcpServer :=
  ⟨start (context_new (no_blocks junk) mbuf_size), [], listenfd, listenfd :: others, [], [], [], [], [], []⟩

structure Event where
  /-- `events[i].data.fd`. -/
  data_fd : Int
  epollin : Bool
  epollrdhup : Bool
  /-- What `su_accept` returns. -/
  accept : Int
  /-- What the calls of `su_tcp_recv` return before one returns nothing or an error. -/
  pending : List (List UInt8)

/-- A call on a descriptor. -/
def called (s : TcpServer) (call : Call) (fd : Int) : TcpServer :=
  if (map_find s.sockets fd).isSome then s else { s with stale := s.stale ++ [(call, fd)] }

/-- The bytes received, none if the result is not positive. -/
def su_tcp_recv (s : TcpServer) (fd : Int) (pending : List (List UInt8)) : List UInt8 × TcpServer :=
  match map_find s.sockets fd, pending with
  | some k, bytes :: _ => (bytes, { s with received := s.received ++ [(k, bytes)] })
  | some _, [] => ([], s)
  | none, _ => ([], called s .recv fd)

def su_socket_destroy (s : TcpServer) (fd : Int) : TcpServer :=
  { called s .close fd with sockets := s.sockets.filter fun e => e.1 ≠ fd }

/-- `epoll_ctl`: the kernel forgets a descriptor when it is closed. -/
def epoll_ctl (s : TcpServer) (fd : Int) : TcpServer := called s .epoll_ctl fd

/-- `it->second->OnNewData` unless `it` is the end of the map. -/
def on_new_data (s : TcpServer) (it : Option Nat) (bytes : List UInt8) : Option TcpServer :=
  match it with
  | none => some s
  | some client => do
    let c ← s.pool.handles[client]?
    let (w, con_, _) ← Client.OnNewData none s.pool.world (s.pool.con c) bytes
    some { s with pool := s.pool.set w c con_, delivered := s.delivered ++ [(client, bytes)] }

/-- The loop `for(;;)` that reads until `su_tcp_recv` returns no bytes. -/
def drain_loop (fd : Int) (it : Option Nat) : List (List UInt8) → TcpServer → Option TcpServer
  | [], s => some (su_tcp_recv s fd []).2
  | bytes :: pending, s =>
    let (buf, s) := su_tcp_recv s fd (bytes :: pending)
    if buf ≠ [] then do
      let s ← on_new_data s it buf
      drain_loop fd it pending s
    else some s

/-- The branch for `EPOLLIN`. -/
def epoll_in (s : TcpServer) (con_fd : Int) (pending : List (List UInt8)) : Option TcpServer := do
  let (buf, s) := su_tcp_recv s con_fd pending
  let s := if buf = [] then epoll_ctl (su_socket_destroy s con_fd) con_fd else s
  let it := map_find s.clients_ con_fd
  let s ← if buf ≠ [] then on_new_data s it buf else some s
  drain_loop con_fd it pending.tail s

/-- `su_accept` and the branch for the listening descriptor. -/
def accept (s : TcpServer) (con_fd : Int) : Option TcpServer := do
  let client := s.accepted.length
  let s := { s with
    accepted := s.accepted ++ [con_fd]
    sockets := if 0 ≤ con_fd then (con_fd, client) :: s.sockets else s.sockets }
  let pool ← step s.pool .new
  let s := { s with pool := pool, clients_ := map_insert s.clients_ con_fd client }
  some (epoll_ctl s con_fd)

/-- What `Process` does with one event. -/
def handle (s : TcpServer) (e : Event) : Option TcpServer :=
  if e.data_fd = s.listenfd_ then accept s e.accept
  else do
    let s ← if e.epollin then epoll_in s e.data_fd e.pending else some s
    some (if e.epollrdhup then epoll_ctl (su_socket_destroy s e.data_fd) e.data_fd else s)

/-- An iteration of the loop of `Process` over the events of one `epoll_wait`. -/
def iteration (s : TcpServer) (events : List Event) : Option TcpServer := run handle s events

/-- The loop of `~TcpServer`, which deletes the clients of the map. -/
def delete_clients : List (Int × Nat) → TcpServer → Option TcpServer
  | [], s => some { s with clients_ := [] }
  | (_, client) :: rest, s => do
    let s := { s with clients_ := rest }
    let pool ← step s.pool (.recycle client)
    delete_clients rest { s with pool := pool, deleted := s.deleted ++ [client] }

/-- `~TcpServer`, with what `context_free_content` returns. -/
def TcpServer_destroy (s : TcpServer) : Option (Int × TcpServer) := do
  let s ← delete_clients s.clients_ s
  let s := { s with others := s.others.filter fun fd => fd ≠ s.listenfd_ }
  let (ret, w) := context_free_content s.pool.world
  some (ret, { s with pool := { s.pool with world := { w with heap := context_destroy w } } })

/-- Descriptors that `su_accept` cannot return. -/
def occupied (s : TcpServer) : List Int := s.others ++ s.sockets.map Prod.fst

/-- What the kernel does: `su_accept` fails or returns a number that is not in use,
    events come for open descriptors, and `su_tcp_recv` fills at most its buffer. -/
structure Issued (s : TcpServer) (e : Event) : Prop where
  accept : e.data_fd = s.listenfd_ → e.accept = -1 ∨ 0 ≤ e.accept ∧ e.accept ∉ occupied s
  client : e.data_fd ≠ s.listenfd_ → e.data_fd ∈ s.sockets.map Prod.fst
  pending : ∀ bytes ∈ e.pending, bytes ≠ [] ∧ bytes.length ≤ 1500

/-- The kernel gives a connection the lowest number that is not in use. -/
def Lowest (s : TcpServer) (e : Event) : Prop :=
  e.data_fd = s.listenfd_ → e.accept ∉ occupied s ∧ ∀ n : Nat, (n : Int) < e.accept → (n : Int) ∈ occupied s

def listening (con_fd : Int) : Event := ⟨3, true, false, con_fd, []⟩
def bytes_on (fd : Int) (pending : List (List UInt8)) : Event := ⟨fd, true, false, 0, pending⟩
def hung_up (fd : Int) : Event := ⟨fd, false, true, 0, []⟩

/-- The listening descriptor is 3. -/
def first_server : TcpServer := TcpServer_new (fun _ _ => 0) 3 [0, 1, 2, 4]

theorem issued_listening {s : TcpServer} (three : s.listenfd_ = 3) {con_fd : Int}
    (free : 0 ≤ con_fd ∧ con_fd ∉ occupied s) : Issued s (listening con_fd) :=
  ⟨fun _ => .inr free, fun other => absurd three.symm other, by simp [listening]⟩

theorem issued_client {s : TcpServer} {e : Event} (other : e.data_fd ≠ s.listenfd_)
    (opened : e.data_fd ∈ s.sockets.map Prod.fst) (pending : ∀ bytes ∈ e.pending, bytes ≠ [] ∧ bytes.length ≤ 1500) :
    Issued s e :=
  ⟨fun same => absurd same other, fun _ => opened, pending⟩

theorem lowest_five {s : TcpServer} {e : Event} (five : e.accept = 5) (used : occupied s = [3, 0, 1, 2, 4]) :
    Lowest s e := by
  intro _
  rw [five, used]
  refine ⟨by decide, ?_⟩
  intro n below
  have small : n < 5 := by omega
  interval_cases n <;> decide

/-! ## The clients and the kernel -/

/-- The first call of `su_accept` that returned the number. -/
def First (accepted : List Int) (fd : Int) (i : Nat) : Prop :=
  accepted[i]? = some fd ∧ ∀ j < i, accepted[j]? ≠ some fd

/-- The bytes `OnNewData` of the client was given. -/
def delivered_to (i : Nat) (s : TcpServer) : List (List UInt8) := (s.delivered.filter fun e => e.1 = i).map Prod.snd
/-- The bytes received on the connection. -/
def received_on (i : Nat) (s : TcpServer) : List (List UInt8) := (s.received.filter fun e => e.1 = i).map Prod.snd

structure Inv (s : TcpServer) : Prop where
  /-- No connection is given back before the destructor runs. -/
  pool : Accounting.Inv s.pool []
  handles : s.pool.handles.length = s.accepted.length
  keys : (s.clients_.map Prod.fst).Nodup
  /-- A number stays with the client of the first connection that had it. -/
  entries : ∀ fd i, (fd, i) ∈ s.clients_ ↔ First s.accepted fd i
  descriptors : (s.sockets.map Prod.fst).Nodup
  /-- A number is open for the last connection that was given it. -/
  sockets : ∀ fd k, (fd, k) ∈ s.sockets → 0 ≤ fd ∧ s.accepted[k]? = some fd ∧ ∀ j, s.accepted[j]? = some fd → j ≤ k
  /-- The buffer of a client holds what the client was given. -/
  buffers : ∀ i c, s.pool.handles[i]? = some c →
    ∃ off, Holds s.pool.world.ctx.mbuf_offset off (queued (s.pool.con c)) (delivered_to i s).flatten
  delivered : ∀ e ∈ s.delivered, e.1 < s.accepted.length
  received : ∀ e ∈ s.received, e.1 < s.accepted.length

theorem new_inv (junk : Nat → Nat → UInt8) (listenfd : Int) (others : List Int) :
    Inv (TcpServer_new junk listenfd others) where
  pool := Accounting.start_inv junk (server_capacity junk)
  handles := rfl
  keys := List.nodup_nil
  entries := by simp [TcpServer_new, First]
  descriptors := List.nodup_nil
  sockets := by simp [TcpServer_new]
  buffers := by simp [TcpServer_new, start]
  delivered := by simp [TcpServer_new]
  received := by simp [TcpServer_new]

variable {s s' : TcpServer}

/-- Every number accepted has a first call that returned it. -/
theorem first_exists {accepted : List Int} {fd : Int} {k : Nat} (at_k : accepted[k]? = some fd) :
    ∃ i ≤ k, First accepted fd i := by
  induction k using Nat.strongRecOn with
  | ind k ih =>
    by_cases earlier : ∃ j < k, accepted[j]? = some fd
    · obtain ⟨j, before, at_j⟩ := earlier
      obtain ⟨i, below, first⟩ := ih j before at_j
      exact ⟨i, by omega, first⟩
    · exact ⟨k, Nat.le_refl k, at_k, fun j before at_j => earlier ⟨j, before, at_j⟩⟩

/-! ## Data for a client -/

theorem OnNewData_none (w : World) (con : Connection) (data : List UInt8) :
    Client.OnNewData none w con data = (con_buf_write w con data).map fun r => (r.1, r.2, []) := by
  unfold Client.OnNewData Client.NotifyDataAvailable
  cases con_buf_write w con data with
  | none => rfl
  | some r =>
    simp only [Option.bind_eq_bind, Option.bind_some, Option.map_some]
    split_ifs <;> rfl

/-- A chunk given to a client joins its buffer and no other. -/
theorem pool_write {p : Pool} (inv : Accounting.Inv p []) {i : Nat} (inside : i < p.handles.length) (data : List UInt8) :
    ∃ p', step p (.write i data) = some p' ∧ Accounting.Inv p' [] ∧ p'.handles = p.handles ∧
      p'.world.ctx.mbuf_offset = p.world.ctx.mbuf_offset ∧
      ∀ j c off bs, p.handles[j]? = some c → Holds p.world.ctx.mbuf_offset off (queued (p.con c)) bs →
        Holds p.world.ctx.mbuf_offset off (queued (p'.con c)) (if j = i then bs ++ data else bs) := by
  have found : p.handles[i]? = some p.handles[i] := List.getElem?_eq_getElem inside
  have used : p.handles[i] ∈ p.inUse := by simpa using inv.handed.mem_iff.mp (List.getElem_mem inside)
  obtain ⟨p', stepped, after⟩ : ∃ p', step p (.write i data) = some p' ∧ Accounting.Inv p' [] :=
    Accounting.inv_write inv ⟨_, found, used⟩
  refine ⟨p', stepped, after, ?_⟩
  obtain ⟨c, w, con, here, executed, rfl⟩ := step_write.mp stepped
  cases found.symm.trans here
  refine ⟨rfl, (Frame.keeps_write executed).offset, ?_⟩
  intro j c off bs at_j holds
  by_cases same : j = i
  · subst same
    cases found.symm.trans at_j
    obtain ⟨w', con', again, _, holds', _⟩ := con_buf_write_spec rfl holds data
    cases executed.symm.trans again
    simpa using holds'
  · have distinct : p.handles.Nodup := inv.handed.nodup_iff.mpr (by simpa using Accounting.inv_distinct inv)
    have apart : c ≠ p.handles[i] := by
      rintro rfl
      obtain ⟨below, equal⟩ := List.getElem?_eq_some_iff.mp at_j
      exact same ((List.Nodup.getElem_inj_iff distinct).mp equal)
    rw [if_neg same, set_con_other _ _ _ _ apart]
    exact holds

/-- What handling data changes: the buffers and the records of bytes. -/
structure Takes (k i : Nat) (pending : List (List UInt8)) (s s' : TcpServer) : Prop where
  received : s'.received = s.received ++ pending.map (Prod.mk k)
  delivered : s'.delivered = s.delivered ++ pending.map (Prod.mk i)
  clients_ : s'.clients_ = s.clients_
  listenfd_ : s'.listenfd_ = s.listenfd_
  others : s'.others = s.others
  sockets : s'.sockets = s.sockets
  accepted : s'.accepted = s.accepted
  stale : s'.stale = s.stale
  deleted : s'.deleted = s.deleted

theorem takes_nil (k i : Nat) (s : TcpServer) : Takes k i [] s s := by
  constructor <;> simp

theorem delivered_concat (s : TcpServer) (pool : Pool) (received : List (Nat × List UInt8)) (i j : Nat)
    (bytes : List UInt8) :
    delivered_to j { s with pool := pool, received := received, delivered := s.delivered ++ [(i, bytes)] } =
      delivered_to j s ++ if i = j then [bytes] else [] := by
  simp only [delivered_to, List.filter_append, List.map_append, List.filter_singleton]
  split_ifs with same <;> simp [same]

/-- Bytes received on an open descriptor are given to the client of the number. -/
theorem receive_spec (inv : Inv s) {fd : Int} {k i : Nat} (here : (fd, k) ∈ s.sockets) (known : i < s.accepted.length)
    (bytes : List UInt8) (pending : List (List UInt8)) :
    ∃ s₁ s', su_tcp_recv s fd (bytes :: pending) = (bytes, s₁) ∧ on_new_data s₁ (some i) bytes = some s' ∧ Inv s' ∧
      Takes k i [bytes] s s' ∧ s₁.clients_ = s.clients_ := by
  have found := (map_find_some inv.descriptors).mpr here
  obtain ⟨p', stepped, after, handles, offset, holds⟩ := pool_write inv.pool (inv.handles ▸ known) bytes
  obtain ⟨c, w, con, at_i, executed, rfl⟩ := step_write.mp stepped
  refine ⟨{ s with received := s.received ++ [(k, bytes)] },
    { s with
      pool := s.pool.set w c con, received := s.received ++ [(k, bytes)], delivered := s.delivered ++ [(i, bytes)] },
    by simp only [su_tcp_recv, found], ?_, ?_, ?_, rfl⟩
  · simp only [on_new_data, at_i, Option.bind_eq_bind, Option.bind_some, OnNewData_none, executed, Option.map_some]
  · obtain ⟨_, at_k, _⟩ := inv.sockets fd k here
    have inside : k < s.accepted.length := (List.getElem?_eq_some_iff.mp at_k).1
    refine ⟨after, inv.handles, inv.keys, inv.entries, inv.descriptors, inv.sockets, ?_, ?_, ?_⟩
    · intro j c' at_j
      obtain ⟨off, before⟩ := inv.buffers j c' at_j
      refine ⟨off, ?_⟩
      have grown := holds j c' off _ at_j before
      rw [← offset] at grown
      rw [delivered_concat]
      by_cases same : i = j
      · subst same
        simpa using grown
      · simpa [same, Ne.symm same] using grown
    · intro e member
      rcases List.mem_append.mp member with earlier | last
      · exact inv.delivered e earlier
      · rw [List.mem_singleton.mp last]
        exact known
    · intro e member
      rcases List.mem_append.mp member with earlier | last
      · exact inv.received e earlier
      · rw [List.mem_singleton.mp last]
        exact inside
  · constructor <;> rfl

/-- The loop takes all that is pending. -/
theorem drain_spec (inv : Inv s) {fd : Int} {k i : Nat} (here : (fd, k) ∈ s.sockets) (known : i < s.accepted.length)
    {pending : List (List UInt8)} (some_bytes : ∀ bytes ∈ pending, bytes ≠ []) :
    ∃ s', drain_loop fd (some i) pending s = some s' ∧ Inv s' ∧ Takes k i pending s s' := by
  induction pending generalizing s with
  | nil =>
    have found := (map_find_some inv.descriptors).mpr here
    exact ⟨s, by simp only [drain_loop, su_tcp_recv, found], inv, takes_nil k i s⟩
  | cons bytes pending ih =>
    obtain ⟨s₁, s₂, received, delivered, inv₂, takes, _⟩ := receive_spec inv here known bytes pending
    obtain ⟨s', drained, inv', more⟩ := ih inv₂ (takes.sockets ▸ here) (takes.accepted ▸ known)
      fun b member => some_bytes b (by simp [member])
    refine ⟨s', ?_, inv', ?_⟩
    · simp only [drain_loop, received, ne_eq, some_bytes bytes (by simp), not_false_eq_true, ↓reduceIte, delivered,
        Option.bind_eq_bind, Option.bind_some, drained]
    · obtain ⟨r, d, c, l, o, so, a, st, de⟩ := takes
      obtain ⟨r', d', c', l', o', so', a', st', de'⟩ := more
      exact ⟨by simp [r', r], by simp [d', d], c'.trans c, l'.trans l, o'.trans o, so'.trans so, a'.trans a,
        st'.trans st, de'.trans de⟩

/-! ## Closing a descriptor -/

theorem called_open {fd : Int} {k : Nat} (descriptors : (s.sockets.map Prod.fst).Nodup) (here : (fd, k) ∈ s.sockets)
    (call : Call) : called s call fd = s := by
  rw [called, (map_find_some descriptors).mpr here]
  rfl

theorem called_stale {fd : Int} (absent : ∀ k, (fd, k) ∉ s.sockets) (call : Call) :
    called s call fd = { s with stale := s.stale ++ [(call, fd)] } := by
  rw [called, map_find_none.mpr absent]
  rfl

/-- `su_socket_destroy` and the `epoll_ctl` after it. -/
def shut (s : TcpServer) (fd : Int) : TcpServer := epoll_ctl (su_socket_destroy s fd) fd

/-- The records that closing descriptors adds to. -/
structure Shuts (fd : Int) (s s' : TcpServer) : Prop where
  pool : s'.pool = s.pool
  received : s'.received = s.received
  delivered : s'.delivered = s.delivered
  clients_ : s'.clients_ = s.clients_
  listenfd_ : s'.listenfd_ = s.listenfd_
  others : s'.others = s.others
  accepted : s'.accepted = s.accepted
  deleted : s'.deleted = s.deleted
  sockets : s'.sockets = s.sockets.filter fun e => e.1 ≠ fd
  stale : s.stale <+: s'.stale
  misused : (.epoll_ctl, fd) ∈ s'.stale

theorem called_cases (s : TcpServer) (call : Call) (fd : Int) :
    called s call fd = { s with stale := (called s call fd).stale } ∧ s.stale <+: (called s call fd).stale := by
  unfold called
  split_ifs
  · exact ⟨rfl, List.prefix_refl _⟩
  · exact ⟨rfl, List.prefix_append _ _⟩

theorem shut_spec (s : TcpServer) (fd : Int) : Shuts fd s (shut s fd) := by
  obtain ⟨same, grown⟩ := called_cases s .close fd
  have absent : ∀ k, (fd, k) ∉ (su_socket_destroy s fd).sockets := by simp [su_socket_destroy]
  have last := called_stale absent .epoll_ctl
  rw [shut, epoll_ctl, last, su_socket_destroy, same]
  exact ⟨rfl, rfl, rfl, rfl, rfl, rfl, rfl, rfl, rfl, grown.trans (List.prefix_append _ _), by simp⟩

theorem shuts_inv (inv : Inv s) {fd : Int} (shuts : Shuts fd s s') : Inv s' := by
  obtain ⟨pool, received, delivered, clients, _, _, accepted, _, sockets, _, _⟩ := shuts
  refine ⟨by rw [pool]; exact inv.pool, by rw [pool, accepted]; exact inv.handles, by rw [clients]; exact inv.keys, ?_,
    ?_, ?_, ?_, ?_, ?_⟩
  · rw [clients, accepted]
    exact inv.entries
  · rw [sockets]
    exact inv.descriptors.sublist (List.filter_sublist.map _)
  · intro other k member
    rw [sockets] at member
    rw [accepted]
    exact inv.sockets other k (List.mem_of_mem_filter member)
  · rw [pool]
    simp only [delivered_to, delivered]
    exact inv.buffers
  · rw [delivered, accepted]
    exact inv.delivered
  · rw [received, accepted]
    exact inv.received

/-! ## Events of a connection -/

/-- No descriptor is closed and no call of `su_accept` fails. -/
def Quiet (listenfd : Int) (e : Event) : Prop :=
  if e.data_fd = listenfd then 0 ≤ e.accept else e.epollrdhup = false ∧ (e.epollin = true → e.pending ≠ [])

/-- What handling an event of a connection changes. -/
structure Serves (fd : Int) (k i : Nat) (pending : List (List UInt8)) (quiet : Prop) (s s' : TcpServer) : Prop where
  received : s'.received = s.received ++ pending.map (Prod.mk k)
  delivered : s'.delivered = s.delivered ++ pending.map (Prod.mk i)
  clients_ : s'.clients_ = s.clients_
  listenfd_ : s'.listenfd_ = s.listenfd_
  others : s'.others = s.others
  accepted : s'.accepted = s.accepted
  deleted : s'.deleted = s.deleted
  stale : s.stale <+: s'.stale
  kept : quiet → s'.sockets = s.sockets ∧ s'.stale = s.stale
  misused : ¬ quiet → (.epoll_ctl, fd) ∈ s'.stale

theorem epoll_in_spec (inv : Inv s) {fd : Int} {k i : Nat} (here : (fd, k) ∈ s.sockets) (first : First s.accepted fd i)
    {pending : List (List UInt8)} (some_bytes : ∀ bytes ∈ pending, bytes ≠ []) :
    ∃ s', epoll_in s fd pending = some s' ∧ Inv s' ∧ Serves fd k i pending (pending ≠ []) s s' := by
  have open_ := (map_find_some inv.descriptors).mpr here
  have known : i < s.accepted.length := (List.getElem?_eq_some_iff.mp first.1).1
  cases pending with
  | nil =>
    have shuts := shut_spec s fd
    have inv₁ := shuts_inv inv shuts
    have absent : ∀ k, (fd, k) ∉ (shut s fd).sockets := by simp [shuts.sockets]
    obtain ⟨same, grown⟩ := called_cases (shut s fd) .recv fd
    have executed : epoll_in s fd [] = some (called (shut s fd) .recv fd) := by
      have found := map_find_none.mpr absent
      simp only [shut] at found
      simp [epoll_in, su_tcp_recv, open_, drain_loop, shut, found]
    refine ⟨_, executed, ?_, ?_⟩
    · rw [same]
      exact ⟨inv₁.pool, inv₁.handles, inv₁.keys, inv₁.entries, inv₁.descriptors, inv₁.sockets, inv₁.buffers,
        inv₁.delivered, inv₁.received⟩
    · obtain ⟨_, received, delivered, clients, listenfd, others, accepted, deleted, _, stale, misused⟩ := shuts
      rw [same]
      exact ⟨by simp [received], by simp [delivered], clients, listenfd, others, accepted, deleted, stale.trans grown,
        fun some => absurd rfl some, fun _ => grown.subset misused⟩
  | cons bytes pending =>
    obtain ⟨s₁, s₂, received, delivered, inv₂, takes, clients⟩ := receive_spec inv here known bytes pending
    have others : ∀ b ∈ pending, b ≠ [] := fun b member => some_bytes b (by simp [member])
    obtain ⟨s', drained, inv', more⟩ := drain_spec inv₂ (takes.sockets ▸ here) (takes.accepted ▸ known) others
    have client : map_find s₁.clients_ fd = some i := by
      rw [clients, map_find_some inv.keys]
      exact (inv.entries fd i).mpr first
    have nonempty := some_bytes bytes (by simp)
    refine ⟨s', ?_, inv', ?_⟩
    · simp only [epoll_in, received, nonempty, ↓reduceIte, client, ne_eq, not_false_eq_true, delivered,
        Option.bind_eq_bind, Option.bind_some, List.tail_cons, drained]
    · obtain ⟨r, d, c, l, o, so, a, st, de⟩ := takes
      obtain ⟨r', d', c', l', o', so', a', st', de'⟩ := more
      exact ⟨by simp [r', r], by simp [d', d], c'.trans c, l'.trans l, o'.trans o, a'.trans a, de'.trans de,
        by rw [st', st], fun _ => ⟨so'.trans so, st'.trans st⟩, fun none => absurd (List.cons_ne_nil _ _) none⟩

/-- The bytes an event brings. -/
def brings (e : Event) : List (List UInt8) := if e.epollin then e.pending else []

/-- An event of an open descriptor gives its bytes to the client of the number. -/
theorem handle_client (inv : Inv s) {e : Event} (other : e.data_fd ≠ s.listenfd_) {k i : Nat}
    (here : (e.data_fd, k) ∈ s.sockets) (first : First s.accepted e.data_fd i)
    (some_bytes : ∀ bytes ∈ e.pending, bytes ≠ []) :
    ∃ s', handle s e = some s' ∧ Inv s' ∧ Serves e.data_fd k i (brings e) (Quiet s.listenfd_ e) s s' := by
  obtain ⟨s₁, read, inv₁, serves⟩ : ∃ s₁, (if e.epollin then epoll_in s e.data_fd e.pending else some s) = some s₁ ∧
      Inv s₁ ∧ Serves e.data_fd k i (brings e) (e.epollin = true → e.pending ≠ []) s s₁ := by
    by_cases readable : e.epollin = true
    · obtain ⟨s₁, executed, inv₁, r, d, c, l, o, a, de, st, kept, misused⟩ := epoll_in_spec inv here first some_bytes
      simp only [readable, ↓reduceIte, executed, brings, forall_const]
      exact ⟨s₁, rfl, inv₁, r, d, c, l, o, a, de, st, kept, misused⟩
    · simp only [readable, Bool.false_eq_true, ↓reduceIte, brings, false_implies]
      exact ⟨s, rfl, inv, by simp, by simp, rfl, rfl, rfl, rfl, rfl, List.prefix_refl _, fun _ => ⟨rfl, rfl⟩,
        fun never => absurd trivial never⟩
  obtain ⟨r, d, c, l, o, a, de, st, kept, misused⟩ := serves
  have executed : handle s e = some (if e.epollrdhup then shut s₁ e.data_fd else s₁) := by
    by_cases readable : e.epollin = true
    · rw [if_pos readable] at read
      simp only [handle, other, ↓reduceIte, readable, read, Option.bind_eq_bind, Option.bind_some, shut]
    · rw [if_neg readable] at read
      cases read
      simp [handle, other, readable, shut]
  simp only [Quiet, if_neg other]
  cases hup : e.epollrdhup with
  | false =>
    refine ⟨s₁, by simpa [hup] using executed, inv₁, r, d, c, l, o, a, de, st, fun quiet => kept quiet.2, ?_⟩
    intro loud
    exact misused fun readable => loud ⟨rfl, readable⟩
  | true =>
    have shuts := shut_spec s₁ e.data_fd
    refine ⟨shut s₁ e.data_fd, by simpa [hup] using executed, shuts_inv inv₁ shuts, ?_⟩
    obtain ⟨_, r', d', c', l', o', a', de', _, st', misused'⟩ := shuts
    exact ⟨r'.trans r, d'.trans d, c'.trans c, l'.trans l, o'.trans o, a'.trans a, de'.trans de, st.trans st',
      fun quiet => absurd quiet.1 (by simp), fun _ => misused'⟩

/-! ## New connections -/

theorem first_concat {accepted : List Int} {x fd : Int} {i : Nat} :
    First (accepted ++ [x]) fd i ↔
      First accepted fd i ∨ i = accepted.length ∧ fd = x ∧ ∀ j, ¬ First accepted x j := by
  constructor
  · rintro ⟨at_i, before⟩
    by_cases old : i < accepted.length
    · rw [List.getElem?_append_left old] at at_i
      refine .inl ⟨at_i, ?_⟩
      intro j below
      have := before j below
      rwa [List.getElem?_append_left (by omega)] at this
    · have bound := (List.getElem?_eq_some_iff.mp at_i).1
      have last : i = accepted.length := by
        rw [List.length_append, List.length_singleton] at bound
        omega
      subst last
      have same : fd = x := by simpa using at_i.symm
      subst same
      refine .inr ⟨rfl, rfl, ?_⟩
      intro j first
      have inside := (List.getElem?_eq_some_iff.mp first.1).1
      have := before j inside
      rw [List.getElem?_append_left inside] at this
      exact this first.1
  · rintro (⟨at_i, before⟩ | ⟨rfl, rfl, absent⟩)
    · have inside := (List.getElem?_eq_some_iff.mp at_i).1
      refine ⟨by rwa [List.getElem?_append_left inside], ?_⟩
      intro j below
      rw [List.getElem?_append_left (by omega)]
      exact before j below
    · refine ⟨by simp, ?_⟩
      intro j below at_j
      rw [List.getElem?_append_left below] at at_j
      obtain ⟨first, _, holds⟩ := first_exists at_j
      exact absent first holds

/-- The map keeps the first client of every number. -/
theorem insert_entries {m : List (Int × Nat)} {accepted : List Int} (keys : (m.map Prod.fst).Nodup)
    (entries : ∀ fd i, (fd, i) ∈ m ↔ First accepted fd i) (x : Int) :
    ((map_insert m x accepted.length).map Prod.fst).Nodup ∧
      ∀ fd i, (fd, i) ∈ map_insert m x accepted.length ↔ First (accepted ++ [x]) fd i := by
  cases found : map_find m x with
  | none =>
    have absent := map_find_none.mp found
    have perm := insert_perm found accepted.length
    refine ⟨(perm.map Prod.fst).nodup_iff.mpr (List.nodup_cons.mpr ⟨?_, keys⟩), ?_⟩
    · intro member
      obtain ⟨⟨k, v⟩, here, rfl⟩ := List.mem_map.mp member
      exact absent v here
    · intro fd i
      have never : ∀ j, ¬ First accepted x j := fun j first => absent j ((entries x j).mpr first)
      rw [perm.mem_iff, List.mem_cons, entries, first_concat, Prod.mk.injEq]
      constructor
      · rintro (⟨rfl, rfl⟩ | first)
        · exact .inr ⟨rfl, rfl, never⟩
        · exact .inl first
      · rintro (first | ⟨rfl, rfl, _⟩)
        · exact .inr first
        · exact .inl ⟨rfl, rfl⟩
  | some v =>
    rw [insert_present found]
    refine ⟨keys, ?_⟩
    intro fd i
    rw [entries, first_concat]
    constructor
    · exact .inl
    · rintro (first | ⟨_, _, never⟩)
      · exact first
      · exact absurd ((entries x v).mp ((map_find_some keys).mp found)) (never v)

/-- What a call of `su_accept` changes. -/
structure Accepts (con_fd : Int) (s s' : TcpServer) : Prop where
  accepted : s'.accepted = s.accepted ++ [con_fd]
  sockets : s'.sockets = if 0 ≤ con_fd then (con_fd, s.accepted.length) :: s.sockets else s.sockets
  clients_ : s'.clients_ = map_insert s.clients_ con_fd s.accepted.length
  received : s'.received = s.received
  delivered : s'.delivered = s.delivered
  listenfd_ : s'.listenfd_ = s.listenfd_
  others : s'.others = s.others
  deleted : s'.deleted = s.deleted
  stale : s'.stale = s.stale ++ if 0 ≤ con_fd then [] else [(.epoll_ctl, con_fd)]

/-- A new client has nothing in its buffer, the others keep what they have. -/
theorem pool_new {p : Pool} (inv : Accounting.Inv p []) :
    ∃ p', step p .new = some p' ∧ Accounting.Inv p' [] ∧ p'.handles.length = p.handles.length + 1 ∧
      p'.world.ctx.mbuf_offset = p.world.ctx.mbuf_offset ∧
      (∀ i, i < p.handles.length → ∀ c, p'.handles[i]? = some c → p.handles[i]? = some c ∧ p'.con c = p.con c) ∧
      ∀ c, p'.handles[p.handles.length]? = some c → queued (p'.con c) = [] := by
  obtain ⟨p', stepped, after⟩ := Accounting.inv_new inv fun c member => by simpa using inv.handed.mem_iff.mp member
  obtain ⟨_, _, offset, _, con, handles, _, _⟩ := step_new stepped
  refine ⟨p', stepped, after, by simp [handles], offset, ?_, ?_⟩
  · intro i inside c at_i
    rw [handles, List.getElem?_append_left inside] at at_i
    refine ⟨at_i, ?_⟩
    have used : c ∈ p.inUse := by simpa using inv.handed.mem_iff.mp (List.mem_of_getElem? at_i)
    have live := (inv.accounts.ownConns.live c).mp (by simp [used])
    have below := (List.getElem?_eq_some_iff.mp live.1).1
    rw [con, Function.update_of_ne (by omega)]
  · intro c at_last
    have same : c = p.world.heap.kinds.length := by simpa [handles] using at_last.symm
    rw [same, con, Function.update_self]
    rfl

theorem accepted_descriptors (inv : Inv s) {con_fd : Int} (closed : ∀ k, (con_fd, k) ∉ s.sockets) :
    ((if 0 ≤ con_fd then (con_fd, s.accepted.length) :: s.sockets else s.sockets).map Prod.fst).Nodup := by
  split_ifs
  · refine List.nodup_cons.mpr ⟨?_, inv.descriptors⟩
    intro member
    obtain ⟨⟨fd, k⟩, here, rfl⟩ := List.mem_map.mp member
    exact closed k here
  · exact inv.descriptors

/-- An open number is that of the last connection that was given it, the new one included. -/
theorem accepted_sockets (inv : Inv s) {con_fd : Int} (closed : ∀ k, (con_fd, k) ∉ s.sockets) {fd : Int} {k : Nat}
    (member : (fd, k) ∈ if 0 ≤ con_fd then (con_fd, s.accepted.length) :: s.sockets else s.sockets) :
    0 ≤ fd ∧ (s.accepted ++ [con_fd])[k]? = some fd ∧ ∀ j, (s.accepted ++ [con_fd])[j]? = some fd → j ≤ k := by
  have bound : ∀ j, (s.accepted ++ [con_fd])[j]? = some fd → j ≤ s.accepted.length := by
    intro j at_j
    have inside := (List.getElem?_eq_some_iff.mp at_j).1
    rw [List.length_append, List.length_singleton] at inside
    omega
  have later : (fd, k) = (con_fd, s.accepted.length) ∧ 0 ≤ con_fd ∨ (fd, k) ∈ s.sockets := by
    split_ifs at member with opened
    · exact (List.mem_cons.mp member).imp_left fun same => ⟨same, opened⟩
    · exact .inr member
  rcases later with ⟨same, opened⟩ | old
  · cases same
    exact ⟨opened, by simp, bound⟩
  · obtain ⟨positive, at_k, last⟩ := inv.sockets fd k old
    have inside := (List.getElem?_eq_some_iff.mp at_k).1
    refine ⟨positive, by rwa [List.getElem?_append_left inside], ?_⟩
    intro j at_j
    by_cases earlier : j < s.accepted.length
    · rw [List.getElem?_append_left earlier] at at_j
      exact last j at_j
    · have top : j = s.accepted.length := by
        have := bound j at_j
        omega
      subst top
      have same : con_fd = fd := by simpa using at_j
      subst same
      exact absurd old (closed k)

theorem nothing_delivered (inv : Inv s) : delivered_to s.pool.handles.length s = [] := by
  have bound := inv.delivered
  rw [← inv.handles] at bound
  simp only [delivered_to, List.map_eq_nil_iff, List.filter_eq_nil_iff, decide_eq_true_eq]
  exact fun e member => Nat.ne_of_lt (bound e member)

theorem accept_spec (inv : Inv s) {con_fd : Int} (free : con_fd = -1 ∨ 0 ≤ con_fd ∧ con_fd ∉ occupied s) :
    ∃ s', accept s con_fd = some s' ∧ Inv s' ∧ Accepts con_fd s s' := by
  obtain ⟨p', stepped, after, length, offset, older, newest⟩ := pool_new inv.pool
  have closed : ∀ k, (con_fd, k) ∉ s.sockets := by
    intro k member
    rcases free with rfl | ⟨_, outside⟩
    · exact absurd (inv.sockets _ _ member).1 (by omega)
    · exact outside (List.mem_append_right _ (List.mem_map.mpr ⟨_, member, rfl⟩))
  set s₁ : TcpServer := { s with
    accepted := s.accepted ++ [con_fd], pool := p'
    sockets := if 0 ≤ con_fd then (con_fd, s.accepted.length) :: s.sockets else s.sockets
    clients_ := map_insert s.clients_ con_fd s.accepted.length } with s₁Is
  have executed : accept s con_fd = some (epoll_ctl s₁ con_fd) := by
    simp only [accept, stepped, Option.bind_eq_bind, Option.bind_some]
    rfl
  have grown : s₁.accepted.length = s.accepted.length + 1 := List.length_append
  obtain ⟨keys, entries⟩ := insert_entries inv.keys inv.entries con_fd
  have inv₁ : Inv s₁ := by
    refine ⟨after, by rw [grown, ← inv.handles]; exact length, keys, entries, accepted_descriptors inv closed,
      fun fd k member => accepted_sockets inv closed member, ?_, ?_, ?_⟩
    · intro i c at_i
      change p'.handles[i]? = some c at at_i
      show ∃ off, Holds p'.world.ctx.mbuf_offset off (queued (p'.con c)) (delivered_to i s).flatten
      rw [offset]
      have inside := (List.getElem?_eq_some_iff.mp at_i).1
      by_cases old : i < s.pool.handles.length
      · obtain ⟨before, same⟩ := older i old c at_i
        rw [same]
        exact inv.buffers i c before
      · have last : i = s.pool.handles.length := by omega
        subst last
        rw [newest c at_i, nothing_delivered inv]
        exact ⟨0, holds_nil inv.pool.positive⟩
    · intro e member
      rw [grown]
      exact Nat.lt_succ_of_lt (inv.delivered e member)
    · intro e member
      rw [grown]
      exact Nat.lt_succ_of_lt (inv.received e member)
  by_cases opened : 0 ≤ con_fd
  · have here : (con_fd, s.accepted.length) ∈ s₁.sockets := by
      rw [s₁Is]
      simp [opened]
    rw [epoll_ctl, called_open inv₁.descriptors here] at executed
    exact ⟨s₁, executed, inv₁, rfl, rfl, rfl, rfl, rfl, rfl, rfl, rfl, by rw [if_pos opened, List.append_nil]⟩
  · have absent : ∀ k, (con_fd, k) ∉ s₁.sockets := fun k member => opened (inv₁.sockets con_fd k member).1
    rw [epoll_ctl, called_stale absent] at executed
    refine ⟨_, executed, ⟨inv₁.pool, inv₁.handles, inv₁.keys, inv₁.entries, inv₁.descriptors, inv₁.sockets,
      inv₁.buffers, inv₁.delivered, inv₁.received⟩, rfl, rfl, rfl, rfl, rfl, rfl, rfl, rfl, ?_⟩
    rw [if_neg opened]

/-! ## Any event -/

theorem handle_listen {e : Event} (same : e.data_fd = s.listenfd_) : handle s e = accept s e.accept := by
  rw [handle, if_pos same]

/-- An event of a connection finds its descriptor and the first client of the number. -/
theorem client_of_event (inv : Inv s) {e : Event} (issued : Issued s e) (other : e.data_fd ≠ s.listenfd_) :
    ∃ k i, (e.data_fd, k) ∈ s.sockets ∧ First s.accepted e.data_fd i := by
  obtain ⟨⟨fd, k⟩, here, same⟩ := List.mem_map.mp (issued.client other)
  cases same
  obtain ⟨i, _, first⟩ := first_exists (inv.sockets _ k here).2.1
  exact ⟨k, i, here, first⟩

/-- Every event has a result, and the clients and descriptors stay in order. -/
theorem handle_inv (inv : Inv s) {e : Event} (issued : Issued s e) : ∃ s', handle s e = some s' ∧ Inv s' := by
  by_cases listening : e.data_fd = s.listenfd_
  · obtain ⟨s', executed, after, _⟩ := accept_spec inv (issued.accept listening)
    exact ⟨s', by rw [handle_listen listening, executed], after⟩
  · obtain ⟨k, i, here, first⟩ := client_of_event inv issued listening
    obtain ⟨s', executed, after, _⟩ := handle_client inv listening here first fun b member => (issued.pending b member).1
    exact ⟨s', executed, after⟩

theorem handle_keeps (s : TcpServer) (e : Event) (s' : TcpServer) (inv : Inv s) (issued : Issued s e)
    (handled : handle s e = some s') : Inv s' := by
  obtain ⟨other, same, after⟩ := handle_inv inv issued
  cases handled.symm.trans same
  exact after

end TcpLearn.Server
