import TcpLearn.EventLoop
import TcpLearn.Runs

/-!
# The descriptors of the echo server

The handlers of `tcp_bbr_server.cc` over the event loop. A connection is accepted and
registered, and a descriptor that cannot be registered should be closed, but
`AcceptTcpHandler` closes the one in `fd`, that of the listening socket. The
registration fails for a number past the table; for the -1 of an accept that failed it
leaves the table and the server dies. So the server goes on serving exactly as long as
every accept yields a number inside the table that the kernel can watch (`serving_iff`).
-/
namespace TcpLearn.BbrServer
open TcpLearn.EventLoop TcpLearn.Runs

/-! ## The code -/

inductive Handler where
  | AcceptTcpHandler | ReadFromClient
deriving DecidableEq

structure State where
  loop : aeEventLoop Handler
  kernel : Kernel
  listenfd : Int
  /-- The open descriptors that were accepted. -/
  accepted : List Int
  /-- What is left of the array `fired` of the event loop: descriptors and masks. -/
  fired : List (Int × BitVec 32)

/-- What the kernel answers while one event is handled. -/
structure Answer where
  /-- What `anetTcpAccept` returns. -/
  accept : Int
  /-- The kernel can watch one more descriptor. -/
  room : Bool
  /-- What `read` returns. -/
  read : Int

def close (s : State) (fd : Int) : State :=
  { s with kernel := EventLoop.close s.kernel fd, accepted := s.accepted.filter fun other => other ≠ fd }

def ClientClose (s : State) (fd : Int) : Option State := do
  let (loop, kernel) ← aeDeleteFileEvent s.loop s.kernel fd AE_READABLE
  some (close { s with loop := loop, kernel := kernel } fd)

def ReadFromClient (s : State) (fd : Int) (res : Int) : Option State := if res ≤ 0 then ClientClose s fd else some s

/-- A connection accepted is an open descriptor. -/
def anetTcpAccept (s : State) (cfd : Int) : State :=
  if 0 ≤ cfd then { s with kernel := { s.kernel with opened := cfd :: s.kernel.opened }, accepted := cfd :: s.accepted }
  else s

def AcceptTcpHandler (s : State) (fd cfd : Int) (room : Bool) : Option State := do
  let s := anetTcpAccept s cfd
  match ← aeCreateFileEvent s.loop s.kernel cfd AE_READABLE .ReadFromClient none room with
  | none => some (close s fd)
  | some (loop, kernel) => some { s with loop := loop, kernel := kernel }

/-- No result stands for the death of the server. -/
def call (a : Answer) (handler : Handler) (fd : Int) (s : State) : Option State :=
  match handler with
  | .AcceptTcpHandler => AcceptTcpHandler s fd a.accept a.room
  | .ReadFromClient => ReadFromClient s fd a.read

inductive ServerOp where
  /-- `aeApiPoll` has filled the array. -/
  | poll (fired : List (Int × BitVec 32))
  /-- `aeProcessEvents` goes on with the next event of the array. -/
  | handle (a : Answer)

def step (s : State) : ServerOp → Option State
  | .poll fired => if s.fired = [] then some { s with fired := fired } else none
  | .handle a =>
    match s.fired with
    | [] => none
    | (fd, mask) :: rest => process_fired State.loop (call a) fd mask { s with fired := rest }

/-- `main` up to `aeMain`, when the listening descriptor can be registered. -/
def start (memory : Int → aeFileEvent Handler) (setsize listenfd : Int) (others : List Int) : Option State := do
  let registered ← aeCreateFileEvent (aeCreateEventLoop memory setsize) ⟨listenfd :: others, fun _ => none⟩ listenfd
    AE_READABLE .AcceptTcpHandler none true
  let (loop, kernel) ← registered
  some ⟨loop, kernel, listenfd, [], []⟩

/-- What the kernel does: events are of watched descriptors, and an open socket is
    accepted from under a number that is not in use, if at all. -/
def Issued (s : State) : ServerOp → Prop
  | .poll fired => s.fired = [] ∧ ∀ e ∈ fired, s.kernel.watched e.1 ≠ none
  | .handle a => s.fired ≠ [] ∧
      (a.accept = -1 ∨ 0 ≤ a.accept ∧ a.accept ∉ s.kernel.opened ∧ s.listenfd ∈ s.kernel.opened)

/-! ## Serving -/

structure Registered (s : State) (fd : Int) (handler : Handler) : Prop where
  entry : (s.loop.events fd).mask = AE_READABLE
  proc : (s.loop.events fd).rfileProc = some handler
  watched : s.kernel.watched fd = some EPOLLIN

structure Serving (s : State) : Prop where
  opened : s.listenfd ∈ s.kernel.opened
  listening : Registered s s.listenfd .AcceptTcpHandler
  /-- Whatever the kernel watches or the table has set is an open descriptor inside the table. -/
  valid : ∀ fd, s.kernel.watched fd ≠ none ∨ HasEntry s.loop fd →
    0 ≤ fd ∧ fd < s.loop.setsize ∧ fd ∈ s.kernel.opened
  accepted : ∀ fd ∈ s.accepted, fd ∈ s.kernel.opened ∧ Registered s fd .ReadFromClient

/-- When `AcceptTcpHandler` is called, it gets a number inside the table, and the
    kernel can watch it. -/
def Admits (s : State) : ServerOp → Prop
  | .poll _ => True
  | .handle a => ∀ mask rest, s.fired = (s.listenfd, mask) :: rest → mask &&& AE_READABLE ≠ 0 →
      0 ≤ a.accept ∧ a.accept < s.loop.setsize ∧ a.room = true

/-! ## What always holds -/

/-- The handler that is registered for a descriptor. -/
def handler_of (s : State) (fd : Int) : Handler := if fd = s.listenfd then .AcceptTcpHandler else .ReadFromClient

structure Inv (s : State) : Prop where
  inside : 0 ≤ s.listenfd ∧ s.listenfd < s.loop.setsize
  table : ∀ fd, HasEntry s.loop fd →
    (s.loop.events fd).mask = AE_READABLE ∧ (s.loop.events fd).rfileProc = some (handler_of s fd)
  watched : ∀ fd, s.kernel.watched fd ≠ none → 0 ≤ fd ∧ fd < s.loop.setsize
  opened : ∀ fd ∈ s.kernel.opened, 0 ≤ fd
  fired : ∀ e ∈ s.fired, 0 ≤ e.1 ∧ e.1 < s.loop.setsize
  /-- `maxfd` is the largest descriptor that is registered. -/
  tracks : Tracks s.loop

variable {s s' : State} {fd cfd : Int} {room : Bool}

/-- A descriptor is closed and nothing else happens to the table. -/
theorem close_inv (inv : Inv s) (fd : Int) : Inv (close s fd) := by
  refine ⟨inv.inside, inv.table, ?_, ?_, inv.fired, inv.tracks⟩
  · intro other watched
    apply inv.watched other
    intro none
    by_cases same : other = fd
    · subst same
      exact watched (Function.update_self _ _ _)
    · exact watched ((Function.update_of_ne same _ _).trans none)
  · intro other member
    exact inv.opened other (List.mem_of_mem_filter member)

theorem accepted_inv (inv : Inv s) (cfd : Int) : Inv (anetTcpAccept s cfd) := by
  unfold anetTcpAccept
  split_ifs with positive
  · refine ⟨inv.inside, inv.table, inv.watched, ?_, inv.fired, inv.tracks⟩
    intro other member
    rcases List.mem_cons.mp member with rfl | earlier
    · exact positive
    · exact inv.opened other earlier
  · exact inv

/-- Registrations do not depend on other descriptors. -/
theorem registered_frame {handler : Handler} (entry : s'.loop.events fd = s.loop.events fd)
    (watched : s'.kernel.watched fd = s.kernel.watched fd) (registered : Registered s fd handler) :
    Registered s' fd handler := by
  refine ⟨?_, ?_, ?_⟩
  · rw [entry]
    exact registered.entry
  · rw [entry]
    exact registered.proc
  · rw [watched]
    exact registered.watched

/-! ## Clients that leave -/

/-- A descriptor is unregistered and closed. -/
structure Left (fd : Int) (s s' : State) : Prop where
  listenfd : s'.listenfd = s.listenfd
  fired : s'.fired = s.fired
  setsize : s'.loop.setsize = s.loop.setsize
  others : ∀ other, other ≠ fd → s'.loop.events other = s.loop.events other
  entry : (s'.loop.events fd).mask = AE_NONE
  opened : ∀ other, other ∈ s'.kernel.opened ↔ other ∈ s.kernel.opened ∧ other ≠ fd
  watched : ∀ other, other ≠ fd → s'.kernel.watched other = s.kernel.watched other
  unwatched : s'.kernel.watched fd = none
  accepted : ∀ other, other ∈ s'.accepted ↔ other ∈ s.accepted ∧ other ≠ fd
  tracks : Tracks s'.loop

theorem client_close_spec (inv : Inv s) (inside : 0 ≤ fd ∧ fd < s.loop.setsize) :
    ∃ s', ClientClose s fd = some s' ∧ Left fd s s' := by
  obtain ⟨loop, kernel, executed⟩ := @delete_returns _ s.loop s.kernel fd inside.1 AE_READABLE
  have deleted := delete_spec inside executed
  refine ⟨_, Option.bind_eq_some_iff.mpr ⟨_, executed, rfl⟩, rfl, rfl, deleted.setsize, deleted.others, ?_, ?_, ?_, ?_, ?_,
    delete_tracks inv.tracks inside deleted⟩
  · refine deleted.entry.trans ?_
    by_cases unset : (s.loop.events fd).mask = AE_NONE
    · rw [unset]
      exact BitVec.zero_and
    · rw [(inv.table fd ⟨inside.1, inside.2, unset⟩).1]
      decide
  · intro other
    show other ∈ (EventLoop.close kernel fd).opened ↔ _
    simp [EventLoop.close, deleted.kept]
  · intro other ne
    exact (Function.update_of_ne ne _ _).trans (deleted.watched other ne)
  · exact Function.update_self _ _ _
  · intro other
    simp [close]

theorem left_set (left : Left fd s s') {other : Int} : HasEntry s'.loop other ↔ other ≠ fd ∧ HasEntry s.loop other := by
  by_cases same : other = fd
  · subst same
    exact iff_of_false (fun set => set.2.2 left.entry) (fun both => both.1 rfl)
  · simp only [HasEntry, left.setsize, left.others other same, same, ne_eq, not_false_eq_true, true_and]

theorem left_inv (inv : Inv s) (left : Left fd s s') : Inv s' := by
  refine ⟨by rw [left.listenfd, left.setsize]; exact inv.inside, ?_, ?_,
    fun other member => inv.opened other ((left.opened other).mp member).1,
    by rw [left.fired, left.setsize]; exact inv.fired, left.tracks⟩
  · intro other set
    obtain ⟨ne, before⟩ := (left_set left).mp set
    rw [left.others other ne, handler_of, left.listenfd]
    exact inv.table other before
  · intro other watched
    rw [left.setsize]
    by_cases same : other = fd
    · subst same
      exact absurd left.unwatched watched
    · rw [left.watched other same] at watched
      exact inv.watched other watched

theorem left_serving (serving : Serving s) (other : fd ≠ s.listenfd) (left : Left fd s s') : Serving s' := by
  have keeps : ∀ k handler, k ≠ fd → Registered s k handler → Registered s' k handler :=
    fun k handler ne => registered_frame (left.others k ne) (left.watched k ne)
  refine ⟨?_, ?_, ?_, ?_⟩
  · rw [left.listenfd]
    exact (left.opened _).mpr ⟨serving.opened, other.symm⟩
  · rw [left.listenfd]
    exact keeps _ _ other.symm serving.listening
  · intro k known
    have apart : k ≠ fd := by
      rintro rfl
      rcases known with watched | set
      · exact watched left.unwatched
      · exact set.2.2 left.entry
    rw [left.watched k apart, left_set left] at known
    obtain ⟨low, high, opened⟩ := serving.valid k (known.imp id And.right)
    exact ⟨low, by rw [left.setsize]; exact high, (left.opened k).mpr ⟨opened, apart⟩⟩
  · intro k member
    obtain ⟨before, apart⟩ := (left.accepted k).mp member
    obtain ⟨opened, registered⟩ := serving.accepted k before
    exact ⟨(left.opened k).mpr ⟨opened, apart⟩, keeps k _ apart registered⟩

/-! ## Connections that are accepted -/

/-- The registration `AcceptTcpHandler` tries. -/
def registration (s : State) (cfd : Int) (room : Bool) : Option (Option (aeEventLoop Handler × Kernel)) :=
  aeCreateFileEvent (anetTcpAccept s cfd).loop (anetTcpAccept s cfd).kernel cfd AE_READABLE .ReadFromClient none room

/-- A new descriptor is open and registered. -/
structure Joined (cfd : Int) (s s' : State) : Prop where
  listenfd : s'.listenfd = s.listenfd
  fired : s'.fired = s.fired
  setsize : s'.loop.setsize = s.loop.setsize
  inside : 0 ≤ cfd ∧ cfd < s.loop.setsize
  others : ∀ other, other ≠ cfd → s'.loop.events other = s.loop.events other
  registered : Registered s' cfd .ReadFromClient
  opened : s'.kernel.opened = cfd :: s.kernel.opened
  watched : ∀ other, other ≠ cfd → s'.kernel.watched other = s.kernel.watched other
  accepted : s'.accepted = cfd :: s.accepted
  tracks : Tracks s'.loop

/-- For an accept that failed the registration leaves the table. -/
theorem registration_dies (inv : Inv s) : registration s (-1) room = none :=
  create_dies (by decide) (show -1 < s.loop.setsize by have := inv.inside; omega)

theorem accept_dies (inv : Inv s) (fd : Int) : AcceptTcpHandler s fd (-1) room = none :=
  Option.bind_eq_none_iff.mpr fun _ returned => absurd ((registration_dies inv).symm.trans returned) nofun

theorem accept_fails (failed : registration s cfd room = some none) (fd : Int) :
    AcceptTcpHandler s fd cfd room = some (close (anetTcpAccept s cfd) fd) :=
  Option.bind_eq_some_iff.mpr ⟨none, failed, rfl⟩

theorem accept_joins (inv : Inv s) {loop : aeEventLoop Handler} {kernel : Kernel}
    (registered : registration s cfd room = some (some (loop, kernel))) (fd : Int) :
    ∃ s', AcceptTcpHandler s fd cfd room = some s' ∧ Joined cfd s s' := by
  have created := create_spec registered
  have positive : 0 ≤ cfd := created.inside.1
  refine ⟨{ anetTcpAccept s cfd with loop := loop, kernel := kernel },
    Option.bind_eq_some_iff.mpr ⟨some (loop, kernel), registered, rfl⟩, ?_⟩
  have accepted : anetTcpAccept s cfd =
      { s with kernel := { s.kernel with opened := cfd :: s.kernel.opened }, accepted := cfd :: s.accepted } := if_pos positive
  rw [accepted] at created ⊢
  have within : cfd < s.loop.setsize := created.inside.2
  have mask : AE_READABLE ||| (s.loop.events cfd).mask = AE_READABLE := by
    by_cases unset : (s.loop.events cfd).mask = AE_NONE
    · rw [unset]
      decide
    · rw [(inv.table cfd ⟨positive, within, unset⟩).1]
      decide
  refine ⟨rfl, rfl, created.setsize, ⟨positive, within⟩, created.others, ⟨?_, ?_, ?_⟩, created.kept, ?_, rfl,
    create_tracks inv.tracks (by decide) created⟩
  · refine created.entry.trans ?_
    rw [BitVec.or_comm]
    exact mask
  · exact created.reads (by decide)
  · show kernel.watched cfd = some EPOLLIN
    rw [created.watched, Function.update_self]
    dsimp only
    rw [mask]
    decide
  · intro other ne
    show kernel.watched other = s.kernel.watched other
    rw [created.watched]
    exact Function.update_of_ne ne _ _

theorem joined_set (joined : Joined cfd s s') {other : Int} (set : HasEntry s'.loop other) :
    other = cfd ∨ other ≠ cfd ∧ HasEntry s.loop other := by
  by_cases same : other = cfd
  · exact .inl same
  · refine .inr ⟨same, set.1, by rw [← joined.setsize]; exact set.2.1, ?_⟩
    rw [← joined.others other same]
    exact set.2.2

theorem joined_inv (inv : Inv s) (apart : cfd ≠ s.listenfd) (joined : Joined cfd s s') : Inv s' := by
  refine ⟨by rw [joined.listenfd, joined.setsize]; exact inv.inside, ?_, ?_, ?_,
    by rw [joined.fired, joined.setsize]; exact inv.fired, joined.tracks⟩
  · intro other set
    rw [handler_of, joined.listenfd]
    rcases joined_set joined set with rfl | ⟨ne, before⟩
    · rw [if_neg apart]
      exact ⟨joined.registered.entry, joined.registered.proc⟩
    · rw [joined.others other ne]
      exact inv.table other before
  · intro other watched
    rw [joined.setsize]
    by_cases same : other = cfd
    · rw [same]
      exact joined.inside
    · rw [joined.watched other same] at watched
      exact inv.watched other watched
  · intro other member
    rw [joined.opened] at member
    rcases List.mem_cons.mp member with rfl | earlier
    · exact joined.inside.1
    · exact inv.opened other earlier

theorem joined_serving (serving : Serving s) (apart : cfd ≠ s.listenfd) (fresh : cfd ∉ s.kernel.opened)
    (joined : Joined cfd s s') : Serving s' := by
  have keeps : ∀ k handler, k ≠ cfd → Registered s k handler → Registered s' k handler :=
    fun k handler ne => registered_frame (joined.others k ne) (joined.watched k ne)
  have more : ∀ k ∈ s.kernel.opened, k ∈ s'.kernel.opened := by
    intro k member
    rw [joined.opened]
    exact List.mem_cons_of_mem _ member
  refine ⟨?_, ?_, ?_, ?_⟩
  · rw [joined.listenfd]
    exact more _ serving.opened
  · rw [joined.listenfd]
    exact keeps _ _ apart.symm serving.listening
  · intro k known
    by_cases same : k = cfd
    · subst same
      exact ⟨joined.inside.1, by rw [joined.setsize]; exact joined.inside.2, by simp [joined.opened]⟩
    · rw [joined.watched k same] at known
      obtain ⟨low, high, opened⟩ := serving.valid k (known.imp id fun set => ((joined_set joined set).resolve_left same).2)
      exact ⟨low, by rw [joined.setsize]; exact high, more k opened⟩
  · intro k member
    rw [joined.accepted] at member
    rcases List.mem_cons.mp member with rfl | before
    · exact ⟨by simp [joined.opened], joined.registered⟩
    · obtain ⟨opened, registered⟩ := serving.accepted k before
      exact ⟨more k opened, keeps k _ (fun same => fresh (same ▸ opened)) registered⟩

/-- While the server serves, a new connection is registered when its number is inside
    the table and the kernel can watch it. -/
theorem registration_iff (inv : Inv s) (serving : Serving s) (free : cfd = -1 ∨ 0 ≤ cfd ∧ cfd ∉ s.kernel.opened) :
    (∃ r, registration s cfd room = some (some r)) ↔ 0 ≤ cfd ∧ cfd < s.loop.setsize ∧ room = true := by
  rcases free with rfl | ⟨positive, fresh⟩
  · rw [registration_dies inv]
    exact iff_of_false (fun some => by obtain ⟨_, some⟩ := some; cases some) (fun all => absurd all.1 (by decide))
  · have accepted : anetTcpAccept s cfd =
        { s with kernel := { s.kernel with opened := cfd :: s.kernel.opened }, accepted := cfd :: s.accepted } :=
      if_pos positive
    have absent : ¬ (s.kernel.watched cfd ≠ none ∨ HasEntry s.loop cfd) := fun known => fresh (serving.valid cfd known).2.2
    rw [not_or, not_ne_iff] at absent
    rw [registration, accepted]
    by_cases inside : cfd < s.loop.setsize
    · have unset : (s.loop.events cfd).mask = AE_NONE := by
        by_contra set
        exact absent.2 ⟨positive, inside, set⟩
      have created := @create_fresh _ s.loop { s.kernel with opened := cfd :: s.kernel.opened } cfd AE_READABLE
        Handler.ReadFromClient none room ⟨positive, inside⟩ (List.mem_cons_self) unset absent.1
      dsimp only at created ⊢
      rw [created]
      simp [positive, inside]
    · rw [create_fails positive (.inl (not_lt.mp inside))]
      exact iff_of_false (fun some => by obtain ⟨_, some⟩ := some; cases some) (fun all => inside all.2.1)

/-! ## One event -/

/-- What `AcceptTcpHandler` does if it returns. -/
theorem accept_cases (inv : Inv s) (called : AcceptTcpHandler s fd cfd room = some s') :
    registration s cfd room = some none ∧ s' = close (anetTcpAccept s cfd) fd ∨
      (∃ r, registration s cfd room = some (some r)) ∧ Joined cfd s s' := by
  obtain ⟨_ | ⟨loop, kernel⟩, registered, _⟩ := Option.bind_eq_some_iff.mp called
  · cases called.symm.trans (accept_fails registered fd)
    exact .inl ⟨registered, rfl⟩
  · obtain ⟨other, again, joined⟩ := accept_joins inv registered fd
    cases called.symm.trans again
    exact .inr ⟨⟨_, registered⟩, joined⟩

theorem accept_inv (inv : Inv s) (free : cfd = -1 ∨ 0 ≤ cfd ∧ cfd ∉ s.kernel.opened ∧ s.listenfd ∈ s.kernel.opened)
    (called : AcceptTcpHandler s s.listenfd cfd room = some s') : Inv s' := by
  obtain ⟨_, rfl⟩ | ⟨_, joined⟩ := accept_cases inv called
  · exact close_inv (accepted_inv inv cfd) s.listenfd
  · refine joined_inv inv ?_ joined
    rcases free with rfl | ⟨_, fresh, opened⟩
    · exact absurd joined.inside.1 (by decide)
    · rintro rfl
      exact fresh opened

theorem accept_serving (inv : Inv s) (serving : Serving s) (free : cfd = -1 ∨ 0 ≤ cfd ∧ cfd ∉ s.kernel.opened)
    (room : Bool) : (∃ s', AcceptTcpHandler s s.listenfd cfd room = some s' ∧ Serving s') ↔
      0 ≤ cfd ∧ cfd < s.loop.setsize ∧ room = true := by
  rw [← registration_iff inv serving free]
  constructor
  · rintro ⟨s', called, after⟩
    obtain ⟨_, rfl⟩ | ⟨registered, _⟩ := accept_cases inv called
    · -- The listening descriptor is the one that was closed.
      have opened := after.opened
      have listenfd : (close (anetTcpAccept s cfd) s.listenfd).listenfd = s.listenfd := by
        unfold anetTcpAccept
        split_ifs <;> rfl
      rw [listenfd] at opened
      exact absurd (List.of_mem_filter opened) (by simp)
    · exact registered
  · rintro ⟨r, registered⟩
    obtain ⟨s', called, joined⟩ := accept_joins inv registered s.listenfd
    have fresh : cfd ∉ s.kernel.opened := by
      rcases free with rfl | ⟨_, fresh⟩
      · exact absurd joined.inside.1 (by decide)
      · exact fresh
    have apart : cfd ≠ s.listenfd := by
      rintro rfl
      exact fresh serving.opened
    exact ⟨s', called, joined_serving serving apart fresh joined⟩

/-- `ReadFromClient` returns, and the client stays or leaves. -/
theorem read_spec (inv : Inv s) (inside : 0 ≤ fd ∧ fd < s.loop.setsize) (res : Int) :
    ∃ s', ReadFromClient s fd res = some s' ∧ (s' = s ∨ Left fd s s') := by
  unfold ReadFromClient
  split_ifs
  · obtain ⟨s', closed, left⟩ := client_close_spec inv inside
    exact ⟨s', closed, .inr left⟩
  · exact ⟨s, rfl, .inl rfl⟩

/-- What a handler keeps. -/
theorem call_kept (inv : Inv s) {a : Answer}
    (free : a.accept = -1 ∨ 0 ≤ a.accept ∧ a.accept ∉ s.kernel.opened ∧ s.listenfd ∈ s.kernel.opened)
    (inside : 0 ≤ fd ∧ fd < s.loop.setsize) (called : call a (handler_of s fd) fd s = some s') :
    Inv s' ∧ s'.loop.setsize = s.loop.setsize := by
  unfold handler_of at called
  split_ifs at called with listening
  · rw [listening] at called
    refine ⟨accept_inv inv free called, ?_⟩
    obtain ⟨_, rfl⟩ | ⟨_, joined⟩ := accept_cases inv called
    · rw [close, anetTcpAccept]
      split_ifs <;> rfl
    · exact joined.setsize
  · obtain ⟨other, again, same | left⟩ := read_spec inv inside a.read
    · cases called.symm.trans again
      rw [same]
      exact ⟨inv, rfl⟩
    · cases called.symm.trans again
      exact ⟨left_inv inv left, left.setsize⟩

/-- A handler returns unless an accept has failed. -/
theorem call_returns (inv : Inv s) {a : Answer} (outcome : a.accept = -1 ∨ 0 ≤ a.accept)
    (inside : 0 ≤ fd ∧ fd < s.loop.setsize) :
    (∃ s', call a (handler_of s fd) fd s = some s') ↔ (fd = s.listenfd → 0 ≤ a.accept) := by
  unfold handler_of
  split_ifs with listening
  · show (∃ s', AcceptTcpHandler s fd a.accept a.room = some s') ↔ _
    rcases outcome with failed | positive
    · rw [failed, accept_dies inv]
      exact iff_of_false (fun some => by obtain ⟨_, some⟩ := some; cases some) (fun low => absurd (low listening) (by decide))
    · refine iff_of_true ?_ (fun _ => positive)
      obtain ⟨_ | ⟨loop, kernel⟩, returned⟩ : ∃ result, registration s a.accept a.room = some result :=
        create_returns positive
      · exact ⟨_, accept_fails returned fd⟩
      · obtain ⟨s', called, _⟩ := accept_joins inv returned fd
        exact ⟨s', called⟩
  · obtain ⟨s', called, _⟩ := read_spec inv inside a.read
    exact iff_of_true ⟨s', called⟩ (fun same => absurd same listening)

/-- Nothing is ever watched for writing. -/
theorem not_writable (inv : Inv s) (inside : 0 ≤ fd ∧ fd < s.loop.setsize) (mask : BitVec 32) :
    (s.loop.events fd).mask &&& mask &&& AE_WRITABLE = 0 := by
  rw [BitVec.and_assoc, BitVec.and_comm mask, ← BitVec.and_assoc]
  have apart : (s.loop.events fd).mask &&& AE_WRITABLE = 0#32 := by
    by_cases unset : (s.loop.events fd).mask = AE_NONE
    · rw [unset]
      decide
    · rw [(inv.table fd ⟨inside.1, inside.2, unset⟩).1]
      decide
  rw [apart]
  exact BitVec.zero_and

/-- The handler of an event is called if its descriptor has an entry still. The server is
    a part of the state the handlers work on. -/
theorem process_handled {σ : Type} (part : σ → State) {handlers : Handler → Int → σ → Option σ} {w : σ} {mask : BitVec 32}
    (inv : Inv (part w)) (inside : 0 ≤ fd ∧ fd < (part w).loop.setsize)
    (kept : ∀ w', handlers (handler_of (part w) fd) fd w = some w' →
      Inv (part w') ∧ (part w').loop.setsize = (part w).loop.setsize) :
    process_fired (fun w => (part w).loop) handlers fd mask w =
      if HasEntry (part w).loop fd ∧ mask &&& AE_READABLE ≠ 0 then handlers (handler_of (part w) fd) fd w else some w := by
  by_cases set : HasEntry (part w).loop fd
  · obtain ⟨entry, proc⟩ := inv.table fd set
    have readable : ((part w).loop.events fd).mask &&& mask &&& AE_READABLE = mask &&& AE_READABLE := by
      rw [entry, BitVec.and_comm AE_READABLE mask, BitVec.and_assoc, BitVec.and_self]
    by_cases fires : mask &&& AE_READABLE ≠ 0
    · rw [if_pos ⟨set, fires⟩]
      refine process_reads inside (by rw [readable]; exact fires) proc ?_
      intro w' called
      obtain ⟨after, size⟩ := kept w' called
      have insideToo : 0 ≤ fd ∧ fd < (part w').loop.setsize := by rwa [size]
      exact ⟨insideToo, not_writable after insideToo mask⟩
    · rw [if_neg fun both => fires both.2]
      rw [not_ne_iff] at fires
      exact process_skips inside (readable.trans fires) (not_writable inv inside mask)
  · have unset : ((part w).loop.events fd).mask = AE_NONE := by
      by_contra some
      exact set ⟨inside.1, inside.2, some⟩
    rw [if_neg fun both => set both.1]
    refine process_skips inside ?_ (not_writable inv inside mask)
    rw [unset]
    show (0#32 &&& mask) &&& AE_READABLE = 0#32
    rw [BitVec.zero_and, BitVec.zero_and]

/-! ## Runs -/

/-- The state when the next event is taken from the array. -/
theorem next_inv (inv : Inv s) {e : Int × BitVec 32} {rest : List (Int × BitVec 32)} (next : s.fired = e :: rest) :
    Inv { s with fired := rest } ∧ 0 ≤ e.1 ∧ e.1 < s.loop.setsize := by
  have fired := inv.fired
  rw [next] at fired
  refine ⟨⟨inv.inside, inv.table, inv.watched, inv.opened, fun other member => fired other ?_, inv.tracks⟩, fired e ?_⟩
  · exact List.mem_cons_of_mem _ member
  · exact List.mem_cons_self

/-- The array `fired` is of no concern for serving. -/
theorem serving_fired (serving : Serving s) (fired : List (Int × BitVec 32)) : Serving { s with fired := fired } := by
  refine ⟨serving.opened, registered_frame (s := s) rfl rfl serving.listening, serving.valid, ?_⟩
  intro fd member
  obtain ⟨opened, registered⟩ := serving.accepted fd member
  exact ⟨opened, registered_frame (s := s) rfl rfl registered⟩

theorem admits_head {a : Answer} {mask : BitVec 32} {rest : List (Int × BitVec 32)} (next : s.fired = (fd, mask) :: rest) :
    Admits s (.handle a) ↔ (fd = s.listenfd → mask &&& AE_READABLE ≠ 0 →
      0 ≤ a.accept ∧ a.accept < s.loop.setsize ∧ a.room = true) := by
  constructor
  · intro admits same readable
    exact admits mask rest (by rw [next, same]) readable
  · intro admits mask' rest' again readable
    rw [next] at again
    cases again
    exact admits rfl readable

/-- While the server serves, handling an event keeps it so exactly if it admits the
    connection of the event, if any. -/
theorem handle_serving (inv : Inv s) (serving : Serving s) {a : Answer} (free : a.accept = -1 ∨ 0 ≤ a.accept ∧
    a.accept ∉ s.kernel.opened) (inside : 0 ≤ fd ∧ fd < s.loop.setsize) (mask : BitVec 32) :
    (∃ s', (if HasEntry s.loop fd ∧ mask &&& AE_READABLE ≠ 0 then call a (handler_of s fd) fd s else some s) = some s' ∧
        Serving s') ↔
      (fd = s.listenfd → mask &&& AE_READABLE ≠ 0 → 0 ≤ a.accept ∧ a.accept < s.loop.setsize ∧ a.room = true) := by
  by_cases listening : fd = s.listenfd
  · subst listening
    have set : HasEntry s.loop s.listenfd := ⟨inside.1, inside.2, by rw [serving.listening.entry]; decide⟩
    have handler : handler_of s s.listenfd = .AcceptTcpHandler := if_pos rfl
    by_cases readable : mask &&& AE_READABLE ≠ 0
    · rw [if_pos ⟨set, readable⟩, handler]
      show (∃ s', AcceptTcpHandler s s.listenfd a.accept a.room = some s' ∧ Serving s') ↔ _
      rw [accept_serving inv serving free]
      exact ⟨fun admits _ _ => admits, fun admits => admits rfl readable⟩
    · rw [if_neg fun both => readable both.2]
      exact iff_of_true ⟨s, rfl, serving⟩ (fun _ loud => absurd loud readable)
  · refine iff_of_true ?_ (fun same => absurd same listening)
    have handler : handler_of s fd = .ReadFromClient := if_neg listening
    rw [handler]
    split_ifs
    · obtain ⟨s', called, same | left⟩ := read_spec inv inside a.read
      · exact ⟨s', called, same ▸ serving⟩
      · exact ⟨s', called, left_serving serving listening left⟩
    · exact ⟨s, rfl, serving⟩

/-- What becomes of the next event. -/
theorem handle_unfolds (inv : Inv s) {a : Answer} {mask : BitVec 32} {rest : List (Int × BitVec 32)}
    (next : s.fired = (fd, mask) :: rest)
    (free : a.accept = -1 ∨ 0 ≤ a.accept ∧ a.accept ∉ s.kernel.opened ∧ s.listenfd ∈ s.kernel.opened) :
    step s (.handle a) = if HasEntry s.loop fd ∧ mask &&& AE_READABLE ≠ 0 then
      call a (handler_of s fd) fd { s with fired := rest } else some { s with fired := rest } := by
  obtain ⟨inv₁, inside⟩ := next_inv inv next
  simp only [step, next]
  exact process_handled id inv₁ inside fun _ called => call_kept inv₁ free inside called

theorem step_keeps (s : State) (op : ServerOp) (s' : State) (inv : Inv s) (issued : Issued s op)
    (stepped : step s op = some s') : Inv s' := by
  cases op with
  | poll fired =>
    rw [step, if_pos issued.1] at stepped
    cases stepped
    exact ⟨inv.inside, inv.table, inv.watched, inv.opened, fun e member => inv.watched e.1 (issued.2 e member), inv.tracks⟩
  | handle a =>
    obtain ⟨some_event, free⟩ := issued
    obtain ⟨⟨fd, mask⟩, rest, next⟩ := List.exists_cons_of_ne_nil some_event
    obtain ⟨inv₁, inside⟩ := next_inv inv next
    rw [handle_unfolds inv next free] at stepped
    split_ifs at stepped
    · exact (call_kept inv₁ free inside stepped).1
    · cases stepped
      exact inv₁

theorem step_serving (s : State) (op : ServerOp) (inv : Inv s) (serving : Serving s) (issued : Issued s op) :
    (∃ s', step s op = some s' ∧ Serving s') ↔ Admits s op := by
  cases op with
  | poll fired => exact iff_of_true ⟨_, if_pos issued.1, serving_fired serving fired⟩ trivial
  | handle a =>
    obtain ⟨some_event, free⟩ := issued
    obtain ⟨⟨fd, mask⟩, rest, next⟩ := List.exists_cons_of_ne_nil some_event
    obtain ⟨inv₁, inside⟩ := next_inv inv next
    rw [admits_head next, handle_unfolds inv next free]
    exact handle_serving inv₁ (serving_fired serving rest) (free.imp id fun both => ⟨both.1, both.2.1⟩) inside mask

/-- What `main` has done before `aeMain`. -/
structure Started (setsize listenfd : Int) (others : List Int) (s : State) : Prop where
  listens : s.listenfd = listenfd
  inside : 0 ≤ listenfd ∧ listenfd < setsize
  size : s.loop.setsize = setsize
  opened : s.kernel.opened = listenfd :: others
  registered : Registered s listenfd .AcceptTcpHandler
  only : ∀ fd, s.kernel.watched fd ≠ none ∨ HasEntry s.loop fd → fd = listenfd
  nothing : s.accepted = [] ∧ s.fired = []
  tracks : Tracks s.loop

variable {memory : Int → aeFileEvent Handler} {setsize listenfd : Int} {others : List Int}

theorem start_started (started : start memory setsize listenfd others = some s) : Started setsize listenfd others s := by
  obtain ⟨_ | ⟨loop, kernel⟩, registered, same⟩ := Option.bind_eq_some_iff.mp started
  · cases same
  cases same
  have created := create_spec registered
  have low : 0 ≤ listenfd := created.inside.1
  have high : listenfd < setsize := created.inside.2
  have cleared : ∀ fd, 0 ≤ fd → fd < setsize → ((aeCreateEventLoop memory setsize).events fd).mask = AE_NONE := by
    intro fd positive inside
    simp [aeCreateEventLoop, positive, inside]
  have watched : kernel.watched = Function.update (fun _ => none) listenfd (some EPOLLIN) := by
    rw [created.watched, cleared listenfd low high]
    rfl
  refine ⟨rfl, ⟨low, high⟩, created.setsize, created.kept, ⟨?_, created.reads (by decide), ?_⟩, ?_,
    ⟨rfl, rfl⟩, create_tracks (create_loop_tracks memory setsize) (by decide) created⟩
  · refine created.entry.trans ?_
    rw [cleared listenfd low high]
    decide
  · show kernel.watched listenfd = some EPOLLIN
    rw [watched, Function.update_self]
  · intro fd known
    by_contra other
    rcases known with some | set
    · apply some
      show kernel.watched fd = none
      rw [watched, Function.update_of_ne other]
    · apply set.2.2
      show (loop.events fd).mask = AE_NONE
      have inside : fd < loop.setsize := set.2.1
      rw [created.setsize] at inside
      rw [created.others fd other]
      exact cleared fd set.1 inside

theorem start_spec (descriptors : ∀ fd ∈ listenfd :: others, 0 ≤ fd)
    (started : start memory setsize listenfd others = some s) : Inv s ∧ Serving s := by
  obtain ⟨rfl, inside, rfl, opened, registered, only, ⟨noneAccepted, noneFired⟩, tracks⟩ := start_started started
  refine ⟨⟨inside, ?_, ?_, ?_, by simp [noneFired], tracks⟩, ?_, registered, ?_, by simp [noneAccepted]⟩
  · intro fd set
    rw [only fd (.inr set), handler_of, if_pos rfl]
    exact ⟨registered.entry, registered.proc⟩
  · intro fd some
    rw [only fd (.inl some)]
    exact inside
  · rw [opened]
    exact descriptors
  · rw [opened]
    exact List.mem_cons_self
  · intro fd known
    rw [only fd known, opened]
    exact ⟨inside.1, inside.2, List.mem_cons_self⟩

/-- `maxfd` is right in every state of a run, whether the server serves or not. -/
theorem always_tracks (descriptors : ∀ fd ∈ listenfd :: others, 0 ≤ fd)
    (started : start memory setsize listenfd others = some s) {ops : List ServerOp} (issued : Each step Issued s ops) :
    Always step (fun s => Tracks s.loop) s ops :=
  always_mono (fun _ inv => inv.tracks) (always_of_inv step_keeps (start_spec descriptors started).1 issued)

/-- In every run of the handlers the server lives and goes on serving exactly as long as
    every accept yields a descriptor that can be registered. -/
theorem serving_iff (memory : Int → aeFileEvent Handler) (setsize listenfd : Int) (others : List Int)
    (descriptors : ∀ fd ∈ listenfd :: others, 0 ≤ fd) (s : State)
    (started : start memory setsize listenfd others = some s) (ops : List ServerOp) (issued : Each step Issued s ops) :
    ((∃ last, run step s ops = some last) ∧ Always step Serving s ops) ↔ Each step Admits s ops := by
  obtain ⟨inv, serving⟩ := start_spec descriptors started
  exact through_iff_each step_keeps step_serving inv serving issued

/-- The size of the table in `main`. -/
def table_size : Int := 1024 * 10

/-- The memory of the table before it is cleared. -/
def no_memory : Int → aeFileEvent Handler := fun _ => ⟨0, none, none, none⟩

/-- A connection comes, sends and leaves. -/
theorem serving_one_connection :
    ∃ s, start no_memory table_size 4 [0, 1, 2, 3] = some s ∧
      (((∃ last, run step s [.poll [(4, 1)], .handle ⟨5, true, 0⟩, .poll [(5, 1)], .handle ⟨-1, true, 0⟩] = some last) ∧
          Always step Serving s [.poll [(4, 1)], .handle ⟨5, true, 0⟩, .poll [(5, 1)], .handle ⟨-1, true, 0⟩]) ↔
        Each step Admits s [.poll [(4, 1)], .handle ⟨5, true, 0⟩, .poll [(5, 1)], .handle ⟨-1, true, 0⟩]) := by
  refine ⟨_, rfl, serving_iff no_memory table_size 4 [0, 1, 2, 3] (by decide) _ rfl _ ?_⟩
  refine each_cons ⟨rfl, ?_⟩ rfl <| each_cons ⟨List.cons_ne_nil _ _, .inr ⟨by decide, by decide, by decide⟩⟩ rfl <|
    each_cons ⟨rfl, ?_⟩ rfl <| ⟨⟨List.cons_ne_nil _ _, .inl rfl⟩, fun _ _ => trivial⟩
  · intro e member
    rw [List.mem_singleton.mp member]
    exact Option.some_ne_none _
  · intro e member
    rw [List.mem_singleton.mp member]
    exact Option.some_ne_none _

/-- The first number past the table: the listening socket is closed, and the connection
    stays open without an entry. -/
theorem past_table_closes :
    ∃ s last, start no_memory table_size 4 [0, 1, 2, 3] = some s ∧
      Each step Issued s [.poll [(4, 1)], .handle ⟨10240, true, 0⟩] ∧
      run step s [.poll [(4, 1)], .handle ⟨10240, true, 0⟩] = some last ∧ last.listenfd ∉ last.kernel.opened ∧
      10240 ∈ last.kernel.opened ∧ last.kernel.watched 10240 = none ∧
      ¬ Always step Serving s [.poll [(4, 1)], .handle ⟨10240, true, 0⟩] := by
  refine ⟨_, _, rfl, ?_, rfl, by decide, by decide, by decide, ?_⟩
  · refine each_cons ⟨rfl, ?_⟩ rfl <|
      ⟨⟨List.cons_ne_nil _ _, .inr ⟨by decide, by decide, by decide⟩⟩, fun _ _ => trivial⟩
    intro e member
    rw [List.mem_singleton.mp member]
    exact Option.some_ne_none _
  · intro always
    have last := always_head ((always.2 _ rfl).2 _ rfl)
    exact absurd last.opened (by decide)

end TcpLearn.BbrServer
