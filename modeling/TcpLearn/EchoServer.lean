import TcpLearn.BbrServer

/-!
# The echo server

The handlers of `echo_server.c`. They do with descriptors what those of
`tcp_bbr_server.cc` do, where a failed `write` ends a connection as a failed `read`
does: every run is one of that server (`runs_as_bbr`). What was read is written back
from a buffer of `MAX_LEN` bytes, whatever was read, so the clients are sent what they
sent exactly as long as each `write` takes as many bytes as the `read` before it gave
(`echoes_iff`).
-/
namespace TcpLearn.EchoServer
open TcpLearn.EventLoop TcpLearn.Runs
open TcpLearn.BbrServer (Handler handler_of)

/-! ## The code -/

def MAX_LEN : Nat := 1024

structure State where
  /-- The event loop and the descriptors. -/
  server : BbrServer.State
  /-- The bytes read from the open connection that has the number. -/
  heard : Int → List UInt8
  /-- The bytes written to it. -/
  said : Int → List UInt8

/-- What the kernel answers while one event is handled. -/
structure Answer where
  accept : Int
  room : Bool
  /-- The bytes that `read` stores, none at the end of the stream; no result is an error. -/
  read : Option (List UInt8)
  /-- What `write` returns. -/
  write : Int

/-- What `read` returns. -/
def Answer.res (a : Answer) : Int :=
  match a.read with
  | none => -1
  | some chunk => chunk.length

/-- The buffer is zeroed before it is read into. -/
def buffer (chunk : List UInt8) : List UInt8 := chunk ++ List.replicate (MAX_LEN - chunk.length) 0

/-- The descriptor is closed too, and with it the connection ends. -/
def ClientClose (s : State) (fd : Int) : Option State :=
  (BbrServer.ClientClose s.server fd).map fun server =>
    ⟨server, Function.update s.heard fd [], Function.update s.said fd []⟩

def ReadFromClient (s : State) (fd : Int) (a : Answer) : Option State :=
  let chunk := a.read.getD []
  let s := { s with heard := Function.update s.heard fd (s.heard fd ++ chunk) }
  if a.res ≤ 0 then ClientClose s fd
  else
    let s := { s with said := Function.update s.said fd (s.said fd ++ (buffer chunk).take a.write.toNat) }
    if a.write = -1 then ClientClose s fd else some s

/-- `anetTcpAccept`, the registration of the connection, and `close(fd)` when that fails. -/
def AcceptTcpHandler (s : State) (fd cfd : Int) (room : Bool) : Option State :=
  (BbrServer.AcceptTcpHandler s.server fd cfd room).map fun server => { s with server := server }

def call (a : Answer) (handler : Handler) (fd : Int) (s : State) : Option State :=
  match handler with
  | .AcceptTcpHandler => AcceptTcpHandler s fd a.accept a.room
  | .ReadFromClient => ReadFromClient s fd a

inductive ServerOp where
  | poll (fired : List (Int × BitVec 32))
  | handle (a : Answer)

def step (s : State) : ServerOp → Option State
  | .poll fired => if s.server.fired = [] then some { s with server := { s.server with fired := fired } } else none
  | .handle a =>
    match s.server.fired with
    | [] => none
    | (fd, mask) :: rest =>
      process_fired (fun s => s.server.loop) (call a) fd mask { s with server := { s.server with fired := rest } }

def start (memory : Int → aeFileEvent Handler) (setsize listenfd : Int) (others : List Int) : Option State :=
  (BbrServer.start memory setsize listenfd others).map fun server => ⟨server, fun _ => [], fun _ => []⟩

/-! ## The other server -/

/-- To the descriptors a failed `write` is a failed `read`. -/
def Answer.erase (a : Answer) : BbrServer.Answer :=
  ⟨a.accept, a.room, if a.res ≤ 0 then a.res else if a.write = -1 then -1 else a.res⟩

def ServerOp.erase : ServerOp → BbrServer.ServerOp
  | .poll fired => .poll fired
  | .handle a => .handle a.erase

theorem close_erase (s : State) (fd : Int) :
    (ClientClose s fd).map State.server = BbrServer.ClientClose s.server fd := by
  rw [ClientClose, Option.map_map]
  exact congrFun Option.map_id _

theorem call_erase (a : Answer) (handler : Handler) (fd : Int) (s : State) :
    (call a handler fd s).map State.server = BbrServer.call a.erase handler fd s.server := by
  cases handler with
  | AcceptTcpHandler =>
    show ((BbrServer.AcceptTcpHandler s.server fd a.accept a.room).map fun server => { s with server := server }).map
      State.server = _
    rw [Option.map_map]
    exact congrFun Option.map_id _
  | ReadFromClient =>
    simp only [call, ReadFromClient, BbrServer.call, BbrServer.ReadFromClient, Answer.erase]
    by_cases ended : a.res ≤ 0
    · simp [ended, close_erase]
    · by_cases failed : a.write = -1 <;> simp [ended, failed, close_erase]

/-- Handling a fired event, seen through a part of the state that decides it. -/
theorem process_part {σ τ Proc : Type} [DecidableEq Proc] (part : σ → τ) {eventLoop : τ → aeEventLoop Proc}
    {callS : Proc → Int → σ → Option σ} {callT : Proc → Int → τ → Option τ}
    (commutes : ∀ proc fd s, (callS proc fd s).map part = callT proc fd (part s)) (fd : Int) (mask : BitVec 32) (s : σ) :
    (process_fired (fun s => eventLoop (part s)) callS fd mask s).map part =
      process_fired eventLoop callT fd mask (part s) := by
  have called : ∀ (asked : Prop) [Decidable asked] (proc : Option Proc) (s : σ),
      (if asked then proc.bind fun proc => callS proc fd s else some s).map part =
        if asked then proc.bind fun proc => callT proc fd (part s) else some (part s) := by
    intro asked _ proc s
    split_ifs
    · rw [Option.map_bind]
      exact congrArg _ (funext fun proc => commutes proc fd s)
    · rfl
  simp only [process_fired, Option.bind_eq_bind, Option.map_bind, Function.comp_def, called]
  refine congrArg _ (funext fun fe => ?_)
  rw [← called, Option.bind_map]
  rfl

theorem step_erase (s : State) (op : ServerOp) : (step s op).map State.server = BbrServer.step s.server op.erase := by
  cases op with
  | poll fired =>
    simp only [step, BbrServer.step, ServerOp.erase]
    split_ifs <;> rfl
  | handle a =>
    simp only [step, BbrServer.step, ServerOp.erase]
    cases s.server.fired with
    | nil => rfl
    | cons e rest => exact process_part State.server (call_erase a) e.1 e.2 _

/-- Every run of the echo server is a run of the other one, as far as descriptors go. -/
theorem runs_as_bbr (s : State) (ops : List ServerOp) :
    (run step s ops).map State.server = run BbrServer.step s.server (ops.map ServerOp.erase) := by
  induction ops generalizing s with
  | nil => rfl
  | cons op ops ih =>
    rw [List.map_cons, run_cons, run_cons, ← step_erase, Option.map_bind, Option.bind_map]
    exact congrArg _ (funext ih)

/-! ## What is sent back -/

/-- The clients of the open connections were sent what they sent. -/
def Echoing (s : State) : Prop := ∀ fd, s.said fd = s.heard fd

/-- What the kernel does: no call moves more than the buffer holds. -/
def Issued (s : State) (op : ServerOp) : Prop :=
  BbrServer.Issued s.server op.erase ∧
    match op with
    | .poll _ => True
    | .handle a => (∀ chunk, a.read = some chunk → chunk.length ≤ MAX_LEN) ∧
        (a.write = -1 ∨ 0 ≤ a.write ∧ a.write ≤ MAX_LEN)

/-- When `ReadFromClient` is called and reads some bytes, `write` takes as many, or fails. -/
def Exactly (s : State) : ServerOp → Prop
  | .poll _ => True
  | .handle a => ∀ fd mask rest, s.server.fired = (fd, mask) :: rest → HasEntry s.server.loop fd →
      fd ≠ s.server.listenfd → mask &&& AE_READABLE ≠ 0 → ∀ chunk, a.read = some chunk → chunk ≠ [] →
        a.write = chunk.length ∨ a.write = -1

variable {s : State} {fd : Int}

/-- The echo of a chunk is a part of the buffer, and the chunk itself only at its own length. -/
theorem buffer_take {chunk : List UInt8} (fits : chunk.length ≤ MAX_LEN) {n : Nat} (within : n ≤ MAX_LEN) :
    (buffer chunk).take n = chunk ↔ n = chunk.length := by
  have whole : (buffer chunk).length = MAX_LEN := by
    rw [buffer, List.length_append, List.length_replicate]
    omega
  constructor
  · intro same
    have length := congrArg List.length same
    rw [List.length_take, whole] at length
    omega
  · rintro rfl
    rw [buffer, List.take_left]

theorem close_echoing {s' : State} (echoing : ∀ other, other ≠ fd → s.said other = s.heard other)
    (closed : ClientClose s fd = some s') : Echoing s' := by
  obtain ⟨server, _, rfl⟩ := Option.map_eq_some_iff.mp closed
  intro other
  by_cases same : other = fd
  · subst same
    simp
  · simpa [same] using echoing other same

/-- The state of `ReadFromClient` after a chunk was read and written back. -/
def answered (s : State) (fd : Int) (chunk : List UInt8) (write : Int) : State :=
  ⟨s.server, Function.update s.heard fd (s.heard fd ++ chunk),
    Function.update s.said fd (s.said fd ++ (buffer chunk).take write.toNat)⟩

theorem answered_others (echoing : Echoing s) (chunk : List UInt8) (write : Int) {other : Int} (differ : other ≠ fd) :
    (answered s fd chunk write).said other = (answered s fd chunk write).heard other := by
  simpa [answered, differ] using echoing other

theorem read_echoing {s' : State} (echoing : Echoing s) {a : Answer}
    (fits : ∀ chunk, a.read = some chunk → chunk.length ≤ MAX_LEN)
    (writes : a.write = -1 ∨ 0 ≤ a.write ∧ a.write ≤ MAX_LEN) (called : ReadFromClient s fd a = some s') : Echoing s' ↔
      ∀ chunk, a.read = some chunk → chunk ≠ [] → a.write = chunk.length ∨ a.write = -1 := by
  by_cases ended : a.res ≤ 0
  · have nothing : ∀ chunk, a.read = some chunk → chunk = [] := by
      intro chunk given
      rw [Answer.res, given] at ended
      exact List.length_eq_zero_iff.mp (by simpa using ended)
    refine iff_of_true ?_ (fun chunk given some => absurd (nothing chunk given) some)
    rw [ReadFromClient, if_pos ended] at called
    refine close_echoing (fun other differ => ?_) called
    simpa [differ] using echoing other
  · obtain ⟨chunk, given⟩ : ∃ chunk, a.read = some chunk := by
      cases read : a.read with
      | none => simp [Answer.res, read] at ended
      | some chunk => exact ⟨chunk, rfl⟩
    have some_bytes : chunk ≠ [] := by
      rintro rfl
      simp [Answer.res, given] at ended
    have only : (∀ other, a.read = some other → other ≠ [] → a.write = other.length ∨ a.write = -1) ↔
        a.write = chunk.length ∨ a.write = -1 := by
      constructor
      · exact fun all => all chunk given some_bytes
      · intro here other same _
        cases given.symm.trans same
        exact here
    have result : ReadFromClient s fd a =
        if a.write = -1 then ClientClose (answered s fd chunk a.write) fd else some (answered s fd chunk a.write) := by
      rw [ReadFromClient, if_neg ended, given]
      rfl
    rw [result] at called
    rw [only]
    by_cases failed : a.write = -1
    · rw [if_pos failed] at called
      exact iff_of_true (close_echoing (fun other differ => answered_others echoing chunk a.write differ) called) (.inr failed)
    · rw [if_neg failed] at called
      cases called
      rw [or_iff_left failed]
      obtain ⟨low, high⟩ := writes.resolve_left failed
      have within : a.write.toNat ≤ MAX_LEN := by omega
      have exact_iff := buffer_take (fits chunk given) within
      constructor
      · intro after
        have here := after fd
        simp only [answered, Function.update_self, echoing fd, List.append_cancel_left_eq] at here
        have length := exact_iff.mp here
        omega
      · intro length other
        by_cases same : other = fd
        · subst same
          have whole := exact_iff.mpr (by omega)
          simp [answered, whole, echoing other]
        · exact answered_others echoing chunk a.write same

theorem read_returns (inv : BbrServer.Inv s.server) (inside : 0 ≤ fd ∧ fd < s.server.loop.setsize) (a : Answer) :
    ∃ s', ReadFromClient s fd a = some s' := by
  obtain ⟨server, returned, _⟩ := BbrServer.read_spec inv inside a.erase.read
  have same : (ReadFromClient s fd a).map State.server = some server := (call_erase a .ReadFromClient fd s).trans returned
  obtain ⟨s', called, _⟩ := Option.map_eq_some_iff.mp same
  exact ⟨s', called⟩

/-- The state when the next event is taken from the array. -/
def taken (s : State) (rest : List (Int × BitVec 32)) : State := { s with server := { s.server with fired := rest } }

theorem handle_unfolds (inv : BbrServer.Inv s.server) {a : Answer} {mask : BitVec 32} {rest : List (Int × BitVec 32)}
    (next : s.server.fired = (fd, mask) :: rest) (free : a.accept = -1 ∨
      0 ≤ a.accept ∧ a.accept ∉ s.server.kernel.opened ∧ s.server.listenfd ∈ s.server.kernel.opened) :
    step s (.handle a) = if HasEntry s.server.loop fd ∧ mask &&& AE_READABLE ≠ 0 then
      call a (handler_of s.server fd) fd (taken s rest) else some (taken s rest) := by
  obtain ⟨inv₁, inside⟩ := BbrServer.next_inv inv next
  simp only [step, next]
  refine BbrServer.process_handled (w := taken s rest) State.server inv₁ inside ?_
  intro s' called
  have erased := call_erase a (handler_of s.server fd) fd (taken s rest)
  exact BbrServer.call_kept (a := a.erase) inv₁ free inside
    (erased.symm.trans (congrArg (Option.map State.server) called))

theorem step_echoing (s : State) (op : ServerOp) (inv : BbrServer.Inv s.server) (echoing : Echoing s)
    (issued : Issued s op) :
    (step s op = none → Exactly s op) ∧ ∀ s', step s op = some s' → (Echoing s' ↔ Exactly s op) := by
  cases op with
  | poll fired =>
    refine ⟨fun _ => trivial, ?_⟩
    intro s' stepped
    rw [step, if_pos issued.1.1] at stepped
    cases stepped
    exact iff_of_true echoing trivial
  | handle a =>
    obtain ⟨⟨some_event, free⟩, fits, writes⟩ := issued
    obtain ⟨⟨fd, mask⟩, rest, next⟩ := List.exists_cons_of_ne_nil some_event
    obtain ⟨inv₁, inside⟩ := BbrServer.next_inv inv next
    have head : Exactly s (.handle a) ↔ (HasEntry s.server.loop fd → fd ≠ s.server.listenfd → mask &&& AE_READABLE ≠ 0 →
        ∀ chunk, a.read = some chunk → chunk ≠ [] → a.write = chunk.length ∨ a.write = -1) := by
      constructor
      · exact fun exactly => exactly fd mask rest next
      · intro here fd' mask' rest' again
        cases next.symm.trans again
        exact here
    rw [head, handle_unfolds inv next free]
    have same : Echoing (taken s rest) := echoing
    by_cases fires : HasEntry s.server.loop fd ∧ mask &&& AE_READABLE ≠ 0
    · rw [if_pos fires]
      by_cases listening : fd = s.server.listenfd
      · -- accepting a connection changes nothing that was said
        refine ⟨fun _ _ other => absurd listening other, ?_⟩
        intro s' called
        rw [show handler_of s.server fd = .AcceptTcpHandler from if_pos listening] at called
        obtain ⟨server, _, rfl⟩ := Option.map_eq_some_iff.mp called
        exact iff_of_true echoing (fun _ other => absurd listening other)
      · rw [show handler_of s.server fd = .ReadFromClient from if_neg listening]
        obtain ⟨s', called⟩ := read_returns (s := taken s rest) inv₁ inside a
        refine ⟨fun none => absurd (called.symm.trans none) (Option.some_ne_none s'), ?_⟩
        intro last again
        rw [read_echoing same fits writes again]
        exact ⟨fun all _ _ _ => all, fun all => all fires.1 listening fires.2⟩
    · rw [if_neg fires]
      refine ⟨nofun, ?_⟩
      intro s' stepped
      cases stepped
      exact iff_of_true same (fun set _ readable => absurd ⟨set, readable⟩ fires)

theorem step_inv (s : State) (op : ServerOp) (s' : State) (inv : BbrServer.Inv s.server) (issued : Issued s op)
    (stepped : step s op = some s') : BbrServer.Inv s'.server := by
  have other := step_erase s op
  rw [stepped, Option.map_some] at other
  exact BbrServer.step_keeps s.server op.erase s'.server inv issued.1 other.symm

/-- In every run the clients are sent what they sent, and nothing else, exactly as long as
    every `write` takes as many bytes as were read. -/
theorem echoes_iff (memory : Int → aeFileEvent Handler) (setsize listenfd : Int) (others : List Int)
    (descriptors : ∀ fd ∈ listenfd :: others, 0 ≤ fd) (s : State)
    (started : start memory setsize listenfd others = some s) (ops : List ServerOp) (issued : Each step Issued s ops) :
    Always step Echoing s ops ↔ Each step Exactly s ops := by
  obtain ⟨server, running, rfl⟩ := Option.map_eq_some_iff.mp started
  exact always_iff_each_partial step_inv step_echoing (BbrServer.start_spec descriptors running).1 (fun _ => rfl) issued

/-- A client that sends one byte is sent 1024 by a `write` of the whole buffer. -/
theorem echoes_iff_padded :
    ∃ s, start BbrServer.no_memory BbrServer.table_size 4 [0, 1, 2, 3] = some s ∧
      ¬ Always step Echoing s [.poll [(4, 1)], .handle ⟨5, true, none, 0⟩, .poll [(5, 1)], .handle ⟨-1, true, some [7], 1024⟩] := by
  refine ⟨_, rfl, ?_⟩
  rw [echoes_iff BbrServer.no_memory BbrServer.table_size 4 [0, 1, 2, 3] (by decide) _ rfl]
  · intro each
    have last := (((each.2 _ rfl).2 _ rfl).2 _ rfl).1 5 1 [] rfl ⟨by decide, by decide, by decide⟩ (by decide) (by decide)
      [7] rfl (by decide)
    exact absurd last (by decide)
  · have answers : ∀ read : Option (List UInt8), (∀ chunk, read = some chunk → chunk.length ≤ 1) →
        ∀ chunk, read = some chunk → chunk.length ≤ MAX_LEN :=
      fun read small chunk given => (small chunk given).trans (by decide)
    refine each_cons ⟨⟨rfl, ?_⟩, trivial⟩ rfl <|
      each_cons ⟨⟨List.cons_ne_nil _ _, .inr ⟨by decide, by decide, by decide⟩⟩, answers none nofun, .inr (by decide)⟩ rfl <|
      each_cons ⟨⟨rfl, ?_⟩, trivial⟩ rfl <|
      ⟨⟨⟨List.cons_ne_nil _ _, .inl rfl⟩, answers (some [7]) (by rintro _ ⟨⟩; decide), .inr (by decide)⟩, fun _ _ => trivial⟩
    · intro e member
      rw [List.mem_singleton.mp member]
      exact Option.some_ne_none _
    · intro e member
      rw [List.mem_singleton.mp member]
      exact Option.some_ne_none _

end TcpLearn.EchoServer
