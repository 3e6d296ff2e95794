import TcpLearn.Server

/-!
# Connections waiting to be accepted

The listening socket is registered edge-triggered: however many connections arrive
between two calls of `epoll_wait`, they are reported once. `Process` calls
`su_accept` once for a report. So in every state that is about to wait again each
waiting connection is going to be reported exactly when every report finds a single
connection and accepts it, or another one arrives before the wait
(`none_stranded_iff`).
-/
namespace TcpLearn.Backlog
open TcpLearn.Server TcpLearn.Runs

/-- The server about to call `epoll_wait`, and the kernel's side of its listening socket. -/
structure Loop where
  server : TcpServer
  /-- How many connections have arrived and were not accepted. -/
  backlog : Nat
  /-- A connection has arrived since the last report. -/
  edge : Bool

/-- What happens after `epoll_wait` has returned. -/
inductive Item where
  | arrival
  /-- The next event is handled. -/
  | event (e : Event)

inductive LoopOp where
  /-- A connection arrives before `epoll_wait` returns. -/
  | arrival
  /-- The events of one `epoll_wait` are handled while connections arrive. -/
  | iteration (items : List Item)

def start (junk : Nat → Nat → UInt8) (listenfd : Int) (others : List Int) : Loop :=
  ⟨TcpServer_new junk listenfd others, 0, false⟩

/-! ## Counting -/

def Item.reports (listenfd : Int) : Item → Bool
  | .arrival => false
  | .event e => e.data_fd = listenfd

/-- `su_accept` is called and does not fail. -/
def Item.accepts (listenfd : Int) : Item → Bool
  | .arrival => false
  | .event e => e.data_fd = listenfd ∧ 0 ≤ e.accept

def Item.arrives : Item → Bool
  | .arrival => true
  | .event _ => false

def reports (listenfd : Int) (items : List Item) : Nat := items.countP (Item.reports listenfd)
def accepts (listenfd : Int) (items : List Item) : Nat := items.countP (Item.accepts listenfd)
def arrivals (items : List Item) : Nat := items.countP Item.arrives

theorem arrivals_cons (item : Item) (items : List Item) :
    arrivals (item :: items) = arrivals [item] + arrivals items := by
  rw [arrivals, List.countP_cons, Nat.add_comm, arrivals, List.countP_singleton, arrivals]

theorem accepts_cons (listenfd : Int) (item : Item) (items : List Item) :
    accepts listenfd (item :: items) = accepts listenfd [item] + accepts listenfd items := by
  rw [accepts, List.countP_cons, Nat.add_comm, accepts, List.countP_singleton, accepts]

/-- Only the connections of reports are accepted. -/
theorem accepts_le (listenfd : Int) (items : List Item) : accepts listenfd items ≤ reports listenfd items := by
  apply List.countP_mono_left
  intro item _ accepted
  cases item with
  | arrival => exact accepted
  | event e =>
    simp only [Item.accepts, Item.reports, decide_eq_true_eq] at accepted ⊢
    exact accepted.1

/-! ## Steps -/

def arrive (s : Loop) : Loop := { s with backlog := s.backlog + 1, edge := true }

def pass (s : Loop) : Item → Option Loop
  | .arrival => some (arrive s)
  | .event e => do
    let server ← handle s.server e
    let taken := if Item.accepts s.server.listenfd_ (.event e) then 1 else 0
    some { s with server := server, backlog := s.backlog - taken }

/-- A report clears the edge. -/
def epoll_wait (s : Loop) (items : List Item) : Loop :=
  if reports s.server.listenfd_ items = 0 then s else { s with edge := false }

def step (s : Loop) : LoopOp → Option Loop
  | .arrival => some (arrive s)
  | .iteration items => run pass (epoll_wait s items) items

/-- `su_accept` returns a connection only if one is waiting. -/
def PassIssued (s : Loop) : Item → Prop
  | .arrival => True
  | .event e => Server.Issued s.server e ∧ (Item.accepts s.server.listenfd_ (.event e) = true → s.backlog ≠ 0)

/-- The listening socket is reported after an arrival, once in an `epoll_wait`. -/
def Issued (s : Loop) : LoopOp → Prop
  | .arrival => True
  | .iteration items =>
    reports s.server.listenfd_ items ≤ 1 ∧ (reports s.server.listenfd_ items ≠ 0 → s.edge = true) ∧
      Each pass PassIssued (epoll_wait s items) items

/-- A connection that waits is going to be reported. -/
def NoneStranded (s : Loop) : Prop := s.backlog ≠ 0 → s.edge = true

/-- The report is of a single connection, which is accepted, or another one arrives. -/
def Settled (s : Loop) : LoopOp → Prop
  | .arrival => True
  | .iteration items => reports s.server.listenfd_ items ≠ 0 →
      arrivals items ≠ 0 ∨ s.backlog = 1 ∧ accepts s.server.listenfd_ items ≠ 0

/-! ## One step -/

structure Inv (s : Loop) : Prop where
  server : Server.Inv s.server
  waiting : s.edge = true → s.backlog ≠ 0

variable {s s' : Loop}

theorem start_inv (junk : Nat → Nat → UInt8) (listenfd : Int) (others : List Int) : Inv (start junk listenfd others) :=
  ⟨new_inv junk listenfd others, by simp [start]⟩

/-- What the items of an iteration have done. -/
structure Passed (items : List Item) (s s' : Loop) : Prop where
  server : Server.Inv s'.server
  listenfd_ : s'.server.listenfd_ = s.server.listenfd_
  edge : s'.edge = true ↔ s.edge = true ∨ arrivals items ≠ 0
  backlog : s'.backlog + accepts s.server.listenfd_ items = s.backlog + arrivals items

theorem handle_listenfd {t : TcpServer} (inv : Server.Inv t) {e : Event} (issued : Server.Issued t e) :
    ∃ t', handle t e = some t' ∧ Server.Inv t' ∧ t'.listenfd_ = t.listenfd_ := by
  by_cases listening : e.data_fd = t.listenfd_
  · obtain ⟨t', executed, after, accepted⟩ := accept_spec inv (issued.accept listening)
    exact ⟨t', by rw [handle_listen listening, executed], after, accepted.listenfd_⟩
  · obtain ⟨k, i, here, first⟩ := client_of_event inv issued listening
    obtain ⟨t', executed, after, serves⟩ :=
      handle_client inv listening here first fun b member => (issued.pending b member).1
    exact ⟨t', executed, after, serves.listenfd_⟩

theorem pass_spec (inv : Server.Inv s.server) {item : Item} (issued : PassIssued s item) :
    ∃ s', pass s item = some s' ∧ Passed [item] s s' := by
  cases item with
  | arrival => exact ⟨arrive s, rfl, inv, rfl, by simp [arrive, arrivals, Item.arrives], rfl⟩
  | event e =>
    obtain ⟨server, executed, after, listenfd⟩ := handle_listenfd inv issued.1
    refine ⟨_, by simp only [pass, executed, Option.bind_eq_bind, Option.bind_some]; rfl, after, listenfd, ?_, ?_⟩
    · simp [arrivals, Item.arrives]
    · show s.backlog - (if Item.accepts s.server.listenfd_ (.event e) then 1 else 0) +
          accepts s.server.listenfd_ [.event e] = s.backlog + 0
      rw [accepts, List.countP_singleton]
      by_cases accepted : Item.accepts s.server.listenfd_ (.event e) = true
      · have := issued.2 accepted
        rw [if_pos accepted]
        omega
      · rw [if_neg accepted]
        omega

theorem run_passed (inv : Server.Inv s.server) {items : List Item} (issued : Each pass PassIssued s items) :
    ∃ s', run pass s items = some s' ∧ Passed items s s' := by
  induction items generalizing s with
  | nil => exact ⟨s, rfl, inv, rfl, by simp [arrivals], rfl⟩
  | cons item items ih =>
    obtain ⟨mid, passed, first⟩ := pass_spec inv issued.1
    obtain ⟨s', executed, rest⟩ := ih first.server (issued.2 mid passed)
    refine ⟨s', by rw [run_cons, passed]; exact executed, rest.server, rest.listenfd_.trans first.listenfd_, ?_, ?_⟩
    · rw [rest.edge, first.edge, or_assoc, arrivals_cons item items]
      refine or_congr_right ?_
      omega
    · have now := first.backlog
      have later := rest.backlog
      rw [first.listenfd_] at later
      rw [arrivals_cons item items, accepts_cons _ item items]
      omega

/-- An iteration strands a connection unless the report it had was settled. -/
theorem step_spec (inv : Inv s) {op : LoopOp} (issued : Issued s op) :
    ∃ s', step s op = some s' ∧ Inv s' ∧ (NoneStranded s → (NoneStranded s' ↔ Settled s op)) := by
  cases op with
  | arrival =>
    exact ⟨arrive s, rfl, ⟨inv.server, by simp [arrive]⟩, fun _ => ⟨fun _ => trivial, fun _ _ => rfl⟩⟩
  | iteration items =>
    obtain ⟨once, edge, passes⟩ := issued
    have taken := accepts_le s.server.listenfd_ items
    have server : (epoll_wait s items).server = s.server := by
      unfold epoll_wait
      split_ifs <;> rfl
    obtain ⟨s', executed, after, _, reported, counted⟩ := run_passed (by rw [server]; exact inv.server) passes
    rw [server] at counted
    refine ⟨s', executed, ?_⟩
    have waiting := inv.waiting
    by_cases quiet : reports s.server.listenfd_ items = 0
    · -- What was to be reported still is.
      rw [epoll_wait, if_pos quiet] at reported counted
      refine ⟨⟨after, ?_⟩, ?_⟩
      · intro edge'
        rcases reported.mp edge' with before | arrived
        · have := waiting before
          omega
        · omega
      · intro none
        refine ⟨fun _ loud => absurd quiet loud, ?_⟩
        intro _ some
        apply reported.mpr
        by_cases empty : s.backlog = 0
        · exact .inr (by omega)
        · exact .inl (none empty)
    · have arrived := waiting (edge quiet)
      rw [epoll_wait, if_neg quiet] at reported counted
      simp only [Bool.false_eq_true, false_or] at reported counted
      refine ⟨⟨after, ?_⟩, ?_⟩
      · intro edge'
        have := reported.mp edge'
        omega
      · intro _
        rw [NoneStranded, reported, Settled]
        constructor
        · intro settled _
          omega
        · intro settled _
          have := settled quiet
          omega

/-- In every run of the loop with any arrivals, no connection is stranded exactly when
    every report is settled. -/
theorem none_stranded_iff (junk : Nat → Nat → UInt8) (listenfd : Int) (others : List Int) (ops : List LoopOp)
    (issued : Each step Issued (start junk listenfd others) ops) :
    Always step NoneStranded (start junk listenfd others) ops ↔ Each step Settled (start junk listenfd others) ops := by
  refine always_iff_each ?_ ?_ (start_inv junk listenfd others) (fun some => absurd rfl some) issued
  · intro s op s' inv good stepped
    obtain ⟨other, same, after, _⟩ := step_spec inv good
    cases stepped.symm.trans same
    exact after
  · intro s op inv none good
    obtain ⟨s', stepped, _, iff⟩ := step_spec inv good
    exact ⟨s', stepped, iff none⟩

/-- A connection is accepted, and another one arrives right behind it. -/
theorem none_stranded_one_by_one :
    Always step NoneStranded (start (fun _ _ => 0) 3 [0, 1, 2, 4])
        [.arrival, .iteration [.event (listening 5), .arrival], .iteration []] ↔
      Each step Settled (start (fun _ _ => 0) 3 [0, 1, 2, 4])
        [.arrival, .iteration [.event (listening 5), .arrival], .iteration []] := by
  apply none_stranded_iff
  have free : Server.Issued first_server (listening 5) := issued_listening rfl ⟨by decide, by decide⟩
  have passes : Each pass PassIssued (epoll_wait (arrive (start (fun _ _ => 0) 3 [0, 1, 2, 4]))
      [.event (listening 5), .arrival]) [.event (listening 5), .arrival] :=
    each_cons ⟨free, fun _ => by decide⟩ rfl ⟨trivial, fun _ _ => trivial⟩
  refine each_cons trivial rfl <| each_cons ⟨by decide, fun _ => rfl, passes⟩ rfl ?_
  exact ⟨⟨by decide, fun loud => absurd rfl loud, trivial⟩, fun _ _ => trivial⟩

/-- Two connections arrive before the wait, one of them is accepted, and the other
    one is not going to be reported. -/
theorem second_stranded :
    Each step Issued (start (fun _ _ => 0) 3 [0, 1, 2, 4]) [.arrival, .arrival, .iteration [.event (listening 5)]] ∧
      ¬ Always step NoneStranded (start (fun _ _ => 0) 3 [0, 1, 2, 4])
        [.arrival, .arrival, .iteration [.event (listening 5)]] := by
  have free : Server.Issued first_server (listening 5) := issued_listening rfl ⟨by decide, by decide⟩
  refine ⟨each_cons trivial rfl <| each_cons trivial rfl <| ⟨⟨by decide, fun _ => rfl, ?_⟩, fun _ _ => trivial⟩, ?_⟩
  · exact ⟨⟨free, fun _ => by decide⟩, fun _ _ => trivial⟩
  · intro always
    have last := always_head (((always.2 _ rfl).2 _ rfl).2 _ rfl)
    exact absurd (last (by decide)) (by decide)

end TcpLearn.Backlog
