import TcpLearn.BbrServer
import TcpLearn.Polling

/-!
# The whole server

`main` of `tcp_bbr_server.cc` with everything that `aeMain` interleaves: the handlers of
the connections and the timer that prints a line every ten seconds. `Running` are the
worlds the loop comes to after its iterations, whatever the clock shows and the kernel
reports and answers. Seen through the descriptors such a run is one of the handlers
(`serves_as_handlers`). An iteration comes to its end unless an accept fails or the clock
leaps (`iteration_total`); and the lines are ten seconds apart, as long as the clock is
not set back (`lines_apart`).
-/
namespace TcpLearn.MainLoop
open TcpLearn.TimeEvents TcpLearn.Polling TcpLearn.Runs
open TcpLearn.BbrServer (Handler Answer ServerOp handler_of)

/-! ## The program -/

structure State where
  server : BbrServer.State
  /-- How often a handler was called. -/
  handled : Nat
  /-- `i` of `PrintTimer`. -/
  printed : Nat

/-- A kernel: events are of watched descriptors, and an open socket is accepted from under
    a number that is not in use, if at all. -/
structure Kernel where
  /-- The answers to the calls of a handler. -/
  answer : World Unit State → Answer
  epoll_wait : Int → World Unit State → List (Int × BitVec 32)
  accepts : ∀ w, (answer w).accept = -1 ∨ 0 ≤ (answer w).accept ∧ (answer w).accept ∉ w.rest.server.kernel.opened ∧
    w.rest.server.listenfd ∈ w.rest.server.kernel.opened
  reports : ∀ wait w, ∀ event ∈ epoll_wait wait w, w.rest.server.kernel.watched event.1 ≠ none

def PrintTimer : Procedures Unit State where
  timeProc _ _ _ w := some ({ w with rest := { w.rest with printed := w.rest.printed + 1 } }, 10000)
  finalizerProc _ _ w := some w

def call (kernel : Kernel) (handler : Handler) (fd : Int) (w : World Unit State) : Option (World Unit State) :=
  (BbrServer.call (kernel.answer w) handler fd w.rest.server).map fun server =>
    { w with rest := { w.rest with server := server, handled := w.rest.handled + 1 } }

def program (kernel : Kernel) : Program Unit Handler State :=
  ⟨PrintTimer, fun s => s.server.loop, call kernel, kernel.epoll_wait⟩

/-- `main` before `aeCreateTimeEvent`. -/
def created (server : BbrServer.State) (now : Int) : World Unit State := ⟨aeCreateEventLoop now, 0, ⟨server, 0, 0⟩⟩

/-- `main` up to `aeMain`, when the listening descriptor can be registered. -/
def start (clock : Clock) (server : BbrServer.State) (now : Int) : World Unit State :=
  (aeCreateTimeEvent clock (created server now) 1 () none none true).1

/-- The worlds after an iteration of `aeMain`, with the calls of the timer so far. -/
inductive Running (clock : Clock) (kernel : Kernel) (first : World Unit State) :
    World Unit State → List (Call Unit) → Prop
  | start : Running clock kernel first first []
  | iteration {w w' : World Unit State} {history calls : List (Call Unit)} {numevents : Nat} (fuel : Nat)
      (running : Running clock kernel first w history)
      (executed : aeProcessEvents clock (program kernel) AE_ALL_EVENTS fuel w = some (w', numevents, calls)) :
      Running clock kernel first w' (history ++ calls)

section
variable {clock : Clock} {kernel : Kernel} {first w w' : World Unit State} {history calls : List (Call Unit)}

/-- What `aeMain` returns with is such a world, whatever stops it. -/
theorem main_running {stop : State → Bool} {fuel : Nat} (running : Running clock kernel first w history)
    (executed : aeMain clock (program kernel) stop none fuel w = some (w', calls)) :
    Running clock kernel first w' (history ++ calls) := by
  induction fuel generalizing w history calls with
  | zero => cases executed
  | succ fuel ih =>
    rw [aeMain] at executed
    split_ifs at executed with stopped
    · cases executed
      rw [List.append_nil]
      exact running
    · obtain ⟨⟨mid, numevents, made⟩, iterated, rest⟩ := Option.bind_eq_some_iff.mp executed
      obtain ⟨⟨last, later⟩, further, same⟩ := Option.bind_eq_some_iff.mp rest
      cases same
      rw [← List.append_assoc]
      exact ih (.iteration fuel running iterated) further

/-! ## Handling events -/

/-- The server with the rest of an array of fired events. -/
def armed (s : BbrServer.State) (fired : List (Int × BitVec 32)) : BbrServer.State := { s with fired := fired }

theorem accept_armed (s : BbrServer.State) (fired : List (Int × BitVec 32)) (fd cfd : Int) (room : Bool) :
    BbrServer.AcceptTcpHandler (armed s fired) fd cfd room =
      (BbrServer.AcceptTcpHandler s fd cfd room).map fun s => armed s fired := by
  have accepted : BbrServer.anetTcpAccept (armed s fired) cfd = armed (BbrServer.anetTcpAccept s cfd) fired := by
    simp only [BbrServer.anetTcpAccept]
    split_ifs <;> rfl
  have loop : (armed (BbrServer.anetTcpAccept s cfd) fired).loop = (BbrServer.anetTcpAccept s cfd).loop := rfl
  have kernel : (armed (BbrServer.anetTcpAccept s cfd) fired).kernel = (BbrServer.anetTcpAccept s cfd).kernel := rfl
  simp only [BbrServer.AcceptTcpHandler, accepted, loop, kernel, Option.bind_eq_bind, Option.map_bind]
  refine congrArg _ (funext fun registered => ?_)
  cases registered <;> rfl

theorem close_armed (s : BbrServer.State) (fired : List (Int × BitVec 32)) (fd : Int) :
    BbrServer.ClientClose (armed s fired) fd = (BbrServer.ClientClose s fd).map fun s => armed s fired := by
  simp only [BbrServer.ClientClose, Option.bind_eq_bind, Option.map_bind]
  rfl

theorem call_armed (a : Answer) (handler : Handler) (fd : Int) (s : BbrServer.State) (fired : List (Int × BitVec 32)) :
    BbrServer.call a handler fd (armed s fired) = (BbrServer.call a handler fd s).map fun s => armed s fired := by
  cases handler with
  | AcceptTcpHandler => exact accept_armed s fired fd a.accept a.room
  | ReadFromClient =>
    simp only [BbrServer.call, BbrServer.ReadFromClient]
    split_ifs
    · exact close_armed s fired fd
    · rfl

/-- The handlers leave the array alone. -/
theorem call_fired {a : Answer} {handler : Handler} {fd : Int} {s s' : BbrServer.State}
    (called : BbrServer.call a handler fd s = some s') : s'.fired = s.fired := by
  have same := call_armed a handler fd s s.fired
  rw [show armed s s.fired = s from rfl, called, Option.map_some] at same
  have kept := congrArg BbrServer.State.fired (Option.some.inj same)
  exact kept

/-- The handlers leave the timer alone. -/
structure Handles (w w' : World Unit State) : Prop where
  eventLoop : w'.eventLoop = w.eventLoop
  reads : w'.reads = w.reads
  printed : w'.rest.printed = w.rest.printed
  fired : w'.rest.server.fired = w.rest.server.fired

/-- What becomes of an event: its handler is called if the descriptor has an entry still. -/
def handled (kernel : Kernel) (fd : Int) (mask : BitVec 32) (w : World Unit State) : Option (World Unit State) :=
  if EventLoop.HasEntry w.rest.server.loop fd ∧ mask &&& EventLoop.AE_READABLE ≠ 0 then
    call kernel (handler_of w.rest.server fd) fd w
  else some w

variable {fd : Int} {mask : BitVec 32} {rest fired : List (Int × BitVec 32)}

theorem handled_handles (executed : handled kernel fd mask w = some w') : Handles w w' := by
  unfold handled at executed
  split_ifs at executed
  · obtain ⟨server, called, rfl⟩ := Option.map_eq_some_iff.mp executed
    exact ⟨rfl, rfl, rfl, call_fired called⟩
  · cases executed
    exact ⟨rfl, rfl, rfl, rfl⟩

theorem called_armed {handler : Handler} (called : call kernel handler fd w = some w') (rest : List (Int × BitVec 32)) :
    BbrServer.call (kernel.answer w) handler fd (armed w.rest.server rest) = some (armed w'.rest.server rest) := by
  obtain ⟨server, same, rfl⟩ := Option.map_eq_some_iff.mp called
  rw [call_armed, same]
  rfl

/-- The dispatch of one event by the code does that much. -/
theorem fired_handled (inv : BbrServer.Inv (armed w.rest.server rest))
    (inside : 0 ≤ fd ∧ fd < w.rest.server.loop.setsize) :
    EventLoop.process_fired (fun w => w.rest.server.loop) (call kernel) fd mask w = handled kernel fd mask w := by
  refine BbrServer.process_handled (fun w : World Unit State => armed w.rest.server rest) inv inside ?_
  intro w' called
  exact BbrServer.call_kept inv (kernel.accepts w) inside (called_armed called rest)

/-- It is a step of the server. -/
theorem handled_server (inv : BbrServer.Inv (armed w.rest.server ((fd, mask) :: rest)))
    (executed : handled kernel fd mask w = some w') :
    BbrServer.step (armed w.rest.server ((fd, mask) :: rest)) (.handle (kernel.answer w)) =
        some (armed w'.rest.server rest) ∧
      BbrServer.Inv (armed w'.rest.server rest) := by
  have issued : BbrServer.Issued (armed w.rest.server ((fd, mask) :: rest)) (.handle (kernel.answer w)) :=
    ⟨List.cons_ne_nil _ _, kernel.accepts w⟩
  have stepped : BbrServer.step (armed w.rest.server ((fd, mask) :: rest)) (.handle (kernel.answer w)) =
      some (armed w'.rest.server rest) := by
    rw [BbrServer.handle_unfolds inv rfl (kernel.accepts w)]
    unfold handled at executed
    split_ifs at executed with fires
    · exact (if_pos fires).trans (called_armed executed rest)
    · cases executed
      exact if_neg fires
  exact ⟨stepped, BbrServer.step_keeps _ _ _ inv issued stepped⟩

/-- A batch that is handled is a run of the server. -/
theorem dispatch_serves (inv : BbrServer.Inv (armed w.rest.server fired))
    (dispatched : FileEvents.dispatch (fun w => w.rest.server.loop) (call kernel) fired w = some w') :
    Handles w w' ∧ BbrServer.Inv (armed w'.rest.server []) ∧ ∃ answers : List Answer,
      Each BbrServer.step BbrServer.Issued (armed w.rest.server fired) (answers.map ServerOp.handle) ∧
      run BbrServer.step (armed w.rest.server fired) (answers.map ServerOp.handle) = some (armed w'.rest.server []) := by
  induction fired generalizing w with
  | nil =>
    cases dispatched
    exact ⟨⟨rfl, rfl, rfl, rfl⟩, inv, [], trivial, rfl⟩
  | cons event fired ih =>
    obtain ⟨fd, mask⟩ := event
    obtain ⟨rest, inside⟩ := BbrServer.next_inv inv rfl
    obtain ⟨mid, first, later⟩ := Option.bind_eq_some_iff.mp dispatched
    rw [fired_handled rest inside] at first
    obtain ⟨stepped, after⟩ := handled_server inv first
    obtain ⟨handles, last, answers, issued, ran⟩ := ih after later
    have here := handled_handles first
    refine ⟨?_, last, kernel.answer w :: answers, ?_, ?_⟩
    · exact ⟨handles.eventLoop.trans here.eventLoop, handles.reads.trans here.reads,
        handles.printed.trans here.printed, handles.fired.trans here.fired⟩
    · exact each_cons ⟨List.cons_ne_nil _ _, kernel.accepts w⟩ stepped issued
    · rw [List.map_cons, run_cons, stepped]
      exact ran

/-- `aeProcessEvents` goes on to the next event. -/
def fires (kernel : Kernel) (w : World Unit State) (event : Int × BitVec 32) : Option (World Unit State) :=
  EventLoop.process_fired (fun w => w.rest.server.loop) (call kernel) event.1 event.2 w

/-- If the event makes the server accept a connection, it gets one. -/
def Accepts (kernel : Kernel) (w : World Unit State) (event : Int × BitVec 32) : Prop :=
  event.1 = w.rest.server.listenfd → EventLoop.HasEntry w.rest.server.loop event.1 →
    event.2 &&& EventLoop.AE_READABLE ≠ 0 → 0 ≤ (kernel.answer w).accept

theorem handled_returns (inv : BbrServer.Inv (armed w.rest.server rest))
    (inside : 0 ≤ fd ∧ fd < w.rest.server.loop.setsize) :
    (∃ w', handled kernel fd mask w = some w') ↔ Accepts kernel w (fd, mask) := by
  unfold handled
  split_ifs with asked
  · have returns := BbrServer.call_returns inv ((kernel.accepts w).imp id And.left) inside
    have handler : handler_of (armed w.rest.server rest) fd = handler_of w.rest.server fd := rfl
    rw [handler, call_armed] at returns
    have same : (∃ w', call kernel (handler_of w.rest.server fd) fd w = some w') ↔
        ∃ s', (BbrServer.call (kernel.answer w) (handler_of w.rest.server fd) fd w.rest.server).map (fun s => armed s rest) =
          some s' := by
      simp [call, Option.map_eq_some_iff]
    rw [same, returns]
    exact ⟨fun accepts listening _ _ => accepts listening, fun accepts listening => accepts listening asked.1 asked.2⟩
  · exact iff_of_true ⟨w, rfl⟩ (fun _ set readable => absurd ⟨set, readable⟩ asked)

/-- A batch is handled exactly if no accept fails. -/
theorem dispatch_iff (inv : BbrServer.Inv (armed w.rest.server fired)) :
    (∃ w', FileEvents.dispatch (fun w => w.rest.server.loop) (call kernel) fired w = some w') ↔
      Each (fires kernel) (Accepts kernel) w fired := by
  rw [FileEvents.dispatch_run]
  show (∃ w', run (fires kernel) w fired = some w') ↔ _
  induction fired generalizing w with
  | nil => exact iff_of_true ⟨w, rfl⟩ trivial
  | cons event fired ih =>
    obtain ⟨fd, mask⟩ := event
    obtain ⟨rest, inside⟩ := BbrServer.next_inv inv rfl
    have same : fires kernel w (fd, mask) = handled kernel fd mask w := fired_handled rest inside
    have returns := @handled_returns kernel w fd mask fired rest inside
    constructor
    · rintro ⟨w', executed⟩
      obtain ⟨mid, stepped, later⟩ := run_cons_eq_some executed
      have executedHere := same.symm.trans stepped
      exact each_cons (returns.mp ⟨mid, executedHere⟩) stepped ((ih (handled_server inv executedHere).2).mp ⟨w', later⟩)
    · intro accepts
      obtain ⟨mid, executedHere⟩ := returns.mpr accepts.1
      have stepped := same.trans executedHere
      obtain ⟨w', later⟩ := (ih (handled_server inv executedHere).2).mpr (accepts.2 mid stepped)
      exact ⟨w', by rw [run_cons, stepped]; exact later⟩

/-! ## The timer -/

/-- The list of time events holds the timer of the server and nothing else. -/
structure OneTimer (te : aeTimeEvent Unit) (w : World Unit State) : Prop where
  list : w.eventLoop.timeEventHead = [te]
  next : w.eventLoop.timeEventNextId = 1
  id : te.id = 0
  tidy : te.when_ms < 1000

/-- A line is printed, and the timer set to ten seconds from now. -/
def printed_line (clock : Clock) (te : aeTimeEvent Unit) (w : World Unit State) : World Unit State :=
  ⟨{ w.eventLoop with timeEventHead := [te.set (add_milliseconds (clock w.reads).time 10000)] }, w.reads + 1,
    { w.rest with printed := w.rest.printed + 1 }⟩

variable {te : aeTimeEvent Unit}

theorem event_prints (one : OneTimer te w) :
    process_event clock PrintTimer te w = some (printed_line clock te w, 10000) := by
  have there : ∃ other ∈ w.eventLoop.timeEventHead, other.id = te.id := ⟨te, by rw [one.list]; simp, rfl⟩
  simp only [process_event, PrintTimer, Option.bind_eq_bind, Option.bind_some, AE_NOMORE, aeAddMillisecondsToNow, aeGetTime,
    set_when]
  rw [if_pos (by decide), if_pos there, Option.bind_some]
  simp [printed_line, one.list, aeTimeEvent.set]

theorem line_one (clock : Clock) (one : OneTimer te w) :
    OneTimer (te.set (add_milliseconds (clock w.reads).time 10000)) (printed_line clock te w) :=
  ⟨rfl, one.next, one.id, add_ms_lt (time_inside _).2 _⟩

/-- What a pass does: it prints lines. -/
theorem pass_prints {maxId : Int} {list : List (aeTimeEvent Unit)} (pass : Pass clock PrintTimer maxId list w w' calls)
    (one : OneTimer te w) (part : list <:+ [te]) :
    w'.rest = { w.rest with printed := w.rest.printed + calls.length } ∧ (∃ te, OneTimer te w') ∧
      ∀ call ∈ calls, call.event.id = 0 ∧ call.retval = 10000 := by
  induction pass generalizing te with
  | done w => exact ⟨rfl, ⟨te, one⟩, by simp⟩
  | newer above later ih => exact ih one ((List.suffix_cons _ _).trans part)
  | waiting old early later ih =>
    exact ih ⟨one.list, one.next, one.id, one.tidy⟩ ((List.suffix_cons _ _).trans part)
  | @called here next w mid w' retval calls old come processed later ih =>
    have same : here = te := List.mem_singleton.mp (part.subset List.mem_cons_self)
    subst same
    have oneToo : OneTimer here (aeGetTime clock w).2 := ⟨one.list, one.next, one.id, one.tidy⟩
    rw [event_prints oneToo] at processed
    cases processed
    obtain ⟨rest, after, lines⟩ := ih (line_one clock oneToo) (List.suffix_refl _)
    refine ⟨?_, after, ?_⟩
    · rw [rest, List.length_cons]
      simp only [printed_line, aeGetTime]
      congr 1
      omega
    · intro call member
      rcases List.mem_cons.mp member with rfl | further
      · exact ⟨one.id, rfl⟩
      · exact lines call further

/-- The check of the clock leaves one timer. -/
theorem skew_one (clock : Clock) (one : OneTimer te w) : ∃ te, OneTimer te (skew_checked clock w) := by
  refine ⟨if (clock w.reads).tv_sec < w.eventLoop.lastTime then { te with when_sec := 0 } else te, ?_, ?_, ?_, ?_⟩
  · rw [skew_checked, skew_events, one.list]
    rfl
  · exact (skew_ids _ _).1.trans one.next
  · split_ifs <;> exact one.id
  · split_ifs <;> exact one.tidy

/-- A pass comes to its end after one line at most, unless ten seconds go by between its
    setting the timer and its looking at it again. -/
theorem pass_total (one : OneTimer te w)
    (quick : (clock (w.reads + 3)).time.total < (clock (w.reads + 2)).time.total + 10000) :
    ∃ w' calls, processTimeEvents clock PrintTimer 3 w = some (w', calls) ∧ calls.length ≤ 1 := by
  obtain ⟨te, one⟩ := skew_one clock one
  have old : te.id ≤ (skew_checked clock w).eventLoop.timeEventNextId - 1 := by
    rw [one.next, one.id]
    decide
  show ∃ w' calls, process_from clock PrintTimer ((skew_checked clock w).eventLoop.timeEventNextId - 1) 3
    (skew_checked clock w).eventLoop.timeEventHead (skew_checked clock w) = some (w', calls) ∧ calls.length ≤ 1
  rw [one.list]
  by_cases come : due te (clock (skew_checked clock w).reads).time
  · have oneToo : OneTimer te (aeGetTime clock (skew_checked clock w)).2 := ⟨one.list, one.next, one.id, one.tidy⟩
    have after := line_one clock oneToo
    have early : ¬due (te.set (add_milliseconds (clock (w.reads + 2)).time 10000)) (clock (w.reads + 3)).time := by
      intro soon
      have late := due_total after.tidy soon
      rw [set_when_eq, total_add] at late
      exact absurd quick (not_lt.mpr late)
    have again : (te.set (add_milliseconds (clock (w.reads + 2)).time 10000)).id ≤
        (skew_checked clock w).eventLoop.timeEventNextId - 1 := old
    rw [process_from_due old come, event_prints oneToo, Option.bind_some, after.list]
    exact ⟨_, _, congrArg _ (process_from_waiting again early 1 []), le_rfl⟩
  · rw [process_from_waiting old come]
    exact ⟨_, [], rfl, Nat.zero_le _⟩

/-! ## An iteration -/

/-- What every iteration keeps. -/
structure Inv (w : World Unit State) (history : List (Call Unit)) : Prop where
  server : BbrServer.Inv w.rest.server
  batch : w.rest.server.fired = []
  timer : ∃ te, OneTimer te w
  printed : w.rest.printed = history.length
  lines : ∀ call ∈ history, call.event.id = 0 ∧ call.retval = 10000

/-- The world when `epoll_wait` has returned, and what `aeApiPoll` makes of its events. -/
def polled (clock : Clock) (w : World Unit State) : World Unit State := (timeout clock AE_ALL_EVENTS w).2

def batch (clock : Clock) (kernel : Kernel) (w : World Unit State) : List (Int × BitVec 32) :=
  (kernel.epoll_wait (timeout clock AE_ALL_EVENTS w).1 (polled clock w)).map fun event => (event.1, fired_mask event.2)

theorem polled_once (clock : Clock) (one : OneTimer te w) : polled clock w = (aeGetTime clock w).2 := by
  have found : aeSearchNearestTimer w.eventLoop = some te := by
    rw [aeSearchNearestTimer, one.list]
    rfl
  rw [polled, timeout_nearest clock (by decide) found]

theorem polled_rest (clock : Clock) (inv : Inv w history) : (polled clock w).rest = w.rest := by
  obtain ⟨te, one⟩ := inv.timer
  rw [polled_once clock one]
  rfl

/-- The events of the batch are of watched descriptors. -/
theorem batch_watched (inv : Inv w history) : ∀ e ∈ batch clock kernel w, w.rest.server.kernel.watched e.1 ≠ none := by
  intro e member
  obtain ⟨event, reported, rfl⟩ := List.mem_map.mp member
  have known := kernel.reports _ _ event reported
  rw [polled_rest clock inv] at known
  exact known

theorem batch_inv (clock : Clock) (kernel : Kernel) (inv : Inv w history) :
    BbrServer.Inv (armed (polled clock w).rest.server (batch clock kernel w)) := by
  rw [polled_rest clock inv]
  exact ⟨inv.server.inside, inv.server.table, inv.server.watched, inv.server.opened,
    fun e member => inv.server.watched e.1 (batch_watched inv e member), inv.server.tracks⟩

/-- The batch of an iteration is a poll of the server and a run of its handlers. -/
theorem batch_serves {mid : World Unit State} (inv : Inv w history)
    (dispatched : FileEvents.dispatch (fun w => w.rest.server.loop) (call kernel) (batch clock kernel w) (polled clock w) =
      some mid) :
    Handles (polled clock w) mid ∧ BbrServer.Inv mid.rest.server ∧ mid.rest.server.fired = [] ∧ ∃ ops,
      Each BbrServer.step BbrServer.Issued w.rest.server ops ∧
      run BbrServer.step w.rest.server ops = some mid.rest.server := by
  obtain ⟨handles, after, answers, issued, ran⟩ := dispatch_serves (batch_inv clock kernel inv) dispatched
  rw [polled_rest clock inv] at issued ran
  have empty : mid.rest.server.fired = [] := by
    rw [handles.fired, polled_rest clock inv]
    exact inv.batch
  have whole : armed mid.rest.server [] = mid.rest.server := by
    rw [armed, ← empty]
  rw [whole] at after ran
  have polls : BbrServer.step w.rest.server (.poll (batch clock kernel w)) =
      some (armed w.rest.server (batch clock kernel w)) := if_pos inv.batch
  refine ⟨handles, after, empty, .poll (batch clock kernel w) :: answers.map ServerOp.handle, ?_, ?_⟩
  · exact each_cons ⟨inv.batch, batch_watched inv⟩ polls issued
  · rw [run_cons, polls]
    exact ran

/-- The timer is as it was before the handlers. -/
theorem handles_one {mid : World Unit State} (clock : Clock) (one : OneTimer te w) (handles : Handles (polled clock w) mid) :
    OneTimer te mid ∧ mid.reads = w.reads + 1 ∧ mid.rest.printed = w.rest.printed := by
  obtain ⟨eventLoop, reads, printed, _⟩ := handles
  rw [polled_once clock one] at eventLoop reads printed
  have same : mid.eventLoop = w.eventLoop := eventLoop
  refine ⟨⟨?_, ?_, one.id, one.tidy⟩, reads, printed⟩
  · rw [same]
    exact one.list
  · rw [same]
    exact one.next

theorem iteration_serves {fuel numevents : Nat} (inv : Inv w history)
    (executed : aeProcessEvents clock (program kernel) AE_ALL_EVENTS fuel w = some (w', numevents, calls)) :
    Inv w' (history ++ calls) ∧ ∃ ops, Each BbrServer.step BbrServer.Issued w.rest.server ops ∧
      run BbrServer.step w.rest.server ops = some w'.rest.server := by
  obtain ⟨te, one⟩ := inv.timer
  obtain ⟨mid, dispatched, _, passed⟩ := iteration_unfolds executed
  obtain ⟨handles, server, empty, ops, issued, ran⟩ := batch_serves inv dispatched
  obtain ⟨here, _, printed⟩ := handles_one clock one handles
  obtain ⟨te, skewed⟩ := skew_one clock here
  have part : (skew_checked clock mid).eventLoop.timeEventHead <:+ [te] := by
    rw [skewed.list]
  obtain ⟨rest, timer, lines⟩ := pass_prints (pass_of_processed passed) skewed part
  have served : w'.rest.server = mid.rest.server := by
    rw [rest]
    rfl
  refine ⟨⟨?_, ?_, timer, ?_, ?_⟩, ops, issued, ?_⟩
  · rw [served]
    exact server
  · rw [served]
    exact empty
  · rw [rest, List.length_append, ← inv.printed, ← printed]
    rfl
  · intro call member
    rcases List.mem_append.mp member with before | now
    · exact inv.lines call before
    · exact lines call now
  · rw [served]
    exact ran

/-! ## Runs -/

theorem start_inv {server : BbrServer.State} (clock : Clock) (inv : BbrServer.Inv server) (nothing : server.fired = [])
    (now : Int) : Inv (start clock server now) [] :=
  ⟨inv, nothing, ⟨_, rfl, rfl, rfl, add_ms_lt (time_inside _).2 _⟩, rfl, by simp⟩

variable {memory : Int → EventLoop.aeFileEvent Handler} {setsize listenfd now : Int} {others : List Int}
  {server : BbrServer.State}

/-- The invariant and the operations of the server, from iteration to iteration. -/
theorem running_serves (descriptors : ∀ fd ∈ listenfd :: others, 0 ≤ fd)
    (started : BbrServer.start memory setsize listenfd others = some server)
    (running : Running clock kernel (start clock server now) w history) :
    Inv w history ∧ ∃ ops, Each BbrServer.step BbrServer.Issued server ops ∧
      run BbrServer.step server ops = some w.rest.server := by
  induction running with
  | start =>
    have nothing := (BbrServer.start_started started).nothing.2
    exact ⟨start_inv clock (BbrServer.start_spec descriptors started).1 nothing now, [], trivial, rfl⟩
  | iteration fuel running executed ih =>
    obtain ⟨before, ops, issued, ran⟩ := ih
    obtain ⟨after, later, issuedLater, ranLater⟩ := iteration_serves before executed
    refine ⟨after, ops ++ later, each_append issued ran issuedLater, ?_⟩
    rw [run_append, ran]
    exact ranLater

/-- A client connects, and accepting another one fails. -/
def one_client : Kernel where
  answer w := ⟨if 5 ∉ w.rest.server.kernel.opened ∧ w.rest.server.listenfd ∈ w.rest.server.kernel.opened then 5 else -1,
    true, 0⟩
  epoll_wait _ w := if w.rest.server.kernel.watched 4 = none then [] else [(4, EventLoop.EPOLLIN)]
  accepts w := by
    split_ifs with free
    · exact .inr ⟨by decide, free⟩
    · exact .inl rfl
  reports wait w event reported := by
    split_ifs at reported with unwatched
    · exact absurd reported List.not_mem_nil
    · rw [List.mem_singleton.mp reported]
      exact unwatched

def listening : BbrServer.State := (BbrServer.start BbrServer.no_memory BbrServer.table_size 4 []).get rfl

/-- In the world after any number of iterations the next one handles its whole batch if
    and only if no accept fails; then it comes to its end with one line at most, unless
    ten seconds go by between its setting the timer and its looking at it again. -/
theorem iteration_total (descriptors : ∀ fd ∈ listenfd :: others, 0 ≤ fd)
    (started : BbrServer.start memory setsize listenfd others = some server)
    (running : Running clock kernel (start clock server now) w history) :
    ((∃ mid numevents, process_fired_events clock (program kernel) AE_ALL_EVENTS w = some (mid, numevents)) ↔
        Each (fires kernel) (Accepts kernel) (polled clock w) (batch clock kernel w)) ∧
      (Each (fires kernel) (Accepts kernel) (polled clock w) (batch clock kernel w) →
        (clock (w.reads + 4)).time.total < (clock (w.reads + 3)).time.total + 10000 →
        ∃ w' numevents calls, aeProcessEvents clock (program kernel) AE_ALL_EVENTS 3 w = some (w', numevents, calls) ∧
          calls.length ≤ 1) := by
  obtain ⟨inv, _⟩ := running_serves descriptors started running
  have iff := @dispatch_iff kernel _ _ (batch_inv clock kernel inv)
  have served : ∀ mid, FileEvents.dispatch (fun w => w.rest.server.loop) (call kernel) (batch clock kernel w)
        (polled clock w) = some mid →
      process_fired_events clock (program kernel) AE_ALL_EVENTS w = some (mid, (batch clock kernel w).length) :=
    fun mid dispatched => Option.bind_eq_some_iff.mpr ⟨mid, dispatched, rfl⟩
  refine ⟨?_, ?_⟩
  · rw [← iff]
    constructor
    · rintro ⟨mid, numevents, executed⟩
      obtain ⟨other, dispatched, _⟩ := Option.bind_eq_some_iff.mp executed
      exact ⟨other, dispatched⟩
    · rintro ⟨mid, dispatched⟩
      exact ⟨mid, _, served mid dispatched⟩
  · intro accepts quick
    obtain ⟨mid, dispatched⟩ := iff.mpr accepts
    obtain ⟨handles, _⟩ := batch_serves inv dispatched
    obtain ⟨te, one⟩ := inv.timer
    obtain ⟨here, reads, _⟩ := handles_one clock one handles
    obtain ⟨w', calls, passed, few⟩ := pass_total here (by rw [reads]; exact quick)
    refine ⟨w', (batch clock kernel w).length, calls, ?_, few⟩
    rw [aeProcessEvents, if_neg (by decide), if_pos (.inr (by decide)), served mid dispatched, Option.bind_eq_bind,
      Option.bind_some]
    refine (if_pos (by decide)).trans ?_
    exact Option.bind_eq_some_iff.mpr ⟨(w', calls), passed, rfl⟩

/-- While the clock stands still an iteration prints one line at most. -/
theorem iteration_total_one_client : ∃ w' numevents calls,
    aeProcessEvents (fun _ => ticking 1) (program one_client) AE_ALL_EVENTS 3 (start (fun _ => ticking 1) listening 100) =
      some (w', numevents, calls) ∧ calls.length ≤ 1 := by
  have started : BbrServer.start BbrServer.no_memory BbrServer.table_size 4 [] = some listening := rfl
  have accepts : Each (fires one_client) (Accepts one_client)
      (polled (fun _ => ticking 1) (start (fun _ => ticking 1) listening 100))
      (batch (fun _ => ticking 1) one_client (start (fun _ => ticking 1) listening 100)) :=
    ⟨fun _ _ _ => by decide, fun _ _ => trivial⟩
  exact (iteration_total (by decide) started .start).2 accepts (by decide)

/-! ## The lines -/

theorem PrintTimer_changes (clock : Clock) : Lawful clock PrintTimer := by
  refine ⟨?_, ?_⟩
  · intro proc id data w w' retval executed
    cases executed
    exact .other w.reads { w.rest with printed := w.rest.printed + 1 } .refl le_rfl
  · intro proc data w w' executed
    cases executed
    exact .refl

theorem program_respects (clock : Clock) (kernel : Kernel) : Respects clock (program kernel) none := by
  refine ⟨?_, by simp⟩
  intro handler fd w w' called
  obtain ⟨server, _, rfl⟩ := Option.map_eq_some_iff.mp called
  exact .other w.reads _ .refl le_rfl

theorem running_reaches (running : Running clock kernel (start clock server now) w history) :
    Reaches clock PrintTimer (created server now) w history := by
  induction running with
  | start => exact .change .start (.create 1 () none none true .refl)
  | iteration fuel running executed ih => exact iteration_reaches (program_respects clock kernel) ih executed

/-- Each call is ten seconds after the one before. -/
theorem spaced_apart (spaced : history.Pairwise Spaced) (lines : ∀ call ∈ history, call.event.id = 0 ∧ call.retval = 10000)
    (i j : Nat) (order : i ≤ j) (inside : j < history.length) :
    (history.get ⟨i, order.trans_lt inside⟩).now.total + 10000 * (j - i : Nat) ≤ (history.get ⟨j, inside⟩).now.total := by
  induction j, order using Nat.le_induction with
  | base => simp
  | succ j order ih =>
    have here := ih (by omega)
    have first := lines _ (List.get_mem history ⟨j, by omega⟩)
    have second := lines _ (List.get_mem history ⟨j + 1, inside⟩)
    have next := (List.pairwise_iff_get.mp spaced ⟨j, by omega⟩ ⟨j + 1, inside⟩ (Nat.lt_succ_self j)
      (second.1.trans first.1.symm)).2
    rw [first.2] at next
    omega

/-- As many lines are printed as the timer is called, and two of them are at least as
    many times ten seconds apart as there are lines between. -/
theorem lines_apart (descriptors : ∀ fd ∈ listenfd :: others, 0 ≤ fd)
    (started : BbrServer.start memory setsize listenfd others = some server) (past : now ≤ (clock 0).tv_sec)
    (onward : Onward clock 0) (running : Running clock kernel (start clock server now) w history) :
    w.rest.printed = history.length ∧ ∀ i j (order : i ≤ j) (inside : j < history.length),
      (history.get ⟨i, order.trans_lt inside⟩).now.total + 10000 * (j - i : Nat) ≤ (history.get ⟨j, inside⟩).now.total := by
  obtain ⟨inv, _⟩ := running_serves descriptors started running
  have steady := reaches_steady (PrintTimer_changes clock) rfl past onward (running_reaches running)
  exact ⟨inv.printed, spaced_apart steady.paced.spaced inv.lines⟩

/-- Ten seconds go by within the first iteration, so that it prints two lines. -/
theorem lines_apart_one_client : ∃ w history, Running ticking one_client (start ticking listening 100) w history ∧
    history.length = 2 ∧ w.rest.printed = history.length := by
  have started : BbrServer.start BbrServer.no_memory BbrServer.table_size 4 [] = some listening := rfl
  have executed : aeProcessEvents ticking (program one_client) AE_ALL_EVENTS 4 (start ticking listening 100) = some _ := rfl
  have running := Running.iteration 4 .start executed
  exact ⟨_, _, running, rfl, (lines_apart (by decide) started (by decide) (ticking_onward 0) running).1⟩

end

end TcpLearn.MainLoop
