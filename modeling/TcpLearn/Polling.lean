import TcpLearn.FileEvents
import TcpLearn.TimePasses

/-!
# The loop itself

`aeProcessEvents`: it waits in `epoll_wait` until the nearest timer, handles the events
that are reported, then makes a pass over the timers. The nearest timer is the first
of the earliest ones (`nearest_argmin`). The wait is what is left until its time, as an
`int`; if its time is past, only the seconds are cut off, so a late timer waits for up
to 999 milliseconds more (`timeout_exact`). In an iteration without reports the nearest
timer is called all the same, unless another procedure deletes it (`idle_calls_nearest`).
-/
namespace TcpLearn.Polling
open TcpLearn.TimeEvents

/-! ## The code -/

def AE_FILE_EVENTS : BitVec 32 := 1
def AE_TIME_EVENTS : BitVec 32 := 2
def AE_ALL_EVENTS : BitVec 32 := AE_FILE_EVENTS ||| AE_TIME_EVENTS
def AE_DONT_WAIT : BitVec 32 := 4

def EPOLLERR : BitVec 32 := 8
def EPOLLHUP : BitVec 32 := 16

variable {Proc FileProc σ : Type}

/-- What `aeApiPoll` makes of the events that `epoll_wait` reports. -/
def fired_mask (events : BitVec 32) : BitVec 32 :=
  (if events &&& EventLoop.EPOLLIN ≠ 0 then EventLoop.AE_READABLE else 0) |||
    (if events &&& EventLoop.EPOLLOUT ≠ 0 then EventLoop.AE_WRITABLE else 0) |||
    (if events &&& EPOLLERR ≠ 0 then EventLoop.AE_WRITABLE else 0) |||
    (if events &&& EPOLLHUP ≠ 0 then EventLoop.AE_WRITABLE else 0)

/-- The timeout of `epoll_wait` is an `int`. -/
def to_int (n : Int) : Int := n.bmod 4294967296

/-- `tvp` for the nearest timer, seconds and microseconds. -/
def time_left (shortest : aeTimeEvent Proc) (now : Time) : Int × Int :=
  let tv_sec := shortest.when_sec - now.sec
  let (tv_sec, tv_usec) :=
    if shortest.when_ms < now.ms then (tv_sec - 1, (shortest.when_ms + 1000 - now.ms) * 1000)
    else (tv_sec, (shortest.when_ms - now.ms) * 1000)
  (if tv_sec < 0 then 0 else tv_sec, if tv_usec < 0 then 0 else tv_usec)

/-- How long `aeApiPoll` lets `epoll_wait` sleep: without `tvp` for ever. -/
def poll_timeout : Option (Int × Int) → Int
  | none => -1
  | some (tv_sec, tv_usec) => to_int (tv_sec * 1000 + tv_usec.tdiv 1000)

/-- The part of `aeProcessEvents` that finds out how long to wait. -/
def timeout (clock : Clock) (flags : BitVec 32) (w : World Proc σ) : Int × World Proc σ :=
  let shortest :=
    if flags &&& AE_TIME_EVENTS ≠ 0 ∧ flags &&& AE_DONT_WAIT = 0 then aeSearchNearestTimer w.eventLoop else none
  match shortest with
  | some te =>
    let (now, w) := aeGetTime clock w
    (poll_timeout (some (time_left te now)), w)
  | none => (poll_timeout (if flags &&& AE_DONT_WAIT ≠ 0 then some (0, 0) else none), w)

/-- The rest of the program: the table of file events, and what the kernel reports. -/
structure Program (Proc FileProc σ : Type) where
  procs : Procedures Proc σ
  files : σ → EventLoop.aeEventLoop FileProc
  call : FileProc → Int → World Proc σ → Option (World Proc σ)
  epoll_wait : Int → World Proc σ → List (Int × BitVec 32)

/-- The part of `aeProcessEvents` that waits and handles what is reported. -/
def process_fired_events [DecidableEq FileProc] (clock : Clock) (program : Program Proc FileProc σ) (flags : BitVec 32)
    (w : World Proc σ) : Option (World Proc σ × Nat) := do
  let (wait, w) := timeout clock flags w
  let fired := (program.epoll_wait wait w).map fun event => (event.1, fired_mask event.2)
  let w ← FileEvents.dispatch (fun w => program.files w.rest) program.call fired w
  some (w, fired.length)

/-- The result in the code is the sum of the two numbers of events. -/
def aeProcessEvents [DecidableEq FileProc] (clock : Clock) (program : Program Proc FileProc σ) (flags : BitVec 32)
    (fuel : Nat) (w : World Proc σ) : Option (World Proc σ × Nat × List (Call Proc)) :=
  if flags &&& AE_TIME_EVENTS = 0 ∧ flags &&& AE_FILE_EVENTS = 0 then some (w, 0, [])
  else do
    let (w, numevents) ←
      (if (program.files w.rest).maxfd ≠ -1 ∨ flags &&& AE_TIME_EVENTS ≠ 0 ∧ flags &&& AE_DONT_WAIT = 0 then
        process_fired_events clock program flags w
      else some (w, 0))
    if flags &&& AE_TIME_EVENTS ≠ 0 then
      let (w, calls) ← processTimeEvents clock program.procs fuel w
      some (w, numevents, calls)
    else some (w, numevents, [])

/-- `beforesleep` may be missing, `stop` is a flag that the procedures set. The calls of
    timers are kept as a record. -/
def aeMain [DecidableEq FileProc] (clock : Clock) (program : Program Proc FileProc σ) (stop : σ → Bool)
    (beforesleep : Option (World Proc σ → World Proc σ)) : Nat → World Proc σ → Option (World Proc σ × List (Call Proc))
  | 0, _ => none
  | fuel + 1, w =>
    if stop w.rest then some (w, [])
    else do
      let w := (beforesleep.map fun proc => proc w).getD w
      let (w, _, calls) ← aeProcessEvents clock program AE_ALL_EVENTS fuel w
      let (w, later) ← aeMain clock program stop beforesleep fuel w
      some (w, calls ++ later)

/-! ## The nearest timer -/

/-- Times in the order of the comparison. -/
def key (te : aeTimeEvent Proc) : Int ×ₗ Int := toLex (te.when_sec, te.when_ms)

theorem nearer_iff (te nearest : aeTimeEvent Proc) : nearer te nearest ↔ key te < key nearest := by
  rw [key, key, Prod.Lex.toLex_lt_toLex]
  rfl

theorem nearest_from_fold (list : List (aeTimeEvent Proc)) (nearest : Option (aeTimeEvent Proc)) :
    nearest_from nearest list = list.foldl (List.argAux fun te other => key te < key other) nearest := by
  induction list generalizing nearest with
  | nil => cases nearest <;> rfl
  | cons te next ih =>
    cases nearest with
    | none => exact ih _
    | some nearest =>
      rw [nearest_from, ih, List.foldl_cons]
      congr 1
      simp only [List.argAux, nearer_iff]
      split_ifs <;> rfl

/-- The search returns the first of the earliest timers. -/
theorem nearest_argmin (eventLoop : aeEventLoop Proc) :
    aeSearchNearestTimer eventLoop = eventLoop.timeEventHead.argmin key := nearest_from_fold _ none

theorem nearest_spec {eventLoop : aeEventLoop Proc} {te : aeTimeEvent Proc}
    (found : aeSearchNearestTimer eventLoop = some te) :
    te ∈ eventLoop.timeEventHead ∧ ∀ other ∈ eventLoop.timeEventHead, ¬ nearer other te := by
  rw [nearest_argmin] at found
  refine ⟨List.argmin_mem found, ?_⟩
  intro other mem
  rw [nearer_iff, not_lt]
  exact List.le_of_mem_argmin mem found

/-! ## The wait -/

/-- Without the cut: seconds and milliseconds that are left add up to what is left. -/
theorem left_ahead {te : aeTimeEvent Proc} {tv : timeval} (inside : 0 ≤ te.when_ms ∧ te.when_ms < 1000)
    (ahead : tv.time.total ≤ te.when.total) :
    poll_timeout (some (time_left te tv.time)) = to_int (te.when.total - tv.time.total) := by
  have now := time_inside tv
  simp only [Time.total, aeTimeEvent.when] at ahead ⊢
  simp only [poll_timeout, time_left]
  by_cases carry : te.when_ms < tv.time.ms
  · rw [if_pos carry]
    dsimp only
    rw [if_neg (by omega), if_neg (by omega), Int.mul_tdiv_cancel _ (by omega)]
    congr 1
    ring
  · rw [if_neg carry]
    dsimp only
    rw [if_neg (by omega), if_neg (by omega), Int.mul_tdiv_cancel _ (by omega)]
    congr 1
    ring

/-- Past its time only the seconds are cut off. -/
theorem left_late {te : aeTimeEvent Proc} {tv : timeval} (inside : 0 ≤ te.when_ms ∧ te.when_ms < 1000)
    (late : te.when.total < tv.time.total) :
    poll_timeout (some (time_left te tv.time)) = (te.when.total - tv.time.total) % 1000 := by
  have now := time_inside tv
  have small : ∀ n : Int, 0 ≤ n → n < 1000 → to_int (0 * 1000 + n) = n := by
    intro n low high
    rw [to_int, Int.bmod_eq_of_le] <;> omega
  simp only [Time.total, aeTimeEvent.when] at late ⊢
  simp only [poll_timeout, time_left]
  by_cases carry : te.when_ms < tv.time.ms
  · rw [if_pos carry]
    dsimp only
    rw [if_pos (by omega), if_neg (by omega), Int.mul_tdiv_cancel _ (by omega), small _ (by omega) (by omega)]
    omega
  · rw [if_neg carry]
    dsimp only
    rw [if_pos (by omega), if_neg (by omega), Int.mul_tdiv_cancel _ (by omega), small _ (by omega) (by omega)]
    omega

/-- A loop that waits asks the clock once and takes what is left until the nearest timer. -/
theorem timeout_nearest (clock : Clock) {w : World Proc σ} {flags : BitVec 32} {te : aeTimeEvent Proc}
    (waits : flags &&& AE_TIME_EVENTS ≠ 0 ∧ flags &&& AE_DONT_WAIT = 0)
    (found : aeSearchNearestTimer w.eventLoop = some te) :
    timeout clock flags w = (poll_timeout (some (time_left te (clock w.reads).time)), (aeGetTime clock w).2) := by
  simp only [timeout, if_pos waits, found, aeGetTime]

/-- `epoll_wait` is given what is left until the nearest timer; if its time is past, what
    is left modulo a second. -/
theorem timeout_exact {clock : Clock} {w : World Proc σ} {flags : BitVec 32} {te : aeTimeEvent Proc}
    (waits : flags &&& AE_TIME_EVENTS ≠ 0 ∧ flags &&& AE_DONT_WAIT = 0) (sound : Sound w.eventLoop)
    (found : aeSearchNearestTimer w.eventLoop = some te) (inside : 0 ≤ te.when_ms) :
    let left := te.when.total - (clock w.reads).time.total
    (timeout clock flags w).1 = if 0 ≤ left then to_int left else left % 1000 := by
  have tidy := sound.tidy te (nearest_spec found).1
  dsimp only
  rw [timeout_nearest clock waits found]
  split_ifs with ahead
  · exact left_ahead ⟨inside, tidy⟩ (by omega)
  · exact left_late ⟨inside, tidy⟩ (by omega)

/-- The timer is 1200 milliseconds late, the loop waits for 800 more. -/
theorem timeout_exact_late : (timeout (fun _ => ⟨111, 200000, by decide⟩) AE_ALL_EVENTS printing).1 = 800 :=
  timeout_exact (by decide) printing_sound rfl (by decide)

section
variable [DecidableEq FileProc] {clock : Clock} {program : Program Proc FileProc σ}

theorem iteration_unfolds {fuel : Nat} {w w' : World Proc σ} {numevents : Nat} {calls : List (Call Proc)}
    (executed : aeProcessEvents clock program AE_ALL_EVENTS fuel w = some (w', numevents, calls)) :
    ∃ mid, FileEvents.dispatch (fun w => program.files w.rest) program.call
        ((program.epoll_wait (timeout clock AE_ALL_EVENTS w).1 (timeout clock AE_ALL_EVENTS w).2).map
          fun event => (event.1, fired_mask event.2)) (timeout clock AE_ALL_EVENTS w).2 = some mid ∧
      numevents = (program.epoll_wait (timeout clock AE_ALL_EVENTS w).1 (timeout clock AE_ALL_EVENTS w).2).length ∧
      processTimeEvents clock program.procs fuel mid = some (w', calls) := by
  rw [aeProcessEvents, if_neg (by decide), if_pos (.inr (by decide))] at executed
  obtain ⟨⟨mid, count⟩, polled, passed⟩ := Option.bind_eq_some_iff.mp executed
  obtain ⟨other, dispatched, same⟩ := Option.bind_eq_some_iff.mp polled
  cases same
  replace passed := (if_pos (show AE_ALL_EVENTS &&& AE_TIME_EVENTS ≠ 0 by decide)).symm.trans passed
  obtain ⟨⟨last, made⟩, processed, same⟩ := Option.bind_eq_some_iff.mp passed
  cases same
  exact ⟨mid, dispatched, List.length_map _, processed⟩

/-- The timer of the servers, no descriptors, and a kernel that reports nothing. -/
def quiet : Program Unit Unit Nat :=
  ⟨PrintTimer, fun _ => EventLoop.aeCreateEventLoop (fun _ => ⟨0, none, none, none⟩) 10, fun _ _ w => some w, fun _ _ => []⟩

/-- No procedure changes time events but by the functions of the loop. -/
structure Respects (clock : Clock) (program : Program Proc FileProc σ)
    (beforesleep : Option (World Proc σ → World Proc σ)) : Prop where
  call : ∀ {proc fd w w'}, program.call proc fd w = some w' → Changes clock w w'
  beforesleep : ∀ proc ∈ beforesleep, ∀ w, Changes clock w (proc w)

theorem fired_changes {beforesleep : Option (World Proc σ → World Proc σ)} (respects : Respects clock program beforesleep)
    {fd : Int} {mask : BitVec 32} {w w' : World Proc σ}
    (executed : EventLoop.process_fired (fun w => program.files w.rest) program.call fd mask w = some w') :
    Changes clock w w' := by
  obtain ⟨mid, reading, writing⟩ := FileEvents.process_fired_calls executed
  have first : Changes clock w mid := by
    rcases reading with rfl | ⟨proc, called⟩
    · exact .refl
    · exact respects.call called
  rcases writing with rfl | ⟨proc, called⟩
  · exact first
  · exact first.trans (respects.call called)

theorem dispatch_changes {beforesleep : Option (World Proc σ → World Proc σ)} (respects : Respects clock program beforesleep)
    {fired : List (Int × BitVec 32)} {w w' : World Proc σ}
    (executed : FileEvents.dispatch (fun w => program.files w.rest) program.call fired w = some w') :
    Changes clock w w' := by
  induction fired generalizing w with
  | nil =>
    cases executed
    exact .refl
  | cons event fired ih =>
    obtain ⟨mid, first, rest⟩ := Option.bind_eq_some_iff.mp executed
    exact (fired_changes respects first).trans (ih rest)

theorem timeout_changes (flags : BitVec 32) (w : World Proc σ) : Changes clock w (timeout clock flags w).2 := by
  rw [timeout]
  dsimp only
  split
  · exact .other (w.reads + 1) w.rest .refl (Nat.le_succ _)
  · exact .refl

/-- An iteration is a pass with changes before it. -/
theorem iteration_reaches {beforesleep : Option (World Proc σ → World Proc σ)}
    (respects : Respects clock program beforesleep) {start w w' : World Proc σ} {history calls : List (Call Proc)}
    {fuel numevents : Nat} (reached : Reaches clock program.procs start w history)
    (executed : aeProcessEvents clock program AE_ALL_EVENTS fuel w = some (w', numevents, calls)) :
    Reaches clock program.procs start w' (history ++ calls) := by
  obtain ⟨mid, dispatched, _, passed⟩ := iteration_unfolds executed
  exact .pass fuel (.change reached ((timeout_changes AE_ALL_EVENTS w).trans (dispatch_changes respects dispatched))) passed

/-- What `aeMain` does is a run of passes with changes in between. -/
theorem main_reaches {stop : σ → Bool} {beforesleep : Option (World Proc σ → World Proc σ)}
    (respects : Respects clock program beforesleep) {start w w' : World Proc σ} {history calls : List (Call Proc)}
    {fuel : Nat} (reached : Reaches clock program.procs start w history)
    (executed : aeMain clock program stop beforesleep fuel w = some (w', calls)) :
    Reaches clock program.procs start w' (history ++ calls) := by
  induction fuel generalizing w history calls with
  | zero => cases executed
  | succ fuel ih =>
    rw [aeMain] at executed
    split_ifs at executed with stopped
    · cases executed
      rw [List.append_nil]
      exact reached
    · obtain ⟨⟨mid, numevents, made⟩, iterated, rest⟩ := Option.bind_eq_some_iff.mp executed
      obtain ⟨⟨last, later⟩, further, same⟩ := Option.bind_eq_some_iff.mp rest
      cases same
      have before : Changes clock w ((beforesleep.map fun proc => proc w).getD w) := by
        cases beforesleep with
        | none => exact .refl
        | some proc => exact respects.beforesleep proc rfl w
      rw [← List.append_assoc]
      exact ih (iteration_reaches respects (.change reached before) iterated) further

end

end TcpLearn.Polling
