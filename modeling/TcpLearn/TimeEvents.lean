import TcpLearn.Runs
import Mathlib

/-!
# Time events

The timers of `ae.c`: a list with the newest event at its head, and
`processTimeEvents`, which starts at the head again after every procedure it calls.
The procedures may create and delete events themselves (`Changes`). Along the list the
identifiers decrease and all of them were handed out (`Sound`), so the bound `maxId`
keeps a pass to the events that were there when it began.

The clock is read step by step: `clock n` is the answer to the reading number `n`, of
`gettimeofday` or of `time`.
-/
namespace TcpLearn.TimeEvents

/-! ## The clock -/

structure timeval where
  tv_sec : Int
  tv_usec : Int
  inside : 0 ≤ tv_usec ∧ tv_usec < 1000000

abbrev Clock := Nat → timeval

/-- Seconds and milliseconds. -/
structure Time where
  sec : Int
  ms : Int
  deriving DecidableEq

def Time.total (t : Time) : Int := 1000 * t.sec + t.ms

/-- What `aeGetTime` makes of an answer of the clock. -/
def timeval.time (tv : timeval) : Time := ⟨tv.tv_sec, tv.tv_usec.tdiv 1000⟩

/-! ## The code -/

def AE_NOMORE : Int := -1

structure aeTimeEvent (Proc : Type) where
  id : Int
  when_sec : Int
  when_ms : Int
  timeProc : Proc
  finalizerProc : Option Proc
  clientData : Option Nat
  deriving DecidableEq

/-- The fields of the event loop that are about time events. -/
structure aeEventLoop (Proc : Type) where
  timeEventNextId : Int
  lastTime : Int
  timeEventHead : List (aeTimeEvent Proc)

structure World (Proc σ : Type) where
  eventLoop : aeEventLoop Proc
  /-- How often the clock has been read. -/
  reads : Nat
  /-- Everything else the procedures work on. -/
  rest : σ

variable {Proc σ : Type}

/-- The procedures of the application. One that does not return has no result. -/
structure Procedures (Proc σ : Type) where
  timeProc : Proc → Int → Option Nat → World Proc σ → Option (World Proc σ × Int)
  finalizerProc : Proc → Option Nat → World Proc σ → Option (World Proc σ)

def aeGetTime (clock : Clock) (w : World Proc σ) : Time × World Proc σ :=
  ((clock w.reads).time, { w with reads := w.reads + 1 })

/-- The arithmetic of `aeAddMillisecondsToNow`. -/
def add_milliseconds (cur : Time) (milliseconds : Int) : Time :=
  let when_sec := cur.sec + milliseconds.tdiv 1000
  let when_ms := cur.ms + milliseconds.tmod 1000
  if when_ms ≥ 1000 then ⟨when_sec + 1, when_ms - 1000⟩ else ⟨when_sec, when_ms⟩

def aeAddMillisecondsToNow (clock : Clock) (w : World Proc σ) (milliseconds : Int) : Time × World Proc σ :=
  let (cur, w) := aeGetTime clock w
  (add_milliseconds cur milliseconds, w)

/-- The head is what `aeCreateEventLoop` leaves: no events. -/
def aeCreateEventLoop (now : Int) : aeEventLoop Proc := ⟨0, now, []⟩

/-- No identifier stands for `AE_ERR`: `memory` tells whether `malloc` succeeds. -/
def aeCreateTimeEvent (clock : Clock) (w : World Proc σ) (milliseconds : Int) (proc : Proc)
    (clientData : Option Nat) (finalizerProc : Option Proc) (memory : Bool) : World Proc σ × Option Int :=
  let id := w.eventLoop.timeEventNextId
  let w := { w with eventLoop := { w.eventLoop with timeEventNextId := id + 1 } }
  if memory then
    let (time, w) := aeAddMillisecondsToNow clock w milliseconds
    let te : aeTimeEvent Proc := ⟨id, time.sec, time.ms, proc, finalizerProc, clientData⟩
    ({ w with eventLoop := { w.eventLoop with timeEventHead := te :: w.eventLoop.timeEventHead } }, some id)
  else (w, none)

/-- The event with the identifier is taken out of the list. -/
def unlink (w : World Proc σ) (id : Int) : World Proc σ :=
  { w with eventLoop := { w.eventLoop with timeEventHead := w.eventLoop.timeEventHead.eraseP fun te => te.id = id } }

/-- `false` stands for `AE_ERR`. -/
def aeDeleteTimeEvent (procs : Procedures Proc σ) (w : World Proc σ) (id : Int) : Option (World Proc σ × Bool) :=
  match w.eventLoop.timeEventHead.find? fun te => te.id = id with
  | none => some (w, false)
  | some te =>
    let w := unlink w id
    match te.finalizerProc with
    | none => some (w, true)
    | some proc => do
      let w ← procs.finalizerProc proc te.clientData w
      some (w, true)

/-- The comparison of `aeSearchNearestTimer`. -/
def nearer (te nearest : aeTimeEvent Proc) : Prop :=
  te.when_sec < nearest.when_sec ∨ te.when_sec = nearest.when_sec ∧ te.when_ms < nearest.when_ms

instance (te nearest : aeTimeEvent Proc) : Decidable (nearer te nearest) := inferInstanceAs (Decidable (_ ∨ _))

def nearest_from : Option (aeTimeEvent Proc) → List (aeTimeEvent Proc) → Option (aeTimeEvent Proc)
  | nearest, [] => nearest
  | none, te :: next => nearest_from (some te) next
  | some nearest, te :: next => nearest_from (some (if nearer te nearest then te else nearest)) next

def aeSearchNearestTimer (eventLoop : aeEventLoop Proc) : Option (aeTimeEvent Proc) :=
  nearest_from none eventLoop.timeEventHead

/-- The time of an event has come. -/
def due (te : aeTimeEvent Proc) (now : Time) : Prop :=
  now.sec > te.when_sec ∨ now.sec = te.when_sec ∧ now.ms ≥ te.when_ms

instance (te : aeTimeEvent Proc) (now : Time) : Decidable (due te now) := inferInstanceAs (Decidable (_ ∨ _))

/-- `te->when_sec` and `te->when_ms` are written. An event that is not in the list any
    longer has been freed: there is no result. -/
def set_when (w : World Proc σ) (id : Int) (time : Time) : Option (World Proc σ) :=
  if ∃ te ∈ w.eventLoop.timeEventHead, te.id = id then
    some { w with eventLoop := { w.eventLoop with
      timeEventHead := w.eventLoop.timeEventHead.map fun te =>
        if te.id = id then { te with when_sec := time.sec, when_ms := time.ms } else te } }
  else none

/-- The procedure of a due event is called, and the event set anew or deleted. What the
    procedure returns is kept for the record of the calls. -/
def process_event (clock : Clock) (procs : Procedures Proc σ) (te : aeTimeEvent Proc) (w : World Proc σ) :
    Option (World Proc σ × Int) := do
  let (w, retval) ← procs.timeProc te.timeProc te.id te.clientData w
  if retval ≠ AE_NOMORE then
    let (time, w) := aeAddMillisecondsToNow clock w retval
    let w ← set_when w te.id time
    some (w, retval)
  else
    let (w, _) ← aeDeleteTimeEvent procs w te.id
    some (w, retval)

/-- A call of a procedure: the event as it was then, the time that was read, the result. -/
structure Call (Proc : Type) where
  event : aeTimeEvent Proc
  now : Time
  retval : Int

/-- The loop of `processTimeEvents` from an event of the list on. -/
def process_from (clock : Clock) (procs : Procedures Proc σ) (maxId : Int) :
    Nat → List (aeTimeEvent Proc) → World Proc σ → Option (World Proc σ × List (Call Proc))
  | 0, _, _ => none
  | _ + 1, [], w => some (w, [])
  | fuel + 1, te :: next, w =>
    if te.id > maxId then process_from clock procs maxId fuel next w
    else
      let (now, w) := aeGetTime clock w
      if due te now then do
        let (w, retval) ← process_event clock procs te w
        -- The list may be another one: the loop starts at its head again.
        let (w, calls) ← process_from clock procs maxId fuel w.eventLoop.timeEventHead w
        some (w, ⟨te, now, retval⟩ :: calls)
      else process_from clock procs maxId fuel next w

/-- A clock that was set back makes every event due. -/
def detect_skew (now : Int) (eventLoop : aeEventLoop Proc) : aeEventLoop Proc :=
  let eventLoop :=
    if now < eventLoop.lastTime then
      { eventLoop with timeEventHead := eventLoop.timeEventHead.map fun te => { te with when_sec := 0 } }
    else eventLoop
  { eventLoop with lastTime := now }

/-- The number of calls is the result in the code. -/
def processTimeEvents (clock : Clock) (procs : Procedures Proc σ) (fuel : Nat) (w : World Proc σ) :
    Option (World Proc σ × List (Call Proc)) :=
  let now := (clock w.reads).tv_sec
  let w := { w with reads := w.reads + 1, eventLoop := detect_skew now w.eventLoop }
  process_from clock procs (w.eventLoop.timeEventNextId - 1) fuel w.eventLoop.timeEventHead w

/-! ## Times -/

def aeTimeEvent.when (te : aeTimeEvent Proc) : Time := ⟨te.when_sec, te.when_ms⟩

theorem time_inside (tv : timeval) : 0 ≤ tv.time.ms ∧ tv.time.ms < 1000 := by
  have inside := tv.inside
  simp only [timeval.time]
  rw [Int.tdiv_eq_ediv_of_nonneg inside.1]
  omega

theorem total_add (cur : Time) (milliseconds : Int) :
    (add_milliseconds cur milliseconds).total = cur.total + milliseconds := by
  have whole := Int.mul_tdiv_add_tmod milliseconds 1000
  simp only [add_milliseconds, Time.total]
  split_ifs <;> dsimp only <;> omega

theorem add_ms_lt {cur : Time} (tidy : cur.ms < 1000) (milliseconds : Int) :
    (add_milliseconds cur milliseconds).ms < 1000 := by
  have part := Int.tmod_lt_of_pos milliseconds (show (0 : Int) < 1000 by omega)
  simp only [add_milliseconds]
  split_ifs <;> dsimp only <;> omega

/-- A due event is not due early. -/
theorem due_total {te : aeTimeEvent Proc} {tv : timeval} (tidy : te.when_ms < 1000) (come : due te tv.time) :
    te.when.total ≤ tv.time.total := by
  have inside := time_inside tv
  simp only [due, aeTimeEvent.when, Time.total] at come ⊢
  omega

/-- An event stays due while the clock does not go back. -/
theorem due_later {te : aeTimeEvent Proc} {tv tv' : timeval} (come : due te tv.time)
    (onward : tv.time.total ≤ tv'.time.total) : due te tv'.time := by
  have inside := time_inside tv
  have inside' := time_inside tv'
  simp only [due, Time.total] at come onward ⊢
  omega

/-- An event set to no later than a time of the clock is due from then on. -/
theorem due_of_no_delay {te : aeTimeEvent Proc} {tv tv' : timeval} {delay : Int} (none : delay ≤ 0)
    (set : te.when = add_milliseconds tv.time delay) (onward : tv.time.total ≤ tv'.time.total) : due te tv'.time := by
  have inside := time_inside tv
  have inside' := time_inside tv'
  have whole := Int.mul_tdiv_add_tmod delay 1000
  have sec := congrArg Time.sec set
  have ms := congrArg Time.ms set
  have part := Int.tmod_nonneg 1000 (show 0 ≤ -delay by omega)
  have small := Int.tmod_lt_of_pos (-delay) (show (0 : Int) < 1000 by omega)
  rw [Int.neg_tmod] at part small
  simp only [add_milliseconds, aeTimeEvent.when] at sec ms
  rw [if_neg (by omega)] at sec ms
  simp only [due, Time.total] at sec ms onward ⊢
  omega

/-! ## What the code of the application does -/

/-- What a procedure may do: it creates and deletes events, whose finalizers do the same,
    and reads the clock. -/
inductive Changes (clock : Clock) (w : World Proc σ) : World Proc σ → Prop
  | refl : Changes clock w w
  | create {mid : World Proc σ} (milliseconds : Int) (proc : Proc) (clientData : Option Nat)
      (finalizerProc : Option Proc) (memory : Bool) (earlier : Changes clock w mid) :
      Changes clock w (aeCreateTimeEvent clock mid milliseconds proc clientData finalizerProc memory).1
  | delete {mid : World Proc σ} (id : Int) (earlier : Changes clock w mid) : Changes clock w (unlink mid id)
  | other {mid : World Proc σ} (reads : Nat) (rest : σ) (earlier : Changes clock w mid) (onward : mid.reads ≤ reads) :
      Changes clock w { mid with reads := reads, rest := rest }

/-- The procedures change time events by the functions of the loop only. -/
structure Lawful (clock : Clock) (procs : Procedures Proc σ) : Prop where
  timeProc : ∀ {proc id data w w' retval}, procs.timeProc proc id data w = some (w', retval) → Changes clock w w'
  finalizerProc : ∀ {proc data w w'}, procs.finalizerProc proc data w = some w' → Changes clock w w'

/-- Identifiers decrease along the list, and every one of them was handed out. -/
structure Sound (eventLoop : aeEventLoop Proc) : Prop where
  decreasing : eventLoop.timeEventHead.Pairwise fun te later => later.id < te.id
  below : ∀ te ∈ eventLoop.timeEventHead, te.id < eventLoop.timeEventNextId
  tidy : ∀ te ∈ eventLoop.timeEventHead, te.when_ms < 1000

theorem Sound.same {eventLoop : aeEventLoop Proc} (sound : Sound eventLoop) {te te' : aeTimeEvent Proc}
    (mem : te ∈ eventLoop.timeEventHead) (mem' : te' ∈ eventLoop.timeEventHead) (ids : te'.id = te.id) : te' = te := by
  have apart : (eventLoop.timeEventHead.map fun te => te.id).Nodup :=
    List.pairwise_map.mpr (sound.decreasing.imp fun less => ne_of_gt less)
  exact List.inj_on_of_nodup_map apart mem' mem ids

theorem loop_created (now : Int) : Sound (aeCreateEventLoop now : aeEventLoop Proc) :=
  ⟨List.Pairwise.nil, fun _ mem => (List.not_mem_nil mem).elim, fun _ mem => (List.not_mem_nil mem).elim⟩

/-- What is left alone: old events are as they were, new ones have new identifiers. -/
structure Evolves (w w' : World Proc σ) : Prop where
  reads : w.reads ≤ w'.reads
  ids : w.eventLoop.timeEventNextId ≤ w'.eventLoop.timeEventNextId
  lastTime : w'.eventLoop.lastTime = w.eventLoop.lastTime
  old : ∀ te ∈ w'.eventLoop.timeEventHead, te ∈ w.eventLoop.timeEventHead ∨ w.eventLoop.timeEventNextId ≤ te.id

theorem Evolves.refl (w : World Proc σ) : Evolves w w := ⟨le_rfl, le_rfl, rfl, fun _ mem => .inl mem⟩

theorem Evolves.trans {w mid w' : World Proc σ} (first : Evolves w mid) (second : Evolves mid w') : Evolves w w' := by
  refine ⟨first.reads.trans second.reads, first.ids.trans second.ids, second.lastTime.trans first.lastTime, ?_⟩
  intro te mem
  rcases second.old te mem with before | new
  · exact first.old te before
  · exact .inr (first.ids.trans new)

section
variable {clock : Clock} {procs : Procedures Proc σ}

theorem create_evolves (w : World Proc σ) (milliseconds : Int) (proc : Proc) (clientData : Option Nat)
    (finalizerProc : Option Proc) (memory : Bool) :
    Evolves w (aeCreateTimeEvent clock w milliseconds proc clientData finalizerProc memory).1 := by
  cases memory with
  | false => exact ⟨le_rfl, (Int.lt_succ _).le, rfl, fun _ mem => .inl mem⟩
  | true =>
    refine ⟨Nat.le_succ _, (Int.lt_succ _).le, rfl, ?_⟩
    intro te mem
    rcases List.mem_cons.mp mem with rfl | before
    · exact .inr le_rfl
    · exact .inl before

theorem create_sound {w : World Proc σ} (sound : Sound w.eventLoop) (milliseconds : Int) (proc : Proc)
    (clientData : Option Nat) (finalizerProc : Option Proc) (memory : Bool) :
    Sound (aeCreateTimeEvent clock w milliseconds proc clientData finalizerProc memory).1.eventLoop := by
  have grown : ∀ te ∈ w.eventLoop.timeEventHead, te.id < w.eventLoop.timeEventNextId + 1 :=
    fun te mem => (sound.below te mem).trans (Int.lt_succ _)
  cases memory with
  | false => exact ⟨sound.decreasing, grown, sound.tidy⟩
  | true =>
    refine ⟨List.pairwise_cons.mpr ⟨sound.below, sound.decreasing⟩, ?_, ?_⟩
    · intro te mem
      rcases List.mem_cons.mp mem with rfl | before
      · exact Int.lt_succ _
      · exact grown te before
    · intro te mem
      rcases List.mem_cons.mp mem with rfl | before
      · exact add_ms_lt (time_inside _).2 _
      · exact sound.tidy te before

theorem unlink_evolves (w : World Proc σ) (id : Int) : Evolves w (unlink w id) :=
  ⟨le_rfl, le_rfl, rfl, fun _ mem => .inl (List.mem_of_mem_eraseP mem)⟩

theorem unlink_sound {w : World Proc σ} (sound : Sound w.eventLoop) (id : Int) : Sound (unlink w id).eventLoop :=
  ⟨sound.decreasing.sublist List.eraseP_sublist, fun te mem => sound.below te (List.mem_of_mem_eraseP mem),
    fun te mem => sound.tidy te (List.mem_of_mem_eraseP mem)⟩

theorem Changes.trans {w mid w' : World Proc σ} (first : Changes clock w mid) (second : Changes clock mid w') :
    Changes clock w w' := by
  induction second with
  | refl => exact first
  | create milliseconds proc clientData finalizerProc memory _ ih =>
    exact .create milliseconds proc clientData finalizerProc memory ih
  | delete id _ ih => exact .delete id ih
  | other reads rest _ onward ih => exact .other reads rest ih onward

theorem changes_evolve {w w' : World Proc σ} (changes : Changes clock w w') : Evolves w w' := by
  induction changes with
  | refl => exact Evolves.refl w
  | create milliseconds proc clientData finalizerProc memory _ ih => exact ih.trans (create_evolves ..)
  | delete id _ ih => exact ih.trans (unlink_evolves _ id)
  | other reads rest _ onward ih => exact ⟨ih.reads.trans onward, ih.ids, ih.lastTime, ih.old⟩

theorem changes_sound {w w' : World Proc σ} (changes : Changes clock w w') (sound : Sound w.eventLoop) :
    Sound w'.eventLoop := by
  induction changes with
  | refl => exact sound
  | create milliseconds proc clientData finalizerProc memory _ ih => exact create_sound ih ..
  | delete id _ ih => exact unlink_sound ih id
  | other reads rest _ onward ih => exact ih

/-- In a sound list the event with the identifier is gone once it is unlinked. -/
theorem unlink_gone {w : World Proc σ} (sound : Sound w.eventLoop) (id : Int) :
    ∀ te ∈ (unlink w id).eventLoop.timeEventHead, te.id ≠ id := by
  intro te mem same
  have before := List.mem_of_mem_eraseP mem
  obtain ⟨first, left, right, _, chosen, whole, rest⟩ :=
    List.exists_of_eraseP before (p := fun te => decide (te.id = id)) (by simpa using same)
  have firstId : first.id = id := by simpa using chosen
  have decreasing := sound.decreasing
  rw [whole] at decreasing
  have apart := List.pairwise_append.mp decreasing
  have mem' : te ∈ left ++ right := by
    rw [← rest]
    exact mem
  rcases List.mem_append.mp mem' with inLeft | inRight
  · have := apart.2.2 te inLeft first List.mem_cons_self
    omega
  · have := (List.pairwise_cons.mp apart.2.1).1 te inRight
    omega

/-- Deleting an event: its finalizer is called when it is out of the list. -/
theorem delete_changes (lawful : Lawful clock procs) {w w' : World Proc σ} {id : Int} {found : Bool}
    (executed : aeDeleteTimeEvent procs w id = some (w', found)) :
    Changes clock w w' ∧ (Sound w.eventLoop → ∀ te ∈ w'.eventLoop.timeEventHead,
      te.id = id → w.eventLoop.timeEventNextId ≤ te.id) := by
  rw [aeDeleteTimeEvent] at executed
  split at executed
  · rename_i missing
    cases executed
    refine ⟨.refl, fun _ te mem same => ?_⟩
    simpa [same] using List.find?_eq_none.mp missing te mem
  · rename_i te present
    have gone := fun sound : Sound w.eventLoop => unlink_gone sound id
    split at executed
    · cases executed
      exact ⟨.delete id .refl, fun sound te mem same => absurd same (gone sound te mem)⟩
    · obtain ⟨last, finalized, same⟩ := Option.bind_eq_some_iff.mp executed
      cases same
      have later := lawful.finalizerProc finalized
      refine ⟨?_, ?_⟩
      · exact (Changes.delete id .refl).trans later
      · intro sound te mem same
        rcases (changes_evolve later).old te mem with before | new
        · exact absurd same (gone sound te before)
        · exact new

/-! ## One event -/

def aeTimeEvent.set (te : aeTimeEvent Proc) (time : Time) : aeTimeEvent Proc :=
  { te with when_sec := time.sec, when_ms := time.ms }

@[simp] theorem set_id (te : aeTimeEvent Proc) (time : Time) : (te.set time).id = te.id := rfl
@[simp] theorem set_when_eq (te : aeTimeEvent Proc) (time : Time) : (te.set time).when = time := rfl

theorem set_when_spec {w w' : World Proc σ} {id : Int} {time : Time} (executed : set_when w id time = some w') :
    (∃ te ∈ w.eventLoop.timeEventHead, te.id = id) ∧
      w' = { w with eventLoop := { w.eventLoop with
        timeEventHead := w.eventLoop.timeEventHead.map fun te => if te.id = id then te.set time else te } } := by
  rw [set_when] at executed
  split_ifs at executed with there
  cases executed
  exact ⟨there, rfl⟩

theorem set_when_sound {w w' : World Proc σ} {id : Int} {time : Time} (sound : Sound w.eventLoop)
    (tidy : time.ms < 1000) (executed : set_when w id time = some w') : Sound w'.eventLoop := by
  obtain ⟨_, rfl⟩ := set_when_spec executed
  have ids : ∀ te : aeTimeEvent Proc, (if te.id = id then te.set time else te).id = te.id := by
    intro te
    split_ifs <;> rfl
  refine ⟨?_, ?_, ?_⟩
  · refine List.pairwise_map.mpr (sound.decreasing.imp fun {te later} less => ?_)
    rw [ids te, ids later]
    exact less
  · intro te mem
    obtain ⟨before, old, rfl⟩ := List.mem_map.mp mem
    rw [ids before]
    exact sound.below before old
  · intro te mem
    obtain ⟨before, old, rfl⟩ := List.mem_map.mp mem
    split_ifs
    · exact tidy
    · exact sound.tidy before old

/-- An event whose procedure has been called is deleted or set anew. The other events
    are as they were unless the procedure deletes them; its own have new identifiers. -/
structure Processed (clock : Clock) (te : aeTimeEvent Proc) (retval : Int) (w w' : World Proc σ) : Prop where
  reads : w.reads ≤ w'.reads
  ids : w.eventLoop.timeEventNextId ≤ w'.eventLoop.timeEventNextId
  lastTime : w'.eventLoop.lastTime = w.eventLoop.lastTime
  sound : Sound w'.eventLoop
  old : ∀ other ∈ w'.eventLoop.timeEventHead, w.eventLoop.timeEventNextId ≤ other.id ∨
    other ∈ w.eventLoop.timeEventHead ∧ other.id ≠ te.id ∨
    ∃ n, w.reads ≤ n ∧ n < w'.reads ∧ retval ≠ AE_NOMORE ∧
      other = te.set (add_milliseconds (clock n).time retval)

theorem process_event_spec (lawful : Lawful clock procs) {w w' : World Proc σ} {te : aeTimeEvent Proc} {retval : Int}
    (sound : Sound w.eventLoop) (mem : te ∈ w.eventLoop.timeEventHead)
    (executed : process_event clock procs te w = some (w', retval)) : Processed clock te retval w w' := by
  obtain ⟨⟨mid, answer⟩, called, after⟩ := Option.bind_eq_some_iff.mp executed
  have changes := lawful.timeProc called
  have evolves := changes_evolve changes
  have midSound := changes_sound changes sound
  dsimp only at after
  split_ifs at after with again
  · -- the event is set anew: what is in the list under its identifier is the event itself
    obtain ⟨last, set, same⟩ := Option.bind_eq_some_iff.mp after
    cases same
    have tidy : (aeAddMillisecondsToNow clock mid retval).1.ms < 1000 := add_ms_lt (time_inside _).2 retval
    have soundThen : Sound (aeAddMillisecondsToNow clock mid retval).2.eventLoop := midSound
    have afterSound := set_when_sound soundThen tidy set
    obtain ⟨_, rfl⟩ := set_when_spec set
    refine ⟨evolves.reads.trans (Nat.le_succ _), evolves.ids, evolves.lastTime, afterSound, ?_⟩
    intro other otherMem
    obtain ⟨before, beforeMem, rfl⟩ := List.mem_map.mp otherMem
    by_cases own : before.id = te.id
    · rw [if_pos own]
      rcases evolves.old before beforeMem with old | new
      · have same := sound.same mem old own
        subst same
        exact .inr (.inr ⟨mid.reads, evolves.reads, Nat.lt_succ_self _, again, rfl⟩)
      · exact absurd (sound.below te mem) (by omega)
    · rw [if_neg own]
      rcases evolves.old before beforeMem with old | new
      · exact .inr (.inl ⟨old, own⟩)
      · exact .inl new
  · obtain ⟨⟨last, found⟩, deleted, same⟩ := Option.bind_eq_some_iff.mp after
    cases same
    obtain ⟨later, gone⟩ := delete_changes lawful deleted
    have evolves' := changes_evolve later
    refine ⟨evolves.reads.trans evolves'.reads, evolves.ids.trans evolves'.ids,
      evolves'.lastTime.trans evolves.lastTime, changes_sound later midSound, ?_⟩
    intro other otherMem
    rcases (evolves.trans evolves').old other otherMem with old | new
    · refine .inr (.inl ⟨old, ?_⟩)
      intro own
      have handed := gone midSound other otherMem own
      have := sound.below other old
      have := evolves.ids
      omega
    · exact .inl new

/-! ## One pass -/

theorem process_from_newer {te : aeTimeEvent Proc} {maxId : Int} (above : te.id > maxId) (fuel : Nat)
    (next : List (aeTimeEvent Proc)) (w : World Proc σ) :
    process_from clock procs maxId (fuel + 1) (te :: next) w = process_from clock procs maxId fuel next w := if_pos above

theorem process_from_waiting {te : aeTimeEvent Proc} {maxId : Int} {w : World Proc σ} (old : te.id ≤ maxId)
    (early : ¬ due te (clock w.reads).time) (fuel : Nat) (next : List (aeTimeEvent Proc)) :
    process_from clock procs maxId (fuel + 1) (te :: next) w =
      process_from clock procs maxId fuel next (aeGetTime clock w).2 := by
  rw [process_from, if_neg (not_lt.mpr old)]
  exact if_neg early

theorem process_from_due {te : aeTimeEvent Proc} {maxId : Int} {w : World Proc σ} (old : te.id ≤ maxId)
    (come : due te (clock w.reads).time) (fuel : Nat) (next : List (aeTimeEvent Proc)) :
    process_from clock procs maxId (fuel + 1) (te :: next) w =
      (process_event clock procs te (aeGetTime clock w).2).bind fun after =>
        (process_from clock procs maxId fuel after.1.eventLoop.timeEventHead after.1).map fun last =>
          (last.1, ⟨te, (clock w.reads).time, after.2⟩ :: last.2) := by
  rw [process_from, if_neg (not_lt.mpr old)]
  refine (if_pos come).trans ?_
  refine congrArg _ (funext fun after => ?_)
  exact (Option.map_eq_bind ..).symm

/-- The loop of `processTimeEvents` as a derivation, one rule for each branch. -/
inductive Pass (clock : Clock) (procs : Procedures Proc σ) (maxId : Int) :
    List (aeTimeEvent Proc) → World Proc σ → World Proc σ → List (Call Proc) → Prop
  | done (w : World Proc σ) : Pass clock procs maxId [] w w []
  | newer {te : aeTimeEvent Proc} {next : List (aeTimeEvent Proc)} {w w' : World Proc σ} {calls : List (Call Proc)}
      (above : te.id > maxId) (later : Pass clock procs maxId next w w' calls) :
      Pass clock procs maxId (te :: next) w w' calls
  | waiting {te : aeTimeEvent Proc} {next : List (aeTimeEvent Proc)} {w w' : World Proc σ} {calls : List (Call Proc)}
      (old : te.id ≤ maxId) (early : ¬ due te (clock w.reads).time)
      (later : Pass clock procs maxId next (aeGetTime clock w).2 w' calls) :
      Pass clock procs maxId (te :: next) w w' calls
  | called {te : aeTimeEvent Proc} {next : List (aeTimeEvent Proc)} {w mid w' : World Proc σ} {retval : Int}
      {calls : List (Call Proc)} (old : te.id ≤ maxId) (come : due te (clock w.reads).time)
      (processed : process_event clock procs te (aeGetTime clock w).2 = some (mid, retval))
      (later : Pass clock procs maxId mid.eventLoop.timeEventHead mid w' calls) :
      Pass clock procs maxId (te :: next) w w' (⟨te, (clock w.reads).time, retval⟩ :: calls)

theorem pass_of_executed {maxId : Int} {fuel : Nat} {list : List (aeTimeEvent Proc)} {w w' : World Proc σ}
    {calls : List (Call Proc)} (executed : process_from clock procs maxId fuel list w = some (w', calls)) :
    Pass clock procs maxId list w w' calls := by
  induction fuel generalizing list w calls with
  | zero => cases executed
  | succ fuel ih =>
    cases list with
    | nil =>
      cases executed
      exact .done _
    | cons te next =>
      by_cases above : te.id > maxId
      · rw [process_from_newer above] at executed
        exact .newer above (ih executed)
      have old := not_lt.mp above
      by_cases come : due te (clock w.reads).time
      · rw [process_from_due old come] at executed
        obtain ⟨⟨mid, retval⟩, processed, after⟩ := Option.bind_eq_some_iff.mp executed
        obtain ⟨⟨last, rest⟩, later, same⟩ := Option.map_eq_some_iff.mp after
        cases same
        exact .called old come processed (ih later)
      · rw [process_from_waiting old come] at executed
        exact .waiting old come (ih executed)

end

/-! ## The timer of the servers -/

/-- `PrintTimer` of `echo_server.c` and `tcp_bbr_server.cc`: it prints the number `i`, which
    it counts up, and wants to be called again in ten seconds. There are no finalizers. -/
def PrintTimer : Procedures Unit Nat where
  timeProc _ _ _ w := some ({ w with rest := w.rest + 1 }, 10000)
  finalizerProc _ _ w := some w

theorem PrintTimer_lawful (clock : Clock) : Lawful clock PrintTimer := by
  refine ⟨?_, ?_⟩
  · intro proc id data w w' retval executed
    cases executed
    exact .other w.reads (w.rest + 1) .refl le_rfl
  · intro proc data w w' executed
    cases executed
    exact .refl

/-- A clock that is ten seconds later after the first answer, and again after the fifth. -/
def ticking (n : Nat) : timeval := ⟨if n = 0 then 100 else if n ≤ 4 then 110 else 120, 0, by decide⟩

/-- The loop of the servers with the timer due at the second answer of the clock. -/
def printing : World Unit Nat :=
  (aeCreateTimeEvent ticking ⟨aeCreateEventLoop 100, 0, 0⟩ 10000 () none none true).1

theorem printing_sound : Sound printing.eventLoop := create_sound (loop_created 100) ..

end TcpLearn.TimeEvents
