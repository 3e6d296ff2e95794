import TcpLearn.TimeEvents

/-!
# Passes over the time events

What `processTimeEvents` does whatever the procedures do to the list. Only events that
were in the list when it began are called, none before its time, and when it returns
every one that was due when it began has been called or is gone (`pass_complete`). Over
a whole run of the loop an event is called again only when the delay its procedure
asked for is over, and never after its procedure asked for none (`calls_spaced`).

Whether the pass returns depends on the delays. If its readings of the clock, of which
there are no more than `pass_reads`, take less time than the shortest delay that a
procedure asks for, it returns, and no event is called twice (`pass_returns`); a
procedure that asks for no delay keeps it from returning (`pass_endless`).
-/
namespace TcpLearn.TimeEvents

variable {Proc σ : Type} {clock : Clock} {procs : Procedures Proc σ}

/-- From this reading on the clock does not go back. -/
def Onward (clock : Clock) (from_read : Nat) : Prop :=
  ∀ i j, from_read ≤ i → i ≤ j → (clock i).time.total ≤ (clock j).time.total

theorem Onward.mono {n m : Nat} (onward : Onward clock n) (le : n ≤ m) : Onward clock m :=
  fun i j low high => onward i j (le.trans low) high

theorem ticking_onward (n : Nat) : Onward ticking n := by
  intro i j _ le
  simp only [ticking, timeval.time, Time.total]
  split_ifs <;> omega

/-! ## What a pass keeps -/

/-- The event has been in the list since the pass began: a new one has an identifier
    above `maxId`. -/
structure Passed (maxId : Int) (w w' : World Proc σ) (calls : List (Call Proc)) : Prop where
  reads : w.reads ≤ w'.reads
  ids : w.eventLoop.timeEventNextId ≤ w'.eventLoop.timeEventNextId
  lastTime : w'.eventLoop.lastTime = w.eventLoop.lastTime
  sound : Sound w'.eventLoop
  old : ∀ te ∈ w'.eventLoop.timeEventHead, te.id ≤ maxId → ∃ before ∈ w.eventLoop.timeEventHead, before.id = te.id
  calls_old : ∀ call ∈ calls, call.event.id ≤ maxId ∧ ∃ before ∈ w.eventLoop.timeEventHead, before.id = call.event.id
  calls_due : ∀ call ∈ calls, due call.event call.now

theorem processed_old {w w' : World Proc σ} {te : aeTimeEvent Proc} {retval maxId : Int} (mem : te ∈ w.eventLoop.timeEventHead)
    (below : maxId < w.eventLoop.timeEventNextId) (processed : Processed clock te retval w w') :
    ∀ other ∈ w'.eventLoop.timeEventHead, other.id ≤ maxId → ∃ before ∈ w.eventLoop.timeEventHead, before.id = other.id := by
  intro other otherMem old
  rcases processed.old other otherMem with new | ⟨before, _⟩ | ⟨n, _, _, _, rfl⟩
  · omega
  · exact ⟨other, before, rfl⟩
  · exact ⟨te, mem, rfl⟩

theorem pass_keeps (lawful : Lawful clock procs) {maxId : Int} {list : List (aeTimeEvent Proc)} {w w' : World Proc σ}
    {calls : List (Call Proc)} (pass : Pass clock procs maxId list w w' calls) (sound : Sound w.eventLoop)
    (suffix : list <:+ w.eventLoop.timeEventHead) (below : maxId < w.eventLoop.timeEventNextId) :
    Passed maxId w w' calls := by
  induction pass with
  | done w => exact ⟨le_rfl, le_rfl, rfl, sound, fun te mem _ => ⟨te, mem, rfl⟩, by simp, by simp⟩
  | newer above later ih => exact ih sound ((List.suffix_cons _ _).trans suffix) below
  | waiting old early later ih =>
    have kept := ih sound ((List.suffix_cons _ _).trans suffix) below
    exact { kept with reads := (Nat.le_succ _).trans kept.reads }
  | @called te next w mid w' retval calls old come executed later ih =>
    have mem : te ∈ w.eventLoop.timeEventHead := suffix.subset List.mem_cons_self
    have processed := process_event_spec lawful (w := (aeGetTime clock w).2) sound mem executed
    have back := processed_old (w := (aeGetTime clock w).2) mem below processed
    have kept := ih processed.sound (List.suffix_refl _) (below.trans_le processed.ids)
    refine ⟨?_, processed.ids.trans kept.ids, kept.lastTime.trans processed.lastTime, kept.sound, ?_, ?_, ?_⟩
    · have start : w.reads + 1 ≤ mid.reads := processed.reads
      have rest := kept.reads
      omega
    · intro other otherMem low
      obtain ⟨before, beforeMem, same⟩ := kept.old other otherMem low
      rw [← same] at low ⊢
      exact back before beforeMem low
    · intro call callMem
      rcases List.mem_cons.mp callMem with rfl | further
      · exact ⟨old, te, mem, rfl⟩
      · obtain ⟨low, before, beforeMem, same⟩ := kept.calls_old call further
        refine ⟨low, ?_⟩
        rw [← same] at low ⊢
        exact back before beforeMem low
    · intro call callMem
      rcases List.mem_cons.mp callMem with rfl | further
      · exact come
      · exact kept.calls_due call further

/-- No event with the identifier is in the list. -/
def Gone (id : Int) (w : World Proc σ) : Prop := ∀ te ∈ w.eventLoop.timeEventHead, te.id ≠ id

theorem passed_gone {maxId id : Int} {w w' : World Proc σ} {calls : List (Call Proc)} (passed : Passed maxId w w' calls)
    (low : id ≤ maxId) (gone : Gone id w) : Gone id w' := by
  intro te mem same
  obtain ⟨before, beforeMem, ids⟩ := passed.old te mem (by omega)
  exact gone before beforeMem (ids.trans same)

/-- An event that is due is called before the loop ends, unless a procedure deletes it. -/
theorem pass_calls (lawful : Lawful clock procs) {maxId : Int} {list : List (aeTimeEvent Proc)} {w w' : World Proc σ}
    {calls : List (Call Proc)} (pass : Pass clock procs maxId list w w' calls) (sound : Sound w.eventLoop)
    (suffix : list <:+ w.eventLoop.timeEventHead) (below : maxId < w.eventLoop.timeEventNextId)
    {te : aeTimeEvent Proc} {n : Nat} (mem : te ∈ list) (old : te.id ≤ maxId) (come : due te (clock n).time)
    (early : n ≤ w.reads) (onward : Onward clock n) :
    te.id ∈ calls.map (fun call => call.event.id) ∨ Gone te.id w' := by
  induction pass with
  | done w => exact absurd mem List.not_mem_nil
  | newer above later ih =>
    rcases List.mem_cons.mp mem with rfl | further
    · omega
    · exact ih sound ((List.suffix_cons _ _).trans suffix) below further early
  | @waiting here next w w' calls _ notYet later ih =>
    rcases List.mem_cons.mp mem with rfl | further
    · exact absurd (due_later come (onward n w.reads le_rfl early)) notYet
    · exact ih sound ((List.suffix_cons _ _).trans suffix) below further (early.trans (Nat.le_succ _))
  | @called here next w mid w' retval calls hereOld hereCome executed later ih =>
    rw [List.map_cons]
    by_cases own : te.id = here.id
    · exact .inl (by rw [own]; exact List.mem_cons_self)
    have hereMem : here ∈ w.eventLoop.timeEventHead := suffix.subset List.mem_cons_self
    have processed := process_event_spec lawful (w := (aeGetTime clock w).2) sound hereMem executed
    have belowMid := below.trans_le processed.ids
    by_cases still : te ∈ mid.eventLoop.timeEventHead
    · have start : w.reads + 1 ≤ mid.reads := processed.reads
      rcases ih processed.sound (List.suffix_refl _) belowMid still (by omega) with called | gone
      · exact .inl (List.mem_cons_of_mem _ called)
      · exact .inr gone
    · have gone : Gone te.id mid := by
        intro other otherMem same
        rcases processed.old other otherMem with new | ⟨before, _⟩ | ⟨_, _, _, _, rfl⟩
        · have := sound.below te (suffix.subset mem)
          have newer : w.eventLoop.timeEventNextId ≤ other.id := new
          omega
        · have whole := sound.same (suffix.subset mem) before same
          exact still (whole ▸ otherMem)
        · exact own same.symm
      exact .inr (passed_gone (pass_keeps lawful later processed.sound (List.suffix_refl _) belowMid) old gone)

/-! ## A whole pass -/

/-- The world in which the loop of `processTimeEvents` starts. -/
def skew_checked (clock : Clock) (w : World Proc σ) : World Proc σ :=
  { w with reads := w.reads + 1, eventLoop := detect_skew (clock w.reads).tv_sec w.eventLoop }

theorem skew_ids (now : Int) (eventLoop : aeEventLoop Proc) :
    (detect_skew now eventLoop).timeEventNextId = eventLoop.timeEventNextId ∧
      (detect_skew now eventLoop).lastTime = now := by
  refine ⟨?_, rfl⟩
  simp only [detect_skew]
  split_ifs <;> rfl

theorem pass_of_processed {fuel : Nat} {w w' : World Proc σ} {calls : List (Call Proc)}
    (executed : processTimeEvents clock procs fuel w = some (w', calls)) :
    Pass clock procs (w.eventLoop.timeEventNextId - 1) (skew_checked clock w).eventLoop.timeEventHead
      (skew_checked clock w) w' calls := by
  have ids := (skew_ids (clock w.reads).tv_sec w.eventLoop).1
  rw [← ids]
  exact pass_of_executed executed

theorem skew_below (clock : Clock) (w : World Proc σ) :
    w.eventLoop.timeEventNextId - 1 < (skew_checked clock w).eventLoop.timeEventNextId := by
  rw [skew_checked, (skew_ids _ w.eventLoop).1]
  omega

/-- The events after the check are those before, all of them due if the clock was set back. -/
theorem skew_events (now : Int) (eventLoop : aeEventLoop Proc) :
    (detect_skew now eventLoop).timeEventHead = eventLoop.timeEventHead.map fun te =>
      if now < eventLoop.lastTime then { te with when_sec := 0 } else te := by
  simp only [detect_skew]
  split_ifs
  · rfl
  · exact (List.map_id _).symm

theorem skew_sound (now : Int) {eventLoop : aeEventLoop Proc} (sound : Sound eventLoop) :
    Sound (detect_skew now eventLoop) := by
  obtain ⟨ids, _⟩ := skew_ids now eventLoop
  have same : ∀ te : aeTimeEvent Proc,
      (if now < eventLoop.lastTime then { te with when_sec := 0 } else te).id = te.id ∧
        (if now < eventLoop.lastTime then { te with when_sec := 0 } else te).when_ms = te.when_ms := by
    intro te
    split_ifs <;> exact ⟨rfl, rfl⟩
  refine ⟨?_, ?_, ?_⟩ <;> rw [skew_events]
  · refine List.pairwise_map.mpr (sound.decreasing.imp fun {te later} less => ?_)
    rw [(same te).1, (same later).1]
    exact less
  · intro te mem
    obtain ⟨before, old, rfl⟩ := List.mem_map.mp mem
    rw [(same before).1, ids]
    exact sound.below before old
  · intro te mem
    obtain ⟨before, old, rfl⟩ := List.mem_map.mp mem
    rw [(same before).2]
    exact sound.tidy before old

/-- The clock stands before the time of the last pass. -/
def SetBack (clock : Clock) (w : World Proc σ) : Prop := (clock w.reads).tv_sec < w.eventLoop.lastTime

/-- An event that was due when the pass began is called or gone. -/
theorem due_called (lawful : Lawful clock procs) {w w' : World Proc σ} {fuel : Nat} {calls : List (Call Proc)}
    (sound : Sound w.eventLoop) (onward : Onward clock w.reads) (epoch : 0 < (clock w.reads).tv_sec)
    (executed : processTimeEvents clock procs fuel w = some (w', calls)) {te : aeTimeEvent Proc}
    (mem : te ∈ w.eventLoop.timeEventHead) (come : due te (clock w.reads).time ∨ SetBack clock w) :
    te.id ∈ calls.map (fun call => call.event.id) ∨ Gone te.id w' := by
  have pass := pass_of_processed executed
  have start := skew_sound (clock w.reads).tv_sec sound
  have there : (if (clock w.reads).tv_sec < w.eventLoop.lastTime then { te with when_sec := 0 } else te) ∈
      (skew_checked clock w).eventLoop.timeEventHead := by
    rw [skew_checked, skew_events]
    exact List.mem_map_of_mem mem
  have old : te.id ≤ w.eventLoop.timeEventNextId - 1 := by
    have := sound.below te mem
    omega
  by_cases back : (clock w.reads).tv_sec < w.eventLoop.lastTime
  · rw [if_pos back] at there
    have now : due { te with when_sec := 0 } (clock w.reads).time := .inl epoch
    have called := pass_calls lawful pass start (List.suffix_refl _) (skew_below clock w) there old now (Nat.le_succ _) onward
    exact called
  · rw [if_neg back] at there
    exact pass_calls lawful pass start (List.suffix_refl _) (skew_below clock w) there old (come.resolve_right back)
      (Nat.le_succ _) onward

/-- A pass calls the events that were in the list when it began and are due, whatever the
    procedures do: none of those they create, none too early, and none of those that
    were due is left out. A clock that was set back makes all of them due. -/
theorem pass_complete (lawful : Lawful clock procs) {w w' : World Proc σ} {fuel : Nat} {calls : List (Call Proc)}
    (sound : Sound w.eventLoop) (onward : Onward clock w.reads) (epoch : 0 < (clock w.reads).tv_sec)
    (executed : processTimeEvents clock procs fuel w = some (w', calls)) :
    (∀ call ∈ calls, due call.event call.now ∧ ∃ te ∈ w.eventLoop.timeEventHead, te.id = call.event.id) ∧
      (∀ te ∈ w.eventLoop.timeEventHead,
        due te (clock w.reads).time ∨ SetBack clock w →
          te.id ∈ calls.map (fun call => call.event.id) ∨ Gone te.id w') ∧
      Sound w'.eventLoop := by
  have pass := pass_of_processed executed
  have start := skew_sound (clock w.reads).tv_sec sound
  have passed := pass_keeps lawful pass start (List.suffix_refl _) (skew_below clock w)
  refine ⟨?_, fun te mem come => due_called lawful sound onward epoch executed mem come, passed.sound⟩
  intro call mem
  refine ⟨passed.calls_due call mem, ?_⟩
  obtain ⟨_, before, beforeMem, same⟩ := passed.calls_old call mem
  rw [skew_checked, skew_events] at beforeMem
  obtain ⟨te, teMem, rfl⟩ := List.mem_map.mp beforeMem
  refine ⟨te, teMem, ?_⟩
  rw [← same]
  split_ifs <;> rfl

theorem pass_complete_printing : ∃ w' calls, processTimeEvents ticking PrintTimer 3 printing = some (w', calls) ∧
    calls.length = 1 ∧ Sound w'.eventLoop := by
  have executed : processTimeEvents ticking PrintTimer 3 printing = some _ := rfl
  have complete := pass_complete (PrintTimer_lawful _) printing_sound (ticking_onward _) (by decide) executed
  exact ⟨_, _, executed, rfl, complete.2.2⟩

/-! ## Runs -/

/-- The worlds the loop reaches, with the calls made so far: in between two passes
    whoever holds the loop creates and deletes events. -/
inductive Reaches (clock : Clock) (procs : Procedures Proc σ) (start : World Proc σ) :
    World Proc σ → List (Call Proc) → Prop
  | start : Reaches clock procs start start []
  | change {w w' : World Proc σ} {history : List (Call Proc)} (reached : Reaches clock procs start w history)
      (changes : Changes clock w w') : Reaches clock procs start w' history
  | pass {w w' : World Proc σ} {history calls : List (Call Proc)} (fuel : Nat)
      (reached : Reaches clock procs start w history)
      (executed : processTimeEvents clock procs fuel w = some (w', calls)) :
      Reaches clock procs start w' (history ++ calls)

/-- The delay that the first call asked for is over when the second one is made. -/
def Spaced (call next : Call Proc) : Prop :=
  next.event.id = call.event.id → call.retval ≠ AE_NOMORE ∧ call.now.total + call.retval ≤ next.now.total

structure Paced (clock : Clock) (history : List (Call Proc)) (w : World Proc σ) : Prop where
  ids : ∀ call ∈ history, call.event.id < w.eventLoop.timeEventNextId
  spaced : history.Pairwise Spaced
  /-- An event that was called before is not due earlier than its procedure asked for. -/
  next : ∀ call ∈ history, ∀ te ∈ w.eventLoop.timeEventHead, te.id = call.event.id → call.retval ≠ AE_NOMORE ∧
    ∀ n, w.reads ≤ n → due te (clock n).time → call.now.total + call.retval ≤ (clock n).time.total

theorem evolves_paced {w w' : World Proc σ} {history : List (Call Proc)} (evolves : Evolves w w')
    (paced : Paced clock history w) : Paced clock history w' := by
  refine ⟨fun call mem => (paced.ids call mem).trans_le evolves.ids, paced.spaced, ?_⟩
  intro call mem te teMem same
  rcases evolves.old te teMem with before | new
  · obtain ⟨again, delayed⟩ := paced.next call mem te before same
    exact ⟨again, fun n low => delayed n (evolves.reads.trans low)⟩
  · have := paced.ids call mem
    omega

theorem processed_paced {w w' : World Proc σ} {te : aeTimeEvent Proc} {retval : Int} {history : List (Call Proc)}
    (sound : Sound w.eventLoop) (mem : te ∈ w.eventLoop.timeEventHead) (come : due te (clock w.reads).time)
    (onward : Onward clock w.reads) (processed : Processed clock te retval (aeGetTime clock w).2 w')
    (paced : Paced clock history w) : Paced clock (history ++ [⟨te, (clock w.reads).time, retval⟩]) w' := by
  have start : w.reads + 1 ≤ w'.reads := processed.reads
  refine ⟨?_, ?_, ?_⟩
  · intro call callMem
    rcases List.mem_append.mp callMem with before | here
    · exact (paced.ids call before).trans_le processed.ids
    · rw [List.mem_singleton.mp here]
      exact (sound.below te mem).trans_le processed.ids
  · refine List.pairwise_append.mpr ⟨paced.spaced, List.pairwise_singleton _ _, ?_⟩
    intro call before here hereMem
    rw [List.mem_singleton.mp hereMem]
    intro same
    obtain ⟨again, delayed⟩ := paced.next call before te mem same
    exact ⟨again, delayed w.reads le_rfl come⟩
  · intro call callMem other otherMem same
    rcases List.mem_append.mp callMem with before | here
    · rcases processed.old other otherMem with new | ⟨old, _⟩ | ⟨_, _, _, _, rfl⟩
      · have := paced.ids call before
        have newer : w.eventLoop.timeEventNextId ≤ other.id := new
        omega
      · obtain ⟨again, delayed⟩ := paced.next call before other old same
        exact ⟨again, fun n low => delayed n (by omega)⟩
      · -- the event was due now: the delay asked for before is over already
        obtain ⟨again, delayed⟩ := paced.next call before te mem same
        refine ⟨again, ?_⟩
        intro n low _
        exact (delayed w.reads le_rfl come).trans (onward w.reads n le_rfl (by omega))
    · rw [List.mem_singleton.mp here] at same ⊢
      rcases processed.old other otherMem with new | ⟨_, apart⟩ | ⟨m, low, _, again, rfl⟩
      · have := sound.below te mem
        have newer : w.eventLoop.timeEventNextId ≤ other.id := new
        simp only at same
        omega
      · exact absurd same apart
      · refine ⟨again, ?_⟩
        intro n high come'
        have set := due_total (add_ms_lt (time_inside (clock m)).2 retval) come'
        rw [set_when_eq, total_add] at set
        have low' : w.reads + 1 ≤ m := low
        have := onward w.reads m le_rfl (by omega)
        simp only
        omega

theorem pass_paced (lawful : Lawful clock procs) {maxId : Int} {list : List (aeTimeEvent Proc)} {w w' : World Proc σ}
    {calls history : List (Call Proc)} (pass : Pass clock procs maxId list w w' calls) (sound : Sound w.eventLoop)
    (suffix : list <:+ w.eventLoop.timeEventHead) (onward : Onward clock w.reads) (paced : Paced clock history w) :
    Paced clock (history ++ calls) w' := by
  induction pass generalizing history with
  | done w =>
    rw [List.append_nil]
    exact paced
  | newer above later ih => exact ih sound ((List.suffix_cons _ _).trans suffix) onward paced
  | @waiting te next w w' calls old early later ih =>
    refine ih sound ((List.suffix_cons _ _).trans suffix) (onward.mono (Nat.le_succ _)) ?_
    have evolves : Evolves w (aeGetTime clock w).2 := ⟨Nat.le_succ _, le_rfl, rfl, fun _ mem => .inl mem⟩
    exact evolves_paced evolves paced
  | @called te next w mid w' retval calls old come executed later ih =>
    have mem : te ∈ w.eventLoop.timeEventHead := suffix.subset List.mem_cons_self
    have processed := process_event_spec lawful (w := (aeGetTime clock w).2) sound mem executed
    have start : w.reads + 1 ≤ mid.reads := processed.reads
    have further := ih processed.sound (List.suffix_refl _) (onward.mono (by omega))
      (processed_paced sound mem come onward processed paced)
    rwa [List.append_assoc] at further

/-- What holds of the loop in between. -/
structure Steady (clock : Clock) (from_read : Nat) (history : List (Call Proc)) (w : World Proc σ) : Prop where
  later : from_read ≤ w.reads
  sound : Sound w.eventLoop
  lastTime : ∀ n, w.reads ≤ n → w.eventLoop.lastTime ≤ (clock n).tv_sec
  paced : Paced clock history w

theorem onward_sec {n i j : Nat} (onward : Onward clock n) (low : n ≤ i) (high : i ≤ j) :
    (clock i).tv_sec ≤ (clock j).tv_sec := by
  have total := onward i j low high
  have inside := time_inside (clock i)
  have inside' := time_inside (clock j)
  have sec : (clock i).time.sec = (clock i).tv_sec := rfl
  have sec' : (clock j).time.sec = (clock j).tv_sec := rfl
  simp only [Time.total] at total
  omega

theorem change_steady {from_read : Nat} {w w' : World Proc σ} {history : List (Call Proc)} (changes : Changes clock w w')
    (steady : Steady clock from_read history w) : Steady clock from_read history w' := by
  have evolves := changes_evolve changes
  refine ⟨steady.later.trans evolves.reads, changes_sound changes steady.sound, ?_, evolves_paced evolves steady.paced⟩
  intro n low
  rw [evolves.lastTime]
  exact steady.lastTime n (evolves.reads.trans low)

theorem pass_steady (lawful : Lawful clock procs) {from_read fuel : Nat} (onward : Onward clock from_read)
    {w w' : World Proc σ} {history calls : List (Call Proc)} (steady : Steady clock from_read history w)
    (executed : processTimeEvents clock procs fuel w = some (w', calls)) :
    Steady clock from_read (history ++ calls) w' := by
  have pass := pass_of_processed executed
  have there : ¬ (clock w.reads).tv_sec < w.eventLoop.lastTime := not_lt.mpr (steady.lastTime w.reads le_rfl)
  obtain ⟨ids, last⟩ := skew_ids (clock w.reads).tv_sec w.eventLoop
  have start := skew_sound (clock w.reads).tv_sec steady.sound
  have evolves : Evolves w { skew_checked clock w with eventLoop := { (skew_checked clock w).eventLoop with
      lastTime := w.eventLoop.lastTime } } := by
    refine ⟨Nat.le_succ _, ids.ge, rfl, ?_⟩
    intro te mem
    simp only [skew_checked, skew_events, if_neg there, List.map_id'] at mem
    exact .inl mem
  have paced : Paced clock history (skew_checked clock w) := by
    have same := evolves_paced evolves steady.paced
    exact ⟨same.ids, same.spaced, same.next⟩
  have onward' : Onward clock (skew_checked clock w).reads := onward.mono (steady.later.trans (Nat.le_succ _))
  have passed := pass_keeps lawful pass start (List.suffix_refl _) (by rw [skew_checked, ids]; omega)
  have reads : w.reads + 1 ≤ w'.reads := passed.reads
  refine ⟨by have := steady.later; omega, passed.sound, ?_, pass_paced lawful pass start (List.suffix_refl _) onward' paced⟩
  intro n low
  rw [passed.lastTime, skew_checked, last]
  exact onward_sec onward steady.later (by omega)

theorem reaches_steady (lawful : Lawful clock procs) {start w : World Proc σ} {now : Int} {history : List (Call Proc)}
    (created : start.eventLoop = aeCreateEventLoop now) (past : now ≤ (clock start.reads).tv_sec)
    (onward : Onward clock start.reads) (reached : Reaches clock procs start w history) :
    Steady clock start.reads history w := by
  induction reached with
  | start =>
    refine ⟨le_rfl, ?_, ?_, ⟨by simp, List.Pairwise.nil, by simp⟩⟩
    · rw [created]
      exact loop_created now
    · intro n low
      rw [created]
      exact past.trans (onward_sec onward le_rfl low)
  | change _ changes ih => exact change_steady changes ih
  | pass fuel _ executed ih => exact pass_steady lawful onward ih executed

/-- Over a whole run an event is called again only when the delay its procedure asked for
    is over, and never after its procedure asked for none. -/
theorem calls_spaced (lawful : Lawful clock procs) {start w : World Proc σ} {now : Int} {history : List (Call Proc)}
    (created : start.eventLoop = aeCreateEventLoop now) (past : now ≤ (clock start.reads).tv_sec)
    (onward : Onward clock start.reads) (reached : Reaches clock procs start w history) :
    Sound w.eventLoop ∧ history.Pairwise Spaced := by
  have steady := reaches_steady lawful created past onward reached
  exact ⟨steady.sound, steady.paced.spaced⟩

/-- Two passes, ten seconds apart, call the timer twice. -/
theorem calls_spaced_printing : ∃ w history, Reaches ticking PrintTimer ⟨aeCreateEventLoop 100, 0, 0⟩ w history ∧
    history.length = 2 ∧ history.Pairwise Spaced := by
  have created : Reaches ticking PrintTimer ⟨aeCreateEventLoop 100, 0, 0⟩ printing [] :=
    .change .start (.create 10000 () none none true .refl)
  have first := Reaches.pass 3 created rfl
  have second := Reaches.pass 3 first rfl
  exact ⟨_, _, second, rfl,
    (calls_spaced (PrintTimer_lawful _) rfl (by decide) (ticking_onward 0) second).2⟩

/-! ## A pass that returns -/

/-- Every procedure returns, asks for no more or for a delay of at least `d`, and then
    leaves its own event in the list. It reads the clock `r` times at most. -/
structure Patient (procs : Procedures Proc σ) (d : Int) (r : Nat) : Prop where
  timeProc : ∀ proc id data (w : World Proc σ), (∃ te ∈ w.eventLoop.timeEventHead, te.id = id) →
    ∃ w' retval, procs.timeProc proc id data w = some (w', retval) ∧ w'.reads ≤ w.reads + r ∧
      (retval ≠ AE_NOMORE → d ≤ retval ∧ ∃ te ∈ w'.eventLoop.timeEventHead, te.id = id)
  finalizerProc : ∀ proc data (w : World Proc σ),
    ∃ w', procs.finalizerProc proc data w = some w' ∧ w'.reads ≤ w.reads + r

/-- The events that a pass may still call while the clock stands before `limit`. -/
def pending (maxId limit : Int) (w : World Proc σ) : Finset Int :=
  ((w.eventLoop.timeEventHead.filter fun te => te.id ≤ maxId ∧ te.when.total < limit).map fun te => te.id).toFinset

theorem mem_pending {maxId limit id : Int} {w : World Proc σ} : id ∈ pending maxId limit w ↔
    ∃ te ∈ w.eventLoop.timeEventHead, te.id = id ∧ te.id ≤ maxId ∧ te.when.total < limit := by
  simp only [pending, List.mem_toFinset, List.mem_map, List.mem_filter, decide_eq_true_eq]
  constructor
  · rintro ⟨te, ⟨mem, old, soon⟩, same⟩
    exact ⟨te, mem, same, old, soon⟩
  · rintro ⟨te, mem, same, old, soon⟩
    exact ⟨te, ⟨mem, old, soon⟩, same⟩

theorem delete_total {d : Int} {r : Nat} (patient : Patient procs d r) (w : World Proc σ) (id : Int) :
    ∃ w' found, aeDeleteTimeEvent procs w id = some (w', found) ∧ w'.reads ≤ w.reads + r := by
  rw [aeDeleteTimeEvent]
  split
  · exact ⟨w, false, rfl, Nat.le_add_right _ _⟩
  · rename_i te _
    cases te.finalizerProc with
    | none => exact ⟨unlink w id, true, rfl, Nat.le_add_right _ _⟩
    | some proc =>
      obtain ⟨w', finalized, few⟩ := patient.finalizerProc proc te.clientData (unlink w id)
      exact ⟨w', true, Option.bind_eq_some_iff.mpr ⟨w', finalized, rfl⟩, few⟩

theorem process_event_total (clock : Clock) {d : Int} {r : Nat} (patient : Patient procs d r) {w : World Proc σ}
    {te : aeTimeEvent Proc} (mem : te ∈ w.eventLoop.timeEventHead) :
    ∃ w' retval, process_event clock procs te w = some (w', retval) ∧ (retval ≠ AE_NOMORE → d ≤ retval) ∧
      w'.reads ≤ w.reads + (2 * r + 1) := by
  obtain ⟨mid, retval, called, few, delayed⟩ := patient.timeProc te.timeProc te.id te.clientData w ⟨te, mem, rfl⟩
  by_cases again : retval ≠ AE_NOMORE
  · obtain ⟨long, there⟩ := delayed again
    obtain ⟨last, set⟩ : ∃ last, set_when (aeAddMillisecondsToNow clock mid retval).2 te.id
        (aeAddMillisecondsToNow clock mid retval).1 = some last := ⟨_, if_pos there⟩
    refine ⟨last, retval, ?_, fun _ => long, ?_⟩
    · rw [process_event, called]
      simp only [Option.bind_eq_bind, Option.bind_some]
      rw [if_pos again, set]
      rfl
    · rw [(set_when_spec set).2]
      show mid.reads + 1 ≤ _
      omega
  · obtain ⟨w', found, deleted, fewToo⟩ := delete_total patient mid te.id
    refine ⟨w', retval, ?_, fun more => absurd more again, by omega⟩
    rw [process_event, called]
    simp only [Option.bind_eq_bind, Option.bind_some]
    rw [if_neg again, deleted]
    rfl

/-- An event that has been called is not pending any longer, and no other has become so. -/
theorem processed_pending {w w' : World Proc σ} {te : aeTimeEvent Proc} {retval maxId limit d : Int}
    (below : maxId < w.eventLoop.timeEventNextId) (processed : Processed clock te retval w w')
    (long : retval ≠ AE_NOMORE → d ≤ retval)
    (window : ∀ n, w.reads ≤ n → n < w'.reads → limit ≤ (clock n).time.total + d) :
    pending maxId limit w' ⊆ (pending maxId limit w).erase te.id := by
  intro id mem
  obtain ⟨other, otherMem, rfl, old, soon⟩ := mem_pending.mp mem
  rcases processed.old other otherMem with new | ⟨before, apart⟩ | ⟨n, low, high, again, rfl⟩
  · omega
  · exact Finset.mem_erase.mpr ⟨apart, mem_pending.mpr ⟨other, before, rfl, old, soon⟩⟩
  · have := long again
    have := window n low high
    rw [set_when_eq, total_add] at soon
    omega

/-- How many events of a list a pass looks at. -/
def olds (maxId : Int) (list : List (aeTimeEvent Proc)) : Nat := list.countP fun te => te.id ≤ maxId

theorem processed_olds {w w' : World Proc σ} {te : aeTimeEvent Proc} {retval maxId : Int}
    (mem : te ∈ w.eventLoop.timeEventHead) (below : maxId < w.eventLoop.timeEventNextId)
    (processed : Processed clock te retval w w') :
    olds maxId w'.eventLoop.timeEventHead ≤ olds maxId w.eventLoop.timeEventHead := by
  have distinct : (w'.eventLoop.timeEventHead.map fun te => te.id).Nodup :=
    List.pairwise_map.mpr (processed.sound.decreasing.imp fun less => ne_of_gt less)
  have apart := distinct.sublist (List.filter_sublist.map _ :
    ((w'.eventLoop.timeEventHead.filter fun te => te.id ≤ maxId).map fun te => te.id).Sublist _)
  have among : ((w'.eventLoop.timeEventHead.filter fun te => te.id ≤ maxId).map fun te => te.id) ⊆
      (w.eventLoop.timeEventHead.filter fun te => te.id ≤ maxId).map fun te => te.id := by
    intro id member
    obtain ⟨other, kept, rfl⟩ := List.mem_map.mp member
    obtain ⟨there, old⟩ := List.mem_filter.mp kept
    replace old : other.id ≤ maxId := by simpa using old
    obtain ⟨before, beforeMem, same⟩ := processed_old mem below processed other there old
    exact List.mem_map.mpr ⟨before, List.mem_filter.mpr ⟨beforeMem, by simpa [same] using old⟩, same⟩
  have fewer := (apart.subperm among).length_le
  rw [List.length_map, List.length_map, ← List.countP_eq_length_filter, ← List.countP_eq_length_filter] at fewer
  exact fewer

/-- A call pays for the readings until the loop has come to the head again, and one walk. -/
theorem called_budget {count count' all all' left r : Nat} (fewer : count' < count) (shrunk : all' ≤ all) (some : 0 < left) :
    1 + (2 * r + 1) + (all' + count' * (all' + (2 * r + 1))) ≤ left + count * (all + (2 * r + 1)) := by
  have paid := Nat.mul_le_mul (Nat.succ_le_of_lt fewer) (Nat.add_le_add_right shrunk (2 * r + 1))
  rw [Nat.succ_mul] at paid
  omega

/-- The induction is on how many events may still be called, and within it on the list. -/
theorem process_from_returns (lawful : Lawful clock procs) {d limit maxId : Int} {r : Nat} (patient : Patient procs d r)
    {first last : Nat}
    (window : ∀ n, first ≤ n → n < last → (clock n).time.total < limit ∧ limit ≤ (clock n).time.total + d)
    (count : Nat) : ∀ (list : List (aeTimeEvent Proc)) (w : World Proc σ), Sound w.eventLoop →
      list <:+ w.eventLoop.timeEventHead → maxId < w.eventLoop.timeEventNextId → first ≤ w.reads →
      w.reads + (olds maxId list + count * (olds maxId w.eventLoop.timeEventHead + (2 * r + 1))) ≤ last →
      (pending maxId limit w).card = count →
      ∃ fuel w' calls, process_from clock procs maxId fuel list w = some (w', calls) ∧ w'.reads ≤ last ∧
        (calls.map fun call => call.event.id).Nodup ∧ ∀ call ∈ calls, call.event.id ∈ pending maxId limit w := by
  induction count using Nat.strong_induction_on with
  | _ count fewer_returns =>
    intro list
    induction list with
    | nil =>
      intro w _ _ _ _ budget _
      exact ⟨1, w, [], rfl, (Nat.le_add_right _ _).trans budget, List.nodup_nil, by simp⟩
    | cons te next ih =>
      intro w sound suffix below later budget counted
      have rest := (List.suffix_cons te next).trans suffix
      have mem : te ∈ w.eventLoop.timeEventHead := suffix.subset List.mem_cons_self
      by_cases above : te.id > maxId
      · have same : olds maxId (te :: next) = olds maxId next := List.countP_cons_of_neg (by simpa using above)
        rw [same] at budget
        obtain ⟨fuel, w', calls, executed, once⟩ := ih w sound rest below later budget counted
        exact ⟨fuel + 1, w', calls, by rw [process_from_newer above, executed], once⟩
      have old := not_lt.mp above
      have one : olds maxId (te :: next) = olds maxId next + 1 := List.countP_cons_of_pos (by simpa using old)
      rw [one] at budget
      by_cases come : due te (clock w.reads).time
      · have soon := (due_total (sound.tidy te mem) come).trans_lt (window w.reads later (by omega)).1
        have there := mem_pending.mpr ⟨te, mem, rfl, old, soon⟩
        obtain ⟨mid, retval, called, long, few⟩ :=
          process_event_total clock patient (w := (aeGetTime clock w).2) mem
        have processed := process_event_spec lawful (w := (aeGetTime clock w).2) sound mem called
        have start : w.reads + 1 ≤ mid.reads := processed.reads
        have soonAfter : mid.reads ≤ w.reads + 1 + (2 * r + 1) := few
        have shrunk : olds maxId mid.eventLoop.timeEventHead ≤ olds maxId w.eventLoop.timeEventHead :=
          processed_olds (w := (aeGetTime clock w).2) mem below processed
        have card : 0 < count := by
          rw [← counted]
          exact Finset.card_pos.mpr ⟨_, there⟩
        have whole := @called_budget count 0 _ _ (olds maxId next + 1) r card shrunk (Nat.succ_pos _)
        have within : mid.reads ≤ last := by omega
        have fewer : pending maxId limit mid ⊆ (pending maxId limit w).erase te.id := by
          refine processed_pending (w := (aeGetTime clock w).2) below processed long fun n low high => ?_
          have : w.reads + 1 ≤ n := low
          exact (window n (by omega) (by omega)).2
        have less : (pending maxId limit mid).card < count := by
          rw [← counted]
          exact (Finset.card_le_card fewer).trans_lt (Finset.card_erase_lt_of_mem there)
        have paid := @called_budget _ _ _ _ (olds maxId next + 1) r less shrunk (Nat.succ_pos _)
        obtain ⟨fuel, w', calls, executed, spent, once, among⟩ := fewer_returns _ less mid.eventLoop.timeEventHead mid
          processed.sound (List.suffix_refl _) (below.trans_le processed.ids) (by omega) (by omega) rfl
        refine ⟨fuel + 1, w', ⟨te, (clock w.reads).time, retval⟩ :: calls, ?_, spent, ?_, ?_⟩
        · rw [process_from_due old come, called, Option.bind_some, executed, Option.map_some]
        · rw [List.map_cons]
          refine List.nodup_cons.mpr ⟨?_, once⟩
          intro twice
          obtain ⟨call, callMem, same⟩ := List.mem_map.mp twice
          exact (Finset.mem_erase.mp (fewer (among call callMem))).1 same
        · intro call callMem
          rcases List.mem_cons.mp callMem with rfl | further
          · exact there
          · exact (Finset.mem_erase.mp (fewer (among call further))).2
      · have spent : w.reads + 1 + (olds maxId next + count * (olds maxId w.eventLoop.timeEventHead + (2 * r + 1))) ≤
            last := by omega
        obtain ⟨fuel, w', calls, executed, once⟩ :=
          ih (aeGetTime clock w).2 sound rest below (later.trans (Nat.le_succ _)) spent counted
        exact ⟨fuel + 1, w', calls, by rw [process_from_waiting old come, executed], once⟩

/-- The most readings of the clock that the loop of a pass makes of so many events, when a
    procedure makes `r`: each call is followed by another walk along the list. -/
def pass_reads (events r : Nat) : Nat := events + events * (events + (2 * r + 1))

/-- Readings that are less than `d` apart lie before a time that all of them come up to with `d`. -/
theorem window_limit {first last : Nat} {d : Int}
    (quick : ∀ i j, first ≤ i → i < last → first ≤ j → j < last → (clock j).time.total < (clock i).time.total + d) :
    ∃ limit, ∀ n, first ≤ n → n < last → (clock n).time.total < limit ∧ limit ≤ (clock n).time.total + d := by
  by_cases some : (Finset.Ico first last).Nonempty
  · obtain ⟨latest, there, most⟩ := Finset.exists_max_image _ (fun n => (clock n).time.total) some
    refine ⟨(clock latest).time.total + 1, ?_⟩
    intro n low high
    have before := most n (Finset.mem_Ico.mpr ⟨low, high⟩)
    obtain ⟨latestLow, latestHigh⟩ := Finset.mem_Ico.mp there
    have near := quick n latest low high latestLow latestHigh
    omega
  · exact ⟨0, fun n low high => absurd ⟨n, Finset.mem_Ico.mpr ⟨low, high⟩⟩ some⟩

theorem pending_card (maxId limit : Int) (w : World Proc σ) :
    (pending maxId limit w).card ≤ w.eventLoop.timeEventHead.length := by
  refine (List.toFinset_card_le _).trans ?_
  rw [List.length_map]
  exact List.length_filter_le _ _

/-- A pass whose readings of the clock take less time than the shortest delay that a
    procedure asks for returns, and calls no event twice. These are all its readings but
    the one for the check. -/
theorem pass_returns (lawful : Lawful clock procs) {d : Int} {r : Nat} (patient : Patient procs d r) {w : World Proc σ}
    (sound : Sound w.eventLoop)
    (quick : ∀ i j, w.reads < i → i ≤ w.reads + pass_reads w.eventLoop.timeEventHead.length r →
      w.reads < j → j ≤ w.reads + pass_reads w.eventLoop.timeEventHead.length r →
        (clock j).time.total < (clock i).time.total + d) :
    ∃ fuel w' calls, processTimeEvents clock procs fuel w = some (w', calls) ∧
      w'.reads ≤ w.reads + 1 + pass_reads w.eventLoop.timeEventHead.length r ∧
      (calls.map fun call => call.event.id).Nodup := by
  have start := skew_sound (clock w.reads).tv_sec sound
  have ids := (skew_ids (clock w.reads).tv_sec w.eventLoop).1
  have length : (skew_checked clock w).eventLoop.timeEventHead.length = w.eventLoop.timeEventHead.length := by
    rw [skew_checked, skew_events, List.length_map]
  obtain ⟨limit, window⟩ := @window_limit clock (w.reads + 1)
    (w.reads + 1 + pass_reads w.eventLoop.timeEventHead.length r) d fun i j low high low' high' =>
      quick i j low (by omega) low' (by omega)
  have all : olds ((skew_checked clock w).eventLoop.timeEventNextId - 1) (skew_checked clock w).eventLoop.timeEventHead ≤
      (skew_checked clock w).eventLoop.timeEventHead.length := List.countP_le_length
  have count := pending_card ((skew_checked clock w).eventLoop.timeEventNextId - 1) limit (skew_checked clock w)
  rw [length] at all count
  have budget := Nat.add_le_add all (Nat.mul_le_mul count (Nat.add_le_add_right all (2 * r + 1)))
  obtain ⟨fuel, w', calls, executed, spent, once, _⟩ := process_from_returns lawful patient window _
    (skew_checked clock w).eventLoop.timeEventHead (skew_checked clock w) start (List.suffix_refl _)
    (show (skew_checked clock w).eventLoop.timeEventNextId - 1 < _ by omega) le_rfl
    (Nat.add_le_add_left budget (w.reads + 1)) rfl
  exact ⟨fuel, w', calls, executed, spent, once⟩

/-- A clock that shows another second at every reading. -/
def running (n : Nat) : timeval := { ticking n with tv_sec := 109 + n }

/-- The timer of the servers asks for ten seconds, the pass takes three. -/
theorem pass_returns_printing : ∃ fuel w' calls, processTimeEvents running PrintTimer fuel printing = some (w', calls) ∧
    w'.reads ≤ printing.reads + 1 + 3 ∧ (calls.map fun call => call.event.id).Nodup := by
  have patient : Patient PrintTimer 10000 0 := by
    refine ⟨?_, fun _ _ w => ⟨w, rfl, le_rfl⟩⟩
    intro proc id data w there
    exact ⟨_, 10000, rfl, le_rfl, fun _ => ⟨le_rfl, there⟩⟩
  have three : pass_reads printing.eventLoop.timeEventHead.length 0 = 3 := by decide
  rw [← three]
  refine pass_returns (PrintTimer_lawful _) patient printing_sound ?_
  intro i j low high low' high'
  rw [three] at high high'
  simp only [running, ticking, timeval.time, Time.total]
  omega

/-! ## A pass that does not return -/

/-- The event is called each time with no delay asked for, and no procedure deletes it. -/
structure Restless (procs : Procedures Proc σ) (proc : Proc) (id : Int) (data : Option Nat) : Prop where
  eager : ∀ {w w' : World Proc σ} {retval}, procs.timeProc proc id data w = some (w', retval) →
    retval ≠ AE_NOMORE ∧ retval ≤ 0
  stays : ∀ {other otherId otherData} {w w' : World Proc σ} {retval},
    procs.timeProc other otherId otherData w = some (w', retval) →
      ∀ te ∈ w.eventLoop.timeEventHead, te.id = id → te ∈ w'.eventLoop.timeEventHead
  finalized : ∀ {other otherData} {w w' : World Proc σ}, procs.finalizerProc other otherData w = some w' →
    ∀ te ∈ w.eventLoop.timeEventHead, te.id = id → te ∈ w'.eventLoop.timeEventHead

theorem deleted_stays {proc : Proc} {id other : Int} {data : Option Nat} (restless : Restless procs proc id data)
    {w w' : World Proc σ} {found : Bool} (executed : aeDeleteTimeEvent procs w other = some (w', found))
    (apart : id ≠ other) : ∀ te ∈ w.eventLoop.timeEventHead, te.id = id → te ∈ w'.eventLoop.timeEventHead := by
  intro te mem same
  have unlinked : te ∈ (unlink w other).eventLoop.timeEventHead := by
    refine (List.mem_eraseP_of_neg ?_).mpr mem
    simpa [same] using apart
  rw [aeDeleteTimeEvent] at executed
  split at executed
  · cases executed
    exact mem
  · split at executed
    · cases executed
      exact unlinked
    · obtain ⟨last, finalized, result⟩ := Option.bind_eq_some_iff.mp executed
      cases result
      exact restless.finalized finalized te unlinked same

/-- Up to the reading number `last` the restless event stays in the list and due whatever
    event is called, itself included. -/
theorem processed_restless (lawful : Lawful clock procs) {proc : Proc} {id : Int} {data : Option Nat}
    (restless : Restless procs proc id data) {w w' : World Proc σ} {here te : aeTimeEvent Proc} {retval : Int}
    (sound : Sound w.eventLoop) (hereMem : here ∈ w.eventLoop.timeEventHead) (mem : te ∈ w.eventLoop.timeEventHead)
    (own : te.timeProc = proc ∧ te.id = id ∧ te.clientData = data) {last : Nat}
    (onward : ∀ i j, w.reads ≤ i → i ≤ j → j < last → (clock i).time.total ≤ (clock j).time.total)
    (come : ∀ n, w.reads ≤ n → n < last → due te (clock n).time)
    (executed : process_event clock procs here w = some (w', retval)) :
    ∃ te' ∈ w'.eventLoop.timeEventHead, (te'.timeProc = proc ∧ te'.id = id ∧ te'.clientData = data) ∧
      ∀ n, w'.reads ≤ n → n < last → due te' (clock n).time := by
  have reads := (process_event_spec lawful sound hereMem executed).reads
  have stillDue : ∀ n, w'.reads ≤ n → n < last → due te (clock n).time := fun n low => come n (reads.trans low)
  obtain ⟨⟨mid, answer⟩, called, after⟩ := Option.bind_eq_some_iff.mp executed
  have midMem := restless.stays called te mem own.2.1
  have midReads := (changes_evolve (lawful.timeProc called)).reads
  dsimp only at after
  split_ifs at after with again
  · obtain ⟨last, set, same⟩ := Option.bind_eq_some_iff.mp after
    cases same
    obtain ⟨_, rfl⟩ := set_when_spec set
    have placed := List.mem_map_of_mem (f := fun before =>
      if before.id = here.id then before.set (aeAddMillisecondsToNow clock mid retval).1 else before) midMem
    by_cases itself : te.id = here.id
    · rw [if_pos itself] at placed
      refine ⟨_, placed, own, ?_⟩
      intro n low high
      have whole := sound.same hereMem mem itself
      rw [← whole, own.1, own.2.1, own.2.2] at called
      exact due_of_no_delay (restless.eager called).2 rfl (onward mid.reads n midReads ((Nat.le_succ _).trans low) high)
    · rw [if_neg itself] at placed
      exact ⟨te, placed, own, stillDue⟩
  · obtain ⟨⟨last, found⟩, deleted, same⟩ := Option.bind_eq_some_iff.mp after
    cases same
    refine ⟨te, deleted_stays restless deleted ?_ te midMem own.2.1, own, stillDue⟩
    intro itself
    have whole := sound.same hereMem mem (own.2.1.trans itself)
    rw [← whole, own.1, own.2.1, own.2.2] at called
    exact (restless.eager called).1 (not_not.mp again)

/-- While a restless event is due the loop does not come to the end of the list: it has
    made the reading before the number `last` when it returns. -/
theorem process_from_lasts (lawful : Lawful clock procs) {proc : Proc} {id maxId : Int} {data : Option Nat}
    (restless : Restless procs proc id data) (old : id ≤ maxId) {last : Nat} (fuel : Nat) {list : List (aeTimeEvent Proc)}
    {w w' : World Proc σ} {calls : List (Call Proc)} {te : aeTimeEvent Proc} (sound : Sound w.eventLoop)
    (suffix : list <:+ w.eventLoop.timeEventHead) (below : maxId < w.eventLoop.timeEventNextId)
    (mem : te ∈ list) (own : te.timeProc = proc ∧ te.id = id ∧ te.clientData = data)
    (onward : ∀ i j, w.reads ≤ i → i ≤ j → j < last → (clock i).time.total ≤ (clock j).time.total)
    (come : ∀ n, w.reads ≤ n → n < last → due te (clock n).time)
    (executed : process_from clock procs maxId fuel list w = some (w', calls)) : last ≤ w'.reads := by
  induction fuel generalizing list w te calls with
  | zero => cases executed
  | succ fuel ih =>
    by_cases done : last ≤ w.reads
    · exact done.trans (pass_keeps lawful (pass_of_executed executed) sound suffix below).reads
    cases list with
    | nil => exact absurd mem List.not_mem_nil
    | cons here next =>
      have rest := (List.suffix_cons here next).trans suffix
      have next_reads : w.reads ≤ (aeGetTime clock w).2.reads := Nat.le_succ _
      by_cases above : here.id > maxId
      · rw [process_from_newer above] at executed
        rcases List.mem_cons.mp mem with rfl | further
        · omega
        · exact ih sound rest below further own onward come executed
      have hereOld := not_lt.mp above
      by_cases now : due here (clock w.reads).time
      · rw [process_from_due hereOld now] at executed
        obtain ⟨⟨mid, retval⟩, called, after⟩ := Option.bind_eq_some_iff.mp executed
        obtain ⟨⟨final, later⟩, further, same⟩ := Option.map_eq_some_iff.mp after
        cases same
        have hereMem : here ∈ w.eventLoop.timeEventHead := suffix.subset List.mem_cons_self
        have processed := process_event_spec lawful (w := (aeGetTime clock w).2) sound hereMem called
        have start : w.reads ≤ mid.reads := next_reads.trans processed.reads
        obtain ⟨te', mem', own', come'⟩ := processed_restless lawful restless (w := (aeGetTime clock w).2) sound
          hereMem (suffix.subset mem) own (fun i j low => onward i j (next_reads.trans low))
          (fun n low => come n (next_reads.trans low)) called
        exact ih processed.sound (List.suffix_refl _) (below.trans_le processed.ids) mem' own'
          (fun i j low => onward i j (start.trans low)) come' further
      · rw [process_from_waiting hereOld now] at executed
        rcases List.mem_cons.mp mem with rfl | further
        · exact absurd (come w.reads le_rfl (not_le.mp done)) now
        · exact ih (w := (aeGetTime clock w).2) sound rest below further own
            (fun i j low => onward i j (next_reads.trans low)) (fun n low => come n (next_reads.trans low)) executed

/-- A procedure that asks for no delay keeps the pass from returning, once its event is due. -/
theorem pass_endless (lawful : Lawful clock procs) {w : World Proc σ} {te : aeTimeEvent Proc} (sound : Sound w.eventLoop)
    (onward : Onward clock w.reads) (epoch : 0 < (clock w.reads).tv_sec) (mem : te ∈ w.eventLoop.timeEventHead)
    (restless : Restless procs te.timeProc te.id te.clientData) (come : due te (clock w.reads).time) (fuel : Nat) :
    processTimeEvents clock procs fuel w = none := by
  have start := skew_sound (clock w.reads).tv_sec sound
  have ids := (skew_ids (clock w.reads).tv_sec w.eventLoop).1
  have old : te.id ≤ (skew_checked clock w).eventLoop.timeEventNextId - 1 := by
    have := sound.below te mem
    rw [skew_checked, ids]
    omega
  have there : (if (clock w.reads).tv_sec < w.eventLoop.lastTime then { te with when_sec := 0 } else te) ∈
      (skew_checked clock w).eventLoop.timeEventHead := by
    rw [skew_checked, skew_events]
    exact List.mem_map_of_mem mem
  cases executed : processTimeEvents clock procs fuel w with
  | none => rfl
  | some result =>
    obtain ⟨w', calls⟩ := result
    -- the pass would have made more readings than it made
    refine absurd (@process_from_lasts _ _ _ _ lawful _ _ _ _ restless old (w'.reads + 1) fuel _ (skew_checked clock w) _ _ _
      start (List.suffix_refl _) (by omega) there ?_ (fun i j low high _ => onward i j ((Nat.le_succ _).trans low) high) ?_
      executed) (by omega)
    · split_ifs <;> exact ⟨rfl, rfl, rfl⟩
    · intro n low _
      have later : w.reads ≤ n := (Nat.le_succ _).trans low
      split_ifs
      · exact .inl (epoch.trans_le (onward_sec onward le_rfl later))
      · exact due_later come (onward w.reads n le_rfl later)

/-- A timer that asks for no delay. -/
def eager : Procedures Unit Nat := { PrintTimer with timeProc := fun _ _ _ w => some ({ w with rest := w.rest + 1 }, 0) }

theorem pass_endless_eager : processTimeEvents ticking eager 1000 printing = none := by
  have lawful : Lawful ticking eager := by
    refine ⟨?_, ?_⟩
    · intro proc id data w w' retval executed
      cases executed
      exact .other w.reads (w.rest + 1) .refl le_rfl
    · intro proc data w w' executed
      cases executed
      exact .refl
  have restless : Restless eager () 0 none := by
    refine ⟨?_, ?_, ?_⟩
    · intro w w' retval executed
      cases executed
      decide
    · intro other otherId otherData w w' retval executed te mem _
      cases executed
      exact mem
    · intro other otherData w w' executed te mem _
      cases executed
      exact mem
  exact pass_endless lawful printing_sound (ticking_onward _) (by decide) (List.mem_singleton.mpr rfl) restless (by decide) 1000

end TcpLearn.TimeEvents
