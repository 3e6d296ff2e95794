import TcpLearn.TimePasses

/-!
# Timers that leave the list alone

The timers of this repository only print and ask for the same delay again. For procedures
that leave the list alone, whatever they ask for, the pass that starts at the head again
after every call does within one millisecond what a single walk along the list does: it
calls the events that are due in their order, takes those out that ask for no more and
sets the others anew. If one of them never asks for any delay, the pass does not return
within the millisecond (`plain_pass`).
-/
namespace TcpLearn.TimeEvents

variable {Proc σ : Type} {clock : Clock} {procs : Procedures Proc σ}

/-- Each procedure returns and leaves the events alone. It reads the clock `r` times at most. -/
structure Plain (procs : Procedures Proc σ) (r : Nat) : Prop where
  timeProc : ∀ proc id data (w : World Proc σ), ∃ reads rest retval, w.reads ≤ reads ∧ reads ≤ w.reads + r ∧
    procs.timeProc proc id data w = some ({ w with reads := reads, rest := rest }, retval)
  finalizerProc : ∀ proc data (w : World Proc σ), ∃ reads rest, w.reads ≤ reads ∧ reads ≤ w.reads + r ∧
    procs.finalizerProc proc data w = some { w with reads := reads, rest := rest }

/-- What becomes of a due event with the answer of its procedure. -/
def settle (now : Time) (retval : Int) (te : aeTimeEvent Proc) : Option (aeTimeEvent Proc) :=
  if retval = AE_NOMORE then none else some (te.set (add_milliseconds now retval))

/-- One walk along the list, with the answers of the procedures in their order. -/
def walk (now : Time) : List (aeTimeEvent Proc) → List Int → List (aeTimeEvent Proc)
  | [], _ => []
  | te :: next, retvals =>
    if due te now then
      match retvals with
      | [] => te :: walk now next []
      | retval :: retvals => (settle now retval te).toList ++ walk now next retvals
    else te :: walk now next retvals

theorem walk_due {now : Time} {te : aeTimeEvent Proc} (come : due te now) (next : List (aeTimeEvent Proc)) (retval : Int)
    (retvals : List Int) :
    walk now (te :: next) (retval :: retvals) = (settle now retval te).toList ++ walk now next retvals := if_pos come

theorem walk_early {now : Time} {te : aeTimeEvent Proc} (early : ¬ due te now) (next : List (aeTimeEvent Proc))
    (retvals : List Int) : walk now (te :: next) retvals = te :: walk now next retvals := by
  cases retvals <;> exact if_neg early

/-- The procedure of the event always asks for no more or for some delay. -/
def Calm (procs : Procedures Proc σ) (te : aeTimeEvent Proc) : Prop :=
  ∀ {w w' : World Proc σ} {retval}, procs.timeProc te.timeProc te.id te.clientData w = some (w', retval) →
    retval = AE_NOMORE ∨ 1 ≤ retval

/-- The procedure of the event always asks to be called again without a delay. -/
def Eager (procs : Procedures Proc σ) (te : aeTimeEvent Proc) : Prop :=
  ∀ {w w' : World Proc σ} {retval}, procs.timeProc te.timeProc te.id te.clientData w = some (w', retval) →
    retval ≠ AE_NOMORE ∧ retval ≤ 0

theorem plain_lawful {r : Nat} (plain : Plain procs r) : Lawful clock procs := by
  refine ⟨?_, ?_⟩
  · intro proc id data w w' retval executed
    obtain ⟨reads, rest, answer, onward, _, same⟩ := plain.timeProc proc id data w
    rw [same] at executed
    cases executed
    exact .other reads rest .refl onward
  · intro proc data w w' executed
    obtain ⟨reads, rest, onward, _, same⟩ := plain.finalizerProc proc data w
    rw [same] at executed
    cases executed
    exact .other reads rest .refl onward

theorem set_others {list : List (aeTimeEvent Proc)} {id : Int} {time : Time} (others : ∀ other ∈ list, other.id ≠ id) :
    (list.map fun other => if other.id = id then other.set time else other) = list := by
  conv_rhs => rw [← List.map_id list]
  exact List.map_congr_left fun other mem => if_neg (others other mem)

/-- One event in the middle of the list is settled, the others stay as they are. -/
theorem plain_event {r : Nat} (plain : Plain procs r) {w : World Proc σ} {walked rest : List (aeTimeEvent Proc)}
    {te : aeTimeEvent Proc} {now : Time} (sound : Sound w.eventLoop)
    (whole : w.eventLoop.timeEventHead = walked ++ te :: rest)
    (still : ∀ n, w.reads ≤ n → n ≤ w.reads + r → (clock n).time = now) :
    ∃ w' retval, process_event clock procs te w = some (w', retval) ∧
      (∃ mid, procs.timeProc te.timeProc te.id te.clientData w = some (mid, retval)) ∧
      w.reads ≤ w'.reads ∧ w'.reads ≤ w.reads + (2 * r + 1) ∧
      w'.eventLoop.timeEventHead = walked ++ (settle now retval te).toList ++ rest ∧
      w'.eventLoop.timeEventNextId = w.eventLoop.timeEventNextId := by
  have decreasing := sound.decreasing
  rw [whole] at decreasing
  obtain ⟨_, tail, across⟩ := List.pairwise_append.mp decreasing
  have before : ∀ other ∈ walked, other.id ≠ te.id := fun other mem =>
    (across other mem te List.mem_cons_self).ne'
  have after : ∀ other ∈ rest, other.id ≠ te.id := fun other mem => ((List.pairwise_cons.mp tail).1 other mem).ne
  obtain ⟨reads, extra, retval, onward, few, called⟩ := plain.timeProc te.timeProc te.id te.clientData w
  have chosen : (w.eventLoop.timeEventHead.find? fun other => other.id = te.id) = some te := by
    rw [whole]
    exact List.find?_eq_some_iff_append.mpr ⟨by simp, walked, rest, rfl, fun other mem => by simp [before other mem]⟩
  by_cases done : retval = AE_NOMORE
  · have erased : (w.eventLoop.timeEventHead.eraseP fun other => other.id = te.id) = walked ++ rest := by
      rw [whole, List.eraseP_append_right _ (by simpa using before), List.eraseP_cons_of_pos (by simp)]
    have settled : settle now retval te = none := if_pos done
    obtain ⟨w', deleted, later, fewToo, list, ids⟩ : ∃ w' : World Proc σ,
        aeDeleteTimeEvent procs { w with reads := reads, rest := extra } te.id = some (w', true) ∧ reads ≤ w'.reads ∧
          w'.reads ≤ reads + r ∧ w'.eventLoop.timeEventHead = walked ++ rest ∧
          w'.eventLoop.timeEventNextId = w.eventLoop.timeEventNextId := by
      rw [aeDeleteTimeEvent]
      simp only [chosen]
      cases te.finalizerProc with
      | none => exact ⟨_, rfl, le_rfl, Nat.le_add_right _ _, erased, rfl⟩
      | some proc =>
        obtain ⟨reads', extra', onward', few', finalized⟩ :=
          plain.finalizerProc proc te.clientData (unlink { w with reads := reads, rest := extra } te.id)
        exact ⟨_, Option.bind_eq_some_iff.mpr ⟨_, finalized, rfl⟩, onward', few', erased, rfl⟩
    refine ⟨w', retval, ?_, ⟨_, called⟩, onward.trans later, by omega, ?_, ids⟩
    · rw [process_event, called]
      simp only [Option.bind_eq_bind, Option.bind_some]
      rw [if_neg (not_not.mpr done), deleted]
      rfl
    · rw [list, settled]
      simp
  · have settled : settle now retval te = some (te.set (add_milliseconds now retval)) := if_neg done
    have there : ∃ other ∈ w.eventLoop.timeEventHead, other.id = te.id := ⟨te, by rw [whole]; simp, rfl⟩
    have mapped : (w.eventLoop.timeEventHead.map fun other =>
        if other.id = te.id then other.set (add_milliseconds now retval) else other) =
          walked ++ te.set (add_milliseconds now retval) :: rest := by
      rw [whole, List.map_append, List.map_cons, if_pos rfl, set_others before, set_others after]
    obtain ⟨w', set⟩ : ∃ w', set_when (aeAddMillisecondsToNow clock { w with reads := reads, rest := extra } retval).2
        te.id (aeAddMillisecondsToNow clock { w with reads := reads, rest := extra } retval).1 = some w' :=
      ⟨_, if_pos there⟩
    have spec := (set_when_spec set).2
    have time : (aeAddMillisecondsToNow clock { w with reads := reads, rest := extra } retval).1 =
        add_milliseconds now retval := congrArg (fun t => add_milliseconds t retval) (still reads onward few)
    rw [time] at spec
    have read : w'.reads = reads + 1 := by
      rw [spec]
      rfl
    refine ⟨w', retval, ?_, ⟨_, called⟩, by omega, by omega, ?_, ?_⟩
    · rw [process_event, called]
      simp only [Option.bind_eq_bind, Option.bind_some]
      rw [if_pos done, set]
      rfl
    · rw [spec, settled]
      refine Eq.trans mapped ?_
      simp
    · rw [spec]
      rfl

/-- The loop walks over events that are not due. -/
theorem walk_over {maxId : Int} {now : Time} {walked rest : List (aeTimeEvent Proc)} {w : World Proc σ}
    (still : ∀ n, w.reads ≤ n → n < w.reads + walked.length → (clock n).time = now) (old : ∀ te ∈ walked, te.id ≤ maxId)
    (early : ∀ te ∈ walked, ¬ due te now) (fuel : Nat) :
    process_from clock procs maxId (fuel + walked.length) (walked ++ rest) w =
      process_from clock procs maxId fuel rest { w with reads := w.reads + walked.length } := by
  induction walked generalizing w with
  | nil => rfl
  | cons te walked ih =>
    rw [List.length_cons] at still
    have notYet : ¬ due te (clock w.reads).time := by
      rw [still w.reads le_rfl (by omega)]
      exact early te List.mem_cons_self
    rw [List.length_cons, ← Nat.add_assoc, List.cons_append, process_from_waiting (old te List.mem_cons_self) notYet]
    have stillNext : ∀ n, w.reads + 1 ≤ n → n < w.reads + 1 + walked.length → (clock n).time = now :=
      fun n low high => still n (by omega) (by omega)
    refine (ih (w := (aeGetTime clock w).2) stillNext
      (fun other mem => old other (List.mem_cons_of_mem _ mem)) fun other mem => early other (List.mem_cons_of_mem _ mem)).trans ?_
    simp only [aeGetTime]
    rw [Nat.add_right_comm, Nat.add_assoc]

/-- What has been settled is not due again within the millisecond. -/
theorem settled_early {tv : timeval} {te te' : aeTimeEvent Proc} {retval : Int}
    (calm : retval = AE_NOMORE ∨ 1 ≤ retval) (settled : settle tv.time retval te = some te') :
    te'.id = te.id ∧ ¬ due te' tv.time := by
  rw [settle] at settled
  split_ifs at settled with done
  cases settled
  refine ⟨rfl, ?_⟩
  intro again
  have set := due_total (add_ms_lt (time_inside tv).2 retval) again
  rw [set_when_eq, total_add] at set
  have := calm.resolve_left done
  omega

theorem settled_length (now : Time) (retval : Int) (te : aeTimeEvent Proc) :
    (settle now retval te).toList.length ≤ 1 := by
  rw [settle]
  split_ifs <;> simp

/-- The induction is on what is left of the list; a due event pays for the walk back to it. -/
theorem plain_walk {r : Nat} (plain : Plain procs r) {maxId : Int} {tv : timeval} {all last : Nat}
    (rest : List (aeTimeEvent Proc)) : ∀ (walked : List (aeTimeEvent Proc)) (w : World Proc σ), Sound w.eventLoop →
      w.eventLoop.timeEventHead = walked ++ rest → w.eventLoop.timeEventNextId = maxId + 1 →
      (walked ++ rest).length ≤ all →
      w.reads + (rest.length + rest.countP (fun te => due te tv.time) * (all + (2 * r + 1))) ≤ last →
      (∀ n, w.reads ≤ n → n < last → (clock n).time = tv.time) → (∀ te ∈ walked, ¬ due te tv.time) →
      (∀ te ∈ rest, due te tv.time → Calm procs te) →
      ∃ fuel w' calls, process_from clock procs maxId fuel rest w = some (w', calls) ∧ w'.reads ≤ last ∧
        calls.map (fun call => call.event) = rest.filter (fun te => due te tv.time) ∧
        w'.eventLoop.timeEventHead = walked ++ walk tv.time rest (calls.map fun call => call.retval) := by
  induction rest with
  | nil =>
    intro walked w _ whole _ _ budget _ _ _
    exact ⟨1, w, [], rfl, (Nat.le_add_right _ _).trans budget, rfl, whole⟩
  | cons te rest ih =>
    intro walked w sound whole ids short budget still early calm
    have old : te.id ≤ maxId := by
      have := sound.below te (by rw [whole]; simp)
      omega
    have calmRest : ∀ other ∈ rest, due other tv.time → Calm procs other :=
      fun other mem => calm other (List.mem_cons_of_mem _ mem)
    rw [List.length_append, List.length_cons] at short
    rw [List.length_cons] at budget
    have here := still w.reads le_rfl (by omega)
    by_cases come : due te tv.time
    · have now : due te (clock w.reads).time := by rwa [here]
      rw [List.countP_cons_of_pos (by simpa using come), Nat.succ_mul] at budget
      have stillNext : ∀ n, w.reads + 1 ≤ n → n ≤ w.reads + 1 + r → (clock n).time = tv.time :=
        fun n low high => still n (by omega) (by omega)
      obtain ⟨mid, retval, called, ⟨_, answered⟩, later, few, list, sameIds⟩ :=
        plain_event plain (w := (aeGetTime clock w).2) sound whole stillNext
      have start : w.reads + 1 ≤ mid.reads := later
      have soonAfter : mid.reads ≤ w.reads + 1 + (2 * r + 1) := few
      have processed := process_event_spec (plain_lawful plain) (w := (aeGetTime clock w).2) sound
        (by rw [show (aeGetTime clock w).2.eventLoop = w.eventLoop from rfl, whole]; simp) called
      have one := settled_length tv.time retval te
      have length : (walked ++ (settle tv.time retval te).toList).length ≤ walked.length + 1 := by
        rw [List.length_append]
        omega
      have earlyAll : ∀ other ∈ walked ++ (settle tv.time retval te).toList, ¬ due other tv.time := by
        intro other mem
        rcases List.mem_append.mp mem with before | settled
        · exact early other before
        · exact (settled_early (calm te List.mem_cons_self come answered) (Option.mem_toList.mp settled)).2
      have oldAll : ∀ other ∈ walked ++ (settle tv.time retval te).toList, other.id ≤ maxId := by
        intro other mem
        have there : other ∈ mid.eventLoop.timeEventHead := by
          rw [list]
          exact List.mem_append_left _ mem
        have := processed.sound.below other there
        rw [sameIds] at this
        have same : (aeGetTime clock w).2.eventLoop.timeEventNextId = maxId + 1 := ids
        omega
      -- the loop starts again and walks over what is settled
      obtain ⟨fuel, w', calls, executed, spent, events, final⟩ := ih (walked ++ (settle tv.time retval te).toList)
        { mid with reads := mid.reads + (walked ++ (settle tv.time retval te).toList).length } processed.sound list
        (sameIds.trans ids) (by rw [List.length_append]; omega) (by dsimp only; omega)
        (fun n low => still n (by dsimp only at low; omega)) earlyAll calmRest
      have walked_over := @walk_over _ _ clock procs maxId tv.time (walked ++ (settle tv.time retval te).toList) rest mid
        (fun n low high => still n (by omega) (by omega)) oldAll earlyAll fuel
      refine ⟨fuel + (walked ++ (settle tv.time retval te).toList).length + 1, w',
        ⟨te, (clock w.reads).time, retval⟩ :: calls, ?_, spent, ?_, ?_⟩
      · rw [process_from_due old now, called, Option.bind_some, list, walked_over, executed, Option.map_some]
      · rw [List.map_cons, events, List.filter_cons_of_pos (by simpa using come)]
      · rw [final, List.map_cons, walk_due come, List.append_assoc]
    · have notYet : ¬ due te (clock w.reads).time := by rwa [here]
      rw [List.countP_cons_of_neg (by simpa using come)] at budget
      have earlyAll : ∀ other ∈ walked ++ [te], ¬ due other tv.time := by
        intro other mem
        rcases List.mem_append.mp mem with before | itself
        · exact early other before
        · rw [List.mem_singleton.mp itself]
          exact come
      have left : w.reads + 1 + (rest.length + rest.countP (fun te => due te tv.time) * (all + (2 * r + 1))) ≤ last := by
        omega
      obtain ⟨fuel, w', calls, executed, spent, events, final⟩ := ih (walked ++ [te]) (aeGetTime clock w).2 sound
        (by rw [List.append_assoc]; exact whole) ids (by simp only [List.length_append, List.length_singleton]; omega) left
        (fun n low => still n ((Nat.le_succ _).trans low)) earlyAll calmRest
      refine ⟨fuel + 1, w', calls, by rw [process_from_waiting old notYet, executed], spent, ?_, ?_⟩
      · rw [events, List.filter_cons_of_neg (by simpa using come)]
      · rw [final, walk_early come, List.append_assoc, List.singleton_append]

/-- The events after the check for a clock that was set back. -/
def checked (clock : Clock) (w : World Proc σ) : List (aeTimeEvent Proc) :=
  (skew_checked clock w).eventLoop.timeEventHead

theorem checked_length (clock : Clock) (w : World Proc σ) :
    (checked clock w).length = w.eventLoop.timeEventHead.length := by
  rw [checked, skew_checked, skew_events, List.length_map]

theorem plain_restless {r : Nat} (plain : Plain procs r) {te : aeTimeEvent Proc} (eager : Eager procs te) :
    Restless procs te.timeProc te.id te.clientData := by
  refine ⟨eager, ?_, ?_⟩
  · intro other otherId otherData w w' retval executed te mem _
    obtain ⟨reads, rest, answer, _, _, same⟩ := plain.timeProc other otherId otherData w
    rw [same] at executed
    cases executed
    exact mem
  · intro other otherData w w' executed te mem _
    obtain ⟨reads, rest, _, _, same⟩ := plain.finalizerProc other otherData w
    rw [same] at executed
    cases executed
    exact mem

/-- Within one millisecond the pass with its restarts does what one walk along the list
    does, if every due event asks for no more or for some delay; if one of them never asks
    for any, it does not return before a reading shows another time. -/
theorem plain_pass {r : Nat} (plain : Plain procs r) {w : World Proc σ} (sound : Sound w.eventLoop) (tv : timeval) :
    ((∀ n, w.reads < n → n ≤ w.reads + pass_reads w.eventLoop.timeEventHead.length r → (clock n).time = tv.time) →
        (∀ te ∈ checked clock w, due te tv.time → Calm procs te) →
        ∃ fuel w' calls, processTimeEvents clock procs fuel w = some (w', calls) ∧
          w'.reads ≤ w.reads + 1 + pass_reads w.eventLoop.timeEventHead.length r ∧
          calls.map (fun call => call.event) = (checked clock w).filter (fun te => due te tv.time) ∧
          w'.eventLoop.timeEventHead = walk tv.time (checked clock w) (calls.map fun call => call.retval)) ∧
      (∀ last, (∀ n, w.reads < n → n ≤ last → (clock n).time = tv.time) →
        ∀ te ∈ checked clock w, due te tv.time → Eager procs te →
          ∀ fuel w' calls, processTimeEvents clock procs fuel w = some (w', calls) → last < w'.reads) := by
  have start := skew_sound (clock w.reads).tv_sec sound
  refine ⟨?_, ?_⟩
  · intro still calm
    have stillNext : ∀ n, w.reads + 1 ≤ n → n < w.reads + 1 + pass_reads w.eventLoop.timeEventHead.length r →
        (clock n).time = tv.time := fun n low high => still n low (by omega)
    have count := @List.countP_le_length _ (fun te : aeTimeEvent Proc => decide (due te tv.time)) (checked clock w)
    rw [checked_length] at count
    have budget : w.reads + 1 + ((checked clock w).length + (checked clock w).countP (fun te => due te tv.time) *
        (w.eventLoop.timeEventHead.length + (2 * r + 1))) ≤
          w.reads + 1 + pass_reads w.eventLoop.timeEventHead.length r := by
      rw [checked_length]
      exact Nat.add_le_add_left (Nat.add_le_add_left (Nat.mul_le_mul_right _ count) _) _
    exact plain_walk plain _ [] (skew_checked clock w) start rfl (Int.sub_add_cancel _ 1).symm (checked_length clock w).le
      budget stillNext (by simp) calm
  · intro last longer te mem come eager fuel w' calls executed
    have old : te.id ≤ (skew_checked clock w).eventLoop.timeEventNextId - 1 := by
      have := start.below te mem
      have same : (skew_checked clock w).eventLoop.timeEventNextId =
          (detect_skew (clock w.reads).tv_sec w.eventLoop).timeEventNextId := rfl
      omega
    have stillNext : ∀ n, w.reads + 1 ≤ n → n < last + 1 → (clock n).time = tv.time :=
      fun n low high => longer n low (by omega)
    have onward : ∀ i j, w.reads + 1 ≤ i → i ≤ j → j < last + 1 → (clock i).time.total ≤ (clock j).time.total := by
      intro i j low le high
      rw [stillNext i low (by omega), stillNext j (by omega) high]
    exact process_from_lasts (w := skew_checked clock w) (plain_lawful plain) (plain_restless plain eager) old fuel start
      (List.suffix_refl _) (by omega) mem ⟨rfl, rfl, rfl⟩ onward
      (fun n low high => by rwa [stillNext n low high]) executed

/-- A clock that stops for ten readings, then shows another second at every one. -/
def stopping (n : Nat) : timeval := { ticking n with tv_sec := if n ≤ 10 then 110 else 100 + n }

theorem plain_pass_printing : ∃ fuel w' calls, processTimeEvents stopping PrintTimer fuel printing = some (w', calls) ∧
    calls.map (fun call => call.event.when_sec) = [110] := by
  have plain : Plain PrintTimer 0 :=
    ⟨fun _ _ _ w => ⟨w.reads, w.rest + 1, 10000, le_rfl, le_rfl, rfl⟩, fun _ _ w => ⟨w.reads, w.rest, le_rfl, le_rfl, rfl⟩⟩
  have still : ∀ n, printing.reads < n → n ≤ printing.reads + pass_reads printing.eventLoop.timeEventHead.length 0 →
      (stopping n).time = (stopping 0).time := by
    intro n _ high
    have few : n ≤ 10 := high.trans (by decide)
    simp only [stopping, if_pos few, timeval.time]
    rfl
  have calm : ∀ te ∈ checked stopping printing, due te (stopping 0).time → Calm PrintTimer te := by
    intro te _ _ w w' retval executed
    cases executed
    exact .inr (by decide)
  obtain ⟨fuel, w', calls, executed, _, events, _⟩ := (plain_pass plain printing_sound (stopping 0)).1 still calm
  refine ⟨fuel, w', calls, executed, ?_⟩
  have secs := congrArg (List.map fun te => te.when_sec) events
  rw [List.map_map] at secs
  exact secs

end TcpLearn.TimeEvents
