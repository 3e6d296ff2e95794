import TcpLearn.TraceClient

/-!
# The trace client with another clock

Two runs of the trace client whose clocks are a constant apart, and nothing else. While
both decide by the times elapsed they decide and write the same; at the first poll
where one of them does not, their decisions differ. So a run that decides by elapsed
times is repeated with the other clock exactly when that one does not wrap around
where it must not, either (`timely_iff`).
-/
namespace TcpLearn.OtherClocks
open TcpLearn.TraceClient TcpLearn.Runs

/-- The same operation at a time when the clock shows `δ` more. -/
inductive Later (δ : Int) : ProgramOp → ProgramOp → Prop where
  | poll {ts ts' : timespec} (info : Option tcp_info) (shown : base_clock64 ts' = base_clock64 ts + δ) :
    Later δ (.poll ts info) (.poll ts' info)
  | send {ts ts' : timespec} (shown : base_clock64 ts' = base_clock64 ts + δ) : Later δ (.send ts) (.send ts')
  | signal : Later δ .signal .signal

/-- Two runs that have decided and written the same, with the clock `δ` apart. -/
structure Shifted (δ : Int) (s t : State) : Prop where
  running_ : t.client.running_ = s.client.running_
  interval_ : t.client.interval_ = s.client.interval_
  f_out_ : t.client.f_out_ = s.client.f_out_
  m_running : t.m_running = s.m_running
  sending : t.sending = s.sending
  polled : t.polled = s.polled
  decisions : t.decisions = s.decisions
  computed : t.computed = s.computed + δ
  began : t.began = s.began + δ
  sampled : t.sampled = s.sampled.map fun last => last + δ

variable {δ : Int} {s s' t t' : State} {ts : timespec} {info : Option tcp_info} {ops ops' : List ProgramOp}
  {op op' : ProgramOp}

theorem shifted_kept (shifted : Shifted δ s t) (kept : Kept s s') (kept' : Kept t t')
    (running_ : t'.client.running_ = s'.client.running_) (m_running : t'.m_running = s'.m_running)
    (sending : t'.sending = s'.sending) (decisions : t'.decisions = s'.decisions) : Shifted δ s' t' := by
  refine ⟨running_, ?_, ?_, m_running, sending, ?_, decisions, ?_, ?_, ?_⟩
  · rw [kept.interval_, kept'.interval_, shifted.interval_]
  · rw [kept.f_out_, kept'.f_out_, shifted.f_out_]
  · rw [kept.polled, kept'.polled, shifted.polled]
  · rw [kept.computed, kept'.computed, shifted.computed]
  · rw [kept.began, kept'.began, shifted.began]
  · rw [kept.sampled, kept'.sampled, shifted.sampled]

theorem due_shifted (shifted : Shifted δ s t) (x : Int) : Due t (x + δ) ↔ Due s x := by
  rw [Due, Due, shifted.polled, shifted.sampled, shifted.interval_]
  refine or_congr_right ?_
  cases s.sampled with
  | none => simp
  | some last =>
    have elapsed : x + δ - (last + δ) = x - last := by omega
    simp [elapsed]

theorem poll_shifted {ts' : timespec} (shifted : Shifted δ s t) (shown : base_clock64 ts' = base_clock64 ts + δ)
    (inv : Inv s) (inv' : Inv t) (within : Within s (.poll ts info)) (within' : Within t (.poll ts' info))
    {sample : Bool} (polled : Polled s ts info s' sample) (polled' : Polled t ts' info t' sample) : Shifted δ s' t' := by
  refine ⟨?_, ?_, ?_, ?_, ?_, ?_, ?_, ?_, ?_, ?_⟩
  · rw [polled.client.running_, polled'.client.running_, shifted.running_]
  · rw [polled.client.interval_, polled'.client.interval_, shifted.interval_]
  · have elapsed : base_clock64 ts + δ - (s.began + δ) = base_clock64 ts - s.began := by omega
    rw [poll_written inv within polled, poll_written inv' within' polled', shifted.f_out_, lines_of, lines_of, shown,
      shifted.began, elapsed]
  · rw [polled.m_running, polled'.m_running, shifted.m_running]
  · rw [polled.sending, polled'.sending, shifted.sending]
  · rw [polled.polled, polled'.polled]
  · rw [polled.decisions, polled'.decisions, shifted.decisions]
  · rw [polled.computed, polled'.computed, shifted.computed]
  · rw [polled.began, polled'.began, shifted.began]
  · rw [polled.sampled, polled'.sampled, shifted.sampled, shown]
    cases sample <;> rfl

/-! ## One operation in both runs -/

/-- What the second run decides at a poll is right exactly when it is what the first one
    has decided. -/
theorem poll_agrees {ts' : timespec} {sample sample' : Bool} (shifted : Shifted δ s t)
    (shown : base_clock64 ts' = base_clock64 ts + δ) (inv : Inv s) (inv' : Inv t) (within : Within s (.poll ts info))
    (within' : Within t (.poll ts' info)) (running : s.client.running_ = true) (timely : Timely s (.poll ts info))
    (polled : Polled s ts info s' sample) (polled' : Polled t ts' info t' sample') :
    Timely t (.poll ts' info) ↔ sample' = sample := by
  have running' : t.client.running_ = true := shifted.running_.trans running
  have due := polled.client.decided.trans ((timely_poll inv within).mp timely running)
  rw [timely_poll inv' within', shown, due_shifted shifted, ← due, ← polled'.client.decided, ← Bool.eq_iff_iff]
  exact ⟨fun right => right running', fun same _ => same⟩

theorem send_agrees {ts' : timespec} {ended ended' : Bool} (shifted : Shifted δ s t)
    (shown : base_clock64 ts' = base_clock64 ts + δ) (sending : s.sending = true) (m_running : s.m_running = true)
    (timely : Timely s (.send ts)) (past : ended = true ↔ s.stop < now_of ts) (past' : ended' = true ↔ t.stop < now_of ts') :
    Timely t (.send ts') ↔ ended' = ended := by
  have sending' : t.sending = true := shifted.sending.trans sending
  have m_running' : t.m_running = true := shifted.m_running.trans m_running
  have ended_late := past.trans (timely_send.mp timely sending m_running)
  have elapsed : base_clock64 ts + δ - (s.computed + δ) = base_clock64 ts - s.computed := by omega
  rw [timely_send, shown, shifted.computed, elapsed, ← ended_late, ← past', ← Bool.eq_iff_iff]
  exact ⟨fun right => right sending' m_running', fun same _ _ => same⟩

theorem send_shifted {ts' : timespec} (shifted : Shifted δ s t) (shown : base_clock64 ts' = base_clock64 ts + δ)
    (sending : s.sending = true) (m_running : s.m_running = true) (timely : Timely s (.send ts))
    (timely' : Timely t (.send ts')) : Shifted δ (send s ts) (send t ts') := by
  obtain ⟨kept, ended, past, decisions, after, interrupted, running⟩ := send_spec s ts
  obtain ⟨kept', ended', past', decisions', after', interrupted', running'⟩ := send_spec t ts'
  have same : ended' = ended := (send_agrees shifted shown sending m_running timely past past').mp timely'
  apply shifted_kept shifted kept kept'
  · rw [running, running', same, shifted.running_]
  · rw [interrupted, interrupted', shifted.m_running]
  · rw [after, after', same, shifted.sending]
  · rw [decisions, decisions', same, shifted.decisions]

/-- Right decisions are the same. -/
theorem step_shifted (shifted : Shifted δ s t) (inv : Inv s) (inv' : Inv t) (within : Within s op)
    (within' : Within t op') (later : Later δ op op') (timely : Timely s op) (timely' : Timely t op')
    (stepped : step s op = some s') (stepped' : step t op' = some t') : Shifted δ s' t' := by
  cases later with
  | @poll ts ts' info shown =>
    by_cases running : s.client.running_ = true
    · have running' : t.client.running_ = true := shifted.running_.trans running
      cases (step_poll running).symm.trans stepped
      cases (step_poll running').symm.trans stepped'
      obtain ⟨sample, polled⟩ := poll_spec s ts info
      obtain ⟨sample', polled'⟩ := poll_spec t ts' info
      have same : sample' = sample :=
        (poll_agrees shifted shown inv inv' within within' running timely polled polled').mp timely'
      subst same
      exact poll_shifted shifted shown inv inv' within within' polled polled'
    · have stopped : ¬ t.client.running_ = true := by rwa [shifted.running_]
      rw [step, if_neg running] at stepped
      rw [step, if_neg stopped] at stepped'
      cases stepped
      cases stepped'
      exact shifted
  | @send ts ts' shown =>
    by_cases sending : s.sending = true
    · have sending' : t.sending = true := shifted.sending.trans sending
      by_cases m_running : s.m_running = true
      · have m_running' : t.m_running = true := shifted.m_running.trans m_running
        cases (step_send sending m_running).symm.trans stepped
        cases (step_send sending' m_running').symm.trans stepped'
        exact send_shifted shifted shown sending m_running timely timely'
      · have stopped : ¬ t.m_running = true := by rwa [shifted.m_running]
        rw [step, if_pos sending, if_neg m_running] at stepped
        rw [step, if_pos sending', if_neg stopped] at stepped'
        cases stepped
        cases stepped'
        exact shifted_kept shifted (kept_leave s) (kept_leave t) rfl shifted.m_running rfl shifted.decisions
    · have stopped : ¬ t.sending = true := by rwa [shifted.sending]
      rw [step, if_neg sending] at stepped
      rw [step, if_neg stopped] at stepped'
      cases stepped
      cases stepped'
      exact shifted
  | signal =>
    cases stepped
    cases stepped'
    exact ⟨shifted.running_, shifted.interval_, shifted.f_out_, rfl, shifted.sending, shifted.polled, shifted.decisions,
      shifted.computed, shifted.began, shifted.sampled⟩

/-- A wrong decision is the opposite one. -/
theorem step_forked (shifted : Shifted δ s t) (inv : Inv s) (inv' : Inv t) (within : Within s op)
    (within' : Within t op') (later : Later δ op op') (timely : Timely s op) (wrong : ¬ Timely t op')
    (stepped : step s op = some s') (stepped' : step t op' = some t') :
    ∃ d, s'.decisions = s.decisions ++ [d] ∧ t'.decisions = s.decisions ++ [!d] := by
  cases later with
  | @poll ts ts' info shown =>
    have running' : t.client.running_ = true := by
      by_contra stopped
      exact wrong fun running => absurd running stopped
    have running : s.client.running_ = true := shifted.running_.symm.trans running'
    cases (step_poll running).symm.trans stepped
    cases (step_poll running').symm.trans stepped'
    obtain ⟨sample, polled⟩ := poll_spec s ts info
    obtain ⟨sample', polled'⟩ := poll_spec t ts' info
    rw [poll_agrees shifted shown inv inv' within within' running timely polled polled'] at wrong
    refine ⟨sample, polled.decisions, ?_⟩
    rw [polled'.decisions, shifted.decisions, Bool.eq_not_of_ne wrong]
  | @send ts ts' shown =>
    have both : t.sending = true ∧ t.m_running = true := by
      by_contra stopped
      exact wrong fun sending m_running => absurd ⟨sending, m_running⟩ stopped
    obtain ⟨sending', m_running'⟩ := both
    have sending : s.sending = true := shifted.sending.symm.trans sending'
    have m_running : s.m_running = true := shifted.m_running.symm.trans m_running'
    cases (step_send sending m_running).symm.trans stepped
    cases (step_send sending' m_running').symm.trans stepped'
    obtain ⟨_, ended, past, decisions, _⟩ := send_spec s ts
    obtain ⟨_, ended', past', decisions', _⟩ := send_spec t ts'
    rw [send_agrees shifted shown sending m_running timely past past'] at wrong
    refine ⟨ended, decisions, ?_⟩
    rw [decisions', shifted.decisions, Bool.eq_not_of_ne wrong]
  | signal => exact absurd trivial wrong

/-! ## Both runs to their end -/

/-- Decisions are not taken back. -/
theorem step_decisions (stepped : step s op = some s') : ∃ more, s'.decisions = s.decisions ++ more := by
  cases op with
  | poll ts info =>
    cases stepped
    split_ifs
    · obtain ⟨sample, polled⟩ := poll_spec s ts info
      exact ⟨_, polled.decisions⟩
    · exact ⟨[], (List.append_nil _).symm⟩
  | send ts =>
    cases stepped
    split_ifs
    · obtain ⟨_, ended, _, decisions, _⟩ := send_spec s ts
      exact ⟨_, decisions⟩
    · exact ⟨[], (List.append_nil _).symm⟩
    · exact ⟨[], (List.append_nil _).symm⟩
  | signal =>
    cases stepped
    exact ⟨[], (List.append_nil _).symm⟩

theorem run_decisions (s : State) (ops : List ProgramOp) :
    ∃ s' more, run step s ops = some s' ∧ s'.decisions = s.decisions ++ more := by
  induction ops generalizing s with
  | nil => exact ⟨s, [], rfl, (List.append_nil _).symm⟩
  | cons op ops ih =>
    obtain ⟨mid, stepped⟩ := step_total s op
    obtain ⟨first, here⟩ := step_decisions stepped
    obtain ⟨s', more, rest, later⟩ := ih mid
    refine ⟨s', first ++ more, ?_, ?_⟩
    · rw [run_cons, stepped, Option.bind_some, rest]
    · rw [later, here, List.append_assoc]

/-- What the decisions of a run were, and the lines it has written. -/
def outcome (s : State) : List Bool × Option (List Line) := (s.decisions, s.client.f_out_)

/-- Of two runs with the clock `δ` apart, one that decides by elapsed times has the
    outcome of the other exactly when that one does, too. -/
theorem outcome_iff (later : List.Forall₂ (Later δ) ops ops') (shifted : Shifted δ s t) (inv : Inv s) (inv' : Inv t)
    (within : Each step Within s ops) (within' : Each step Within t ops') (timely : Each step Timely s ops) :
    (run step t ops').map outcome = (run step s ops).map outcome ↔ Each step Timely t ops' := by
  induction later generalizing s t with
  | nil =>
    refine iff_of_true ?_ trivial
    simp only [run_nil, Option.map_some, outcome, shifted.decisions, shifted.f_out_]
  | @cons op op' ops ops' here rest ih =>
    obtain ⟨s₁, stepped⟩ := step_total s op
    obtain ⟨t₁, stepped'⟩ := step_total t op'
    rw [run_cons, run_cons, stepped, stepped', Option.bind_some, Option.bind_some]
    by_cases right : Timely t op'
    · have shifted₁ := step_shifted shifted inv inv' within.1 within'.1 here timely.1 right stepped stepped'
      have inv₁ := step_inv s op s₁ inv within.1 timely.1 stepped
      have inv₁' := step_inv t op' t₁ inv' within'.1 right stepped'
      rw [ih shifted₁ inv₁ inv₁' (within.2 s₁ stepped) (within'.2 t₁ stepped') (timely.2 s₁ stepped)]
      constructor
      · intro after
        exact each_cons right stepped' after
      · intro each
        exact each.2 t₁ stepped'
    · refine iff_of_false ?_ fun each => right each.1
      -- The decisions differ here, whatever is decided afterwards.
      obtain ⟨d, decided, decided'⟩ := step_forked shifted inv inv' within.1 within'.1 here timely.1 right stepped stepped'
      obtain ⟨s', more, run, final⟩ := run_decisions s₁ ops
      obtain ⟨t', more', run', final'⟩ := run_decisions t₁ ops'
      intro same
      rw [run, run', Option.map_some, Option.map_some, Option.some_inj, outcome, outcome, Prod.mk.injEq, final, final',
        decided, decided', List.append_assoc, List.append_assoc, List.append_cancel_left_eq] at same
      simp at same

theorem start_shifted (opened : Bool) {ts ts' later later' : timespec} (shown : base_clock64 later = base_clock64 ts + δ)
    (shown' : base_clock64 later' = base_clock64 ts' + δ) : Shifted δ (start opened ts ts') (start opened later later') := by
  constructor <;> simp only [start, StartThread, SetLogName, new, shown, shown', Option.map_none]

theorem polls_later (later : List.Forall₂ (Later δ) ops ops') :
    polls ops' = (polls ops).map (fun t => t + δ) ∧ sends ops' = (sends ops).map fun t => t + δ := by
  induction later with
  | nil => exact ⟨rfl, rfl⟩
  | cons here rest ih =>
    obtain ⟨polled, sent⟩ := ih
    cases here with
    | poll info shown => exact ⟨congrArg₂ List.cons shown polled, sent⟩
    | send shown => exact ⟨polled, congrArg₂ List.cons shown sent⟩
    | signal => exact ⟨polled, sent⟩

theorem issued_later {ts ts' later later' : timespec} (issued : Issued ts ts' ops)
    (shown : base_clock64 later = base_clock64 ts + δ) (shown' : base_clock64 later' = base_clock64 ts' + δ)
    (each : List.Forall₂ (Later δ) ops ops') : Issued later later' ops' := by
  obtain ⟨polled, sent⟩ := polls_later each
  have kept : ∀ l : List Int, l.Pairwise (· ≤ ·) → (l.map fun t => t + δ).Pairwise (· ≤ ·) := by
    intro l sorted
    rw [List.pairwise_map]
    exact sorted.imp fun before => by omega
  refine ⟨?_, ?_, ?_⟩
  · rw [shown, shown', polled]
    exact kept _ issued.polls
  · rw [shown, shown', sent]
    exact kept _ issued.sends
  · intro t member
    rw [polled, sent, ← List.map_append] at member
    obtain ⟨earlier, before, rfl⟩ := List.mem_map.mp member
    have short := issued.short earlier before
    omega

/-- For every clock and all times of polls, the decisions are those of the elapsed
    times exactly when no poll is compared across the clock wrapping around. And a
    run that meets this decides the same with another clock exactly when it meets
    this with that clock. -/
theorem timely_iff (opened : Bool) (ts ts' : timespec) (ops : List ProgramOp) (issued : Issued ts ts' ops) :
    (Each step Timely (start opened ts ts') ops ↔ Each step Unwrapped (start opened ts ts') ops) ∧
      ∀ δ later later' ops', base_clock64 later = base_clock64 ts + δ → base_clock64 later' = base_clock64 ts' + δ →
        List.Forall₂ (Later δ) ops ops' → Each step Timely (start opened ts ts') ops →
        ((run step (start opened later later') ops').map outcome = (run step (start opened ts ts') ops).map outcome ↔
          Each step Unwrapped (start opened later later') ops') := by
  have right : ∀ {ts ts' ops}, Issued ts ts' ops → Inv (start opened ts ts') ∧
      (Each step Timely (start opened ts ts') ops ↔ Each step Unwrapped (start opened ts ts') ops) := by
    intro ts ts' ops issued
    have inv := start_inv opened ((List.pairwise_cons.mp issued.polls).1 _ List.mem_cons_self)
    exact ⟨inv, each_iff_while step_inv op_iff inv (start_within opened issued)⟩
  refine ⟨(right issued).2, ?_⟩
  intro δ later later' ops' shown shown' each timely
  have issued' := issued_later issued shown shown' each
  rw [← (right issued').2]
  exact outcome_iff each (start_shifted opened shown shown') (right issued).1 (right issued').1 (start_within opened issued)
    (start_within opened issued') timely

/-- A poll of each thread a second after the first poll, from second `t` on. -/
def three_polls (t : Int) : List ProgramOp := [.poll ⟨t, 0⟩ (some ⟨20, 10⟩), .send ⟨t + 1, 0⟩, .poll ⟨t + 1, 0⟩ none]

/-- The polls begin 1 s or 25 days after the host was started. -/
theorem timely_three_polls :
    (Each step Timely (start true ⟨1, 0⟩ ⟨1, 0⟩) (three_polls 1) ↔
      Each step Unwrapped (start true ⟨1, 0⟩ ⟨1, 0⟩) (three_polls 1)) ∧
    (Each step Timely (start true ⟨1, 0⟩ ⟨1, 0⟩) (three_polls 1) →
      ((run step (start true ⟨2160000, 0⟩ ⟨2160000, 0⟩) (three_polls 2160000)).map outcome =
          (run step (start true ⟨1, 0⟩ ⟨1, 0⟩) (three_polls 1)).map outcome ↔
        Each step Unwrapped (start true ⟨2160000, 0⟩ ⟨2160000, 0⟩) (three_polls 2160000))) := by
  have all := timely_iff true ⟨1, 0⟩ ⟨1, 0⟩ (three_polls 1) ⟨by decide, by decide, by decide⟩
  refine ⟨all.1, ?_⟩
  intro timely
  refine all.2 2159999000 ⟨2160000, 0⟩ ⟨2160000, 0⟩ (three_polls 2160000) (by decide) (by decide) ?_ timely
  exact .cons (.poll _ (by decide)) (.cons (.send (by decide)) (.cons (.poll _ (by decide)) .nil))

def one_poll (ts : timespec) : List ProgramOp := [.poll ts (some ⟨20, 10⟩)]

/-- The clock shows 2^31 ms at the first poll, a negative number, and no sample is
    taken. One second after the host was started, one is. -/
theorem first_sample_missed :
    (run step (start true ⟨2147483, 648000000⟩ ⟨2147483, 648000000⟩) (one_poll ⟨2147483, 648000000⟩)).map outcome =
        some ([false], some []) ∧
      (run step (start true ⟨1, 0⟩ ⟨1, 0⟩) (one_poll ⟨1, 0⟩)).map outcome = some ([true], some [⟨0, 20, 10⟩]) ∧
      ¬ Each step Timely (start true ⟨2147483, 648000000⟩ ⟨2147483, 648000000⟩) (one_poll ⟨2147483, 648000000⟩) := by
  have decided : (run step (start true ⟨2147483, 648000000⟩ ⟨2147483, 648000000⟩)
      (one_poll ⟨2147483, 648000000⟩)).map outcome = some ([false], some []) := by decide +kernel
  refine ⟨decided, by decide +kernel, ?_⟩
  rintro ⟨timely, _⟩
  obtain ⟨s', sample, stepped, decisions, due, _⟩ := timely rfl
  have some : sample = true := due.mpr (.inl rfl)
  rw [one_poll, run_cons, stepped, Option.bind_some, run_nil, Option.map_some, outcome, decisions, some] at decided
  simp [start] at decided

end TcpLearn.OtherClocks
