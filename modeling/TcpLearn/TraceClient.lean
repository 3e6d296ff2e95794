import Mathlib
import TcpLearn.Periods
import TcpLearn.Runs

/-!
# The clock of the trace client

`tcp_bbr_client.cc` reads a clock of 64 bits, keeps 32 of them and stores these in an
`int`. `Run` compares a reading with that of the last sample plus `interval_`, the
loop of `main` with `stop`, both as signed integers; only `abs_time` is a difference.
So the decisions are those of the times elapsed exactly when the signed clock has
wrapped around as often at the poll as at the time it is compared with, and shows a
positive number at the first poll, which is compared with 0 (`op_iff`).
-/
namespace TcpLearn.TraceClient
open TcpLearn.Periods TcpLearn.Runs

/-! ## The clock -/

structure timespec where
  tv_sec : Int
  tv_nsec : Nat

/-- Seconds and microseconds. -/
def itimeofday (ts : timespec) : Int × Nat := (ts.tv_sec, ts.tv_nsec / 1000)

def base_clock64 (ts : timespec) : Int :=
  let (s, u) := itimeofday ts
  s * 1000 + (u / 1000 : Nat)

/-- The lower 32 bits. -/
def base_clock32 (ts : timespec) : Nat := (base_clock64 ts % 2 ^ 32).toNat

/-- `glock` is what the global clock says, if one is set. -/
def GetMilliSeconds (glock : Option Nat) (ts : timespec) : Nat := glock.getD (base_clock32 ts)

/-- What an `int` keeps of an integer. Sums that leave its range wrap around. -/
@[irreducible] def int (x : Int) : Int := Int.bmod x (2 ^ 32)

/-- The program sets no global clock. -/
def now_of (ts : timespec) : Int := int (GetMilliSeconds none ts)

/-! ## The client -/

structure tcp_info where
  tcpi_rtt : Nat
  tcpi_snd_cwnd : Nat

/-- The unsigned numbers of a line of the trace. -/
structure Line where
  abs_time : Nat
  tcpi_rtt : Nat
  tcpi_snd_cwnd : Nat
deriving DecidableEq

structure TcpClient where
  running_ : Bool
  last_record_ : Int
  start_time_ : Int
  interval_ : Int
  /-- The lines of the file, if it is open. -/
  f_out_ : Option (List Line)

def new : TcpClient := ⟨true, 0, 0, 100, none⟩

def SetLogName (c : TcpClient) (opened : Bool) : TcpClient := { c with f_out_ := if opened then some [] else none }

/-- The clock is read at `ts`. -/
def StartThread (c : TcpClient) (ts : timespec) : TcpClient := { c with running_ := true, start_time_ := now_of ts }

def StopThread (c : TcpClient) : TcpClient := { c with running_ := false }

/-- `info` is what `getsockopt` yields, if it does not fail. -/
def GetTcpInfo (c : TcpClient) (now : Int) (info : Option tcp_info) : TcpClient :=
  match c.f_out_, info with
  | some lines, some info =>
    let abs_time := int (now - c.start_time_)
    { c with f_out_ := some (lines ++ [⟨(abs_time % 2 ^ 32).toNat, info.tcpi_rtt, info.tcpi_snd_cwnd⟩]) }
  | _, _ => c

/-- A pass of the loop of `Run`, and whether it takes a sample. -/
def Run (c : TcpClient) (now : Int) (info : Option tcp_info) : TcpClient × Bool :=
  if now > c.last_record_ then
    let c := GetTcpInfo c now info
    ({ c with last_record_ := int (now + c.interval_) }, true)
  else (c, false)

/-! ## The program -/

/-- Seconds. -/
def run_duration : Int := 300

structure State where
  client : TcpClient
  m_running : Bool
  stop : Int
  /-- `main` is in its loop. -/
  sending : Bool
  /-- The 64-bit clock when `stop` was computed, at `StartThread` and at the last sample. -/
  computed : Int
  began : Int
  sampled : Option Int
  /-- `Run` has polled the clock. -/
  polled : Bool
  /-- For every poll, whether it took a sample (in `Run`) or ended the loop (in `main`). -/
  decisions : List Bool

/-- A pass of the loop of `Run`. -/
def poll (s : State) (ts : timespec) (info : Option tcp_info) : State :=
  let passed := Run s.client (now_of ts) info
  { s with
    client := passed.1
    sampled := if passed.2 then some (base_clock64 ts) else s.sampled
    polled := true
    decisions := s.decisions ++ [passed.2] }

/-- `main` is behind its loop. -/
def leave (s : State) : State := { s with sending := false, client := StopThread s.client }

/-- A pass of the loop of `main`. -/
def send (s : State) (ts : timespec) : State :=
  let now := now_of ts
  if now > s.stop then leave { s with decisions := s.decisions ++ [true] }
  else { s with decisions := s.decisions ++ [false] }

inductive ProgramOp where
  /-- The thread of the client goes on and reads the clock at `ts`. -/
  | poll (ts : timespec) (info : Option tcp_info)
  /-- `main` goes on and reads the clock at `ts`. -/
  | send (ts : timespec)
  /-- `signal_exit_handler` is called. -/
  | signal

/-- A thread that has left its loop does nothing any longer. -/
def step (s : State) : ProgramOp → Option State
  | .poll ts info => some (if s.client.running_ then poll s ts info else s)
  | .send ts => some (if s.sending then if s.m_running then send s ts else leave s else s)
  | .signal => some { s with m_running := false }

/-- `main` up to its loop: the clock is read at `ts` for `stop` and at `ts'` in `StartThread`. -/
def start (opened : Bool) (ts ts' : timespec) : State :=
  let now := now_of ts
  let stop := int (now + run_duration * 1000)
  { client := StartThread (SetLogName new opened) ts'
    m_running := true, stop := stop, sending := true, computed := base_clock64 ts, began := base_clock64 ts'
    sampled := none, polled := false, decisions := [] }

/-- What a thread polls. -/
def polls (ops : List ProgramOp) : List Int :=
  ops.filterMap fun | .poll ts _ => some (base_clock64 ts) | _ => none

def sends (ops : List ProgramOp) : List Int :=
  ops.filterMap fun | .send ts => some (base_clock64 ts) | _ => none

/-- Neither thread sees the clock go back, and all happens in less than 2^31 ms. -/
structure Issued (ts ts' : timespec) (ops : List ProgramOp) : Prop where
  polls : (base_clock64 ts :: base_clock64 ts' :: polls ops).Pairwise (· ≤ ·)
  sends : (base_clock64 ts :: base_clock64 ts' :: sends ops).Pairwise (· ≤ ·)
  short : ∀ t ∈ TraceClient.polls ops ++ TraceClient.sends ops, t < base_clock64 ts + 2 ^ 31

/-! ## Elapsed times -/

/-- It is the first poll, or more than `interval_` has elapsed since the last sample. -/
def Due (s : State) (t : Int) : Prop :=
  s.polled = false ∨ ∃ last, s.sampled = some last ∧ s.client.interval_ < t - last

/-- The lines of a sample, with the time elapsed since `StartThread`. -/
def lines_of (s : State) (t : Int) (info : Option tcp_info) : List Line :=
  info.toList.map fun info => ⟨(t - s.began).toNat, info.tcpi_rtt, info.tcpi_snd_cwnd⟩

/-- What a poll decides and writes depends on elapsed times alone. -/
def Timely (s : State) : ProgramOp → Prop
  | .poll ts info => s.client.running_ = true → ∃ s' sample, step s (.poll ts info) = some s' ∧
      s'.decisions = s.decisions ++ [sample] ∧ (sample = true ↔ Due s (base_clock64 ts)) ∧
      s'.client.f_out_ = s.client.f_out_.map fun lines => lines ++ if sample then lines_of s (base_clock64 ts) info else []
  | .send ts => s.sending = true → s.m_running = true → ∃ s' ended, step s (.send ts) = some s' ∧
      s'.decisions = s.decisions ++ [ended] ∧ (ended = true ↔ run_duration * 1000 < base_clock64 ts - s.computed) ∧
      s'.sending = !ended
  | .signal => True

/-- How often the signed clock has wrapped around. -/
@[irreducible] def wraps (t : Int) : Int := Int.bdiv t (2 ^ 32)

/-- The signed clock is positive at the first sample, and does not wrap around between
    a poll and the time it is compared with. -/
def Unwrapped (s : State) : ProgramOp → Prop
  | .poll ts _ => s.client.running_ = true →
      match s.sampled with
      | none => 0 < int (base_clock64 ts)
      | some last => wraps (base_clock64 ts) = wraps (last + s.client.interval_)
  | .send ts => s.sending = true → s.m_running = true →
      wraps (base_clock64 ts) = wraps (s.computed + run_duration * 1000)
  | .signal => True

/-! ## One pass -/

variable {s s' : State} {ts : timespec} {info : Option tcp_info} {op : ProgramOp}

theorem now_of_eq (ts : timespec) : now_of ts = int (base_clock64 ts) := by
  have positive : 0 ≤ base_clock64 ts % 2 ^ 32 := Int.emod_nonneg _ (by decide)
  have same : (2 : Int) ^ 32 = ((2 ^ 32 : Nat) : Int) := by decide
  rw [now_of, GetMilliSeconds, Option.getD_none, base_clock32, Int.toNat_of_nonneg positive, int, int, same,
    Int.emod_bmod]

/-- A sum in which one number has been stored before. -/
theorem int_add (x y : Int) : int (int x + y) = int (x + y) := by
  rw [int, int, int, Int.bmod_add_bmod]

theorem int_elapsed {x y : Int} (before : y ≤ x) (near : x < y + 2 ^ 31) : int (int x - int y) = x - y := by
  rw [int, int, int]
  exact elapsed_eq before (by omega)

theorem int_compared {x y : Int} (near : x < y + 2 ^ 32) (near' : y < x + 2 ^ 32) :
    (int x < int y ↔ x < y) ↔ wraps y = wraps x := by
  rw [int, int, wraps, wraps, eq_comm]
  exact compared_iff (by decide) (by omega) (by omega)

/-- A pass of `Run` changes what is recorded and what is written, if it takes a sample. -/
structure Passed (c : TcpClient) (now : Int) (info : Option tcp_info) (c' : TcpClient) (sample : Bool) : Prop where
  decided : sample = true ↔ c.last_record_ < now
  running_ : c'.running_ = c.running_
  start_time_ : c'.start_time_ = c.start_time_
  interval_ : c'.interval_ = c.interval_
  last_record_ : c'.last_record_ = if sample then int (now + c.interval_) else c.last_record_
  f_out_ : c'.f_out_ = c.f_out_.map fun lines => lines ++ if sample then info.toList.map fun info =>
    ⟨(int (now - c.start_time_) % 2 ^ 32).toNat, info.tcpi_rtt, info.tcpi_snd_cwnd⟩ else []

theorem GetTcpInfo_spec (c : TcpClient) (now : Int) (info : Option tcp_info) :
    GetTcpInfo c now info = { c with f_out_ := c.f_out_.map fun lines => lines ++ info.toList.map fun info =>
      ⟨(int (now - c.start_time_) % 2 ^ 32).toNat, info.tcpi_rtt, info.tcpi_snd_cwnd⟩ } := by
  obtain ⟨running_, last_record_, start_time_, interval_, f_out_⟩ := c
  cases f_out_ <;> cases info <;> simp [GetTcpInfo]

theorem Run_spec (c : TcpClient) (now : Int) (info : Option tcp_info) :
    ∃ c' sample, Run c now info = (c', sample) ∧ Passed c now info c' sample := by
  by_cases passed : now > c.last_record_
  · refine ⟨_, true, by rw [Run, if_pos passed, GetTcpInfo_spec], ?_⟩
    exact ⟨iff_of_true rfl passed, rfl, rfl, rfl, rfl, rfl⟩
  · refine ⟨c, false, by rw [Run, if_neg passed], ?_⟩
    refine ⟨iff_of_false Bool.false_ne_true passed, rfl, rfl, rfl, rfl, ?_⟩
    simp

/-- A pass of `Run` in the whole program. -/
structure Polled (s : State) (ts : timespec) (info : Option tcp_info) (s' : State) (sample : Bool) : Prop where
  client : Passed s.client (now_of ts) info s'.client sample
  sampled : s'.sampled = if sample then some (base_clock64 ts) else s.sampled
  polled : s'.polled = true
  decisions : s'.decisions = s.decisions ++ [sample]
  stop : s'.stop = s.stop
  computed : s'.computed = s.computed
  began : s'.began = s.began
  sending : s'.sending = s.sending
  m_running : s'.m_running = s.m_running

theorem poll_spec (s : State) (ts : timespec) (info : Option tcp_info) :
    ∃ sample, Polled s ts info (poll s ts info) sample := by
  obtain ⟨c, sample, executed, passed⟩ := Run_spec s.client (now_of ts) info
  refine ⟨sample, ?_⟩
  rw [poll, executed]
  exact ⟨passed, rfl, rfl, rfl, rfl, rfl, rfl, rfl, rfl⟩

/-- What every operation leaves as it is, a pass of `Run` apart. -/
structure Kept (s s' : State) : Prop where
  last_record_ : s'.client.last_record_ = s.client.last_record_
  start_time_ : s'.client.start_time_ = s.client.start_time_
  interval_ : s'.client.interval_ = s.client.interval_
  f_out_ : s'.client.f_out_ = s.client.f_out_
  stop : s'.stop = s.stop
  computed : s'.computed = s.computed
  began : s'.began = s.began
  sampled : s'.sampled = s.sampled
  polled : s'.polled = s.polled

theorem kept_refl (s : State) : Kept s s := ⟨rfl, rfl, rfl, rfl, rfl, rfl, rfl, rfl, rfl⟩

theorem kept_leave (s : State) : Kept s (leave s) := ⟨rfl, rfl, rfl, rfl, rfl, rfl, rfl, rfl, rfl⟩

theorem send_spec (s : State) (ts : timespec) :
    Kept s (send s ts) ∧ ∃ ended, (ended = true ↔ s.stop < now_of ts) ∧ (send s ts).decisions = s.decisions ++ [ended] ∧
      (send s ts).sending = (s.sending && !ended) ∧ (send s ts).m_running = s.m_running ∧
      (send s ts).client.running_ = (s.client.running_ && !ended) := by
  by_cases past : now_of ts > s.stop
  · rw [send, if_pos past]
    exact ⟨⟨rfl, rfl, rfl, rfl, rfl, rfl, rfl, rfl, rfl⟩, true, iff_of_true rfl past, rfl, by simp [leave], rfl,
      by simp [leave, StopThread]⟩
  · rw [send, if_neg past]
    exact ⟨⟨rfl, rfl, rfl, rfl, rfl, rfl, rfl, rfl, rfl⟩, false, iff_of_false Bool.false_ne_true past, rfl, by simp, rfl,
      by simp⟩

theorem step_total (s : State) (op : ProgramOp) : ∃ s', step s op = some s' := by
  cases op <;> exact ⟨_, rfl⟩

/-- An operation is a pass of `Run` or leaves alone what `Run` works on. -/
theorem step_cases (stepped : step s op = some s') :
    (∃ ts info, op = .poll ts info ∧ s.client.running_ = true ∧ s' = poll s ts info) ∨ Kept s s' := by
  cases op with
  | poll ts info =>
    cases stepped
    by_cases running : s.client.running_ = true
    · exact .inl ⟨ts, info, rfl, running, if_pos running⟩
    · rw [if_neg running]
      exact .inr (kept_refl s)
  | send ts =>
    cases stepped
    right
    split_ifs
    · exact (send_spec s ts).1
    · exact kept_leave s
    · exact kept_refl s
  | signal =>
    cases stepped
    exact .inr ⟨rfl, rfl, rfl, rfl, rfl, rfl, rfl, rfl, rfl⟩

/-! ## What the variables hold -/

/-- The variables hold what the clock showed, and the first poll has taken a sample. -/
structure Inv (s : State) : Prop where
  interval_ : s.client.interval_ = 100
  start_time_ : s.client.start_time_ = int s.began
  stop : s.stop = int (s.computed + run_duration * 1000)
  order : s.computed ≤ s.began
  since : ∀ last, s.sampled = some last → s.began ≤ last
  last_record_ : s.client.last_record_ = (s.sampled.map fun last => int (last + s.client.interval_)).getD 0
  first : s.polled = true ↔ s.sampled ≠ none

/-- What a single poll needs of the clock. -/
def Within (s : State) : ProgramOp → Prop
  | .poll ts _ => s.began ≤ base_clock64 ts ∧ base_clock64 ts < s.computed + 2 ^ 31 ∧
      ∀ last, s.sampled = some last → last ≤ base_clock64 ts
  | .send ts => s.computed ≤ base_clock64 ts ∧ base_clock64 ts < s.computed + 2 ^ 31
  | .signal => True

theorem start_inv (opened : Bool) {ts ts' : timespec} (order : base_clock64 ts ≤ base_clock64 ts') :
    Inv (start opened ts ts') := by
  refine ⟨rfl, ?_, ?_, order, ?_, rfl, ?_⟩
  · simp only [start, StartThread, now_of_eq]
  · simp only [start, now_of_eq, int_add]
  · intro last some
    cases some
  · exact iff_of_false Bool.false_ne_true (fun some => some rfl)

theorem kept_inv (inv : Inv s) (kept : Kept s s') : Inv s' := by
  refine ⟨?_, ?_, ?_, ?_, ?_, ?_, ?_⟩
  · rw [kept.interval_, inv.interval_]
  · rw [kept.start_time_, kept.began, inv.start_time_]
  · rw [kept.stop, kept.computed, inv.stop]
  · rw [kept.computed, kept.began]
    exact inv.order
  · rw [kept.sampled, kept.began]
    exact inv.since
  · rw [kept.last_record_, kept.sampled, kept.interval_, inv.last_record_]
  · rw [kept.polled, kept.sampled]
    exact inv.first

/-- Differences are not disturbed by the clock wrapping around. -/
theorem abs_time_eq (inv : Inv s) (within : Within s (.poll ts info)) :
    (int (now_of ts - s.client.start_time_) % 2 ^ 32).toNat = (base_clock64 ts - s.began).toNat := by
  obtain ⟨after, short, _⟩ := within
  have order := inv.order
  have elapsed : int (now_of ts - s.client.start_time_) = base_clock64 ts - s.began := by
    rw [now_of_eq, inv.start_time_]
    exact int_elapsed after (by omega)
  rw [elapsed, Int.emod_eq_of_lt (by omega) (by omega)]

theorem step_poll (running : s.client.running_ = true) : step s (.poll ts info) = some (poll s ts info) := by
  rw [step, if_pos running]

theorem step_send (sending : s.sending = true) (m_running : s.m_running = true) : step s (.send ts) = some (send s ts) := by
  rw [step, if_pos sending, if_pos m_running]

theorem poll_written {sample : Bool} (inv : Inv s) (within : Within s (.poll ts info)) (polled : Polled s ts info s' sample) :
    s'.client.f_out_ = s.client.f_out_.map fun lines =>
      lines ++ if sample then lines_of s (base_clock64 ts) info else [] := by
  rw [polled.client.f_out_, abs_time_eq inv within]
  rfl

/-- A poll is as good as its decision. -/
theorem timely_poll (inv : Inv s) (within : Within s (.poll ts info)) : Timely s (.poll ts info) ↔
    (s.client.running_ = true → (s.client.last_record_ < now_of ts ↔ Due s (base_clock64 ts))) := by
  obtain ⟨sample, polled⟩ := poll_spec s ts info
  constructor
  · intro timely running
    obtain ⟨s', other, stepped, decided, due, _⟩ := timely running
    cases (step_poll running).symm.trans stepped
    rw [polled.decisions] at decided
    have same : sample = other := by simpa using decided
    rw [← polled.client.decided, same]
    exact due
  · intro right running
    exact ⟨_, sample, step_poll running, polled.decisions, polled.client.decided.trans (right running),
      poll_written inv within polled⟩

theorem timely_send : Timely s (.send ts) ↔ (s.sending = true → s.m_running = true →
    (s.stop < now_of ts ↔ run_duration * 1000 < base_clock64 ts - s.computed)) := by
  obtain ⟨_, ended, past, decisions, after, _⟩ := send_spec s ts
  constructor
  · intro timely sending m_running
    obtain ⟨s', other, stepped, decided, right, _⟩ := timely sending m_running
    cases (step_send sending m_running).symm.trans stepped
    rw [decisions] at decided
    have same : ended = other := by simpa using decided
    rw [← past, same]
    exact right
  · intro right sending m_running
    refine ⟨_, ended, step_send sending m_running, decisions, past.trans (right sending m_running), ?_⟩
    rw [after, sending, Bool.true_and]

/-! ## Which decisions are right -/

theorem poll_iff (inv : Inv s) (within : Within s (.poll ts info)) :
    Timely s (.poll ts info) ↔ Unwrapped s (.poll ts info) := by
  rw [timely_poll inv within, Unwrapped]
  refine imp_congr_right fun _ => ?_
  rw [inv.last_record_, now_of_eq]
  obtain ⟨after, short, since⟩ := within
  cases sampled : s.sampled with
  | none =>
    have first : s.polled = false := by
      by_contra polled
      exact inv.first.mp (by simpa using polled) sampled
    have due : Due s (base_clock64 ts) := .inl first
    simp only [Option.map_none, Option.getD_none, due, iff_true]
  | some last =>
    have polled : s.polled = true := inv.first.mpr (by simp [sampled])
    have due : Due s (base_clock64 ts) ↔ last + s.client.interval_ < base_clock64 ts := by
      simp only [Due, polled, sampled, Bool.true_eq_false, Option.some.injEq, exists_eq_left', false_or]
      omega
    have before := since last sampled
    have earlier := inv.since last sampled
    have order := inv.order
    have interval := inv.interval_
    rw [due]
    exact int_compared (by omega) (by omega)

theorem send_iff (inv : Inv s) (within : Within s (.send ts)) : Timely s (.send ts) ↔ Unwrapped s (.send ts) := by
  obtain ⟨after, short⟩ := within
  rw [timely_send, Unwrapped]
  refine imp_congr_right fun _ => imp_congr_right fun _ => ?_
  rw [inv.stop, now_of_eq]
  have duration : run_duration = 300 := rfl
  have elapsed : run_duration * 1000 < base_clock64 ts - s.computed ↔
      s.computed + run_duration * 1000 < base_clock64 ts := by omega
  rw [elapsed]
  exact int_compared (by omega) (by omega)

theorem op_iff (s : State) (op : ProgramOp) (inv : Inv s) (within : Within s op) : Timely s op ↔ Unwrapped s op := by
  cases op with
  | poll ts info => exact poll_iff inv within
  | send ts => exact send_iff inv within
  | signal => exact Iff.rfl

/-- Up to the first decision that is wrong, the variables hold what they should. -/
theorem step_inv (s : State) (op : ProgramOp) (s' : State) (inv : Inv s) (within : Within s op) (timely : Timely s op)
    (stepped : step s op = some s') : Inv s' := by
  rcases step_cases stepped with ⟨ts, info, rfl, running, rfl⟩ | kept
  · obtain ⟨sample, polled⟩ := poll_spec s ts info
    have due := polled.client.decided.trans ((timely_poll inv within).mp timely running)
    obtain ⟨after, _, _⟩ := within
    refine ⟨?_, ?_, ?_, ?_, ?_, ?_, ?_⟩
    · rw [polled.client.interval_, inv.interval_]
    · rw [polled.client.start_time_, polled.began, inv.start_time_]
    · rw [polled.stop, polled.computed, inv.stop]
    · rw [polled.computed, polled.began]
      exact inv.order
    · intro last
      rw [polled.sampled, polled.began]
      cases sample with
      | true =>
        rintro ⟨⟩
        exact after
      | false => exact inv.since last
    · rw [polled.client.last_record_, polled.sampled, polled.client.interval_]
      cases sample with
      | true => simp only [↓reduceIte, Option.map_some, Option.getD_some, now_of_eq, int_add]
      | false => simpa using inv.last_record_
    · refine iff_of_true polled.polled ?_
      rw [polled.sampled]
      cases sample with
      | true => simp
      | false =>
        -- No sample is due, so one has been taken before.
        have undue : ¬ Due s (base_clock64 ts) := fun some => Bool.false_ne_true (due.mpr some)
        have before : s.polled = true := by
          by_contra unpolled
          exact undue (.inl (by simpa using unpolled))
        simpa using inv.first.mp before
  · exact kept_inv inv kept

/-- The last sample stays before the polls to come. -/
theorem step_recorded {ops : List ProgramOp} (stepped : step s op = some s') (sorted : (polls (op :: ops)).Pairwise (· ≤ ·))
    (recorded : ∀ last, s.sampled = some last → ∀ t ∈ polls (op :: ops), last ≤ t) :
    s'.computed = s.computed ∧ s'.began = s.began ∧ ∀ last, s'.sampled = some last → ∀ t ∈ polls ops, last ≤ t := by
  have later : (polls ops).Sublist (polls (op :: ops)) := (List.sublist_cons_self op ops).filterMap _
  rcases step_cases stepped with ⟨ts, info, rfl, _, rfl⟩ | kept
  · obtain ⟨sample, polled⟩ := poll_spec s ts info
    refine ⟨polled.computed, polled.began, ?_⟩
    intro last some t member
    rw [polled.sampled] at some
    cases sample with
    | true =>
      cases some
      exact (List.pairwise_cons.mp sorted).1 t member
    | false => exact recorded last some t (later.subset member)
  · refine ⟨kept.computed, kept.began, ?_⟩
    intro last some t member
    exact recorded last (kept.sampled ▸ some) t (later.subset member)

/-- What the clock shows along a run is what each poll needs. -/
theorem issued_within {ops : List ProgramOp} (sorted : (polls ops).Pairwise (· ≤ ·))
    (recorded : ∀ last, s.sampled = some last → ∀ t ∈ polls ops, last ≤ t) (after : ∀ t ∈ polls ops, s.began ≤ t)
    (after' : ∀ t ∈ sends ops, s.computed ≤ t) (short : ∀ t ∈ polls ops ++ sends ops, t < s.computed + 2 ^ 31) :
    Each step Within s ops := by
  induction ops generalizing s with
  | nil => trivial
  | cons op ops ih =>
    have later : (polls ops).Sublist (polls (op :: ops)) := (List.sublist_cons_self op ops).filterMap _
    have later' : (sends ops).Sublist (sends (op :: ops)) := (List.sublist_cons_self op ops).filterMap _
    have within : Within s op := by
      cases op with
      | poll ts info =>
        exact ⟨after _ List.mem_cons_self, short _ List.mem_cons_self, fun last some => recorded last some _ List.mem_cons_self⟩
      | send ts =>
        have first : base_clock64 ts ∈ sends (.send ts :: ops) := List.mem_cons_self
        exact ⟨after' _ first, short _ (List.mem_append_right _ first)⟩
      | signal => trivial
    refine ⟨within, ?_⟩
    intro s' stepped
    obtain ⟨computed, began, recorded'⟩ := step_recorded stepped sorted recorded
    apply ih (sorted.sublist later) recorded'
    · intro t member
      rw [began]
      exact after t (later.subset member)
    · intro t member
      rw [computed]
      exact after' t (later'.subset member)
    · intro t member
      rw [computed]
      exact short t ((later.append later').subset member)

theorem start_within (opened : Bool) {ts ts' : timespec} {ops : List ProgramOp} (issued : Issued ts ts' ops) :
    Each step Within (start opened ts ts') ops := by
  obtain ⟨first, polling⟩ := List.pairwise_cons.mp issued.polls
  obtain ⟨started, sorted⟩ := List.pairwise_cons.mp polling
  obtain ⟨sent, _⟩ := List.pairwise_cons.mp issued.sends
  refine issued_within sorted ?_ started ?_ issued.short
  · intro last some
    cases some
  · intro t member
    exact sent t (List.mem_cons_of_mem _ member)

end TcpLearn.TraceClient
