import TcpLearn.Layout

/-!
# What a read takes

`con_buf_read` passes `len` on to every mbuf, whatever it has read before, and looks
at what it still may read only between two mbufs. So it takes the bytes it should
exactly when the request ends where the loop can stop (`read_exact_iff`): inside the
first mbuf, at the end of an mbuf, or with the last unread byte.

`con_buf_peek` copies the bytes it should, and nothing later depends on it
(`peek_transparent`).
-/
namespace TcpLearn.Reading
open TcpLearn.Memory TcpLearn.MbufOps TcpLearn.ConBuf TcpLearn.Chain TcpLearn.Contexts TcpLearn.Pools TcpLearn.Layout
open TcpLearn.Runs

/-- The unread bytes of a connection. -/
def pending (con : Connection) : List UInt8 := (queued con).flatMap content

/-- The read marker of the first mbuf. -/
def front (con : Connection) : Nat := ((queued con).head?.map Mbuf.pos).getD 0

/-- The read returns and stores the first bytes, as many as asked for or all there
    are, and leaves the others. -/
def ReadsExactly (w : World) (con : Connection) (len : Nat) : Prop :=
  ∃ w' con', con_buf_read w con len = some (w', con', ⟨(min len (pending con).length : Nat), (pending con).take len⟩) ∧
    pending con' = (pending con).drop len

/-- The loop can stop where the request ends. Fewer bytes than there are end inside
    the first mbuf, or at the end of one when `data_size` covers them; all bytes are
    read unless `data_size` runs out at the end of an mbuf before them. -/
def Stops (cap off unread : Nat) (data_size : Int) (len : Nat) : Prop :=
  unread = 0 ∨ len = 0 ∨ data_size ≠ 0 ∧
    if len < unread then off + len < cap ∨ cap ∣ off + len ∧ (len : Int) ≤ data_size
    else ¬ (0 < data_size ∧ data_size < unread ∧ (cap : Int) ∣ off + data_size)

/-! ## How much the loop takes -/

theorem taken_zero (cap len : Nat) (allow : Int) (off : Nat) : taken cap len allow off 0 = 0 := by
  rw [taken, if_pos (.inl rfl)]

/-- One pass of the loop, in the first mbuf of a queue with bytes in it. -/
theorem taken_pass {cap len off n : Nat} {allow : Int} (inside : off < cap) (some : n ≠ 0) (allowed : allow ≠ 0) :
    taken cap len allow off n =
      if cap ≤ off + min len n then cap - off + taken cap len (allow - (cap - off : Nat)) 0 (n - (cap - off))
      else min len n := by
  rw [taken, if_neg (by simp [some, allowed])]
  dsimp only
  by_cases atEnd : cap ≤ off + min len n
  · have ret : min len (min (cap - off) n) = cap - off := by omega
    rw [if_pos atEnd, ret, if_pos (by omega)]
  · have ret : min len (min (cap - off) n) = min len n := by omega
    rw [if_neg atEnd, ret, if_neg (by omega)]

/-- Nothing is taken only if nothing may be. -/
theorem taken_eq_zero {cap len off n : Nat} {allow : Int} (inside : off < cap) (some : n ≠ 0) (asked : 0 < len) :
    taken cap len allow off n = 0 ↔ allow = 0 := by
  constructor
  · intro none
    by_contra allowed
    rw [taken_pass inside some allowed] at none
    split_ifs at none <;> omega
  · intro none
    rw [taken, if_pos (.inr none)]

/-- Past the first mbuf the rest of the queue is read from its start. -/
theorem taken_next {cap len off n x : Nat} {allow : Int} (inside : off < cap) (some : n ≠ 0) (allowed : allow ≠ 0)
    (atEnd : cap ≤ off + min len n) (beyond : cap ≤ off + x) :
    taken cap len allow off n = x ↔ taken cap len (allow - (cap - off : Nat)) 0 (n - (cap - off)) = x - (cap - off) := by
  rw [taken_pass inside some allowed, if_pos atEnd]
  omega

/-- No mbuf ends inside the first one. -/
theorem ends_later {cap off : Nat} {x : Int} (positive : 0 < x) (before : off + x < cap) : ¬ (cap : Int) ∣ off + x := by
  intro ends
  have := Int.le_of_dvd (by omega) ends
  omega

theorem ends_shift {cap off : Nat} {x : Int} (inside : off < cap) :
    (cap : Int) ∣ off + x ↔ (cap : Int) ∣ (0 : Nat) + (x - (cap - off : Nat)) := by
  have total : (off : Int) + x = cap + ((0 : Nat) + (x - (cap - off : Nat))) := by omega
  rw [total]
  exact Int.dvd_add_right (Int.dvd_refl _)

/-- All bytes are taken unless the limit is used up at the end of an mbuf before. -/
theorem taken_all {cap len off n : Nat} {allow : Int} (inside : off < cap) (some : n ≠ 0) (fits : n ≤ len) :
    taken cap len allow off n = n ↔ allow ≠ 0 ∧ ¬ (0 < allow ∧ allow < n ∧ (cap : Int) ∣ off + allow) := by
  induction n using Nat.strongRecOn generalizing allow off with
  | ind n ih =>
    by_cases allowed : allow = 0
    · have none := (taken_eq_zero inside some (by omega : 0 < len)).mpr allowed
      rw [none]
      exact iff_of_false (fun same => some same.symm) (fun both => both.1 allowed)
    by_cases atEnd : cap ≤ off + min len n
    · rw [taken_next inside some allowed atEnd (by omega)]
      by_cases last : n - (cap - off) = 0
      · rw [last, taken_zero]
        refine iff_of_true rfl ⟨allowed, ?_⟩
        rintro ⟨positive, before, ends⟩
        exact ends_later positive (by omega) ends
      · have rest := @ih (n - (cap - off)) (by omega) 0 (allow - (cap - off : Nat)) (by omega) last (by omega)
        rw [rest, ends_shift inside]
        -- The limit runs out in this mbuf, at its end, or in the rest of the queue.
        rcases lt_trichotomy allow (cap - off : Nat) with within | exactly | beyond
        · refine iff_of_true ⟨by omega, by omega⟩ ⟨allowed, ?_⟩
          rintro ⟨positive, _, ends⟩
          exact ends_later positive (by omega) ((ends_shift inside).mpr ends)
        · refine iff_of_false (fun both => both.1 (by omega)) (fun both => both.2 ⟨by omega, by omega, ?_⟩)
          rw [exactly]
          simp
        · refine and_congr (iff_of_true (by omega) allowed) (not_congr ?_)
          refine and_congr (iff_of_true (by omega) (by omega)) (and_congr_left' ?_)
          omega
    · rw [taken_pass inside some allowed, if_neg atEnd]
      refine iff_of_true (by omega) ⟨allowed, ?_⟩
      rintro ⟨positive, before, ends⟩
      exact ends_later positive (by omega) ends

/-- After some bytes were taken, the rest of a request is met only if it ends at the
    end of an mbuf and uses up the limit. -/
theorem taken_rest {cap len off n r : Nat} {allow : Int} (inside : off < cap) (some : 0 < r) (fewer : r < n)
    (short : r < len) : taken cap len allow off n = r ↔ cap ∣ off + r ∧ allow = r := by
  induction n using Nat.strongRecOn generalizing allow off r with
  | ind n ih =>
    by_cases allowed : allow = 0
    · have none := (taken_eq_zero inside (by omega : n ≠ 0) (by omega : 0 < len)).mpr allowed
      rw [none]
      exact iff_of_false (by omega) (by omega)
    by_cases beyond : cap ≤ off + r
    · have ends : cap ∣ off + r ↔ cap ∣ 0 + (r - (cap - off)) := by
        have total : off + r = cap + (0 + (r - (cap - off))) := by omega
        rw [total, Nat.dvd_add_right (Nat.dvd_refl cap)]
      rw [taken_next inside (by omega) allowed (by omega) beyond, ends]
      by_cases last : r - (cap - off) = 0
      · rw [last, taken_eq_zero (by omega) (by omega) (by omega)]
        simp only [Nat.add_zero, Nat.dvd_zero, true_and]
        omega
      · have rest := @ih (n - (cap - off)) (by omega) 0 (r - (cap - off)) (allow - (cap - off : Nat)) (by omega) (by omega)
          (by omega) (by omega)
        rw [rest]
        refine and_congr_right ?_
        intro _
        omega
    · -- The first mbuf has more to read than is left to be read.
      have ends : ¬ cap ∣ off + r := Nat.not_dvd_of_pos_of_lt (by omega) (by omega)
      refine iff_of_false ?_ (fun both => ends both.1)
      rw [taken_pass inside (by omega) allowed]
      split_ifs <;> omega

/-- Fewer bytes than there are: the request ends inside the first mbuf or at the end of one. -/
theorem taken_some {cap len off n : Nat} {allow : Int} (inside : off < cap) (asked : 0 < len) (fewer : len < n) :
    taken cap len allow off n = len ↔ allow ≠ 0 ∧ (off + len < cap ∨ cap ∣ off + len ∧ allow = len) := by
  by_cases allowed : allow = 0
  · have none := (taken_eq_zero inside (by omega : n ≠ 0) asked).mpr allowed
    rw [none]
    exact iff_of_false (by omega) (fun both => both.1 allowed)
  by_cases beyond : cap ≤ off + len
  · have ends : cap ∣ off + len ↔ cap ∣ 0 + (len - (cap - off)) := by
      have total : off + len = cap + (0 + (len - (cap - off))) := by omega
      rw [total, Nat.dvd_add_right (Nat.dvd_refl cap)]
    rw [taken_next inside (by omega) allowed (by omega) beyond, ends]
    by_cases last : len - (cap - off) = 0
    · rw [last, taken_eq_zero (by omega) (by omega) asked]
      simp only [Nat.add_zero, Nat.dvd_zero, true_and]
      omega
    · rw [taken_rest (by omega) (by omega) (by omega) (by omega)]
      constructor
      · rintro ⟨atEnd, used⟩
        exact ⟨allowed, .inr ⟨atEnd, by omega⟩⟩
      · rintro ⟨_, here | ⟨atEnd, used⟩⟩
        · omega
        · exact ⟨atEnd, by omega⟩
  · rw [taken_pass inside (by omega) allowed, if_neg (by omega)]
    exact iff_of_true (by omega) ⟨allowed, .inl (by omega)⟩

theorem taken_none (cap : Nat) (allow : Int) {off : Nat} (inside : off < cap) (n : Nat) : taken cap 0 allow off n = 0 := by
  by_cases stop : n = 0 ∨ allow = 0
  · rw [taken, if_pos stop]
  · rw [not_or] at stop
    rw [taken_pass inside stop.1 stop.2, if_neg (by omega), Nat.zero_min]

theorem taken_stops {cap off n : Nat} (inside : off < cap) (con : Connection) (len : Nat) :
    taken cap len (allowed con len) off n = min len n ↔ Stops cap off n con.data_size len := by
  by_cases empty : n = 0
  · simp [Stops, empty, taken_zero]
  by_cases nothing : len = 0
  · simp [Stops, nothing, taken_none cap _ inside]
  have limit : allowed con len ≠ 0 ↔ con.data_size ≠ 0 := by
    unfold allowed
    split_ifs <;> omega
  simp only [Stops, empty, nothing, false_or]
  by_cases fewer : len < n
  · have covers : allowed con len = (len : Int) ↔ (len : Int) ≤ con.data_size := by
      unfold allowed
      split_ifs <;> omega
    rw [Nat.min_eq_left fewer.le, taken_some inside (by omega) fewer, limit, covers, if_pos fewer]
  · rw [Nat.min_eq_right (by omega), taken_all inside empty (by omega), limit, if_neg fewer]
    refine and_congr_right fun _ => not_congr ?_
    unfold allowed
    split_ifs with short
    · exact Iff.rfl
    · constructor
      · omega
      · omega

/-! ## Reads -/

theorem exact_iff_taken {cap off : Nat} {con : Connection} {bs : List UInt8} (holds : Holds cap off (queued con) bs)
    (w : World) (len : Nat) (attached : con.info ≠ none) :
    ReadsExactly w con len ↔ taken cap len (allowed con len) off bs.length = min len bs.length := by
  have bytes : pending con = bs := holds.bytes
  obtain ⟨w', con', executed, _, after, _⟩ := con_buf_read_spec holds w len attached
  set k := taken cap len (allowed con len) off bs.length
  rw [ReadsExactly, bytes]
  constructor
  · rintro ⟨_, _, again, _⟩
    have returned := congrArg (Option.map fun r => r.2.2.ret) (executed.symm.trans again)
    simp only [Option.map_some, Option.some.injEq] at returned
    exact_mod_cast returned
  · intro same
    have taken : bs.take k = bs.take len := by
      rw [same, List.take_eq_take_iff]
      omega
    have left : bs.drop k = bs.drop len := by
      rw [same]
      by_cases fewer : len ≤ bs.length
      · rw [Nat.min_eq_left fewer]
      · rw [Nat.min_eq_right (by omega), List.drop_length, List.drop_of_length_le (by omega)]
    refine ⟨w', con', ?_, after.bytes.trans left⟩
    rw [executed, taken, same]

/-- In every state a run reaches, a read takes what it should exactly when the loop
    can stop where the request ends. -/
theorem read_exact_iff (w : World) (positive : 1 ≤ w.ctx.mbuf_offset) (ops : List PoolOp) (s : Pool)
    (executed : run step (start w) ops = some s) (c : Nat) (attached : (s.con c).info ≠ none) (len : Nat) :
    ReadsExactly s.world (s.con c) len ↔
      Stops w.ctx.mbuf_offset (front (s.con c)) (pending (s.con c)).length (s.con c).data_size len := by
  obtain ⟨off, bs, holds⟩ := (run_laid (start_laid positive) executed).queues c
  have first : front (s.con c) = off := holds.head
  have bytes : pending (s.con c) = bs := holds.bytes
  rw [exact_iff_taken holds s.world len attached, first, bytes]
  exact taken_stops holds.inside (s.con c) len

theorem read_exact_three_bytes :
    ∃ s, run step (start Sessions.test_context) [.new, .write 0 [0, 1, 2]] = some s ∧
      (ReadsExactly s.world (s.con 1) 2 ↔ Stops 8 (front (s.con 1)) (pending (s.con 1)).length (s.con 1).data_size 2) :=
  ⟨_, rfl, read_exact_iff Sessions.test_context (by decide) [.new, .write 0 [0, 1, 2]] _ rfl 1 (Option.some_ne_none _) 2⟩

/-- Ten of twelve bytes are asked for, and all twelve are stored. -/
theorem read_overruns :
    ∃ s w con reply, run step (start Sessions.test_context) [.new, .write 0 [0, 1, 2, 3, 4, 5, 6, 7, 8, 9, 10, 11]] = some s ∧
      con_buf_read s.world (s.con 1) 10 = some (w, con, reply) ∧ reply = ⟨12, [0, 1, 2, 3, 4, 5, 6, 7, 8, 9, 10, 11]⟩ ∧
      ¬ ReadsExactly s.world (s.con 1) 10 := by
  refine ⟨_, _, _, _, rfl, rfl, rfl, ?_⟩
  rintro ⟨w, con, executed, _⟩
  have returned := congrArg (Option.map fun r => r.2.2.ret) executed
  change _ = some _ at returned
  dsimp only at returned
  exact absurd returned (by decide)

/-! ## Peeks -/

theorem step_replies (s : Pool) (earlier : List (Nat × Reply)) (op : PoolOp) :
    step { s with replies := earlier } op =
      (step { s with replies := [] } op).map fun t => { t with replies := earlier ++ t.replies } := by
  cases op with
  | new =>
    simp only [step, Option.bind_eq_bind]
    cases context_connection_new s.world with
    | none => rfl
    | some r => simp [Pool.set]
  | write i data =>
    simp only [step, Option.bind_eq_bind]
    cases s.handles[i]? with
    | none => rfl
    | some c =>
      simp only [Option.bind_some]
      cases con_buf_write s.world (s.con c) data with
      | none => rfl
      | some r => simp [Pool.set]
  | read i len =>
    simp only [step, Option.bind_eq_bind]
    cases s.handles[i]? with
    | none => rfl
    | some c =>
      simp only [Option.bind_some]
      cases con_buf_read s.world (s.con c) len with
      | none => rfl
      | some r => simp [Pool.set]
  | peek i len =>
    simp only [step, Option.bind_eq_bind]
    cases s.handles[i]? with
    | none => rfl
    | some c => simp
  | free i =>
    simp only [step, Option.bind_eq_bind]
    cases s.handles[i]? with
    | none => rfl
    | some c => simp [Pool.set]
  | recycle i =>
    simp only [step, Option.bind_eq_bind]
    cases s.handles[i]? with
    | none => rfl
    | some c =>
      simp only [Option.bind_some]
      cases context_conn_recyle s.world c (s.con c) with
      | none => rfl
      | some r => simp [Pool.set]

/-- What was returned before has no influence on a run. -/
theorem run_replies (s : Pool) (earlier : List (Nat × Reply)) (ops : List PoolOp) :
    run step { s with replies := earlier } ops =
      (run step { s with replies := [] } ops).map fun t => { t with replies := earlier ++ t.replies } := by
  induction ops generalizing s earlier with
  | nil => simp
  | cons op ops ih =>
    rw [run_cons, run_cons, step_replies]
    cases step { s with replies := [] } op with
    | none => rfl
    | some t =>
      simp only [Option.map_some, Option.bind_some]
      rw [ih t (earlier ++ t.replies), show run step t ops = run step { t with replies := t.replies } ops from rfl,
        ih t t.replies, Option.map_map]
      simp [Function.comp_def]

theorem peek_pending (con : Connection) (len : Nat) :
    con_buf_peek con len = ⟨(min len (pending con).length : Nat), (pending con).take len⟩ := by
  obtain ⟨size, info, ctx⟩ := con
  cases info with
  | none => simp [con_buf_peek, pending]
  | some info => simp [con_buf_peek, peek_loop_spec, pending]

/-- A peek returns and stores the first unread bytes, and what follows goes on as
    if it had not been issued. -/
theorem peek_transparent (s : Pool) (i len c : Nat) (found : s.handles[i]? = some c) (after : List PoolOp) :
    con_buf_peek (s.con c) len = ⟨(min len (pending (s.con c)).length : Nat), (pending (s.con c)).take len⟩ ∧
      (∀ t, run step s after = some t → ∃ later, t.replies = s.replies ++ later ∧
        run step s (.peek i len :: after) =
          some { t with replies := s.replies ++ (i, con_buf_peek (s.con c) len) :: later }) ∧
      (run step s after = none → run step s (.peek i len :: after) = none) := by
  have peeked : run step s (.peek i len :: after) =
      run step { s with replies := s.replies ++ [(i, con_buf_peek (s.con c) len)] } after := by
    rw [run_cons, step_peek.mpr ⟨c, found, rfl⟩, Option.bind_some]
  have before : run step s after =
      (run step { s with replies := [] } after).map fun t => { t with replies := s.replies ++ t.replies } :=
    run_replies s s.replies after
  rw [peeked, run_replies s (s.replies ++ _)]
  refine ⟨peek_pending (s.con c) len, ?_, ?_⟩
  · intro t executed
    rw [executed] at before
    obtain ⟨u, same, rfl⟩ := Option.map_eq_some_iff.mp before.symm
    exact ⟨u.replies, rfl, by simp [same]⟩
  · intro stuck
    rw [stuck] at before
    rw [Option.map_eq_none_iff.mp before.symm, Option.map_none]

/-- Ten bytes of two mbufs. -/
theorem peek_over_two_mbufs :
    ∃ s, run step (start Sessions.test_context) [.new, .write 0 [0, 1, 2, 3, 4, 5, 6, 7, 8, 9, 10, 11]] = some s ∧
      con_buf_peek (s.con 1) 10 = ⟨(min 10 (pending (s.con 1)).length : Nat), (pending (s.con 1)).take 10⟩ ∧
      (∀ t, run step s [.read 0 4] = some t → ∃ later, t.replies = s.replies ++ later ∧
        run step s [.peek 0 10, .read 0 4] =
          some { t with replies := s.replies ++ (0, con_buf_peek (s.con 1) 10) :: later }) ∧
      (run step s [.read 0 4] = none → run step s [.peek 0 10, .read 0 4] = none) :=
  ⟨_, rfl, peek_transparent _ 0 10 1 rfl [.read 0 4]⟩

end TcpLearn.Reading
