import TcpLearn.Runs
import Mathlib

/-!
# Reading and writing a number of bytes

`anetWrite` and `anetRead` of `anet.c` at the two ends of a connection. The loops are
interleaved in any way at their system calls, each of which may take or give any number
of the bytes asked for. While no call of `write` or `read` fails or returns 0, a reader
that asks for the lengths of the messages gets the messages, one a call (`messages_framed`), and
the two loops come to their end with all of them (`messages_delivered`).
-/
namespace TcpLearn.Transfers
open TcpLearn.Runs

/-! ## The code -/

/-- A pass of the loop that both functions run, given the answer of the system call: the
    value returned, or `totlen` for the next pass. -/
def pass (totlen : Nat) (n : Int) : Int ⊕ Nat :=
  if n = 0 then .inl totlen
  else if n = -1 then .inl (-1)
  else .inr (totlen + n.toNat)

def anetWrite_pass (totlen : Nat) (nwritten : Int) : Int ⊕ Nat := pass totlen nwritten
def anetRead_pass (totlen : Nat) (nread : Int) : Int ⊕ Nat := pass totlen nread

structure State where
  /-- The messages still to be written; `anetWrite` is called with the first. -/
  outgoing : List (List UInt8)
  /-- `totlen` of that call. -/
  totlen : Nat
  /-- What the calls of `anetWrite` returned. -/
  wrote : List Int
  /-- The bytes on their way. -/
  pipe : List UInt8
  /-- The counts still to be read; `anetRead` is called with the first. -/
  incoming : List Nat
  /-- What that call has stored from `buf` on. -/
  buf : List UInt8
  /-- What the calls of `anetRead` returned and stored. -/
  got : List (Int × List UInt8)

/-- The messages are written by one thread, the counts read by another. -/
def start (messages : List (List UInt8)) (counts : List Nat) : State := ⟨messages, 0, [], [], counts, [], []⟩

inductive Op where
  /-- `write` answers. -/
  | write (nwritten : Int)
  /-- `totlen` is `count`, and `anetWrite` returns. -/
  | wrote
  | read (nread : Int)
  | got

/-- A system call answers -1 or a number of bytes up to the most that it can move. -/
def Answers (n : Int) (most : Nat) : Prop := n = -1 ∨ 0 ≤ n ∧ n.toNat ≤ most

instance (n : Int) (most : Nat) : Decidable (Answers n most) :=
  inferInstanceAs (Decidable (n = -1 ∨ 0 ≤ n ∧ n.toNat ≤ most))

def step (s : State) : Op → Option State
  | .write nwritten =>
    match s.outgoing with
    | [] => none
    | message :: rest =>
      if s.totlen ≠ message.length ∧ Answers nwritten (message.length - s.totlen) then
        let s := { s with pipe := s.pipe ++ (message.drop s.totlen).take nwritten.toNat }
        match anetWrite_pass s.totlen nwritten with
        | .inl ret => some { s with outgoing := rest, totlen := 0, wrote := s.wrote ++ [ret] }
        | .inr totlen => some { s with totlen := totlen }
      else none
  | .wrote =>
    match s.outgoing with
    | [] => none
    | message :: rest =>
      if s.totlen = message.length then
        some { s with outgoing := rest, totlen := 0, wrote := s.wrote ++ [(s.totlen : Int)] }
      else none
  | .read nread =>
    match s.incoming with
    | [] => none
    | count :: rest =>
      if s.buf.length ≠ count ∧ Answers nread (min (count - s.buf.length) s.pipe.length) then
        let totlen := s.buf.length
        let s := { s with pipe := s.pipe.drop nread.toNat, buf := s.buf ++ s.pipe.take nread.toNat }
        match anetRead_pass totlen nread with
        | .inl ret => some { s with incoming := rest, buf := [], got := s.got ++ [(ret, s.buf)] }
        | .inr _ => some s
      else none
  | .got =>
    match s.incoming with
    | [] => none
    | count :: rest =>
      if s.buf.length = count then
        some { s with incoming := rest, buf := [], got := s.got ++ [((s.buf.length : Int), s.buf)] }
      else none

/-! ## One step -/

/-- No system call fails, none finds the end of the stream. -/
def Op.Fine : Op → Prop
  | .write n | .read n => 0 < n
  | .wrote | .got => True

theorem answers_fine {k most : Nat} (answers : Answers k most) : k ≤ most := by
  rcases answers with failed | ⟨_, fits⟩
  · omega
  · rwa [Int.toNat_natCast] at fits

theorem pass_fine {totlen : Nat} {n : Int} (positive : 0 < n) : pass totlen n = .inr (totlen + n.toNat) := by
  rw [pass, if_neg (by omega), if_neg (by omega)]

/-- What a fine step does. -/
inductive Moves (s : State) : Op → State → Prop where
  | write {message : List UInt8} {rest : List (List UInt8)} {n : Nat} (first : s.outgoing = message :: rest)
      (some : 0 < n) (fits : n ≤ message.length - s.totlen) :
      Moves s (.write n) { s with pipe := s.pipe ++ (message.drop s.totlen).take n, totlen := s.totlen + n }
  | wrote {message : List UInt8} {rest : List (List UInt8)} (first : s.outgoing = message :: rest)
      (all : s.totlen = message.length) :
      Moves s .wrote { s with outgoing := rest, totlen := 0, wrote := s.wrote ++ [(message.length : Int)] }
  | read {count n : Nat} {rest : List Nat} (first : s.incoming = count :: rest) (some : 0 < n)
      (fits : n ≤ count - s.buf.length) (there : n ≤ s.pipe.length) :
      Moves s (.read n) { s with pipe := s.pipe.drop n, buf := s.buf ++ s.pipe.take n }
  | got {count : Nat} {rest : List Nat} (first : s.incoming = count :: rest) (all : s.buf.length = count) :
      Moves s .got { s with incoming := rest, buf := [], got := s.got ++ [((count : Int), s.buf)] }

theorem step_moves {s s' : State} {op : Op} (fine : op.Fine) (stepped : step s op = some s') : Moves s op s' := by
  cases op with
  | write n =>
    obtain ⟨k, rfl⟩ := Int.eq_ofNat_of_zero_le (Int.le_of_lt fine)
    have positive : 0 < k := Int.natCast_pos.mp fine
    simp only [step] at stepped
    split at stepped
    · cases stepped
    · rename_i message rest first
      split_ifs at stepped with enabled
      simp only [anetWrite_pass, pass_fine fine, Int.toNat_natCast, Option.some.injEq] at stepped
      subst stepped
      exact .write first positive (answers_fine enabled.2)
  | wrote =>
    simp only [step] at stepped
    split at stepped
    · cases stepped
    · rename_i message rest first
      split_ifs at stepped with all
      cases stepped
      rw [all]
      exact .wrote first all
  | read n =>
    obtain ⟨k, rfl⟩ := Int.eq_ofNat_of_zero_le (Int.le_of_lt fine)
    have positive : 0 < k := Int.natCast_pos.mp fine
    simp only [step] at stepped
    split at stepped
    · cases stepped
    · rename_i count rest first
      split_ifs at stepped with enabled
      simp only [anetRead_pass, pass_fine fine, Int.toNat_natCast, Option.some.injEq] at stepped
      subst stepped
      have fits := answers_fine enabled.2
      exact .read first positive (fits.trans (Nat.min_le_left _ _)) (fits.trans (Nat.min_le_right _ _))
  | got =>
    simp only [step] at stepped
    split at stepped
    · cases stepped
    · rename_i count rest first
      split_ifs at stepped with all
      cases stepped
      rw [all]
      exact .got first all

/-! ## Messages in step -/

/-- The two ends are between the same messages. -/
structure Framed (messages : List (List UInt8)) (s : State) : Prop where
  outgoing : s.outgoing = messages.drop s.wrote.length
  within : ∀ message ∈ s.outgoing.head?, s.totlen ≤ message.length
  idle : s.outgoing = [] → s.totlen = 0
  wrote : s.wrote = (messages.take s.wrote.length).map fun message => (message.length : Int)
  incoming : s.incoming = (messages.drop s.got.length).map List.length
  fits : ∀ count ∈ s.incoming.head?, s.buf.length ≤ count
  got : s.got = (messages.take s.got.length).map fun message => ((message.length : Int), message)
  /-- What was taken and what is on its way is what was written. -/
  stream : (messages.take s.got.length).flatten ++ s.buf ++ s.pipe =
    (messages.take s.wrote.length).flatten ++ ((s.outgoing.head?).getD []).take s.totlen

section
variable {messages : List (List UInt8)} {s s' : State}

theorem start_framed (messages : List (List UInt8)) : Framed messages (start messages (messages.map List.length)) := by
  refine ⟨rfl, ?_, fun _ => rfl, rfl, rfl, ?_, rfl, rfl⟩
  · exact fun _ _ => Nat.zero_le _
  · exact fun _ _ => Nat.zero_le _

/-- The message a loop works on, and those after it. -/
theorem drop_first {k : Nat} {message : List UInt8} {rest : List (List UInt8)} (first : messages.drop k = message :: rest) :
    rest = messages.drop (k + 1) ∧ messages.take (k + 1) = messages.take k ++ [message] := by
  have inside : k < messages.length := by
    by_contra past
    rw [List.drop_eq_nil_of_le (Nat.le_of_not_lt past)] at first
    cases first
  rw [List.drop_eq_getElem_cons inside] at first
  obtain ⟨rfl, rfl⟩ := List.cons.inj first
  exact ⟨rfl, List.take_succ_eq_append_getElem inside⟩

/-- What was written is a prefix of the messages. -/
theorem wrote_first (framed : Framed messages s) :
    (messages.take s.wrote.length).flatten ++ ((s.outgoing.head?).getD []).take s.totlen <+: messages.flatten := by
  have split : messages.flatten = (messages.take s.wrote.length).flatten ++ s.outgoing.flatten := by
    rw [framed.outgoing, ← List.flatten_append, List.take_append_drop]
  rw [split]
  refine (List.prefix_append_right_inj _).mpr ?_
  cases s.outgoing with
  | nil => simp
  | cons message rest => exact (List.take_prefix _ _).trans (List.prefix_append _ _)

/-- A reader that has the bytes of a message has the message. -/
theorem got_message (framed : Framed messages s) {message : List UInt8} {rest : List (List UInt8)}
    (first : messages.drop s.got.length = message :: rest) (all : s.buf.length = message.length) : s.buf = message := by
  have read : (messages.take s.got.length).flatten ++ s.buf <+: messages.flatten :=
    (List.prefix_append _ s.pipe).trans (framed.stream ▸ wrote_first framed)
  have split : messages.flatten = (messages.take s.got.length).flatten ++ (message ++ rest.flatten) := by
    rw [← List.flatten_cons, ← first, ← List.flatten_append, List.take_append_drop]
  rw [split, List.prefix_append_right_inj] at read
  exact List.IsPrefix.eq_of_length (List.prefix_of_prefix_length_le read (List.prefix_append _ _) (Nat.le_of_eq all)) all

theorem framed_moves {op : Op} (framed : Framed messages s) (moves : Moves s op s') : Framed messages s' := by
  obtain ⟨outgoing, within, idle, wrote, incoming, fits, got, stream⟩ := framed
  cases moves with
  | @write message rest n first positive room =>
    have sofar : s.totlen ≤ message.length := within message (by rw [first]; rfl)
    refine ⟨outgoing, ?_, ?_, wrote, incoming, fits, got, ?_⟩
    · intro other head
      rw [first] at head
      cases head
      show s.totlen + n ≤ message.length
      omega
    · intro empty
      rw [first] at empty
      cases empty
    · rw [first] at stream ⊢
      simp only [List.head?_cons, Option.getD_some] at stream ⊢
      rw [← List.append_assoc, stream, List.take_add, List.append_assoc]
  | @wrote message rest first all =>
    obtain ⟨restIs, more⟩ := drop_first (outgoing ▸ first)
    refine ⟨?_, fun _ _ => Nat.zero_le _, fun _ => rfl, ?_, incoming, fits, got, ?_⟩
    · simpa using restIs
    · simp only [List.length_append, List.length_singleton, more, List.map_append, List.map_singleton, ← wrote]
    · rw [first, all] at stream
      simp only [List.head?_cons, Option.getD_some, List.take_length] at stream
      simp [more, stream]
  | @read count n rest first positive room there =>
    refine ⟨outgoing, within, idle, wrote, incoming, ?_, got, ?_⟩
    · intro other head
      have sofar := fits other head
      rw [first] at head
      cases head
      simp only [List.length_append, List.length_take]
      omega
    · rw [← stream, List.append_assoc, List.append_assoc, List.append_assoc, List.take_append_drop]
  | @got count rest first all =>
    cases left : messages.drop s.got.length with
    | nil =>
      rw [incoming, left] at first
      cases first
    | cons message later =>
      obtain ⟨laterIs, more⟩ := drop_first left
      rw [incoming, left, List.map_cons] at first
      obtain ⟨rfl, rfl⟩ := List.cons.inj first
      have whole := got_message ⟨outgoing, within, idle, wrote, incoming, fits, got, stream⟩ left all
      refine ⟨outgoing, within, idle, wrote, ?_, fun _ _ => Nat.zero_le _, ?_, ?_⟩
      · simp [laterIs]
      · simp only [List.length_append, List.length_singleton, more, List.map_append, List.map_singleton, ← got, whole]
      · rw [whole] at stream
        simpa [more] using stream

theorem framed_run {ops : List Op} (framed : Framed messages s) (fine : ∀ op ∈ ops, op.Fine)
    (executed : run step s ops = some s') : Framed messages s' := by
  induction ops generalizing s with
  | nil =>
    cases executed
    exact framed
  | cons op ops ih =>
    obtain ⟨mid, stepped, rest⟩ := run_cons_eq_some executed
    obtain ⟨here, later⟩ := List.forall_mem_cons.mp fine
    exact ih (framed_moves framed (step_moves here stepped)) later rest

/-- In any interleaving of the two loops the calls that have returned wrote and read
    the messages, one a call and in order. -/
theorem messages_framed (messages : List (List UInt8)) (ops : List Op) (fine : ∀ op ∈ ops, op.Fine) (s : State)
    (executed : run step (start messages (messages.map List.length)) ops = some s) :
    s.got = (messages.take s.got.length).map (fun message => ((message.length : Int), message)) ∧
      s.wrote = (messages.take s.wrote.length).map (fun message => (message.length : Int)) ∧
      (messages.take s.got.length).flatten ++ s.buf <+: messages.flatten := by
  have kept := framed_run (start_framed messages) fine executed
  exact ⟨kept.got, kept.wrote, (List.prefix_append _ s.pipe).trans (kept.stream ▸ wrote_first kept)⟩

/-- Two messages, the second one on its way while the first is read in parts. -/
theorem messages_framed_two : ∃ s,
    run step (start [[1, 2, 3], [4]] ([[1, 2, 3], [4]].map List.length))
        [.write 2, .read 1, .write 1, .wrote, .write 1, .read 2, .got] = some s ∧
      s.got = ([[1, 2, 3], [4]].take s.got.length).map (fun message => ((message.length : Int), message)) ∧
      s.wrote = ([[1, 2, 3], [4]].take s.wrote.length).map (fun message => (message.length : Int)) ∧
      ([[1, 2, 3], [4]].take s.got.length).flatten ++ s.buf <+: [[1, 2, 3], [4]].flatten := by
  refine ⟨_, rfl, messages_framed [[1, 2, 3], [4]] [.write 2, .read 1, .write 1, .wrote, .write 1, .read 2, .got] ?_ _ rfl⟩
  simp [Op.Fine]

/-! ## The end of the loops -/

/-- The bytes that the two ends have moved and the calls that have returned. -/
def moved (messages : List (List UInt8)) (s : State) : Nat :=
  ((messages.take s.wrote.length).flatten.length + s.totlen + s.wrote.length) +
    ((messages.take s.got.length).flatten.length + s.buf.length + s.got.length)

theorem moved_grows {op : Op} (framed : Framed messages s) (moves : Moves s op s') :
    moved messages s + 1 ≤ moved messages s' := by
  cases moves with
  | write first positive room =>
    simp only [moved]
    omega
  | @wrote message rest first all =>
    obtain ⟨_, more⟩ := drop_first (framed.outgoing ▸ first)
    simp only [moved, all, List.length_append, List.length_singleton, more, List.flatten_append, List.flatten_singleton]
    omega
  | read first positive room there =>
    simp only [moved, List.length_append, List.length_take]
    omega
  | @got count rest first all =>
    cases left : messages.drop s.got.length with
    | nil =>
      rw [framed.incoming, left] at first
      cases first
    | cons message later =>
      obtain ⟨_, more⟩ := drop_first left
      rw [framed.incoming, left, List.map_cons] at first
      obtain ⟨rfl, _⟩ := List.cons.inj first
      simp only [moved, all, List.length_append, List.length_singleton, more, List.flatten_append, List.flatten_singleton,
        List.length_nil]
      omega

theorem moved_le (framed : Framed messages s) : moved messages s ≤ 2 * (messages.flatten.length + messages.length) := by
  have written := (wrote_first framed).length_le
  have read : (messages.take s.got.length).flatten ++ s.buf <+: messages.flatten :=
    (List.prefix_append _ s.pipe).trans (framed.stream ▸ wrote_first framed)
  have taken := read.length_le
  have calls : s.wrote.length ≤ messages.length := by
    have length := congrArg List.length framed.wrote
    simp only [List.length_map, List.length_take] at length
    omega
  have replies : s.got.length ≤ messages.length := by
    have length := congrArg List.length framed.got
    simp only [List.length_map, List.length_take] at length
    omega
  have totlen : (((s.outgoing.head?).getD []).take s.totlen).length = s.totlen := by
    cases queue : s.outgoing with
    | nil => simp [framed.idle queue]
    | cons message rest => simpa using framed.within message (by rw [queue]; rfl)
  simp only [List.length_append, totlen] at written taken
  simp only [moved]
  omega

theorem run_moved {ops : List Op} (framed : Framed messages s) (fine : ∀ op ∈ ops, op.Fine)
    (executed : run step s ops = some s') : moved messages s + ops.length ≤ moved messages s' := by
  induction ops generalizing s with
  | nil =>
    cases executed
    exact Nat.le_refl _
  | cons op ops ih =>
    obtain ⟨mid, stepped, rest⟩ := run_cons_eq_some executed
    obtain ⟨here, later⟩ := List.forall_mem_cons.mp fine
    have moves := step_moves here stepped
    have first := moved_grows framed moves
    have others := ih (framed_moves framed moves) later rest
    rw [List.length_cons]
    omega

/-- Neither end can go on only when everything was written and read. -/
theorem stuck_done (framed : Framed messages s) (stuck : ∀ op, op.Fine → step s op = none) :
    s.outgoing = [] ∧ s.incoming = [] := by
  have written : s.outgoing = [] := by
    cases queue : s.outgoing with
    | nil => rfl
    | cons message rest =>
      have sofar := framed.within message (by rw [queue]; rfl)
      by_cases all : s.totlen = message.length
      · have enabled := stuck .wrote trivial
        simp [step, queue, all] at enabled
      · have enabled := stuck (.write 1) Int.zero_lt_one
        have room : Answers 1 (message.length - s.totlen) := .inr ⟨by decide, by simp; omega⟩
        simp [step, queue, all, room, anetWrite_pass, pass] at enabled
  refine ⟨written, ?_⟩
  cases counts : s.incoming with
  | nil => rfl
  | cons count rest =>
    have sofar := framed.fits count (by rw [counts]; rfl)
    by_cases all : s.buf.length = count
    · have enabled := stuck .got trivial
      simp [step, counts, all] at enabled
    · -- all was written, so what the reader misses is on its way
      have there : 0 < s.pipe.length := by
        have stream := congrArg List.length framed.stream
        have whole : messages.take s.wrote.length = messages :=
          List.take_of_length_le (List.drop_eq_nil_iff.mp (framed.outgoing ▸ written))
        have split := congrArg (fun parts => (List.flatten parts).length) (List.take_append_drop s.got.length messages)
        have missing := framed.incoming
        cases left : messages.drop s.got.length with
        | nil =>
          rw [left, counts] at missing
          cases missing
        | cons message later =>
          rw [left, counts, List.map_cons] at missing
          obtain ⟨rfl, _⟩ := List.cons.inj missing
          rw [left] at split
          simp only [whole, written, framed.idle written, List.head?_nil, Option.getD_none, List.take_nil, List.length_append,
            List.append_nil, List.flatten_append, List.flatten_cons] at stream split
          omega
      have enabled := stuck (.read 1) Int.zero_lt_one
      have room : Answers 1 (min (count - s.buf.length) s.pipe.length) := .inr ⟨by decide, by simp; omega⟩
      simp [step, counts, all, room, anetRead_pass, pass] at enabled

/-- However much the system calls move at a time, the two loops end, and where they end
    every message was written and read. -/
theorem messages_delivered (messages : List (List UInt8)) (ops : List Op) (fine : ∀ op ∈ ops, op.Fine) (s : State)
    (executed : run step (start messages (messages.map List.length)) ops = some s) :
    ops.length ≤ 2 * (messages.flatten.length + messages.length) ∧
      ((∀ op, op.Fine → step s op = none) →
        s.got = messages.map (fun message => ((message.length : Int), message)) ∧
          s.wrote = messages.map fun message => (message.length : Int)) := by
  have kept := framed_run (start_framed messages) fine executed
  refine ⟨?_, ?_⟩
  · have grown := run_moved (start_framed messages) fine executed
    have bound := moved_le kept
    omega
  · intro stuck
    obtain ⟨written, read⟩ := stuck_done kept stuck
    have calls : messages.take s.wrote.length = messages :=
      List.take_of_length_le (List.drop_eq_nil_iff.mp (kept.outgoing ▸ written))
    have replies : messages.take s.got.length = messages :=
      List.take_of_length_le (List.drop_eq_nil_iff.mp (List.map_eq_nil_iff.mp (kept.incoming ▸ read)))
    refine ⟨?_, ?_⟩
    · rw [kept.got, replies]
    · rw [kept.wrote, calls]

/-- The second message is empty: neither loop is entered for it. -/
theorem messages_delivered_two : ∃ s,
    run step (start [[1, 2], []] ([[1, 2], []].map List.length))
        [.write 2, .wrote, .wrote, .read 1, .read 1, .got, .got] = some s ∧
      s.got = [[1, 2], []].map (fun message => ((message.length : Int), message)) ∧
      s.wrote = ([[1, 2], []] : List (List UInt8)).map fun message => (message.length : Int) := by
  refine ⟨_, rfl, (messages_delivered [[1, 2], []] [.write 2, .wrote, .wrote, .read 1, .read 1, .got, .got] ?_ _ rfl).2 ?_⟩
  · simp [Op.Fine]
  · intro op _
    cases op <;> rfl

end

end TcpLearn.Transfers
