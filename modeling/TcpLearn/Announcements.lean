import TcpLearn.Client

/-!
# What a client announces

Frames cut into chunks in any way and passed to one client with a delegate. The
claim of the protocol is that each chunk makes the client announce the frames it
completes. `OnNewData` compares once for a chunk, and with a counter that misses
chunks ending at the end of an mbuf, so this holds for some ways to cut only; which
ones depends on whether the delegate removes what is announced (`announced_iff`).
-/
namespace TcpLearn.Announcements
open TcpLearn.Memory TcpLearn.ConBuf TcpLearn.Chain TcpLearn.Contexts TcpLearn.Framing TcpLearn.Client

/-- The calls of `DataAvailable` while each of the chunks is passed to `OnNewData`. -/
def announcements (delegate_ : ImageDelegate) : World → Connection → List (List UInt8) → Option (List (List Nat))
  | _, _, [] => some []
  | w, con_, chunk :: chunks => do
    let (w, con_, calls) ← OnNewData (some delegate_) w con_ chunk
    let more ← announcements delegate_ w con_ chunks
    some (calls :: more)

inductive Delegate where
  /-- The delegate leaves the buffer alone. -/
  | leaves
  /-- The delegate removes the announced number of bytes. -/
  | removes (reader : Reader)

def Delegate.code : Delegate → ImageDelegate
  | .leaves => leaving
  | .removes reader => removing reader

/-- The bytes of the chunks that do not end at a multiple of the capacity, `a` bytes
    having been written before. -/
def counted (cap : Nat) : Nat → List (List UInt8) → Nat
  | _, [] => 0
  | a, chunk :: chunks =>
    (if cap ∣ a + chunk.length then 0 else chunk.length) + counted cap (a + chunk.length) chunks

/-- From some chunk on each chunk completes one frame, all of one size, and the
    bytes counted up to that chunk are more than four and cover a frame. -/
def Uniform (cap : Nat) (sizes : List Nat) (chunks : List (List UInt8)) : Prop :=
  ∃ quiet later f, completed sizes 0 chunks = List.replicate quiet [] ++ List.replicate later [f] ∧
    (later ≠ 0 → 4 < counted cap 0 (chunks.take (quiet + 1)) ∧ f ≤ counted cap 0 (chunks.take (quiet + 1)))

/-- Every chunk stops short of the end of an mbuf, completes at most one frame, and
    goes past that frame if its payload is empty. `a` bytes have been written before,
    `arrived` of them are of the frames of these sizes. -/
def Apart (cap : Nat) : Nat → List Nat → Nat → List (List UInt8) → Prop
  | _, _, _, [] => True
  | a, sizes, arrived, chunk :: chunks =>
    let got := arrived + chunk.length
    let n := finished sizes got
    ¬ cap ∣ a + chunk.length ∧ n ≤ 1 ∧ (n = 1 → sizes.head? = some 4 → 4 < got) ∧
      Apart cap (a + chunk.length) (sizes.drop n) (got - (sizes.take n).sum) chunks

def Condition (cap : Nat) (sizes : List Nat) (chunks : List (List UInt8)) : Delegate → Prop
  | .leaves => Uniform cap sizes chunks
  | .removes _ => Apart cap 0 sizes 0 chunks

/-! ## A delegate that leaves the buffer alone -/

/-- What is announced while all bytes stay: the first frame, again and again. -/
def shown (cap f : Nat) : Nat → Nat → List (List UInt8) → List (List Nat)
  | _, _, [] => []
  | a, c, chunk :: chunks =>
    let c := c + if cap ∣ a + chunk.length then 0 else chunk.length
    (if 4 < c ∧ f ≤ c then [f] else []) :: shown cap f (a + chunk.length) c chunks

/-- Where the bytes end moves on with every chunk. -/
theorem aligned_append {cap off a : Nat} {bs : List UInt8} (aligned : off + bs.length ≡ a [MOD cap])
    (chunk : List UInt8) : off + (bs ++ chunk).length ≡ a + chunk.length [MOD cap] := by
  rw [List.length_append, ← Nat.add_assoc]
  exact aligned.add_right _

theorem leaving_announcements {cap off a c : Nat} {w : World} {con : Connection} {bs payload tail : List UInt8}
    {chunks : List (List UInt8)} (offset : w.ctx.mbuf_offset = cap) (holds : Holds cap off (queued con) bs)
    (aligned : off + bs.length ≡ a [MOD cap]) (nonempty : ∀ chunk ∈ chunks, chunk ≠ [])
    (cut : bs ++ chunks.flatten = frame payload ++ tail) (small : (frame payload ++ tail).length < 2 ^ 31)
    (size_is : con.data_size = (c : Int)) (within : c ≤ bs.length) :
    announcements leaving w con chunks = some (shown cap (size payload) a c chunks) := by
  induction chunks generalizing w con bs a c with
  | nil => rfl
  | cons chunk chunks ih =>
    rw [List.flatten_cons, ← List.append_assoc] at cut
    obtain ⟨w', con', c', offset', holds', _, c'Is, within', size', executed⟩ := OnNewData_spec (some leaving) offset
      holds aligned (nonempty chunk (by simp)) ⟨chunks.flatten, cut⟩ small size_is within
    have rest := ih offset' holds' (aligned_append aligned chunk) (fun k member => nonempty k (by simp [member])) cut
      size' within'
    rw [announcements, executed, shown, ← c'Is]
    by_cases enough : 4 < c' ∧ size payload ≤ c'
    · have told : NotifyDataAvailable (some leaving) w' con' (size payload) = some (w', con', [size payload]) := rfl
      simp [enough, told, rest]
    · simp [enough, rest]

theorem shown_on {cap f a c : Nat} (enough : 4 < c ∧ f ≤ c) (chunks : List (List UInt8)) :
    shown cap f a c chunks = List.replicate chunks.length [f] := by
  induction chunks generalizing a c with
  | nil => rfl
  | cons chunk chunks ih =>
    have more : 4 < c + (if cap ∣ a + chunk.length then 0 else chunk.length) ∧
        f ≤ c + (if cap ∣ a + chunk.length then 0 else chunk.length) := by omega
    rw [shown, if_pos more, ih more, List.length_cons, List.replicate_succ]

/-- Once something is announced, it is announced with every chunk. -/
theorem shown_split (cap f a c : Nat) (chunks : List (List UInt8)) :
    ∃ quiet later, shown cap f a c chunks = List.replicate quiet [] ++ List.replicate later [f] ∧
      (later ≠ 0 → 4 < c + counted cap a (chunks.take (quiet + 1)) ∧
        f ≤ c + counted cap a (chunks.take (quiet + 1))) := by
  induction chunks generalizing a c with
  | nil => exact ⟨0, 0, rfl, fun some => absurd rfl some⟩
  | cons chunk chunks ih =>
    set c' := c + if cap ∣ a + chunk.length then 0 else chunk.length with c'Is
    by_cases enough : 4 < c' ∧ f ≤ c'
    · refine ⟨0, chunks.length + 1, ?_, ?_⟩
      · rw [shown, ← c'Is, if_pos enough, shown_on enough, List.replicate_succ]
        rfl
      · intro _
        simpa [counted, ← c'Is] using enough
    · obtain ⟨quiet, later, same, covered⟩ := ih (a + chunk.length) c'
      refine ⟨quiet + 1, later, ?_, ?_⟩
      · rw [shown, ← c'Is, if_neg enough, same, List.replicate_succ]
        rfl
      · intro some
        rw [List.take_succ_cons, counted, ← Nat.add_assoc, ← c'Is]
        exact covered some

/-- Before the first frame is complete too few bytes are counted, afterwards enough. -/
theorem shown_of_uniform {cap a c f arrived quiet later g : Nat} {sizes : List Nat} {chunks : List (List UInt8)}
    (within : c ≤ arrived)
    (split : completed (f :: sizes) arrived chunks = List.replicate quiet [] ++ List.replicate later [g])
    (covered : later ≠ 0 → 4 < c + counted cap a (chunks.take (quiet + 1)) ∧
      g ≤ c + counted cap a (chunks.take (quiet + 1))) :
    shown cap f a c chunks = completed (f :: sizes) arrived chunks := by
  induction quiet generalizing a c arrived chunks with
  | zero =>
    cases chunks with
    | nil => rfl
    | cons chunk chunks =>
      have length := congrArg List.length split
      rw [completed_length] at length
      simp only [List.replicate_zero, List.nil_append, List.length_replicate, List.length_cons] at length split
      subst length
      have same : g = f := by
        have first := congrArg List.head? split
        rw [completed, List.replicate_succ] at first
        simp only [List.head?_cons, Option.some.injEq] at first
        have one := congrArg List.head? first
        cases n : finished (f :: sizes) (arrived + chunk.length) with
        | zero => simp [n] at one
        | succ n' => simpa [n] using one.symm
      subst same
      have enough := covered (by simp)
      simp only [Nat.zero_add, List.take_succ_cons, List.take_zero, counted, Nat.add_zero] at enough
      rw [split, shown, if_pos enough, shown_on enough, List.replicate_succ]
  | succ quiet ih =>
    cases chunks with
    | nil => simp [completed, List.replicate_succ] at split
    | cons chunk chunks =>
      rw [completed, List.replicate_succ, List.cons_append, List.cons.injEq] at split
      obtain ⟨none, rest⟩ := split
      have unfinished : finished (f :: sizes) (arrived + chunk.length) = 0 := by
        simpa [List.take_eq_nil_iff] using none
      have early := finished_eq_zero.mp unfinished
      rw [unfinished, List.drop_zero, List.take_zero, List.sum_nil, Nat.sub_zero] at rest
      rw [List.take_succ_cons, counted, ← Nat.add_assoc] at covered
      set c' := c + if cap ∣ a + chunk.length then 0 else chunk.length with c'Is
      have within' : c' ≤ arrived + chunk.length := by
        rw [c'Is]
        split_ifs <;> omega
      rw [shown, ← c'Is, if_neg (by omega), completed, unfinished, List.take_zero, List.drop_zero, List.sum_nil,
        Nat.sub_zero, ih within' rest covered]

theorem shown_iff (cap f : Nat) (sizes : List Nat) (chunks : List (List UInt8)) :
    shown cap f 0 0 chunks = completed (f :: sizes) 0 chunks ↔ Uniform cap (f :: sizes) chunks := by
  constructor
  · intro same
    obtain ⟨quiet, later, split, covered⟩ := shown_split cap f 0 0 chunks
    rw [Nat.zero_add] at covered
    exact ⟨quiet, later, f, same ▸ split, covered⟩
  · rintro ⟨quiet, later, g, split, covered⟩
    rw [← Nat.zero_add (counted cap 0 (chunks.take (quiet + 1)))] at covered
    exact shown_of_uniform (Nat.le_refl 0) split covered

/-! ## A delegate that removes what is announced -/

/-- What makes each chunk announce the frames it completes, `c` bytes being counted. -/
def Counts (cap : Nat) : Nat → List Nat → Nat → Nat → List (List UInt8) → Prop
  | _, _, _, _, [] => True
  | a, sizes, arrived, c, chunk :: chunks =>
    let got := arrived + chunk.length
    let n := finished sizes got
    let c := c + if cap ∣ a + chunk.length then 0 else chunk.length
    n ≤ 1 ∧ (n = 1 → 4 < c ∧ (sizes.take n).sum ≤ c) ∧
      Counts cap (a + chunk.length) (sizes.drop n) (got - (sizes.take n).sum) (c - (sizes.take n).sum) chunks

/-- The delegate is told of the frame at the front and removes it. -/
theorem removing_told {cap off a : Nat} {w : World} {con : Connection} {bs : List UInt8} {c : Nat} (reader : Reader)
    {f : Nat} (offset : w.ctx.mbuf_offset = cap) (holds : Holds cap off (queued con) bs) (attached : con.info ≠ none)
    (aligned : off + bs.length ≡ a [MOD cap]) (size_is : con.data_size = (c : Int)) (within : c ≤ bs.length)
    (enough : f ≤ c) :
    ∃ w' con' off', NotifyDataAvailable (some (removing reader)) w con f = some (w', con', [f]) ∧
      w'.ctx.mbuf_offset = cap ∧ Holds cap off' (queued con') (bs.drop f) ∧
      off' + (bs.drop f).length ≡ a [MOD cap] ∧ con'.data_size = ((c - f : Nat) : Int) := by
  obtain ⟨w', con', executed⟩ := reader.exactly w con f holds attached (by omega) (by omega)
  obtain ⟨off', k, same, inside, offset', holds', moved, _, size'⟩ := read_all_spec executed holds attached
  have kIs : k = f := by omega
  subst kIs
  refine ⟨w', con', off', by simp [NotifyDataAvailable, removing, executed], offset'.trans offset, holds', ?_, ?_⟩
  · have back : off + k + (bs.drop k).length = off + bs.length := by
      rw [List.length_drop]
      omega
    exact (moved.add_right _).trans (back ▸ aligned)
  · rw [size', size_is]
    omega

/-- The announcements of a chunk, and of the chunks after it. -/
theorem announcements_cons {delegate_ : ImageDelegate} {w w' : World} {con con' : Connection} {chunk : List UInt8}
    {calls first : List Nat} {rest : List (List Nat)} {chunks : List (List UInt8)}
    (executed : OnNewData (some delegate_) w con chunk = some (w', con', calls)) :
    announcements delegate_ w con (chunk :: chunks) = some (first :: rest) ↔
      calls = first ∧ announcements delegate_ w' con' chunks = some rest := by
  simp only [announcements, executed, Option.bind_eq_bind, Option.bind_some, Option.bind_eq_some_iff, Option.some.injEq,
    List.cons.injEq]
  constructor
  · rintro ⟨more, executed', rfl, rfl⟩
    exact ⟨rfl, executed'⟩
  · rintro ⟨rfl, executed'⟩
    exact ⟨rest, executed', rfl, rfl⟩

theorem removing_iff {cap off a c : Nat} {w : World} {con : Connection} {bs : List UInt8} (reader : Reader)
    {payloads chunks : List (List UInt8)} (offset : w.ctx.mbuf_offset = cap) (holds : Holds cap off (queued con) bs)
    (aligned : off + bs.length ≡ a [MOD cap]) (nonempty : ∀ chunk ∈ chunks, chunk ≠ [])
    (cut : bs ++ chunks.flatten = payloads.flatMap frame) (small : (payloads.flatMap frame).length < 2 ^ 31)
    (size_is : con.data_size = (c : Int)) (within : c ≤ bs.length) :
    announcements (removing reader) w con chunks = some (completed (payloads.map size) bs.length chunks) ↔
      Counts cap a (payloads.map size) bs.length c chunks := by
  induction chunks generalizing w con bs a c off payloads with
  | nil => simp [announcements, completed, Counts]
  | cons chunk chunks ih =>
    have later : ∀ k ∈ chunks, k ≠ [] := fun k member => nonempty k (by simp [member])
    obtain ⟨payload, others, rfl⟩ : ∃ payload others, payloads = payload :: others := by
      apply List.exists_cons_of_ne_nil
      rintro rfl
      have := nonempty chunk (by simp)
      simp at cut
      exact this cut.2.1
    rw [List.flatten_cons, ← List.append_assoc] at cut
    have arrived : bs ++ chunk <+: frame payload ++ others.flatMap frame := ⟨chunks.flatten, by simpa using cut⟩
    obtain ⟨w', con', c', offset', holds', attached, c'Is, within', size', executed⟩ :=
      OnNewData_spec (some (removing reader)) offset holds aligned (nonempty chunk (by simp)) arrived
        (by simpa using small) size_is within
    have aligned' := aligned_append aligned chunk
    have got : (bs ++ chunk).length = bs.length + chunk.length := List.length_append
    rw [completed, Counts, ← c'Is, ← got]
    set n := finished ((payload :: others).map size) (bs ++ chunk).length with nIs
    have taken_length : (((payload :: others).map size).take n).length = n :=
      List.length_take_of_le (finished_length _ _)
    by_cases enough : 4 < c' ∧ size payload ≤ c'
    · obtain ⟨w'', con'', off'', told, offset'', holds'', aligned'', size''⟩ :=
        removing_told reader offset' holds' attached aligned' size' within' enough.2
      rw [if_pos enough, told] at executed
      rw [announcements_cons executed]
      by_cases one : n = 1
      · have first : ((payload :: others).map size).take 1 = [size payload] := rfl
        have rest : ((payload :: others).map size).drop 1 = others.map size := rfl
        have left : (bs ++ chunk).length - size payload = ((bs ++ chunk).drop (size payload)).length :=
          List.length_drop.symm
        have cut' : (bs ++ chunk).drop (size payload) ++ chunks.flatten = others.flatMap frame :=
          drop_frame cut (by omega)
        have small' : (others.flatMap frame).length < 2 ^ 31 := by
          rw [List.flatMap_cons, List.length_append] at small
          omega
        have tail := ih offset'' holds'' aligned'' later cut' small' size'' (by rw [List.length_drop]; omega)
        rw [one, first, rest, List.sum_singleton, left, tail]
        simp [enough]
      · have some : 1 ≤ n := by
          rw [nIs, List.map_cons, finished, if_pos (by omega)]
          exact Nat.le_add_left 1 _
        constructor
        · rintro ⟨same, _⟩
          have length := congrArg List.length same
          rw [taken_length, List.length_singleton] at length
          exact absurd length.symm one
        · rintro ⟨few, _⟩
          omega
    · rw [if_neg enough] at executed
      rw [announcements_cons executed]
      by_cases none : n = 0
      · have tail := ih offset' holds' aligned' later cut small size' within'
        rw [none, List.take_zero, List.drop_zero, List.sum_nil, Nat.sub_zero, Nat.sub_zero, tail]
        simp
      · constructor
        · rintro ⟨same, _⟩
          have length := congrArg List.length same
          rw [taken_length, List.length_nil] at length
          exact absurd length.symm none
        · rintro ⟨few, covers, _⟩
          have one : n = 1 := by omega
          rw [one] at covers
          exact absurd (by simpa using covers rfl) enough

/-- The last frame is announced only if no byte before its end was missed. -/
theorem counts_all {cap a arrived c : Nat} {sizes : List Nat} {chunks : List (List UInt8)}
    (counts : Counts cap a sizes arrived c chunks) (some : chunks ≠ []) (nonempty : ∀ chunk ∈ chunks, chunk ≠ [])
    (total : arrived + chunks.flatten.length = sizes.sum) (within : c ≤ arrived) :
    c = arrived ∧ Apart cap a sizes arrived chunks := by
  induction chunks generalizing a arrived c sizes with
  | nil => exact absurd rfl some
  | cons chunk chunks ih =>
    obtain ⟨few, covers, rest⟩ := counts
    have length : 0 < chunk.length := List.length_pos_of_ne_nil (nonempty chunk (by simp))
    rw [List.flatten_cons, List.length_append] at total
    have arrived_sum := finished_sum sizes (arrived + chunk.length)
    have parts : (sizes.take (finished sizes (arrived + chunk.length))).sum +
        (sizes.drop (finished sizes (arrived + chunk.length))).sum = sizes.sum := by
      rw [← List.sum_append, List.take_append_drop]
    set n := finished sizes (arrived + chunk.length) with nIs
    set c' := c + if cap ∣ a + chunk.length then 0 else chunk.length with c'Is
    have within' : c' ≤ arrived + chunk.length := by
      rw [c'Is]
      split_ifs <;> omega
    have covered : (sizes.take n).sum ≤ c' := by
      by_cases one : n = 1
      · exact (covers one).2
      · have none : n = 0 := by omega
        simp [none]
    -- Nothing was missed up to this chunk, and this chunk is counted.
    obtain ⟨all, apart⟩ : c' = arrived + chunk.length ∧ Apart cap (a + chunk.length) (sizes.drop n)
        (arrived + chunk.length - (sizes.take n).sum) chunks := by
      by_cases last : chunks = []
      · subst last
        have every : n = sizes.length := finished_all (by simpa using total.ge)
        rw [every, List.take_length] at covered
        refine ⟨?_, trivial⟩
        simp only [List.flatten_nil, List.length_nil] at total
        omega
      · obtain ⟨same, apart⟩ := ih rest last (fun k member => nonempty k (by simp [member])) (by omega) (by omega)
        exact ⟨by omega, apart⟩
    have aligned : ¬ cap ∣ a + chunk.length := by
      intro atEnd
      rw [if_pos atEnd] at c'Is
      omega
    rw [if_neg aligned] at c'Is
    exact ⟨by omega, aligned, few, fun one _ => by have := (covers one).1; omega, apart⟩

theorem counts_of_apart {cap a arrived : Nat} {sizes : List Nat} {chunks : List (List UInt8)}
    (headers : ∀ f ∈ sizes, 4 ≤ f) (apart : Apart cap a sizes arrived chunks) :
    Counts cap a sizes arrived arrived chunks := by
  induction chunks generalizing a arrived sizes with
  | nil => trivial
  | cons chunk chunks ih =>
    obtain ⟨aligned, few, past, rest⟩ := apart
    rw [Counts, if_neg aligned]
    refine ⟨few, fun one => ⟨?_, finished_sum _ _⟩, ih (fun f member => headers f (List.mem_of_mem_drop member)) rest⟩
    cases sizes with
    | nil => simp [finished] at one
    | cons f fs =>
      have complete : f ≤ arrived + chunk.length := by
        by_contra early
        rw [finished_eq_zero.mpr (by omega)] at one
        omega
      have header := headers f (by simp)
      by_cases empty : f = 4
      · exact past one (by simp [empty])
      · omega

theorem counts_iff {cap : Nat} {sizes : List Nat} {chunks : List (List UInt8)} (headers : ∀ f ∈ sizes, 4 ≤ f)
    (nonempty : ∀ chunk ∈ chunks, chunk ≠ []) (total : chunks.flatten.length = sizes.sum) :
    Counts cap 0 sizes 0 0 chunks ↔ Apart cap 0 sizes 0 chunks := by
  constructor
  · intro counts
    by_cases none : chunks = []
    · rw [none]
      trivial
    · exact (counts_all counts none nonempty (by omega) (Nat.le_refl 0)).2
  · exact counts_of_apart headers

/-! ## Both -/

/-- Each chunk announces the frames it completes exactly when the chunks are cut as
    the delegate needs it. -/
theorem announced_iff (w : World) (positive : 1 ≤ w.ctx.mbuf_offset) (payloads chunks : List (List UInt8))
    (nonempty : ∀ chunk ∈ chunks, chunk ≠ []) (cut : chunks.flatten = payloads.flatMap frame)
    (small : (payloads.flatMap frame).length < 2 ^ 31) (delegate_ : Delegate) :
    announcements delegate_.code w ⟨0, none, some w.ctx.block⟩ chunks = some (completed (payloads.map size) 0 chunks) ↔
      Condition w.ctx.mbuf_offset (payloads.map size) chunks delegate_ := by
  have start : Holds w.ctx.mbuf_offset 0 (queued ⟨0, none, some w.ctx.block⟩) [] := holds_nil positive
  cases delegate_ with
  | leaves =>
    cases payloads with
    | nil =>
      have none : chunks = [] := by
        apply List.eq_nil_iff_forall_not_mem.mpr
        intro chunk member
        apply nonempty chunk member
        exact List.flatten_eq_nil_iff.mp cut chunk member
      subst none
      exact iff_of_true rfl ⟨0, 0, 0, rfl, fun some => absurd rfl some⟩
    | cons payload others =>
      have joined : [] ++ chunks.flatten = frame payload ++ others.flatMap frame := by simpa using cut
      have executed := leaving_announcements rfl start rfl nonempty joined (by simpa using small) rfl (Nat.le_refl 0)
      rw [Delegate.code, executed, Option.some.injEq]
      exact shown_iff _ _ _ _
  | removes reader =>
    have headers : ∀ f ∈ payloads.map size, 4 ≤ f := by
      intro f member
      obtain ⟨payload, _, rfl⟩ := List.mem_map.mp member
      exact Nat.le_add_left 4 _
    refine Iff.trans ?_ (counts_iff headers nonempty (by rw [cut, frames_length]))
    exact removing_iff reader rfl start rfl nonempty cut small rfl (Nat.le_refl 0)

/-- The context of the server. -/
def server_context : World := context_new (no_blocks fun _ _ => 0) mbuf_size

theorem announced_frame_by_frame :
    announcements (Delegate.removes one_by_one).code server_context ⟨0, none, some server_context.ctx.block⟩
        [frame [1], frame [2]] = some (completed ([[1], [2]].map size) 0 [frame [1], frame [2]]) ↔
      Condition server_context.ctx.mbuf_offset ([[1], [2]].map size) [frame [1], frame [2]] (.removes one_by_one) :=
  announced_iff server_context (by decide) [[1], [2]] [frame [1], frame [2]] (by decide) rfl (by decide) _

/-- Two frames in one chunk, of which one is announced. -/
theorem two_frames_announced_once :
    [frame [1] ++ frame [2]].flatten = [[1], [2]].flatMap frame ∧
      completed ([[1], [2]].map size) 0 [frame [1] ++ frame [2]] = [[5, 5]] ∧
      announcements Delegate.leaves.code server_context ⟨0, none, some server_context.ctx.block⟩
        [frame [1] ++ frame [2]] ≠ some (completed ([[1], [2]].map size) 0 [frame [1] ++ frame [2]]) ∧
      announcements (Delegate.removes one_by_one).code server_context ⟨0, none, some server_context.ctx.block⟩
        [frame [1] ++ frame [2]] ≠ some (completed ([[1], [2]].map size) 0 [frame [1] ++ frame [2]]) :=
  ⟨rfl, by decide, by decide, by decide⟩

end TcpLearn.Announcements
