import TcpLearn.Tailq
import Mathlib

/-!
# Several tail queues in one memory

The macros of `queue.h` that work at the end of a queue, and what every macro does to
the other queues whose elements share the memory. `Queues L live q` says that the links
of `L` make each head `h` that is `live` the queue `q h`, that these queues have no
element in common and that their heads were initialised. Each macro acts on `q` as a list operation on one of
the queues and leaves the others as they are: `insert_head_queues`,
`insert_tail_queues`, `remove_queues`, `init_queues`, `set_next_queues`. The last
element is found through the pointer that names it (`last_queues`), and following the
links meets the elements in order (`foreach_queues`).
-/
namespace TcpLearn.Tailq

variable {H N : Type} [DecidableEq H] [DecidableEq N]

/-! ## The macros -/

def TAILQ_INIT (L : Links H N) (h : H) : Links H N :=
  { L with
    cell := Function.update L.cell (.first h) none
    last := Function.update L.last h (some (.first h)) }

def TAILQ_NEXT (L : Links H N) (n : N) : Option N := L.cell (.next n)

/-- `TAILQ_NEXT(elm, field) = NULL`. -/
def set_next_null (L : Links H N) (n : N) : Links H N := { L with cell := Function.update L.cell (.next n) none }

/-- The macro stores through `tqh_last`: a head that was never initialised has no result. -/
def TAILQ_INSERT_TAIL (L : Links H N) (h : H) (elm : N) : Option (Links H N) :=
  let L := set_next_null L elm
  let L := { L with prev := Function.update L.prev elm (L.last h) }
  match L.last h with
  | none => none
  | some s =>
    let L := { L with cell := Function.update L.cell s (some elm) }
    some { L with last := Function.update L.last h (some (.next elm)) }

/-- The second pointer of the head or entry whose first pointer is at `s`: the macros
    read one as the other. -/
def second (L : Links H N) : Slot H N → Option (Slot H N)
  | .first h => L.last h
  | .next n => L.prev n

/-- No result stands for following a NULL pointer. -/
def TAILQ_LAST (L : Links H N) (h : H) : Option (Option N) := do
  let last ← L.last h
  let named ← second L last
  some (L.cell named)

/-- The elements that `TAILQ_FOREACH` meets in at most so many steps. -/
def foreach_from (L : Links H N) : Nat → Option N → List N
  | 0, _ => []
  | _ + 1, none => []
  | fuel + 1, some n => n :: foreach_from L fuel (TAILQ_NEXT L n)

def TAILQ_FOREACH (L : Links H N) (h : H) (fuel : Nat) : List N := foreach_from L fuel (TAILQ_FIRST L h)

/-! ## Queues side by side -/

structure Queues (L : Links H N) (live : H → Prop) (q : H → List N) : Prop where
  queue : ∀ h, live h → Queue L h (q h)
  apart : ∀ h k, live h → live k → h ≠ k → ∀ n ∈ q h, n ∉ q k
  ready : ∀ h, live h → q h = [] → L.last h = some (.first h)

omit [DecidableEq H] [DecidableEq N] in
/-- A queue survives changes to the links of other heads and elements. -/
theorem queue_frame {L M : Links H N} {h : H} {xs : List N} (queue : Queue L h xs)
    (first : M.cell (.first h) = L.cell (.first h)) (nexts : ∀ n ∈ xs, M.cell (.next n) = L.cell (.next n))
    (prevs : ∀ n ∈ xs, M.prev n = L.prev n) (last : M.last h = L.last h) : Queue M h xs := by
  obtain ⟨distinct, e, seg, stop, lastIs⟩ := queue
  refine ⟨distinct, e, seg_frame ?_ prevs seg, ?_, fun some => last.trans (lastIs some)⟩
  · intro t read
    rcases reads_cases read with rfl | ⟨n, member, rfl⟩
    · exact first
    · exact nexts n (List.dropLast_subset xs member)
  · rcases seg_end seg with ⟨_, rfl⟩ | ⟨front, n, rfl, rfl⟩
    · exact first.trans stop
    · exact (nexts n (by simp)).trans stop

omit [DecidableEq N] in
/-- The head's own queue is replaced, the others are framed. -/
theorem queues_update {L M : Links H N} {live : H → Prop} {q : H → List N} {h : H} {xs : List N}
    (queues : Queues L live q) (queue : Queue M h xs) (ready : xs = [] → M.last h = some (.first h))
    (apart : ∀ k, live k → k ≠ h → ∀ n ∈ xs, n ∉ q k)
    (firsts : ∀ k, live k → k ≠ h → M.cell (.first k) = L.cell (.first k))
    (nexts : ∀ k, live k → k ≠ h → ∀ n ∈ q k, M.cell (.next n) = L.cell (.next n))
    (prevs : ∀ k, live k → k ≠ h → ∀ n ∈ q k, M.prev n = L.prev n)
    (lasts : ∀ k, live k → k ≠ h → M.last k = L.last k) :
    Queues M (fun k => k = h ∨ live k) (Function.update q h xs) := by
  refine ⟨?_, ?_, ?_⟩
  · intro k liveK
    by_cases same : k = h
    · subst same
      rw [Function.update_self]
      exact queue
    · have old := liveK.resolve_left same
      rw [Function.update_of_ne same]
      exact queue_frame (queues.queue k old) (firsts k old same) (nexts k old same) (prevs k old same) (lasts k old same)
  · intro k l liveK liveL other n member
    by_cases sameK : k = h
    · subst sameK
      rw [Function.update_self] at member
      rw [Function.update_of_ne (Ne.symm other)]
      exact apart l (liveL.resolve_left (Ne.symm other)) (Ne.symm other) n member
    · rw [Function.update_of_ne sameK] at member
      by_cases sameL : l = h
      · subst sameL
        rw [Function.update_self]
        exact fun inside => apart k (liveK.resolve_left sameK) sameK n inside member
      · rw [Function.update_of_ne sameL]
        exact queues.apart k l (liveK.resolve_left sameK) (liveL.resolve_left sameL) other n member
  · intro k liveK empty
    by_cases same : k = h
    · subst same
      rw [Function.update_self] at empty
      exact ready empty
    · have old := liveK.resolve_left same
      rw [Function.update_of_ne same] at empty
      rw [lasts k old same]
      exact queues.ready k old empty

omit [DecidableEq H] [DecidableEq N] in
theorem queues_fewer {L : Links H N} {live live' : H → Prop} {q : H → List N} (fewer : ∀ k, live' k → live k)
    (queues : Queues L live q) : Queues L live' q :=
  ⟨fun k old => queues.queue k (fewer k old), fun k l oldK oldL => queues.apart k l (fewer k oldK) (fewer l oldL),
    fun k old => queues.ready k (fewer k old)⟩

omit [DecidableEq H] [DecidableEq N] in
/-- The last pointer of an initialised head: where the queue ends. -/
theorem queues_last {L : Links H N} {live : H → Prop} {q : H → List N} (queues : Queues L live q) {h : H}
    (liveH : live h) : ∃ e, Seg L (.first h) (q h) e ∧ L.cell e = none ∧ L.last h = some e := by
  obtain ⟨_, e, seg, stop, lastIs⟩ := queues.queue h liveH
  refine ⟨e, seg, stop, ?_⟩
  by_cases empty : q h = []
  · rw [empty] at seg
    cases seg
    exact queues.ready h liveH empty
  · exact lastIs empty

omit [DecidableEq H] [DecidableEq N] in
/-- The pointer a queue ends at is its head's or one of its elements'. -/
theorem end_inside {L : Links H N} {h : H} {xs : List N} {e : Slot H N} (seg : Seg L (.first h) xs e) :
    e = .first h ∨ ∃ n ∈ xs, e = .next n := by
  rcases seg_end seg with ⟨_, same⟩ | ⟨front, n, rfl, same⟩
  · exact .inl same
  · exact .inr ⟨n, by simp, same⟩

/-! ## What the macros do -/

section
variable {L : Links H N} {live : H → Prop} {q : H → List N} {h : H} {n : N}

/-- The element stands in none of the queues. -/
def Outside (live : H → Prop) (q : H → List N) (n : N) : Prop := ∀ k, live k → n ∉ q k

/-- An element of none of the queues may be changed in any way. -/
theorem set_next_queues (queues : Queues L live q) (outside : Outside live q n) :
    Queues (set_next_null L n) live q := by
  refine ⟨?_, queues.apart, queues.ready⟩
  intro k old
  refine queue_frame (queues.queue k old) ?_ ?_ (fun _ _ => rfl) rfl
  · simp [set_next_null]
  · intro m member
    have ne : m ≠ n := fun same => outside k old (same ▸ member)
    simp [set_next_null, ne]

/-- A head that is initialised becomes live, whatever it held. -/
theorem init_queues (queues : Queues L live q) (h : H) :
    Queues (TAILQ_INIT L h) (fun k => k = h ∨ live k) (Function.update q h []) := by
  refine queues_update queues ?_ ?_ ?_ ?_ ?_ ?_ ?_
  · refine ⟨List.nodup_nil, .first h, rfl, ?_, fun some => absurd rfl some⟩
    exact Function.update_self _ _ _
  · exact fun _ => Function.update_self _ _ _
  · intro k _ _ m member
    exact absurd member List.not_mem_nil
  · intro k _ other
    simp [TAILQ_INIT, other]
  · intro k _ _ m _
    simp [TAILQ_INIT]
  · exact fun _ _ _ _ _ => rfl
  · exact fun k _ other => Function.update_of_ne other _ _

theorem insert_head_queues (queues : Queues L live q) (liveH : live h) (outside : Outside live q n) :
    Queues (TAILQ_INSERT_HEAD L h n) live (Function.update q h (n :: q h)) := by
  have first := queue_first (queues.queue h liveH)
  refine queues_fewer (fun _ old => Or.inr old) (queues_update queues (insert_head_queue (queues.queue h liveH) (outside h liveH))
    (fun none => by cases none) ?_ ?_ ?_ ?_ ?_)
  · intro k old other m member
    rcases List.mem_cons.mp member with rfl | inside
    · exact outside k old
    · exact queues.apart h k liveH old (Ne.symm other) m inside
  · intro k _ other
    simp only [TAILQ_INSERT_HEAD]
    split <;> simp [other]
  · intro k old other m member
    have ne : m ≠ n := fun same => outside k old (same ▸ member)
    simp only [TAILQ_INSERT_HEAD]
    split <;> simp [ne]
  · intro k old other m member
    have ne : m ≠ n := fun same => outside k old (same ▸ member)
    simp only [TAILQ_INSERT_HEAD, Function.update_self]
    cases named : L.cell (.first h) with
    | none => simp [ne]
    | some l =>
      have inside : l ∈ q h := List.mem_of_mem_head? (by rw [← first, TAILQ_FIRST, named]; rfl)
      have apart : m ≠ l := fun same => queues.apart h k liveH old (Ne.symm other) l inside (same ▸ member)
      simp [ne, apart]
  · intro k _ other
    simp only [TAILQ_INSERT_HEAD]
    split <;> simp [other]

theorem insert_tail_queues (queues : Queues L live q) (liveH : live h) (outside : Outside live q n) :
    ∃ M, TAILQ_INSERT_TAIL L h n = some M ∧ Queues M live (Function.update q h (q h ++ [n])) := by
  obtain ⟨e, seg, stop, last⟩ := queues_last queues liveH
  have ends := end_inside seg
  have unlike : e ≠ .next n := by
    rintro rfl
    rcases ends with same | ⟨m, member, same⟩
    · cases same
    · cases same
      exact outside h liveH member
  refine ⟨_, by simp only [TAILQ_INSERT_TAIL, set_next_null, last]; rfl, ?_⟩
  have foreign : ∀ k, live k → k ≠ h → e ≠ .first k ∧ ∀ m ∈ q k, e ≠ .next m := by
    intro k old other
    rcases ends with rfl | ⟨m, member, rfl⟩
    · exact ⟨by simp [Ne.symm other], by simp⟩
    · refine ⟨by simp, ?_⟩
      rintro l inside ⟨⟩
      exact queues.apart h k liveH old (Ne.symm other) m member inside
  refine queues_fewer (fun _ old => Or.inr old)
    (queues_update queues ?_ (fun none => by simp at none) ?_ ?_ ?_ ?_ ?_)
  · have distinct := (queues.queue h liveH).nodup
    refine ⟨?_, .next n, ?_, ?_, fun _ => Function.update_self _ _ _⟩
    · refine List.nodup_append.mpr ⟨distinct, List.nodup_singleton n, ?_⟩
      intro m member l single
      rw [List.mem_singleton.mp single]
      rintro rfl
      exact outside h liveH member
    · refine seg_append.mpr ⟨e, seg_frame ?_ ?_ seg, ?_, ?_, rfl⟩
      · intro t read
        have notEnd : t ≠ e := fun same => slot_unread seg distinct (same ▸ read)
        have notNew : t ≠ .next n := by
          rintro rfl
          rcases reads_cases read with same | ⟨m, member, same⟩
          · cases same
          · cases same
            exact outside h liveH (List.dropLast_subset _ member)
        simp [notEnd, notNew]
      · intro m member
        have ne : m ≠ n := fun same => outside h liveH (same ▸ member)
        simp [ne]
      · simp
      · simp
    · simp [Ne.symm unlike]
  · intro k old other m member
    rcases List.mem_append.mp member with inside | new
    · exact queues.apart h k liveH old (Ne.symm other) m inside
    · rw [List.mem_singleton.mp new]
      exact outside k old
  · intro k old other
    simp [Ne.symm (foreign k old other).1]
  · intro k old other m member
    have ne : m ≠ n := fun same => outside k old (same ▸ member)
    simp [Ne.symm ((foreign k old other).2 m member), ne]
  · intro k old other m member
    have ne : m ≠ n := fun same => outside k old (same ▸ member)
    simp [ne]
  · intro k _ other
    simp [other]

/-- What `TAILQ_REMOVE` leaves alone: all but one pointer to an element, the back link of
    the next element, and the last pointer of the head. -/
theorem remove_frame {M : Links H N} (removed : TAILQ_REMOVE L h (some n) = some M) : ∃ s, L.prev n = some s ∧
    (∀ t, t ≠ s → M.cell t = L.cell t) ∧ (∀ m, L.cell (.next n) ≠ some m → M.prev m = L.prev m) ∧
      ∀ k, k ≠ h → M.last k = L.last k := by
  rw [TAILQ_REMOVE] at removed
  cases named : L.prev n with
  | none =>
    cases follows : L.cell (.next n) with
    | none => simp [follows, named] at removed
    | some m =>
      by_cases same : n = m
      · subst same
        simp [follows, named] at removed
      · simp [follows, named, Function.update_of_ne same] at removed
  | some s =>
    refine ⟨s, rfl, ?_⟩
    cases follows : L.cell (.next n) with
    | none =>
      simp only [follows, named, Option.some.injEq] at removed
      subst removed
      exact ⟨fun t other => by simp [other], fun m _ => rfl, fun k other => by simp [other]⟩
    | some m =>
      by_cases same : n = m
      · subst same
        simp only [follows, named, Function.update_self, Option.some.injEq] at removed
        subst removed
        refine ⟨fun t other => by simp [other], ?_, fun _ _ => rfl⟩
        intro k ne
        exact Function.update_of_ne (fun same => ne (by rw [same])) _ _
      · simp only [follows, named, Function.update_of_ne same, Option.some.injEq] at removed
        subst removed
        refine ⟨fun t other => by simp [other], ?_, fun _ _ => rfl⟩
        intro k ne
        exact Function.update_of_ne (fun same => ne (by rw [same])) _ _

theorem remove_queues (left : List N) {right : List N} (queues : Queues L live q) (liveH : live h)
    (split : q h = left ++ n :: right) :
    ∃ M, TAILQ_REMOVE L h (some n) = some M ∧ Queues M live (Function.update q h (left ++ right)) := by
  have queue := queues.queue h liveH
  rw [split] at queue
  obtain ⟨M, removed, after⟩ := remove_queue queue
  obtain ⟨s, named, cells, prevs, lasts⟩ := remove_frame removed
  obtain ⟨_, e, seg, _, _⟩ := queue
  obtain ⟨mid, before, _, back, next⟩ := seg_append.mp seg
  cases named.symm.trans back
  have ends := end_inside before
  have member : ∀ m, m = n ∨ m ∈ left ∨ m ∈ right → m ∈ q h := by
    intro m inside
    rw [split]
    simp only [List.mem_append, List.mem_cons]
    tauto
  have foreign : ∀ k, live k → k ≠ h → s ≠ .first k ∧ ∀ m ∈ q k, s ≠ .next m := by
    intro k old other
    rcases ends with rfl | ⟨m, inside, rfl⟩
    · exact ⟨by simp [Ne.symm other], by simp⟩
    · refine ⟨by simp, ?_⟩
      rintro l inK ⟨⟩
      exact queues.apart h k liveH old (Ne.symm other) m (member m (.inr (.inl inside))) inK
  refine ⟨M, removed, queues_fewer (fun _ old => Or.inr old) (queues_update queues after ?_ ?_ ?_ ?_ ?_ fun k _ => lasts k)⟩
  · -- the only element is removed: the head's last pointer becomes the one that named it
    intro empty
    obtain ⟨rfl, rfl⟩ := List.append_eq_nil_iff.mp empty
    obtain ⟨f, single, stop, last⟩ := queues_last queues liveH
    rw [split] at single
    obtain ⟨_, backN, rfl⟩ := single
    simp only [TAILQ_REMOVE, stop, backN, Option.some.injEq] at removed
    subst removed
    simp
  · intro k old other m inside
    refine queues.apart h k liveH old (Ne.symm other) m (member m ?_)
    exact .inr (List.mem_append.mp inside)
  · exact fun k old other => cells _ (foreign k old other).1.symm
  · exact fun k old other m inK => cells _ ((foreign k old other).2 m inK).symm
  · intro k old other m inK
    refine prevs m fun follows => ?_
    cases right with
    | nil =>
      cases next
      obtain ⟨f, whole, stop, _⟩ := queues_last queues liveH
      rw [split] at whole
      obtain ⟨mid', before', _, _, rfl⟩ := seg_append.mp whole
      rw [stop] at follows
      cases follows
    | cons l ls =>
      have same : l = m := Option.some.inj (next.1.symm.trans follows)
      exact queues.apart h k liveH old (Ne.symm other) m (member m (.inr (.inr (by rw [same]; exact List.mem_cons_self))))
        inK

omit [DecidableEq H] [DecidableEq N] in
/-- `TAILQ_LAST` is the last element, and NULL for an empty queue. -/
theorem last_queues (queues : Queues L live q) (liveH : live h) : TAILQ_LAST L h = some (q h).getLast? := by
  obtain ⟨e, seg, stop, last⟩ := queues_last queues liveH
  rcases List.eq_nil_or_concat (q h) with empty | ⟨front, n, whole⟩
  · rw [empty] at seg ⊢
    cases seg
    simp [TAILQ_LAST, last, second, stop]
  · rw [List.concat_eq_append] at whole
    rw [whole] at seg ⊢
    obtain ⟨mid, _, named, back, rfl⟩ := seg_append.mp seg
    simp [TAILQ_LAST, last, second, back, named]

omit [DecidableEq H] [DecidableEq N] in
theorem foreach_segment {e : Slot H N} (stop : L.cell e = none) :
    ∀ (xs : List N) (s : Slot H N), Seg L s xs e → ∀ fuel, xs.length < fuel → foreach_from L fuel (L.cell s) = xs
  | [], s, seg, fuel + 1, _ => by
    cases seg
    rw [stop]
    rfl
  | n :: ns, s, ⟨named, _, rest⟩, fuel + 1, enough => by
    rw [named, foreach_from, TAILQ_NEXT, foreach_segment stop ns (.next n) rest fuel (by simpa using enough)]

omit [DecidableEq H] [DecidableEq N] in
/-- Following the links meets the elements of the queue in order. -/
theorem foreach_queues (queues : Queues L live q) (liveH : live h) {fuel : Nat} (enough : (q h).length < fuel) :
    TAILQ_FOREACH L h fuel = q h := by
  obtain ⟨e, seg, stop, _⟩ := queues_last queues liveH
  exact foreach_segment stop (q h) (.first h) seg fuel enough

end

end TcpLearn.Tailq
