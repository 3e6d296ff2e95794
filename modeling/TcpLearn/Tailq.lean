import Mathlib.Data.List.Nodup
import Mathlib.Logic.Function.Basic

/-!
# Intrusive tail queues

The tail queue macros of `queue.h` over the links they read and write. An
element carries `tqe_next` and `tqe_prev`, a head carries `tqh_first` and
`tqh_last`; `tqe_prev` and `tqh_last` hold the address of the pointer that names
an element, a `Slot`. A macro that follows a NULL pointer has no result.

`Queue L h xs` says that the links of `L` make the head `h` the queue `xs`. The
macros act on it as list operations: `insert_head_queue`, `remove_queue`,
whatever stale links the inserted element still carries. A head that was zeroed
but never initialised is an empty queue.
-/
namespace TcpLearn.Tailq

/-- Where a pointer to an element is stored: in a head or in an element. -/
inductive Slot (H N : Type) where
  | first (h : H)
  | next (n : N)
deriving DecidableEq

/-- The links of all heads and elements. -/
structure Links (H N : Type) where
  /-- `tqh_first` of the heads and `tqe_next` of the elements. -/
  cell : Slot H N → Option N
  /-- `tqh_last`, the address of the last `tqe_next`. -/
  last : H → Option (Slot H N)
  /-- `tqe_prev`, the address of the pointer that names the element. -/
  prev : N → Option (Slot H N)

variable {H N : Type} [DecidableEq H] [DecidableEq N]

/-- Zeroed memory. -/
def zeroed : Links H N := ⟨fun _ => none, fun _ => none, fun _ => none⟩

def TAILQ_FIRST (L : Links H N) (h : H) : Option N := L.cell (.first h)
def TAILQ_EMPTY (L : Links H N) (h : H) : Bool := (TAILQ_FIRST L h).isNone

/-- `(head)->tqh_first = elm` after linking `elm` before the old first element. -/
def TAILQ_INSERT_HEAD (L : Links H N) (h : H) (elm : N) : Links H N :=
  let L := { L with cell := Function.update L.cell (.next elm) (L.cell (.first h)) }
  let L := match L.cell (.next elm) with
    | some m => { L with prev := Function.update L.prev m (some (.next elm)) }
    | none => { L with last := Function.update L.last h (some (.next elm)) }
  { L with
    cell := Function.update L.cell (.first h) (some elm)
    prev := Function.update L.prev elm (some (.first h)) }

/-- Unlinking `elm`. The macro reads the links of `elm` and stores through its
    `tqe_prev`, so it has no result where either pointer is NULL. -/
def TAILQ_REMOVE (L : Links H N) (h : H) (elm : Option N) : Option (Links H N) :=
  match elm with
  | none => none
  | some elm =>
    let L := match L.cell (.next elm) with
      | some m => { L with prev := Function.update L.prev m (L.prev elm) }
      | none => { L with last := Function.update L.last h (L.prev elm) }
    match L.prev elm with
    | none => none
    | some s => some { L with cell := Function.update L.cell s (L.cell (.next elm)) }

/-- Both links of an element set to NULL. -/
def TAILQ_RESET (L : Links H N) (elm : N) : Links H N :=
  { L with
    cell := Function.update L.cell (.next elm) none
    prev := Function.update L.prev elm none }

/-- Neither link of the element is set. -/
def Unlinked (L : Links H N) (n : N) : Prop := L.cell (.next n) = none ∧ L.prev n = none

/-! ## Segments -/

/-- The elements met from the pointer at `s` up to the pointer at `e`, each of
    them pointing back at the pointer that names it. -/
def Seg (L : Links H N) : Slot H N → List N → Slot H N → Prop
  | s, [], e => s = e
  | s, n :: ns, e => L.cell s = some n ∧ L.prev n = some s ∧ Seg L (.next n) ns e

/-- The pointers a segment is read through. -/
def reads : Slot H N → List N → List (Slot H N)
  | _, [] => []
  | s, n :: ns => s :: reads (.next n) ns

omit [DecidableEq H] [DecidableEq N] in
theorem reads_cases {s t : Slot H N} {ns : List N} (read : t ∈ reads s ns) :
    t = s ∨ ∃ n ∈ ns.dropLast, t = .next n := by
  induction ns generalizing s with
  | nil => simp [reads] at read
  | cons n ns ih =>
    rcases List.mem_cons.mp read with rfl | later
    · exact .inl rfl
    · cases ns with
      | nil => simp [reads] at later
      | cons m ms =>
        rcases ih later with rfl | ⟨k, member, rfl⟩
        · exact .inr ⟨n, by simp, rfl⟩
        · exact .inr ⟨k, by simp [List.dropLast_cons_of_ne_nil, member], rfl⟩

omit [DecidableEq H] [DecidableEq N] in
/-- A segment survives changes to the pointers it is not read through and to the
    back links of other elements. -/
theorem seg_frame {L M : Links H N} {s e : Slot H N} {ns : List N}
    (cells : ∀ t ∈ reads s ns, M.cell t = L.cell t) (prevs : ∀ n ∈ ns, M.prev n = L.prev n)
    (seg : Seg L s ns e) : Seg M s ns e := by
  induction ns generalizing s with
  | nil => exact seg
  | cons n ns ih =>
    obtain ⟨named, back, rest⟩ := seg
    refine ⟨?_, ?_, ih (fun t read => cells t (by simp [reads, read])) (fun m member => prevs m (by simp [member])) rest⟩
    · rw [cells s (by simp [reads]), named]
    · rw [prevs n (by simp), back]

omit [DecidableEq H] [DecidableEq N] in
theorem seg_append {L : Links H N} {s e : Slot H N} {xs ys : List N} :
    Seg L s (xs ++ ys) e ↔ ∃ mid, Seg L s xs mid ∧ Seg L mid ys e := by
  induction xs generalizing s with
  | nil => simp [Seg]
  | cons n ns ih =>
    simp only [List.cons_append, Seg, ih]
    constructor
    · rintro ⟨named, back, mid, left, right⟩
      exact ⟨mid, ⟨named, back, left⟩, right⟩
    · rintro ⟨mid, ⟨named, back, left⟩, right⟩
      exact ⟨named, back, mid, left, right⟩

omit [DecidableEq H] [DecidableEq N] in
/-- A segment ends at its start or at the link of its last element. -/
theorem seg_end {L : Links H N} {s e : Slot H N} {ns : List N} (seg : Seg L s ns e) :
    (ns = [] ∧ e = s) ∨ ∃ front n, ns = front ++ [n] ∧ e = .next n := by
  rcases List.eq_nil_or_concat ns with rfl | ⟨front, n, rfl⟩
  · exact .inl ⟨rfl, seg.symm⟩
  · simp only [List.concat_eq_append] at seg
    obtain ⟨mid, _, _, _, same⟩ := seg_append.mp seg
    exact .inr ⟨front, n, by simp, same.symm⟩

/-! ## Queues -/

/-- The links make `h` the queue `xs`. While `xs` is empty `tqh_last` may still
    be NULL, as in a head that was zeroed and never initialised. -/
structure Queue (L : Links H N) (h : H) (xs : List N) : Prop where
  nodup : xs.Nodup
  linked : ∃ e, Seg L (.first h) xs e ∧ L.cell e = none ∧ (xs ≠ [] → L.last h = some e)

omit [DecidableEq H] [DecidableEq N] in
theorem zeroed_queue (h : H) : Queue (zeroed : Links H N) h [] :=
  ⟨by simp, .first h, rfl, rfl, by simp⟩

omit [DecidableEq H] [DecidableEq N] in
theorem queue_first {L : Links H N} {h : H} {xs : List N} (queue : Queue L h xs) : TAILQ_FIRST L h = xs.head? := by
  obtain ⟨_, e, seg, empty, _⟩ := queue
  cases xs with
  | nil => cases seg; exact empty
  | cons n ns => exact seg.1

omit [DecidableEq H] [DecidableEq N] in
/-- The elements of a queue point back at the pointer that names them. -/
theorem queue_prev {L : Links H N} {h : H} {xs : List N} (queue : Queue L h xs) {n : N} (member : n ∈ xs) :
    L.prev n ≠ none := by
  obtain ⟨_, e, seg, _, _⟩ := queue
  obtain ⟨left, right, rfl⟩ := List.append_of_mem member
  obtain ⟨mid, _, _, back, _⟩ := seg_append.mp seg
  simp [back]

omit [DecidableEq H] [DecidableEq N] in
/-- The links make a head one queue only. -/
theorem queue_unique {L : Links H N} {h : H} {xs ys : List N} (left : Queue L h xs) (right : Queue L h ys) :
    xs = ys := by
  have segs : ∀ (xs ys : List N) (s e f : Slot H N), Seg L s xs e → L.cell e = none → Seg L s ys f →
      L.cell f = none → xs = ys := by
    intro xs
    induction xs with
    | nil =>
      intro ys s e f segX stopX segY stopY
      cases segX
      cases ys with
      | nil => rfl
      | cons n ns => simp [segY.1] at stopX
    | cons m ms ih =>
      intro ys s e f segX stopX segY stopY
      cases ys with
      | nil => cases segY; simp [segX.1] at stopY
      | cons n ns =>
        have same : m = n := Option.some.inj (segX.1.symm.trans segY.1)
        subst same
        rw [ih ns (.next m) e f segX.2.2 stopX segY.2.2 stopY]
  obtain ⟨_, e, segX, stopX, _⟩ := left
  obtain ⟨_, f, segY, stopY, _⟩ := right
  exact segs xs ys _ e f segX stopX segY stopY

/-- `TAILQ_INSERT_HEAD` puts a new element in front, whatever its links held. -/
theorem insert_head_queue {L : Links H N} {h : H} {xs : List N} (queue : Queue L h xs) {n : N} (fresh : n ∉ xs) :
    Queue (TAILQ_INSERT_HEAD L h n) h (n :: xs) := by
  obtain ⟨distinct, e, seg, stop, lastIs⟩ := queue
  refine ⟨List.nodup_cons.mpr ⟨fresh, distinct⟩, ?_⟩
  cases xs with
  | nil =>
    cases seg
    exact ⟨.next n, by simp [Seg, TAILQ_INSERT_HEAD, stop], by simp [TAILQ_INSERT_HEAD, stop],
      by simp [TAILQ_INSERT_HEAD, stop]⟩
  | cons m ms =>
    obtain ⟨named, back, rest⟩ := seg
    have other : n ≠ m := fun same => fresh (by simp [same])
    have absent : n ∉ ms := fun member => fresh (by simp [member])
    have once : m ∉ ms := (List.nodup_cons.mp distinct).1
    have slot : e ≠ .next n ∧ e ≠ .first h := by
      rcases seg_end rest with ⟨_, rfl⟩ | ⟨front, k, rfl, rfl⟩
      · simp [Ne.symm other]
      · constructor
        · rintro same; cases same; exact absent (by simp)
        · simp
    refine ⟨e, ⟨?_, ?_, ?_, ?_, ?_⟩, ?_, ?_⟩
    · simp [TAILQ_INSERT_HEAD]
    · simp [TAILQ_INSERT_HEAD]
    · simp [TAILQ_INSERT_HEAD, named]
    · simp [TAILQ_INSERT_HEAD, named, Ne.symm other]
    · refine seg_frame ?_ ?_ rest
      · intro t read
        rcases reads_cases read with rfl | ⟨k, member, rfl⟩
        · simp [TAILQ_INSERT_HEAD, named, Ne.symm other]
        · have : k ≠ n := fun same => absent (same ▸ List.dropLast_subset ms member)
          simp [TAILQ_INSERT_HEAD, named, this]
      · intro k member
        have : k ≠ n := fun same => absent (same ▸ member)
        have : k ≠ m := fun same => once (same ▸ member)
        simp [TAILQ_INSERT_HEAD, *]
    · simp [TAILQ_INSERT_HEAD, named, slot.1, slot.2, stop]
    · intro _
      simpa [TAILQ_INSERT_HEAD, named] using lastIs (by simp)

omit [DecidableEq H] [DecidableEq N] in
/-- The pointer a front part ends at is not the link of an element outside of it. -/
theorem slot_apart {L : Links H N} {h : H} {left : List N} {s : Slot H N} (before : Seg L (.first h) left s) {k : N}
    (outside : k ∉ left) : s ≠ .next k := by
  rintro rfl
  rcases seg_end before with ⟨_, impossible⟩ | ⟨front, m, rfl, same⟩
  · cases impossible
  · cases same
    exact outside (by simp)

omit [DecidableEq H] [DecidableEq N] in
/-- Nor is the front part read through that pointer. -/
theorem slot_unread {L : Links H N} {h : H} {left : List N} {s : Slot H N} (before : Seg L (.first h) left s)
    (distinct : left.Nodup) : s ∉ reads (.first h) left := by
  intro read
  rcases seg_end before with ⟨rfl, _⟩ | ⟨front, m, rfl, rfl⟩
  · simp [reads] at read
  · rcases reads_cases read with impossible | ⟨k, member, same⟩
    · cases impossible
    · cases same
      rw [List.dropLast_concat] at member
      exact (List.nodup_append.mp distinct).2.2 m member m (by simp) rfl

/-- `TAILQ_REMOVE` unlinks an element of the queue, wherever it stands. -/
theorem remove_queue {L : Links H N} {h : H} {left right : List N} {n : N}
    (queue : Queue L h (left ++ n :: right)) :
    ∃ M, TAILQ_REMOVE L h (some n) = some M ∧ Queue M h (left ++ right) := by
  obtain ⟨distinct, e, seg, stop, lastIs⟩ := queue
  obtain ⟨s, before, named, back, after⟩ := seg_append.mp seg
  have kept : (left ++ right).Nodup := distinct.sublist (by simp)
  have apart : ∀ k ∈ n :: right, k ∉ left := by
    intro k member early
    exact (List.nodup_append.mp distinct).2.2 k early k member rfl
  have absent : n ∉ right := (List.nodup_cons.mp (List.nodup_append.mp distinct).2.1).1
  -- The pointer that names `n` stands outside what follows `n`.
  have outside : ∀ k, k ∈ n :: right → s ≠ .next k := fun k member => slot_apart before (apart k member)
  have leftCells : ∀ (f : Slot H N → Option N), ∀ t ∈ reads (.first h) left,
      Function.update f s (L.cell (.next n)) t = f t := by
    intro f t read
    refine Function.update_of_ne ?_ _ _
    rintro rfl
    exact slot_unread before (List.nodup_append.mp distinct).1 read
  cases right with
  | nil =>
    cases after
    refine ⟨{ L with
      last := Function.update L.last h (some s), cell := Function.update L.cell s none }, ?_, by simpa using kept, s, ?_, ?_, ?_⟩
    · simp [TAILQ_REMOVE, stop, back]
    · rw [List.append_nil]
      refine seg_frame ?_ ?_ before
      · intro t read
        simpa [stop] using leftCells L.cell t read
      · intro k _
        rfl
    · simp
    · simp
  | cons m ms =>
    obtain ⟨follows, backM, rest⟩ := after
    have other : m ≠ n := fun same => absent (by simp [same])
    have once : m ∉ ms := (List.nodup_cons.mp (List.nodup_cons.mp (List.nodup_append.mp distinct).2.1).2).1
    have prevOther : ∀ k, k ≠ m → Function.update L.prev m (some s) k = L.prev k :=
      fun k ne => Function.update_of_ne ne _ _
    have endAt : e ≠ s := by
      rcases seg_end rest with ⟨_, rfl⟩ | ⟨front, k, rfl, rfl⟩
      · exact fun same => outside m (by simp) same.symm
      · exact fun same => outside k (by simp) same.symm
    refine ⟨{ L with
      prev := Function.update L.prev m (some s), cell := Function.update L.cell s (some m) }, ?_, kept, e, ?_, ?_, ?_⟩
    · simp [TAILQ_REMOVE, follows, back, Ne.symm other]
    · refine seg_append.mpr ⟨s, ?_, ?_, ?_, ?_⟩
      · refine seg_frame (fun t read => by simpa [follows] using leftCells L.cell t read) ?_ before
        intro k member
        exact prevOther k (fun same => apart m (by simp) (same ▸ member))
      · simp
      · simp
      · refine seg_frame ?_ ?_ rest
        · intro t read
          refine Function.update_of_ne ?_ _ _
          rcases reads_cases read with rfl | ⟨k, member, rfl⟩
          · exact (outside m (by simp)).symm
          · exact (outside k (by simp [List.dropLast_subset ms member])).symm
        · intro k member
          exact prevOther k (fun same => once (same ▸ member))
    · simpa [Function.update_of_ne endAt] using stop
    · intro _
      exact lastIs (by simp)

/-- Unlinking an element sets no link of one outside the queue. -/
theorem remove_unlinked {L M : Links H N} {h : H} {left right : List N} {n k : N} (queue : Queue L h (left ++ n :: right))
    (removed : TAILQ_REMOVE L h (some n) = some M) (outside : k ∉ left ++ n :: right) (unlinked : Unlinked L k) :
    Unlinked M k := by
  obtain ⟨distinct, e, seg, stop, _⟩ := queue
  obtain ⟨s, before, _, back, after⟩ := seg_append.mp seg
  have slot : s ≠ .next k := slot_apart before fun early => outside (List.mem_append_left _ early)
  obtain ⟨next, prev⟩ := unlinked
  cases right with
  | nil =>
    cases after
    simp only [TAILQ_REMOVE, stop, back, Option.some.injEq] at removed
    subst removed
    simp [Unlinked, slot.symm, next, prev]
  | cons m ms =>
    obtain ⟨follows, _⟩ := after
    have : k ≠ m := fun same => outside (by simp [same])
    have other : n ≠ m := by
      rintro rfl
      exact (List.nodup_cons.mp (List.nodup_append.mp distinct).2.1).1 (by simp)
    simp only [TAILQ_REMOVE, follows, Function.update_of_ne other, back, Option.some.injEq] at removed
    subst removed
    simp [Unlinked, slot.symm, this, next, prev]

/-- The links of an element outside the queue may be reset. -/
theorem reset_queue {L : Links H N} {h : H} {xs : List N} (queue : Queue L h xs) {n : N} (outside : n ∉ xs) :
    Queue (TAILQ_RESET L n) h xs := by
  obtain ⟨distinct, e, seg, stop, lastIs⟩ := queue
  refine ⟨distinct, e, seg_frame ?_ ?_ seg, ?_, lastIs⟩
  · intro t read
    refine Function.update_of_ne ?_ _ _
    rintro rfl
    rcases reads_cases read with impossible | ⟨k, member, same⟩
    · cases impossible
    · cases same
      exact outside (List.dropLast_subset xs member)
  · intro k member
    refine Function.update_of_ne ?_ _ _
    rintro rfl
    exact outside member
  · simp only [TAILQ_RESET, Function.update_apply]
    split_ifs
    · rfl
    · exact stop

theorem reset_unlinked {L : Links H N} {k : N} (n : N) (unlinked : Unlinked L k) : Unlinked (TAILQ_RESET L n) k := by
  obtain ⟨next, prev⟩ := unlinked
  simp [Unlinked, TAILQ_RESET, Function.update_apply, next, prev]

theorem reset_self (L : Links H N) (n : N) : Unlinked (TAILQ_RESET L n) n := by
  simp [Unlinked, TAILQ_RESET]

/-- Inserting an element links no other one outside the queue. -/
theorem insert_head_unlinked {L : Links H N} {h : H} {xs : List N} (queue : Queue L h xs) {n k : N} (other : k ≠ n)
    (outside : k ∉ xs) (unlinked : Unlinked L k) : Unlinked (TAILQ_INSERT_HEAD L h n) k := by
  obtain ⟨next, prev⟩ := unlinked
  have first := queue_first queue
  cases xs with
  | nil => simp_all [Unlinked, TAILQ_INSERT_HEAD, TAILQ_FIRST]
  | cons m ms =>
    have : k ≠ m := fun same => outside (by simp [same])
    simp only [TAILQ_FIRST, List.head?_cons] at first
    simp [Unlinked, TAILQ_INSERT_HEAD, first, other, this, next, prev]

end TcpLearn.Tailq
