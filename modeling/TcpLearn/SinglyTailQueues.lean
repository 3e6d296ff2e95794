import Mathlib.Data.List.Nodup
import Mathlib.Logic.Function.Basic

/-!
# Singly linked tail queues

The macros of `queue.h` for a queue whose elements carry one link. `stqh_last` holds the
address of the pointer at the end: the one in the head while the queue is empty, else
the one in the last element. `Queue L xs` says that the links of `L` make the head the
queue `xs`. Elements join at the end and leave at the front (`insert_tail_queue`,
`remove_head_queue`), whatever link an element that joins still carries.
-/
namespace TcpLearn.Stailq

/-- Where a pointer to an element is stored: in the head or in an element. -/
inductive Slot (N : Type) where
  | first
  | next (n : N)
deriving DecidableEq

structure Links (N : Type) where
  /-- `stqh_first` of the head and `stqe_next` of the elements. -/
  cell : Slot N → Option N
  /-- The address of the last `stqe_next`. -/
  stqh_last : Slot N

variable {N : Type} [DecidableEq N]

def STAILQ_INIT (L : Links N) : Links N := ⟨Function.update L.cell .first none, .first⟩

def STAILQ_FIRST (L : Links N) : Option N := L.cell .first
def STAILQ_EMPTY (L : Links N) : Bool := (STAILQ_FIRST L).isNone
def STAILQ_NEXT (L : Links N) (n : N) : Option N := L.cell (.next n)

def STAILQ_INSERT_TAIL (L : Links N) (elm : N) : Links N :=
  let L := { L with cell := Function.update L.cell (.next elm) none }
  let L := { L with cell := Function.update L.cell L.stqh_last (some elm) }
  { L with stqh_last := .next elm }

/-- The macro follows `stqh_first`: an empty queue has no result. -/
def STAILQ_REMOVE_HEAD (L : Links N) : Option (Links N) := do
  let elm ← STAILQ_FIRST L
  let L := { L with cell := Function.update L.cell .first (STAILQ_NEXT L elm) }
  some (if STAILQ_EMPTY L then { L with stqh_last := .first } else L)

/-! ## Segments -/

/-- The elements met from the pointer at `s` up to the pointer at `e`. -/
def Seg (L : Links N) : Slot N → List N → Slot N → Prop
  | s, [], e => s = e
  | s, n :: ns, e => L.cell s = some n ∧ Seg L (.next n) ns e

/-- The pointers a segment is read through. -/
def reads : Slot N → List N → List (Slot N)
  | _, [] => []
  | s, n :: ns => s :: reads (.next n) ns

omit [DecidableEq N] in
theorem reads_elements {s t : Slot N} {ns : List N} (read : t ∈ reads s ns) : t = s ∨ ∃ n ∈ ns, t = .next n := by
  induction ns generalizing s with
  | nil => cases read
  | cons n ns ih =>
    rcases List.mem_cons.mp read with rfl | later
    · exact .inl rfl
    · rcases ih later with rfl | ⟨m, member, rfl⟩
      · exact .inr ⟨n, List.mem_cons_self, rfl⟩
      · exact .inr ⟨m, List.mem_cons_of_mem _ member, rfl⟩

omit [DecidableEq N] in
/-- A segment survives changes to the pointers it is not read through. -/
theorem seg_frame {L M : Links N} {s e : Slot N} {ns : List N} (cells : ∀ t ∈ reads s ns, M.cell t = L.cell t)
    (seg : Seg L s ns e) : Seg M s ns e := by
  induction ns generalizing s with
  | nil => exact seg
  | cons n ns ih =>
    obtain ⟨named, rest⟩ := seg
    refine ⟨(cells s List.mem_cons_self).trans named, ih ?_ rest⟩
    intro t read
    exact cells t (List.mem_cons_of_mem _ read)

omit [DecidableEq N] in
theorem seg_concat {L : Links N} {s e : Slot N} {ns : List N} {n : N} (seg : Seg L s ns e) (named : L.cell e = some n) :
    Seg L s (ns ++ [n]) (.next n) := by
  induction ns generalizing s with
  | nil =>
    cases seg
    exact ⟨named, rfl⟩
  | cons m ns ih => exact ⟨seg.1, ih seg.2⟩

omit [DecidableEq N] in
/-- A segment ends at its start or in one of its elements. -/
theorem seg_end {L : Links N} {s e : Slot N} {ns : List N} (seg : Seg L s ns e) : e = s ∨ ∃ n ∈ ns, e = .next n := by
  induction ns generalizing s with
  | nil => exact .inl seg.symm
  | cons n ns ih =>
    rcases ih seg.2 with rfl | ⟨m, member, rfl⟩
    · exact .inr ⟨n, List.mem_cons_self, rfl⟩
    · exact .inr ⟨m, List.mem_cons_of_mem _ member, rfl⟩

omit [DecidableEq N] in
/-- The pointer at the end is not read on the way, no element being met twice. -/
theorem end_unread {L : Links N} {s e : Slot N} {ns : List N} (seg : Seg L s ns e) (nodup : ns.Nodup)
    (outside : ∀ n ∈ ns, s ≠ .next n) : e ∉ reads s ns := by
  induction ns generalizing s with
  | nil => exact List.not_mem_nil
  | cons n ns ih =>
    obtain ⟨absent, distinct⟩ := List.nodup_cons.mp nodup
    have apart : ∀ m ∈ ns, (.next n : Slot N) ≠ .next m := by
      rintro m member same
      cases same
      exact absent member
    have later := ih seg.2 distinct apart
    intro read
    rcases List.mem_cons.mp read with rfl | further
    · rcases seg_end seg.2 with same | ⟨m, member, same⟩
      · exact outside n List.mem_cons_self same
      · exact outside m (List.mem_cons_of_mem _ member) same
    · exact later further

/-! ## Queues -/

structure Queue (L : Links N) (xs : List N) : Prop where
  nodup : xs.Nodup
  linked : Seg L .first xs L.stqh_last
  stop : L.cell L.stqh_last = none

theorem init_queue (L : Links N) : Queue (STAILQ_INIT L) [] := ⟨List.nodup_nil, rfl, by simp [STAILQ_INIT]⟩

section
variable {L : Links N} {xs : List N} {n : N}

omit [DecidableEq N] in
theorem queue_first (queue : Queue L xs) : STAILQ_FIRST L = xs.head? := by
  obtain ⟨_, linked, stop⟩ := queue
  cases xs with
  | nil =>
    have same : Slot.first = L.stqh_last := linked
    rw [← same] at stop
    exact stop
  | cons n ns => exact linked.1

omit [DecidableEq N] in
theorem queue_empty (queue : Queue L xs) : STAILQ_EMPTY L = xs.isEmpty := by
  rw [STAILQ_EMPTY, queue_first queue]
  cases xs <;> rfl

theorem insert_tail_queue (queue : Queue L xs) (outside : n ∉ xs) : Queue (STAILQ_INSERT_TAIL L n) (xs ++ [n]) := by
  obtain ⟨nodup, linked, stop⟩ := queue
  have last : L.stqh_last ≠ .next n := by
    intro same
    rcases seg_end linked with first | ⟨m, member, other⟩
    · cases same.symm.trans first
    · cases same.symm.trans other
      exact outside member
  refine ⟨List.nodup_append.mpr ⟨nodup, List.nodup_singleton n, ?_⟩, seg_concat (seg_frame ?_ linked) ?_, ?_⟩
  · rintro a member b single rfl
    exact outside (List.mem_singleton.mp single ▸ member)
  · intro t read
    have unread := end_unread linked nodup (fun _ _ => nofun)
    have other : t ≠ .next n := by
      rintro rfl
      rcases reads_elements read with same | ⟨m, member, same⟩
      · cases same
      · cases same
        exact outside member
    have before : t ≠ L.stqh_last := fun same => unread (same ▸ read)
    simp [STAILQ_INSERT_TAIL, before, other]
  · simp [STAILQ_INSERT_TAIL]
  · simp [STAILQ_INSERT_TAIL, last.symm]

theorem remove_head_queue {ns : List N} (queue : Queue L (n :: ns)) :
    ∃ M, STAILQ_REMOVE_HEAD L = some M ∧ Queue M ns := by
  obtain ⟨nodup, ⟨named, rest⟩, stop⟩ := queue
  obtain ⟨_, distinct⟩ := List.nodup_cons.mp nodup
  have removed : STAILQ_REMOVE_HEAD L = some (if (L.cell (.next n)).isNone = true
      then ⟨Function.update L.cell .first (L.cell (.next n)), .first⟩
      else ⟨Function.update L.cell .first (L.cell (.next n)), L.stqh_last⟩) := by
    simp only [STAILQ_REMOVE_HEAD, STAILQ_FIRST, named, STAILQ_EMPTY, STAILQ_NEXT, Option.bind_eq_bind, Option.bind_some,
      Function.update_self]
  cases ns with
  | nil =>
    have empty : L.cell (.next n) = none := by
      have same : (.next n : Slot N) = L.stqh_last := rest
      rw [same, stop]
    rw [empty, Option.isNone_none, if_pos rfl] at removed
    exact ⟨_, removed, List.nodup_nil, rfl, by simp⟩
  | cons m ns =>
    obtain ⟨second, later⟩ := rest
    rw [second, Option.isNone_some, if_neg Bool.false_ne_true] at removed
    have behind : L.stqh_last ≠ .first := by
      rcases seg_end later with same | ⟨k, _, same⟩ <;> rw [same] <;> nofun
    refine ⟨_, removed, distinct, ⟨by simp, seg_frame ?_ later⟩, ?_⟩
    · intro t read
      have other : t ≠ .first := by
        rcases reads_elements read with same | ⟨k, _, same⟩ <;> rw [same] <;> nofun
      exact Function.update_of_ne other _ _
    · exact (Function.update_of_ne behind _ _).trans stop

end

end TcpLearn.Stailq
