import Mathlib
import TcpLearn.Tailq

/-!
# Blocks, structures and the context

The data of `alloc.c`, `mbuf.h` and `corvus.h`. A block of the allocator is named
by the number of blocks handed out before it, so a name is never handed out
twice; the heap keeps the kind of every block and the list of freed ones. A
fresh block holds whatever the memory held (`junk`).

The queues of mbufs and the pools of mbufs and con_infos are lists of the
structures they link; the pool of connections keeps its links (`Tailq.Links`),
because the code looks at them. Sizes and counts that are never negative are
natural numbers. Signed counters are integers: signed overflow has no meaning in
C, so the integers agree with them on every execution that has one.
-/
namespace TcpLearn.Memory

/-! ## The allocator -/

/-- What a block was allocated for. -/
inductive Kind where
  | context | mbuf | con_info | connection
deriving DecidableEq

structure Heap where
  /-- The kinds of all blocks handed out, in order. -/
  kinds : List Kind
  /-- The blocks passed to `cv_free`, the latest first. -/
  freed : List Nat
  /-- What the memory of a block holds when it is handed out. -/
  junk : Nat → Nat → UInt8

/-- A heap that has handed out nothing. -/
def no_blocks (junk : Nat → Nat → UInt8) : Heap := ⟨[], [], junk⟩

/-- `cv_malloc` and `cv_calloc`, which abort instead of returning NULL. -/
def cv_malloc (kind : Kind) (heap : Heap) : Nat × Heap :=
  (heap.kinds.length, { heap with kinds := heap.kinds ++ [kind] })

def cv_free (block : Nat) (heap : Heap) : Heap := { heap with freed := block :: heap.freed }

/-- A block of the kind that was handed out and not freed. -/
def Live (heap : Heap) (kind : Kind) (n : Nat) : Prop := heap.kinds[n]? = some kind ∧ n ∉ heap.freed

/-- Only blocks that were handed out have been freed, each once. -/
structure Balanced (heap : Heap) : Prop where
  once : heap.freed.Nodup
  taken : ∀ n ∈ heap.freed, n < heap.kinds.length

/-- The list names every live block of the kind, each once. -/
structure Owns (heap : Heap) (kind : Kind) (xs : List Nat) : Prop where
  nodup : xs.Nodup
  live : ∀ n, n ∈ xs ↔ Live heap kind n

theorem owns_perm {heap : Heap} {kind : Kind} {xs ys : List Nat} (perm : xs.Perm ys) (owns : Owns heap kind xs) :
    Owns heap kind ys :=
  ⟨perm.nodup_iff.mp owns.nodup, fun n => perm.mem_iff.symm.trans (owns.live n)⟩

theorem balanced_malloc {heap : Heap} (balanced : Balanced heap) (kind : Kind) :
    Balanced (cv_malloc kind heap).2 :=
  ⟨balanced.once, fun n member => by have := balanced.taken n member; simp [cv_malloc]; omega⟩

theorem balanced_free {heap : Heap} (balanced : Balanced heap) {kind : Kind} {n : Nat} (live : Live heap kind n) :
    Balanced (cv_free n heap) := by
  have inside : n < heap.kinds.length := (List.getElem?_eq_some_iff.mp live.1).1
  refine ⟨List.nodup_cons.mpr ⟨live.2, balanced.once⟩, ?_⟩
  intro m member
  rcases List.mem_cons.mp member with rfl | earlier
  · exact inside
  · exact balanced.taken m earlier

/-- A block of the kind allocated joins the live ones. -/
theorem live_malloc {heap : Heap} (balanced : Balanced heap) (kind other : Kind) (n : Nat) :
    Live (cv_malloc kind heap).2 other n ↔ (n = (cv_malloc kind heap).1 ∧ kind = other) ∨ Live heap other n := by
  simp only [Live, cv_malloc]
  rcases Nat.lt_trichotomy n heap.kinds.length with lt | rfl | gt
  · rw [List.getElem?_append_left lt]
    simp [Nat.ne_of_lt lt]
  · have unfreed : heap.kinds.length ∉ heap.freed := fun member => absurd (balanced.taken _ member) (by omega)
    simp [unfreed]
  · have past : heap.kinds.length + 1 ≤ n := gt
    rw [List.getElem?_eq_none (by simpa using past), List.getElem?_eq_none (by omega)]
    simp [Nat.ne_of_gt gt]

theorem owns_malloc {heap : Heap} (balanced : Balanced heap) {kind : Kind} {xs : List Nat} (owns : Owns heap kind xs) :
    Owns (cv_malloc kind heap).2 kind ((cv_malloc kind heap).1 :: xs) := by
  refine ⟨List.nodup_cons.mpr ⟨?_, owns.nodup⟩, ?_⟩
  · intro member
    have inside := (List.getElem?_eq_some_iff.mp ((owns.live _).mp member).1).1
    simp [cv_malloc] at inside
  · intro n
    rw [live_malloc balanced, List.mem_cons, owns.live]
    simp

theorem owns_malloc_other {heap : Heap} (balanced : Balanced heap) {kind other : Kind} (ne : kind ≠ other)
    {xs : List Nat} (owns : Owns heap other xs) : Owns (cv_malloc kind heap).2 other xs := by
  refine ⟨owns.nodup, ?_⟩
  intro n
  rw [live_malloc balanced, owns.live]
  simp [ne]

theorem owns_free {heap : Heap} {kind : Kind} {n : Nat} {xs : List Nat} (owns : Owns heap kind (n :: xs)) :
    Owns (cv_free n heap) kind xs := by
  obtain ⟨absent, distinct⟩ := List.nodup_cons.mp owns.nodup
  refine ⟨distinct, ?_⟩
  intro m
  have live := owns.live m
  simp only [List.mem_cons, Live, cv_free, not_or] at live ⊢
  constructor
  · intro member
    exact ⟨(live.mp (.inr member)).1, fun same => absent (same ▸ member), (live.mp (.inr member)).2⟩
  · rintro ⟨kindIs, ne, unfreed⟩
    exact (live.mpr ⟨kindIs, unfreed⟩).resolve_left ne

theorem owns_free_other {heap : Heap} {kind other : Kind} (ne : kind ≠ other) {n : Nat} (live : Live heap kind n)
    {xs : List Nat} (owns : Owns heap other xs) : Owns (cv_free n heap) other xs := by
  refine ⟨owns.nodup, ?_⟩
  intro m
  rw [owns.live m]
  simp only [Live, cv_free, List.mem_cons, not_or]
  constructor
  · rintro ⟨kindIs, unfreed⟩
    refine ⟨kindIs, ?_, unfreed⟩
    rintro rfl
    exact ne (Option.some.inj (live.1.symm.trans kindIs))
  · rintro ⟨kindIs, _, unfreed⟩
    exact ⟨kindIs, unfreed⟩

/-! ## Structures -/

/-- `struct mbuf` with the buffer in front of it. The markers are offsets from
    the start of the block, where the buffer begins. -/
structure Mbuf where
  /-- The block that holds the buffer and the structure. -/
  block : Nat
  /-- Read marker. -/
  pos : Nat
  /-- Write marker. -/
  last : Nat
  start : Nat
  /-- The field `end`. -/
  end_ : Nat
  /-- The con_info whose `data` is the queue that contains the buffer. -/
  queue : Option Nat
  bytes : Nat → UInt8

structure ConInfo where
  block : Nat
  data : List Mbuf
  ctx : Nat

structure Connection where
  data_size : Int
  info : Option ConInfo
  ctx : Option Nat

structure MemoryStats where
  total_buffers : Int
  buffers : Int
  free_buffers : Int
  conns : Int
  conn_info : Int
  free_conns : Int
  free_conn_info : Int
deriving DecidableEq

/-- `struct context`. The entries `next` of all connections are kept with the
    list head `conns` that links them. -/
structure Context where
  block : Nat
  mbuf_offset : Nat
  conns : Tailq.Links Unit Nat
  free_mbufq : List Mbuf
  free_con_infoq : List ConInfo
  mstats : MemoryStats

/-- What the functions on one connection share: the allocator and the context. -/
structure World where
  heap : Heap
  ctx : Context

/-- An update of the counters. -/
def World.count (w : World) (f : MemoryStats → MemoryStats) : World :=
  { w with ctx := { w.ctx with mstats := f w.ctx.mstats } }

section
variable (w : World) (f : MemoryStats → MemoryStats)
@[simp] theorem count_heap : (w.count f).heap = w.heap := rfl
@[simp] theorem count_block : (w.count f).ctx.block = w.ctx.block := rfl
@[simp] theorem count_offset : (w.count f).ctx.mbuf_offset = w.ctx.mbuf_offset := rfl
@[simp] theorem count_conns : (w.count f).ctx.conns = w.ctx.conns := rfl
@[simp] theorem count_free_mbufq : (w.count f).ctx.free_mbufq = w.ctx.free_mbufq := rfl
@[simp] theorem count_free_con_infoq : (w.count f).ctx.free_con_infoq = w.ctx.free_con_infoq := rfl
@[simp] theorem count_mstats : (w.count f).ctx.mstats = f w.ctx.mstats := rfl
end

/-- The mbufs queued on a connection, none while it has no con_info. -/
def queued (con : Connection) : List Mbuf := (con.info.map ConInfo.data).getD []

@[simp] theorem queued_none (size : Int) (ctx : Option Nat) : queued ⟨size, none, ctx⟩ = [] := rfl
@[simp] theorem queued_some (size : Int) (info : ConInfo) (ctx : Option Nat) :
    queued ⟨size, some info, ctx⟩ = info.data := rfl

end TcpLearn.Memory
