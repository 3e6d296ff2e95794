import TcpLearn.Memory

/-!
# Operations on mbufs

The functions of `mbuf.c`. An mbuf comes from the pool of its context or from the
allocator and goes back to the pool, or to the allocator once the pool holds more
than `RECYCLE_LENGTH` mbufs. The bytes between its read and its write marker are
its `content`; writing appends to them, reading takes from their front.
-/
namespace TcpLearn.MbufOps
open TcpLearn.Memory

/-! ## Memory -/

/-- The bytes of `mem` from `start` on. -/
def load (mem : Nat → UInt8) (start len : Nat) : List UInt8 := (List.range' start len).map mem

/-- `memcpy` of `src` to the offset `dst` of `mem`. -/
def store (mem : Nat → UInt8) (dst : Nat) (src : List UInt8) : Nat → UInt8 :=
  fun i => if dst ≤ i then (src[i - dst]?).getD (mem i) else mem i

@[simp] theorem load_length (mem : Nat → UInt8) (start len : Nat) : (load mem start len).length = len := by
  simp [load]

@[simp] theorem load_zero (mem : Nat → UInt8) (start : Nat) : load mem start 0 = [] := rfl

theorem load_add (mem : Nat → UInt8) (start m n : Nat) :
    load mem start (m + n) = load mem start m ++ load mem (start + m) n := by
  rw [load, load, load, ← List.map_append, List.range'_append_1]

theorem load_take (mem : Nat → UInt8) (start len k : Nat) :
    (load mem start len).take k = load mem start (min k len) := by
  exact List.ext_getElem (by simp) fun i _ _ => by simp [load]

theorem load_drop (mem : Nat → UInt8) (start len k : Nat) :
    (load mem start len).drop k = load mem (start + k) (len - k) := by
  exact List.ext_getElem (by simp) fun i _ _ => by simp [load, Nat.add_assoc]

theorem load_congr {mem other : Nat → UInt8} {start len : Nat}
    (same : ∀ i, start ≤ i → i < start + len → mem i = other i) : load mem start len = load other start len := by
  apply List.map_congr_left
  intro i member
  rw [List.mem_range'_1] at member
  exact same i member.1 member.2

/-- What lies before the destination stays. -/
theorem load_store_before (mem : Nat → UInt8) (src : List UInt8) {dst start len : Nat} (before : start + len ≤ dst) :
    load (store mem dst src) start len = load mem start len := by
  apply load_congr
  intro i _ high
  simp [store, show ¬ dst ≤ i by omega]

theorem load_store_same (mem : Nat → UInt8) (dst : Nat) (src : List UInt8) :
    load (store mem dst src) dst src.length = src := by
  apply List.ext_getElem (by simp)
  intro i _ inside
  simp [load, store, inside]

/-! ## The functions -/

def RECYCLE_LENGTH : Int := 10

/-- An mbuf from the pool, as it was recycled, or in a new block. -/
def mbuf_create (w : World) : Mbuf × World :=
  match w.ctx.free_mbufq with
  | mbuf :: rest =>
    let w := { w with ctx := { w.ctx with free_mbufq := rest } }
    (mbuf, w.count fun m => { m with free_buffers := m.free_buffers - 1 })
  | [] =>
    let block := (cv_malloc .mbuf w.heap).1
    let w := { w with heap := (cv_malloc .mbuf w.heap).2 }
    (⟨block, 0, 0, 0, 0, none, w.heap.junk block⟩, w.count fun m => { m with total_buffers := m.total_buffers + 1 })

def mbuf_free (mbuf : Mbuf) (w : World) : World := { w with heap := cv_free mbuf.block w.heap }

def mbuf_get (w : World) : Mbuf × World :=
  let mbuf := (mbuf_create w).1
  let w := (mbuf_create w).2
  ({ mbuf with start := 0, end_ := w.ctx.mbuf_offset, pos := 0, last := 0, queue := none },
    w.count fun m => { m with buffers := m.buffers + 1 })

def mbuf_recycle (mbuf : Mbuf) (w : World) : World :=
  let w := w.count fun m => { m with buffers := m.buffers - 1 }
  if w.ctx.mstats.free_buffers > RECYCLE_LENGTH then
    mbuf_free mbuf (w.count fun m => { m with total_buffers := m.total_buffers - 1 })
  else
    let w := { w with ctx := { w.ctx with free_mbufq := mbuf :: w.ctx.free_mbufq } }
    w.count fun m => { m with free_buffers := m.free_buffers + 1 }

/-- The casts of both sizes to `int` change nothing below 2^31. -/
def mbuf_read_size (buf : Mbuf) : Nat := buf.last - buf.pos
def mbuf_write_size (buf : Mbuf) : Nat := buf.end_ - buf.last

/-- The number of bytes written and the mbuf after it. -/
def mbuf_write (buf : Mbuf) (data : List UInt8) (len : Nat) : Nat × Mbuf :=
  let remain := mbuf_write_size buf
  if remain = 0 then (0, buf)
  else
    let write := if remain > len then len else remain
    (write, { buf with bytes := store buf.bytes buf.last (data.take write), last := buf.last + write })

/-- The number of bytes copied and the bytes stored from `dst` on. -/
def mbuf_peek (buf : Mbuf) (len : Nat) : Nat × List UInt8 :=
  let read := mbuf_read_size buf
  if read ≠ 0 then
    let copy := if read > len then len else read
    (copy, load buf.bytes buf.pos copy)
  else (0, [])

def mbuf_read (buf : Mbuf) (len : Nat) : Nat × List UInt8 × Mbuf :=
  let (read, copied) := mbuf_peek buf len
  (read, copied, { buf with pos := buf.pos + read })

/-- The loop of `mbuf_destroy` over the pool. -/
def mbuf_destroy_loop : List Mbuf → World → World
  | [], w => { w with ctx := { w.ctx with free_mbufq := [] } }
  | buf :: rest, w =>
    let w := mbuf_free buf { w with ctx := { w.ctx with free_mbufq := rest } }
    mbuf_destroy_loop rest (w.count fun m => { m with free_buffers := m.free_buffers - 1 })

def mbuf_destroy (w : World) : World := mbuf_destroy_loop w.ctx.free_mbufq w

def mbuf_can_recycle (buf : Mbuf) : Bool := mbuf_read_size buf = 0 ∧ mbuf_write_size buf = 0

/-- Only the first mbuf of the queue is looked at. -/
def mhdr_readable : List Mbuf → Bool
  | [] => false
  | buf :: _ => mbuf_read_size buf ≠ 0

/-! ## Contents -/

/-- The bytes written and not yet read. -/
def content (buf : Mbuf) : List UInt8 := load buf.bytes buf.pos (mbuf_read_size buf)

@[simp] theorem content_length (buf : Mbuf) : (content buf).length = mbuf_read_size buf := by
  simp [content]

/-- The markers of a buffer of the capacity. -/
structure Sound (cap : Nat) (buf : Mbuf) : Prop where
  start : buf.start = 0
  stop : buf.end_ = cap
  read : buf.pos ≤ buf.last
  written : buf.last ≤ cap

theorem mbuf_write_fst (buf : Mbuf) (data : List UInt8) (len : Nat) :
    (mbuf_write buf data len).1 = min len (mbuf_write_size buf) := by
  unfold mbuf_write
  dsimp only
  split_ifs <;> simp only <;> omega

/-- Writing moves the write marker and appends to the contents. -/
theorem mbuf_write_spec {cap : Nat} {buf : Mbuf} (sound : Sound cap buf) (data : List UInt8) {len : Nat}
    (enough : len ≤ data.length) (fits : len ≤ cap - buf.last) :
    ∃ bytes, mbuf_write buf data len = (len, { buf with last := buf.last + len, bytes := bytes }) ∧
      content { buf with last := buf.last + len, bytes := bytes } = content buf ++ data.take len := by
  have sizeIs : mbuf_write_size buf = cap - buf.last := by simp [mbuf_write_size, sound.stop]
  by_cases full : mbuf_write_size buf = 0
  · have none : len = 0 := by omega
    subst none
    exact ⟨buf.bytes, by simp [mbuf_write, full], by simp [content, mbuf_read_size]⟩
  · have written : (if mbuf_write_size buf > len then len else mbuf_write_size buf) = len := by
      split_ifs <;> omega
    refine ⟨store buf.bytes buf.last (data.take len), by simp [mbuf_write, full, written], ?_⟩
    have size : buf.last + len - buf.pos = (buf.last - buf.pos) + len := by have := sound.read; omega
    have read := sound.read
    simp only [content, mbuf_read_size, size, load_add]
    rw [load_store_before _ _ (by omega), show buf.pos + (buf.last - buf.pos) = buf.last by omega]
    have taken : (data.take len).length = len := by simp [enough]
    have same := load_store_same buf.bytes buf.last (data.take len)
    rw [taken] at same
    rw [same]

theorem mbuf_peek_spec (buf : Mbuf) (len : Nat) :
    mbuf_peek buf len = (min len (mbuf_read_size buf), (content buf).take len) := by
  unfold mbuf_peek content
  dsimp only
  by_cases empty : mbuf_read_size buf = 0
  · simp [empty]
  · have copied : (if mbuf_read_size buf > len then len else mbuf_read_size buf) = min len (mbuf_read_size buf) := by
      split_ifs <;> omega
    simp only [ne_eq, empty, not_false_eq_true, ↓reduceIte, copied, load_take]

theorem mbuf_read_spec (buf : Mbuf) (len : Nat) :
    mbuf_read buf len = (min len (mbuf_read_size buf), (content buf).take len,
      { buf with pos := buf.pos + min len (mbuf_read_size buf) }) := by
  simp [mbuf_read, mbuf_peek_spec]

/-- Reading leaves the contents after the bytes read. -/
theorem content_advance (buf : Mbuf) (k : Nat) :
    content { buf with pos := buf.pos + k } = (content buf).drop k := by
  simp only [content, mbuf_read_size, load_drop]
  congr 1
  omega

/-- An mbuf handed out is empty and has the whole buffer left to write. -/
theorem mbuf_get_fields (w : World) :
    (mbuf_get w).1.start = 0 ∧ (mbuf_get w).1.end_ = w.ctx.mbuf_offset ∧ (mbuf_get w).1.pos = 0 ∧
      (mbuf_get w).1.last = 0 := by
  have offset : (mbuf_create w).2.ctx.mbuf_offset = w.ctx.mbuf_offset := by
    unfold mbuf_create
    split <;> rfl
  simp [mbuf_get, offset]

@[simp] theorem mbuf_get_offset (w : World) : (mbuf_get w).2.ctx.mbuf_offset = w.ctx.mbuf_offset := by
  simp only [mbuf_get, mbuf_create, count_offset]
  split <;> rfl

/-- Above the bound an mbuf given back is freed. -/
theorem mbuf_recycle_freed (buf : Mbuf) {w : World} (above : w.ctx.mstats.free_buffers > RECYCLE_LENGTH) :
    mbuf_recycle buf w = mbuf_free buf
      (w.count fun m => { m with buffers := m.buffers - 1, total_buffers := m.total_buffers - 1 }) := if_pos above

theorem mbuf_recycle_pooled (buf : Mbuf) {w : World} (below : ¬ w.ctx.mstats.free_buffers > RECYCLE_LENGTH) :
    mbuf_recycle buf w =
      ({ w with ctx := { w.ctx with free_mbufq := buf :: w.ctx.free_mbufq } } : World).count fun m =>
        { m with buffers := m.buffers - 1, free_buffers := m.free_buffers + 1 } := if_neg below

@[simp] theorem mbuf_recycle_offset (buf : Mbuf) (w : World) :
    (mbuf_recycle buf w).ctx.mbuf_offset = w.ctx.mbuf_offset := by
  by_cases above : w.ctx.mstats.free_buffers > RECYCLE_LENGTH
  · rw [mbuf_recycle_freed buf above]
    rfl
  · rw [mbuf_recycle_pooled buf above]
    rfl

end TcpLearn.MbufOps
