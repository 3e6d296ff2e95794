import TcpLearn.ConBuf

/-!
# The queue of a connection as a byte string

`Holds cap off queue bs` says that the mbufs of `queue`, of capacity `cap`, hold
the unread bytes `bs`, the first of them at the offset `off` of the first mbuf.
It fixes the markers of every mbuf: all but the last are written to the end, all
but the first are unread, and none is both. Writing appends to `bs` and keeps
`off` (`con_buf_write_spec`); reading drops the first `taken` bytes of `bs` and
moves `off` by them modulo the capacity (`con_buf_read_spec`); peeking copies the
first bytes (`con_buf_peek_spec`); `connection_buf_free` drops all of them.

`con->data_size` grows by the length of a write unless the write ends exactly at
the end of an mbuf, where the function returns from inside its loop.
-/
namespace TcpLearn.Chain
open TcpLearn.Memory TcpLearn.MbufOps TcpLearn.ConBuf

/-- The markers of a queue while a function works on it: the last mbuf may be new. -/
structure Shape (cap off : Nat) (queue : List Mbuf) (bs : List UInt8) : Prop where
  sound : ∀ b ∈ queue, Sound cap b
  bytes : queue.flatMap content = bs
  full : ∀ b ∈ queue.dropLast, b.last = cap
  unread : ∀ b ∈ queue.tail, b.pos = 0
  head : (queue.head?.map Mbuf.pos).getD 0 = off
  inside : off < cap

/-- The queue between two operations. -/
structure Holds (cap off : Nat) (queue : List Mbuf) (bs : List UInt8) : Prop extends Shape cap off queue bs where
  written : ∀ b ∈ queue.tail, 0 < b.last

/-- How far the last mbuf is written. -/
def fill (queue : List Mbuf) : Nat := (queue.getLast?.map Mbuf.last).getD 0

@[simp] theorem fill_nil : fill [] = 0 := rfl
@[simp] theorem fill_concat (front : List Mbuf) (buf : Mbuf) : fill (front ++ [buf]) = buf.last := by simp [fill]

/-- The number of unread bytes of a queue. -/
def unread (queue : List Mbuf) : Nat := (queue.map mbuf_read_size).sum

theorem unread_eq (queue : List Mbuf) : unread queue = (queue.flatMap content).length := by
  induction queue with
  | nil => rfl
  | cons b rest ih => simp [unread]

theorem holds_nil {cap : Nat} (positive : 0 < cap) : Holds cap 0 [] [] :=
  ⟨⟨by simp, by simp, by simp, by simp, by simp, positive⟩, by simp⟩

theorem holds_unread {cap off : Nat} {queue : List Mbuf} {bs : List UInt8} (holds : Holds cap off queue bs) :
    unread queue = bs.length := by
  rw [unread_eq, holds.bytes]

/-! ## Writing -/

theorem get_for_fields (info : Nat) (w : World) :
    (get_for info w).1.start = 0 ∧ (get_for info w).1.end_ = w.ctx.mbuf_offset ∧ (get_for info w).1.pos = 0 ∧
      (get_for info w).1.last = 0 := mbuf_get_fields w

@[simp] theorem get_for_offset (info : Nat) (w : World) :
    (get_for info w).2.ctx.mbuf_offset = w.ctx.mbuf_offset := mbuf_get_offset w

/-- Bytes written to the last mbuf of a queue join its bytes. -/
theorem shape_write {cap off : Nat} {front : List Mbuf} {buf : Mbuf} {bs : List UInt8}
    (shape : Shape cap off (front ++ [buf]) bs) (data : List UInt8) {len : Nat} (enough : len ≤ data.length)
    (fits : len ≤ cap - buf.last) :
    ∃ bytes, mbuf_write buf data len = (len, { buf with last := buf.last + len, bytes := bytes }) ∧
      Shape cap off (front ++ [{ buf with last := buf.last + len, bytes := bytes }]) (bs ++ data.take len) := by
  have sound := shape.sound buf (by simp)
  obtain ⟨bytes, written, contents⟩ := mbuf_write_spec sound data enough fits
  refine ⟨bytes, written, ?_, ?_, ?_, ?_, ?_, shape.inside⟩
  · intro b member
    rcases List.mem_append.mp member with earlier | last
    · exact shape.sound b (by simp [earlier])
    · rw [List.mem_singleton.mp last]
      have := sound.read
      have := sound.written
      exact ⟨sound.start, sound.stop, by dsimp only; omega, by dsimp only; omega⟩
  · have before := shape.bytes
    simp only [List.flatMap_append, List.flatMap_singleton] at before ⊢
    rw [contents, ← List.append_assoc, before]
  · simpa using shape.full
  · intro b member
    cases front with
    | nil => simp at member
    | cons first rest =>
      simp only [List.cons_append, List.tail_cons, List.mem_append, List.mem_singleton] at member
      rcases member with earlier | rfl
      · exact shape.unread b (by simp [earlier])
      · exact shape.unread buf (by simp)
  · have head := shape.head
    cases front with
    | nil => simpa using head
    | cons first rest => simpa using head

/-- A new mbuf joins a queue whose last mbuf is written to the end. -/
theorem shape_get {cap off : Nat} {queue : List Mbuf} {bs : List UInt8} (shape : Shape cap off queue bs)
    (last : ∀ b ∈ queue.getLast?, b.last = cap) (info : Nat) {w : World} (offset : w.ctx.mbuf_offset = cap) :
    Shape cap off (queue ++ [(get_for info w).1]) bs := by
  obtain ⟨start, stop, pos, written⟩ := get_for_fields info w
  refine ⟨?_, ?_, ?_, ?_, ?_, shape.inside⟩
  · intro b member
    rcases List.mem_append.mp member with earlier | new
    · exact shape.sound b earlier
    · rw [List.mem_singleton.mp new]
      exact ⟨start, by rw [stop, offset], by omega, by omega⟩
  · have empty : content (get_for info w).1 = [] := by simp [content, mbuf_read_size, pos, written]
    simp [empty, shape.bytes]
  · intro b member
    rw [List.dropLast_concat] at member
    rcases List.eq_nil_or_concat queue with rfl | ⟨front, buf, rfl⟩
    · simp at member
    · rw [List.concat_eq_append] at member last shape
      rcases List.mem_append.mp member with earlier | same
      · exact shape.full b (by simpa using earlier)
      · rw [List.mem_singleton.mp same]
        exact last buf (by simp)
  · intro b member
    cases queue with
    | nil => simp at member
    | cons first rest =>
      simp only [List.cons_append, List.tail_cons, List.mem_append, List.mem_singleton] at member
      rcases member with earlier | rfl
      · exact shape.unread b earlier
      · exact pos
  · have head := shape.head
    cases queue with
    | nil => simpa [pos] using head
    | cons first rest => simpa using head

/-- A queue whose last mbuf holds a byte is one between two operations. -/
theorem holds_of_shape {cap off : Nat} {front : List Mbuf} {buf : Mbuf} {bs : List UInt8}
    (shape : Shape cap off (front ++ [buf]) bs) (some : 0 < buf.last) : Holds cap off (front ++ [buf]) bs := by
  refine ⟨shape, ?_⟩
  intro b member
  rcases List.mem_append.mp (List.mem_of_mem_tail member) with earlier | same
  · have := shape.full b (by simpa using earlier)
    have := shape.inside
    omega
  · rw [List.mem_singleton.mp same]
    exact some

/-- The passes of the loop of `con_buf_write`: the rest of the data fits with room
    to spare, or fills the last mbuf, or a new mbuf takes what is left. -/
inductive Writes (info : Nat) : World → List Mbuf → Mbuf → List UInt8 → World → List Mbuf → Bool → Prop where
  | fits {w : World} {front : List Mbuf} {buf : Mbuf} {data : List UInt8} (nonempty : data ≠ [])
      (room : data.length < mbuf_write_size buf) :
      Writes info w front buf data w (front ++ [(mbuf_write buf data data.length).2]) true
  | fills {w : World} {front : List Mbuf} {buf : Mbuf} {data : List UInt8} (nonempty : data ≠ [])
      (exactly : data.length = mbuf_write_size buf) :
      Writes info w front buf data w (front ++ [(mbuf_write buf data (mbuf_write_size buf)).2]) false
  | next {w w' : World} {front queue : List Mbuf} {buf : Mbuf} {data : List UInt8} {counted : Bool}
      (more : mbuf_write_size buf < data.length)
      (rest : Writes info (get_for info w).2 (front ++ [(mbuf_write buf data (mbuf_write_size buf)).2])
        (get_for info w).1 (data.drop (mbuf_write_size buf)) w' queue counted) :
      Writes info w front buf data w' queue counted

theorem loop_done (info fuel : Nat) (w : World) (front : List Mbuf) (buf : Mbuf) :
    con_buf_write_loop info (fuel + 1) w front buf [] = some (w, front ++ [buf], true) := by
  simp [con_buf_write_loop]

/-- With room in the last mbuf, and in every new one, the loop ends. -/
theorem loop_writes (info : Nat) {fuel : Nat} {w : World} {front : List Mbuf} {buf : Mbuf} {data : List UInt8}
    (positive : 0 < w.ctx.mbuf_offset) (room : 0 < mbuf_write_size buf) (nonempty : data ≠ [])
    (enough : data.length < fuel) :
    ∃ w' queue counted, con_buf_write_loop info fuel w front buf data = some (w', queue, counted) ∧
      Writes info w front buf data w' queue counted := by
  induction fuel generalizing w front buf data with
  | zero => omega
  | succ fuel ih =>
    have some : data.length ≠ 0 := fun none => nonempty (List.length_eq_zero_iff.mp none)
    rw [con_buf_write_loop]
    simp only [ne_eq, some, not_false_eq_true, ↓reduceIte]
    by_cases fits : mbuf_write_size buf > data.length
    · have size : (mbuf_write buf data data.length).1 = data.length := by rw [mbuf_write_fst]; omega
      obtain ⟨spare, rfl⟩ : ∃ n, fuel = n + 1 := ⟨fuel - 1, by omega⟩
      simp only [fits, ↓reduceIte, size, List.drop_length, loop_done]
      exact ⟨_, _, _, rfl, .fits nonempty fits⟩
    · have size : (mbuf_write buf data (mbuf_write_size buf)).1 = mbuf_write_size buf := by rw [mbuf_write_fst]; omega
      simp only [fits, ↓reduceIte, size]
      by_cases fills : data.length - mbuf_write_size buf = 0
      · simp only [fills, ↓reduceIte]
        exact ⟨_, _, _, rfl, .fills nonempty (by omega)⟩
      · simp only [fills, ↓reduceIte]
        obtain ⟨start, stop, pos, written⟩ := get_for_fields info w
        have left : (data.drop (mbuf_write_size buf)).length < fuel := by simp; omega
        obtain ⟨w', queue, counted, executed, writes⟩ :=
          @ih (get_for info w).2 (front ++ [(mbuf_write buf data (mbuf_write_size buf)).2]) (get_for info w).1
            (data.drop (mbuf_write_size buf)) (by simpa using positive)
            (by simp [mbuf_write_size, stop, written, positive]) (by simp; omega) left
        exact ⟨w', queue, counted, executed, .next (by omega) writes⟩

/-- The passes append the data; the last one returns early when it ends at the
    end of an mbuf. -/
theorem writes_spec {info cap off : Nat} {w w' : World} {front queue : List Mbuf} {buf : Mbuf} {bs data : List UInt8}
    {counted : Bool} (writes : Writes info w front buf data w' queue counted) (offset : w.ctx.mbuf_offset = cap)
    (shape : Shape cap off (front ++ [buf]) bs) :
    w'.ctx.mbuf_offset = cap ∧ Holds cap off queue (bs ++ data) ∧
      (counted = true ↔ ¬ cap ∣ buf.last + data.length) := by
  induction writes generalizing bs with
  | @fits w front buf data nonempty room =>
    have sound := shape.sound buf (by simp)
    simp only [mbuf_write_size, sound.stop] at room
    obtain ⟨bytes, written, after⟩ := shape_write shape data (Nat.le_refl _) (by omega)
    have some : 0 < data.length := List.length_pos_of_ne_nil nonempty
    rw [written]
    refine ⟨offset, ?_, ?_⟩
    · rw [List.take_length] at after
      exact holds_of_shape after (by dsimp only; omega)
    · simp only [true_iff]
      exact Nat.not_dvd_of_pos_of_lt (by omega) (by omega)
  | @fills w front buf data nonempty exactly =>
    have sound := shape.sound buf (by simp)
    have some : 0 < data.length := List.length_pos_of_ne_nil nonempty
    rw [← exactly]
    simp only [mbuf_write_size, sound.stop] at exactly
    obtain ⟨bytes, written, after⟩ := shape_write shape data (Nat.le_refl _) (by omega)
    rw [written]
    refine ⟨offset, ?_, ?_⟩
    · rw [List.take_length] at after
      exact holds_of_shape after (by dsimp only; omega)
    · have total : buf.last + data.length = cap := by have := sound.written; omega
      simp [total]
  | @next w w' front queue buf data counted more rest ih =>
    have sound := shape.sound buf (by simp)
    have sizeIs : mbuf_write_size buf = cap - buf.last := by simp [mbuf_write_size, sound.stop]
    obtain ⟨bytes, written, after⟩ := shape_write shape data (Nat.le_of_lt more) (by omega)
    have atEnd : buf.last + mbuf_write_size buf = cap := by have := sound.written; omega
    rw [written] at rest ih
    obtain ⟨_, _, _, fresh⟩ := get_for_fields info w
    obtain ⟨offset', holds, countedIff⟩ := ih (by simpa using offset)
      (shape_get after (by simp [atEnd]) info offset)
    refine ⟨offset', ?_, ?_⟩
    · simpa using holds
    · have split : buf.last + data.length = cap + (data.drop (mbuf_write_size buf)).length := by
        simp only [List.length_drop]; omega
      rw [countedIff, split, fresh, Nat.zero_add, Nat.dvd_add_right (Nat.dvd_refl cap)]

/-- Either the last mbuf has room or a new one follows. -/
theorem make_room_cases (info : Nat) (w : World) (queue : List Mbuf) :
    (∃ front buf, queue = front ++ [buf] ∧ mbuf_write_size buf ≠ 0 ∧ make_room info w queue = (w, queue)) ∨
    ((∀ b ∈ queue.getLast?, mbuf_write_size b = 0) ∧
      make_room info w queue = ((get_for info w).2, queue ++ [(get_for info w).1])) := by
  rcases List.eq_nil_or_concat queue with rfl | ⟨front, buf, rfl⟩
  · exact .inr ⟨by simp, rfl⟩
  · by_cases full : mbuf_write_size buf = 0
    · exact .inr ⟨by simp [full], by simp [make_room, full]⟩
    · exact .inl ⟨front, buf, by simp, full, by simp [make_room, full]⟩

/-- What a write of some bytes does: the con_info and the room for a first byte,
    then the passes of the loop. -/
inductive Written (w : World) (con : Connection) (data : List UInt8) : World → Connection → Prop where
  | mk {w' : World} {front queue : List Mbuf} {buf : Mbuf} {counted : Bool}
      (room : (make_room (attach_info w con).1.block (attach_info w con).2 (attach_info w con).1.data).2 =
        front ++ [buf])
      (writes : Writes (attach_info w con).1.block
        (make_room (attach_info w con).1.block (attach_info w con).2 (attach_info w con).1.data).1
        front buf data w' queue counted) :
      Written w con data w' { con with
        info := some { (attach_info w con).1 with data := queue }
        data_size := con.data_size + if counted then data.length else 0 }

@[simp] theorem attach_info_offset (w : World) (con : Connection) :
    (attach_info w con).2.ctx.mbuf_offset = w.ctx.mbuf_offset := by
  unfold attach_info con_info_new
  split
  · split <;> rfl
  · rfl

@[simp] theorem attach_info_data (w : World) (con : Connection) : (attach_info w con).1.data = queued con := by
  obtain ⟨size, info, ctx⟩ := con
  cases info with
  | none => unfold attach_info con_info_new; dsimp only; split <;> rfl
  | some info => rfl

theorem con_buf_write_nil (w : World) (con : Connection) : con_buf_write w con [] = some (w, con) := rfl

/-- Where new mbufs have room, a write has a result. -/
theorem con_buf_write_written {w : World} (positive : 0 < w.ctx.mbuf_offset) (con : Connection) {data : List UInt8}
    (nonempty : data ≠ []) :
    ∃ w' con', con_buf_write w con data = some (w', con') ∧ Written w con data w' con' := by
  have some : data.length ≠ 0 := fun none => nonempty (List.length_eq_zero_iff.mp none)
  set info := (attach_info w con).1 with infoIs
  set w₁ := (attach_info w con).2 with w₁Is
  have offset₁ : w₁.ctx.mbuf_offset = w.ctx.mbuf_offset := attach_info_offset w con
  obtain ⟨front, buf, w₂, madeRoom, offset₂, room⟩ : ∃ front buf w₂,
      make_room info.block w₁ info.data = (w₂, front ++ [buf]) ∧ w₂.ctx.mbuf_offset = w.ctx.mbuf_offset ∧
        0 < mbuf_write_size buf := by
    rcases make_room_cases info.block w₁ info.data with ⟨front, buf, same, room, made⟩ | ⟨_, made⟩
    · exact ⟨front, buf, w₁, by rw [made, ← same], offset₁, by omega⟩
    · obtain ⟨start, stop, pos, written⟩ := get_for_fields info.block w₁
      refine ⟨info.data, _, _, made, by simp [offset₁], ?_⟩
      simp [mbuf_write_size, stop, written, offset₁, positive]
  obtain ⟨w', queue, counted, executed, writes⟩ :=
    loop_writes info.block (by omega : 0 < w₂.ctx.mbuf_offset) room nonempty (Nat.lt_succ_self _)
  have madeQueue := congrArg Prod.snd madeRoom
  have madeWorld := congrArg Prod.fst madeRoom
  dsimp only at madeQueue madeWorld
  refine ⟨w', { con with
    info := Option.some { info with data := queue }
    data_size := con.data_size + if counted then data.length else 0 }, ?_,
    .mk madeQueue (by rw [← infoIs, ← w₁Is, madeWorld]; exact writes)⟩
  unfold con_buf_write
  simp only [some, ↓reduceIte, ← infoIs, ← w₁Is, madeRoom, List.getLast?_concat, List.dropLast_concat, executed]
  cases counted <;> simp

/-- A write appends its bytes to the unread ones. It counts them in `data_size`
    unless it ends exactly at the end of an mbuf. -/
theorem con_buf_write_spec {cap off : Nat} {w : World} {con : Connection} {bs : List UInt8}
    (offset : w.ctx.mbuf_offset = cap) (holds : Holds cap off (queued con) bs) (data : List UInt8) :
    ∃ w' con', con_buf_write w con data = some (w', con') ∧ w'.ctx.mbuf_offset = cap ∧
      Holds cap off (queued con') (bs ++ data) ∧ con'.ctx = con.ctx ∧
      (con'.info = none ↔ con.info = none ∧ data = []) ∧
      con'.data_size = con.data_size +
        if data ≠ [] ∧ cap ∣ fill (queued con) + data.length then 0 else (data.length : Int) := by
  by_cases empty : data = []
  · subst empty
    exact ⟨w, con, con_buf_write_nil w con, offset, by simpa using holds, rfl, by simp, by simp⟩
  · have positive : 0 < w.ctx.mbuf_offset := by have := holds.inside; omega
    obtain ⟨w', con', executed, written⟩ := con_buf_write_written positive con empty
    obtain @⟨front, queue, buf, counted, room, writes⟩ := written
    set info := (attach_info w con).1 with infoIs
    set w₁ := (attach_info w con).2 with w₁Is
    have offset₁ : w₁.ctx.mbuf_offset = cap := (attach_info_offset w con).trans offset
    have dataIs : info.data = queued con := attach_info_data w con
    obtain ⟨offset₂, shape, ends⟩ : (make_room info.block w₁ info.data).1.ctx.mbuf_offset = cap ∧
        Shape cap off (front ++ [buf]) bs ∧ ∀ n, cap ∣ buf.last + n ↔ cap ∣ fill (queued con) + n := by
      rw [← room]
      rcases make_room_cases info.block w₁ info.data with ⟨front', buf', same, _, made⟩ | ⟨full, made⟩
      · rw [made] at room ⊢
        refine ⟨offset₁, by rw [dataIs]; exact holds.toShape, ?_⟩
        intro n
        rw [← dataIs, show info.data = front ++ [buf] from room, fill_concat]
      · rw [made] at room ⊢
        have lastFull : ∀ b ∈ (queued con).getLast?, b.last = cap := by
          intro b last
          have member := List.mem_of_getLast? last
          have sound := holds.sound b member
          have none := full b (by rw [dataIs]; exact last)
          simp only [mbuf_write_size, sound.stop] at none
          have := sound.written
          omega
        refine ⟨by simp [offset₁], by rw [dataIs]; exact shape_get holds.toShape lastFull _ offset₁, ?_⟩
        intro n
        obtain ⟨_, rfl⟩ := List.append_inj' room rfl |>.imp id (fun h => List.singleton_injective h)
        obtain ⟨_, _, _, fresh⟩ := get_for_fields info.block w₁
        rw [fresh, Nat.zero_add]
        rcases List.eq_nil_or_concat (queued con) with none | ⟨front', last, same⟩
        · simp [none]
        · rw [List.concat_eq_append] at same
          rw [same, fill_concat, lastFull last (by simp [same]), Nat.dvd_add_right (Nat.dvd_refl cap)]
    obtain ⟨offset', holds', countedIff⟩ := writes_spec writes offset₂ shape
    refine ⟨w', _, executed, offset', holds', rfl, by simp [empty], ?_⟩
    rw [ends] at countedIff
    by_cases atEnd : cap ∣ fill (queued con) + data.length
    · have : counted = false := by simpa [atEnd] using countedIff
      simp [this, empty, atEnd]
    · have : counted = true := countedIff.mpr atEnd
      simp [this, atEnd]

/-! ## Reading -/

/-- The number of bytes the loop of `con_buf_read` takes from a queue that holds
    `n` bytes from the offset `off` on: up to `len` from every mbuf, as long as
    mbufs are emptied and `allow` has not become exactly 0. -/
def taken (cap len : Nat) (allow : Int) (off n : Nat) : Nat :=
  if n = 0 ∨ allow = 0 then 0
  else
    let ret := min len (min (cap - off) n)
    if 0 < ret ∧ off + ret = cap then ret + taken cap len (allow - ret) 0 (n - ret) else ret
termination_by n
decreasing_by omega

theorem taken_le (cap len : Nat) (allow : Int) (off n : Nat) : taken cap len allow off n ≤ n := by
  induction n using Nat.strongRecOn generalizing allow off with
  | ind n ih =>
    rw [taken]
    dsimp only
    split_ifs with stop emptied
    · exact Nat.zero_le n
    · have := ih (n - min len (min (cap - off) n)) (by omega) (allow - (min len (min (cap - off) n) : Nat)) 0
      omega
    · omega

/-- The first mbuf of a queue holds the bytes up to its end, or all of them. -/
theorem holds_first {cap off : Nat} {buf : Mbuf} {rest : List Mbuf} {bs : List UInt8}
    (holds : Holds cap off (buf :: rest) bs) :
    buf.pos = off ∧ content buf = bs.take (cap - off) ∧ mbuf_read_size buf = min (cap - off) bs.length ∧
      buf.last = off + mbuf_read_size buf ∧ rest.flatMap content = bs.drop (cap - off) ∧
      (rest ≠ [] → cap - off < bs.length) := by
  have pos : buf.pos = off := by simpa using holds.head
  have sound := holds.sound buf (by simp)
  have read := sound.read
  have written := sound.written
  have inside := holds.inside
  have bytes : bs = content buf ++ rest.flatMap content := by simpa using holds.bytes.symm
  have size : mbuf_read_size buf = buf.last - off := by rw [mbuf_read_size, pos]
  cases rest with
  | nil =>
    have all : bs = content buf := by simpa using bytes
    have len : bs.length = buf.last - off := by rw [all, content_length, size]
    refine ⟨pos, ?_, by omega, by omega, ?_, by simp⟩
    · rw [← all, List.take_of_length_le (by omega)]
    · simp only [List.flatMap_nil]
      exact (List.drop_of_length_le (by omega)).symm
  | cons next more =>
    have full : buf.last = cap := holds.full buf (by simp)
    have len : (content buf).length = cap - off := by rw [content_length, size, full]
    have later : 0 < ((next :: more).flatMap content).length := by
      have unread := holds.unread next (by simp)
      have some := holds.written next (by simp)
      rw [List.flatMap_cons, List.length_append, content_length, mbuf_read_size, unread]
      omega
    have total : bs.length = (cap - off) + ((next :: more).flatMap content).length := by
      rw [bytes, List.length_append, len]
    refine ⟨pos, ?_, by omega, by omega, ?_, fun _ => by omega⟩
    · rw [bytes, ← len, List.take_left]
    · rw [bytes, ← len, List.drop_left]

/-- A queue without its first mbuf, once that one is emptied. -/
theorem holds_rest {cap off : Nat} {buf : Mbuf} {rest : List Mbuf} {bs : List UInt8}
    (holds : Holds cap off (buf :: rest) bs) : Holds cap 0 rest (bs.drop (cap - off)) := by
  obtain ⟨_, _, _, _, bytes, _⟩ := holds_first holds
  have inside := holds.inside
  refine ⟨⟨fun b member => holds.sound b (by simp [member]), bytes, ?_, ?_, ?_, by omega⟩, ?_⟩
  · intro b member
    cases rest with
    | nil => simp at member
    | cons next more => exact holds.full b (by simpa using .inr member)
  · intro b member
    exact holds.unread b (List.mem_of_mem_tail member)
  · cases rest with
    | nil => rfl
    | cons next more => simpa using holds.unread next (by simp)
  · intro b member
    exact holds.written b (List.mem_of_mem_tail member)

/-- A queue whose first mbuf was read without being emptied. -/
theorem holds_advance {cap off : Nat} {buf : Mbuf} {rest : List Mbuf} {bs : List UInt8}
    (holds : Holds cap off (buf :: rest) bs) {k : Nat} (some : k ≤ mbuf_read_size buf) (inside : off + k < cap) :
    Holds cap (off + k) ({ buf with pos := buf.pos + k } :: rest) (bs.drop k) := by
  obtain ⟨pos, _, size, last, _, _⟩ := holds_first holds
  have sound := holds.sound buf (by simp)
  have bytes : bs = content buf ++ rest.flatMap content := by simpa using holds.bytes.symm
  refine ⟨⟨?_, ?_, ?_, ?_, ?_, inside⟩, ?_⟩
  · intro b member
    rcases List.mem_cons.mp member with rfl | later
    · exact ⟨sound.start, sound.stop, by dsimp only; omega, sound.written⟩
    · exact holds.sound b (by simp [later])
  · rw [List.flatMap_cons, content_advance, bytes, List.drop_append_of_le_length (by simpa using some)]
  · intro b member
    cases rest with
    | nil => simp at member
    | cons next more =>
      rcases List.mem_cons.mp member with rfl | later
      · exact holds.full buf (by simp)
      · exact holds.full b (by simp [later])
  · intro b member
    exact holds.unread b member
  · simp [pos]
  · intro b member
    exact holds.written b member

/-- The write marker of the last mbuf stands where the bytes end, modulo the capacity. -/
theorem holds_fill {cap off : Nat} {queue : List Mbuf} {bs : List UInt8} (holds : Holds cap off queue bs) :
    fill queue ≡ off + bs.length [MOD cap] := by
  induction queue generalizing off bs with
  | nil =>
    have none : bs = [] := by simpa using holds.bytes.symm
    have start : off = 0 := by simpa using holds.head.symm
    subst none start
    rfl
  | cons buf rest ih =>
    obtain ⟨_, _, size, last, _, more⟩ := holds_first holds
    have inside := holds.inside
    by_cases alone : rest = []
    · subst alone
      have all : mbuf_read_size buf = bs.length := by
        have bytes : content buf = bs := by simpa using holds.bytes
        rw [← bytes, content_length]
      rw [← all, ← last]
      rfl
    · have tail := ih (holds_rest holds)
      have later := more alone
      have same : fill (buf :: rest) = fill rest := by
        obtain ⟨next, others, rfl⟩ := List.exists_cons_of_ne_nil alone
        simp [fill]
      have total : off + bs.length = cap + (0 + (bs.drop (cap - off)).length) := by
        rw [List.length_drop]
        omega
      rw [same, total]
      exact tail.trans (Nat.add_modEq_left).symm

/-- A read of the first mbuf takes bytes from the front, and the mbuf is recycled if
    that leaves it written and read to its end. -/
theorem first_pass {cap off : Nat} {buf : Mbuf} {rest : List Mbuf} {bs : List UInt8}
    (holds : Holds cap off (buf :: rest) bs) (len : Nat) :
    (content buf).take len = bs.take (min len (mbuf_read_size buf)) ∧
      (mbuf_can_recycle { buf with pos := buf.pos + min len (mbuf_read_size buf) } = true ↔
        off + min len (mbuf_read_size buf) = cap) := by
  obtain ⟨pos, contents, size, last, _, _⟩ := holds_first holds
  have sound := holds.sound buf (by simp)
  constructor
  · rw [contents, List.take_take, List.take_eq_take_iff]
    omega
  · simp only [mbuf_can_recycle, mbuf_read_size, mbuf_write_size, sound.stop, decide_eq_true_eq]
    have := sound.written
    omega

/-- The loop takes `taken` bytes from the front. -/
theorem read_loop_spec {cap off : Nat} {queue : List Mbuf} {bs : List UInt8} (holds : Holds cap off queue bs)
    (len : Nat) (w : World) (allow : Int) (reply : Reply) :
    ∃ w' queue', con_buf_read_loop len queue w allow reply = (w', queue',
        ⟨reply.ret + taken cap len allow off bs.length, reply.dst ++ bs.take (taken cap len allow off bs.length)⟩) ∧
      w'.ctx.mbuf_offset = w.ctx.mbuf_offset ∧
      Holds cap ((off + taken cap len allow off bs.length) % cap) queue' (bs.drop (taken cap len allow off bs.length)) := by
  induction queue generalizing off bs w allow reply with
  | nil =>
    have none : bs = [] := by simpa using holds.bytes.symm
    have start : off = 0 := by simpa using holds.head.symm
    subst none start
    have nothing : taken cap len allow 0 0 = 0 := by rw [taken]; simp
    exact ⟨w, [], by simp [con_buf_read_loop, nothing], rfl, by simpa [nothing] using holds⟩
  | cons buf rest ih =>
    obtain ⟨pos, _, size, _, _, _⟩ := holds_first holds
    have inside := holds.inside
    have offIs : off % cap = off := Nat.mod_eq_of_lt inside
    rw [con_buf_read_loop, mbuf_read_spec]
    by_cases stop : bs.length = 0 ∨ allow = 0
    · have nothing : taken cap len allow off bs.length = 0 := by rw [taken, if_pos stop]
      have guard : ¬ (mhdr_readable (buf :: rest) = true ∧ allow ≠ 0) := by
        rintro ⟨readable, allowed⟩
        have empty := stop.resolve_right allowed
        simp [mhdr_readable, size, empty] at readable
      rw [if_neg guard, nothing]
      exact ⟨w, buf :: rest, by simp, rfl, by simpa [offIs] using holds⟩
    · have guard : mhdr_readable (buf :: rest) = true ∧ allow ≠ 0 := by
        refine ⟨?_, fun none => stop (.inr none)⟩
        rw [mhdr_readable, decide_eq_true_eq, size]
        omega
      rw [if_pos guard]
      simp only
      obtain ⟨first, recycled⟩ := first_pass holds len
      set ret := min len (mbuf_read_size buf) with retIs
      have advanced : mbuf_can_recycle { buf with pos := buf.pos + ret } = true ↔ 0 < ret ∧ off + ret = cap :=
        recycled.trans ⟨fun same => ⟨by omega, same⟩, And.right⟩
      have unfolded : taken cap len allow off bs.length =
          if 0 < ret ∧ off + ret = cap then ret + taken cap len (allow - ret) 0 (bs.length - ret) else ret := by
        rw [taken]
        simp only [stop, ↓reduceIte, ← size, ← retIs]
      by_cases emptied : 0 < ret ∧ off + ret = cap
      · have retAll : ret = cap - off := by omega
        rw [if_pos (advanced.mpr emptied)]
        have tail := holds_rest holds
        rw [← retAll] at tail
        obtain ⟨w', queue', executed, offset, after⟩ :=
          ih tail (mbuf_recycle { buf with pos := buf.pos + ret } w) (allow - ret)
            ⟨reply.ret + ret, reply.dst ++ (content buf).take len⟩
        rw [List.length_drop] at executed after
        have count : taken cap len allow off bs.length = ret + taken cap len (allow - ret) 0 (bs.length - ret) := by
          rw [unfolded, if_pos emptied]
        refine ⟨w', queue', ?_, offset.trans (mbuf_recycle_offset _ _), ?_⟩
        · rw [executed, count, first, List.take_add]
          simp [Int.add_assoc]
        · rw [count]
          have wrap : (off + (ret + taken cap len (allow - ret) 0 (bs.length - ret))) % cap =
              (0 + taken cap len (allow - ret) 0 (bs.length - ret)) % cap := by
            rw [← Nat.add_assoc, emptied.2, Nat.add_mod_left, Nat.zero_add]
          rw [wrap, ← List.drop_drop]
          exact after
      · rw [if_neg (fun recycled => emptied (advanced.mp recycled))]
        have count : taken cap len allow off bs.length = ret := by rw [unfolded, if_neg emptied]
        have notEnd : off + ret < cap := by omega
        rw [count, Nat.mod_eq_of_lt notEnd]
        refine ⟨w, { buf with pos := buf.pos + ret } :: rest, ?_, rfl,
          holds_advance holds (Nat.min_le_right _ _) notEnd⟩
        rw [first]

/-- The limit `con_buf_read` computes from `data_size`. -/
def allowed (con : Connection) (len : Nat) : Int := if (len : Int) > con.data_size then con.data_size else len

theorem con_buf_read_spec {cap off : Nat} {con : Connection} {bs : List UInt8}
    (holds : Holds cap off (queued con) bs) (w : World) (len : Nat) (attached : con.info ≠ none) :
    ∃ w' con', con_buf_read w con len = some (w', con', ⟨taken cap len (allowed con len) off bs.length,
        bs.take (taken cap len (allowed con len) off bs.length)⟩) ∧
      w'.ctx.mbuf_offset = w.ctx.mbuf_offset ∧
      Holds cap ((off + taken cap len (allowed con len) off bs.length) % cap) (queued con')
        (bs.drop (taken cap len (allowed con len) off bs.length)) ∧
      con'.ctx = con.ctx ∧ con'.info ≠ none ∧
      con'.data_size = con.data_size - taken cap len (allowed con len) off bs.length := by
  obtain ⟨size, info, ctx⟩ := con
  cases info with
  | none => exact absurd rfl attached
  | some info =>
    obtain ⟨w', queue, executed, offset, after⟩ := read_loop_spec holds len w (allowed ⟨size, some info, ctx⟩ len) ⟨0, []⟩
    rw [queued_some] at executed
    simp only [Int.zero_add, List.nil_append] at executed
    set k := taken cap len (allowed ⟨size, some info, ctx⟩ len) off bs.length
    refine ⟨w', ⟨size - k, some { info with data := queue }, ctx⟩, ?_, offset, by simpa using after, rfl, by simp, rfl⟩
    simp only [con_buf_read]
    rw [show (if (len : Int) > size then size else (len : Int)) = allowed ⟨size, some info, ctx⟩ len from rfl, executed]

/-! ## Peeking and freeing -/

/-- The loop copies the first `len` bytes, however they are spread over the mbufs. -/
theorem peek_loop_spec (queue : List Mbuf) (len : Nat) (reply : Reply) :
    con_buf_peek_loop queue len reply =
      ⟨reply.ret + min len (queue.flatMap content).length, reply.dst ++ (queue.flatMap content).take len⟩ := by
  induction queue generalizing len reply with
  | nil => simp [con_buf_peek_loop]
  | cons buf rest ih =>
    have copied : (if mbuf_read_size buf > len then len else mbuf_read_size buf) = min len (mbuf_read_size buf) := by
      split_ifs <;> omega
    have head : (content buf).take (min len (mbuf_read_size buf)) = (content buf).take len := by
      rw [List.take_eq_take_iff, content_length]
      omega
    simp only [con_buf_peek_loop, copied, mbuf_peek_spec, head]
    by_cases done : len - min len (mbuf_read_size buf) = 0
    · have short : len ≤ (content buf).length := by rw [content_length]; omega
      rw [if_pos done, List.flatMap_cons, List.take_append_of_le_length short, List.length_append, content_length]
      congr 1
      omega
    · rw [if_neg done, ih, List.flatMap_cons, List.take_append, List.length_append, content_length]
      have rest : len - min len (mbuf_read_size buf) = len - mbuf_read_size buf := by omega
      rw [rest, List.append_assoc]
      simp only [Reply.mk.injEq, and_true]
      omega

theorem con_buf_peek_spec {cap off : Nat} {con : Connection} {bs : List UInt8}
    (holds : Holds cap off (queued con) bs) (len : Nat) :
    con_buf_peek con len = ⟨(min len bs.length : Nat), bs.take len⟩ := by
  obtain ⟨size, info, ctx⟩ := con
  rw [← holds.bytes]
  cases info with
  | none => simp [con_buf_peek]
  | some info =>
    simp only [con_buf_peek, peek_loop_spec, queued_some]
    simp

@[simp] theorem free_loop_offset (queue : List Mbuf) (w : World) :
    (connection_buf_free_loop queue w).ctx.mbuf_offset = w.ctx.mbuf_offset := by
  induction queue generalizing w with
  | nil => rfl
  | cons buf rest ih => rw [connection_buf_free_loop, ih, mbuf_recycle_offset]

theorem connection_buf_free_spec (w : World) (con : Connection) :
    (connection_buf_free w con).1.ctx.mbuf_offset = w.ctx.mbuf_offset ∧ queued (connection_buf_free w con).2 = [] ∧
      (connection_buf_free w con).2.data_size = con.data_size ∧ (connection_buf_free w con).2.ctx = con.ctx ∧
      ((connection_buf_free w con).2.info = none ↔ con.info = none) := by
  obtain ⟨size, info, ctx⟩ := con
  cases info with
  | none => exact ⟨rfl, rfl, rfl, rfl, by simp [connection_buf_free]⟩
  | some info => simp [connection_buf_free]

end TcpLearn.Chain
