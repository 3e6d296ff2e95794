import TcpLearn.Layout

/-!
# What writes allocate

A write continues where the last one stopped: at the write marker of the last mbuf,
or in a new mbuf once that one is full, whether the bytes before came in the same
call or in an earlier one. So cutting the bytes of a write into several calls changes
nothing but `data_size` (`chunks_as_one`).

Each new mbuf has to take a byte at least for the loop to end. `context_init`
subtracts the size of `struct mbuf` from the size it is given, so this fails for the
sizes from `MIN_BUFSIZE` up to that of the structure (`admitted_iff`).
-/
namespace TcpLearn.Writing
open TcpLearn.Memory TcpLearn.MbufOps TcpLearn.ConBuf TcpLearn.Chain TcpLearn.Contexts TcpLearn.Pools TcpLearn.Layout
open TcpLearn.Runs

/-! ## Bytes stored one after another -/

theorem store_nil (mem : Nat → UInt8) (dst : Nat) : store mem dst [] = mem := by
  funext i
  simp [store]

theorem store_append (mem : Nat → UInt8) (dst : Nat) (a b : List UInt8) :
    store mem dst (a ++ b) = store (store mem dst a) (dst + a.length) b := by
  funext i
  simp only [store]
  by_cases before : dst ≤ i
  · by_cases first : i - dst < a.length
    · rw [if_pos before, if_neg (by omega), if_pos before, List.getElem?_append_left first]
    · rw [if_pos before, if_pos (by omega), if_pos before, List.getElem?_append_right (by omega),
        List.getElem?_eq_none (by omega : a.length ≤ i - dst), Nat.sub_sub, Option.getD_none]
  · rw [if_neg before, if_neg (by omega), if_neg before]

theorem mbuf_write_fits (buf : Mbuf) (data : List UInt8) {len : Nat} (fits : len ≤ mbuf_write_size buf) :
    (mbuf_write buf data len).2 =
      { buf with bytes := store buf.bytes buf.last (data.take len), last := buf.last + len } := by
  by_cases full : mbuf_write_size buf = 0
  · have none : len = 0 := by omega
    simp [mbuf_write, full, none, store_nil]
  · have written : (if mbuf_write_size buf > len then len else mbuf_write_size buf) = len := by
      split_ifs <;> omega
    simp [mbuf_write, full, written]

theorem mbuf_write_room (buf : Mbuf) (data : List UInt8) {len : Nat} (fits : len ≤ mbuf_write_size buf) :
    mbuf_write_size (mbuf_write buf data len).2 = mbuf_write_size buf - len := by
  rw [mbuf_write_fits buf data fits, mbuf_write_size, mbuf_write_size]
  dsimp only
  omega

/-- Two writes to one mbuf are a write of the bytes of both. -/
theorem mbuf_write_append (buf : Mbuf) (a b : List UInt8) {len : Nat} (fits : a.length + len ≤ mbuf_write_size buf) :
    (mbuf_write (mbuf_write buf a a.length).2 b len).2 = (mbuf_write buf (a ++ b) (a.length + len)).2 := by
  have room := mbuf_write_room buf a (by omega : a.length ≤ mbuf_write_size buf)
  rw [mbuf_write_fits _ b (by omega), mbuf_write_fits buf a (by omega), mbuf_write_fits buf (a ++ b) fits]
  have whole : a.take (a.length + len) = a := List.take_of_length_le (Nat.le_add_right _ _)
  simp [store_append, List.take_append, whole, Nat.add_assoc]

/-! ## Writes one after another -/

theorem make_room_concat (info : Nat) (w : World) (front : List Mbuf) (buf : Mbuf) :
    make_room info w (front ++ [buf]) =
      if mbuf_write_size buf = 0 then ((get_for info w).2, front ++ [buf] ++ [(get_for info w).1])
      else (w, front ++ [buf]) := by
  simp [make_room]

/-- The passes of a second write go on where those of the first one stopped. -/
theorem writes_append {info : Nat} {w w₁ w₂ : World} {front queue₁ front₂ queue₂ : List Mbuf} {buf buf₂ : Mbuf}
    {a b : List UInt8} {counted counted₂ : Bool} (first : Writes info w front buf a w₁ queue₁ counted) (more : b ≠ [])
    (room : (make_room info w₁ queue₁).2 = front₂ ++ [buf₂])
    (second : Writes info (make_room info w₁ queue₁).1 front₂ buf₂ b w₂ queue₂ counted₂) :
    Writes info w front buf (a ++ b) w₂ queue₂ counted₂ := by
  have some : 0 < b.length := List.length_pos_of_ne_nil more
  induction first with
  | @fits w front buf a nonempty fits =>
    have left := mbuf_write_room buf a fits.le
    rw [make_room_concat, if_neg (by omega)] at room second
    obtain ⟨rfl, last⟩ := List.append_inj' room rfl
    obtain rfl := List.singleton_injective last
    cases second with
    | fits _ within =>
      rw [mbuf_write_append buf a b (by omega), ← List.length_append]
      exact .fits (by simp [nonempty]) (by rw [List.length_append]; omega)
    | fills _ exactly =>
      rw [left, mbuf_write_append buf a b (by omega), Nat.add_sub_cancel' fits.le]
      exact .fills (by simp [nonempty]) (by rw [List.length_append]; omega)
    | next beyond rest =>
      rw [left, mbuf_write_append buf a b (by omega), Nat.add_sub_cancel' fits.le] at rest
      refine .next (by rw [List.length_append]; omega) ?_
      rw [List.drop_append, List.drop_of_length_le fits.le, List.nil_append]
      exact rest
  | @fills w front buf a nonempty exactly =>
    have left := mbuf_write_room buf a (Nat.le_refl (mbuf_write_size buf))
    rw [make_room_concat, if_pos (by omega)] at room second
    obtain ⟨rfl, last⟩ := List.append_inj' room rfl
    obtain rfl := List.singleton_injective last
    refine .next (by rw [List.length_append]; omega) ?_
    have same : (mbuf_write buf (a ++ b) (mbuf_write_size buf)).2 = (mbuf_write buf a (mbuf_write_size buf)).2 := by
      rw [mbuf_write_fits buf _ (Nat.le_refl _), mbuf_write_fits buf _ (Nat.le_refl _), List.take_append_of_le_length exactly.ge]
    rw [same, List.drop_left' exactly]
    exact second
  | @next w w' front queue buf a counted beyond rest ih =>
    refine .next (by rw [List.length_append]; omega) ?_
    have same : (mbuf_write buf (a ++ b) (mbuf_write_size buf)).2 = (mbuf_write buf a (mbuf_write_size buf)).2 := by
      rw [mbuf_write_fits buf _ (Nat.le_refl _), mbuf_write_fits buf _ (Nat.le_refl _),
        List.take_append_of_le_length beyond.le]
    rw [same, List.drop_append_of_le_length beyond.le]
    exact ih room second

/-- The room in the last mbuf decides each pass. -/
theorem writes_unique {info : Nat} {w w₁ w₂ : World} {front queue₁ queue₂ : List Mbuf} {buf : Mbuf} {data : List UInt8}
    {counted₁ counted₂ : Bool} (left : Writes info w front buf data w₁ queue₁ counted₁)
    (right : Writes info w front buf data w₂ queue₂ counted₂) : w₁ = w₂ ∧ queue₁ = queue₂ := by
  induction left with
  | fits _ room =>
    cases right with
    | fits => exact ⟨rfl, rfl⟩
    | fills => omega
    | next => omega
  | fills _ exactly =>
    cases right with
    | fits => omega
    | fills => exact ⟨rfl, rfl⟩
    | next => omega
  | next more _ ih =>
    cases right with
    | fits => omega
    | fills => omega
    | next _ rest => exact ih rest

theorem written_unique {w w₁ w₂ : World} {con con₁ con₂ : Connection} {data : List UInt8}
    (left : Written w con data w₁ con₁) (right : Written w con data w₂ con₂) :
    w₁ = w₂ ∧ con₁.info = con₂.info ∧ con₁.ctx = con₂.ctx := by
  obtain @⟨front₁, queue₁, buf₁, _, room₁, writes₁⟩ := left
  obtain @⟨front₂, queue₂, buf₂, _, room₂, writes₂⟩ := right
  obtain ⟨rfl, last⟩ := List.append_inj' (room₁.symm.trans room₂) rfl
  obtain rfl := List.singleton_injective last
  obtain ⟨rfl, rfl⟩ := writes_unique writes₁ writes₂
  exact ⟨rfl, rfl, rfl⟩

/-- Two writes leave what a write of the bytes of both leaves. -/
theorem written_append {w w₁ w₂ : World} {con con₁ con₂ : Connection} {a b : List UInt8} (more : b ≠ [])
    (first : Written w con a w₁ con₁) (second : Written w₁ con₁ b w₂ con₂) :
    ∃ con', Written w con (a ++ b) w₂ con' ∧ con'.info = con₂.info ∧ con'.ctx = con₂.ctx := by
  obtain @⟨front, queue, buf, counted, room, writes⟩ := first
  obtain @⟨front₂, queue₂, buf₂, counted₂, room₂, writes₂⟩ := second
  exact ⟨_, .mk room (writes_append writes more room₂ writes₂), rfl, rfl⟩

theorem write_append {w : World} (positive : 0 < w.ctx.mbuf_offset) (con : Connection) {a b : List UInt8}
    (some : a ≠ []) (more : b ≠ []) {w₁ w₂ : World} {con₁ con₂ : Connection}
    (first : con_buf_write w con a = Option.some (w₁, con₁)) (second : con_buf_write w₁ con₁ b = Option.some (w₂, con₂)) :
    ∃ con', con_buf_write w con (a ++ b) = Option.some (w₂, con') ∧ con'.info = con₂.info ∧ con'.ctx = con₂.ctx := by
  obtain ⟨_, _, same, written⟩ := con_buf_write_written positive con some
  cases first.symm.trans same
  have positive₁ : 0 < w₁.ctx.mbuf_offset := by rwa [(Frame.keeps_write first).offset]
  obtain ⟨_, _, same₂, written₂⟩ := con_buf_write_written positive₁ con₁ more
  cases second.symm.trans same₂
  obtain ⟨con', both, info, ctx⟩ := written_append more written written₂
  obtain ⟨w', con'', executed, once⟩ := con_buf_write_written positive con (List.append_ne_nil_of_left_ne_nil some b)
  obtain ⟨rfl, infos, ctxs⟩ := written_unique once both
  exact ⟨con'', executed, infos.trans info, ctxs.trans ctx⟩

/-- `con_buf_write` of each chunk, in order. -/
def write_all : World → Connection → List (List UInt8) → Option (World × Connection)
  | w, con, [] => some (w, con)
  | w, con, chunk :: chunks => do
    let (w, con) ← con_buf_write w con chunk
    write_all w con chunks

theorem chunks_as_one (w : World) (positive : 1 ≤ w.ctx.mbuf_offset) (con : Connection) (chunks : List (List UInt8)) :
    ∃ w' con₁ con₂, write_all w con chunks = some (w', con₁) ∧
      con_buf_write w con chunks.flatten = some (w', con₂) ∧ con₁.info = con₂.info ∧ con₁.ctx = con₂.ctx := by
  induction chunks generalizing w con with
  | nil => exact ⟨w, con, con, rfl, con_buf_write_nil w con, rfl, rfl⟩
  | cons chunk chunks ih =>
    by_cases empty : chunk = []
    · subst empty
      simpa [write_all, con_buf_write_nil] using ih w positive con
    · obtain ⟨w₁, con₁, first, _⟩ := con_buf_write_written positive con empty
      obtain ⟨w', con₂, con₃, rest, joined, info, ctx⟩ := ih w₁ (by rwa [(Frame.keeps_write first).offset]) con₁
      have executed : write_all w con (chunk :: chunks) = some (w', con₂) := by
        simp only [write_all, first, Option.bind_eq_bind, Option.bind_some, rest]
      rw [List.flatten_cons]
      by_cases last : chunks.flatten = []
      · rw [last] at joined ⊢
        cases joined
        exact ⟨_, con₂, con₁, executed, by rw [List.append_nil]; exact first, info, ctx⟩
      · obtain ⟨con', whole, infos, ctxs⟩ := write_append positive con empty last first joined
        exact ⟨w', con₂, con', executed, whole, info.trans infos.symm, ctx.trans ctxs.symm⟩

theorem three_chunks_as_one :
    ∃ w' con₁ con₂, write_all Sessions.test_context ⟨0, none, none⟩ [[0, 1, 2, 3, 4, 5, 6, 7], [], [8]] = some (w', con₁) ∧
      con_buf_write Sessions.test_context ⟨0, none, none⟩ [0, 1, 2, 3, 4, 5, 6, 7, 8] = some (w', con₂) ∧
      con₁.info = con₂.info ∧ con₁.ctx = con₂.ctx :=
  chunks_as_one Sessions.test_context (by decide) ⟨0, none, none⟩ [[0, 1, 2, 3, 4, 5, 6, 7], [], [8]]

/-! ## How many mbufs a write takes -/

/-- The lower bound for the size of a buffer. -/
def MIN_BUFSIZE : Int := 32

/-- The space left in the last mbuf. -/
def space (con : Connection) : Nat := ((queued con).getLast?.map mbuf_write_size).getD 0

/-- The fewest mbufs of the capacity that hold `n` bytes. -/
def needed (cap n : Nat) : Nat := (n + cap - 1) / cap

theorem needed_zero {cap : Nat} (positive : 0 < cap) : needed cap 0 = 0 := Nat.div_eq_of_lt (by omega)

theorem needed_step {cap n : Nat} (positive : 0 < cap) (some : 0 < n) : needed cap n = needed cap (n - cap) + 1 := by
  by_cases beyond : cap ≤ n
  · have total : n + cap - 1 = n - cap + cap - 1 + cap := by omega
    rw [needed, total, Nat.add_div_right _ positive, needed]
  · have none : n - cap = 0 := by omega
    have total : n + cap - 1 = n - 1 + cap := by omega
    rw [none, needed_zero positive, needed, total, Nat.add_div_right _ positive, Nat.div_eq_of_lt (by omega)]

theorem fresh_size (info : Nat) (w : World) : mbuf_write_size (get_for info w).1 = w.ctx.mbuf_offset := by
  obtain ⟨_, stop, _, written⟩ := get_for_fields info w
  rw [mbuf_write_size, stop, written, Nat.sub_zero]

theorem writes_needed {info cap : Nat} {w w' : World} {front queue : List Mbuf} {buf : Mbuf} {data : List UInt8}
    {counted : Bool} (positive : 0 < cap) (offset : w.ctx.mbuf_offset = cap)
    (writes : Writes info w front buf data w' queue counted) :
    queue.length = front.length + 1 + needed cap (data.length - mbuf_write_size buf) := by
  induction writes with
  | fits _ room => rw [Nat.sub_eq_zero_of_le room.le, needed_zero positive]; simp
  | fills _ exactly => rw [Nat.sub_eq_zero_of_le exactly.le, needed_zero positive]; simp
  | @next w w' front queue buf data counted more _ ih =>
    have rest := ih (by rw [get_for_offset, offset])
    rw [fresh_size, offset, List.length_drop, List.length_append, List.length_singleton] at rest
    have step := needed_step positive (by omega : 0 < data.length - mbuf_write_size buf)
    omega

/-- A write appends the mbufs it needs beyond the space in the last one. -/
theorem write_needed {w : World} {cap : Nat} (positive : 0 < cap) (offset : w.ctx.mbuf_offset = cap) (con : Connection)
    (data : List UInt8) :
    ∃ w' con', con_buf_write w con data = some (w', con') ∧
      (queued con').length = (queued con).length + needed cap (data.length - space con) := by
  by_cases empty : data = []
  · subst empty
    exact ⟨w, con, con_buf_write_nil w con, by simp [needed_zero positive]⟩
  · have some : 0 < data.length := List.length_pos_of_ne_nil empty
    obtain ⟨w', con', executed, written⟩ := con_buf_write_written (offset ▸ positive) con empty
    refine ⟨w', con', executed, ?_⟩
    obtain @⟨front, queue, buf, counted, room, writes⟩ := written
    have offset₁ : (attach_info w con).2.ctx.mbuf_offset = cap := (attach_info_offset w con).trans offset
    rw [attach_info_data] at room writes
    rw [queued_some]
    rcases make_room_cases (attach_info w con).1.block (attach_info w con).2 (queued con) with
      ⟨front', last, same, left, made⟩ | ⟨full, made⟩
    · rw [made] at room writes
      obtain ⟨rfl, lasts⟩ := List.append_inj' (same.symm.trans room) rfl
      obtain rfl := List.singleton_injective lasts
      rw [writes_needed positive offset₁ writes]
      simp [same, space]
    · rw [made] at room writes
      obtain ⟨rfl, lasts⟩ := List.append_inj' room rfl
      obtain rfl := List.singleton_injective lasts
      have none : space con = 0 := by
        unfold space
        cases last : (queued con).getLast? with
        | none => rfl
        | some b => exact full b last
      rw [writes_needed positive (by rw [get_for_offset, offset₁]) writes, fresh_size, offset₁, none, Nat.sub_zero,
        needed_step positive some]
      omega

/-- What `context_new` promises for a size: buffers of what is left of it, and writes
    that end and append no more of them than they need. -/
structure Admitted (junk : Nat → Nat → UInt8) (bufsize : Int) : Prop where
  exactly : ((context_new (no_blocks junk) bufsize).ctx.mbuf_offset : Int) = bufsize - sizeof_mbuf
  positive : 0 < (context_new (no_blocks junk) bufsize).ctx.mbuf_offset
  room : ∀ ops s, run step (start (context_new (no_blocks junk) bufsize)) ops = some s →
    mbuf_write_size (mbuf_get s.world).1 = (context_new (no_blocks junk) bufsize).ctx.mbuf_offset
  writes : ∀ ops s, run step (start (context_new (no_blocks junk) bufsize)) ops = some s → ∀ c data,
    ∃ w con, con_buf_write s.world (s.con c) data = some (w, con) ∧ (queued con).length = (queued (s.con c)).length +
      needed (context_new (no_blocks junk) bufsize).ctx.mbuf_offset (data.length - space (s.con c))

theorem context_new_offset (junk : Nat → Nat → UInt8) {bufsize : Int} (above : sizeof_mbuf < bufsize) (int : bufsize < 2 ^ 31) :
    ((context_new (no_blocks junk) bufsize).ctx.mbuf_offset : Int) = bufsize - sizeof_mbuf := by
  show ((((bufsize - sizeof_mbuf) % 2 ^ 64).toNat : Nat) : Int) = bufsize - sizeof_mbuf
  rw [sizeof_mbuf] at above ⊢
  omega

/-- The sizes above that of the structure will do, and no others. -/
theorem admitted_iff (junk : Nat → Nat → UInt8) (bufsize : Int) (int : bufsize < 2 ^ 31) :
    Admitted junk bufsize ↔ sizeof_mbuf < bufsize := by
  constructor
  · intro admitted
    have exactly := admitted.exactly
    have positive := admitted.positive
    omega
  · intro above
    have exactly := context_new_offset junk above int
    have positive : 0 < (context_new (no_blocks junk) bufsize).ctx.mbuf_offset := by omega
    refine ⟨exactly, positive, ?_, ?_⟩
    · intro ops s executed
      have laid := run_laid (start_laid positive) executed
      exact (fresh_size 0 s.world).trans laid.offset
    · intro ops s executed c data
      have laid := run_laid (start_laid positive) executed
      exact write_needed positive laid.offset (s.con c) data

theorem admitted_default : Admitted (fun _ _ => 0) Sessions.DEFAULT_BUFSIZE ↔ sizeof_mbuf < Sessions.DEFAULT_BUFSIZE :=
  admitted_iff (fun _ _ => 0) Sessions.DEFAULT_BUFSIZE (by decide)

/-- At `MIN_BUFSIZE` the subtraction wraps around; at the size of the structure
    nothing is left for the bytes, and a write does not end. -/
theorem minimum_not_admitted :
    (context_new (no_blocks fun _ _ => 0) MIN_BUFSIZE).ctx.mbuf_offset = 2 ^ 64 - 24 ∧
      ¬ Admitted (fun _ _ => 0) MIN_BUFSIZE ∧ (context_new (no_blocks fun _ _ => 0) 56).ctx.mbuf_offset = 0 ∧
      con_buf_write (context_new (no_blocks fun _ _ => 0) 56) ⟨0, none, some 0⟩ [1] = none := by
  refine ⟨by decide, ?_, by decide, rfl⟩
  intro admitted
  exact absurd admitted.exactly (by decide)

end TcpLearn.Writing
