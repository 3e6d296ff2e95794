import TcpLearn.Client
import TcpLearn.Reading

/-!
# What a peer can make a client announce

`OnNewData` takes four bytes of the peer for a length and adds the size of the
header to it in 32 bits. `data_size` never exceeds the unread bytes, so a sum that
fits is announced only when as many bytes are there. A length within four of the
end of the range wraps around to a size below that of the header, which is
announced at once (`headers_sound_iff`).
-/
namespace TcpLearn.Headers
open TcpLearn.Memory TcpLearn.MbufOps TcpLearn.ConBuf TcpLearn.Chain TcpLearn.Contexts TcpLearn.Framing TcpLearn.Client
open TcpLearn.Reading TcpLearn.Runs

inductive ClientOp where
  /-- A chunk is passed to `OnNewData`. -/
  | data (bytes : List UInt8)
  /-- The other clients have left the heap and the context like this. -/
  | others (w : World)

def step (delegate_ : ImageDelegate) (s : World × Connection) : ClientOp → Option (World × Connection)
  | .data bytes => (OnNewData (some delegate_) s.1 s.2 bytes).map fun (w, con_, _) => (w, con_)
  | .others w => some (w, s.2)

/-- A client just created in the context. -/
def start (w : World) : World × Connection := (w, ⟨0, none, some w.ctx.block⟩)

/-- The capacity of mbufs is set once. -/
def Issued (s : World × Connection) : ClientOp → Prop
  | .data _ => True
  | .others w => w.ctx.mbuf_offset = s.1.ctx.mbuf_offset

/-- A delegate that reads from the buffer, however much, and does nothing else to it. -/
def Reads (delegate_ : ImageDelegate) : Prop :=
  ∀ w con_ size, ∃ lens, delegate_.DataAvailable w con_ size = (read_all w con_ lens).map fun (w, con_, _) => (w, con_)

theorem reads_leaving : Reads leaving := fun _ _ _ => ⟨[], rfl⟩
theorem reads_removing (reader : Reader) : Reads (removing reader) := fun _ _ _ => ⟨_, rfl⟩

/-- The size that the first unread bytes stand for, that of the header included. -/
def framed (bytes : List UInt8) : Nat := decode (bytes.take 4) + 4

/-- Every size announced is that of the first frame, and as many bytes are unread. -/
def Sound (delegate_ : ImageDelegate) (s : World × Connection) : ClientOp → Prop
  | .data bytes => ∃ w con_ w' con' calls, con_buf_write s.1 s.2 bytes = some (w, con_) ∧
      OnNewData (some delegate_) s.1 s.2 bytes = some (w', con', calls) ∧
      ∀ size ∈ calls, size = framed (pending con_) ∧ size ≤ (pending con_).length
  | .others _ => True

/-- What `data_size` is after a write. -/
def data_size_after (s : World × Connection) (bytes : List UInt8) : Int :=
  s.2.data_size +
    if bytes ≠ [] ∧ s.1.ctx.mbuf_offset ∣ fill (queued s.2) + bytes.length then 0 else (bytes.length : Int)

/-- The counter reaches the size of the first frame, taken in 32 bits. -/
def Reached (s : World × Connection) (bytes : List UInt8) : Prop :=
  4 < data_size_after s bytes ∧
    framed (pending s.2 ++ bytes) % 2 ^ 32 ≤ (data_size_after s bytes % 2 ^ 32).toNat

instance (s : World × Connection) (bytes : List UInt8) : Decidable (Reached s bytes) :=
  inferInstanceAs (Decidable (_ ∧ _))

/-- The size of the first frame fits in 32 bits when it is compared with success. -/
def Fits (s : World × Connection) : ClientOp → Prop
  | .data bytes => Reached s bytes → framed (pending s.2 ++ bytes) < 2 ^ 32
  | .others _ => True

/-! ## One chunk -/

/-- The buffer holds at least the bytes that are counted. -/
structure Inv (cap : Nat) (s : World × Connection) : Prop where
  offset : s.1.ctx.mbuf_offset = cap
  covered : ∃ off, Holds cap off (queued s.2) (pending s.2) ∧ s.2.data_size ≤ (pending s.2).length

variable {cap : Nat} {s : World × Connection}

theorem holds_pending {off : Nat} {con : Connection} {bs : List UInt8} (holds : Holds cap off (queued con) bs) :
    pending con = bs := holds.bytes

theorem start_inv {w : World} (positive : 1 ≤ w.ctx.mbuf_offset) : Inv w.ctx.mbuf_offset (start w) :=
  ⟨rfl, 0, holds_nil positive, Int.le_refl 0⟩

/-- Reads take from the bytes and from the counter alike. -/
theorem read_all_inv {w : World} {con : Connection} (inv : Inv cap (w, con)) (attached : con.info ≠ none) (lens : List Nat) :
    ∃ w' con' total, read_all w con lens = some (w', con', total) ∧ Inv cap (w', con') := by
  induction lens generalizing w con with
  | nil => exact ⟨w, con, 0, rfl, inv⟩
  | cons len lens ih =>
    obtain ⟨offset, off, holds, (held : con.data_size ≤ (pending con).length)⟩ := inv
    obtain ⟨w₁, con₁, executed, offset₁, holds₁, _, attached₁, size₁⟩ := con_buf_read_spec holds w len attached
    have within := taken_le cap len (allowed con len) off (pending con).length
    have inv₁ : Inv cap (w₁, con₁) := by
      refine ⟨offset₁.trans offset, _, by rw [holds_pending holds₁]; exact holds₁, ?_⟩
      show con₁.data_size ≤ (pending con₁).length
      rw [holds_pending holds₁, size₁, List.length_drop]
      dsimp only
      omega
    obtain ⟨w', con', total, rest, after⟩ := ih inv₁ attached₁
    refine ⟨w', con', (taken cap len (allowed con len) off (pending con).length : Nat) + total, ?_, after⟩
    simp only [read_all, executed, rest, Option.bind_eq_bind, Option.bind_some]

/-- The bytes of a chunk join the unread ones, and the counter does not overtake them. -/
theorem write_spec (inv : Inv cap s) (bytes : List UInt8) :
    ∃ w con, con_buf_write s.1 s.2 bytes = some (w, con) ∧ pending con = pending s.2 ++ bytes ∧
      con.data_size = data_size_after s bytes ∧ data_size_after s bytes ≤ (pending con).length ∧ Inv cap (w, con) := by
  obtain ⟨offset, off, holds, held⟩ := inv
  obtain ⟨w, con, executed, offset₁, holds₁, _, _, counted⟩ := con_buf_write_spec offset holds bytes
  have unread : pending con = pending s.2 ++ bytes := holds_pending holds₁
  have size : con.data_size = data_size_after s bytes := by rw [counted, data_size_after, offset]
  have covered : data_size_after s bytes ≤ (pending con).length := by
    rw [unread, List.length_append, data_size_after]
    split_ifs <;> push_cast <;> omega
  exact ⟨w, con, executed, unread, size, covered, offset₁, off, by rw [unread]; exact holds₁, by rw [size]; exact covered⟩

/-- With four bytes unread, what is peeked is the header of the first frame. -/
theorem OnNewData_written {delegate_ : Option ImageDelegate} {w w₁ : World} {con con₁ : Connection} {bytes : List UInt8}
    (written : con_buf_write w con bytes = some (w₁, con₁)) (four : 4 ≤ (pending con₁).length) :
    OnNewData delegate_ w con bytes =
      if con₁.data_size > 4 ∧ framed (pending con₁) % 2 ^ 32 ≤ (con₁.data_size % 2 ^ 32).toNat then
        NotifyDataAvailable delegate_ w₁ con₁ (framed (pending con₁) % 2 ^ 32)
      else some (w₁, con₁, []) := by
  have header : (con_buf_peek con₁ 4).dst = (pending con₁).take 4 := by rw [peek_pending]
  have whole : ((pending con₁).take 4).length = 4 := List.length_take_of_le four
  simp only [OnNewData, written, Option.bind_eq_bind, Option.bind_some, header, whole]
  by_cases enough : con₁.data_size > 4
  · simp only [enough, ↓reduceIte, true_and, ntohl, framed, ge_iff_le, List.drop_succ_cons, List.drop_zero,
      List.append_nil]
  · rw [if_neg enough, if_neg fun both => enough both.1]

/-- A chunk is announced once or not at all, as the size of the first frame in 32 bits. -/
theorem data_spec {delegate_ : ImageDelegate} (reads : Reads delegate_) (inv : Inv cap s) (bytes : List UInt8) :
    ∃ w con w' con', con_buf_write s.1 s.2 bytes = some (w, con) ∧ pending con = pending s.2 ++ bytes ∧
      data_size_after s bytes ≤ (pending con).length ∧ Inv cap (w', con') ∧
      OnNewData (some delegate_) s.1 s.2 bytes =
        some (w', con', if Reached s bytes then [framed (pending con) % 2 ^ 32] else []) := by
  obtain ⟨w, con, written, unread, size, covered, inv₁⟩ := write_spec inv bytes
  have compared : Reached s bytes ↔
      con.data_size > 4 ∧ framed (pending con) % 2 ^ 32 ≤ (con.data_size % 2 ^ 32).toNat := by
    rw [Reached, unread, size]
  by_cases reached : Reached s bytes
  · have four : 4 ≤ (pending con).length := by have := reached.1; omega
    have attached : con.info ≠ none := by
      intro none
      have nothing : (pending con).length = 0 := by simp [pending, queued, none]
      omega
    obtain ⟨lens, told⟩ := reads w con (framed (pending con) % 2 ^ 32)
    obtain ⟨w', con', total, read, after⟩ := read_all_inv inv₁ attached lens
    refine ⟨w, con, w', con', written, unread, covered, after, ?_⟩
    rw [OnNewData_written written four, if_pos (compared.mp reached), if_pos reached, NotifyDataAvailable]
    simp only [told, read, Option.map_some]
  · refine ⟨w, con, w, con, written, unread, covered, inv₁, ?_⟩
    rw [if_neg reached]
    by_cases four : 4 ≤ (pending con).length
    · rw [OnNewData_written written four, if_neg fun reaches => reached (compared.mpr reaches)]
    · -- Fewer bytes are unread than the header has, and no more are counted.
      have few : ¬ con.data_size > 4 := by omega
      simp only [OnNewData, written, Option.bind_eq_bind, Option.bind_some, if_neg few]

theorem step_inv {delegate_ : ImageDelegate} (reads : Reads delegate_) (inv : Inv cap s) {op : ClientOp}
    (issued : Issued s op) : ∃ s', step delegate_ s op = some s' ∧ Inv cap s' := by
  cases op with
  | data bytes =>
    obtain ⟨_, _, w', con', _, _, _, after, executed⟩ := data_spec reads inv bytes
    exact ⟨(w', con'), by simp only [step, executed, Option.map_some], after⟩
  | others w => exact ⟨(w, s.2), rfl, issued.trans inv.offset, inv.covered⟩

/-- What is announced is right unless the sum has wrapped around. -/
theorem sound_iff {delegate_ : ImageDelegate} (reads : Reads delegate_) (inv : Inv cap s) (op : ClientOp) :
    Sound delegate_ s op ↔ Fits s op := by
  cases op with
  | data bytes =>
    obtain ⟨w, con, w', con', written, unread, covered, _, executed⟩ := data_spec reads inv bytes
    rw [Fits, ← unread]
    constructor
    · rintro ⟨w₁, con₁, _, _, _, again, executed₁, sound⟩ reached
      cases written.symm.trans again
      rw [executed, if_pos reached] at executed₁
      cases executed₁
      have same := (sound _ (List.mem_singleton_self _)).1
      rw [← same]
      exact Nat.mod_lt _ (by decide)
    · intro fits
      refine ⟨w, con, w', con', _, written, executed, ?_⟩
      intro size announced
      by_cases reached : Reached s bytes
      · have whole : framed (pending con) % 2 ^ 32 = framed (pending con) := Nat.mod_eq_of_lt (fits reached)
        rw [if_pos reached, List.mem_singleton, whole] at announced
        obtain ⟨enough, compared⟩ := reached
        rw [← unread, whole] at compared
        exact ⟨announced, by omega⟩
      · rw [if_neg reached] at announced
        exact absurd announced List.not_mem_nil
  | others w => exact Iff.rfl

/-- Whatever a peer sends and in whatever chunks, all that is announced is right
    exactly when no size that wraps around is compared with success. -/
theorem headers_sound_iff (delegate_ : ImageDelegate) (reads : Reads delegate_) (w : World)
    (positive : 1 ≤ w.ctx.mbuf_offset) (ops : List ClientOp) (issued : Each (step delegate_) Issued (start w) ops) :
    Each (step delegate_) (Sound delegate_) (start w) ops ↔ Each (step delegate_) Fits (start w) ops := by
  refine each_iff ?_ (fun s op inv _ => sound_iff reads inv op) (start_inv positive) issued
  intro s op s' inv good stepped
  obtain ⟨other, same, after⟩ := step_inv reads inv good
  cases stepped.symm.trans same
  exact after

/-- A frame of two bytes, cut behind its header, while another client uses the context. -/
theorem headers_sound_two_chunks :
    Each (step (removing one_by_one)) (Sound (removing one_by_one))
        (start (context_new (no_blocks fun _ _ => 0) mbuf_size))
        [.data [0, 0, 0, 2], .others (context_new (no_blocks fun _ _ => 0) mbuf_size), .data [7, 8]] ↔
      Each (step (removing one_by_one)) Fits (start (context_new (no_blocks fun _ _ => 0) mbuf_size))
        [.data [0, 0, 0, 2], .others (context_new (no_blocks fun _ _ => 0) mbuf_size), .data [7, 8]] := by
  refine headers_sound_iff (removing one_by_one) (reads_removing one_by_one) _ (by decide) _ ?_
  exact each_cons trivial rfl <| each_cons rfl rfl <| ⟨trivial, fun _ _ => trivial⟩

/-- Five bytes, of which the first four are the largest header: three bytes are
    announced, fewer than the header has. -/
theorem largest_header_announced :
    ∃ w con, OnNewData (some leaving) (context_new (no_blocks fun _ _ => 0) mbuf_size) ⟨0, none, some 0⟩
        [255, 255, 255, 255, 0] = some (w, con, [3]) ∧
      ¬ Each (step leaving) (Sound leaving) (start (context_new (no_blocks fun _ _ => 0) mbuf_size))
        [.data [255, 255, 255, 255, 0]] := by
  refine ⟨_, _, rfl, ?_⟩
  rintro ⟨⟨w, con, w', con', calls, written, executed, sound⟩, _⟩
  cases executed
  have same : 3 = framed (pending con) := (sound 3 (List.mem_singleton.mpr rfl)).1
  rw [framed] at same
  omega

end TcpLearn.Headers
