import TcpLearn.Chain
import TcpLearn.Contexts
import TcpLearn.Framing

/-!
# The clients of the server

`TcpClient::OnNewData` of `server.cc`: the bytes of a chunk go to the buffer of
the connection, the first four unread bytes are taken for the length of a frame,
and once as many bytes are counted the delegate is told, at most once for a chunk.
-/
namespace TcpLearn.Client
open TcpLearn.Memory TcpLearn.MbufOps TcpLearn.ConBuf TcpLearn.Chain TcpLearn.Framing

/-- The size of the buffers of the server, with the structures behind them. -/
def mbuf_size : Int := 1024

/-- What `DataAvailable` does to the connection. -/
structure ImageDelegate where
  DataAvailable : World → Connection → Nat → Option (World × Connection)

/-- The last component lists the calls of `DataAvailable`. -/
def NotifyDataAvailable (delegate_ : Option ImageDelegate) (w : World) (con_ : Connection) (size : Nat) :
    Option (World × Connection × List Nat) :=
  match delegate_ with
  | none => some (w, con_, [])
  | some delegate_ => (delegate_.DataAvailable w con_ size).map fun (w, con_) => (w, con_, [size])

/-- `ntohl` of an integer that holds `mem` in memory. -/
def ntohl (mem : List UInt8) : Nat := decode mem

def OnNewData (delegate_ : Option ImageDelegate) (w : World) (con_ : Connection) (data : List UInt8) :
    Option (World × Connection × List Nat) := do
  let (w, con_) ← con_buf_write w con_ data
  let data_size := con_.data_size
  if data_size > 4 then
    let peeked := (con_buf_peek con_ 4).dst
    let payload_len := ntohl (peeked ++ [0, 0, 0, 0].drop peeked.length)
    let available := (payload_len + 4) % 2 ^ 32
    -- The comparison is one of unsigned integers.
    if (data_size % 2 ^ 32).toNat ≥ available then NotifyDataAvailable delegate_ w con_ available
    else some (w, con_, [])
  else some (w, con_, [])

/-! ## Delegates -/

/-- A delegate that leaves the buffer alone. -/
def leaving : ImageDelegate := ⟨fun w con_ _ => some (w, con_)⟩

/-- Reads one after another, and how much they return together. -/
def read_all : World → Connection → List Nat → Option (World × Connection × Int)
  | w, con, [] => some (w, con, 0)
  | w, con, len :: lens => do
    let (w, con, reply) ← con_buf_read w con len
    let (w, con, total) ← read_all w con lens
    some (w, con, reply.ret + total)

/-- A way to read exactly the announced bytes, from any queue that holds them. -/
structure Reader where
  /-- The lengths passed to `con_buf_read`. -/
  lens : Connection → Nat → List Nat
  exactly : ∀ {cap off : Nat} {bs : List UInt8} (w : World) (con : Connection) (size : Nat),
    Holds cap off (queued con) bs → con.info ≠ none → (size : Int) ≤ con.data_size → con.data_size ≤ bs.length →
    ∃ w' con', read_all w con (lens con size) = some (w', con', (size : Int))

/-- A delegate that removes the announced number of bytes. -/
def removing (reader : Reader) : ImageDelegate :=
  ⟨fun w con_ size => (read_all w con_ (reader.lens con_ size)).map fun (w, con_, _) => (w, con_)⟩

theorem read_all_spec {cap off : Nat} {w w' : World} {con con' : Connection} {bs : List UInt8} {lens : List Nat}
    {total : Int} (executed : read_all w con lens = some (w', con', total)) (holds : Holds cap off (queued con) bs)
    (attached : con.info ≠ none) :
    ∃ off' k, total = (k : Nat) ∧ k ≤ bs.length ∧ w'.ctx.mbuf_offset = w.ctx.mbuf_offset ∧
      Holds cap off' (queued con') (bs.drop k) ∧ off' ≡ off + k [MOD cap] ∧ con'.info ≠ none ∧
      con'.data_size = con.data_size - k := by
  induction lens generalizing w con off bs total with
  | nil =>
    cases executed
    exact ⟨off, 0, rfl, Nat.zero_le _, rfl, by simpa using holds, rfl, attached, by simp⟩
  | cons len lens ih =>
    obtain ⟨w₁, con₁, step, offset₁, holds₁, _, attached₁, size₁⟩ := con_buf_read_spec holds w len attached
    set k := taken cap len (allowed con len) off bs.length with kIs
    have within := taken_le cap len (allowed con len) off bs.length
    simp only [read_all, step, Option.bind_eq_bind, Option.bind_some] at executed
    obtain ⟨⟨w₂, con₂, rest⟩, more, same⟩ := Option.bind_eq_some_iff.mp executed
    cases same
    obtain ⟨off', j, total, inside, offset₂, holds₂, moved, attached₂, size₂⟩ := ih more holds₁ attached₁
    rw [List.length_drop] at inside
    refine ⟨off', k + j, by simp [total], by omega, offset₂.trans offset₁, ?_, ?_, attached₂, ?_⟩
    · rwa [← List.drop_drop]
    · rw [← Nat.add_assoc]
      exact moved.trans ((Nat.mod_modEq _ _).add_right j)
    · rw [size₂, size₁]
      push_cast
      omega

theorem read_one {cap off : Nat} {con : Connection} {bs : List UInt8} (holds : Holds cap off (queued con) bs) (w : World)
    (attached : con.info ≠ none) (some : 1 ≤ con.data_size) (held : con.data_size ≤ bs.length) :
    ∃ w' con' reply, con_buf_read w con 1 = Option.some (w', con', reply) ∧ reply.ret = 1 ∧
      con'.data_size = con.data_size - 1 ∧ con'.info ≠ none ∧ ∃ off', Holds cap off' (queued con') (bs.drop 1) := by
  obtain ⟨w', con', executed, _, holds', _, attached', size⟩ := con_buf_read_spec holds w 1 attached
  have inside := holds.inside
  have one : taken cap 1 (allowed con 1) off bs.length = 1 := by
    have first : allowed con 1 = 1 := by
      unfold allowed
      split_ifs <;> omega
    have none : ∀ n, taken cap 1 (1 - (1 : Nat)) 0 n = 0 := by
      intro n
      rw [taken, if_pos (.inr (by simp))]
    rw [taken, first, if_neg (by omega)]
    have ret : min 1 (min (cap - off) bs.length) = 1 := by omega
    simp only [ret, none]
    split_ifs <;> rfl
  rw [one] at executed holds' size
  exact ⟨w', con', _, executed, rfl, size, attached', _, holds'⟩

/-- Reading byte by byte. -/
def one_by_one : Reader where
  lens := fun _ size => List.replicate size 1
  exactly := by
    intro cap off bs w con size holds attached enough held
    induction size generalizing off bs w con with
    | zero => exact ⟨w, con, rfl⟩
    | succ size ih =>
      push_cast at enough
      obtain ⟨w₁, con₁, reply, first, ret, size₁, attached₁, off₁, holds₁⟩ :=
        read_one holds w attached (by omega) held
      obtain ⟨w', con', rest⟩ := ih w₁ con₁ holds₁ attached₁ (by omega) (by rw [List.length_drop]; omega)
      refine ⟨w', con', ?_⟩
      simp only [List.replicate_succ, read_all, first, rest, Option.bind_eq_bind, Option.bind_some, ret]
      push_cast
      rw [Int.add_comm]

/-! ## A chunk of frames -/

/-- While the buffer holds the front of a frame and of what follows it, a chunk
    that belongs there makes the client announce that frame or nothing. The bytes
    are counted unless the chunk ends at the end of an mbuf. -/
theorem OnNewData_spec {cap off a : Nat} {w : World} {con : Connection} {bs data payload tail : List UInt8} {c : Nat}
    (delegate_ : Option ImageDelegate) (offset : w.ctx.mbuf_offset = cap) (holds : Holds cap off (queued con) bs)
    (aligned : off + bs.length ≡ a [MOD cap]) (nonempty : data ≠ []) (arrived : bs ++ data <+: frame payload ++ tail)
    (small : (frame payload ++ tail).length < 2 ^ 31) (size_is : con.data_size = (c : Int)) (counted : c ≤ bs.length) :
    ∃ w' con' c', w'.ctx.mbuf_offset = cap ∧ Holds cap off (queued con') (bs ++ data) ∧ con'.info ≠ none ∧
      c' = c + (if cap ∣ a + data.length then 0 else data.length) ∧ c' ≤ (bs ++ data).length ∧
      con'.data_size = (c' : Int) ∧
      OnNewData delegate_ w con data =
        if 4 < c' ∧ size payload ≤ c' then NotifyDataAvailable delegate_ w' con' (size payload)
        else some (w', con', []) := by
  obtain ⟨w', con', executed, offset', holds', _, attached, size'⟩ := con_buf_write_spec offset holds data
  have ends : cap ∣ fill (queued con) + data.length ↔ cap ∣ a + data.length :=
    (((holds_fill holds).trans aligned).add_right data.length).dvd_iff (Nat.dvd_refl cap)
  set c' := c + (if cap ∣ a + data.length then 0 else data.length) with c'Is
  have counts : con'.data_size = (c' : Int) := by
    rw [size', size_is, c'Is]
    by_cases atEnd : cap ∣ a + data.length
    · simp [nonempty, ends, atEnd]
    · simp [ends, atEnd]
  have within : c' ≤ (bs ++ data).length := by
    rw [List.length_append, c'Is]
    split_ifs <;> omega
  have bound := arrived.length_le
  refine ⟨w', con', c', offset', holds', fun none => nonempty (attached.mp none).2, rfl, within, counts, ?_⟩
  simp only [OnNewData, executed, Option.bind_eq_bind, Option.bind_some, counts]
  by_cases enough : 4 < c'
  · have header : (con_buf_peek con' 4).dst = encode payload.length := by
      rw [con_buf_peek_spec holds' 4]
      exact header_of_prefix arrived (by omega)
    have inside : payload.length + 4 < 2 ^ 31 := by
      rw [List.length_append, frame_length, size] at small
      omega
    have length : ntohl (encode payload.length ++ [0, 0, 0, 0].drop (encode payload.length).length) =
        payload.length := by
      rw [encode_length, ntohl, List.drop_of_length_le (by simp), List.append_nil, decode_encode (by omega)]
    have available : (payload.length + 4) % 2 ^ 32 = size payload := Nat.mod_eq_of_lt (by omega)
    have unsigned : (((c' : Int)) % 2 ^ 32).toNat = c' := by omega
    rw [if_pos (by omega : (c' : Int) > 4), header, length, available, unsigned]
    simp only [enough, true_and, ge_iff_le]
  · rw [if_neg (by omega : ¬ (c' : Int) > 4), if_neg (fun both => enough both.1)]

end TcpLearn.Client
