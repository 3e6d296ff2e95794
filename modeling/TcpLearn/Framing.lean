import Mathlib

/-!
# Length-prefixed frames

A frame is the length of its payload in four bytes, in network order, and the
payload. Frames sent one after another arrive in chunks that know nothing of
them: `completed` lists, for every chunk, the sizes of the frames whose last byte
it brings.
-/
namespace TcpLearn.Framing

/-! ## Network order -/

/-- The four bytes of a number, the most significant first. -/
def encode (n : Nat) : List UInt8 := [n / 2 ^ 24, n / 2 ^ 16, n / 2 ^ 8, n].map UInt8.ofNat

/-- The number that bytes stand for, the most significant first. -/
def decode (bytes : List UInt8) : Nat := bytes.foldl (fun n b => 256 * n + b.toNat) 0

@[simp] theorem encode_length (n : Nat) : (encode n).length = 4 := rfl

theorem decode_encode {n : Nat} (small : n < 2 ^ 32) : decode (encode n) = n := by
  simp only [decode, encode, List.map_cons, List.map_nil, List.foldl_cons, List.foldl_nil, UInt8.toNat_ofNat']
  omega

/-! ## Frames -/

def frame (payload : List UInt8) : List UInt8 := encode payload.length ++ payload
def size (payload : List UInt8) : Nat := payload.length + 4

theorem frame_length (payload : List UInt8) : (frame payload).length = size payload := by
  rw [frame, List.length_append, encode_length, size, Nat.add_comm]

theorem frames_length (payloads : List (List UInt8)) : (payloads.flatMap frame).length = (payloads.map size).sum := by
  simp only [List.length_flatMap, frame_length]

/-- The header of the first frame, once it has arrived. -/
theorem header_of_prefix {payload bytes tail : List UInt8} (arrived : bytes <+: frame payload ++ tail)
    (four : 4 ≤ bytes.length) : bytes.take 4 = encode payload.length := by
  obtain ⟨rest, same⟩ := arrived
  have front := congrArg (List.take 4) same
  rw [List.take_append_of_le_length four, frame, List.append_assoc, List.take_left' (encode_length _)] at front
  exact front

/-- Once the first frame has arrived, what follows it is the front of the rest. -/
theorem drop_frame {bytes rest payload tail : List UInt8} (cut : bytes ++ rest = frame payload ++ tail)
    (arrived : size payload ≤ bytes.length) : bytes.drop (size payload) ++ rest = tail := by
  have front := congrArg (List.drop (size payload)) cut
  rw [List.drop_append_of_le_length arrived, List.drop_left' (frame_length payload)] at front
  exact front

/-! ## Chunks -/

/-- How many frames, of these sizes, the first `got` bytes complete. -/
def finished : List Nat → Nat → Nat
  | [], _ => 0
  | f :: fs, got => if f ≤ got then finished fs (got - f) + 1 else 0

/-- The sizes of the frames each chunk completes, `arrived` bytes of the first
    frame being there before. -/
def completed : List Nat → Nat → List (List UInt8) → List (List Nat)
  | _, _, [] => []
  | sizes, arrived, chunk :: chunks =>
    let n := finished sizes (arrived + chunk.length)
    sizes.take n :: completed (sizes.drop n) (arrived + chunk.length - (sizes.take n).sum) chunks

theorem finished_length (sizes : List Nat) (got : Nat) : finished sizes got ≤ sizes.length := by
  induction sizes generalizing got with
  | nil => exact Nat.le_refl 0
  | cons f fs ih =>
    rw [finished]
    split_ifs
    · exact Nat.succ_le_succ (ih _)
    · exact Nat.zero_le _

/-- What is complete has arrived. -/
theorem finished_sum (sizes : List Nat) (got : Nat) : (sizes.take (finished sizes got)).sum ≤ got := by
  induction sizes generalizing got with
  | nil => simp [finished]
  | cons f fs ih =>
    rw [finished]
    split_ifs with complete
    · rw [List.take_succ_cons, List.sum_cons]
      have := ih (got - f)
      omega
    · simp

theorem finished_eq_zero {f : Nat} {fs : List Nat} {got : Nat} : finished (f :: fs) got = 0 ↔ got < f := by
  rw [finished]
  split_ifs with complete
  · simp [complete]
  · simp at complete
    simp [complete]

/-- All frames are complete when all bytes have arrived. -/
theorem finished_all {sizes : List Nat} {got : Nat} (all : sizes.sum ≤ got) : finished sizes got = sizes.length := by
  induction sizes generalizing got with
  | nil => rfl
  | cons f fs ih =>
    rw [List.sum_cons] at all
    rw [finished, if_pos (by omega), ih (by omega), List.length_cons]

theorem completed_length (sizes : List Nat) (arrived : Nat) (chunks : List (List UInt8)) :
    (completed sizes arrived chunks).length = chunks.length := by
  induction chunks generalizing sizes arrived with
  | nil => rfl
  | cons chunk chunks ih => rw [completed, List.length_cons, ih, List.length_cons]

end TcpLearn.Framing
