import TcpLearn.Server

/-!
# Whose bytes a client is given

`clients_` keeps the client of the first connection that had a descriptor number,
while the kernel gives the number of a closed connection to a later one. The bytes
of that later connection go to the earlier client, so every client is given the
bytes of its own connection exactly as long as bytes arrive only on numbers that
`su_accept` has returned once (`delivered_iff`).
-/
namespace TcpLearn.Delivery
open TcpLearn.Memory TcpLearn.MbufOps TcpLearn.Chain TcpLearn.Server TcpLearn.Runs

/-- Each client was given the bytes of its connection, in order and once, and its
    buffer holds these and no others. -/
structure Delivered (s : TcpServer) : Prop where
  own : ∀ k, delivered_to k s = received_on k s
  buffer : ∀ k c, s.pool.handles[k]? = some c →
    (queued (s.pool.con c)).flatMap content = (received_on k s).flatten

/-- Bytes arrive on a number that `su_accept` has returned once so far. -/
def OnFreshNumber (s : TcpServer) (e : Event) : Prop :=
  e.data_fd ≠ s.listenfd_ → brings e ≠ [] → s.accepted.count e.data_fd = 1

variable {s s' : TcpServer}

/-- The first and the last connection of a number are one if the number was given once. -/
theorem count_iff {accepted : List Int} {fd : Int} {i k : Nat} (first : First accepted fd i)
    (at_k : accepted[k]? = some fd) (last : ∀ j, accepted[j]? = some fd → j ≤ k) :
    accepted.count fd = 1 ↔ i = k := by
  obtain ⟨inside, at_i⟩ := List.getElem?_eq_some_iff.mp first.1
  have split : accepted = accepted.take i ++ fd :: accepted.drop (i + 1) := by
    rw [← at_i, List.getElem_cons_drop, List.take_append_drop]
  have before : (accepted.take i).count fd = 0 := by
    apply List.count_eq_zero.mpr
    intro member
    obtain ⟨j, below, at_j⟩ := List.mem_take_iff_getElem.mp member
    exact first.2 j (by omega) (List.getElem?_eq_some_iff.mpr ⟨by omega, at_j⟩)
  have total : accepted.count fd = (accepted.drop (i + 1)).count fd + 1 := by
    conv_lhs => rw [split]
    rw [List.count_append, before, List.count_cons_self, Nat.zero_add]
  have order : i ≤ k := by
    by_contra before
    exact first.2 k (by omega) at_k
  rw [total]
  constructor
  · intro once
    have absent : fd ∉ accepted.drop (i + 1) := List.count_eq_zero.mp (by omega)
    by_contra other
    refine absent (List.mem_of_getElem? (i := k - (i + 1)) ?_)
    rw [List.getElem?_drop, show i + 1 + (k - (i + 1)) = k by omega]
    exact at_k
  · rintro rfl
    have absent : fd ∉ accepted.drop (i + 1) := by
      intro member
      obtain ⟨j, at_j⟩ := List.mem_iff_getElem?.mp member
      rw [List.getElem?_drop] at at_j
      have := last _ at_j
      omega
    rw [List.count_eq_zero.mpr absent]

theorem filter_pairs (k j : Nat) (chunks : List (List UInt8)) :
    ((chunks.map (Prod.mk k)).filter fun e => e.1 = j).map Prod.snd = if k = j then chunks else [] := by
  by_cases same : k = j
  · simp [same, List.filter_map, Function.comp_def]
  · simp [same, List.filter_map, Function.comp_def]

theorem buffer_holds (inv : Inv s) {k c : Nat} (found : s.pool.handles[k]? = some c) :
    (queued (s.pool.con c)).flatMap content = (delivered_to k s).flatten := by
  obtain ⟨off, holds⟩ := inv.buffers k c found
  exact holds.bytes

/-- What a buffer holds is what its client was given. -/
theorem delivered_iff_own (inv : Inv s) : Delivered s ↔ ∀ k, delivered_to k s = received_on k s := by
  constructor
  · intro delivered
    exact delivered.own
  · intro own
    refine ⟨own, ?_⟩
    intro k c found
    rw [buffer_holds inv found, own]

theorem handle_exact (s : TcpServer) (e : Event) (inv : Inv s) (delivered : Delivered s) (issued : Issued s e) :
    ∃ s', handle s e = some s' ∧ (Delivered s' ↔ OnFreshNumber s e) := by
  by_cases listening : e.data_fd = s.listenfd_
  · obtain ⟨s', executed, after, accepts⟩ := accept_spec inv (issued.accept listening)
    refine ⟨s', by rw [handle_listen listening, executed], iff_of_true ?_ fun other => absurd listening other⟩
    rw [delivered_iff_own after]
    intro k
    rw [delivered_to, received_on, accepts.delivered, accepts.received]
    exact delivered.own k
  · obtain ⟨k, i, here, first⟩ := client_of_event inv issued listening
    obtain ⟨s', executed, after, serves⟩ :=
      handle_client inv listening here first fun b member => (issued.pending b member).1
    obtain ⟨_, at_k, last⟩ := inv.sockets _ _ here
    have given : ∀ j, delivered_to j s' = delivered_to j s ++ if i = j then brings e else [] := by
      intro j
      rw [delivered_to, serves.delivered, List.filter_append, List.map_append, filter_pairs, delivered_to]
    have got : ∀ j, received_on j s' = received_on j s ++ if k = j then brings e else [] := by
      intro j
      rw [received_on, serves.received, List.filter_append, List.map_append, filter_pairs, received_on]
    refine ⟨s', executed, ?_⟩
    rw [delivered_iff_own after, OnFreshNumber, count_iff first at_k last]
    constructor
    · intro own _ some
      by_contra other
      have mine := own k
      rw [given, got, delivered.own, if_neg other, if_pos rfl, List.append_right_inj] at mine
      exact some mine.symm
    · intro fresh j
      rw [given, got, delivered.own]
      by_cases none : brings e = []
      · simp [none]
      · rw [fresh listening none]

theorem delivered_iff (junk : Nat → Nat → UInt8) (listenfd : Int) (others : List Int) (events : List Event)
    (issued : Each handle Issued (TcpServer_new junk listenfd others) events) :
    Always handle Delivered (TcpServer_new junk listenfd others) events ↔
      Each handle OnFreshNumber (TcpServer_new junk listenfd others) events := by
  refine always_iff_each handle_keeps handle_exact (new_inv junk listenfd others) ?_ issued
  exact (delivered_iff_own (new_inv junk listenfd others)).mpr fun _ => rfl

theorem delivered_two_connections :
    Always handle Delivered first_server [listening 5, listening 6, bytes_on 6 [[1], [2, 3]]] ↔
      Each handle OnFreshNumber first_server [listening 5, listening 6, bytes_on 6 [[1], [2, 3]]] := by
  apply delivered_iff
  exact each_cons (issued_listening rfl (by decide)) rfl <| each_cons (issued_listening rfl (by decide)) rfl <|
    each_cons (issued_client (by decide) (by decide) (by decide)) rfl trivial

/-- The number 5 is given to a second connection, whose byte goes to the first client. -/
theorem reused_number_misdelivers :
    Each handle Issued first_server [listening 5, hung_up 5, listening 5, bytes_on 5 [[1]]] ∧
      Each handle Lowest first_server [listening 5, hung_up 5, listening 5, bytes_on 5 [[1]]] ∧
      ¬ Always handle Delivered first_server [listening 5, hung_up 5, listening 5, bytes_on 5 [[1]]] := by
  refine ⟨?_, ?_, ?_⟩
  · exact each_cons (issued_listening rfl (by decide)) rfl <| each_cons (issued_client (by decide) (by decide) (by decide)) rfl <|
      each_cons (issued_listening rfl (by decide)) rfl <| each_cons (issued_client (by decide) (by decide) (by decide)) rfl trivial
  · exact each_cons (lowest_five rfl rfl) rfl <| each_cons (fun same => absurd same (by decide)) rfl <|
      each_cons (lowest_five rfl rfl) rfl <| each_cons (fun same => absurd same (by decide)) rfl trivial
  · intro always
    have delivered := (((always.2 _ rfl).2 _ rfl).2 _ rfl).2 _ rfl
    exact absurd (delivered.own 1) (by decide)

end TcpLearn.Delivery
