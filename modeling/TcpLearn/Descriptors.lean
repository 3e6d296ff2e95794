import TcpLearn.Server

/-!
# The life of a descriptor

Closing a connection leaves its client in `clients_` and its connection in use, and
the `epoll_ctl` after the `close` is a call on a number that is no longer open. A
client is also made for the -1 of a `su_accept` that failed. So the map has one entry
for each open connection exactly as long as nothing is closed and no `su_accept`
fails (`tidy_iff`).
-/
namespace TcpLearn.Descriptors
open TcpLearn.Pools TcpLearn.Server TcpLearn.Runs

/-- No descriptor was used after it was closed, closed connections are given back,
    and the map has the clients of the open ones. -/
structure Tidy (s : TcpServer) : Prop where
  /-- The calls on -1 are not on the descriptor of a connection. -/
  unused : ∀ c ∈ s.stale, c.2 < 0
  recycled : ∀ k fd, s.accepted[k]? = some fd → 0 ≤ fd → (fd, k) ∉ s.sockets →
    k ∉ s.clients_.map Prod.snd ∧ ∀ c, s.pool.handles[k]? = some c → c ∉ s.pool.inUse
  entries : s.clients_.Perm s.sockets

/-- Nothing was closed so far, and no `su_accept` failed. -/
structure Calm (s : TcpServer) : Prop where
  stale : s.stale = []
  opened : ∀ k fd, s.accepted[k]? = some fd → (fd, k) ∈ s.sockets

/-- A closed descriptor was used, or a client was made for a failed `su_accept`. -/
def Broken (s : TcpServer) : Prop := (∃ c ∈ s.stale, 0 ≤ c.2) ∨ -1 ∈ s.clients_.map Prod.fst

variable {s s' : TcpServer}

theorem calm_tidy (inv : Inv s) (calm : Calm s) : Tidy s := by
  refine ⟨by simp [calm.stale], fun k fd at_k _ closed => absurd (calm.opened k fd at_k) closed, ?_⟩
  refine (List.perm_ext_iff_of_nodup inv.keys.of_map inv.descriptors.of_map).mpr ?_
  rintro ⟨fd, k⟩
  rw [inv.entries]
  constructor
  · exact fun first => calm.opened k fd first.1
  · intro here
    obtain ⟨_, at_k, last⟩ := inv.sockets fd k here
    refine ⟨at_k, ?_⟩
    intro j before at_j
    -- The connection `j` is open under the same number, so it is the last one too.
    have later := (inv.sockets fd j (calm.opened j fd at_j)).2.2 k at_k
    omega

theorem broken_untidy (inv : Inv s) (broken : Broken s) : ¬ Tidy s := by
  intro tidy
  rcases broken with ⟨c, member, positive⟩ | failed
  · have := tidy.unused c member
    omega
  · obtain ⟨⟨fd, k⟩, here, same⟩ := List.mem_map.mp ((tidy.entries.map Prod.fst).subset failed)
    cases same
    exact absurd (inv.sockets _ _ here).1 (by decide)

/-- What one event does to the descriptors. -/
structure Handles (listenfd : Int) (e : Event) (s s' : TcpServer) : Prop where
  inv : Inv s'
  listenfd_ : s'.listenfd_ = listenfd
  calm : Quiet listenfd e → Calm s → Calm s'
  broken : ¬ Quiet listenfd e ∨ Broken s → Broken s'

theorem insert_keys {m : List (Int × Nat)} (key : Int) (value : Nat) {fd : Int} :
    fd ∈ (map_insert m key value).map Prod.fst ↔ fd = key ∨ fd ∈ m.map Prod.fst := by
  cases found : map_find m key with
  | none =>
    have perm := (insert_perm found value).map Prod.fst
    rw [perm.mem_iff, List.map_cons, List.mem_cons]
  | some w =>
    rw [insert_present found]
    constructor
    · exact .inr
    · rintro (rfl | member)
      · obtain ⟨e, here, _⟩ := Option.map_eq_some_iff.mp found
        have same : e.1 = fd := by simpa using List.find?_some here
        exact List.mem_map.mpr ⟨e, List.mem_of_find?_eq_some here, same⟩
      · exact member

theorem accepts_handles {e : Event} (listening : e.data_fd = s.listenfd_) (result : e.accept = -1 ∨ 0 ≤ e.accept)
    (inv : Inv s') (accepts : Accepts e.accept s s') : Handles s.listenfd_ e s s' := by
  refine ⟨inv, accepts.listenfd_, ?_, ?_⟩
  · intro quiet calm
    rw [Quiet, if_pos listening] at quiet
    refine ⟨by rw [accepts.stale, calm.stale, if_pos quiet, List.append_nil], ?_⟩
    intro k fd at_k
    rw [accepts.sockets, if_pos quiet, List.mem_cons]
    rw [accepts.accepted] at at_k
    by_cases old : k < s.accepted.length
    · rw [List.getElem?_append_left old] at at_k
      exact .inr (calm.opened k fd at_k)
    · have inside := (List.getElem?_eq_some_iff.mp at_k).1
      rw [List.length_append, List.length_singleton] at inside
      have last : k = s.accepted.length := by omega
      subst last
      have same : e.accept = fd := by simpa using at_k
      exact .inl (by rw [same])
  · intro loud
    rw [Quiet, if_pos listening] at loud
    rcases loud with failed | ⟨c, member, positive⟩ | earlier
    · have minus : e.accept = -1 := result.resolve_right failed
      right
      rw [accepts.clients_, insert_keys]
      exact .inl minus.symm
    · refine .inl ⟨c, ?_, positive⟩
      rw [accepts.stale]
      exact List.mem_append_left _ member
    · right
      rw [accepts.clients_, insert_keys]
      exact .inr earlier

theorem serves_handles {e : Event} {k i : Nat} {pending : List (List UInt8)} (positive : 0 ≤ e.data_fd) (inv : Inv s')
    (serves : Serves e.data_fd k i pending (Quiet s.listenfd_ e) s s') : Handles s.listenfd_ e s s' := by
  refine ⟨inv, serves.listenfd_, ?_, ?_⟩
  · intro quiet calm
    obtain ⟨sockets, stale⟩ := serves.kept quiet
    refine ⟨stale.trans calm.stale, ?_⟩
    rw [sockets, serves.accepted]
    exact calm.opened
  · intro loud
    rcases loud with closing | ⟨c, member, used⟩ | earlier
    · exact .inl ⟨_, serves.misused closing, positive⟩
    · exact .inl ⟨c, serves.stale.subset member, used⟩
    · right
      rw [serves.clients_]
      exact earlier

theorem handle_spec (inv : Inv s) {e : Event} (issued : Issued s e) :
    ∃ s', handle s e = some s' ∧ Handles s.listenfd_ e s s' := by
  by_cases listening : e.data_fd = s.listenfd_
  · have result := issued.accept listening
    obtain ⟨s', executed, after, accepts⟩ := accept_spec inv result
    exact ⟨s', by rw [handle_listen listening, executed],
      accepts_handles listening (result.imp_right And.left) after accepts⟩
  · obtain ⟨k, i, here, first⟩ := client_of_event inv issued listening
    obtain ⟨s', executed, after, serves⟩ :=
      handle_client inv listening here first fun b member => (issued.pending b member).1
    exact ⟨s', executed, serves_handles (inv.sockets _ _ here).1 after serves⟩

/-- An iteration leaves nothing closed exactly when each of its events does. -/
theorem iteration_spec {listenfd : Int} (inv : Inv s) (same : s.listenfd_ = listenfd) {events : List Event}
    (issued : Each handle Issued s events) :
    ∃ s', iteration s events = some s' ∧ Inv s' ∧ s'.listenfd_ = listenfd ∧
      ((∀ e ∈ events, Quiet listenfd e) → Calm s → Calm s') ∧
      (¬ (∀ e ∈ events, Quiet listenfd e) ∨ Broken s → Broken s') := by
  induction events generalizing s with
  | nil => exact ⟨s, rfl, inv, same, fun _ calm => calm, fun broken => broken.resolve_left (by simp)⟩
  | cons e events ih =>
    obtain ⟨mid, handled, spec⟩ := handle_spec inv issued.1
    rw [same] at spec
    obtain ⟨s', executed, inv', same', calm, broken⟩ := ih spec.inv spec.listenfd_ (issued.2 mid handled)
    refine ⟨s', ?_, inv', same', ?_, fun loud => broken ?_⟩
    · rw [iteration, run_cons, handled]
      exact executed
    · intro quiet before
      rw [List.forall_mem_cons] at quiet
      exact calm quiet.2 (spec.calm quiet.1 before)
    · rw [List.forall_mem_cons] at loud
      by_cases here : Quiet listenfd e
      · by_cases later : ∀ e ∈ events, Quiet listenfd e
        · exact .inr (spec.broken (loud.imp_left fun both => absurd ⟨here, later⟩ both))
        · exact .inl later
      · exact .inr (spec.broken (.inl here))

/-- Either nothing was closed so far, or something is broken. -/
structure Known (listenfd : Int) (s : TcpServer) : Prop where
  inv : Inv s
  listenfd_ : s.listenfd_ = listenfd
  known : Calm s ∨ Broken s

theorem known_iteration {listenfd : Int} (s : TcpServer) (batch : List Event) (known : Known listenfd s)
    (issued : Each handle Issued s batch) :
    ∃ s', iteration s batch = some s' ∧ Known listenfd s' ∧ (Tidy s → (Tidy s' ↔ ∀ e ∈ batch, Quiet listenfd e)) := by
  obtain ⟨s', executed, inv, same, calm, broken⟩ := iteration_spec known.inv known.listenfd_ issued
  refine ⟨s', executed, ⟨inv, same, ?_⟩, ?_⟩
  · by_cases quiet : ∀ e ∈ batch, Quiet listenfd e
    · exact known.known.imp (calm quiet) fun before => broken (.inr before)
    · exact .inr (broken (.inl quiet))
  · intro tidy
    have before : Calm s := known.known.resolve_right fun bad => broken_untidy known.inv bad tidy
    constructor
    · intro after
      by_contra loud
      exact broken_untidy inv (broken (.inl loud)) after
    · exact fun quiet => calm_tidy inv (calm quiet before)

theorem tidy_iff (junk : Nat → Nat → UInt8) (listenfd : Int) (others : List Int) (batches : List (List Event))
    (issued : Each iteration (Each handle Issued) (TcpServer_new junk listenfd others) batches) :
    Always iteration Tidy (TcpServer_new junk listenfd others) batches ↔
      ∀ batch ∈ batches, ∀ e ∈ batch, Quiet listenfd e := by
  have inv := new_inv junk listenfd others
  have calm : Calm (TcpServer_new junk listenfd others) := ⟨rfl, by simp [TcpServer_new]⟩
  have start : Known listenfd (TcpServer_new junk listenfd others) := ⟨inv, rfl, .inl calm⟩
  have progress : ∀ s batch, Known listenfd s → Each handle Issued s batch →
      ∃ s', iteration s batch = some s' ∧ Known listenfd s' := fun s batch known issued =>
    (known_iteration s batch known issued).imp fun _ spec => ⟨spec.1, spec.2.1⟩
  rw [← each_iff_forall progress start issued]
  refine always_iff_each ?_ ?_ start (calm_tidy inv calm) issued
  · intro s batch s' known issued executed
    obtain ⟨other, same, after⟩ := progress s batch known issued
    cases executed.symm.trans same
    exact after
  · intro s batch known tidy issued
    obtain ⟨s', executed, _, iff⟩ := known_iteration s batch known issued
    exact ⟨s', executed, iff tidy⟩

theorem tidy_open_connection :
    Always iteration Tidy first_server [[listening 5], [bytes_on 5 [[1], [2]]]] ↔
      ∀ batch ∈ [[listening 5], [bytes_on 5 [[1], [2]]]], ∀ e ∈ batch, Quiet 3 e := by
  apply tidy_iff
  exact each_cons (each_cons (issued_listening rfl (by decide)) rfl trivial) rfl <|
    each_cons (each_cons (issued_client (by decide) (by decide) (by decide)) rfl trivial) rfl trivial

/-- Both branches close the descriptor, and the loop between them reads it. -/
theorem closed_twice :
    Each iteration (Each handle Issued) first_server [[listening 5], [⟨5, true, true, 0, []⟩]] ∧
      (∃ s, run iteration first_server [[listening 5], [⟨5, true, true, 0, []⟩]] = some s ∧
        s.stale = [(.epoll_ctl, 5), (.recv, 5), (.close, 5), (.epoll_ctl, 5)] ∧
        s.clients_ = [(5, 0)] ∧ s.sockets = []) ∧
      ¬ Always iteration Tidy first_server [[listening 5], [⟨5, true, true, 0, []⟩]] := by
  refine ⟨?_, ⟨_, rfl, rfl, rfl, rfl⟩, ?_⟩
  · exact each_cons (each_cons (issued_listening rfl (by decide)) rfl trivial) rfl <|
      each_cons (each_cons (issued_client (by decide) (by decide) (by decide)) rfl trivial) rfl trivial
  · intro always
    have tidy := (always.2 _ rfl).2 _ rfl
    exact absurd (tidy.unused (.recv, 5) (by decide)) (by decide)

end TcpLearn.Descriptors
