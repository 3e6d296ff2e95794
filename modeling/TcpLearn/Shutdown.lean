import TcpLearn.Server

/-!
# Shutting the server down

`~TcpServer` deletes the clients of its map. A client whose number was in the map
before it was created is not there, so it is never deleted: its connection stays
in use, and `context_free_content` refuses to release the context
(`shutdown_iff`).
-/
namespace TcpLearn.Shutdown
open TcpLearn.Memory TcpLearn.Contexts TcpLearn.Pools TcpLearn.Server TcpLearn.Runs

/-- What the calls of `su_accept` return while the events are handled. -/
def accept_results (listenfd : Int) (events : List Event) : List Int :=
  (events.filter fun e => e.data_fd = listenfd).map Event.accept

/-- After the loop of the destructor: every client was deleted once, and nothing
    holds the context back. -/
structure ShutDown (created : Nat) (s : TcpServer) (ret : Int) : Prop where
  deleted : ∀ i < created, s.deleted.count i = 1
  conns : s.pool.world.ctx.mstats.conns = 0
  released : ret = 0

variable {s s' : TcpServer}

theorem run_accepted {events : List Event} (inv : Inv s) (issued : Each handle Issued s events) :
    ∃ s', run handle s events = some s' ∧ Inv s' ∧ s'.deleted = s.deleted ∧
      s'.accepted = s.accepted ++ accept_results s.listenfd_ events := by
  induction events generalizing s with
  | nil => exact ⟨s, rfl, inv, rfl, by simp [accept_results]⟩
  | cons e events ih =>
    obtain ⟨here, later⟩ := issued
    obtain ⟨s₁, handled, inv₁, deleted, listenfd, accepted⟩ : ∃ s₁, handle s e = some s₁ ∧ Inv s₁ ∧
        s₁.deleted = s.deleted ∧ s₁.listenfd_ = s.listenfd_ ∧
        s₁.accepted = s.accepted ++ accept_results s.listenfd_ [e] := by
      by_cases listening : e.data_fd = s.listenfd_
      · obtain ⟨s₁, executed, after, accepts⟩ := accept_spec inv (here.accept listening)
        exact ⟨s₁, by rw [handle_listen listening, executed], after, accepts.deleted, accepts.listenfd_,
          by simp [accepts.accepted, accept_results, listening]⟩
      · obtain ⟨k, i, opened, first⟩ := client_of_event inv here listening
        obtain ⟨s₁, executed, after, serves⟩ :=
          handle_client inv listening opened first fun b member => (here.pending b member).1
        exact ⟨s₁, executed, after, serves.deleted, serves.listenfd_,
          by simp [serves.accepted, accept_results, listening]⟩
    obtain ⟨s', executed, inv', deleted', accepted'⟩ := ih inv₁ (later s₁ handled)
    refine ⟨s', by rw [run_cons, handled]; exact executed, inv', deleted'.trans deleted, ?_⟩
    rw [accepted', accepted, listenfd, List.append_assoc]
    simp only [accept_results, ← List.map_append, ← List.filter_append, List.singleton_append]

/-- The loop deletes the clients of the map, whose connections are in use. -/
theorem delete_spec {m : List (Int × Nat)} {pool : List Nat} (inv : Accounting.Inv s.pool pool)
    (distinct : (m.map Prod.snd).Nodup)
    (used : ∀ i ∈ m.map Prod.snd, ∃ c, s.pool.handles[i]? = some c ∧ c ∈ s.pool.inUse) :
    ∃ s' pool', delete_clients m s = some s' ∧ Accounting.Inv s'.pool pool' ∧ s'.deleted = s.deleted ++ m.map Prod.snd ∧
      s'.pool.inUse.length + m.length = s.pool.inUse.length := by
  induction m generalizing s pool with
  | nil => exact ⟨_, pool, rfl, inv, by simp, by simp⟩
  | cons entry rest ih =>
    obtain ⟨fd, i⟩ := entry
    rw [List.map_cons, List.nodup_cons] at distinct
    obtain ⟨p, _, stepped, after⟩ := Accounting.inv_recycle inv (i := i) (used i (by simp))
    obtain ⟨c, w, con, found, _, rfl⟩ := step_recycle.mp stepped
    obtain ⟨_, again, inUse⟩ := used i (by simp)
    cases found.symm.trans again
    have handles : s.pool.handles.Nodup := inv.handed.nodup_iff.mpr inv.accounts.ownConns.nodup
    obtain ⟨s', pool', executed, inv', deleted, length⟩ :=
      @ih { s with clients_ := rest, pool := { s.pool.set w c con with inUse := s.pool.inUse.erase c }
                   deleted := s.deleted ++ [i] } _ after distinct.2 (by
        intro j member
        obtain ⟨c', at_j, used_j⟩ := used j (by simp at member ⊢; exact .inr member)
        refine ⟨c', at_j, (List.mem_erase_of_ne ?_).mpr used_j⟩
        rintro rfl
        obtain ⟨below, equal⟩ := List.getElem?_eq_some_iff.mp at_j
        obtain ⟨below', equal'⟩ := List.getElem?_eq_some_iff.mp found
        have same := (List.Nodup.getElem_inj_iff handles).mp (equal.trans equal'.symm)
        exact distinct.1 (same ▸ member))
    refine ⟨s', pool', ?_, inv', by simp [deleted], ?_⟩
    · simp only [delete_clients, stepped, Option.bind_eq_bind, Option.bind_some]
      exact executed
    · have erased := List.length_erase_of_mem inUse
      have some := List.length_pos_of_mem inUse
      simp only [List.length_cons] at length ⊢
      omega

/-- The clients of the map are those created first for their number. -/
theorem clients_distinct (inv : Inv s) : (s.clients_.map Prod.snd).Nodup := by
  refine List.Nodup.map_on ?_ (List.Nodup.of_map _ inv.keys)
  rintro ⟨fd, i⟩ here ⟨fd', j⟩ there same
  cases same
  have first := ((inv.entries fd i).mp here).1
  have other := ((inv.entries fd' i).mp there).1
  cases first.symm.trans other
  rfl

theorem in_map_iff (inv : Inv s) {i : Nat} : i ∈ s.clients_.map Prod.snd ↔ ∃ fd, First s.accepted fd i := by
  simp [inv.entries]

/-- All clients are in the map exactly when no number was accepted twice. -/
theorem all_in_map_iff (inv : Inv s) :
    (∀ i < s.accepted.length, i ∈ s.clients_.map Prod.snd) ↔ s.accepted.Nodup := by
  simp only [in_map_iff inv]
  constructor
  · intro all
    rw [List.nodup_iff_getElem?_ne_getElem?]
    intro i j before inside same
    obtain ⟨fd, at_j, earlier⟩ := all j inside
    exact earlier i before (same.trans at_j)
  · intro distinct i inside
    refine ⟨s.accepted[i], List.getElem?_eq_getElem inside, ?_⟩
    intro j before at_j
    obtain ⟨below, same⟩ := List.getElem?_eq_some_iff.mp at_j
    exact absurd ((List.Nodup.getElem_inj_iff distinct).mp same) (by omega)

/-- There are as many entries as clients exactly when every client is in the map. -/
theorem map_length_iff (inv : Inv s) :
    s.clients_.length = s.accepted.length ↔ ∀ i < s.accepted.length, i ∈ s.clients_.map Prod.snd := by
  have inside : ∀ i ∈ s.clients_.map Prod.snd, i ∈ List.range s.accepted.length := by
    intro i member
    obtain ⟨fd, at_i, _⟩ := (in_map_iff inv).mp member
    exact List.mem_range.mpr (List.getElem?_eq_some_iff.mp at_i).1
  have within := (clients_distinct inv).subperm inside
  constructor
  · intro length i below
    have perm := within.perm_of_length_le (by simp [length])
    exact perm.mem_iff.mpr (List.mem_range.mpr below)
  · intro all
    have other := List.nodup_range.subperm fun i member => all i (List.mem_range.mp member)
    have left := within.length_le
    have right := other.length_le
    rw [List.length_map, List.length_range] at left right
    omega

/-- The destructor, from any state `Process` reaches. -/
theorem destroy_spec (inv : Inv s) (none : s.deleted = []) :
    ∃ s' last ret, delete_clients s.clients_ s = some s' ∧ TcpServer_destroy s = some (ret, last) ∧
      (ShutDown s.accepted.length s' ret ↔ s.accepted.Nodup) := by
  have used : ∀ i ∈ s.clients_.map Prod.snd, ∃ c, s.pool.handles[i]? = some c ∧ c ∈ s.pool.inUse := by
    intro i member
    obtain ⟨fd, at_i, _⟩ := (in_map_iff inv).mp member
    have inside : i < s.pool.handles.length := inv.handles ▸ (List.getElem?_eq_some_iff.mp at_i).1
    exact ⟨_, List.getElem?_eq_getElem inside, by simpa using inv.pool.handed.mem_iff.mp (List.getElem_mem inside)⟩
  obtain ⟨s', pool', deletes, inv', deleted, length⟩ := delete_spec inv.pool (clients_distinct inv) used
  have clients : s.pool.inUse.length = s.accepted.length := by
    rw [← inv.handles, inv.pool.handed.length_eq, List.nil_append]
  have conns := inv'.accounts.connections
  rw [none, List.nil_append] at deleted
  obtain ⟨last, destroyed⟩ : ∃ last, TcpServer_destroy s = some ((context_free_content s'.pool.world).1, last) := by
    rw [TcpServer_destroy, deletes]
    exact ⟨_, rfl⟩
  refine ⟨s', last, _, deletes, destroyed, ?_⟩
  constructor
  · intro down
    apply (all_in_map_iff inv).mp
    intro i inside
    rw [← deleted]
    exact List.count_pos_iff.mp (by rw [down.deleted i inside]; exact Nat.one_pos)
  · intro distinct
    have all := (all_in_map_iff inv).mpr distinct
    have every := (map_length_iff inv).mpr all
    have idle : s'.pool.world.ctx.mstats.conns = 0 := by
      rw [conns]
      omega
    refine ⟨?_, idle, by simp [context_free_content, idle]⟩
    intro i inside
    rw [deleted]
    exact List.count_eq_one_of_mem (clients_distinct inv) (all i inside)

/-- Shutting down after a run works exactly when no two calls of `su_accept`
    returned the same number. -/
theorem shutdown_iff (junk : Nat → Nat → UInt8) (listenfd : Int) (others : List Int) (events : List Event)
    (issued : Each handle Issued (TcpServer_new junk listenfd others) events) :
    ∃ s s' last ret, run handle (TcpServer_new junk listenfd others) events = some s ∧
      delete_clients s.clients_ s = some s' ∧ TcpServer_destroy s = some (ret, last) ∧
      (ShutDown (accept_results listenfd events).length s' ret ↔ (accept_results listenfd events).Nodup) := by
  obtain ⟨s, executed, inv, none, accepted⟩ := run_accepted (new_inv junk listenfd others) issued
  have results : s.accepted = accept_results listenfd events := accepted
  obtain ⟨s', last, ret, deletes, destroyed, iff⟩ := destroy_spec inv none
  rw [results] at iff
  exact ⟨s, s', last, ret, executed, deletes, destroyed, iff⟩

theorem shutdown_two_connections :
    ∃ s s' last ret, run handle first_server [listening 5, listening 6, bytes_on 6 [[1]], hung_up 6] = some s ∧
      delete_clients s.clients_ s = some s' ∧ TcpServer_destroy s = some (ret, last) ∧
      (ShutDown (accept_results 3 [listening 5, listening 6, bytes_on 6 [[1]], hung_up 6]).length s' ret ↔
        (accept_results 3 [listening 5, listening 6, bytes_on 6 [[1]], hung_up 6]).Nodup) := by
  apply shutdown_iff
  exact each_cons (issued_listening rfl (by decide)) rfl <| each_cons (issued_listening rfl (by decide)) rfl <|
    each_cons (issued_client (by decide) (by decide) (by decide)) rfl <|
    each_cons (issued_client (by decide) (by decide) (by decide)) rfl trivial

/-- The client of the second connection that is given the number 5 is not in the map. -/
theorem reused_number_leaks :
    Each handle Issued first_server [listening 5, hung_up 5, listening 5] ∧
      Each handle Lowest first_server [listening 5, hung_up 5, listening 5] ∧
      ∃ s s' last ret, run handle first_server [listening 5, hung_up 5, listening 5] = some s ∧
        delete_clients s.clients_ s = some s' ∧ TcpServer_destroy s = some (ret, last) ∧
        s'.deleted = [0] ∧ s'.pool.world.ctx.mstats.conns = 1 ∧ ret = 1 ∧
        ¬ ShutDown (accept_results 3 [listening 5, hung_up 5, listening 5]).length s' ret := by
  refine ⟨?_, ?_, _, _, _, _, rfl, rfl, rfl, rfl, rfl, rfl, ?_⟩
  · exact each_cons (issued_listening rfl (by decide)) rfl <| each_cons (issued_client (by decide) (by decide) (by decide)) rfl <|
      each_cons (issued_listening rfl (by decide)) rfl trivial
  · exact each_cons (lowest_five rfl rfl) rfl <| each_cons (fun same => absurd same (by decide)) rfl <|
      each_cons (lowest_five rfl rfl) rfl trivial
  · intro down
    exact absurd down.released (by decide)

end TcpLearn.Shutdown
