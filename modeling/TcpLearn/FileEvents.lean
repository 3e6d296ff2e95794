import TcpLearn.EventLoop
import TcpLearn.Runs

/-!
# Runs over the file events

Registering, unregistering, opening and closing descriptors in any order. The epoll
instance watches exactly what the table says, at every moment of a run, if and only if
no descriptor is closed while it has an entry (`table_agrees_iff`). A descriptor closed too
early is stale: nobody can register its number again until the entry is deleted
(`stale_refused`). Whatever is done, an entry has the procedures its mask asks for, so
that no report of the kernel makes the loop call a procedure that is NULL, however the
procedures of a batch change the table (`dispatch_total`).
-/
namespace TcpLearn.FileEvents
open TcpLearn.EventLoop TcpLearn.Runs

variable {Proc : Type}

structure Files (Proc : Type) where
  eventLoop : aeEventLoop Proc
  kernel : Kernel

inductive FileOp (Proc : Type) where
  /-- The kernel gives out a number that is not in use. -/
  | opened (fd : Int)
  | create (fd : Int) (mask : BitVec 32) (proc : Proc) (clientData : Option Nat) (room : Bool)
  | delete (fd : Int) (mask : BitVec 32)
  | close (fd : Int)

/-- A registration that fails leaves everything as it is. -/
def step (s : Files Proc) : FileOp Proc → Option (Files Proc)
  | .opened fd => some { s with kernel := { s.kernel with opened := fd :: s.kernel.opened } }
  | .create fd mask proc clientData room => do
    match ← aeCreateFileEvent s.eventLoop s.kernel fd mask proc clientData room with
    | none => some s
    | some (eventLoop, kernel) => some ⟨eventLoop, kernel⟩
  | .delete fd mask => do
    let (eventLoop, kernel) ← aeDeleteFileEvent s.eventLoop s.kernel fd mask
    some ⟨eventLoop, kernel⟩
  | .close fd => some { s with kernel := EventLoop.close s.kernel fd }

/-- The events that procedures can be registered for. -/
def Asks (mask : BitVec 32) : Prop := mask = AE_READABLE ∨ mask = AE_WRITABLE ∨ mask = AE_READABLE ||| AE_WRITABLE

/-- What the callers keep to: descriptors are not negative. -/
def Issued (s : Files Proc) : FileOp Proc → Prop
  | .opened fd => 0 ≤ fd ∧ fd ∉ s.kernel.opened
  | .create fd mask .. => 0 ≤ fd ∧ Asks mask
  | .delete fd _ => 0 ≤ fd
  | .close _ => True

/-- The descriptor closed has no entry any longer. -/
def Unregistered (s : Files Proc) : FileOp Proc → Prop
  | .close fd => ¬ HasEntry s.eventLoop fd
  | _ => True

instance (mask : BitVec 32) : Decidable (Asks mask) := inferInstanceAs (Decidable (_ ∨ _ ∨ _))

instance (s : Files Proc) : (op : FileOp Proc) → Decidable (Issued s op)
  | .opened _ => inferInstanceAs (Decidable (_ ∧ _))
  | .create .. => inferInstanceAs (Decidable (_ ∧ _))
  | .delete fd _ => inferInstanceAs (Decidable (0 ≤ fd))
  | .close _ => .isTrue trivial

instance (s : Files Proc) : (op : FileOp Proc) → Decidable (Unregistered s op)
  | .opened _ => .isTrue trivial
  | .create .. => .isTrue trivial
  | .delete .. => .isTrue trivial
  | .close fd => inferInstanceAs (Decidable (¬ HasEntry s.eventLoop fd))

/-- The kernel watches what the table says. -/
def Agrees (s : Files Proc) : Prop := ∀ fd, 0 ≤ fd → fd < s.eventLoop.setsize →
  s.kernel.watched fd = if (s.eventLoop.events fd).mask = AE_NONE then none else
    some (epoll_events (s.eventLoop.events fd).mask)

/-- Only open descriptors of the table are watched. -/
def Watches (s : Files Proc) : Prop := ∀ fd, s.kernel.watched fd ≠ none →
  fd ∈ s.kernel.opened ∧ 0 ≤ fd ∧ fd < s.eventLoop.setsize

/-- An entry has the procedures its mask asks for. -/
def Armed (s : Files Proc) : Prop := ∀ fd, 0 ≤ fd → fd < s.eventLoop.setsize →
  ((s.eventLoop.events fd).mask &&& AE_READABLE ≠ 0 → (s.eventLoop.events fd).rfileProc ≠ none) ∧
    ((s.eventLoop.events fd).mask &&& AE_WRITABLE ≠ 0 → (s.eventLoop.events fd).wfileProc ≠ none)

/-! ## Registering -/

theorem asks_some {mask : BitVec 32} (asks : Asks mask) : mask ≠ AE_NONE := by
  rcases asks with rfl | rfl | rfl <;> decide

section
variable {s : Files Proc} {fd : Int} {mask : BitVec 32} {proc : Proc} {clientData : Option Nat} {room : Bool}
  {eventLoop : aeEventLoop Proc} {kernel : Kernel}

theorem create_agrees (agrees : Agrees s) (asks : Asks mask)
    (created : Created mask proc fd s.eventLoop s.kernel eventLoop kernel) : Agrees ⟨eventLoop, kernel⟩ := by
  intro other low high
  rw [created.watched]
  by_cases same : other = fd
  · subst same
    have set : (eventLoop.events other).mask ≠ AE_NONE := by
      rw [created.entry]
      intro none
      exact asks_some asks (BitVec.or_eq_zero_iff.mp none).2
    rw [Function.update_self, if_neg set, created.entry, BitVec.or_comm]
  · rw [Function.update_of_ne same]
    dsimp only
    rw [created.others other same]
    exact agrees other low (by rwa [created.setsize] at high)

theorem create_watches (watches : Watches s)
    (created : Created mask proc fd s.eventLoop s.kernel eventLoop kernel) : Watches ⟨eventLoop, kernel⟩ := by
  intro other watched
  rw [created.watched] at watched
  dsimp only at watched ⊢
  rw [created.kept, created.setsize]
  by_cases same : other = fd
  · subst same
    exact ⟨created.opened, created.inside⟩
  · rw [Function.update_of_ne same] at watched
    exact watches other watched

/-- `create_spec` says nothing of the procedure for writing: here is the whole entry. -/
theorem create_entry (executed : aeCreateFileEvent s.eventLoop s.kernel fd mask proc clientData room =
      some (some (eventLoop, kernel))) :
    (eventLoop.events fd).rfileProc =
        (if mask &&& AE_READABLE ≠ 0 then some proc else (s.eventLoop.events fd).rfileProc) ∧
      (eventLoop.events fd).wfileProc =
        (if mask &&& AE_WRITABLE ≠ 0 then some proc else (s.eventLoop.events fd).wfileProc) := by
  rw [create_unfolds (create_spec executed).inside] at executed
  obtain ⟨_, _, same⟩ := Option.map_eq_some_iff.mp (Option.some.inj executed)
  cases same
  simp

theorem create_armed (armed : Armed s) (executed : aeCreateFileEvent s.eventLoop s.kernel fd mask proc clientData room =
      some (some (eventLoop, kernel))) : Armed ⟨eventLoop, kernel⟩ := by
  have created := create_spec executed
  have entry := create_entry executed
  intro other low high
  dsimp only at high ⊢
  rw [created.setsize] at high
  by_cases same : other = fd
  · subst same
    obtain ⟨reads, writes⟩ := armed other low high
    rw [created.entry, entry.1, entry.2]
    refine ⟨?_, ?_⟩
    · intro readable
      split_ifs with asked
      · simp
      · refine reads fun none => readable ?_
        rw [BitVec.and_or_distrib_right, none, not_not.mp asked]
        rfl
    · intro writable
      split_ifs with asked
      · simp
      · refine writes fun none => writable ?_
        rw [BitVec.and_or_distrib_right, none, not_not.mp asked]
        rfl
  · rw [created.others other same]
    exact armed other low high

end

/-! ## Unregistering -/

section
variable {s s' : Files Proc} {fd : Int} {mask : BitVec 32}

/-- The entry with some of its events taken away. -/
def without (fe : aeFileEvent Proc) (mask : BitVec 32) : aeFileEvent Proc := { fe with mask := fe.mask &&& ~~~mask }

/-- Nothing happens without an entry; else the entry is changed, and then what is watched. -/
theorem delete_cases
    (executed : aeDeleteFileEvent s.eventLoop s.kernel fd mask = some (s'.eventLoop, s'.kernel)) :
    s' = s ∨ (0 ≤ fd ∧ fd < s.eventLoop.setsize) ∧ (s.eventLoop.events fd).mask ≠ AE_NONE ∧ ∃ maxfd,
      s'.eventLoop = ⟨maxfd, s.eventLoop.setsize,
        Function.update s.eventLoop.events fd (without (s.eventLoop.events fd) mask)⟩ ∧
      s'.kernel = aeApiDelEvent s'.eventLoop s.kernel fd mask := by
  obtain ⟨eventLoop, kernel⟩ := s
  obtain ⟨eventLoop', kernel'⟩ := s'
  dsimp only at executed ⊢
  rw [aeDeleteFileEvent] at executed
  split_ifs at executed with past
  · cases executed
    exact .inl rfl
  · obtain ⟨fe, found, rest⟩ := Option.bind_eq_some_iff.mp executed
    rw [aeEventLoop.entry] at found
    split_ifs at found with inside
    cases found
    split_ifs at rest with unset
    · cases rest
      exact .inl rfl
    · obtain ⟨sameLoop, sameKernel⟩ := Prod.mk.inj (Option.some.inj rest)
      refine .inr ⟨inside, unset, eventLoop'.maxfd, ?_, ?_⟩
      · rw [← sameLoop]
        split_ifs <;> rfl
      · rw [← sameKernel, sameLoop]

/-- A watched descriptor is watched for what is left of its mask, or not at all. -/
theorem del_event_watched {eventLoop : aeEventLoop Proc} {kernel : Kernel} (opened : fd ∈ kernel.opened)
    (watched : kernel.watched fd ≠ none) (delmask : BitVec 32) : aeApiDelEvent eventLoop kernel fd delmask =
      ⟨kernel.opened, Function.update kernel.watched fd <|
        if (eventLoop.events fd).mask &&& ~~~delmask = AE_NONE then none else
          some (epoll_events ((eventLoop.events fd).mask &&& ~~~delmask))⟩ := by
  rw [aeApiDelEvent]
  by_cases empty : (eventLoop.events fd).mask &&& ~~~delmask = AE_NONE
  · simp [empty, epoll_ctl, opened, watched]
  · simp [empty, epoll_ctl, opened, watched]

theorem without_twice (mask delmask : BitVec 32) : mask &&& ~~~delmask &&& ~~~delmask = mask &&& ~~~delmask := by
  rw [BitVec.and_assoc, BitVec.and_self]

variable (executed : aeDeleteFileEvent s.eventLoop s.kernel fd mask = some (s'.eventLoop, s'.kernel))
include executed

theorem delete_setsize : s'.eventLoop.setsize = s.eventLoop.setsize := by
  obtain rfl | ⟨_, _, _, table, _⟩ := delete_cases executed
  · rfl
  · rw [table]

theorem delete_agrees (agrees : Agrees s) (watches : Watches s) : Agrees s' := by
  obtain rfl | ⟨⟨low, inside⟩, some_mask, maxfd, table, kernel⟩ := delete_cases executed
  · exact agrees
  · have watched : s.kernel.watched fd ≠ none := by
      rw [agrees fd low inside, if_neg some_mask]
      simp
    rw [del_event_watched (watches fd watched).1 watched] at kernel
    intro other otherLow high
    rw [table] at kernel high ⊢
    rw [kernel]
    by_cases same : other = fd
    · subst same
      simp only [Function.update_self, without, without_twice]
    · simp only [Function.update_of_ne same]
      exact agrees other otherLow high

theorem delete_watches (watches : Watches s) : Watches s' := by
  obtain rfl | ⟨inside, some_mask, maxfd, table, kernel⟩ := delete_cases executed
  · exact watches
  · have deleted := delete_spec inside executed
    intro other watched
    rw [deleted.kept, deleted.setsize]
    by_cases same : other = fd
    · subst same
      refine ⟨?_, inside⟩
      by_contra closed
      -- a descriptor that is not open is not watched, and the kernel refuses to change it
      rw [kernel, aeApiDelEvent] at watched
      split_ifs at watched <;> simp only [epoll_ctl, closed, false_and, if_false, Option.getD_none] at watched <;>
        exact closed (watches other watched).1
    · rw [deleted.watched other same] at watched
      exact watches other watched

theorem delete_armed (armed : Armed s) : Armed s' := by
  obtain rfl | ⟨_, _, maxfd, table, _⟩ := delete_cases executed
  · exact armed
  · intro other low high
    rw [table] at high ⊢
    by_cases same : other = fd
    · subst same
      obtain ⟨reads, writes⟩ := armed other low high
      have less : ∀ bits, (s.eventLoop.events other).mask &&& ~~~mask &&& bits ≠ 0 →
          (s.eventLoop.events other).mask &&& bits ≠ 0 := by
        intro bits left none
        refine left ?_
        rw [BitVec.and_assoc, BitVec.and_comm (~~~mask), ← BitVec.and_assoc, none]
        exact BitVec.zero_and
      simp only [Function.update_self, without]
      exact ⟨fun left => reads (less _ left), fun left => writes (less _ left)⟩
    · simp only [Function.update_of_ne same]
      exact armed other low high

theorem delete_keeps_track (tracks : Tracks s.eventLoop) : Tracks s'.eventLoop := by
  obtain rfl | ⟨inside, _⟩ := delete_cases executed
  · exact tracks
  · exact delete_tracks tracks inside (delete_spec inside executed)

end

/-! ## Runs -/

theorem step_create {s s' : Files Proc} {fd : Int} {mask : BitVec 32} {proc : Proc} {clientData : Option Nat} {room : Bool}
    (stepped : step s (.create fd mask proc clientData room) = some s') :
    aeCreateFileEvent s.eventLoop s.kernel fd mask proc clientData room = some none ∧ s' = s ∨
      aeCreateFileEvent s.eventLoop s.kernel fd mask proc clientData room = some (some (s'.eventLoop, s'.kernel)) := by
  obtain ⟨_ | ⟨eventLoop, kernel⟩, executed, rest⟩ := Option.bind_eq_some_iff.mp stepped
  · cases rest
    exact .inl ⟨executed, rfl⟩
  · cases rest
    exact .inr executed

theorem step_delete {s s' : Files Proc} {fd : Int} {mask : BitVec 32} (stepped : step s (.delete fd mask) = some s') :
    aeDeleteFileEvent s.eventLoop s.kernel fd mask = some (s'.eventLoop, s'.kernel) := by
  obtain ⟨_, executed, rest⟩ := Option.bind_eq_some_iff.mp stepped
  cases rest
  exact executed

/-- What every run keeps. -/
structure Kept (s : Files Proc) : Prop where
  watches : Watches s
  armed : Armed s
  tracks : Tracks s.eventLoop

theorem step_kept {s s' : Files Proc} {op : FileOp Proc} (kept : Kept s) (issued : Issued s op)
    (stepped : step s op = some s') : Kept s' := by
  cases op with
  | opened fd =>
    cases stepped
    refine ⟨?_, kept.armed, kept.tracks⟩
    intro other watched
    obtain ⟨opened, inside⟩ := kept.watches other watched
    exact ⟨List.mem_cons_of_mem _ opened, inside⟩
  | create fd mask proc clientData room =>
    obtain ⟨_, rfl⟩ | executed := step_create stepped
    · exact kept
    · have created := create_spec executed
      exact ⟨create_watches kept.watches created, create_armed kept.armed executed,
        create_tracks kept.tracks (asks_some issued.2) created⟩
  | delete fd mask =>
    have executed := step_delete stepped
    exact ⟨delete_watches executed kept.watches, delete_armed executed kept.armed, delete_keeps_track executed kept.tracks⟩
  | close fd =>
    cases stepped
    refine ⟨?_, kept.armed, kept.tracks⟩
    intro other watched
    by_cases same : other = fd
    · subst same
      exact absurd (Function.update_self _ _ _) watched
    · have before : s.kernel.watched other ≠ none := by simpa [EventLoop.close, same] using watched
      obtain ⟨opened, inside⟩ := kept.watches other before
      exact ⟨List.mem_filter.mpr ⟨opened, by simpa using same⟩, inside⟩

theorem step_some {s : Files Proc} {op : FileOp Proc} (issued : Issued s op) : ∃ s', step s op = some s' := by
  cases op with
  | opened fd => exact ⟨_, rfl⟩
  | create fd mask proc clientData room =>
    obtain ⟨result, executed⟩ := @create_returns _ s.eventLoop s.kernel fd mask proc clientData room issued.1
    rw [step, executed]
    cases result with
    | none => exact ⟨s, rfl⟩
    | some after => exact ⟨_, rfl⟩
  | delete fd mask =>
    obtain ⟨eventLoop, kernel, executed⟩ := @delete_returns _ s.eventLoop s.kernel fd issued mask
    exact ⟨_, Option.bind_eq_some_iff.mpr ⟨_, executed, rfl⟩⟩
  | close fd => exact ⟨_, rfl⟩

/-- The kernel forgets a descriptor that is closed, the table does not. -/
theorem close_agrees {s : Files Proc} (agrees : Agrees s) (fd : Int) :
    Agrees { s with kernel := EventLoop.close s.kernel fd } ↔ ¬ HasEntry s.eventLoop fd := by
  constructor
  · rintro after ⟨low, inside, some_mask⟩
    have forgotten := after fd low inside
    rw [if_neg some_mask] at forgotten
    simp [EventLoop.close] at forgotten
  · intro none other low inside
    by_cases same : other = fd
    · subst same
      have empty : (s.eventLoop.events other).mask = AE_NONE := by
        by_contra some_mask
        exact none ⟨low, inside, some_mask⟩
      simp [EventLoop.close, empty]
    · simp only [EventLoop.close, Function.update_of_ne same]
      exact agrees other low inside

theorem step_agrees {s : Files Proc} {op : FileOp Proc} (kept : Kept s) (agrees : Agrees s) (issued : Issued s op) :
    ∃ s', step s op = some s' ∧ (Agrees s' ↔ Unregistered s op) := by
  obtain ⟨s', stepped⟩ := step_some issued
  refine ⟨s', stepped, ?_⟩
  cases op with
  | opened fd =>
    cases stepped
    exact iff_of_true agrees trivial
  | create fd mask proc clientData room =>
    obtain ⟨_, rfl⟩ | executed := step_create stepped
    · exact iff_of_true agrees trivial
    · exact iff_of_true (create_agrees agrees issued.2 (create_spec executed)) trivial
  | delete fd mask => exact iff_of_true (delete_agrees (step_delete stepped) agrees kept.watches) trivial
  | close fd =>
    cases stepped
    exact close_agrees agrees fd

/-- A new loop over an epoll instance that watches nothing. -/
def start (memory : Int → aeFileEvent Proc) (setsize : Int) (opened : List Int) : Files Proc :=
  ⟨aeCreateEventLoop memory setsize, opened, fun _ => none⟩

theorem start_mask (memory : Int → aeFileEvent Proc) {setsize fd : Int} (opened : List Int) (low : 0 ≤ fd)
    (inside : fd < setsize) : ((start memory setsize opened).eventLoop.events fd).mask = AE_NONE := by
  simp [start, aeCreateEventLoop, low, inside]

theorem start_kept (memory : Int → aeFileEvent Proc) (setsize : Int) (opened : List Int) :
    Kept (start memory setsize opened) := by
  refine ⟨fun fd watched => absurd rfl watched, ?_, create_loop_tracks memory setsize⟩
  intro fd low inside
  have empty := start_mask memory opened low (show fd < setsize from inside)
  rw [empty]
  exact ⟨fun some => absurd BitVec.zero_and some, fun some => absurd BitVec.zero_and some⟩

/-- In every run the kernel watches at every moment what the table says exactly when no
    descriptor is closed while it has an entry. -/
theorem table_agrees_iff (memory : Int → aeFileEvent Proc) (setsize : Int) (opened : List Int) (ops : List (FileOp Proc))
    (issued : Each step Issued (start memory setsize opened) ops) :
    Always step Agrees (start memory setsize opened) ops ↔ Each step Unregistered (start memory setsize opened) ops := by
  refine always_iff_each (fun s op s' kept good stepped => step_kept kept good stepped) ?_
    (start_kept memory setsize opened) ?_ issued
  · intro s op kept agrees good
    exact step_agrees kept agrees good
  · intro fd low inside
    have empty := start_mask memory opened low (show fd < setsize from inside)
    rw [empty]
    rfl

/-- A table of ten entries. -/
def ten : Files Unit := start (fun _ => ⟨0, none, none, none⟩) 10 [3]

/-- A connection comes, is registered, unregistered and closed. -/
def visit : List (FileOp Unit) := [.opened 5, .create 5 AE_READABLE () none true, .delete 5 AE_READABLE, .close 5]

theorem table_agrees_iff_visit : Always step Agrees ten visit := by
  have issued : Each step Issued ten visit :=
    each_cons (by decide) rfl (each_cons (by decide) rfl (each_cons (by decide) rfl (each_cons trivial rfl trivial)))
  refine (table_agrees_iff _ 10 [3] visit issued).mpr ?_
  exact each_cons trivial rfl (each_cons trivial rfl (each_cons trivial rfl (each_cons (by decide) rfl trivial)))

/-! ## Stale descriptors -/

/-- The descriptor has an entry, but the kernel does not watch it. -/
def Stale (fd : Int) (s : Files Proc) : Prop := HasEntry s.eventLoop fd ∧ s.kernel.watched fd = none

/-- The operation deletes all that is left in the entry. -/
def Clears (fd : Int) (s : Files Proc) (op : FileOp Proc) : Prop :=
  ∃ mask, op = .delete fd mask ∧ (s.eventLoop.events fd).mask &&& ~~~mask = AE_NONE

/-- The kernel is asked to change what it does not watch. -/
theorem stale_fails {s : Files Proc} {fd : Int} (stale : Stale fd s) (mask : BitVec 32) (proc : Proc)
    (clientData : Option Nat) (room : Bool) :
    aeCreateFileEvent s.eventLoop s.kernel fd mask proc clientData room = some none := by
  obtain ⟨⟨low, inside, some_mask⟩, unwatched⟩ := stale
  rw [create_unfolds ⟨low, inside⟩, aeApiAddEvent, if_neg some_mask]
  simp [epoll_ctl, unwatched]

theorem stale_stays {s s' : Files Proc} {fd : Int} {op : FileOp Proc} (stale : Stale fd s)
    (kept : ¬ Clears fd s op) (stepped : step s op = some s') : Stale fd s' := by
  obtain ⟨⟨low, inside, some_mask⟩, unwatched⟩ := stale
  cases op with
  | opened other =>
    cases stepped
    exact ⟨⟨low, inside, some_mask⟩, unwatched⟩
  | create other mask proc clientData room =>
    obtain ⟨_, rfl⟩ | executed := step_create stepped
    · exact ⟨⟨low, inside, some_mask⟩, unwatched⟩
    · have created := create_spec executed
      have apart : fd ≠ other := by
        rintro rfl
        rw [stale_fails ⟨⟨low, inside, some_mask⟩, unwatched⟩] at executed
        cases executed
      refine ⟨⟨low, by rw [created.setsize]; exact inside, ?_⟩, ?_⟩
      · rw [created.others fd apart]
        exact some_mask
      · rw [created.watched]
        exact (Function.update_of_ne apart _ _).trans unwatched
  | delete other mask =>
    have executed := step_delete stepped
    obtain rfl | ⟨within, _, maxfd, table, kernel⟩ := delete_cases executed
    · exact ⟨⟨low, inside, some_mask⟩, unwatched⟩
    have deleted := delete_spec within executed
    by_cases same : other = fd
    · subst same
      have left : (s.eventLoop.events other).mask &&& ~~~mask ≠ AE_NONE := fun none => kept ⟨mask, rfl, none⟩
      refine ⟨⟨low, inside.trans_eq deleted.setsize.symm, ?_⟩, ?_⟩
      · rw [deleted.entry]
        exact left
      · rw [kernel, table]
        simp [aeApiDelEvent, without, without_twice, left, epoll_ctl, unwatched]
    · refine ⟨⟨low, inside.trans_eq deleted.setsize.symm, ?_⟩, ?_⟩
      · rw [deleted.others fd (Ne.symm same)]
        exact some_mask
      · exact (deleted.watched fd (Ne.symm same)).trans unwatched
  | close other =>
    cases stepped
    refine ⟨⟨low, inside, some_mask⟩, ?_⟩
    by_cases same : fd = other
    · rw [same]
      exact Function.update_self _ _ _
    · exact (Function.update_of_ne same _ _).trans unwatched

/-- Registering the descriptor fails. -/
def Refuses (fd : Int) (s : Files Proc) (op : FileOp Proc) : Prop :=
  ∀ mask proc clientData room, op = .create fd mask proc clientData room →
    aeCreateFileEvent s.eventLoop s.kernel fd mask proc clientData room = some none

/-- After a descriptor is closed while it has an entry, its number cannot be registered,
    however often the kernel gives it out, until the entry is deleted. -/
theorem stale_refused {s s' : Files Proc} {fd : Int} (set : HasEntry s.eventLoop fd)
    (closed : step s (.close fd) = some s') {ops : List (FileOp Proc)}
    (issued : Each step (fun s op => Issued s op ∧ ¬ Clears fd s op) s' ops) : Each step (Refuses fd) s' ops := by
  have stale : Stale fd s' := by
    cases closed
    exact ⟨set, Function.update_self _ _ _⟩
  refine (each_iff (I := Stale fd) (G := fun _ _ => True) ?_ ?_ stale issued).mpr (each_true s' ops)
  · intro s op s' stale good stepped
    exact stale_stays stale good.2 stepped
  · intro s op stale _
    refine iff_of_true ?_ trivial
    intro mask proc clientData room _
    exact stale_fails stale mask proc clientData room

/-- A listening socket with an entry, and the loop after it is closed like that. -/
def listening : Files Unit := (step ten (.create 3 AE_READABLE () none true)).getD ten
def too_early : Files Unit := { listening with kernel := EventLoop.close listening.kernel 3 }

/-- The number is given out again, but not registered. -/
theorem stale_refused_again : Each step (Refuses 3) too_early [.opened 3, .create 3 AE_READABLE () none true] := by
  have issued : Each step (fun s op => Issued s op ∧ ¬ Clears 3 s op) too_early
      [.opened 3, .create 3 AE_READABLE () none true] := by
    refine each_cons ⟨by decide, ?_⟩ rfl (each_cons ⟨by decide, ?_⟩ rfl trivial)
    · rintro ⟨_, same, _⟩
      cases same
    · rintro ⟨_, same, _⟩
      cases same
  have set : HasEntry listening.eventLoop 3 := by decide
  exact stale_refused set rfl issued

/-! ## Batches of fired events -/

theorem step_setsize {s s' : Files Proc} {op : FileOp Proc} (stepped : step s op = some s') :
    s'.eventLoop.setsize = s.eventLoop.setsize := by
  cases op with
  | opened fd =>
    cases stepped
    rfl
  | create fd mask proc clientData room =>
    obtain ⟨_, rfl⟩ | executed := step_create stepped
    · rfl
    · exact (create_spec executed).setsize
  | delete fd mask => exact delete_setsize (step_delete stepped)
  | close fd =>
    cases stepped
    rfl

section
variable {σ : Type}

/-- The procedures return, and change the file events by the functions of the loop only. -/
def Uses (files : σ → Files Proc) (call : Proc → Int → σ → Option σ) : Prop :=
  ∀ proc fd s, 0 ≤ fd → ∃ s' ops, call proc fd s = some s' ∧ Each step Issued (files s) ops ∧
    run step (files s) ops = some (files s')

/-- What holds before each call of a procedure. -/
def Ready (setsize : Int) (s : Files Proc) : Prop := Kept s ∧ s.eventLoop.setsize = setsize

theorem call_ready {files : σ → Files Proc} {call : Proc → Int → σ → Option σ} (uses : Uses files call) {setsize : Int}
    {s : σ} (ready : Ready setsize (files s)) (proc : Proc) {fd : Int} (low : 0 ≤ fd) :
    ∃ s', call proc fd s = some s' ∧ Ready setsize (files s') := by
  obtain ⟨s', ops, called, issued, executed⟩ := uses proc fd s low
  have progress : ∀ s (op : FileOp Proc), Ready setsize s → Issued s op → ∃ s', step s op = some s' ∧ Ready setsize s' := by
    intro s op ready good
    obtain ⟨s', stepped⟩ := step_some good
    exact ⟨s', stepped, step_kept ready.1 good stepped, (step_setsize stepped).trans ready.2⟩
  obtain ⟨last, same, after⟩ := run_total progress ready issued
  cases executed.symm.trans same
  exact ⟨s', called, after⟩

variable [DecidableEq Proc]

/-- The loop of `aeProcessEvents` over the fired events. -/
def dispatch (eventLoop : σ → aeEventLoop Proc) (call : Proc → Int → σ → Option σ) : List (Int × BitVec 32) → σ → Option σ
  | [], s => some s
  | (fd, mask) :: fired, s => (process_fired eventLoop call fd mask s).bind (dispatch eventLoop call fired)

/-- The events are handled one after the other. -/
theorem dispatch_run (eventLoop : σ → aeEventLoop Proc) (call : Proc → Int → σ → Option σ) (fired : List (Int × BitVec 32))
    (s : σ) : dispatch eventLoop call fired s =
      run (fun s (event : Int × BitVec 32) => process_fired eventLoop call event.1 event.2 s) s fired := by
  induction fired generalizing s with
  | nil => rfl
  | cons event fired ih => exact congrArg _ (funext ih)

/-- At most two procedures are called for a fired event, one after the other. -/
theorem process_fired_calls {eventLoop : σ → aeEventLoop Proc} {call : Proc → Int → σ → Option σ} {fd : Int}
    {mask : BitVec 32} {s s' : σ} (executed : process_fired eventLoop call fd mask s = some s') :
    ∃ mid, (mid = s ∨ ∃ proc, call proc fd s = some mid) ∧ (s' = mid ∨ ∃ proc, call proc fd mid = some s') := by
  have called : ∀ (w w' : σ) (asked : Prop) [Decidable asked] (proc : Option Proc),
      (if asked then proc.bind fun proc => call proc fd w else some w) = some w' →
        w' = w ∨ ∃ proc, call proc fd w = some w' := by
    intro w w' asked _ proc result
    split_ifs at result
    · obtain ⟨proc, _, same⟩ := Option.bind_eq_some_iff.mp result
      exact .inr ⟨proc, same⟩
    · cases result
      exact .inl rfl
  obtain ⟨fe, _, reading⟩ := Option.bind_eq_some_iff.mp executed
  obtain ⟨mid, first, writing⟩ := Option.bind_eq_some_iff.mp reading
  obtain ⟨feToo, _, second⟩ := Option.bind_eq_some_iff.mp writing
  exact ⟨mid, called s mid _ _ first, called mid s' _ _ second⟩

theorem process_fired_total {files : σ → Files Proc} {call : Proc → Int → σ → Option σ} (uses : Uses files call)
    {setsize : Int} {s : σ} (ready : Ready setsize (files s)) {fd : Int} (inside : 0 ≤ fd ∧ fd < setsize) (mask : BitVec 32) :
    ∃ s', process_fired (fun s => (files s).eventLoop) call fd mask s = some s' ∧ Ready setsize (files s') := by
  have asked : ∀ (own bits : BitVec 32), own &&& mask &&& bits ≠ 0 → own &&& bits ≠ 0 := by
    intro own bits fired none
    refine fired ?_
    rw [BitVec.and_assoc, BitVec.and_comm mask, ← BitVec.and_assoc, none]
    exact BitVec.zero_and
  have there : ∀ w, Ready setsize (files w) → (files w).eventLoop.entry fd = some ((files w).eventLoop.events fd) := by
    intro w wReady
    exact entry_inside (by rw [wReady.2]; exact inside)
  -- a procedure that is asked for is called, from any state in which entries have their procedures
  have called : ∀ w, Ready setsize (files w) → ∀ (wanted : Prop) [Decidable wanted] (proc : Option Proc),
      (wanted → proc ≠ none) → ∃ w', (if wanted then proc.bind fun proc => call proc fd w else some w) = some w' ∧
        Ready setsize (files w') := by
    intro w wReady wanted _ proc named
    split_ifs with wants
    · obtain ⟨proc, rfl⟩ := Option.ne_none_iff_exists'.mp (named wants)
      exact call_ready uses wReady proc inside.1
    · exact ⟨w, rfl, wReady⟩
  have armed := ready.1.armed fd inside.1 (by rw [ready.2]; exact inside.2)
  obtain ⟨mid, reading, midReady⟩ := called s ready (((files s).eventLoop.events fd).mask &&& mask &&& AE_READABLE ≠ 0)
    ((files s).eventLoop.events fd).rfileProc fun reads => armed.1 (asked _ _ reads)
  have armedThen := midReady.1.armed fd inside.1 (by rw [midReady.2]; exact inside.2)
  obtain ⟨s', writing, after⟩ := called mid midReady
    (((files mid).eventLoop.events fd).mask &&& mask &&& AE_WRITABLE ≠ 0 ∧
      (¬ ((files s).eventLoop.events fd).mask &&& mask &&& AE_READABLE ≠ 0 ∨
        ((files mid).eventLoop.events fd).wfileProc ≠ ((files mid).eventLoop.events fd).rfileProc))
    ((files mid).eventLoop.events fd).wfileProc fun writes => armedThen.2 (asked _ _ writes.1)
  refine ⟨s', ?_, after⟩
  simp only [process_fired, Option.bind_eq_bind]
  rw [there s ready, Option.bind_some, reading, Option.bind_some, there mid midReady, Option.bind_some]
  exact writing

/-- However the procedures change the table while a batch is handled, none that is called
    is NULL, and the next batch finds the same. -/
theorem dispatch_total {files : σ → Files Proc} {call : Proc → Int → σ → Option σ} (uses : Uses files call) {s : σ}
    (kept : Kept (files s)) {fired : List (Int × BitVec 32)}
    (reported : ∀ event ∈ fired, (files s).kernel.watched event.1 ≠ none) :
    ∃ s', dispatch (fun s => (files s).eventLoop) call fired s = some s' ∧ Kept (files s') := by
  have inTable : ∀ event ∈ fired, 0 ≤ event.1 ∧ event.1 < (files s).eventLoop.setsize :=
    fun event mem => (kept.watches event.1 (reported event mem)).2
  clear reported
  have ready : Ready (files s).eventLoop.setsize (files s) := ⟨kept, rfl⟩
  generalize (files s).eventLoop.setsize = setsize at inTable ready
  clear kept
  induction fired generalizing s with
  | nil => exact ⟨s, rfl, ready.1⟩
  | cons event fired ih =>
    have inside := inTable event List.mem_cons_self
    obtain ⟨mid, processed, midReady⟩ := process_fired_total uses ready inside event.2
    obtain ⟨s', rest, after⟩ := ih (fun other mem => inTable other (List.mem_cons_of_mem _ mem)) midReady
    exact ⟨s', by rw [dispatch, processed]; exact rest, after⟩

end

/-- A procedure that unregisters its descriptor. -/
def unregister (_ : Unit) (fd : Int) (s : Files Unit) : Option (Files Unit) := step s (.delete fd AE_READABLE)

/-- The descriptor is reported twice. -/
theorem dispatch_total_twice :
    ∃ s', dispatch Files.eventLoop unregister [(3, AE_READABLE), (3, AE_READABLE)] listening = some s' ∧ Kept s' := by
  have uses : Uses id unregister := by
    intro proc fd s low
    obtain ⟨s', stepped⟩ := step_some (show Issued s (.delete fd AE_READABLE) from low)
    exact ⟨s', [.delete fd AE_READABLE], stepped, each_cons low stepped trivial, by rw [run_cons, id, stepped]; rfl⟩
  have kept : Kept listening :=
    step_kept (start_kept _ 10 [3]) (show Issued ten (.create 3 AE_READABLE () none true) by decide) rfl
  have reported : ∀ event ∈ [((3 : Int), AE_READABLE), (3, AE_READABLE)], listening.kernel.watched event.1 ≠ none := by
    decide
  exact dispatch_total uses kept reported

end TcpLearn.FileEvents
