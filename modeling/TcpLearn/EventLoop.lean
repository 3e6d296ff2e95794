import Mathlib

/-!
# The event loop

The file events of `ae.c` over `epoll`. The table `events` is an array of `setsize`
entries. `aeCreateFileEvent` compares a descriptor with `setsize` only, and looks before
the array for a negative one: there is no result then (`create_dies`), as wherever the
code leaves the array. A failed call changes nothing (`create_fails`); after a
successful one the descriptor is watched and its entry set (`create_spec`), after
`aeDeleteFileEvent` neither (`delete_spec`). `maxfd` is always the largest descriptor
with an entry (`create_tracks`, `delete_tracks`).
-/
namespace TcpLearn.EventLoop

/-! ## The kernel -/

structure Kernel where
  /-- The open descriptors of the process. -/
  opened : List Int
  /-- The events a descriptor is watched for by the epoll instance. -/
  watched : Int → Option (BitVec 32)

inductive EpollOp where
  | EPOLL_CTL_ADD | EPOLL_CTL_MOD | EPOLL_CTL_DEL

def EPOLLIN : BitVec 32 := 1
def EPOLLOUT : BitVec 32 := 4

/-- No result stands for an error. `room` tells whether the kernel can watch one
    more descriptor. -/
def epoll_ctl (k : Kernel) (op : EpollOp) (fd : Int) (events : BitVec 32) (room : Bool) : Option Kernel :=
  match op with
  | .EPOLL_CTL_ADD =>
    if fd ∈ k.opened ∧ k.watched fd = none ∧ room then
      some { k with watched := Function.update k.watched fd (some events) }
    else none
  | .EPOLL_CTL_MOD =>
    if fd ∈ k.opened ∧ k.watched fd ≠ none then
      some { k with watched := Function.update k.watched fd (some events) }
    else none
  | .EPOLL_CTL_DEL =>
    if fd ∈ k.opened ∧ k.watched fd ≠ none then some { k with watched := Function.update k.watched fd none }
    else none

/-- A descriptor that is closed is not watched any longer. -/
def close (k : Kernel) (fd : Int) : Kernel :=
  ⟨k.opened.filter fun other => other ≠ fd, Function.update k.watched fd none⟩

/-! ## The code -/

def AE_NONE : BitVec 32 := 0
def AE_READABLE : BitVec 32 := 1
def AE_WRITABLE : BitVec 32 := 2

variable {Proc : Type}

/-- An entry of the table. The procedures and the data are pointers. -/
structure aeFileEvent (Proc : Type) where
  mask : BitVec 32
  rfileProc : Option Proc
  wfileProc : Option Proc
  clientData : Option Nat

structure aeEventLoop (Proc : Type) where
  maxfd : Int
  setsize : Int
  events : Int → aeFileEvent Proc

/-- The entry that is read or written under an index: outside of the array there is none. -/
def aeEventLoop.entry (eventLoop : aeEventLoop Proc) (fd : Int) : Option (aeFileEvent Proc) :=
  if 0 ≤ fd ∧ fd < eventLoop.setsize then some (eventLoop.events fd) else none

/-- The masks of the table are cleared; the rest is what the memory holds. -/
def aeCreateEventLoop (memory : Int → aeFileEvent Proc) (setsize : Int) : aeEventLoop Proc :=
  ⟨-1, setsize, fun fd => if 0 ≤ fd ∧ fd < setsize then { memory fd with mask := AE_NONE } else memory fd⟩

/-- The events of `epoll` that a mask asks for. -/
def epoll_events (mask : BitVec 32) : BitVec 32 :=
  (if mask &&& AE_READABLE ≠ 0 then EPOLLIN else 0) ||| (if mask &&& AE_WRITABLE ≠ 0 then EPOLLOUT else 0)

/-- No result stands for an error. The caller has the entry. -/
def aeApiAddEvent (eventLoop : aeEventLoop Proc) (k : Kernel) (fd : Int) (mask : BitVec 32) (room : Bool) :
    Option Kernel :=
  let op := if (eventLoop.events fd).mask = AE_NONE then EpollOp.EPOLL_CTL_ADD else .EPOLL_CTL_MOD
  epoll_ctl k op fd (epoll_events (mask ||| (eventLoop.events fd).mask)) room

/-- Errors are ignored. -/
def aeApiDelEvent (eventLoop : aeEventLoop Proc) (k : Kernel) (fd : Int) (delmask : BitVec 32) : Kernel :=
  let mask := (eventLoop.events fd).mask &&& ~~~delmask
  let op := if mask ≠ AE_NONE then EpollOp.EPOLL_CTL_MOD else .EPOLL_CTL_DEL
  (epoll_ctl k op fd (epoll_events mask) true).getD k

/-- `some none` stands for `AE_ERR`. -/
def aeCreateFileEvent (eventLoop : aeEventLoop Proc) (k : Kernel) (fd : Int) (mask : BitVec 32) (proc : Proc)
    (clientData : Option Nat) (room : Bool) : Option (Option (aeEventLoop Proc × Kernel)) :=
  if fd ≥ eventLoop.setsize then some none
  else do
    let fe ← eventLoop.entry fd
    some <| (aeApiAddEvent eventLoop k fd mask room).map fun k =>
      let fe := { fe with
        mask := fe.mask ||| mask
        rfileProc := if mask &&& AE_READABLE ≠ 0 then some proc else fe.rfileProc
        wfileProc := if mask &&& AE_WRITABLE ≠ 0 then some proc else fe.wfileProc
        clientData := clientData }
      ({ eventLoop with
        events := Function.update eventLoop.events fd fe
        maxfd := if fd > eventLoop.maxfd then fd else eventLoop.maxfd }, k)

/-- The loop that looks for the new `maxfd` from `j-1` downwards. -/
def max_below (events : Int → aeFileEvent Proc) : Nat → Int
  | 0 => -1
  | j + 1 => if (events j).mask ≠ AE_NONE then j else max_below events j

def aeDeleteFileEvent (eventLoop : aeEventLoop Proc) (k : Kernel) (fd : Int) (mask : BitVec 32) :
    Option (aeEventLoop Proc × Kernel) :=
  if fd ≥ eventLoop.setsize then some (eventLoop, k)
  else do
    let fe ← eventLoop.entry fd
    if fe.mask = AE_NONE then some (eventLoop, k)
    else
      let fe := { fe with mask := fe.mask &&& ~~~mask }
      let eventLoop := { eventLoop with events := Function.update eventLoop.events fd fe }
      let eventLoop :=
        if fd = eventLoop.maxfd ∧ fe.mask = AE_NONE then
          { eventLoop with maxfd := max_below eventLoop.events eventLoop.maxfd.toNat }
        else eventLoop
      some (eventLoop, aeApiDelEvent eventLoop k fd mask)

/-- What `aeProcessEvents` does with a fired event. The event loop is a part of the
    state the procedures work on; a procedure that is NULL is called without a result,
    as one is that dies. -/
def process_fired {σ : Type} [DecidableEq Proc] (eventLoop : σ → aeEventLoop Proc) (call : Proc → Int → σ → Option σ)
    (fd : Int) (mask : BitVec 32) (s : σ) : Option σ := do
  let fe ← (eventLoop s).entry fd
  let rfired := fe.mask &&& mask &&& AE_READABLE ≠ 0
  let s ← (if rfired then fe.rfileProc.bind fun proc => call proc fd s else some s)
  -- The entry is looked at again: the procedure may have changed it.
  let fe ← (eventLoop s).entry fd
  if fe.mask &&& mask &&& AE_WRITABLE ≠ 0 ∧ (¬ rfired ∨ fe.wfileProc ≠ fe.rfileProc) then
    fe.wfileProc.bind fun proc => call proc fd s
  else some s

theorem entry_inside {el : aeEventLoop Proc} {fd : Int} (inside : 0 ≤ fd ∧ fd < el.setsize) :
    el.entry fd = some (el.events fd) := if_pos inside

/-! ## Fired events -/

section
variable {σ : Type} [DecidableEq Proc] {eventLoop : σ → aeEventLoop Proc} {call : Proc → Int → σ → Option σ} {fd : Int}
  {mask : BitVec 32} {s : σ}

/-- A procedure for reading is called, which leaves nothing to write. -/
theorem process_reads {proc : Proc} (inside : 0 ≤ fd ∧ fd < (eventLoop s).setsize)
    (reads : ((eventLoop s).events fd).mask &&& mask &&& AE_READABLE ≠ 0)
    (named : ((eventLoop s).events fd).rfileProc = some proc)
    (quiet : ∀ s', call proc fd s = some s' → (0 ≤ fd ∧ fd < (eventLoop s').setsize) ∧
      ((eventLoop s').events fd).mask &&& mask &&& AE_WRITABLE = 0) :
    process_fired eventLoop call fd mask s = call proc fd s := by
  simp only [process_fired, Option.bind_eq_bind]
  rw [entry_inside inside, Option.bind_some, if_pos reads, named, Option.bind_some]
  cases called : call proc fd s with
  | none => rfl
  | some s' =>
    obtain ⟨insideToo, nothing⟩ := quiet s' called
    rw [Option.bind_some, entry_inside insideToo, Option.bind_some]
    exact if_neg fun both => both.1 nothing

theorem process_skips (inside : 0 ≤ fd ∧ fd < (eventLoop s).setsize)
    (unread : ((eventLoop s).events fd).mask &&& mask &&& AE_READABLE = 0)
    (quiet : ((eventLoop s).events fd).mask &&& mask &&& AE_WRITABLE = 0) :
    process_fired eventLoop call fd mask s = some s := by
  simp only [process_fired, Option.bind_eq_bind]
  rw [entry_inside inside, Option.bind_some, if_neg (fun reads => reads unread), Option.bind_some, entry_inside inside,
    Option.bind_some]
  exact if_neg fun both => both.1 quiet

end

/-! ## Registering and unregistering -/

variable {el el' : aeEventLoop Proc} {k k' : Kernel} {fd : Int} {mask : BitVec 32} {proc : Proc} {clientData : Option Nat}
  {room : Bool}

theorem epoll_ctl_opened {op : EpollOp} {events : BitVec 32} (executed : epoll_ctl k op fd events room = some k') :
    fd ∈ k.opened ∧ k'.opened = k.opened := by
  cases op <;> simp only [epoll_ctl] at executed <;> split_ifs at executed with good <;> cases executed <;>
    exact ⟨good.1, rfl⟩

/-- A negative descriptor is looked up before the array. -/
theorem create_dies (before : fd < 0) (inside : fd < el.setsize) :
    aeCreateFileEvent el k fd mask proc clientData room = none := by
  rw [aeCreateFileEvent, if_neg (by omega), aeEventLoop.entry, if_neg (by omega)]
  rfl

/-- Inside of the array the call returns what `epoll_ctl` decides. -/
theorem create_unfolds (inside : 0 ≤ fd ∧ fd < el.setsize) :
    aeCreateFileEvent el k fd mask proc clientData room = some ((aeApiAddEvent el k fd mask room).map fun k =>
      ({ el with
        events := Function.update el.events fd
          ⟨(el.events fd).mask ||| mask, if mask &&& AE_READABLE ≠ 0 then some proc else (el.events fd).rfileProc,
            if mask &&& AE_WRITABLE ≠ 0 then some proc else (el.events fd).wfileProc, clientData⟩
        maxfd := if fd > el.maxfd then fd else el.maxfd }, k)) := by
  rw [aeCreateFileEvent, if_neg (by omega), entry_inside inside]
  rfl

theorem create_returns (low : 0 ≤ fd) : ∃ result, aeCreateFileEvent el k fd mask proc clientData room = some result := by
  by_cases inside : fd < el.setsize
  · exact ⟨_, create_unfolds ⟨low, inside⟩⟩
  · exact ⟨none, if_pos (not_lt.mp inside)⟩

/-- Descriptors past the table, and those that are not open, are refused. -/
theorem create_fails (low : 0 ≤ fd) (refused : el.setsize ≤ fd ∨ fd ∉ k.opened) :
    aeCreateFileEvent el k fd mask proc clientData room = some none := by
  by_cases past : fd ≥ el.setsize
  · rw [aeCreateFileEvent, if_pos past]
  · have closed := refused.resolve_left past
    rw [create_unfolds ⟨low, not_le.mp past⟩]
    cases added : aeApiAddEvent el k fd mask room with
    | none => rfl
    | some k' => exact absurd (epoll_ctl_opened added).1 closed

/-- A successful registration sets the entry of the descriptor, which is watched then. -/
structure Created (mask : BitVec 32) (proc : Proc) (fd : Int) (el : aeEventLoop Proc) (k : Kernel)
    (el' : aeEventLoop Proc) (k' : Kernel) : Prop where
  inside : 0 ≤ fd ∧ fd < el.setsize
  opened : fd ∈ k.opened
  setsize : el'.setsize = el.setsize
  others : ∀ other, other ≠ fd → el'.events other = el.events other
  entry : (el'.events fd).mask = (el.events fd).mask ||| mask
  reads : mask &&& AE_READABLE ≠ 0 → (el'.events fd).rfileProc = some proc
  kept : k'.opened = k.opened
  watched : k'.watched = Function.update k.watched fd (some (epoll_events (mask ||| (el.events fd).mask)))
  maxfd : el'.maxfd = max fd el.maxfd

theorem create_spec (executed : aeCreateFileEvent el k fd mask proc clientData room = some (some (el', k'))) :
    Created mask proc fd el k el' k' := by
  have inside : 0 ≤ fd ∧ fd < el.setsize := by
    by_contra outside
    rw [aeCreateFileEvent, aeEventLoop.entry, if_neg outside] at executed
    split_ifs at executed <;> cases executed
  rw [create_unfolds inside] at executed
  obtain ⟨k₁, added, same⟩ := Option.map_eq_some_iff.mp (Option.some.inj executed)
  cases same
  obtain ⟨opened, kept⟩ := epoll_ctl_opened added
  refine ⟨inside, opened, rfl, fun other ne => Function.update_of_ne ne _ _, ?_, ?_, kept, ?_, ?_⟩
  · simp
  · intro readable
    show (Function.update el.events fd _ fd).rfileProc = some proc
    rw [Function.update_self]
    exact if_pos readable
  · by_cases unset : (el.events fd).mask = AE_NONE
    · rw [aeApiAddEvent, if_pos unset, epoll_ctl] at added
      split_ifs at added
      cases added
      rfl
    · rw [aeApiAddEvent, if_neg unset, epoll_ctl] at added
      split_ifs at added
      cases added
      rfl
  · show (if fd > el.maxfd then fd else el.maxfd) = max fd el.maxfd
    split_ifs with above
    · exact (max_eq_left above.le).symm
    · exact (max_eq_right (by omega)).symm

/-- A descriptor with no entry that is open and inside the table is registered if the
    kernel can watch it. -/
theorem create_fresh (inside : 0 ≤ fd ∧ fd < el.setsize) (opened : fd ∈ k.opened)
    (unset : (el.events fd).mask = AE_NONE) (unwatched : k.watched fd = none) :
    (∃ r, aeCreateFileEvent el k fd mask proc clientData room = some (some r)) ↔ room = true := by
  rw [create_unfolds inside]
  cases room <;> simp [aeApiAddEvent, unset, epoll_ctl, opened, unwatched]

/-- Deleting events of a descriptor leaves the others as they are. -/
structure Deleted (mask : BitVec 32) (fd : Int) (el : aeEventLoop Proc) (k : Kernel) (el' : aeEventLoop Proc)
    (k' : Kernel) : Prop where
  setsize : el'.setsize = el.setsize
  others : ∀ other, other ≠ fd → el'.events other = el.events other
  entry : (el'.events fd).mask = (el.events fd).mask &&& ~~~mask
  kept : k'.opened = k.opened
  watched : ∀ other, other ≠ fd → k'.watched other = k.watched other
  maxfd : el'.maxfd =
    if fd = el.maxfd ∧ (el.events fd).mask ≠ AE_NONE ∧ (el'.events fd).mask = AE_NONE then
      max_below el'.events el.maxfd.toNat
    else el.maxfd

theorem del_event_spec (el : aeEventLoop Proc) (k : Kernel) (fd : Int) (delmask : BitVec 32) :
    (aeApiDelEvent el k fd delmask).opened = k.opened ∧
      ∀ other, other ≠ fd → (aeApiDelEvent el k fd delmask).watched other = k.watched other := by
  unfold aeApiDelEvent
  dsimp only
  split_ifs <;> simp only [epoll_ctl] <;> split_ifs <;>
    exact ⟨rfl, fun other ne => by simp [ne]⟩

theorem delete_returns (low : 0 ≤ fd) (mask : BitVec 32) :
    ∃ el' k', aeDeleteFileEvent el k fd mask = some (el', k') := by
  rw [aeDeleteFileEvent]
  split_ifs with past
  · exact ⟨el, k, rfl⟩
  · rw [entry_inside ⟨low, not_le.mp past⟩, Option.bind_eq_bind, Option.bind_some]
    split_ifs
    · exact ⟨el, k, rfl⟩
    · exact ⟨_, _, rfl⟩

theorem delete_spec (inside : 0 ≤ fd ∧ fd < el.setsize) (executed : aeDeleteFileEvent el k fd mask = some (el', k')) :
    Deleted mask fd el k el' k' := by
  rw [aeDeleteFileEvent, if_neg (not_le.mpr inside.2), entry_inside inside, Option.bind_eq_bind, Option.bind_some] at executed
  by_cases unset : (el.events fd).mask = AE_NONE
  · rw [if_pos unset] at executed
    cases executed
    refine ⟨rfl, fun _ _ => rfl, ?_, rfl, fun _ _ => rfl, ?_⟩
    · rw [unset]
      exact (BitVec.zero_and).symm
    · rw [if_neg fun both => both.2.1 unset]
  · rw [if_neg unset] at executed
    set events := Function.update el.events fd { el.events fd with mask := (el.events fd).mask &&& ~~~mask } with eventsIs
    have entry : events fd = { el.events fd with mask := (el.events fd).mask &&& ~~~mask } := Function.update_self _ _ _
    have others : ∀ other, other ≠ fd → events other = el.events other := fun other ne => Function.update_of_ne ne _ _
    have emptied : (events fd).mask = (el.events fd).mask &&& ~~~mask := by rw [entry]
    replace executed := Option.some.inj executed
    dsimp only at executed
    by_cases newmax : fd = el.maxfd ∧ (events fd).mask = AE_NONE
    · rw [emptied] at newmax
      rw [if_pos newmax] at executed
      cases executed
      rw [← emptied] at newmax
      obtain ⟨kept, watched⟩ :=
        del_event_spec { el with events := events, maxfd := max_below events el.maxfd.toNat } k fd mask
      exact ⟨rfl, others, emptied, kept, watched, (if_pos ⟨newmax.1, unset, newmax.2⟩).symm⟩
    · rw [emptied] at newmax
      rw [if_neg newmax] at executed
      cases executed
      rw [← emptied] at newmax
      obtain ⟨kept, watched⟩ := del_event_spec { el with events := events } k fd mask
      exact ⟨rfl, others, emptied, kept, watched, (if_neg fun all => newmax ⟨all.1, all.2.2⟩).symm⟩

/-! ## The largest descriptor -/

/-- The entry of a descriptor in the table is set. -/
def HasEntry (el : aeEventLoop Proc) (fd : Int) : Prop := 0 ≤ fd ∧ fd < el.setsize ∧ (el.events fd).mask ≠ AE_NONE

instance (el : aeEventLoop Proc) (fd : Int) : Decidable (HasEntry el fd) := inferInstanceAs (Decidable (_ ∧ _ ∧ _))

/-- `maxfd` is the largest descriptor with an entry, or -1 if there is none. -/
structure Tracks (el : aeEventLoop Proc) : Prop where
  bound : ∀ fd, HasEntry el fd → fd ≤ el.maxfd
  attained : el.maxfd = -1 ∨ HasEntry el el.maxfd

theorem create_loop_tracks (memory : Int → aeFileEvent Proc) (setsize : Int) :
    Tracks (aeCreateEventLoop memory setsize) := by
  refine ⟨?_, .inl rfl⟩
  intro fd set
  obtain ⟨positive, inside, some⟩ := set
  simp [aeCreateEventLoop, positive, show fd < setsize from inside] at some

theorem create_tracks (tracks : Tracks el) (some_mask : mask ≠ AE_NONE)
    (created : Created mask proc fd el k el' k') : Tracks el' := by
  have sets : ∀ other, HasEntry el' other ↔ other = fd ∨ HasEntry el other := by
    intro other
    by_cases same : other = fd
    · subst same
      refine iff_of_true ⟨created.inside.1, by rw [created.setsize]; exact created.inside.2, ?_⟩ (.inl rfl)
      rw [created.entry]
      intro none
      exact some_mask (BitVec.or_eq_zero_iff.mp none).2
    · simp only [HasEntry, created.setsize, created.others other same, same, false_or]
  have maxfd := created.maxfd
  have positive := created.inside.1
  refine ⟨?_, .inr ?_⟩
  · intro other set
    rcases (sets other).mp set with rfl | old
    · omega
    · have := tracks.bound other old
      omega
  · rw [sets, maxfd]
    rcases le_total fd el.maxfd with below | above
    · rw [max_eq_right below]
      rcases tracks.attained with none | set
      · omega
      · exact .inr set
    · exact .inl (max_eq_left above)

theorem max_below_spec (events : Int → aeFileEvent Proc) (j : Nat) :
    (∀ fd : Nat, fd < j → (events fd).mask ≠ AE_NONE → (fd : Int) ≤ max_below events j) ∧
      (max_below events j = -1 ∨
        0 ≤ max_below events j ∧ max_below events j < j ∧ (events (max_below events j)).mask ≠ AE_NONE) := by
  induction j with
  | zero => exact ⟨fun fd below => absurd below (Nat.not_lt_zero fd), .inl rfl⟩
  | succ j ih =>
    obtain ⟨bound, attained⟩ := ih
    rw [max_below]
    split_ifs with set
    · refine ⟨fun fd below _ => by omega, .inr ⟨by omega, by omega, set⟩⟩
    · refine ⟨fun fd below some => bound fd ?_ some, attained.imp id ?_⟩
      · have other : fd ≠ j := by
          rintro rfl
          exact set some
        omega
      · rintro ⟨positive, below, some⟩
        exact ⟨positive, by omega, some⟩

theorem delete_tracks (tracks : Tracks el) (inside : 0 ≤ fd ∧ fd < el.setsize) (deleted : Deleted mask fd el k el' k') :
    Tracks el' := by
  have sets : ∀ other, HasEntry el' other → HasEntry el other := by
    rintro other ⟨low, high, some⟩
    refine ⟨low, by rwa [deleted.setsize] at high, fun none => some ?_⟩
    by_cases same : other = fd
    · subst same
      rw [deleted.entry, none]
      exact BitVec.zero_and
    · rw [deleted.others other same, none]
  have maxfd := deleted.maxfd
  by_cases newmax : fd = el.maxfd ∧ (el.events fd).mask ≠ AE_NONE ∧ (el'.events fd).mask = AE_NONE
  · rw [if_pos newmax] at maxfd
    obtain ⟨below, attained⟩ := max_below_spec el'.events el.maxfd.toNat
    rw [← maxfd] at below attained
    refine ⟨?_, attained.imp id ?_⟩
    · intro other set
      have most := tracks.bound other (sets other set)
      have apart : other ≠ fd := by
        rintro rfl
        exact set.2.2 newmax.2.2
      have low := set.1
      have natural : ((other.toNat : Nat) : Int) = other := Int.toNat_of_nonneg low
      rw [← natural]
      exact below other.toNat (by omega) (by rw [natural]; exact set.2.2)
    · rintro ⟨low, lower, some⟩
      exact ⟨low, by rw [deleted.setsize]; omega, some⟩
  · rw [if_neg newmax] at maxfd
    refine ⟨fun other set => by rw [maxfd]; exact tracks.bound other (sets other set), ?_⟩
    rw [maxfd]
    refine tracks.attained.imp id ?_
    rintro ⟨low, high, some⟩
    refine ⟨low, by rw [deleted.setsize]; exact high, ?_⟩
    by_cases same : el.maxfd = fd
    · rw [same] at some ⊢
      exact fun none => newmax ⟨same.symm, some, none⟩
    · rw [deleted.others _ same]
      exact some

end TcpLearn.EventLoop
