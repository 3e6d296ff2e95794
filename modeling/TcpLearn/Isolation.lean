import TcpLearn.Pools

/-!
# Noninterference between connections

What the operations on one connection return does not depend on the other
connections of its context, nor on what the pools and fresh memory hold. Two
connections are `Same` when they have as much counted and queue mbufs with the
same markers and the same bytes below the write marker: all that is left of an
mbuf from the pool, or from the allocator, is what lies above. Every operation
keeps two connections the same and returns the same, whatever contexts it is given
with one capacity. A run on many connections is then matched step by step by the
runs of each connection alone (`run_matches`).
-/
namespace TcpLearn.Isolation
open TcpLearn.Memory TcpLearn.MbufOps TcpLearn.ConBuf TcpLearn.Chain TcpLearn.Contexts TcpLearn.Tailq TcpLearn.Frame
open TcpLearn.Pools TcpLearn.Runs

/-! ## Mbufs with the same bytes -/

structure Alike (b b' : Mbuf) : Prop where
  pos : b.pos = b'.pos
  last : b.last = b'.last
  start : b.start = b'.start
  end_ : b.end_ = b'.end_
  bytes : ∀ i < b.last, b.bytes i = b'.bytes i

theorem alike_get {w w' : World} (offset : w.ctx.mbuf_offset = w'.ctx.mbuf_offset) (info info' : Nat) :
    Alike (get_for info w).1 (get_for info' w').1 := by
  obtain ⟨start, stop, pos, last⟩ := get_for_fields info w
  obtain ⟨start', stop', pos', last'⟩ := get_for_fields info' w'
  refine ⟨by omega, by omega, by omega, by omega, ?_⟩
  intro i below
  omega

variable {b b' : Mbuf}

theorem alike_read_size (alike : Alike b b') : mbuf_read_size b = mbuf_read_size b' := by
  rw [mbuf_read_size, mbuf_read_size, alike.last, alike.pos]

theorem alike_write_size (alike : Alike b b') : mbuf_write_size b = mbuf_write_size b' := by
  rw [mbuf_write_size, mbuf_write_size, alike.end_, alike.last]

/-- What is written is the same in both, and so is everything below it. -/
theorem alike_write (alike : Alike b b') {data : List UInt8} {len : Nat} (enough : len ≤ data.length) :
    (mbuf_write b data len).1 = (mbuf_write b' data len).1 ∧
      Alike (mbuf_write b data len).2 (mbuf_write b' data len).2 := by
  have size := alike_write_size alike
  obtain ⟨pos, last, start, stop, bytes⟩ := alike
  simp only [mbuf_write, ← size, ← last]
  split_ifs with full fits
  · exact ⟨rfl, pos, last, start, stop, bytes⟩
  all_goals
    refine ⟨rfl, pos, rfl, start, stop, ?_⟩
    intro i below
    dsimp only at below ⊢
    by_cases old : i < b.last
    · simpa [store, Nat.not_le.mpr old] using bytes i old
    · simp only [store, Nat.le_of_not_lt old, ↓reduceIte]
      rw [List.getElem?_eq_getElem (by simp; omega)]
      rfl

theorem alike_peek (alike : Alike b b') (len : Nat) : mbuf_peek b len = mbuf_peek b' len := by
  have size := alike_read_size alike
  unfold mbuf_peek
  simp only [← size, ← alike.pos]
  by_cases none : mbuf_read_size b ≠ 0
  · rw [if_pos none, if_pos none]
    refine congrArg (Prod.mk _) (load_congr fun i _ high => alike.bytes i ?_)
    unfold mbuf_read_size at *
    split_ifs at high <;> omega
  · rw [if_neg none, if_neg none]

theorem alike_read (alike : Alike b b') (len : Nat) :
    (mbuf_read b len).1 = (mbuf_read b' len).1 ∧ (mbuf_read b len).2.1 = (mbuf_read b' len).2.1 ∧
      Alike (mbuf_read b len).2.2 (mbuf_read b' len).2.2 := by
  have copied := alike_peek alike len
  obtain ⟨pos, last, start, stop, bytes⟩ := alike
  simp only [mbuf_read, copied, pos]
  exact ⟨trivial, trivial, rfl, last, start, stop, bytes⟩

theorem alike_can_recycle (alike : Alike b b') : mbuf_can_recycle b = mbuf_can_recycle b' := by
  rw [mbuf_can_recycle, mbuf_can_recycle, alike_read_size alike, alike_write_size alike]

theorem alike_readable {rest rest' : List Mbuf} (alike : Alike b b') :
    mhdr_readable (b :: rest) = mhdr_readable (b' :: rest') := by
  rw [mhdr_readable, mhdr_readable, alike_read_size alike]

/-! ## Queues -/

variable {queue queue' : List Mbuf}

/-- Two queues are both empty or end in mbufs that are alike. -/
theorem alike_last (alike : List.Forall₂ Alike queue queue') :
    queue = [] ∧ queue' = [] ∨ ∃ front buf front' buf', queue = front ++ [buf] ∧ queue' = front' ++ [buf'] ∧
      List.Forall₂ Alike front front' ∧ Alike buf buf' := by
  rw [← List.forall₂_reverse_iff] at alike
  rcases List.eq_nil_or_concat queue with rfl | ⟨front, buf, rfl⟩
  · simp only [List.reverse_nil, List.forall₂_nil_left_iff, List.reverse_eq_nil_iff] at alike
    exact .inl ⟨rfl, alike⟩
  · rw [List.concat_eq_append, List.reverse_append, List.reverse_singleton, List.singleton_append,
      List.forall₂_cons_left_iff] at alike
    obtain ⟨buf', rest, last, earlier, same⟩ := alike
    refine .inr ⟨front, buf, rest.reverse, buf', by simp, ?_, ?_, last⟩
    · rw [← List.reverse_reverse queue', same, List.reverse_cons]
    · rwa [← List.forall₂_reverse_iff, List.reverse_reverse]

theorem alike_concat (alike : List.Forall₂ Alike queue queue') {buf buf' : Mbuf} (last : Alike buf buf') :
    List.Forall₂ Alike (queue ++ [buf]) (queue' ++ [buf']) :=
  List.rel_append alike (.cons last .nil)

theorem make_room_same (alike : List.Forall₂ Alike queue queue') {w w' : World}
    (offset : w.ctx.mbuf_offset = w'.ctx.mbuf_offset) (info info' : Nat) :
    List.Forall₂ Alike (make_room info w queue).2 (make_room info' w' queue').2 := by
  rcases alike_last alike with ⟨rfl, rfl⟩ | ⟨front, buf, front', buf', rfl, rfl, _, last⟩
  · exact alike_concat .nil (alike_get offset _ _)
  · simp only [make_room, List.getLast?_concat, ← alike_write_size last]
    split_ifs
    · exact alike_concat alike (alike_get offset _ _)
    · exact alike

theorem write_loop_same {info info' fuel : Nat} {w w' : World} {front front' : List Mbuf} {buf buf' : Mbuf}
    {data : List UInt8} (offset : w.ctx.mbuf_offset = w'.ctx.mbuf_offset) (before : List.Forall₂ Alike front front')
    (last : Alike buf buf') :
    Option.Rel (fun r r' => List.Forall₂ Alike r.2.1 r'.2.1 ∧ r.2.2 = r'.2.2)
      (con_buf_write_loop info fuel w front buf data) (con_buf_write_loop info' fuel w' front' buf' data) := by
  induction fuel generalizing w w' front front' buf buf' data with
  | zero => exact .none
  | succ fuel ih =>
    rw [con_buf_write_loop, con_buf_write_loop]
    by_cases more : data.length ≠ 0
    · rw [if_pos more, if_pos more]
      simp only [← alike_write_size last]
      by_cases fits : mbuf_write_size buf > data.length
      · obtain ⟨size, after⟩ := alike_write last (Nat.le_refl data.length)
        simp only [fits, ↓reduceIte, ← size]
        exact ih offset before after
      · obtain ⟨size, after⟩ := alike_write last (Nat.le_of_not_gt fits)
        simp only [fits, ↓reduceIte, ← size]
        by_cases done : data.length - (mbuf_write buf data (mbuf_write_size buf)).1 = 0
        · simp only [done, ↓reduceIte]
          exact .some ⟨alike_concat before after, rfl⟩
        · simp only [done, ↓reduceIte]
          exact ih (by simpa using offset) (alike_concat before after) (alike_get offset _ _)
    · rw [if_neg more, if_neg more]
      exact .some ⟨alike_concat before last, rfl⟩

theorem read_loop_same (alike : List.Forall₂ Alike queue queue') (len : Nat) (w w' : World) (allow : Int)
    (reply : Reply) :
    List.Forall₂ Alike (con_buf_read_loop len queue w allow reply).2.1 (con_buf_read_loop len queue' w' allow reply).2.1 ∧
      (con_buf_read_loop len queue w allow reply).2.2 = (con_buf_read_loop len queue' w' allow reply).2.2 := by
  induction alike generalizing w w' allow reply with
  | nil => exact ⟨.nil, rfl⟩
  | @cons b b' rest rest' first others ih =>
    obtain ⟨size, copied, after⟩ := alike_read first len
    rw [con_buf_read_loop, con_buf_read_loop]
    rw [← @alike_readable b b' rest rest' first]
    by_cases guard : mhdr_readable (b :: rest) = true ∧ allow ≠ 0
    · simp only [guard, ne_eq, not_false_eq_true, and_self, ↓reduceIte, ← size, ← copied, ← alike_can_recycle after]
      by_cases emptied : mbuf_can_recycle (mbuf_read b len).2.2 = true
      · simp only [emptied, ↓reduceIte]
        exact ih _ _ _ _
      · simp only [emptied]
        exact ⟨.cons after others, rfl⟩
    · rw [if_neg guard, if_neg guard]
      exact ⟨.cons first others, rfl⟩

theorem peek_loop_same (alike : List.Forall₂ Alike queue queue') (len : Nat) (reply : Reply) :
    con_buf_peek_loop queue len reply = con_buf_peek_loop queue' len reply := by
  induction alike generalizing len reply with
  | nil => rfl
  | cons first others ih =>
    simp only [con_buf_peek_loop, alike_peek first, alike_read_size first, ih]

/-! ## Connections -/

structure Same (con con' : Connection) : Prop where
  data_size : con.data_size = con'.data_size
  info : Option.Rel (fun i i' => List.Forall₂ Alike i.data i'.data) con.info con'.info

variable {con con' : Connection}

theorem same_queued (same : Same con con') : List.Forall₂ Alike (queued con) (queued con') := by
  obtain ⟨size, info, ctx⟩ := con
  obtain ⟨size', info', ctx'⟩ := con'
  obtain ⟨_, related⟩ := same
  cases related with
  | none => exact .nil
  | some alike => exact alike

theorem same_write (same : Same con con') {w w' : World} (offset : w.ctx.mbuf_offset = w'.ctx.mbuf_offset)
    (data : List UInt8) :
    Option.Rel (fun r r' => Same r.2 r'.2) (con_buf_write w con data) (con_buf_write w' con' data) := by
  unfold con_buf_write
  split_ifs with empty
  · exact .some same
  · have attached : List.Forall₂ Alike (attach_info w con).1.data (attach_info w' con').1.data := by
      simpa using same_queued same
    have offset₁ : (attach_info w con).2.ctx.mbuf_offset = (attach_info w' con').2.ctx.mbuf_offset := by
      simpa using offset
    have roomy := make_room_same attached offset₁ (attach_info w con).1.block (attach_info w' con').1.block
    have offset₂ := ((keeps_make_room (attach_info w con).1.block (attach_info w con).2
      (attach_info w con).1.data).offset.trans offset₁).trans
      (keeps_make_room (attach_info w' con').1.block (attach_info w' con').2 (attach_info w' con').1.data).offset.symm
    dsimp only
    rcases alike_last roomy with ⟨none, none'⟩ | ⟨front, buf, front', buf', queueIs, queueIs', before, last⟩
    · simp only [none, none', List.getLast?_nil]
      exact .none
    · simp only [queueIs, queueIs', List.getLast?_concat, List.dropLast_concat]
      have looped := @write_loop_same (attach_info w con).1.block (attach_info w' con').1.block (data.length + 1)
        _ _ _ _ _ _ data offset₂ before last
      revert looped
      generalize con_buf_write_loop (attach_info w con).1.block _ _ _ _ _ = result
      generalize con_buf_write_loop (attach_info w' con').1.block _ _ _ _ _ = result'
      rintro (⟨alike, counted⟩ | _)
      · dsimp only
        rw [counted]
        refine .some ⟨?_, ?_⟩
        · split_ifs <;> simp [same.data_size]
        · split_ifs <;> exact .some alike
      · exact .none

theorem same_read (same : Same con con') (w w' : World) (len : Nat) :
    Option.Rel (fun r r' => Same r.2.1 r'.2.1 ∧ r.2.2 = r'.2.2) (con_buf_read w con len) (con_buf_read w' con' len) := by
  obtain ⟨size, info, ctx⟩ := con
  obtain ⟨size', info', ctx'⟩ := con'
  obtain ⟨rfl, related⟩ := same
  cases related with
  | none => exact .none
  | @some info info' alike =>
    obtain ⟨queues, replies⟩ := read_loop_same alike len w w' (if (len : Int) > size then size else len) ⟨0, []⟩
    simp only [con_buf_read, replies]
    exact .some ⟨⟨rfl, .some queues⟩, rfl⟩

theorem same_peek (same : Same con con') (len : Nat) : con_buf_peek con len = con_buf_peek con' len := by
  obtain ⟨size, info, ctx⟩ := con
  obtain ⟨size', info', ctx'⟩ := con'
  obtain ⟨_, related⟩ := same
  cases related with
  | none => rfl
  | some alike => exact peek_loop_same alike len _

theorem same_free (same : Same con con') (w w' : World) :
    Same (connection_buf_free w con).2 (connection_buf_free w' con').2 := by
  obtain ⟨size, info, ctx⟩ := con
  obtain ⟨size', info', ctx'⟩ := con'
  obtain ⟨rfl, related⟩ := same
  cases related with
  | none => exact ⟨rfl, .none⟩
  | some alike => exact ⟨rfl, .some .nil⟩

/-! ## Runs -/

/-- The connection an operation is given. -/
def handle : PoolOp → Option Nat
  | .new => none
  | .write i _ | .read i _ | .peek i _ | .free i | .recycle i => some i

/-- The operation given the first connection instead. -/
def retarget : PoolOp → PoolOp
  | .new => .new
  | .write _ data => .write 0 data
  | .read _ len => .read 0 len
  | .peek _ len => .peek 0 len
  | .free _ => .free 0
  | .recycle _ => .recycle 0

/-- The operations on one connection, in order. -/
def own (i : Nat) (ops : List PoolOp) : List PoolOp := (ops.filter fun op => handle op = some i).map retarget

/-- The run of one connection on a context of its own. -/
def alone (i : Nat) (ops : List PoolOp) : List PoolOp := .new :: own i ops

/-- What the operations on one connection returned and stored. -/
def replies_of (i : Nat) (s : Pool) : List Reply := (s.replies.filter fun r => r.1 = i).map Prod.snd

/-- Connections are created while none has been given back, and used once created. -/
def Issued (s : Pool) (op : PoolOp) : Prop :=
  match handle op with
  | none => TAILQ_FIRST s.world.ctx.conns () = none
  | some i => i < s.handles.length

/-- The connection returned by the `i`-th call, as good as new before that call. -/
def view (s : Pool) (i : Nat) : Connection := (s.handles[i]?.map s.con).getD ⟨0, none, none⟩

/-- The connection `i` of `s` stands as the only connection of `t` does. -/
structure Matches (i : Nat) (s t : Pool) : Prop where
  offset : s.world.ctx.mbuf_offset = t.world.ctx.mbuf_offset
  linked : ∃ pool, Linked t pool
  single : ∃ c, t.handles = [c]
  same : Same (view s i) (view t 0)
  replies : replies_of i s = replies_of 0 t

variable {s s' t : Pool} {i : Nat}

theorem view_found {c : Nat} (found : s.handles[i]? = some c) : view s i = s.con c := by simp [view, found]

theorem view_set {c : Nat} (found : s.handles[i]? = some c) (w : World) (con : Connection) :
    view (s.set w c con) i = con := by
  rw [view_found (s := s.set w c con) found, set_con_self]

theorem view_set_other {pool : List Nat} (linked : Linked s pool) {j c : Nat} (found : s.handles[j]? = some c)
    (other : j ≠ i) (w : World) (con : Connection) : view (s.set w c con) i = view s i := by
  cases here : s.handles[i]? with
  | none => simp [view, here]
  | some k =>
    have apart : k ≠ c := by
      rintro rfl
      obtain ⟨inside, at_j⟩ := List.getElem?_eq_some_iff.mp found
      obtain ⟨inside', at_i⟩ := List.getElem?_eq_some_iff.mp here
      exact other ((List.Nodup.getElem_inj_iff linked.distinct).mp (at_j.trans at_i.symm))
    rw [view_found here, view_found (s := s.set w c con) here, set_con_other s w c con apart]

/-- A new connection shows what one not yet created does. -/
theorem view_new {pool : List Nat} (linked : Linked s pool) (stepped : step s .new = some s') :
    (view s' i).data_size = (view s i).data_size ∧ (view s' i).info = (view s i).info := by
  obtain ⟨_, _, _, _, con, handles, _⟩ := step_new stepped
  rcases Nat.lt_trichotomy i s.handles.length with before | rfl | after
  · have found : s.handles[i]? = some s.handles[i] := List.getElem?_eq_getElem before
    have found' : s'.handles[i]? = some s.handles[i] := by rw [handles, List.getElem?_append_left before, found]
    have older : s.handles[i] ≠ s.world.heap.kinds.length := by
      have := linked.below _ (List.getElem_mem before)
      omega
    rw [view_found found, view_found found', con, Function.update_of_ne older]
    exact ⟨rfl, rfl⟩
  · have found' : s'.handles[s.handles.length]? = some s.world.heap.kinds.length := by simp [handles]
    rw [view_found found', con, Function.update_self]
    simp [view]
  · have missing : s.handles[i]? = none := List.getElem?_eq_none (by omega)
    have missing' : s'.handles[i]? = none := List.getElem?_eq_none (by simp [handles]; omega)
    simp [view, missing, missing']

theorem replies_concat_self (i : Nat) (rs : List (Nat × Reply)) (r : Reply) :
    ((rs ++ [(i, r)]).filter fun r => r.1 = i).map Prod.snd = (rs.filter fun r => r.1 = i).map Prod.snd ++ [r] := by
  simp [List.filter_append]

theorem replies_concat_other {i j : Nat} (other : j ≠ i) (rs : List (Nat × Reply)) (r : Reply) :
    ((rs ++ [(j, r)]).filter fun r => r.1 = i).map Prod.snd = (rs.filter fun r => r.1 = i).map Prod.snd := by
  simp [List.filter_append, other]

theorem rel_cases {α β : Type} {R : α → β → Prop} {a : Option α} {b : Option β} (related : Option.Rel R a b) :
    a = none ∧ b = none ∨ ∃ x y, a = some x ∧ b = some y ∧ R x y := by
  cases related with
  | none => exact .inl ⟨rfl, rfl⟩
  | some holds => exact .inr ⟨_, _, rfl, rfl, holds⟩

/-- What an operation leaves is matched again if it did the same to both. -/
theorem matches_again {t' : Pool} (matched : Matches i s t) {op : PoolOp} (stepped : step t op = some t')
    (same : Same (view s' i) (view t' 0)) (kept : s'.world.ctx.mbuf_offset = s.world.ctx.mbuf_offset)
    (kept' : t'.world.ctx.mbuf_offset = t.world.ctx.mbuf_offset) (handles : t'.handles = t.handles)
    (replies : replies_of i s' = replies_of 0 t') : Matches i s' t' := by
  obtain ⟨offset, ⟨pool, linked⟩, single, _, _⟩ := matched
  exact ⟨kept.trans (offset.trans kept'.symm), linked_step linked stepped, by rwa [handles], same, replies⟩

/-- An operation on the connection `i` does the same to it alone. -/
theorem step_matches (matched : Matches i s t) {pool : List Nat} (linked : Linked s pool)
    (created : i < s.handles.length) {op : PoolOp} (acts : handle op = some i) :
    Option.Rel (Matches i) (step s op) (step t (retarget op)) := by
  obtain ⟨c, found⟩ : ∃ c, s.handles[i]? = some c := ⟨_, List.getElem?_eq_getElem created⟩
  obtain ⟨c', single⟩ := matched.single
  have found' : t.handles[0]? = some c' := by simp [single]
  have same := matched.same
  have replies := matched.replies
  rw [view_found found, view_found found'] at same
  cases op with
  | new => cases acts
  | write j data =>
    cases acts
    rcases rel_cases (same_write same matched.offset data) with
      ⟨none, none'⟩ | ⟨⟨w, con⟩, ⟨w', con'⟩, executed, executed', related⟩
    · simp [step, retarget, found, found', none, none']
    · have stepped' := step_write.mpr ⟨c', w', con', found', executed', rfl⟩
      rw [step_write.mpr ⟨c, w, con, found, executed, rfl⟩, retarget, stepped']
      refine .some (matches_again matched stepped' ?_ (keeps_write executed).offset (keeps_write executed').offset rfl
        replies)
      rwa [view_set found, view_set found']
  | read j len =>
    cases acts
    rcases rel_cases (same_read same s.world t.world len) with
      ⟨none, none'⟩ | ⟨⟨w, con, reply⟩, ⟨w', con', reply'⟩, executed, executed', related, told⟩
    · simp [step, retarget, found, found', none, none']
    · have stepped' := step_read.mpr ⟨c', w', con', reply', found', executed', rfl⟩
      rw [step_read.mpr ⟨c, w, con, reply, found, executed, rfl⟩, retarget, stepped']
      refine .some (matches_again matched stepped' ?_ (keeps_read executed).offset (keeps_read executed').offset rfl ?_)
      · show Same (view (s.set w c con) i) (view (t.set w' c' con') 0)
        rwa [view_set found, view_set found']
      · rw [replies_of, replies_of, replies_concat_self, replies_concat_self]
        exact congrArg₂ _ replies (congrArg (fun r => [r]) told)
  | peek j len =>
    cases acts
    have stepped' : step t (.peek 0 len) = some _ := step_peek.mpr ⟨c', found', rfl⟩
    rw [step_peek.mpr ⟨c, found, rfl⟩, retarget, stepped']
    refine .some (matches_again matched stepped' matched.same rfl rfl rfl ?_)
    rw [replies_of, replies_of, replies_concat_self, replies_concat_self]
    exact congrArg₂ _ replies (congrArg (fun r => [r]) (same_peek same len))
  | free j =>
    cases acts
    have stepped' := step_free.mpr ⟨c', found', rfl⟩
    rw [step_free.mpr ⟨c, found, rfl⟩, retarget, stepped']
    refine .some (matches_again matched stepped' ?_ (keeps_free _ _).offset (keeps_free _ _).offset rfl replies)
    rw [view_set found, view_set found']
    exact same_free same s.world t.world
  | recycle j =>
    cases acts
    obtain ⟨pool', linked'⟩ := matched.linked
    obtain ⟨w, executed, kept, _⟩ := linked_recycle linked found
    obtain ⟨w', executed', kept', _⟩ := linked_recycle linked' found'
    have stepped' := step_recycle.mpr ⟨c', w', _, found', executed', rfl⟩
    rw [step_recycle.mpr ⟨c, w, _, found, executed, rfl⟩, retarget, stepped']
    refine .some (matches_again matched stepped' ?_ kept kept' rfl replies)
    show Same (view (s.set w c { s.con c with info := Option.none }) i)
      (view (t.set w' c' { t.con c' with info := Option.none }) 0)
    rw [view_set found, view_set found']
    exact ⟨same.data_size, .none⟩

/-- An operation on another connection changes nothing the connection `i` shows. -/
theorem step_others (matched : Matches i s t) {pool : List Nat} (linked : Linked s pool) {op : PoolOp}
    (stepped : step s op = some s') (other : handle op ≠ some i) : Matches i s' t := by
  obtain ⟨offset, linkedAlone, single, same, replies⟩ := matched
  cases op with
  | new =>
    obtain ⟨_, _, kept, _, _, _, _, told⟩ := step_new stepped
    obtain ⟨size, info⟩ := view_new (i := i) linked stepped
    exact ⟨kept.trans offset, linkedAlone, single, ⟨size.trans same.data_size, info ▸ same.info⟩,
      by rw [replies_of, told]; exact replies⟩
  | write j data =>
    obtain ⟨c, w, con, found, executed, rfl⟩ := step_write.mp stepped
    refine ⟨(keeps_write executed).offset.trans offset, linkedAlone, single, ?_, replies⟩
    rwa [view_set_other linked found (fun same => other (congrArg some same))]
  | read j len =>
    obtain ⟨c, w, con, reply, found, executed, rfl⟩ := step_read.mp stepped
    have apart : j ≠ i := fun same => other (congrArg some same)
    refine ⟨(keeps_read executed).offset.trans offset, linkedAlone, single, ?_, ?_⟩
    · show Same (view (s.set w c con) i) _
      rwa [view_set_other linked found apart]
    · rw [replies_of, replies_concat_other apart]
      exact replies
  | peek j len =>
    obtain ⟨c, found, rfl⟩ := step_peek.mp stepped
    refine ⟨offset, linkedAlone, single, same, ?_⟩
    rw [replies_of, replies_concat_other (fun same => other (congrArg some same))]
    exact replies
  | free j =>
    obtain ⟨c, found, rfl⟩ := step_free.mp stepped
    refine ⟨(keeps_free _ _).offset.trans offset, linkedAlone, single, ?_, replies⟩
    rwa [view_set_other linked found (fun same => other (congrArg some same))]
  | recycle j =>
    obtain ⟨c, w, con, found, executed, rfl⟩ := step_recycle.mp stepped
    obtain ⟨_, same_step, kept, _⟩ := linked_recycle linked found
    cases executed.symm.trans same_step
    refine ⟨kept.trans offset, linkedAlone, single, ?_, replies⟩
    show Same (view (s.set w c { s.con c with info := none }) i) _
    rwa [view_set_other linked found (fun same => other (congrArg some same))]

theorem own_self {op : PoolOp} (acts : handle op = some i) (ops : List PoolOp) :
    own i (op :: ops) = retarget op :: own i ops := by simp [own, acts]

theorem own_other {op : PoolOp} (other : handle op ≠ some i) (ops : List PoolOp) : own i (op :: ops) = own i ops := by
  simp [own, other]

theorem handle_new {op : PoolOp} (acts : handle op = none) : op = .new := by
  cases op with
  | new => rfl
  | write | read | peek | free | recycle => cases acts

theorem handles_kept {op : PoolOp} (acts : handle op = some i) (stepped : step s op = some s') :
    s'.handles = s.handles := by
  cases op with
  | new => cases acts
  | write j data => obtain ⟨c, w, con, _, _, rfl⟩ := step_write.mp stepped; rfl
  | read j len => obtain ⟨c, w, con, reply, _, _, rfl⟩ := step_read.mp stepped; rfl
  | peek j len => obtain ⟨c, _, rfl⟩ := step_peek.mp stepped; rfl
  | free j => obtain ⟨c, _, rfl⟩ := step_free.mp stepped; rfl
  | recycle j => obtain ⟨c, w, con, _, _, rfl⟩ := step_recycle.mp stepped; rfl

/-- The run goes as far as the runs of its connections, and ends where they do. -/
theorem run_matches {ops : List PoolOp} {s : Pool} {t : Nat → Pool} {pool : List Nat} (linked : Linked s pool)
    (matched : ∀ i, Matches i s (t i)) (issued : Each step Issued s ops) :
    ((run step s ops).isSome ↔ ∀ i < s.handles.length + ops.count .new, (run step (t i) (own i ops)).isSome) ∧
      ∀ s', run step s ops = some s' → ∀ i, ∃ t', run step (t i) (own i ops) = some t' ∧ Matches i s' t' := by
  induction ops generalizing s t pool with
  | nil =>
    refine ⟨by simp [own], fun s' executed i => ⟨t i, rfl, ?_⟩⟩
    cases executed
    exact matched i
  | cons op ops ih =>
    obtain ⟨here, later⟩ := issued
    cases acts : handle op with
    | none =>
      cases handle_new acts
      obtain ⟨s₁, stepped⟩ : ∃ s₁, step s .new = some s₁ := ⟨_, by simp only [step, connection_new_fresh here]; rfl⟩
      have length : s₁.handles.length = s.handles.length + 1 := by
        obtain ⟨_, _, _, _, _, handles, _⟩ := step_new stepped
        simp [handles]
      have rest := ih (linked_new linked stepped).2 (fun i => step_others (matched i) linked stepped (by simp [acts]))
        (later s₁ stepped)
      rw [length, Nat.add_assoc, Nat.add_comm 1] at rest
      simpa [run_cons, stepped, own_other, acts] using rest
    | some j =>
      have created : j < s.handles.length := by simpa [Issued, acts] using here
      have old : op ≠ .new := by
        rintro rfl
        cases acts
      have count : (op :: ops).count .new = ops.count .new := List.count_cons_of_ne old
      rcases rel_cases (step_matches (matched j) linked created acts) with
        ⟨failed, failed'⟩ | ⟨s₁, t₁, stepped, stepped', again⟩
      · have stuck : run step s (op :: ops) = none := by simp [run_cons, failed]
        have stuck' : run step (t j) (own j (op :: ops)) = none := by rw [own_self acts, run_cons, failed']; rfl
        rw [stuck]
        refine ⟨⟨fun reached => by simp at reached, ?_⟩, by simp⟩
        intro all
        have reached := all j (by omega)
        rwa [stuck'] at reached
      · obtain ⟨_, linked₁⟩ := linked_step linked stepped
        have matched₁ : ∀ i, Matches i s₁ (Function.update t j t₁ i) := by
          intro i
          by_cases same : i = j
          · subst same
            rw [Function.update_self]
            exact again
          · rw [Function.update_of_ne same]
            exact step_others (matched i) linked stepped (by simpa [acts] using fun eq => same eq.symm)
        have shift : ∀ i, run step (t i) (own i (op :: ops)) = run step (Function.update t j t₁ i) (own i ops) := by
          intro i
          by_cases same : i = j
          · subst same
            rw [own_self acts, run_cons, stepped', Function.update_self]
            rfl
          · rw [Function.update_of_ne same, own_other (by simpa [acts] using fun eq => same eq.symm)]
        have rest := ih linked₁ matched₁ (later s₁ stepped)
        rw [handles_kept acts stepped] at rest
        simpa only [run_cons, stepped, Option.bind_some, count, shift] using rest

/-- A run on many connections of one context has a result exactly when every
    connection's own operations have one on a fresh context, and then each
    connection has been told the same and counts the same bytes. -/
theorem noninterference (w : World) (empty : Queue w.ctx.conns () []) (junk : Nat → Nat → UInt8) (bufsize : Int)
    (capacity : (context_new (no_blocks junk) bufsize).ctx.mbuf_offset = w.ctx.mbuf_offset) (ops : List PoolOp)
    (issued : Each step Issued (start w) ops) :
    ((run step (start w) ops).isSome ↔
      ∀ i < ops.count .new, (run step (start (context_new (no_blocks junk) bufsize)) (alone i ops)).isSome) ∧
    ∀ s, run step (start w) ops = some s → ∀ i c, s.handles[i]? = some c →
      ∃ t c', run step (start (context_new (no_blocks junk) bufsize)) (alone i ops) = some t ∧ t.handles = [c'] ∧
        replies_of i s = replies_of 0 t ∧ (s.con c).data_size = (t.con c').data_size := by
  have linked : Linked (start (context_new (no_blocks junk) bufsize)) [] := start_linked (zeroed_queue ())
  obtain ⟨born, created⟩ : ∃ born, step (start (context_new (no_blocks junk) bufsize)) .new = some born := ⟨_, rfl⟩
  have matched : ∀ i, Matches i (start w) born := by
    intro i
    refine ⟨?_, ⟨[], (linked_new linked created).2⟩, ?_, ?_, ?_⟩
    all_goals cases created
    · exact capacity.symm
    · exact ⟨_, rfl⟩
    · exact ⟨rfl, .none⟩
    · rfl
  obtain ⟨total, ends⟩ := run_matches (start_linked empty) matched issued
  have begun : ∀ i, run step (start (context_new (no_blocks junk) bufsize)) (alone i ops) =
      run step born (own i ops) := by
    intro i
    rw [alone, run_cons, created]
    rfl
  simp only [begun]
  refine ⟨by simpa [start] using total, ?_⟩
  intro s executed i c found
  obtain ⟨t, executed', after⟩ := ends s executed i
  obtain ⟨c', single⟩ := after.single
  have shown := after.same.data_size
  rw [view_found found, view_found (c := c') (by simp [single])] at shown
  exact ⟨t, c', executed', single, after.replies, shown⟩

/-- The second connection is given the mbuf the first one filled. -/
def shared_ops : List PoolOp :=
  [.new, .new, .write 0 [1, 2, 3, 4, 5, 6, 7, 8, 9], .read 0 8, .recycle 0, .write 1 [10, 11, 12], .peek 1 8, .read 1 2]

theorem noninterference_reused_mbuf :
    ((run step (start (context_new (no_blocks fun _ _ => 255) 64)) shared_ops).isSome ↔
      ∀ i < shared_ops.count .new,
        (run step (start (context_new (no_blocks fun _ _ => 0) 64)) (alone i shared_ops)).isSome) ∧
    ∀ s, run step (start (context_new (no_blocks fun _ _ => 255) 64)) shared_ops = some s →
      ∀ i c, s.handles[i]? = some c →
        ∃ t c', run step (start (context_new (no_blocks fun _ _ => 0) 64)) (alone i shared_ops) = some t ∧
          t.handles = [c'] ∧ replies_of i s = replies_of 0 t ∧ (s.con c).data_size = (t.con c').data_size := by
  refine noninterference (context_new (no_blocks fun _ _ => 255) 64) (zeroed_queue ()) (fun _ _ => 0) 64 rfl shared_ops ?_
  refine each_cons rfl rfl <| each_cons rfl rfl <| each_cons ?_ rfl <| each_cons ?_ rfl <| each_cons ?_ rfl <|
    each_cons ?_ rfl <| each_cons ?_ rfl <| each_cons ?_ rfl trivial
  · exact (by decide : 0 < 2)
  · exact (by decide : 0 < 2)
  · exact (by decide : 0 < 2)
  · exact (by decide : 1 < 2)
  · exact (by decide : 1 < 2)
  · exact (by decide : 1 < 2)

end TcpLearn.Isolation
