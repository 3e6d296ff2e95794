import TcpLearn.Runs
import Mathlib

/-!
# Opening sockets

The functions of `anet.c` and `platform_linux.c` that return a socket. Each opens a
descriptor first and has several ways to fail after that; most close it, four do not:
the option of `anetCreateSocket`, `anetNonBlock` on the way to a connection (its two
calls), and the address of a datagram socket. So the descriptors that are open and that
no caller knows of are as many as calls failed there (`lost_counted`), whatever was
opened, closed and refused in between.
-/
namespace TcpLearn.Sockets
open TcpLearn.Runs

/-! ## The code -/

inductive Connected where
  | yes
  /-- `errno` is `EINPROGRESS`. -/
  | inprogress
  | no
deriving DecidableEq

/-- What the system calls of one function answer, each of which it makes once at most. -/
structure Answers where
  /-- The new descriptor, if there is one. -/
  socket : Option Int
  setsockopt : Bool
  inet_aton : Bool
  gethostbyname : Bool
  getfl : Bool
  setfl : Bool
  connect : Connected
  bind : Bool
  listen : Bool

structure Net where
  /-- The open descriptors of the process. -/
  opened : List Int
  /-- The format of the text last stored at `err`. -/
  err : Option String

def ANET_OK : Int := 0
def ANET_ERR : Int := -1

def anetSetError (n : Net) (fmt : String) : Net := { n with err := some fmt }

def close (n : Net) (fd : Int) : Net := { n with opened := n.opened.erase fd }

def anetNonBlock (a : Answers) (n : Net) : Int × Net :=
  if !a.getfl then (ANET_ERR, anetSetError n "fcntl(F_GETFL): %s")
  else if !a.setfl then (ANET_ERR, anetSetError n "fcntl(F_SETFL,O_NONBLOCK): %s")
  else (ANET_OK, n)

def anetCreateSocket (a : Answers) (n : Net) : Int × Net :=
  match a.socket with
  | none => (ANET_ERR, anetSetError n "creating socket: %s")
  | some s =>
    let n := { n with opened := s :: n.opened }
    if !a.setsockopt then (ANET_ERR, anetSetError n "setsockopt SO_REUSEADDR: %s") else (s, n)

/-- What the functions that connect do once they have an address. -/
def connect_socket (a : Answers) (nonblock : Bool) (s : Int) (n : Net) : Int × Net :=
  if nonblock ∧ (anetNonBlock a n).1 ≠ ANET_OK then (ANET_ERR, (anetNonBlock a n).2)
  else
    match a.connect with
    | .yes => (s, n)
    | .inprogress => if nonblock then (s, n) else (ANET_ERR, close (anetSetError n "connect: %s") s)
    | .no => (ANET_ERR, close (anetSetError n "connect: %s") s)

def anetTcpGenericConnect (a : Answers) (nonblock : Bool) (n : Net) : Int × Net :=
  let (s, n) := anetCreateSocket a n
  if s = ANET_ERR then (ANET_ERR, n)
  else if !a.inet_aton ∧ !a.gethostbyname then (ANET_ERR, close (anetSetError n "can't resolve: %s") s)
  else connect_socket a nonblock s n

def anetTcpConnect (a : Answers) (n : Net) : Int × Net := anetTcpGenericConnect a false n
def anetTcpNonBlockConnect (a : Answers) (n : Net) : Int × Net := anetTcpGenericConnect a true n

def anetUnixGenericConnect (a : Answers) (nonblock : Bool) (n : Net) : Int × Net :=
  let (s, n) := anetCreateSocket a n
  if s = ANET_ERR then (ANET_ERR, n) else connect_socket a nonblock s n

def anetUnixConnect (a : Answers) (n : Net) : Int × Net := anetUnixGenericConnect a false n
def anetUnixNonBlockConnect (a : Answers) (n : Net) : Int × Net := anetUnixGenericConnect a true n

def anetListen (a : Answers) (s : Int) (n : Net) : Int × Net :=
  if !a.bind then (ANET_ERR, close (anetSetError n "bind: %s") s)
  else if !a.listen then (ANET_ERR, close (anetSetError n "listen: %s") s)
  else (ANET_OK, n)

/-- `bindaddr` tells whether the caller passes an address. -/
def anetTcpServer (a : Answers) (bindaddr : Bool) (n : Net) : Int × Net :=
  let (s, n) := anetCreateSocket a n
  if s = ANET_ERR then (ANET_ERR, n)
  else if bindaddr ∧ !a.inet_aton then (ANET_ERR, close (anetSetError n "invalid bind address") s)
  else
    let (listening, n) := anetListen a s n
    if listening = ANET_ERR then (ANET_ERR, n) else (s, n)

def anetUnixServer (a : Answers) (n : Net) : Int × Net :=
  let (s, n) := anetCreateSocket a n
  if s = ANET_ERR then (ANET_ERR, n)
  else
    let (listening, n) := anetListen a s n
    if listening = ANET_ERR then (ANET_ERR, n) else (s, n)

/-- The functions of `platform_linux.c` return 0 and store the descriptor; their result
    is the descriptor here. -/
def su_tcp_create (a : Answers) (n : Net) : Int × Net :=
  match a.socket with
  | none => (-1, n)
  | some s => (s, { n with opened := s :: n.opened })

def su_tcp_listen_create (a : Answers) (n : Net) : Int × Net :=
  match a.socket with
  | none => (-1, n)
  | some s =>
    let n := { n with opened := s :: n.opened }
    if !a.getfl ∨ !a.setfl then (-1, close n s)
    else if !a.bind then (-1, close n s)
    else if !a.listen then (-1, close n s)
    else (s, n)

/-- The descriptor is not checked; `bind` fails for -1. -/
def su_udp_create (a : Answers) (n : Net) : Int × Net :=
  match a.socket with
  | none => (-1, n)
  | some s =>
    let n := { n with opened := s :: n.opened }
    if !a.bind then (-1, n) else (s, n)

/-! ## What a call leaves behind -/

/-- The socket is returned, none is left, or one is left that nobody knows of. -/
inductive Outcome (a : Answers) (n : Net) : Bool → Int × Net → Prop where
  | given {s : Int} {n' : Net} (socket : a.socket = some s) (opened : n'.opened = s :: n.opened) :
      Outcome a n false (s, n')
  | refused {n' : Net} (opened : n'.opened = n.opened) : Outcome a n false (-1, n')
  | lost {s : Int} {n' : Net} (socket : a.socket = some s) (opened : n'.opened = s :: n.opened) :
      Outcome a n true (-1, n')

section
variable {a : Answers} {n n' : Net} {s : Int}

theorem close_new (opened : n'.opened = s :: n.opened) (fmt : String) : (close (anetSetError n' fmt) s).opened = n.opened := by
  simp [close, anetSetError, opened]

/-- The option fails, and the socket stays open. -/
def option_fails (a : Answers) : Bool := a.socket.isSome && !a.setsockopt

/-- The functions that begin with `anetCreateSocket`. -/
theorem create_then {more : Bool} (rest : Int → Net → Int × Net) (valid : ∀ s, a.socket = some s → 0 ≤ s)
    (goes : ∀ s n', a.socket = some s → n'.opened = s :: n.opened → Outcome a n more (rest s n')) :
    Outcome a n (option_fails a || (a.socket.isSome && more))
      (if (anetCreateSocket a n).1 = ANET_ERR then (ANET_ERR, (anetCreateSocket a n).2)
        else rest (anetCreateSocket a n).1 (anetCreateSocket a n).2) := by
  cases given : a.socket with
  | none =>
    have unset : option_fails a = false := by simp [option_fails, given]
    rw [show anetCreateSocket a n = (ANET_ERR, anetSetError n "creating socket: %s") by rw [anetCreateSocket, given],
      if_pos rfl, unset]
    exact .refused rfl
  | some s =>
    by_cases option : a.setsockopt = true
    · have unset : option_fails a = false := by simp [option_fails, option]
      have apart : s ≠ ANET_ERR := by
        have positive := valid s given
        rw [ANET_ERR]
        omega
      rw [show anetCreateSocket a n = (s, { n with opened := s :: n.opened }) by simp [anetCreateSocket, given, option],
        if_neg apart, unset]
      exact goes s _ given rfl
    · have set : option_fails a = true := by simp [option_fails, given, option]
      rw [show anetCreateSocket a n = (ANET_ERR, anetSetError { n with opened := s :: n.opened }
        "setsockopt SO_REUSEADDR: %s") by simp [anetCreateSocket, given, option], if_pos rfl, set]
      exact .lost given rfl

theorem create_outcome (valid : ∀ s, a.socket = some s → 0 ≤ s) : Outcome a n (option_fails a) (anetCreateSocket a n) := by
  have outcome := create_then (n := n) Prod.mk valid fun _ _ socket opened => Outcome.given socket opened
  rw [Bool.and_false, Bool.or_false] at outcome
  split_ifs at outcome with failed
  · rwa [← failed] at outcome
  · exact outcome

/-- The flags of the socket cannot be changed, and it stays open. -/
def flags_fail (a : Answers) (nonblock : Bool) : Bool := nonblock && !(a.getfl && a.setfl)

theorem connect_outcome (nonblock : Bool) (socket : a.socket = some s) (opened : n'.opened = s :: n.opened) :
    Outcome a n (flags_fail a nonblock) (connect_socket a nonblock s n') := by
  have kept : (anetNonBlock a n').2.opened = n'.opened := by
    unfold anetNonBlock
    split_ifs <;> rfl
  have refused : Outcome a n false (ANET_ERR, close (anetSetError n' "connect: %s") s) := .refused (close_new opened _)
  by_cases fails : nonblock = true ∧ (anetNonBlock a n').1 ≠ ANET_OK
  · rw [connect_socket, if_pos fails]
    have flags : flags_fail a nonblock = true := by
      obtain ⟨asked, failed⟩ := fails
      revert failed
      unfold anetNonBlock flags_fail
      cases a.getfl <;> cases a.setfl <;> simp [asked]
    rw [flags]
    exact .lost socket (kept.trans opened)
  · rw [connect_socket, if_neg fails]
    have flags : flags_fail a nonblock = false := by
      cases asked : nonblock with
      | false => rfl
      | true =>
        have worked := not_and_not_right.mp fails asked
        revert worked
        unfold anetNonBlock flags_fail
        cases a.getfl <;> cases a.setfl <;> simp [ANET_OK, ANET_ERR]
    rw [flags]
    cases a.connect with
    | yes => exact .given socket opened
    | no => exact refused
    | inprogress =>
      cases nonblock with
      | false => exact refused
      | true => exact .given socket opened

theorem listen_cases (opened : n'.opened = s :: n.opened) :
    ((anetListen a s n').1 = ANET_ERR ∧ (anetListen a s n').2.opened = n.opened) ∨
      ((anetListen a s n').1 = ANET_OK ∧ (anetListen a s n').2.opened = s :: n.opened) := by
  unfold anetListen
  by_cases bound : a.bind = true
  · by_cases listening : a.listen = true
    · exact .inr (by simp [bound, listening, opened])
    · exact .inl (by simp [bound, listening, close_new opened])
  · exact .inl (by simp [bound, close_new opened])

/-! ## All of them -/

inductive Function where
  | anetCreateSocket
  | anetTcpConnect | anetTcpNonBlockConnect | anetUnixConnect | anetUnixNonBlockConnect
  | anetTcpServer (bindaddr : Bool) | anetUnixServer
  | su_tcp_create | su_tcp_listen_create | su_udp_create

def Function.run (f : Function) (a : Answers) (n : Net) : Int × Net :=
  match f with
  | .anetCreateSocket => Sockets.anetCreateSocket a n
  | .anetTcpConnect => Sockets.anetTcpConnect a n
  | .anetTcpNonBlockConnect => Sockets.anetTcpNonBlockConnect a n
  | .anetUnixConnect => Sockets.anetUnixConnect a n
  | .anetUnixNonBlockConnect => Sockets.anetUnixNonBlockConnect a n
  | .anetTcpServer bindaddr => Sockets.anetTcpServer a bindaddr n
  | .anetUnixServer => Sockets.anetUnixServer a n
  | .su_tcp_create => Sockets.su_tcp_create a n
  | .su_tcp_listen_create => Sockets.su_tcp_listen_create a n
  | .su_udp_create => Sockets.su_udp_create a n

/-- The call fails where the socket is not closed. -/
def Function.leaves (f : Function) (a : Answers) : Bool :=
  match f with
  | .anetCreateSocket | .anetTcpConnect | .anetUnixConnect | .anetTcpServer _ | .anetUnixServer => option_fails a
  | .anetTcpNonBlockConnect =>
    option_fails a || (a.socket.isSome && (a.inet_aton || a.gethostbyname) && flags_fail a true)
  | .anetUnixNonBlockConnect => option_fails a || (a.socket.isSome && flags_fail a true)
  | .su_tcp_create | .su_tcp_listen_create => false
  | .su_udp_create => a.socket.isSome && !a.bind

theorem tcp_connect_outcome (nonblock : Bool) (valid : ∀ s, a.socket = some s → 0 ≤ s) :
    Outcome a n (option_fails a || (a.socket.isSome && ((a.inet_aton || a.gethostbyname) && flags_fail a nonblock)))
      (anetTcpGenericConnect a nonblock n) := by
  refine create_then (fun s n => if !a.inet_aton ∧ !a.gethostbyname then
    (ANET_ERR, close (anetSetError n "can't resolve: %s") s) else connect_socket a nonblock s n) valid ?_
  intro s n' socket opened
  by_cases unknown : (!a.inet_aton) = true ∧ (!a.gethostbyname) = true
  · rw [if_pos unknown]
    simp only [Bool.not_eq_true'] at unknown
    simp only [unknown, Bool.or_self, Bool.false_and]
    exact .refused (close_new opened _)
  · rw [if_neg unknown]
    have named : (a.inet_aton || a.gethostbyname) = true := by
      cases aton : a.inet_aton <;> cases host : a.gethostbyname <;> simp [aton, host] at unknown ⊢
    rw [named, Bool.true_and]
    exact connect_outcome nonblock socket opened

theorem unix_connect_outcome (nonblock : Bool) (valid : ∀ s, a.socket = some s → 0 ≤ s) :
    Outcome a n (option_fails a || (a.socket.isSome && flags_fail a nonblock)) (anetUnixGenericConnect a nonblock n) :=
  create_then _ valid fun _ _ socket opened => connect_outcome nonblock socket opened

/-- What the functions that listen do with a socket that has its address. -/
theorem listen_outcome (socket : a.socket = some s) (opened : n'.opened = s :: n.opened) :
    Outcome a n false (if (anetListen a s n').1 = ANET_ERR then (ANET_ERR, (anetListen a s n').2)
      else (s, (anetListen a s n').2)) := by
  rcases listen_cases opened with ⟨failed, closed⟩ | ⟨worked, kept⟩
  · rw [if_pos failed]
    exact .refused closed
  · rw [if_neg (by rw [worked]; decide)]
    exact .given socket kept

theorem tcp_server_outcome (bindaddr : Bool) (valid : ∀ s, a.socket = some s → 0 ≤ s) :
    Outcome a n (option_fails a) (anetTcpServer a bindaddr n) := by
  rw [show option_fails a = (option_fails a || (a.socket.isSome && false)) by simp]
  refine create_then (fun s n => if bindaddr ∧ !a.inet_aton then
    (ANET_ERR, close (anetSetError n "invalid bind address") s) else if (anetListen a s n).1 = ANET_ERR then
      (ANET_ERR, (anetListen a s n).2) else (s, (anetListen a s n).2)) valid ?_
  intro s n' socket opened
  by_cases invalid : bindaddr = true ∧ (!a.inet_aton) = true
  · rw [if_pos invalid]
    exact .refused (close_new opened _)
  · rw [if_neg invalid]
    exact listen_outcome socket opened

theorem unix_server_outcome (valid : ∀ s, a.socket = some s → 0 ≤ s) :
    Outcome a n (option_fails a) (anetUnixServer a n) := by
  rw [show option_fails a = (option_fails a || (a.socket.isSome && false)) by simp]
  exact create_then _ valid fun _ _ socket opened => listen_outcome socket opened

theorem su_listen_outcome : Outcome a n false (su_tcp_listen_create a n) := by
  unfold su_tcp_listen_create
  cases given : a.socket with
  | none => exact .refused rfl
  | some s =>
    dsimp only
    split_ifs
    · exact .refused (by simp [close])
    · exact .refused (by simp [close])
    · exact .refused (by simp [close])
    · exact .given given rfl

/-- Every function has one of the outcomes, and loses the socket where it is said to. -/
theorem function_outcome (f : Function) (valid : ∀ s, a.socket = some s → 0 ≤ s) : Outcome a n (f.leaves a) (f.run a n) := by
  cases f with
  | anetCreateSocket => exact create_outcome valid
  | anetTcpConnect =>
    have outcome := tcp_connect_outcome (n := n) false valid
    simp only [flags_fail, Bool.false_and, Bool.and_false, Bool.or_false] at outcome
    exact outcome
  | anetTcpNonBlockConnect =>
    have outcome := tcp_connect_outcome (n := n) true valid
    rwa [← Bool.and_assoc] at outcome
  | anetUnixConnect =>
    have outcome := unix_connect_outcome (n := n) false valid
    simp only [flags_fail, Bool.false_and, Bool.and_false, Bool.or_false] at outcome
    exact outcome
  | anetUnixNonBlockConnect => exact unix_connect_outcome true valid
  | anetTcpServer bindaddr => exact tcp_server_outcome bindaddr valid
  | anetUnixServer => exact unix_server_outcome valid
  | su_tcp_create =>
    show Outcome a n false (su_tcp_create a n)
    unfold su_tcp_create
    cases given : a.socket with
    | none => exact .refused rfl
    | some s => exact .given given rfl
  | su_tcp_listen_create => exact su_listen_outcome
  | su_udp_create =>
    show Outcome a n (a.socket.isSome && !a.bind) (su_udp_create a n)
    unfold su_udp_create
    cases given : a.socket with
    | none => exact .refused rfl
    | some s =>
      cases bound : a.bind with
      | true => exact .given given rfl
      | false => exact .lost given rfl

end

/-! ## Runs -/

structure State where
  net : Net
  /-- The descriptors that callers were given and have not closed. -/
  held : List Int

inductive Op where
  | call (f : Function) (a : Answers)
  | close (fd : Int)

def step (s : State) : Op → Option State
  | .call f a =>
    let (ret, net) := f.run a s.net
    some ⟨net, if ret = -1 then s.held else ret :: s.held⟩
  | .close fd => if fd ∈ s.held then some ⟨close s.net fd, s.held.erase fd⟩ else none

/-- The kernel gives numbers that are not in use. -/
def Issued (s : State) : Op → Prop
  | .call _ a => ∀ fd, a.socket = some fd → 0 ≤ fd ∧ fd ∉ s.net.opened
  | .close _ => True

def Op.leaves : Op → Bool
  | .call f a => f.leaves a
  | .close _ => false

/-- The open descriptors are those held and as many that were lost. -/
def Lost (k : Nat) (s : State) : Prop :=
  s.net.opened.Nodup ∧ ∃ lost : List Int, s.net.opened.Perm (s.held ++ lost) ∧ lost.length = k

theorem step_lost {k : Nat} {s s' : State} {op : Op} (lost : Lost k s) (issued : Issued s op) (stepped : step s op = some s') :
    Lost (k + if op.leaves then 1 else 0) s' := by
  obtain ⟨distinct, out, perm, length⟩ := lost
  cases op with
  | call f a =>
    have outcome := function_outcome (n := s.net) f fun fd given => (issued fd given).1
    simp only [step, Option.some.injEq] at stepped
    rcases result : f.run a s.net with ⟨ret, net⟩
    rw [result] at stepped outcome
    subst stepped
    show Lost (k + if f.leaves a then 1 else 0) ⟨net, if ret = -1 then s.held else ret :: s.held⟩
    cases leaves : f.leaves a with
    | true =>
      rw [leaves] at outcome
      cases outcome with
      | @lost fd n' socket opened =>
        refine ⟨?_, fd :: out, ?_, by simp [length]⟩
        · rw [opened]
          exact List.nodup_cons.mpr ⟨(issued fd socket).2, distinct⟩
        · rw [opened, if_pos rfl]
          exact (perm.cons fd).trans List.perm_middle.symm
    | false =>
      rw [leaves] at outcome
      cases outcome with
      | given socket opened =>
        obtain ⟨positive, fresh⟩ := issued ret socket
        refine ⟨?_, out, ?_, by simp [length]⟩
        · rw [opened]
          exact List.nodup_cons.mpr ⟨fresh, distinct⟩
        · rw [opened, if_neg (by omega), List.cons_append]
          exact perm.cons ret
      | refused opened =>
        refine ⟨by rw [opened]; exact distinct, out, ?_, by simp [length]⟩
        rw [opened, if_pos rfl]
        exact perm
  | close fd =>
    simp only [step] at stepped
    split_ifs at stepped with known
    cases stepped
    refine ⟨distinct.erase fd, out, ?_, by simp [Op.leaves, length]⟩
    show (s.net.opened.erase fd).Perm (s.held.erase fd ++ out)
    rw [← List.erase_append_left _ known]
    exact perm.erase fd

theorem run_lost {k : Nat} {s s' : State} {ops : List Op} (lost : Lost k s) (issued : Each step Issued s ops)
    (executed : run step s ops = some s') : Lost (k + ops.countP Op.leaves) s' := by
  induction ops generalizing s k with
  | nil =>
    cases executed
    exact lost
  | cons op ops ih =>
    obtain ⟨mid, stepped, rest⟩ := run_cons_eq_some executed
    have here := step_lost lost issued.1 stepped
    have later := ih here (issued.2 mid stepped) rest
    rw [List.countP_cons]
    rwa [Nat.add_assoc, Nat.add_comm (if op.leaves = true then 1 else 0)] at later

/-- Whatever was opened, closed and refused: the open descriptors are those that callers
    hold, and one more for each call that failed where the socket is not closed. -/
theorem lost_counted (others : List Int) (distinct : others.Nodup) (ops : List Op) (s : State)
    (issued : Each step Issued ⟨⟨others, none⟩, others⟩ ops) (executed : run step ⟨⟨others, none⟩, others⟩ ops = some s) :
    s.net.opened.Nodup ∧
      ∃ lost : List Int, s.net.opened.Perm (s.held ++ lost) ∧ lost.length = ops.countP Op.leaves := by
  have initial : Lost 0 ⟨⟨others, none⟩, others⟩ := ⟨distinct, [], by simp, rfl⟩
  have counted := run_lost initial issued executed
  rwa [Nat.zero_add] at counted

/-- Every system call succeeds. -/
def succeeds (socket : Int) : Answers := ⟨some socket, true, true, true, true, true, .yes, true, true⟩

/-- A connection whose flags cannot be set, a server, a connection that is closed. -/
theorem lost_counted_flags : ∃ s : State,
    run step ⟨⟨[0, 1, 2], none⟩, [0, 1, 2]⟩ [.call .anetTcpNonBlockConnect { succeeds 3 with setfl := false },
      .call (.anetTcpServer false) (succeeds 4), .call .anetTcpConnect (succeeds 5), .close 5] = some s ∧
      s.net.opened.Nodup ∧ ∃ lost : List Int, s.net.opened.Perm (s.held ++ lost) ∧ lost.length = 1 := by
  refine ⟨_, rfl, lost_counted [0, 1, 2] (by decide) [.call .anetTcpNonBlockConnect { succeeds 3 with setfl := false },
    .call (.anetTcpServer false) (succeeds 4), .call .anetTcpConnect (succeeds 5), .close 5] _ ?_ rfl⟩
  have fresh : ∀ {opened : List Int} {fd : Int}, 0 ≤ fd ∧ fd ∉ opened →
      ∀ other, some fd = some other → 0 ≤ other ∧ other ∉ opened := by
    rintro opened fd free _ ⟨⟩
    exact free
  exact each_cons (fresh (by decide)) rfl <| each_cons (fresh (by decide)) rfl <| each_cons (fresh (by decide)) rfl <|
    each_cons trivial rfl trivial

end TcpLearn.Sockets
