import Mathlib

/-!
# Addresses as text

The functions of `platform_linux.c` for an address and a port in one text, such as
`127.0.0.1:1234`. `su_string_to_addr` copies characters up to a `:` into a buffer of
`IP_SIZE`, `su_addrstr_to_iport` cuts the text at its last `:`. The loop of the first
compares the pointer with `'\0'` where it means the character, so only a `:` or the end
of the buffer stops it, and a text that has neither is read past its end
(`reads_text_iff`). What `su_addr_to_iport` says of an address, written with a `:`
between, both read back (`address_restored`).
-/
namespace TcpLearn.Addresses

/-! ## The C library -/

def NUL : Char := Char.ofNat 0

/-- The string at the beginning of an array of characters. -/
def cstring (mem : List Char) : List Char := mem.takeWhile (· ≠ NUL)

def isspace (c : Char) : Bool := c = ' ' ∨ (9 ≤ c.toNat ∧ c.toNat ≤ 13)

def digits (s : List Char) : Nat := Nat.ofDigitChars 10 (s.takeWhile Char.isDigit) 0

/-- The number as it is written; numbers outside `int` are not cut. -/
def atoi (s : List Char) : Int :=
  match s.dropWhile isspace with
  | '-' :: rest => -(digits rest)
  | '+' :: rest => digits rest
  | rest => digits rest

/-- What stands before the last `c` of a string, and what stands after it. -/
def strrchr (c : Char) : List Char → Option (List Char × List Char)
  | [] => none
  | x :: rest =>
    match strrchr c rest with
    | some (front, back) => some (x :: front, back)
    | none => if x = c then some ([], rest) else none

/-- The bytes of `s_addr` lie in memory from the least significant on. -/
def inet_ntop (s_addr : UInt32) : List Char :=
  let octet (k : Nat) := Nat.toDigits 10 (s_addr.toNat / 256 ^ k % 256)
  octet 0 ++ '.' :: octet 1 ++ '.' :: octet 2 ++ '.' :: octet 3

def htons (port : UInt16) : UInt16 := UInt16.ofNat (port.toNat % 256 * 256 + port.toNat / 256)

def ntohs (port : UInt16) : UInt16 := htons port

/-! ## The code -/

def IP_SIZE : Nat := 32

def AF_INET : UInt16 := 2

structure su_addr where
  sin_family : UInt16
  sin_port : UInt16
  s_addr : UInt32
deriving DecidableEq, Repr

/-- The loop of `su_string_to_addr` from `pos` on, with `i` characters in `ip`: those it
    adds, and where it leaves `pos`. The array ends where the list does. -/
def copy_loop : List Char → Nat → Option (List Char × List Char)
  | [], _ => none
  | c :: pos, i => do
    let next ← pos.head?
    -- `pos != '\0'` holds of every pointer into an array
    if next ≠ ':' ∧ i + 1 < IP_SIZE - 1 then
      let (ip, pos) ← copy_loop pos (i + 1)
      some (c :: ip, pos)
    else some ([c], pos)

section
variable (inet_addr : List Char → UInt32)

def su_set_addr (ip : List Char) (port : UInt16) : su_addr := ⟨AF_INET, htons port, inet_addr ip⟩

def su_string_to_addr (str : List Char) : Option su_addr := do
  let (ip, pos) ← copy_loop str 0
  let pos := if pos.head? = some ':' then pos.tail else pos
  some (su_set_addr inet_addr (cstring ip) (UInt16.ofInt (atoi (cstring pos))))

end

/-- The text copied to `ip`, if any, and `*pport`. -/
def su_addrstr_to_iport (str : List Char) : Option (List Char) × Int :=
  match strrchr ':' (cstring str) with
  | some (ip, p) => (some ip, (UInt16.ofInt (atoi p)).toNat)
  | none => (none, -1)

def su_addr_to_iport (addr : su_addr) (len : Int) : Option (List Char × UInt16) :=
  if len < 24 then none else some (inet_ntop addr.s_addr, ntohs addr.sin_port)

/-! ## Where the loop stops -/

section
variable {mem ip pos front back text behind rest : List Char} {i : Nat} {c next : Char}

theorem copy_goes (goes : next ≠ ':' ∧ i + 1 < IP_SIZE - 1) :
    copy_loop (c :: next :: rest) i = (copy_loop (next :: rest) (i + 1)).map (Prod.map (c :: ·) id) := by
  rw [copy_loop, List.head?_cons]
  simp only [Option.bind_eq_bind, Option.bind_some, if_pos goes]
  cases copy_loop (next :: rest) (i + 1) <;> rfl

theorem copy_ends (ends : ¬(next ≠ ':' ∧ i + 1 < IP_SIZE - 1)) :
    copy_loop (c :: next :: rest) i = some ([c], next :: rest) := by
  rw [copy_loop, List.head?_cons]
  simp only [Option.bind_eq_bind, Option.bind_some, if_neg ends]

structure Copied (mem : List Char) (i : Nat) (ip pos : List Char) : Prop where
  parts : mem = ip ++ pos
  nonempty : ip ≠ []
  before : ':' ∉ ip.tail
  fits : i + ip.length ≤ IP_SIZE - 1

theorem copy_loop_spec (room : i < IP_SIZE - 1) (executed : copy_loop mem i = some (ip, pos)) : Copied mem i ip pos := by
  induction mem generalizing i ip pos with
  | nil => simp [copy_loop] at executed
  | cons c mem ih =>
    cases mem with
    | nil => simp [copy_loop] at executed
    | cons next rest =>
      by_cases goes : next ≠ ':' ∧ i + 1 < IP_SIZE - 1
      · rw [copy_goes goes, Option.map_eq_some_iff] at executed
        obtain ⟨⟨ip', pos'⟩, later, result⟩ := executed
        cases result
        obtain ⟨parts, copied, before, fits⟩ := ih goes.2 later
        obtain ⟨x, ip'', rfl⟩ := List.exists_cons_of_ne_nil copied
        have same : next = x := (List.cons.inj parts).1
        refine ⟨by rw [parts]; rfl, List.cons_ne_nil _ _, ?_, by simp only [List.length_cons] at fits ⊢; omega⟩
        rintro (_ | ⟨_, colon⟩)
        · exact goes.1 same
        · exact before colon
      · rw [copy_ends goes] at executed
        cases executed
        exact ⟨rfl, List.cons_ne_nil _ _, List.not_mem_nil, room⟩

/-- The first `:` after the first character ends the loop, if there is room up to it. -/
theorem copy_colon (nonempty : ip ≠ []) (before : ':' ∉ ip.tail) (fits : i + ip.length ≤ IP_SIZE - 1) :
    copy_loop (ip ++ ':' :: rest) i = some (ip, ':' :: rest) := by
  induction ip generalizing i with
  | nil => exact absurd rfl nonempty
  | cons c ip ih =>
    cases ip with
    | nil => exact copy_ends fun goes => goes.1 rfl
    | cons next ip =>
      rw [List.tail_cons, List.mem_cons, not_or] at before
      rw [List.length_cons, List.length_cons] at fits
      have goes : next ≠ ':' ∧ i + 1 < IP_SIZE - 1 := ⟨Ne.symm before.1, by omega⟩
      have later := @ih (i + 1) (List.cons_ne_nil _ _) before.2 (by rw [List.length_cons]; omega)
      simp only [List.cons_append] at later ⊢
      rw [copy_goes goes, later]
      rfl

/-- The loop stops in the text, whatever stands behind it. -/
theorem copy_inside (room : i < IP_SIZE - 1) (ends : ':' ∈ text.tail ∨ IP_SIZE - 1 ≤ i + text.length) :
    ∃ ip pos, ∀ behind, copy_loop (text ++ NUL :: behind) i = some (ip, pos ++ NUL :: behind) := by
  induction text generalizing i with
  | nil =>
    rcases ends with colon | full
    · exact absurd colon List.not_mem_nil
    · exact absurd room (Nat.not_lt_of_le full)
  | cons c text ih =>
    cases text with
    | nil =>
      have full : ¬i + 1 < IP_SIZE - 1 := by
        rcases ends with colon | full
        · exact absurd colon List.not_mem_nil
        · exact Nat.not_lt_of_le full
      exact ⟨[c], [], fun behind => copy_ends fun goes => full goes.2⟩
    | cons next rest =>
      by_cases goes : next ≠ ':' ∧ i + 1 < IP_SIZE - 1
      · obtain ⟨ip, pos, copied⟩ := @ih (i + 1) goes.2 (by
          rw [List.tail_cons, List.mem_cons, List.length_cons] at ends
          rcases ends with (same | colon) | full
          · exact absurd same.symm goes.1
          · exact .inl colon
          · exact .inr (by omega))
        refine ⟨c :: ip, pos, fun behind => ?_⟩
        rw [List.cons_append, List.cons_append, copy_goes goes]
        exact congrArg (Option.map (Prod.map (c :: ·) id)) (copied behind)
      · exact ⟨[c], next :: rest, fun behind => copy_ends goes⟩

/-- The loop reads past the terminator, the last character of the array. -/
theorem copy_outside (unended : ':' ∉ text.tail) (short : i + text.length < IP_SIZE - 1) :
    copy_loop (text ++ [NUL]) i = none := by
  induction text generalizing i with
  | nil => rfl
  | cons c text ih =>
    rw [List.length_cons] at short
    cases text with
    | nil => exact copy_goes ⟨by decide, short⟩
    | cons next rest =>
      rw [List.tail_cons, List.mem_cons, not_or] at unended
      have later := @ih (i + 1) unended.2 (by omega)
      rw [List.cons_append] at later
      rw [List.cons_append, List.cons_append, copy_goes ⟨Ne.symm unended.1, by omega⟩, later]
      rfl

/-! ## What is read -/

theorem cstring_terminated (text behind : List Char) : cstring (text ++ NUL :: behind) = cstring text := by
  induction text with
  | nil => simp [cstring]
  | cons c text ih =>
    simp only [cstring, List.cons_append, List.takeWhile_cons] at ih ⊢
    rw [ih]

theorem cstring_text (ended : NUL ∉ text) : cstring text = text := by
  refine List.takeWhile_eq_self_iff.mpr fun c member => decide_eq_true ?_
  rintro rfl
  exact ended member

/-- `su_string_to_addr` reads its text and nothing behind it exactly if the text has a `:`
    after its first character or fills the buffer. Otherwise it reads past an array that
    ends with the text. -/
theorem reads_text_iff (inet_addr : List Char → UInt32) (text : List Char) :
    ((∃ addr, ∀ behind, su_string_to_addr inet_addr (text ++ NUL :: behind) = some addr) ↔
        ':' ∈ text.tail ∨ IP_SIZE - 1 ≤ text.length) ∧
      (¬ (':' ∈ text.tail ∨ IP_SIZE - 1 ≤ text.length) → su_string_to_addr inet_addr (text ++ [NUL]) = none) := by
  have outside : ¬ (':' ∈ text.tail ∨ IP_SIZE - 1 ≤ text.length) → su_string_to_addr inet_addr (text ++ [NUL]) = none := by
    intro unended
    rw [not_or, Nat.not_le] at unended
    rw [su_string_to_addr, copy_outside unended.1 (by omega)]
    rfl
  refine ⟨⟨?_, ?_⟩, outside⟩
  · rintro ⟨addr, reads⟩
    by_contra unended
    exact absurd ((outside unended).symm.trans (reads [])) nofun
  · intro ends
    obtain ⟨ip, pos, copied⟩ := copy_inside (i := 0) (by decide) (by simpa using ends)
    let port := UInt16.ofInt (atoi (cstring (if pos.head? = some ':' then pos.tail else pos)))
    refine ⟨su_set_addr inet_addr (cstring ip) port, fun behind => ?_⟩
    have read : cstring (if (pos ++ NUL :: behind).head? = some ':' then (pos ++ NUL :: behind).tail
        else pos ++ NUL :: behind) = cstring (if pos.head? = some ':' then pos.tail else pos) := by
      cases pos with
      | nil => simp [cstring, NUL]
      | cons c pos =>
        by_cases colon : c = ':'
        · simp only [List.cons_append, List.head?_cons, List.tail_cons, colon, ↓reduceIte]
          exact cstring_terminated pos behind
        · simp only [List.cons_append, List.head?_cons, Option.some.injEq, colon, ↓reduceIte]
          exact cstring_terminated (c :: pos) behind
    simp only [su_string_to_addr, copied, Option.bind_eq_bind, Option.bind_some, read, port]

theorem strrchr_eq_some {c : Char} (cut : strrchr c text = some (front, back)) : text = front ++ c :: back := by
  induction text generalizing front back with
  | nil => simp [strrchr] at cut
  | cons x rest ih =>
    rw [strrchr] at cut
    split at cut
    · rename_i later
      cases cut
      rw [ih later]
      rfl
    · split_ifs at cut with same
      cases cut
      rw [same]
      rfl

theorem strrchr_none {c : Char} (absent : c ∉ text) : strrchr c text = none := by
  induction text with
  | nil => rfl
  | cons x rest ih =>
    rw [List.mem_cons, not_or] at absent
    rw [strrchr, ih absent.2]
    exact if_neg (Ne.symm absent.1)

theorem strrchr_last {c : Char} (absent : c ∉ back) : strrchr c (front ++ c :: back) = some (front, back) := by
  induction front with
  | nil =>
    rw [List.nil_append, strrchr, strrchr_none absent]
    exact if_pos rfl
  | cons x rest ih => rw [List.cons_append, strrchr, ih]

/-- The address that the text before a `:` and the number after it make. -/
theorem string_to_addr_colon (inet_addr : List Char → UInt32) (nonempty : ip ≠ []) (before : ':' ∉ ip.tail)
    (fits : ip.length ≤ IP_SIZE - 1) : su_string_to_addr inet_addr (ip ++ ':' :: rest) =
      some (su_set_addr inet_addr (cstring ip) (UInt16.ofInt (atoi (cstring rest)))) := by
  have copied : copy_loop (ip ++ ':' :: rest) 0 = some (ip, ':' :: rest) := copy_colon nonempty before (by omega)
  simp only [su_string_to_addr, copied, Option.bind_eq_bind, Option.bind_some, List.head?_cons, List.tail_cons, ↓reduceIte]

/-- What an address is made of where the loop has stopped. -/
theorem string_to_addr_copied {inet_addr : List Char → UInt32} {addr : su_addr}
    (executed : su_string_to_addr inet_addr mem = some addr) :
    ∃ ip pos, Copied mem 0 ip pos ∧ addr.s_addr = inet_addr (cstring ip) := by
  obtain ⟨⟨ip, pos⟩, copied, result⟩ := Option.bind_eq_some_iff.mp executed
  cases result
  exact ⟨ip, pos, copy_loop_spec (by decide) copied, rfl⟩

theorem iport_eq {port : Int} (cut : su_addrstr_to_iport mem = (some ip, port)) :
    ∃ back, cstring mem = ip ++ ':' :: back ∧ port = (UInt16.ofInt (atoi back)).toNat := by
  rw [su_addrstr_to_iport] at cut
  split at cut
  · rename_i back found
    cases cut
    exact ⟨back, strrchr_eq_some found, rfl⟩
  · cases cut

theorem ofInt_toNat (port : UInt16) : UInt16.ofInt port.toNat = port := by
  have small := port.toNat_lt
  apply UInt16.toNat_inj.mp
  simp only [UInt16.ofInt, UInt16.toNat_ofNat']
  omega

/-- The two functions take a text apart in the same way exactly if the last `:` is the
    first one after the first character and the buffer holds what is before it. -/
theorem cuts_agree_iff (text behind ip : List Char) (port : Int) (ended : NUL ∉ text)
    (cut : su_addrstr_to_iport (text ++ NUL :: behind) = (some ip, port)) :
    (∀ inet_addr, su_string_to_addr inet_addr (text ++ NUL :: behind) =
        some (su_set_addr inet_addr ip (UInt16.ofInt port))) ↔
      ip ≠ [] ∧ ':' ∉ ip.tail ∧ ip.length ≤ IP_SIZE - 1 := by
  obtain ⟨back, parts, rfl⟩ := iport_eq cut
  rw [cstring_terminated, cstring_text ended] at parts
  subst parts
  rw [List.mem_append, List.mem_cons, not_or, not_or] at ended
  constructor
  · intro agree
    obtain ⟨ip', pos, copied, read⟩ := string_to_addr_copied (agree fun s => if s = ip then 1 else 0)
    have same : cstring ip' = ip := by
      by_contra other
      rw [if_neg other, su_set_addr, if_pos rfl] at read
      exact absurd (show (1 : UInt32) = 0 from read) (by decide)
    have first : cstring ip' <+: ip' := List.takeWhile_prefix _
    rw [same] at first
    have fits := copied.fits
    refine ⟨?_, fun colon => copied.before (first.sublist.tail.subset colon), first.length_le.trans (by omega)⟩
    rintro rfl
    obtain ⟨x, rest, rfl⟩ := List.exists_cons_of_ne_nil copied.nonempty
    have colon : ':' = x := (List.cons.inj copied.parts).1
    subst colon
    exact absurd same (by simp [cstring, NUL])
  · rintro ⟨nonempty, before, fits⟩ inet_addr
    rw [List.append_assoc, List.cons_append, string_to_addr_colon inet_addr nonempty before fits, cstring_terminated,
      cstring_text ended.1, cstring_text ended.2.2, ofInt_toNat]

theorem cuts_agree_iff_loopback :
    (∀ inet_addr, su_string_to_addr inet_addr ("127.0.0.1:80".toList ++ [NUL]) =
        some (su_set_addr inet_addr "127.0.0.1".toList (UInt16.ofInt 80))) ↔
      "127.0.0.1".toList ≠ [] ∧ ':' ∉ "127.0.0.1".toList.tail ∧ "127.0.0.1".toList.length ≤ IP_SIZE - 1 :=
  cuts_agree_iff "127.0.0.1:80".toList [] "127.0.0.1".toList 80 (by decide) (by decide)

/-! ## An address written and read -/

theorem toDigits_text (n : Nat) : NUL ∉ Nat.toDigits 10 n ∧ ':' ∉ Nat.toDigits 10 n := by
  constructor <;> intro member <;>
    exact absurd (Nat.isDigit_of_mem_toDigits (by decide) (by decide) member) (by decide)

theorem toDigits_short (n : Nat) : (Nat.toDigits 10 (n % 256)).length ≤ 3 :=
  (Nat.length_toDigits_le_iff (by decide) (by decide)).mpr (by omega)

theorem ntop_text (s_addr : UInt32) :
    NUL ∉ inet_ntop s_addr ∧ ':' ∉ inet_ntop s_addr ∧ inet_ntop s_addr ≠ [] ∧ (inet_ntop s_addr).length ≤ IP_SIZE - 1 := by
  refine ⟨?_, ?_, ?_, ?_⟩
  · simp only [inet_ntop, List.mem_append, List.mem_cons, not_or]
    simp [(toDigits_text _).1, show NUL ≠ '.' by decide]
  · simp [inet_ntop, (toDigits_text _).2]
  · simp [inet_ntop]
  · have first := toDigits_short (s_addr.toNat / 256 ^ 0)
    have second := toDigits_short (s_addr.toNat / 256 ^ 1)
    have third := toDigits_short (s_addr.toNat / 256 ^ 2)
    have fourth := toDigits_short (s_addr.toNat / 256 ^ 3)
    simp only [inet_ntop, List.length_append, List.length_cons, IP_SIZE]
    omega

theorem atoi_toDigits (n : Nat) : atoi (Nat.toDigits 10 n) = n := by
  obtain ⟨c, rest, shape⟩ := List.exists_cons_of_ne_nil (Nat.toDigits_ne_nil (n := n) (b := 10))
  have all : ∀ x ∈ Nat.toDigits 10 n, x.isDigit = true := fun x member =>
    Nat.isDigit_of_mem_toDigits (by decide) (by decide) member
  have value : digits (Nat.toDigits 10 n) = n := by
    rw [digits, List.takeWhile_eq_self_iff.mpr all]
    exact Nat.ofDigitChars_ten_toDigits
  have digit : c.isDigit = true := all c (by rw [shape]; exact List.mem_cons_self)
  have printed : isspace c = false := by
    have low : 48 ≤ c.toNat := (Char.isDigit_iff_toNat.mp digit).1
    have blank : c ≠ ' ' := by
      rintro rfl
      exact absurd low (by decide)
    simp [isspace, blank]
    omega
  rw [atoi, shape, List.dropWhile_cons_of_neg (by simp [printed])]
  rw [shape] at value
  split
  · rename_i same
    cases same
    exact absurd digit (by decide)
  · rename_i same
    cases same
    exact absurd digit (by decide)
  · rw [value]

theorem htons_htons (port : UInt16) : htons (htons port) = port := by
  have small := port.toNat_lt
  have swapped : port.toNat % 256 * 256 + port.toNat / 256 < 2 ^ 16 := by omega
  have low : (port.toNat % 256 * 256 + port.toNat / 256) % 256 = port.toNat / 256 := by omega
  have high : (port.toNat % 256 * 256 + port.toNat / 256) / 256 = port.toNat % 256 := by omega
  apply UInt16.toNat_inj.mp
  simp only [htons, UInt16.toNat_ofNat', Nat.mod_eq_of_lt swapped, low, high, Nat.div_add_mod', Nat.mod_eq_of_lt small]

/-- What `su_addr_to_iport` says of an address, written with a `:` between, gives the
    address back and its two parts. -/
theorem address_restored (inet_addr : List Char → UInt32) (addr : su_addr) (len : Int) (ip : List Char) (port : UInt16)
    (behind : List Char) (family : addr.sin_family = AF_INET)
    (parsed : inet_addr (inet_ntop addr.s_addr) = addr.s_addr) (shown : su_addr_to_iport addr len = some (ip, port)) :
    su_string_to_addr inet_addr (ip ++ ':' :: (Nat.toDigits 10 port.toNat ++ NUL :: behind)) = some addr ∧
      su_addrstr_to_iport (ip ++ ':' :: (Nat.toDigits 10 port.toNat ++ NUL :: behind)) = (some ip, (port.toNat : Int)) := by
  obtain ⟨rfl, rfl⟩ : inet_ntop addr.s_addr = ip ∧ ntohs addr.sin_port = port := by
    rw [su_addr_to_iport] at shown
    split_ifs at shown
    simpa using shown
  obtain ⟨ended, colons, nonempty, fits⟩ := ntop_text addr.s_addr
  obtain ⟨ended', colons'⟩ := toDigits_text (ntohs addr.sin_port).toNat
  constructor
  · rw [string_to_addr_colon inet_addr nonempty (fun colon => colons (List.mem_of_mem_tail colon)) fits,
      cstring_terminated, cstring_text ended, cstring_text ended', atoi_toDigits, ofInt_toNat, su_set_addr, parsed, ntohs,
      htons_htons, ← family]
  · have whole : NUL ∉ inet_ntop addr.s_addr ++ ':' :: Nat.toDigits 10 (ntohs addr.sin_port).toNat := by
      simp [ended, ended', show NUL ≠ ':' by decide]
    have text := cstring_terminated (inet_ntop addr.s_addr ++ ':' :: Nat.toDigits 10 (ntohs addr.sin_port).toNat) behind
    rw [List.append_assoc, List.cons_append, cstring_text whole] at text
    simp only [su_addrstr_to_iport, text, strrchr_last colons', atoi_toDigits, ofInt_toNat]

/-- `127.0.0.1`, port 80. -/
def loopback : su_addr := ⟨AF_INET, htons 80, 16777343⟩

theorem address_restored_loopback :
    let inet_addr := fun s : List Char => if s = "127.0.0.1".toList then (16777343 : UInt32) else 4294967295
    su_string_to_addr inet_addr ("127.0.0.1".toList ++ ':' :: (Nat.toDigits 10 80 ++ NUL :: [])) = some loopback ∧
      su_addrstr_to_iport ("127.0.0.1".toList ++ ':' :: (Nat.toDigits 10 80 ++ NUL :: [])) =
        (some "127.0.0.1".toList, (80 : Int)) :=
  address_restored _ loopback 24 "127.0.0.1".toList 80 [] rfl (by decide) (by decide)

end

end TcpLearn.Addresses
