import MikaBoo.Model.Types
import MikaBoo.Library.Output

/-!
# Formatted output

`syslib.c`: `tprintf` and the functions it calls.

## Implementation notes

A C string is the list of its characters up to the terminator; a NUL character in
the list terminates it too. The machine's `tprint` writes the characters of a
string. Signed integers wrap around, and the operands of `+` are evaluated from
left to right. The counts are integers: a string of more than `INT_MAX` characters
does not fit into the memory of the machine.
-/

namespace MikaBoo

/-- A character. -/
abbrev Byte := BitVec 8

/-- The character constant `c`. -/
def chr (c : Char) : Byte := BitVec.ofNat 8 c.toNat

/-- A string constant. -/
def str (s : List Char) : List Byte := s.map chr

/-- A character as an `int`. -/
def Byte.toInt (c : Byte) : Word := c.setWidth 32

/-- A computation that prints characters. -/
abbrev Print := Output Byte

/-- `*s`. -/
def deref : List Byte → Byte
  | [] => 0
  | c :: _ => c

/-- `tprint`. -/
def tprint (s : List Byte) : Print Unit := .write (s.takeWhile (· ≠ 0))

/-- `putchar`. -/
def putchar (c : Word) : Print Word := do
  tprint [c.setWidth 8, 0]
  return c

/-- `putcx`. -/
def putcx (c : Word) : Print Int := do
  if c ≠ 0 then
    let _ ← putchar c
    return 1
  else
    return 0

/-- The table `backchar`. -/
def backchar (i : Byte) : Byte :=
  if i = chr 'a' then 7
  else if i = chr 'b' then 8
  else if i = chr 'f' then 12
  else if i = chr 'n' then 10
  else if i = chr 'r' then 13
  else if i = chr 't' then 9
  else if i = chr 'v' then 11
  else if i = chr '\\' then chr '\\'
  else if i = chr '\'' then chr '\''
  else if i = chr '"' then chr '"'
  else if i = chr '?' then chr '?'
  else 0

/-- `put_backslash`. -/
def putBackslash (escapeChar : Byte) : Print Int := putcx (backchar (escapeChar &&& 0x7f)).toInt

/-! ## Numbers -/

theorem toInt_sdiv_ten (val : Word) : (val.sdiv 10).toInt = val.toInt.tdiv 10 :=
  BitVec.toInt_sdiv_of_ne_or_ne val 10 (Or.inr (by decide))

theorem natAbs_sdiv_lt {val : Word} (h : val ≠ 0) :
    (val.sdiv 10).toInt.natAbs < val.toInt.natAbs := by
  have hpos : val.toInt.natAbs ≠ 0 := fun h0 =>
    h (BitVec.eq_of_toInt_eq (Int.natAbs_eq_zero.mp h0))
  rw [toInt_sdiv_ten, Int.natAbs_tdiv]
  exact Nat.div_lt_self (Nat.pos_of_ne_zero hpos) (by decide)

/-- `rvrp_int`. -/
def rvrpInt (val : Word) : Print Int :=
  if val = 0 then return 0
  else return (← rvrpInt (val.sdiv 10)) + (← putcx ((chr '0').toInt + val.srem 10))
termination_by val.toInt.natAbs
decreasing_by exact natAbs_sdiv_lt ‹_›

/-- `vrp_int`. -/
def vrpInt (val : Word) : Print Int := do
  if val ≠ 0 then
    if val.slt 0 then return (← putcx (chr '-').toInt) + (← rvrpInt (-val))
    else rvrpInt val
  else putcx (chr '0').toInt

/-- `hex_cx`. -/
def hexCx (n : Word) : Byte :=
  (if n.slt 10 then (chr '0').toInt + n else (chr 'a').toInt + n.srem 10).setWidth 8

/-- The loop of `rvrp_pointer`, from `i` on. -/
def padZeros (i : Nat) : Print Unit := do
  if i < 8 then
    let _ ← putcx (chr '0').toInt
    padZeros (i + 1)
termination_by 8 - i

/-- `rvrp_pointer`. -/
def rvrpPointer (p : Word) (dept : Nat) : Print Int :=
  if p = 0 then do
    padZeros dept
    return 8 - dept
  else return (← rvrpPointer (p / 16) (dept + 1)) + (← putcx (hexCx (p % 16)).toInt)
termination_by p.toNat
decreasing_by
  rename_i hp
  rw [BitVec.toNat_udiv]
  exact Nat.div_lt_self (Nat.pos_of_ne_zero fun h0 => hp (BitVec.eq_of_toNat_eq h0)) (by decide)

/-! ## Strings -/

/-- `vrp_string`. -/
def vrpString : List Byte → Print Int
  | [] => return 0
  | c :: s => do
      if c = 0 then return 0
      else if c = chr '\\' then
        if (← putBackslash (deref s)) ≠ 0 then return (← vrpString s.tail) + 1 else return 0
      else return (← putcx c.toInt) + (← vrpString s)
termination_by s => s.length

/-! ## Formats -/

/-- An argument of `tprintf`. -/
inductive Arg
  | int (val : Word)
  | string (s : List Byte)
  | pointer (p : Word)

/-- A bound for the recursion over a format: a conversion may print a constant
format without conversions. -/
def weight (format : List Byte) : Nat := format.length + 10 * format.count (chr '%')

theorem weight_tail_le (format : List Byte) : weight format.tail ≤ weight format := by
  cases format with
  | nil => rfl
  | cons c format =>
      have hcount := List.count_le_count_cons (a := chr '%') (b := c) (l := format)
      simp only [weight, List.tail_cons, List.length_cons]
      omega

mutual

/-- `vrp_pointer`. -/
def vrpPointer (p : Word) : Print Int := do
  if p ≠ 0 then return (← tprintf (str ['0', 'x']) []) + (← rvrpPointer p 0)
  else tprintf (str ['(', 'n', 'u', 'l', 'l', ')']) []
termination_by 8
decreasing_by all_goals decide

/-- `vrp_percent`. The behaviour of `va_arg` is undefined for an argument of another type. -/
def vrpPercent (format : List Byte) (ap : List Arg) : Print Int :=
  match format with
  | [] => return 0
  | c :: format => do
      if c = 0 then return 0
      else if c = chr '%' then return (← putcx c.toInt) + (← vrprintf format ap)
      else if c = chr 'd' then
        match ap with
        | .int val :: ap => return (← vrpInt val) + (← vrprintf format ap)
        | _ => .undefined
      else if c = chr 's' then
        match ap with
        | .string s :: ap => return (← vrpString s) + (← vrprintf format ap)
        | _ => .undefined
      else if c = chr 'p' then
        match ap with
        | .pointer p :: ap => return (← vrpPointer p) + (← vrprintf format ap)
        | _ => .undefined
      else
        tprint (str ['E', 'R', 'R', 'O', 'R', '\n'])
        return 0
termination_by weight format + 10
decreasing_by all_goals simp only [weight, List.length_cons, List.count_cons]; omega

/-- `vrprintf`. -/
def vrprintf (format : List Byte) (ap : List Arg) : Print Int :=
  match format with
  | [] => return 0
  | c :: format => do
      if c = 0 then return 0
      else if c = chr '%' then vrpPercent format ap
      else if c = chr '\\' then
        if (← putBackslash (deref format)) ≠ 0 then return (← vrprintf format.tail ap) + 1
        else return 0
      else return (← putcx c.toInt) + (← vrprintf format ap)
termination_by weight format
decreasing_by
  · simp [weight, *]
    omega
  · have htail := weight_tail_le format
    simp only [weight, List.length_cons, List.count_cons] at htail ⊢
    omega
  · simp only [weight, List.length_cons, List.count_cons]
    omega

/-- `tprintf`. -/
def tprintf (format : List Byte) (args : List Arg) : Print Int := vrprintf format args
termination_by weight format + 1

end

end MikaBoo
