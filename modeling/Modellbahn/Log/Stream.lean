import Modellbahn.Foundation.Machine
import Modellbahn.Foundation.PrefixCode
import Modellbahn.Log.Printf

/-!
# The streams of the log

The loggers of `board.cpp` are streams (`IOStream` of `io/iostream.hpp`) to one device. A stream
writes texts and ends of lines to the device, and integers through `print_integer` and a gadget of
its own, which it keeps for its whole life: `pos` is never set back. So a stream drops the
characters of integers once it has written `INT_MAX` of them, until the counter has wrapped around.

The firmware logs texts, ends of lines and integers of the types `uint8_t`, `int32_t` and
`uint32_t`, with the streams in the mode for text.

## Main definitions

* `Modellbahn.Gadget.writeSigned`, `Modellbahn.Gadget.writeUnsigned`: `writeInteger`.
* `Modellbahn.Loggers.step`: one operand of a log statement.
* `Modellbahn.Loggers.delivered`: what arrives of the operands.
* `Modellbahn.LogEntry`: the log statements of `simulation.cpp` and `main.cpp`.

## Main results

* `Modellbahn.log_numbers`: what arrives; it is everything exactly if no stream has had more than
  `INT_MAX` characters of integers.
* `Modellbahn.entries_of_out`: the statements can be read back from the text.
-/

namespace Modellbahn

/-! ### Decimal numbers -/

/-- The characters of a string. -/
def charCodes (s : String) : List Byte := s.toList.map charCode

/-- The decimal representation of a natural number. -/
def decimal (n : ℕ) : List Byte :=
  (if n = 0 then [0] else Nat.digits 10 n).reverse.map fun d => charCode '0' + BitVec.ofNat 8 d

/-- The decimal representation of an integer. -/
def numeral (v : ℤ) : List Byte := (if v < 0 then [charCode '-'] else []) ++ decimal v.natAbs

/-- A character of a decimal representation. -/
def isNumeralChar (c : Byte) : Bool := c = charCode '-' ∨ charCode '0' ≤ c ∧ c ≤ charCode '9'

theorem digit_lt {n d : ℕ} (h : d ∈ if n = 0 then [0] else Nat.digits 10 n) : d < 10 := by
  split_ifs at h
  · rw [List.mem_singleton] at h
    omega
  · exact Nat.digits_lt_base (by decide) h

theorem toNat_digit {d : ℕ} (h : d < 10) : (charCode '0' + BitVec.ofNat 8 d).toNat = 48 + d := by
  rw [BitVec.toNat_add, BitVec.toNat_ofNat]
  change (48 + d % 2 ^ 8) % 2 ^ 8 = 48 + d
  omega

theorem mem_decimal {n : ℕ} {c : Byte} (h : c ∈ decimal n) : 48 ≤ c.toNat ∧ c.toNat ≤ 57 := by
  obtain ⟨d, hd, rfl⟩ := List.mem_map.mp h
  have hlt := digit_lt (List.mem_reverse.mp hd)
  rw [toNat_digit hlt]
  omega

/-- The value of a decimal representation. -/
def decimalValue (cs : List Byte) : ℕ := Nat.ofDigits 10 (cs.reverse.map fun c => c.toNat - 48)

theorem decimalValue_decimal (n : ℕ) : decimalValue (decimal n) = n := by
  have hmap : ((decimal n).reverse.map fun c => c.toNat - 48) =
      if n = 0 then [0] else Nat.digits 10 n := by
    rw [decimal, ← List.map_reverse, List.reverse_reverse, List.map_map]
    refine (List.map_congr_left fun d hd => ?_).trans (List.map_id _)
    rw [Function.comp_apply, toNat_digit (digit_lt hd), Nat.add_sub_cancel_left, id]
  rw [decimalValue, hmap]
  split_ifs with hn
  · rw [hn]
    rfl
  · exact Nat.ofDigits_digits 10 n

theorem decimal_injective : Function.Injective decimal :=
  Function.LeftInverse.injective decimalValue_decimal

theorem minus_notMem_decimal (n : ℕ) : charCode '-' ∉ decimal n := fun h =>
  absurd (mem_decimal h).1 (by decide)

theorem numeral_injective : Function.Injective numeral := by
  intro v w h
  rw [numeral, numeral] at h
  split_ifs at h with hv hw hw
  · have := decimal_injective (List.append_cancel_left h)
    omega
  · have hmem : charCode '-' ∈ decimal w.natAbs := by
      rw [List.nil_append] at h
      exact h ▸ List.mem_append_left _ (List.mem_singleton_self _)
    exact absurd hmem (minus_notMem_decimal _)
  · have hmem : charCode '-' ∈ decimal v.natAbs := by
      rw [List.nil_append] at h
      exact h ▸ List.mem_append_left _ (List.mem_singleton_self _)
    exact absurd hmem (minus_notMem_decimal _)
  · have := decimal_injective (List.append_cancel_left h)
    omega

theorem isNumeralChar_of_mem {v : ℤ} {c : Byte} (h : c ∈ numeral v) : isNumeralChar c = true := by
  rw [isNumeralChar, decide_eq_true_iff]
  rcases List.mem_append.mp h with hsign | hdigit
  · left
    split_ifs at hsign
    · exact List.mem_singleton.mp hsign
    · cases hsign
  · obtain ⟨hmin, hmax⟩ := mem_decimal hdigit
    exact Or.inr ⟨hmin, hmax⟩

theorem ne_zero_of_mem_numeral {v : ℤ} {c : Byte} (h : c ∈ numeral v) : c ≠ 0 := by
  rintro rfl
  exact absurd (isNumeralChar_of_mem h) (by decide)

/-! ### Integers on a stream -/

def INT_MAX : BitVec 32 := 2147483647

namespace Gadget

/-- `output_gadget` of a new stream. -/
def initial : Gadget := ⟨0, INT_MAX⟩

variable {w : ℕ}

/-- `writeInteger` for a signed type. -/
def writeSigned (flags : BitVec 32) (g : Gadget) (value : BitVec w) :
    Except PrintStop (Gadget × List Byte) :=
  printInteger g ((if value.slt 0 then -value else value).setWidth 64) (value.slt 0) 10 0 0 flags

/-- `writeInteger` for an unsigned type. -/
def writeUnsigned (flags : BitVec 32) (g : Gadget) (value : BitVec w) :
    Except PrintStop (Gadget × List Byte) :=
  printInteger g (value.setWidth 64) false 10 0 0 flags

/-- `writeInteger(uint16_t)` -/
def writeUint16 (g : Gadget) (value : BitVec 16) : Except PrintStop (Gadget × List Byte) :=
  writeUnsigned FLAGS_SHORT g value

/-- `writeInteger(int32_t)` -/
def writeInt32 (g : Gadget) (value : BitVec 32) : Except PrintStop (Gadget × List Byte) :=
  writeSigned FLAGS_LONG g value

/-- `writeInteger(uint32_t)` -/
def writeUint32 (g : Gadget) (value : BitVec 32) : Except PrintStop (Gadget × List Byte) :=
  writeUnsigned FLAGS_LONG g value

end Gadget

theorem plainFlags_short : PlainFlags FLAGS_SHORT :=
  ⟨by decide, by decide, by decide, by decide, by decide, by decide⟩

theorem plainFlags_long : PlainFlags FLAGS_LONG :=
  ⟨by decide, by decide, by decide, by decide, by decide, by decide⟩

theorem length_digits_le {n : ℕ} (h : n < 2 ^ 64) : (Nat.digits 10 n).length ≤ 20 :=
  (Nat.digits_length_le_iff (by decide) n).mpr (Nat.lt_of_lt_of_le h (by decide))

theorem numberChars_ten {n : ℕ} (h : n < 2 ^ 64) (negative : Bool) (flags : BitVec 32) :
    numberChars 10 n negative flags = (if negative then [charCode '-'] else []) ++ decimal n := by
  have hlength := length_digits_le h
  have hdigits : numberDigits 10 n = if n = 0 then [0] else Nat.digits 10 n := by
    rw [numberDigits]
    split_ifs
    · rfl
    · exact List.take_of_length_le (Nat.le_trans hlength (by decide))
  have hroom : (numberDigits 10 n).length < integerBufferSize := by
    rw [hdigits]
    split_ifs
    · decide
    · exact Nat.lt_of_le_of_lt hlength (by decide)
  have hchars : ((numberDigits 10 n).map fun d => digitChar (BitVec.ofNat 8 d) flags) =
      (numberDigits 10 n).map fun d => charCode '0' + BitVec.ofNat 8 d := by
    refine List.map_congr_left fun d hd => ?_
    rw [hdigits] at hd
    have hlt := digit_lt hd
    rw [digitChar, if_pos]
    rw [BitVec.lt_def, BitVec.toNat_ofNat]
    change d % 2 ^ 8 < 10
    omega
  rw [numberChars, hchars, hdigits, decimal, List.map_reverse]
  simp only [hdigits ▸ hroom, and_true]

theorem printInteger_ten (g : Gadget) (value : BitVec 64) (negative : Bool) {flags : BitVec 32}
    (hflags : PlainFlags flags) :
    printInteger g value negative 10 0 0 flags =
      .ok (g.puts ((if negative then [charCode '-'] else []) ++ decimal value.toNat)) := by
  have hbase : 2 ≤ (10 : BitVec 8).toNat := by decide
  rw [printInteger_plain g value negative hbase hflags]
  exact congrArg (fun cs => Except.ok (g.puts cs)) (numberChars_ten value.isLt negative flags)

/-- **Integers** of at most 64 bits are printed in full. -/
theorem writeSigned_eq {w : ℕ} (hw : w ≤ 64) {flags : BitVec 32} (hflags : PlainFlags flags)
    (g : Gadget) (value : BitVec w) :
    g.writeSigned flags value = .ok (g.puts (numeral value.toInt)) := by
  have hslt : value.slt 0 = decide (value.toInt < 0) := by
    have hzero : (0 : BitVec w).toInt = 0 := BitVec.toInt_zero
    rw [BitVec.slt, hzero]
  have habs : ((if value.slt 0 then -value else value).setWidth 64).toNat = value.toInt.natAbs := by
    have hpow : 2 ^ w ≤ 2 ^ 64 := Nat.pow_le_pow_right (by decide) hw
    rw [BitVec.toNat_setWidth, Nat.mod_eq_of_lt (Nat.lt_of_lt_of_le (BitVec.isLt _) hpow), hslt]
    have hlt := value.isLt
    have htoInt := value.toInt_eq_toNat_cond
    split_ifs with h
    · rw [decide_eq_true_iff] at h
      rw [BitVec.toNat_neg]
      split_ifs at htoInt
      · omega
      · rw [Nat.mod_eq_of_lt] <;> omega
    · rw [decide_eq_true_iff] at h
      split_ifs at htoInt <;> omega
  rw [Gadget.writeSigned, printInteger_ten _ _ _ hflags, habs, hslt, numeral]
  simp only [decide_eq_true_iff]

theorem writeUnsigned_eq {w : ℕ} (hw : w ≤ 64) {flags : BitVec 32} (hflags : PlainFlags flags)
    (g : Gadget) (value : BitVec w) :
    g.writeUnsigned flags value = .ok (g.puts (numeral value.toNat)) := by
  have hpow : 2 ^ w ≤ 2 ^ 64 := Nat.pow_le_pow_right (by decide) hw
  rw [Gadget.writeUnsigned, printInteger_ten _ _ _ hflags, BitVec.toNat_setWidth,
    Nat.mod_eq_of_lt (Nat.lt_of_lt_of_le value.isLt hpow), numeral]
  rfl

/-! ### The counter of a stream -/

/-- Of the characters `cs` of integers, of which the first one is number `k` of its stream, those
that the gadget does not drop. -/
def shown : ℕ → List Byte → List Byte
  | _, [] => []
  | k, c :: cs => if k % 2 ^ 32 < INT_MAX.toNat then c :: shown (k + 1) cs else shown (k + 1) cs

theorem puts_eq_shown (k : ℕ) {cs : List Byte} (h : ∀ c ∈ cs, c ≠ 0) :
    (⟨BitVec.ofNat 32 k, INT_MAX⟩ : Gadget).puts cs =
      (⟨BitVec.ofNat 32 (k + cs.length), INT_MAX⟩, shown k cs) := by
  induction cs generalizing k with
  | nil => rfl
  | cons c cs ih =>
    have hc := h c List.mem_cons_self
    have hrest := ih (k + 1) fun c' hc' => h c' (List.mem_cons_of_mem _ hc')
    have hpos : BitVec.ofNat 32 k + 1 = BitVec.ofNat 32 (k + 1) := (BitVec.ofNat_add k 1).symm
    rw [Gadget.puts, Gadget.putchar, hpos, hrest, shown, List.length_cons, Nat.add_right_comm,
      Nat.add_assoc]
    simp only [BitVec.lt_def, BitVec.toNat_ofNat, hc, ne_eq, not_false_eq_true, and_true]
    split_ifs <;> rfl

theorem shown_sublist (k : ℕ) (cs : List Byte) : (shown k cs).Sublist cs := by
  induction cs generalizing k with
  | nil => exact List.Sublist.slnil
  | cons c cs ih =>
    rw [shown]
    split_ifs
    · exact (ih _).cons_cons c
    · exact (ih _).cons c

/-- **All characters are shown** exactly if none of them is number `INT_MAX` of its stream. -/
theorem shown_eq_self_iff {k : ℕ} (cs : List Byte) (hk : k ≤ INT_MAX.toNat) :
    shown k cs = cs ↔ k + cs.length ≤ INT_MAX.toNat := by
  have hmax : INT_MAX.toNat < 2 ^ 32 := INT_MAX.isLt
  induction cs generalizing k with
  | nil => exact ⟨fun _ => hk, fun _ => rfl⟩
  | cons c cs ih =>
    rw [shown, Nat.mod_eq_of_lt (Nat.lt_of_le_of_lt hk hmax), List.length_cons]
    split_ifs with hlt
    · have htail : shown (k + 1) cs = cs ↔ k + 1 + cs.length ≤ INT_MAX.toNat := ih hlt
      rw [List.cons.injEq, eq_self, true_and, htail]
      omega
    · have hlength := (shown_sublist (k + 1) cs).length_le
      constructor
      · intro heq
        have := congrArg List.length heq
        rw [List.length_cons] at this
        omega
      · omega

/-! ### Log statements -/

/-- An operand of `<<`. -/
inductive Operand
  | text (s : String)
  | uint8 (value : BitVec 8)
  | int32 (value : BitVec 32)
  | uint32 (value : BitVec 32)
  | endl
  deriving DecidableEq, Repr

namespace Operand

/-- The characters of an integer. -/
def digits : Operand → List Byte
  | .uint8 value => numeral value.toNat
  | .int32 value => numeral value.toInt
  | .uint32 value => numeral value.toNat
  | _ => []

/-- The characters of a text, up to a zero. -/
def cString (s : String) : List Byte := (charCodes s).takeWhile (· ≠ 0)

/-- What is meant to be written. -/
def chars : Operand → List Byte
  | .text s => cString s
  | .endl => [charCode '\n']
  | operand => operand.digits

end Operand

/-- The gadgets of the streams `info` and `error`, and what the device was given. -/
structure Loggers where
  info : Gadget
  error : Gadget
  out : List Byte
  deriving DecidableEq, Repr

namespace Loggers

def initial : Loggers := ⟨.initial, .initial, []⟩

/-- The gadget of a stream. -/
def gadget (l : Loggers) : LogLevel → Gadget
  | .info => l.info
  | .error => l.error

/-- What a stream has written through its gadget. -/
def wrote (l : Loggers) (level : LogLevel) (r : Gadget × List Byte) : Loggers :=
  match level with
  | .info => { l with info := r.1, out := l.out ++ r.2 }
  | .error => { l with error := r.1, out := l.out ++ r.2 }

/-- One operand. -/
def step (l : Loggers) (op : LogLevel × Operand) : Except PrintStop Loggers :=
  match op.2 with
  | .text s => .ok { l with out := l.out ++ Operand.cString s }
  | .endl => .ok { l with out := l.out ++ [charCode '\n'] }
  | .uint8 value => ((l.gadget op.1).writeUint16 (value.setWidth 16)).map (l.wrote op.1)
  | .int32 value => ((l.gadget op.1).writeInt32 value).map (l.wrote op.1)
  | .uint32 value => ((l.gadget op.1).writeUint32 value).map (l.wrote op.1)

@[simp] theorem gadget_wrote (l : Loggers) (level level' : LogLevel) (r : Gadget × List Byte) :
    (l.wrote level r).gadget level' = if level = level' then r.1 else l.gadget level' := by
  cases level <;> cases level' <;> rfl

@[simp] theorem out_wrote (l : Loggers) (level : LogLevel) (r : Gadget × List Byte) :
    (l.wrote level r).out = l.out ++ r.2 := by
  cases level <;> rfl

/-- The operands of all log statements so far. -/
def run (l : Loggers) (ops : List (LogLevel × Operand)) : Except PrintStop Loggers :=
  Machine.run step l ops

/-- The number of characters of integers of a stream. -/
def digitCount (level : LogLevel) (ops : List (LogLevel × Operand)) : ℕ :=
  (ops.map fun op => if op.1 = level then op.2.digits.length else 0).sum

/-- The text that is meant. -/
def text (ops : List (LogLevel × Operand)) : List Byte := ops.flatMap fun op => op.2.chars

/-- What arrives of an operand after the operands `before`: a text and the end of a line as a whole,
and of an integer the characters that the gadget of the stream does not drop. -/
def arrives (before : List (LogLevel × Operand)) (op : LogLevel × Operand) : List Byte :=
  match op.2 with
  | .text s => Operand.cString s
  | .endl => [charCode '\n']
  | operand => shown (digitCount op.1 before) operand.digits

/-- What arrives of the operands, after the operands `before`. -/
def delivered : (before ops : List (LogLevel × Operand)) → List Byte
  | _, [] => []
  | before, op :: ops => arrives before op ++ delivered (before ++ [op]) ops

theorem digitCount_concat (level : LogLevel) (ops : List (LogLevel × Operand))
    (op : LogLevel × Operand) : digitCount level (ops ++ [op]) =
      digitCount level ops + if op.1 = level then op.2.digits.length else 0 := by
  simp [digitCount]

theorem text_concat (ops : List (LogLevel × Operand)) (op : LogLevel × Operand) :
    text (ops ++ [op]) = text ops ++ op.2.chars := by
  simp [text]

theorem delivered_concat (before ops : List (LogLevel × Operand)) (op : LogLevel × Operand) :
    delivered before (ops ++ [op]) = delivered before ops ++ arrives (before ++ ops) op := by
  induction ops generalizing before with
  | nil => simp [delivered]
  | cons op' ops ih =>
    rw [List.cons_append, delivered, delivered, ih, List.append_assoc, List.append_assoc,
      List.singleton_append]

theorem arrives_sublist (before : List (LogLevel × Operand)) (op : LogLevel × Operand) :
    (arrives before op).Sublist op.2.chars := by
  obtain ⟨level, operand⟩ := op
  cases operand with
  | text s => exact List.Sublist.refl _
  | endl => exact List.Sublist.refl _
  | _ => exact shown_sublist _ _

/-- An operand arrives as a whole, as long as the stream has not had too many characters of
integers. -/
theorem arrives_eq_iff {before : List (LogLevel × Operand)} (op : LogLevel × Operand)
    (h : digitCount op.1 before ≤ INT_MAX.toNat) :
    arrives before op = op.2.chars ↔ digitCount op.1 (before ++ [op]) ≤ INT_MAX.toNat := by
  obtain ⟨level, operand⟩ := op
  rw [digitCount_concat, if_pos rfl]
  cases operand with
  | text s => exact iff_of_true rfl h
  | endl => exact iff_of_true rfl h
  | _ => exact shown_eq_self_iff _ h

theorem delivered_sublist (ops : List (LogLevel × Operand)) :
    (delivered [] ops).Sublist (text ops) := by
  induction ops using List.reverseRecOn with
  | nil => exact List.Sublist.slnil
  | append_singleton ops op ih =>
    rw [delivered_concat, text_concat]
    exact ih.append (arrives_sublist ops op)

/-- **Everything arrives** exactly if no stream has had too many characters of integers. -/
theorem delivered_eq_text_iff (ops : List (LogLevel × Operand)) :
    delivered [] ops = text ops ↔ ∀ level, digitCount level ops ≤ INT_MAX.toNat := by
  induction ops using List.reverseRecOn with
  | nil => exact ⟨fun _ _ => Nat.zero_le _, fun _ => rfl⟩
  | append_singleton ops op ih =>
    have hsublist := delivered_sublist ops
    have hlast := arrives_sublist ops op
    have hboth : delivered [] ops ++ arrives ops op = text ops ++ op.2.chars ↔
        delivered [] ops = text ops ∧ arrives ops op = op.2.chars := by
      constructor
      · intro heq
        have hle := hsublist.length_le
        have hle' := hlast.length_le
        have hlength := congrArg List.length heq
        rw [List.length_append, List.length_append] at hlength
        exact ⟨hsublist.eq_of_length (by omega), hlast.eq_of_length (by omega)⟩
      · rintro ⟨hout, hop⟩
        rw [hout, hop]
    rw [delivered_concat, text_concat, List.nil_append, hboth, ih]
    constructor
    · rintro ⟨hcount, hop⟩ level
      by_cases hlevel : op.1 = level
      · exact hlevel ▸ (arrives_eq_iff op (hcount op.1)).mp hop
      · rw [digitCount_concat, if_neg hlevel]
        exact hcount level
    · intro hcount
      have hbefore : ∀ level, digitCount level ops ≤ INT_MAX.toNat := fun level =>
        Nat.le_trans (by rw [digitCount_concat]; exact Nat.le_add_right _ _) (hcount level)
      exact ⟨hbefore, (arrives_eq_iff op (hbefore op.1)).mpr (hcount op.1)⟩

/-- **The invariant**, after the operands `ops`. -/
structure Counted (ops : List (LogLevel × Operand)) (l : Loggers) : Prop where
  gadget_eq : ∀ level, l.gadget level = ⟨BitVec.ofNat 32 (digitCount level ops), INT_MAX⟩
  out_eq : l.out = delivered [] ops

theorem Counted.of_plain {ops : List (LogLevel × Operand)} {l : Loggers} (h : Counted ops l)
    (op : LogLevel × Operand) (hdigits : op.2.digits = [])
    (harrives : arrives ops op = op.2.chars) :
    Counted (ops ++ [op]) { l with out := l.out ++ op.2.chars } := by
  refine ⟨fun level => ?_, ?_⟩
  · rw [digitCount_concat, hdigits, List.length_nil, ite_self, Nat.add_zero, ← h.gadget_eq level]
    cases level <;> rfl
  · rw [delivered_concat, List.nil_append, harrives, h.out_eq]

theorem Counted.of_digits {ops : List (LogLevel × Operand)} {l : Loggers} (h : Counted ops l)
    (op : LogLevel × Operand)
    (harrives : arrives ops op = shown (digitCount op.1 ops) op.2.digits) :
    Counted (ops ++ [op]) (l.wrote op.1
      (⟨BitVec.ofNat 32 (digitCount op.1 ops + op.2.digits.length), INT_MAX⟩,
        shown (digitCount op.1 ops) op.2.digits)) := by
  refine ⟨fun level => ?_, ?_⟩
  · rw [gadget_wrote, digitCount_concat]
    split_ifs with hlevel
    · rw [hlevel]
    · exact h.gadget_eq level
  · rw [out_wrote, delivered_concat, List.nil_append, harrives, h.out_eq]

theorem Counted.initial : Counted [] Loggers.initial := by
  refine ⟨fun level => ?_, rfl⟩
  cases level <;> rfl

theorem Counted.exists_step {ops : List (LogLevel × Operand)} {l : Loggers} (h : Counted ops l)
    (op : LogLevel × Operand) : ∃ l', l.step op = .ok l' ∧ Counted (ops ++ [op]) l' := by
  obtain ⟨level, operand⟩ := op
  have hputs : ∀ v, (l.gadget level).puts (numeral v) =
      (⟨BitVec.ofNat 32 (digitCount level ops + (numeral v).length), INT_MAX⟩,
        shown (digitCount level ops) (numeral v)) := fun v => by
    rw [h.gadget_eq level]
    exact puts_eq_shown _ fun c hc => ne_zero_of_mem_numeral hc
  cases operand with
  | text s => exact ⟨_, rfl, h.of_plain (level, .text s) rfl rfl⟩
  | endl => exact ⟨_, rfl, h.of_plain (level, .endl) rfl rfl⟩
  | uint8 value =>
    refine ⟨_, ?_, h.of_digits (level, .uint8 value) rfl⟩
    have hvalue : (value.setWidth 16).toNat = value.toNat := by
      rw [BitVec.toNat_setWidth]
      exact Nat.mod_eq_of_lt (Nat.lt_of_lt_of_le value.isLt (by decide))
    change ((l.gadget level).writeUint16 (value.setWidth 16)).map (l.wrote level) = _
    rw [Gadget.writeUint16, writeUnsigned_eq (by decide) plainFlags_short, hvalue, hputs]
    rfl
  | int32 value =>
    refine ⟨_, ?_, h.of_digits (level, .int32 value) rfl⟩
    change ((l.gadget level).writeInt32 value).map (l.wrote level) = _
    rw [Gadget.writeInt32, writeSigned_eq (by decide) plainFlags_long, hputs]
    rfl
  | uint32 value =>
    refine ⟨_, ?_, h.of_digits (level, .uint32 value) rfl⟩
    change ((l.gadget level).writeUint32 value).map (l.wrote level) = _
    rw [Gadget.writeUint32, writeUnsigned_eq (by decide) plainFlags_long, hputs]
    rfl

theorem exists_run (ops : List (LogLevel × Operand)) :
    ∃ l, Loggers.initial.run ops = .ok l ∧ Counted ops l := by
  induction ops using List.reverseRecOn with
  | nil => exact ⟨Loggers.initial, rfl, Counted.initial⟩
  | append_singleton ops op ih =>
    obtain ⟨l, hl, hcounted⟩ := ih
    obtain ⟨l', hl', hcounted'⟩ := hcounted.exists_step op
    exact ⟨l', Machine.run_concat_eq_ok.mpr ⟨l, hl, hl'⟩, hcounted'⟩

end Loggers

/-- The log statements of `simulation.cpp` and `main.cpp`. -/
inductive LogEntry
  /-- `Current: ` and so on, with the numbers of the tracks. -/
  | move (current next last : BitVec 32)
  /-- `Next track not found `. -/
  | notFound (current last : BitVec 32)
  /-- The three statements of `measurement`, up to the end of the line. -/
  | sensors (current voltage temperature : BitVec 32)
  deriving DecidableEq, Repr

namespace LogEntry

/-- The stream and the operands. -/
def operands : LogEntry → List (LogLevel × Operand)
  | .move current next last =>
    [.text "Current: ", .int32 current, .text "\tNext:  ", .int32 next, .text "\tLast:  ",
      .int32 last, .endl].map (LogLevel.info, ·)
  | .notFound current last =>
    [.text "Next track not found ", .int32 current, .text " comming from ", .int32 last,
      .endl].map (LogLevel.error, ·)
  | .sensors current voltage temperature =>
    [.text "current=", .uint32 current, .text "\tvoltage=", .uint32 voltage,
      .text "\ttemperature=", .uint32 temperature, .endl].map (LogLevel.info, ·)

/-- The characters. -/
def text (e : LogEntry) : List Byte := Loggers.text e.operands

/-- The kinds of statements as a sum. -/
def toSum : LogEntry → BitVec 32 × BitVec 32 × BitVec 32 ⊕
    (BitVec 32 × BitVec 32 ⊕ BitVec 32 × BitVec 32 × BitVec 32)
  | .move current next last => .inl (current, next, last)
  | .notFound current last => .inr (.inl (current, last))
  | .sensors current voltage temperature => .inr (.inr (current, voltage, temperature))

theorem toSum_injective : Function.Injective toSum := by
  intro e e' h
  cases e <;> cases e' <;> simp_all [toSum]

end LogEntry

theorem prefixCode_int32 {x : Byte} (hx : isNumeralChar x = false) :
    PrefixCode fun value : BitVec 32 => numeral value.toInt ++ [x] :=
  .of_delimited (fun _ _ h => BitVec.eq_of_toInt_eq (numeral_injective h))
    (fun _ _ hc => isNumeralChar_of_mem hc) hx

theorem prefixCode_uint32 {x : Byte} (hx : isNumeralChar x = false) :
    PrefixCode fun value : BitVec 32 => numeral value.toNat ++ [x] :=
  .of_delimited (fun _ _ h => BitVec.eq_of_toNat_eq (Int.ofNat_inj.mp (numeral_injective h)))
    (fun _ _ hc => isNumeralChar_of_mem hc) hx

namespace LogEntry

/-- The text of `move`, by its numbers. -/
def moveText (v : BitVec 32 × BitVec 32 × BitVec 32) : List Byte :=
  charCodes "Current: " ++ ((numeral v.1.toInt ++ [charCode '\t']) ++
    (charCodes "Next:  " ++ ((numeral v.2.1.toInt ++ [charCode '\t']) ++
      (charCodes "Last:  " ++ (numeral v.2.2.toInt ++ [charCode '\n'])))))

def notFoundText (v : BitVec 32 × BitVec 32) : List Byte :=
  charCodes "Next track not found " ++ ((numeral v.1.toInt ++ [charCode ' ']) ++
    (charCodes "comming from " ++ (numeral v.2.toInt ++ [charCode '\n'])))

def sensorsText (v : BitVec 32 × BitVec 32 × BitVec 32) : List Byte :=
  charCodes "current=" ++ ((numeral v.1.toNat ++ [charCode '\t']) ++
    (charCodes "voltage=" ++ ((numeral v.2.1.toNat ++ [charCode '\t']) ++
      (charCodes "temperature=" ++ (numeral v.2.2.toNat ++ [charCode '\n'])))))

theorem text_eq (e : LogEntry) :
    e.text = Sum.elim moveText (Sum.elim notFoundText sensorsText) e.toSum := by
  cases e with
  | move current next last =>
    have hcurrent : Operand.cString "Current: " = charCodes "Current: " := by decide
    have hnext : Operand.cString "\tNext:  " = [charCode '\t'] ++ charCodes "Next:  " := by decide
    have hlast : Operand.cString "\tLast:  " = [charCode '\t'] ++ charCodes "Last:  " := by decide
    simp [text, Loggers.text, operands, Operand.chars, Operand.digits, toSum, moveText, hcurrent,
      hnext, hlast]
  | notFound current last =>
    have hfirst : Operand.cString "Next track not found " = charCodes "Next track not found " := by
      decide
    have hlast :
        Operand.cString " comming from " = [charCode ' '] ++ charCodes "comming from " := by
      decide
    simp [text, Loggers.text, operands, Operand.chars, Operand.digits, toSum, notFoundText, hfirst,
      hlast]
  | sensors current voltage temperature =>
    have hcurrent : Operand.cString "current=" = charCodes "current=" := by decide
    have hvoltage : Operand.cString "\tvoltage=" = [charCode '\t'] ++ charCodes "voltage=" := by
      decide
    have htemperature : Operand.cString "\ttemperature=" =
        [charCode '\t'] ++ charCodes "temperature=" := by decide
    simp [text, Loggers.text, operands, Operand.chars, Operand.digits, toSum, sensorsText, hcurrent,
      hvoltage, htemperature]

/-- **Where a statement ends can be seen**, and which one it is. -/
theorem prefixCode_text : PrefixCode LogEntry.text := by
  have htab : isNumeralChar (charCode '\t') = false := by decide
  have hnewline : isNumeralChar (charCode '\n') = false := by decide
  have hspace : isNumeralChar (charCode ' ') = false := by decide
  have hmove : PrefixCode moveText := .text_append _ (.append (prefixCode_int32 htab)
    (.text_append _ (.append (prefixCode_int32 htab)
      (.text_append _ (prefixCode_int32 hnewline)))))
  have hnotFound : PrefixCode notFoundText := .text_append _ (.append (prefixCode_int32 hspace)
    (.text_append _ (prefixCode_int32 hnewline)))
  have hsensors : PrefixCode sensorsText := .text_append _ (.append (prefixCode_uint32 htab)
    (.text_append _ (.append (prefixCode_uint32 htab)
      (.text_append _ (prefixCode_uint32 hnewline)))))
  have herrors : PrefixCode (Sum.elim notFoundText sensorsText) :=
    hnotFound.sum hsensors fun v w => ⟨charCode 'N', charCode 'c', rfl, rfl, by decide⟩
  have hall : PrefixCode (Sum.elim moveText (Sum.elim notFoundText sensorsText)) := by
    refine hmove.sum herrors fun v w => ?_
    cases w with
    | inl w => exact ⟨charCode 'C', charCode 'N', rfl, rfl, by decide⟩
    | inr w => exact ⟨charCode 'C', charCode 'c', rfl, rfl, by decide⟩
  rw [show text = fun e => Sum.elim moveText (Sum.elim notFoundText sensorsText) e.toSum from
    funext text_eq]
  exact hall.comp toSum_injective

theorem text_ne_nil (e : LogEntry) : e.text ≠ [] := by
  rw [text_eq]
  cases e <;> exact List.cons_ne_nil _ _

end LogEntry

theorem text_entries (entries : List LogEntry) :
    Loggers.text (entries.flatMap LogEntry.operands) = entries.flatMap LogEntry.text := by
  rw [Loggers.text, List.flatMap_assoc]
  rfl

/-- **The log can be read.** Two lists of log statements with the same text on the device, and no
more than `INT_MAX` characters of integers on any stream, are the same. -/
theorem entries_of_out {entries entries' : List LogEntry} {l l' : Loggers}
    (hrun : Loggers.initial.run (entries.flatMap LogEntry.operands) = .ok l)
    (hrun' : Loggers.initial.run (entries'.flatMap LogEntry.operands) = .ok l')
    (hcount : ∀ level, Loggers.digitCount level (entries.flatMap LogEntry.operands) ≤ INT_MAX.toNat)
    (hcount' : ∀ level,
      Loggers.digitCount level (entries'.flatMap LogEntry.operands) ≤ INT_MAX.toNat)
    (hout : l.out = l'.out) : entries = entries' := by
  obtain ⟨u, hu, h⟩ := Loggers.exists_run (entries.flatMap LogEntry.operands)
  obtain ⟨u', hu', h'⟩ := Loggers.exists_run (entries'.flatMap LogEntry.operands)
  obtain rfl : u = l := Except.ok.inj (hu.symm.trans hrun)
  obtain rfl : u' = l' := Except.ok.inj (hu'.symm.trans hrun')
  rw [h.out_eq, h'.out_eq, (Loggers.delivered_eq_text_iff _).mpr hcount,
    (Loggers.delivered_eq_text_iff _).mpr hcount', text_entries, text_entries] at hout
  exact LogEntry.prefixCode_text.flatMap_injective LogEntry.text_ne_nil hout

end Modellbahn
