import RiscvLab.Runtime.Printf

/-!
# What a format means

A format as a list of texts and directives, how it is written and what it stands for.
`vprintfmt` reads the written format back and prints what it stands for.
-/
namespace RiscvLab.Runtime

section Digits

theorem digit_eq {d : Nat} (small : d < 16) : digit d = d.digitChar := by
  have all : ∀ d < 16, digit d = d.digitChar := by decide
  exact all d small

/-- The digits come out as those of the number if the array has room for them. -/
theorem digs_eq {base room num : Nat} (two : 2 ≤ base) (sixteen : base ≤ 16)
    (fits : num < base ^ room) (some_room : 0 < room) :
    (digs base room num).reverse.map digit = Nat.toDigits base num := by
  induction room generalizing num with
  | zero => cases some_room
  | succ room ih =>
    have low : num % base < 16 :=
      Nat.lt_of_lt_of_le (Nat.mod_lt num (by omega)) sixteen
    rw [digs, Nat.toDigits_eq_if (by omega)]
    by_cases last : num < base
    · rw [if_pos last, if_pos last, Nat.mod_eq_of_lt last]
      exact congrArg (fun c => [c]) (digit_eq (Nat.lt_of_lt_of_le last sixteen))
    · have rest : num / base < base ^ room := by
        rw [Nat.div_lt_iff_lt_mul (by omega), ← Nat.pow_succ]
        exact fits
      have more : 0 < room := by
        rcases Nat.eq_zero_or_pos room with rfl | more
        · rw [Nat.pow_one] at fits
          exact absurd fits last
        · exact more
      rw [if_neg last, if_neg last, List.reverse_cons, List.map_append, ih rest more]
      exact congrArg (fun c => Nat.toDigits base (num / base) ++ [c]) (digit_eq low)

/-- To the right of a field of at least `width` characters. -/
def rightAligned (width : Nat) (padc : Char) (body : List Char) : List Char :=
  List.replicate (width - body.length) padc ++ body

@[simp]
theorem rightAligned_zero (padc : Char) (body : List Char) : rightAligned 0 padc body = body := by
  rw [rightAligned, Nat.zero_sub]
  rfl

def leftAligned (width : Nat) (body : List Char) : List Char :=
  body ++ List.replicate (width - body.length) ' '

theorem printnum_eq {base : Nat} (num : Word64) (two : 2 ≤ base) (sixteen : base ≤ 16)
    (width : Int) (padc : Char) : printnum num base width padc =
      rightAligned width.toNat padc (Nat.toDigits base num.toNat) := by
  have fits : num.toNat < base ^ 64 :=
    Nat.lt_of_lt_of_le num.isLt (Nat.pow_le_pow_left two 64)
  have digits := digs_eq two sixteen fits (by decide)
  have length := congrArg List.length digits
  rw [List.length_map, List.length_reverse] at length
  unfold printnum rightAligned
  dsimp only
  rw [digits, length, Int.toNat_sub']

/-- The first digit of a positive number is not zero. -/
theorem toDigits_head {n : Nat} (positive : 0 < n) :
    ∃ d l, Nat.toDigits 10 n = d :: l ∧ d ∈ "123456789".toList := by
  induction n using Nat.strong_induction_on with
  | _ n ih =>
    by_cases last : n < 10
    · have first : ∀ n < 10, 0 < n → n.digitChar ∈ "123456789".toList := by decide
      exact ⟨_, _, Nat.toDigits_of_lt_base last, first n last positive⟩
    · obtain ⟨d, l, digits, first⟩ := ih (n / 10) (by omega) (by omega)
      rw [Nat.toDigits_of_base_le (by decide) (by omega), digits]
      exact ⟨d, _, rfl, first⟩

end Digits

section Numbers

theorem int32_eq {value : Int} (low : -2 ^ 31 ≤ value) (high : value < 2 ^ 31) :
    int32 value = value := by
  unfold int32
  rw [Int.bmod_eq_of_le] <;> omega

theorem le_ofDigitChars (l : List Char) (init : Nat) : init ≤ Nat.ofDigitChars 10 l init := by
  induction l generalizing init with
  | nil => exact Nat.le_of_eq Nat.ofDigitChars_nil.symm
  | cons c l ih =>
    rw [Nat.ofDigitChars_cons]
    exact Nat.le_trans (by omega) (ih _)

/-- The loop of the width field reads the digits in front of it. -/
theorem number_digits {l rest : List Char} {init : Nat} (digits : ∀ c ∈ l, c.isDigit = true)
    (stop : ∀ c, rest.head? = some c → c.isDigit = false)
    (fits : Nat.ofDigitChars 10 l init < 2 ^ 31) :
    number init (l ++ rest) = ((Nat.ofDigitChars 10 l init : Int), rest) := by
  induction l generalizing init with
  | nil =>
    rw [Nat.ofDigitChars_nil, List.nil_append]
    cases rest with
    | nil => rfl
    | cons c rest =>
      rw [number, stop c rfl]
      rfl
  | cons c l ih =>
    have here := digits c List.mem_cons_self
    have value : 48 ≤ c.toNat := by
      rw [Char.isDigit, Bool.and_eq_true, decide_eq_true_eq] at here
      exact here.1
    rw [Nat.ofDigitChars_cons] at fits ⊢
    have small := Nat.lt_of_le_of_lt (le_ofDigitChars l _) fits
    have next : int32 ((init : Int) * 10 + c.toNat - '0'.toNat) =
        ((10 * init + (c.toNat - '0'.toNat) : Nat) : Int) := by
      change (10 * init + (c.toNat - 48) : Nat) < 2 ^ 31 at small
      change int32 ((init : Int) * 10 + c.toNat - 48) = ((10 * init + (c.toNat - 48) : Nat) : Int)
      rw [int32_eq] <;> omega
    rw [List.cons_append, number, if_pos here, next]
    exact ih (fun d inside => digits d (List.mem_cons_of_mem c inside)) fits

end Numbers

section Strings

theorem strnlen_eq (p : List Char) (n : Nat) : strnlen p n = min p.length n := by
  induction p generalizing n with
  | nil => exact (Nat.zero_min n).symm
  | cons ch p ih =>
    cases n with
    | zero => rfl
    | succ n => rw [strnlen, ih, List.length_cons, Nat.succ_min_succ]

/-- The bytes that a precision leaves. -/
def cut (precision : Int) (p : List Char) : List Char :=
  if precision < 0 then p else p.take precision.toNat

theorem length_cut (precision : Int) (p : List Char) : (cut precision p).length ≤ p.length := by
  unfold cut
  split
  · exact Nat.le_refl _
  · exact List.length_take_le' _ _

theorem printChars_eq {p : List Char} {precision width : Int} (low : -2 ^ 31 + p.length ≤ width)
    (high : width < 2 ^ 31) :
    printChars p precision width = (cut precision p, width - (cut precision p).length) := by
  induction p generalizing precision width with
  | nil => simp [printChars, cut]
  | cons ch p ih =>
    rw [List.length_cons] at low
    have step : int32 (width - 1) = width - 1 := int32_eq (by omega) (by omega)
    by_cases all : precision < 0
    · have rest : printChars p precision (width - 1) = _ := ih (by omega) (by omega)
      rw [cut, if_pos all] at rest ⊢
      rw [printChars, if_pos all, step, rest, List.length_cons]
      ext1
      · rfl
      · dsimp only
        omega
    · by_cases more : precision - 1 ≥ 0
      · have rest : printChars p (precision - 1) (width - 1) = _ := ih (by omega) (by omega)
        have count : precision.toNat = (precision - 1).toNat + 1 := by omega
        rw [cut, if_neg (by omega)] at rest
        rw [cut, if_neg all, count, List.take_succ_cons]
        rw [printChars, if_neg all, if_pos more, step, rest, List.length_cons]
        ext1
        · rfl
        · dsimp only
          omega
      · have none_left : precision.toNat = 0 := by omega
        rw [printChars, if_neg all, if_neg more, cut, if_neg all, none_left]
        simp

/-- How `%s` stands in its field. -/
theorem printString_eq {p : List Char} {width precision : Int} {padc : Char}
    (short : p.length < 2 ^ 30) (low : -1 ≤ width) (high : width < 2 ^ 31)
    (least : -1 ≤ precision) (most : precision < 2 ^ 31) :
    printString p width precision padc =
      if padc = '-' then leftAligned width.toNat (cut precision p)
      else rightAligned width.toNat padc (cut precision p) := by
  have bound := length_cut precision p
  unfold printString
  by_cases pads : width > 0 ∧ padc ≠ '-'
  · have length : (strnlen p (precision % 2 ^ 64).toNat : Int) = (cut precision p).length := by
      rw [strnlen_eq]
      unfold cut
      split
      · omega
      · rw [List.length_take]
        omega
    have left : int32 (width - (cut precision p).length) = width - (cut precision p).length :=
      int32_eq (by omega) (by omega)
    rw [if_pos pads, if_neg pads.2, length, left]
    dsimp only
    rw [printChars_eq (by omega) (by omega)]
    dsimp only
    have none_left : (min (width - (cut precision p).length) 0 - (cut precision p).length).toNat
        = 0 := by omega
    have field : (width - (cut precision p).length).toNat =
        width.toNat - (cut precision p).length := by omega
    rw [none_left, field, List.replicate_zero, List.append_nil, rightAligned]
  · rw [if_neg pads]
    dsimp only
    rw [printChars_eq (by omega) (by omega)]
    dsimp only
    have field : (width - (cut precision p).length).toNat =
        width.toNat - (cut precision p).length := by omega
    rw [field, List.nil_append]
    by_cases left : padc = '-'
    · rw [if_pos left, leftAligned]
    · have no_field : width.toNat - (cut precision p).length = 0 := by
        have narrow : ¬ width > 0 := fun wide => pads ⟨wide, left⟩
        omega
      rw [if_neg left, rightAligned, no_field]
      simp

end Strings

section Directives

inductive Flag
  | none
  | left
  | zero
  deriving DecidableEq, Repr

/-- The conversions, in the order of the source. -/
inductive Conversion
  | character
  | string
  | decimal
  | unsigned
  | octal
  | pointer
  | hexadecimal
  | percent
  deriving DecidableEq, Repr

/-- A number that can be written in a directive: a leading zero would be a flag. -/
abbrev Field := { n : Nat // 0 < n ∧ n < 2 ^ 31 }

structure Directive where
  flag : Flag
  width : Option Field
  precision : Option Field
  long : Nat
  conversion : Conversion

/-- A format is made of plain characters and directives. -/
inductive Piece
  | plain (ch : Char) (isPlain : ch ≠ '%' ∧ ch ≠ NUL)
  | directive (d : Directive)

section Text

def Flag.text : Flag → List Char
  | .none => []
  | .left => ['-']
  | .zero => ['0']

def Conversion.letter : Conversion → Char
  | .character => 'c'
  | .string => 's'
  | .decimal => 'd'
  | .unsigned => 'u'
  | .octal => 'o'
  | .pointer => 'p'
  | .hexadecimal => 'x'
  | .percent => '%'

def Field.text (n : Field) : List Char := Nat.toDigits 10 n

def widthText (width : Option Field) : List Char := width.elim [] Field.text

def precisionText (precision : Option Field) : List Char :=
  precision.elim [] fun n => '.' :: n.text

/-- What stands between the `%` and the letter. -/
def Directive.modifiers (d : Directive) : List Char :=
  d.flag.text ++ (widthText d.width ++ (precisionText d.precision ++ List.replicate d.long 'l'))

def Piece.text : Piece → List Char
  | .plain ch _ => [ch]
  | .directive d => '%' :: (d.modifiers ++ [d.conversion.letter])

end Text

section Meaning

def Flag.padc : Flag → Char
  | .none => ' '
  | .left => '-'
  | .zero => '0'

variable (slots : Nat → Word64) (strings : Word64 → List Char)

/-- An argument as a signed or an unsigned number, of an `int` or of a `long`. -/
def Directive.signed (d : Directive) (slot : Word64) : Int :=
  if d.long = 0 then (slot.setWidth 32).toInt else slot.toInt

def Directive.unsigned (d : Directive) (slot : Word64) : Nat :=
  if d.long = 0 then (slot.setWidth 32).toNat else slot.toNat

/-- A number in its field; the flag `-` pads with that character. -/
def Directive.numeral (d : Directive) (base value : Nat) : List Char :=
  rightAligned (d.width.elim 0 Subtype.val) d.flag.padc (Nat.toDigits base value)

/-- The string of an argument, cut to the precision. -/
def Directive.body (d : Directive) (slot : Word64) : List Char :=
  let p := if slot = 0 then "(null)".toList else strings slot
  d.precision.elim p fun n => p.take n

/-- What a directive prints for its argument. -/
def Directive.meaning (d : Directive) (slot : Word64) : List Char :=
  match d.conversion with
  | .character => [Char.ofNat (slot.toNat % 256)]
  | .string =>
    if d.flag = .left then leftAligned (d.width.elim 0 Subtype.val) (d.body strings slot)
    else rightAligned (d.width.elim 0 Subtype.val) d.flag.padc (d.body strings slot)
  -- the sign comes before the padding
  | .decimal => (if d.signed slot < 0 then ['-'] else []) ++ d.numeral 10 (d.signed slot).natAbs
  | .unsigned => d.numeral 10 (d.unsigned slot)
  | .octal => d.numeral 8 (d.unsigned slot)
  | .pointer => "0x".toList ++ d.numeral 16 slot.toNat
  | .hexadecimal => d.numeral 16 (d.unsigned slot)
  | .percent => ['%']

/-- The number of arguments that a conversion takes. -/
def Conversion.takes : Conversion → Nat
  | .percent => 0
  | _ => 1

def meaning : List Piece → Nat → List Char
  | [], _ => []
  | .plain ch _ :: pieces, ap => ch :: meaning pieces ap
  | .directive d :: pieces, ap =>
    d.meaning strings (slots ap) ++ meaning pieces (ap + d.conversion.takes)

/-- The strings that a format can print have less than 2^30 bytes. -/
def ShortStrings (pieces : List Piece) : Prop :=
  ∀ d, .directive d ∈ pieces → d.conversion = .string →
    ∀ address, (strings address).length < 2 ^ 30

end Meaning

end Directives

section Scanning

variable {slots : Nat → Word64} {ap : Nat} {text text' rest fmt : List Char} {f f' f'' : Fields}

/-- If there are rounds enough, `reswitch` goes over `text` and changes the fields. -/
def Scans (slots : Nat → Word64) (ap : Nat) (text rest : List Char) (f f' : Fields) : Prop :=
  ∀ steps, (text ++ rest).length ≤ steps → ∃ steps', rest.length ≤ steps' ∧
    reswitch slots steps f ap (text ++ rest) = reswitch slots steps' f' ap rest

theorem Scans.refl : Scans slots ap [] rest f f := fun steps enough => ⟨steps, enough, rfl⟩

theorem Scans.trans (h : Scans slots ap text (text' ++ rest) f f')
    (more : Scans slots ap text' rest f' f'') : Scans slots ap (text ++ text') rest f f'' := by
  intro steps enough
  rw [List.append_assoc] at enough ⊢
  obtain ⟨steps', left, scanned⟩ := h steps enough
  obtain ⟨steps'', left', scanned'⟩ := more steps' left
  exact ⟨steps'', left', scanned.trans scanned'⟩

/-- One character that is a round of its own. -/
theorem scans_one {ch : Char} (round : ∀ steps, reswitch slots (steps + 1) f ap (ch :: rest) =
    reswitch slots steps f' ap rest) : Scans slots ap [ch] rest f f' := by
  intro steps enough
  obtain ⟨steps, rfl⟩ : ∃ left, steps = left + 1 := Nat.exists_eq_add_one.mpr (by
    simp only [List.cons_append, List.length_cons] at enough
    omega)
  exact ⟨steps, Nat.le_of_succ_le_succ enough, round steps⟩

theorem scans_flag (flag : Flag) :
    Scans slots ap flag.text rest {} { padc := flag.padc } := by
  cases flag with
  | none => exact .refl
  | left => exact scans_one fun _ => rfl
  | zero => exact scans_one fun _ => rfl

theorem scans_long (n : Nat) :
    Scans slots ap (List.replicate n 'l') rest f { f with lflag := f.lflag + n } := by
  induction n generalizing f with
  | zero => exact .refl
  | succ n ih =>
    have first : Scans slots ap ['l'] (List.replicate n 'l' ++ rest) f
        { f with lflag := f.lflag + 1 } := scans_one fun _ => rfl
    have all := first.trans (ih (f := { f with lflag := f.lflag + 1 }))
    rw [Nat.add_right_comm, Nat.add_assoc] at all
    exact all

theorem reswitch_number {d : Char} (first : d ∈ "123456789".toList) (steps : Nat) :
    reswitch slots (steps + 1) f ap (d :: fmt) =
      reswitch slots steps (f.processPrecision (number 0 (d :: fmt)).1) ap
        (number 0 (d :: fmt)).2 := by
  have nine : d = '1' ∨ d = '2' ∨ d = '3' ∨ d = '4' ∨ d = '5' ∨ d = '6' ∨ d = '7' ∨ d = '8' ∨
      d = '9' := by simpa using first
  rcases nine with rfl | rfl | rfl | rfl | rfl | rfl | rfl | rfl | rfl <;> rfl

theorem number_text (n : Field) (stop : ∀ c, rest.head? = some c → c.isDigit = false) :
    number 0 (n.text ++ rest) = ((n : Int), rest) := by
  have read : Nat.ofDigitChars 10 n.text 0 < 2 ^ 31 → number 0 (n.text ++ rest) = _ :=
    number_digits (fun c inside => Nat.isDigit_of_mem_toDigits (by decide) (by decide) inside) stop
  have value : Nat.ofDigitChars 10 n.text 0 = n := Nat.ofDigitChars_ten_toDigits
  rw [value] at read
  exact read n.2.2

theorem scans_number (n : Field) (stop : ∀ c, rest.head? = some c → c.isDigit = false) :
    Scans slots ap n.text rest f (f.processPrecision n) := by
  intro steps enough
  obtain ⟨d, l, digits, first⟩ := toDigits_head n.2.1
  have text : n.text = d :: l := digits
  have read := number_text n stop
  rw [text] at enough read ⊢
  rw [List.cons_append] at enough read ⊢
  obtain ⟨steps, rfl⟩ : ∃ left, steps = left + 1 := Nat.exists_eq_add_one.mpr (by
    rw [List.length_cons] at enough
    omega)
  refine ⟨steps, ?_, ?_⟩
  · rw [List.length_cons, List.length_append] at enough
    omega
  · rw [reswitch_number first, read]

end Scanning

section Directive

variable {slots : Nat → Word64} {strings : Word64 → List Char} {ap : Nat} {rest : List Char}

/-- The value of a number in an `int`. -/
def Field.value (n : Field) : Int := n.val

/-- The fields that a directive leaves to its conversion. A point without a width sets it
to 0. -/
def Directive.fields (d : Directive) : Fields where
  padc := d.flag.padc
  width := d.width.elim (if d.precision.isSome then 0 else -1) Field.value
  precision := d.precision.elim (-1) Field.value
  lflag := d.long

theorem letter_not_digit (c : Conversion) : c.letter.isDigit = false := by
  cases c <;> rfl

theorem long_not_digit (n : Nat) (c : Conversion) (rest : List Char) :
    ∀ ch, (List.replicate n 'l' ++ c.letter :: rest).head? = some ch → ch.isDigit = false := by
  intro ch head
  cases n with
  | zero =>
    obtain rfl : c.letter = ch := Option.some.inj head
    exact letter_not_digit c
  | succ n =>
    obtain rfl : 'l' = ch := Option.some.inj head
    rfl

theorem precision_not_digit (d : Directive) (rest : List Char) :
    ∀ ch, (precisionText d.precision ++ List.replicate d.long 'l' ++
      d.conversion.letter :: rest).head? = some ch → ch.isDigit = false := by
  intro ch head
  cases precision : d.precision with
  | none =>
    rw [precision] at head
    exact long_not_digit d.long d.conversion rest ch head
  | some n =>
    rw [precision] at head
    obtain rfl : '.' = ch := Option.some.inj head
    rfl

theorem scans_width (padc : Char) (width : Option Field)
    (stop : ∀ c, rest.head? = some c → c.isDigit = false) :
    Scans slots ap (widthText width) rest { padc }
      { padc, width := width.elim (-1) Field.value } := by
  cases width with
  | none => exact .refl
  | some n => exact scans_number n stop

theorem scans_precision (d : Directive)
    (stop : ∀ c, rest.head? = some c → c.isDigit = false) :
    Scans slots ap (precisionText d.precision) rest
      { padc := d.flag.padc, width := d.width.elim (-1) Field.value }
      { d.fields with lflag := 0 } := by
  unfold Directive.fields
  cases d.precision with
  | none => exact .refl
  | some n =>
    cases d.width with
    | none =>
      have point : Scans slots ap ['.'] (n.text ++ rest) { padc := d.flag.padc, width := -1 }
          { padc := d.flag.padc, width := 0 } := scans_one fun _ => rfl
      exact point.trans (scans_number n stop)
    | some w =>
      have positive : ¬ w.value < 0 := by
        have bound := w.2.1
        unfold Field.value
        omega
      have point : Scans slots ap ['.'] (n.text ++ rest)
          { padc := d.flag.padc, width := w.value } { padc := d.flag.padc, width := w.value } := by
        refine scans_one fun steps => ?_
        change reswitch slots steps ⟨_, if w.value < 0 then 0 else w.value, _, _⟩ ap _ = _
        rw [if_neg positive]
      have read := point.trans (scans_number n stop)
      rw [Fields.processPrecision, if_neg positive] at read
      exact read

/-- `reswitch` reads a directive back. -/
theorem reswitch_modifiers (d : Directive) {steps : Nat}
    (enough : (d.modifiers ++ d.conversion.letter :: rest).length ≤ steps) :
    reswitch slots steps {} ap (d.modifiers ++ d.conversion.letter :: rest) =
      ⟨d.conversion.letter, d.fields, ap, rest⟩ := by
  have fields : Scans slots ap _ (d.conversion.letter :: rest) { d.fields with lflag := 0 } _ :=
    scans_long d.long
  rw [Nat.zero_add] at fields
  have all := (scans_flag d.flag).trans
    ((scans_width d.flag.padc d.width (precision_not_digit d rest)).trans
      ((scans_precision d (long_not_digit d.long d.conversion rest)).trans fields))
  obtain ⟨steps', left, scanned⟩ := all steps enough
  obtain ⟨steps', rfl⟩ : ∃ more, steps' = more + 1 := Nat.exists_eq_add_one.mpr (by
    rw [List.length_cons] at left
    omega)
  refine scanned.trans ?_
  cases d.conversion <;> rfl

theorem Directive.width_toNat (d : Directive) :
    d.fields.width.toNat = d.width.elim 0 Subtype.val := by
  unfold Directive.fields Field.value
  cases d.width with
  | none => cases d.precision <;> rfl
  | some n => rfl

theorem Directive.width_bounds (d : Directive) :
    -1 ≤ d.fields.width ∧ d.fields.width < 2 ^ 31 := by
  unfold Directive.fields Field.value
  cases d.width with
  | none => cases d.precision <;> simp
  | some n =>
    have bound := n.2
    dsimp only [Option.elim]
    omega

theorem Directive.precision_bounds (d : Directive) :
    -1 ≤ d.fields.precision ∧ d.fields.precision < 2 ^ 31 := by
  unfold Directive.fields Field.value
  cases d.precision with
  | none => simp
  | some n =>
    have bound := n.2
    dsimp only [Option.elim]
    omega

theorem Directive.cut_precision (d : Directive) (p : List Char) :
    cut d.fields.precision p = d.precision.elim p fun n => p.take n := by
  cases precision : d.precision with
  | none =>
    have value : d.fields.precision = -1 := by
      unfold Directive.fields
      rw [precision]
      rfl
    rw [cut, value, if_pos (by decide)]
    rfl
  | some n =>
    have value : d.fields.precision = (n.val : Int) := by
      unfold Directive.fields
      rw [precision]
      rfl
    rw [cut, value, if_neg (by omega), Int.toNat_natCast]
    rfl

theorem Flag.padc_left (flag : Flag) : flag.padc = '-' ↔ flag = .left := by
  cases flag <;> decide

theorem getuint_eq (d : Directive) (slot : Word64) :
    (getuint slot d.long).toNat = d.unsigned slot := by
  unfold getuint Directive.unsigned
  by_cases long : d.long = 0
  · rw [long, if_neg (by decide), if_neg (by decide), if_pos rfl]
    exact BitVec.toNat_setWidth_of_le (by decide)
  · rw [if_neg long, if_pos long, ite_self]

theorem getint_eq (d : Directive) (slot : Word64) :
    (getint slot d.long).toInt = d.signed slot := by
  unfold getint Directive.signed
  by_cases long : d.long = 0
  · rw [long, if_neg (by decide), if_neg (by decide), if_pos rfl]
    exact BitVec.toInt_signExtend_of_le (by decide)
  · rw [if_neg long, if_pos long, ite_self]

theorem natAbs_negative {num : Word64} (negative : num.toInt < 0) :
    num.toInt.natAbs = (-num).toNat := by
  have bound := num.isLt
  have value := num.toInt_eq_toNat_cond
  rw [BitVec.toNat_neg]
  omega

theorem natAbs_positive {num : Word64} (positive : ¬ num.toInt < 0) :
    num.toInt.natAbs = num.toNat := by
  have value := num.toInt_eq_toNat_cond
  omega

/-- A sign, and the absolute value in its field. -/
theorem printnum_signed (num : Word64) (width : Int) (padc : Char) :
    (if num.msb then '-' :: printnum (-num) 10 width padc else printnum num 10 width padc) =
      (if num.toInt < 0 then ['-'] else []) ++
        rightAligned width.toNat padc (Nat.toDigits 10 num.toInt.natAbs) := by
  rw [BitVec.msb_eq_toInt]
  by_cases negative : num.toInt < 0
  · rw [decide_eq_true negative, if_pos rfl, if_pos negative,
      printnum_eq _ (by decide) (by decide), natAbs_negative negative]
    rfl
  · rw [decide_eq_false negative, if_neg Bool.false_ne_true, if_neg negative,
      printnum_eq _ (by decide) (by decide), natAbs_positive negative]
    rfl

/-- What a conversion does to the fields that its directive has left. -/
theorem convert_meaning (d : Directive)
    (short : d.conversion = .string → ∀ address, (strings address).length < 2 ^ 30)
    (ap : Nat) : convert slots strings d.conversion.letter d.fields ap =
      some (d.meaning strings (slots ap), ap + d.conversion.takes) := by
  have unsigned : ∀ base, 2 ≤ base → base ≤ 16 →
      printnum (getuint (slots ap) d.long) base d.fields.width d.flag.padc =
        d.numeral base (d.unsigned (slots ap)) := by
    intro base two sixteen
    rw [printnum_eq _ two sixteen, getuint_eq, d.width_toNat]
    rfl
  unfold Directive.meaning
  cases conversion : d.conversion with
  | character | percent => rfl
  | string =>
    have bytes :
        (if slots ap = 0 then "(null)".toList else strings (slots ap)).length < 2 ^ 30 := by
      split
      · decide
      · exact short conversion _
    have printed : printString _ _ _ d.flag.padc = _ := printString_eq bytes
      d.width_bounds.1 d.width_bounds.2 d.precision_bounds.1 d.precision_bounds.2
    rw [d.cut_precision, d.width_toNat] at printed
    simp only [d.flag.padc_left] at printed
    exact congrArg (fun out => some (out, ap + 1)) printed
  | decimal =>
    have printed := printnum_signed (getint (slots ap) d.long) d.fields.width d.flag.padc
    rw [getint_eq, d.width_toNat] at printed
    exact congrArg (fun out => some (out, ap + 1)) printed
  | unsigned => exact congrArg (fun out => some (out, ap + 1)) (unsigned 10 (by decide) (by decide))
  | octal => exact congrArg (fun out => some (out, ap + 1)) (unsigned 8 (by decide) (by decide))
  | hexadecimal =>
    exact congrArg (fun out => some (out, ap + 1)) (unsigned 16 (by decide) (by decide))
  | pointer =>
    have whole : printnum (getuint (slots ap) 1) 16 d.fields.width d.flag.padc =
        d.numeral 16 (slots ap).toNat := by
      rw [printnum_eq _ (by decide) (by decide), d.width_toNat]
      rfl
    exact congrArg (fun out => some ('0' :: 'x' :: out, ap + 1)) whole

end Directive

section Loop

variable {slots : Nat → Word64} {strings : Word64 → List Char} {ap : Nat}

theorem number_shorter (precision : Int) (fmt : List Char) :
    (number precision fmt).2.length ≤ fmt.length := by
  induction fmt generalizing precision with
  | nil => exact Nat.le_refl _
  | cons ch fmt ih =>
    rw [number]
    split
    · exact Nat.le_succ_of_le (ih _)
    · exact Nat.le_refl _

/-- The format behind a directive is a part of what `reswitch` was given. -/
theorem reswitch_shorter (steps : Nat) (f : Fields) (ap : Nat) (fmt : List Char) :
    (reswitch slots steps f ap fmt).fmt.length ≤ fmt.length := by
  induction steps generalizing f ap fmt with
  | zero => exact Nat.le_refl _
  | succ steps ih =>
    cases fmt with
    | nil => exact Nat.le_refl _
    | cons ch fmt =>
      by_cases first : ch ∈ "123456789".toList
      · rw [reswitch_number first]
        exact Nat.le_trans (ih _ _ _) (number_shorter 0 (ch :: fmt))
      · unfold reswitch
        split
        all_goals first
          | exact Nat.le_succ_of_le (ih _ _ _)
          | exact Nat.le_succ _
          | exact absurd (by decide) first

/-- Rounds beyond the length of the format are not needed. -/
theorem vprintfmtLoop_enough {rounds : Nat} {fmt : List Char} (enough : fmt.length ≤ rounds) :
    vprintfmtLoop slots strings rounds fmt ap =
      vprintfmtLoop slots strings fmt.length fmt ap := by
  induction length : fmt.length using Nat.strong_induction_on generalizing fmt rounds ap with
  | _ n ih =>
    cases fmt with
    | nil =>
      subst length
      cases rounds <;> rfl
    | cons ch fmt =>
      rw [List.length_cons] at enough length
      subst length
      obtain ⟨rounds, rfl⟩ : ∃ more, rounds = more + 1 := Nat.exists_eq_add_one.mpr (by omega)
      have part : ∀ {rest : List Char} {ap : Nat}, rest.length ≤ fmt.length →
          vprintfmtLoop slots strings rounds rest ap =
            vprintfmtLoop slots strings fmt.length rest ap := by
        intro rest ap shorter
        rw [ih rest.length (by omega) (by omega : rest.length ≤ rounds) rfl,
          ih rest.length (by omega) shorter rfl]
      rw [vprintfmtLoop, vprintfmtLoop, part (Nat.le_refl _)]
      split
      · rfl
      · dsimp only
        split
        · rw [part (reswitch_shorter _ _ _ _)]
        · rw [part (Nat.le_refl _)]

/-- The output for a format from an argument on. -/
theorem vprintfmtLoop_text {pieces : List Piece} (short : ShortStrings strings pieces)
    (ap : Nat) :
    vprintfmtLoop slots strings (pieces.flatMap Piece.text).length (pieces.flatMap Piece.text) ap =
      meaning slots strings pieces ap := by
  induction pieces generalizing ap with
  | nil => rfl
  | cons piece pieces ih =>
    have rest : ShortStrings strings pieces :=
      fun d inside => short d (List.mem_cons_of_mem piece inside)
    cases piece with
    | plain ch isPlain =>
      rw [List.flatMap_cons, meaning, ← ih rest]
      change vprintfmtLoop slots strings (_ + 1) (ch :: _) ap = _
      rw [vprintfmtLoop, if_pos isPlain.1, if_neg isPlain.2]
      rfl
    | directive d =>
      have text : (Piece.directive d :: pieces).flatMap Piece.text =
          '%' :: (d.modifiers ++ d.conversion.letter :: pieces.flatMap Piece.text) := by
        rw [List.flatMap_cons, Piece.text, List.cons_append, List.append_assoc]
        rfl
      rw [text, meaning, ← ih rest, List.length_cons, vprintfmtLoop, if_neg (by decide),
        reswitch_modifiers d (Nat.le_refl _)]
      dsimp only
      rw [convert_meaning d (short d List.mem_cons_self)]
      dsimp only
      rw [vprintfmtLoop_enough]
      rw [List.length_append, List.length_cons]
      omega

theorem vprintfmt_text (pieces : List Piece) (short : ShortStrings strings pieces) :
    vprintfmt slots strings (pieces.flatMap Piece.text) = meaning slots strings pieces 0 :=
  vprintfmtLoop_text short 0

/-- What is written as a format is read as that format: for all pieces, and all arguments of
which the strings are shorter than 2^30 bytes, `sprintf` stores what they mean and returns
its length as an `int`. -/
theorem sprintf_text (pieces : List Piece) (short : ShortStrings strings pieces) :
    sprintf slots strings (pieces.flatMap Piece.text) =
      (meaning slots strings pieces 0 ++ [NUL],
        int32 (meaning slots strings pieces 0).length) := by
  unfold sprintf
  rw [vprintfmt_text pieces short]

/-- `%-8s|%05d|%.2s`, with a flag, a width and a precision. -/
def fieldsFormat : List Piece := [
  .directive ⟨.left, some ⟨8, by decide⟩, none, 0, .string⟩,
  .plain '|' (by decide),
  .directive ⟨.zero, some ⟨5, by decide⟩, none, 0, .decimal⟩,
  .plain '|' (by decide),
  .directive ⟨.none, none, some ⟨2, by decide⟩, 0, .string⟩]

/-- The sign comes before the zeros. -/
theorem sprintf_text_fields :
    sprintf (fun n => if n = 1 then -3 else 4096) (fun _ => "mcycle".toList)
      "%-8s|%05d|%.2s".toList = ("mcycle  |-00003|mc".toList ++ [NUL], 18) := by
  have length : "mcycle".toList.length < 2 ^ 30 := by decide
  have written : sprintf (fun n => if n = 1 then -3 else 4096) _ _ = _ :=
    sprintf_text fieldsFormat fun _ _ _ _ => length
  have text : fieldsFormat.flatMap Piece.text = "%-8s|%05d|%.2s".toList := by decide
  rw [text] at written
  exact written.trans (by decide)

end Loop

end RiscvLab.Runtime
