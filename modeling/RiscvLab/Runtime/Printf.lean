import Mathlib.Data.Nat.Digits.Defs

/-!
# Formatted output

`vprintfmt` of lab1/common/syscalls.c with what it calls, and the functions built on it. A
byte is the character of its code. A C string is the list of its bytes, without the zero
that ends it; reading past the end of the list reads that zero. What is passed to `putch`
is the output.
-/
namespace RiscvLab.Runtime

abbrev Word64 := BitVec 64

/-- The byte that ends a string. -/
def NUL : Char := '\x00'

/-- The value of an `int` after an operation that may have overflowed. -/
def int32 (value : Int) : Int := value.bmod (2 ^ 32)

section Numbers

/-- `digs`, the lowest digit first; the array has `room` places. -/
def digs (base : Nat) : Nat → Nat → List Nat
  | 0, _ => []
  | room + 1, num => num % base :: if num < base then [] else digs base room (num / base)

/-- `digs[pos] + (digs[pos] >= 10 ? 'a' - 10 : '0')` -/
def digit (d : Nat) : Char := Char.ofNat (d + if d ≥ 10 then 'a'.toNat - 10 else '0'.toNat)

def printnum (num : Word64) (base : Nat) (width : Int) (padc : Char) : List Char :=
  let digs := digs base 64 num.toNat
  List.replicate (width - digs.length).toNat padc ++ digs.reverse.map digit

/-- The loop of `printhex`, from the lowest of its `n` digits on. -/
def hexDigits : Nat → Word64 → List Char → List Char
  | 0, _, str => str
  | n + 1, x, str => hexDigits n (x >>> 4) (digit (x &&& 0xf).toNat :: str)

def printhex (x : Word64) : List Char := hexDigits 16 x []

end Numbers

section Arguments

/-- `getuint` on an argument's slot, which has eight bytes whatever the type. -/
def getuint (slot : Word64) (lflag : Nat) : Word64 :=
  if lflag ≥ 2 then slot
  else if lflag ≠ 0 then slot
  else (slot.setWidth 32).setWidth 64

def getint (slot : Word64) (lflag : Nat) : Word64 :=
  if lflag ≥ 2 then slot
  else if lflag ≠ 0 then slot
  else (slot.setWidth 32).signExtend 64

/-- `va_arg(ap, int)` -/
def intArg (slot : Word64) : Int := (slot.setWidth 32).toInt

end Arguments

section Strings

def strnlen : List Char → Nat → Nat
  | [], _ => 0
  | _, 0 => 0
  | _ :: s, n + 1 => strnlen s n + 1

/-- The loop of `%s` over the bytes of `p`, and `width` behind it. -/
def printChars : List Char → Int → Int → List Char × Int
  | [], _, width => ([], width)
  | ch :: p, precision, width =>
    if precision < 0 then
      let (out, width) := printChars p precision (int32 (width - 1))
      (ch :: out, width)
    else if precision - 1 ≥ 0 then
      let (out, width) := printChars p (precision - 1) (int32 (width - 1))
      (ch :: out, width)
    else ([], width)

/-- `%s`. A negative precision is a `size_t` beyond every string. -/
def printString (p : List Char) (width precision : Int) (padc : Char) : List Char :=
  let (left, width) :=
    if width > 0 ∧ padc ≠ '-' then
      let width := int32 (width - strnlen p (precision % 2 ^ 64).toNat)
      (List.replicate width.toNat padc, min width 0)
    else ([], width)
  let (out, width) := printChars p precision width
  left ++ out ++ List.replicate width.toNat ' '

end Strings

section Directives

/-- What the flags and fields of a directive have set. -/
structure Fields where
  padc : Char := ' '
  width : Int := -1
  precision : Int := -1
  lflag : Nat := 0
  deriving DecidableEq, Repr

/-- `process_precision`: the first number is the width. -/
def Fields.processPrecision (f : Fields) (precision : Int) : Fields :=
  if f.width < 0 then { f with width := precision, precision := -1 }
  else { f with precision }

/-- The loop of the width field. -/
def number (precision : Int) : List Char → Int × List Char
  | [] => (precision, [])
  | ch :: fmt =>
    if ch.isDigit then number (int32 (precision * 10 + ch.toNat - '0'.toNat)) fmt
    else (precision, ch :: fmt)

/-- What is left when `reswitch` has come to a conversion: its character, the fields, the
next argument and the format behind it. -/
structure Scanned where
  ch : Char
  fields : Fields
  ap : Nat
  fmt : List Char

variable (slots : Nat → Word64)

/-- From `reswitch` to the conversion, in at most `steps` rounds. -/
def reswitch : Nat → Fields → Nat → List Char → Scanned
  | 0, f, ap, fmt => ⟨NUL, f, ap, fmt⟩
  | _, f, ap, [] => ⟨NUL, f, ap, []⟩
  | steps + 1, f, ap, ch :: fmt =>
    match ch with
    | '-' => reswitch steps { f with padc := '-' } ap fmt
    | '0' => reswitch steps { f with padc := '0' } ap fmt
    | '1' | '2' | '3' | '4' | '5' | '6' | '7' | '8' | '9' =>
      let (precision, fmt) := number 0 (ch :: fmt)
      reswitch steps (f.processPrecision precision) ap fmt
    | '*' => reswitch steps (f.processPrecision (intArg (slots ap))) (ap + 1) fmt
    | '.' => reswitch steps { f with width := if f.width < 0 then 0 else f.width } ap fmt
    | '#' => reswitch steps f ap fmt
    | 'l' => reswitch steps { f with lflag := f.lflag + 1 } ap fmt
    | ch => ⟨ch, f, ap, fmt⟩

variable (strings : Word64 → List Char)

/-- The conversions: the output and the next argument. -/
def convert (ch : Char) (f : Fields) (ap : Nat) : Option (List Char × Nat) :=
  let unsigned (base : Nat) (lflag : Nat) :=
    printnum (getuint (slots ap) lflag) base f.width f.padc
  match ch with
  | 'c' => some ([Char.ofNat ((slots ap).toNat % 256)], ap + 1)
  | 's' =>
    let p := if slots ap = 0 then "(null)".toList else strings (slots ap)
    some (printString p f.width f.precision f.padc, ap + 1)
  | 'd' =>
    let num := getint (slots ap) f.lflag
    some (if num.msb then '-' :: printnum (-num) 10 f.width f.padc
      else printnum num 10 f.width f.padc, ap + 1)
  | 'u' => some (unsigned 10 f.lflag, ap + 1)
  | 'o' => some (unsigned 8 f.lflag, ap + 1)
  | 'p' => some ('0' :: 'x' :: unsigned 16 1, ap + 1)
  | 'x' => some (unsigned 16 f.lflag, ap + 1)
  | '%' => some (['%'], ap)
  | _ => none

/-- The loop of `vprintfmt`, in at most `rounds` rounds. -/
def vprintfmtLoop : Nat → List Char → Nat → List Char
  | 0, _, _ => []
  | _, [], _ => []
  | rounds + 1, ch :: fmt, ap =>
    if ch ≠ '%' then
      if ch = NUL then [] else ch :: vprintfmtLoop rounds fmt ap
    else
      let scanned := reswitch slots fmt.length {} ap fmt
      match convert slots strings scanned.ch scanned.fields scanned.ap with
      | some (out, ap) => out ++ vprintfmtLoop rounds scanned.fmt ap
      -- an unrecognized directive is printed as it stands
      | none => '%' :: vprintfmtLoop rounds fmt scanned.ap

/-- Every round takes a character of the format. -/
def vprintfmt (fmt : List Char) : List Char := vprintfmtLoop slots strings fmt.length fmt 0

/-- The bytes that are stored, and the result, an `int`. -/
def sprintf (fmt : List Char) : List Char × Int :=
  let out := vprintfmt slots strings fmt
  (out ++ [NUL], int32 out.length)

end Directives

section Reading

/-- The digits of `atol`; sums wrap around. -/
def atolDigits : List Char → Word64 → Word64
  | [], res => res
  | ch :: str, res =>
    if ch = NUL then res
    else atolDigits str (res * 10 + (BitVec.ofNat 64 ch.toNat - BitVec.ofNat 64 '0'.toNat))

def atolSign (str : List Char) : Word64 :=
  match str with
  | '-' :: str => -atolDigits str 0
  | '+' :: str => atolDigits str 0
  | str => atolDigits str 0

def atol : List Char → Word64
  | ' ' :: str => atol str
  | str => atolSign str

end Reading

end RiscvLab.Runtime
