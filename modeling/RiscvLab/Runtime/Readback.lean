import RiscvLab.Runtime.Format

/-!
# Numbers read back

`atol` reads what `%d` and `%ld` print, and `printhex` prints what `%016lx` does.
-/
namespace RiscvLab.Runtime

section Atol

variable {l : List Char}

theorem digit_bounds {c : Char} (digit : c.isDigit = true) : 48 ≤ c.toNat ∧ c.toNat ≤ 57 := by
  rw [Char.isDigit, Bool.and_eq_true, decide_eq_true_eq, decide_eq_true_eq] at digit
  exact digit

theorem atolDigits_eq (digits : ∀ c ∈ l, c.isDigit = true) (init : Nat) :
    atolDigits (l ++ [NUL]) (BitVec.ofNat 64 init) =
      BitVec.ofNat 64 (Nat.ofDigitChars 10 l init) := by
  induction l generalizing init with
  | nil =>
    rw [Nat.ofDigitChars_nil]
    rfl
  | cons c l ih =>
    have here := digit_bounds (digits c List.mem_cons_self)
    have some_digit : c ≠ NUL := by
      rintro rfl
      exact absurd here.1 (by decide)
    have next : BitVec.ofNat 64 init * 10 + (BitVec.ofNat 64 c.toNat - BitVec.ofNat 64 '0'.toNat) =
        BitVec.ofNat 64 (10 * init + (c.toNat - '0'.toNat)) := by
      change BitVec.ofNat 64 init * 10 + (BitVec.ofNat 64 c.toNat - BitVec.ofNat 64 48) =
        BitVec.ofNat 64 (10 * init + (c.toNat - 48))
      obtain ⟨value, shifted⟩ := Nat.exists_eq_add_of_le here.1
      rw [shifted, Nat.add_sub_cancel_left, BitVec.ofNat_add 48, BitVec.add_comm 48#64,
        BitVec.add_sub_cancel, BitVec.ofNat_add, BitVec.ofNat_mul, BitVec.mul_comm]
      rfl
    rw [List.cons_append, atolDigits, if_neg some_digit, next, Nat.ofDigitChars_cons]
    exact ih (fun d inside => digits d (List.mem_cons_of_mem c inside)) _

/-- Digits without a sign. -/
theorem atol_digits (digits : ∀ c ∈ l, c.isDigit = true) (some_digit : l ≠ []) :
    atol (l ++ [NUL]) = BitVec.ofNat 64 (Nat.ofDigitChars 10 l 0) := by
  cases l with
  | nil => exact absurd rfl some_digit
  | cons c l =>
    have here := digit_bounds (digits c List.mem_cons_self)
    have read := atolDigits_eq digits 0
    rw [← read]
    have space : c ≠ ' ' := by
      rintro rfl
      exact absurd here.1 (by decide)
    have minus : c ≠ '-' := by
      rintro rfl
      exact absurd here.1 (by decide)
    have plus : c ≠ '+' := by
      rintro rfl
      exact absurd here.1 (by decide)
    rw [List.cons_append, atol.eq_2 _ (fun _ same => space (List.cons.inj same).1), atolSign.eq_3]
    · rfl
    · exact fun _ same => minus (List.cons.inj same).1
    · exact fun _ same => plus (List.cons.inj same).1

/-- A number with zeros in front of it. -/
def zeroPadded (zeros n : Nat) : List Char := List.replicate zeros '0' ++ Nat.toDigits 10 n

theorem zeroPadded_digits (zeros n : Nat) : ∀ c ∈ zeroPadded zeros n, c.isDigit = true := by
  intro c inside
  rcases List.mem_append.mp inside with zero | digit
  · rw [List.eq_of_mem_replicate zero]
    rfl
  · exact Nat.isDigit_of_mem_toDigits (by decide) (by decide) digit

theorem zeroPadded_value (zeros n : Nat) : Nat.ofDigitChars 10 (zeroPadded zeros n) 0 = n := by
  rw [zeroPadded, Nat.ofDigitChars_append, Nat.ofDigitChars_replicate_zero, Nat.mul_zero,
    Nat.ofDigitChars_ten_toDigits]

theorem atol_zeroPadded (zeros n : Nat) :
    atol (zeroPadded zeros n ++ [NUL]) = BitVec.ofNat 64 n := by
  have some_digit : zeroPadded zeros n ≠ [] := by simp [zeroPadded]
  rw [atol_digits (zeroPadded_digits zeros n) some_digit, zeroPadded_value]

theorem atol_negative (zeros n : Nat) :
    atol ('-' :: (zeroPadded zeros n ++ [NUL])) = -BitVec.ofNat 64 n := by
  have read := atolDigits_eq (zeroPadded_digits zeros n) 0
  rw [zeroPadded_value] at read
  exact congrArg Neg.neg read

/-- Without a width or with the flag `0` there are only zeros in front of a number. -/
theorem numeral_zeros {d : Directive} (unpadded : d.width = none ∨ d.flag = .zero) (n : Nat) :
    ∃ zeros, d.numeral 10 n = zeroPadded zeros n := by
  rcases unpadded with narrow | zero
  · refine ⟨0, ?_⟩
    rw [Directive.numeral, rightAligned, narrow, Option.elim_none, Nat.zero_sub]
    rfl
  · exact ⟨_, by rw [Directive.numeral, rightAligned, zero]; rfl⟩

/-- `atol` reads back what `%d` and `%ld` print, with or without leading zeros. -/
theorem atol_sprintf (slots : Nat → Word64) (strings : Word64 → List Char) (d : Directive)
    (decimal : d.conversion = .decimal) (unpadded : d.width = none ∨ d.flag = .zero) :
    (atol (sprintf slots strings (Piece.directive d).text).1).toInt = d.signed (slots 0) := by
  have printsNone : ShortStrings strings [.directive d] := by
    intro other inside isString
    cases List.mem_singleton.mp inside
    cases decimal.symm.trans isString
  have printed : vprintfmt slots _ _ = _ := vprintfmt_text [.directive d] printsNone
  rw [List.flatMap_singleton] at printed
  obtain ⟨zeros, numeral⟩ := numeral_zeros unpadded (d.signed (slots 0)).natAbs
  have output : (sprintf slots strings (Piece.directive d).text).1 =
      (if d.signed (slots 0) < 0 then ['-'] else []) ++
        (zeroPadded zeros (d.signed (slots 0)).natAbs ++ [NUL]) := by
    change vprintfmt slots strings (Piece.directive d).text ++ [NUL] = _
    rw [printed, meaning, meaning, Directive.meaning, decimal]
    dsimp only
    rw [numeral, List.append_nil, List.append_assoc]
  rw [output, ← getint_eq]
  generalize getint (slots 0) d.long = num
  by_cases negative : num.toInt < 0
  · rw [if_pos negative, natAbs_negative negative, List.singleton_append, atol_negative,
      BitVec.ofNat_toNat, BitVec.setWidth_eq, BitVec.neg_neg]
  · rw [if_neg negative, natAbs_positive negative, List.nil_append, atol_zeroPadded,
      BitVec.ofNat_toNat, BitVec.setWidth_eq]

/-- `%024ld` -/
def longZeros : Directive := ⟨.zero, some ⟨24, by decide⟩, none, 1, .decimal⟩

/-- The lowest `long` is read back. -/
theorem atol_sprintf_lowest :
    (atol (sprintf (fun _ => 0x8000000000000000) (fun _ => []) "%024ld".toList).1).toInt =
      -9223372036854775808 := by
  have read : (atol (sprintf (fun _ => 0x8000000000000000) _ _).1).toInt = _ :=
    atol_sprintf _ (fun _ => []) longZeros rfl (.inr rfl)
  have text : (Piece.directive longZeros).text = "%024ld".toList := by decide
  rw [text] at read
  exact read.trans (by decide)

end Atol

section Printhex

/-- The last digit of a number with zeros in front of it. -/
theorem zeros_step (n m : Nat) : rightAligned (n + 2) '0' (Nat.toDigits 16 m) =
    rightAligned (n + 1) '0' (Nat.toDigits 16 (m / 16)) ++ [(m % 16).digitChar] := by
  unfold rightAligned
  by_cases last : m < 16
  · have zeros : List.replicate (n + 1) '0' = List.replicate n '0' ++ ['0'] :=
      List.replicate_succ'
    rw [Nat.toDigits_of_lt_base last, Nat.div_eq_of_lt last, Nat.mod_eq_of_lt last,
      Nat.toDigits_zero]
    exact congrArg (· ++ [m.digitChar]) zeros
  · have room := Nat.add_sub_add_right (n + 1) 1 (Nat.toDigits 16 (m / 16)).length
    rw [Nat.toDigits_of_base_le (by decide) (Nat.le_of_not_lt last), List.length_append,
      List.length_singleton, room, List.append_assoc]

/-- The digits of `printhex` are those of the number behind zeros. -/
theorem hexDigits_eq {n : Nat} {x : Word64} (str : List Char) (fits : x.toNat < 16 ^ (n + 1)) :
    hexDigits (n + 1) x str = rightAligned (n + 1) '0' (Nat.toDigits 16 x.toNat) ++ str := by
  have low : ∀ x : Word64, digit (x &&& 0xf).toNat = (x.toNat % 16).digitChar := by
    intro x
    have mask : (x &&& 0xf).toNat = x.toNat % 16 := by
      rw [BitVec.toNat_and]
      exact Nat.and_two_pow_sub_one_eq_mod x.toNat 4
    rw [mask]
    exact digit_eq (Nat.mod_lt _ (by decide))
  induction n generalizing x str with
  | zero =>
    have small : x.toNat < 16 := fits
    rw [hexDigits, hexDigits, low, Nat.toDigits_of_lt_base small, Nat.mod_eq_of_lt small]
    rfl
  | succ n ih =>
    have rest : (x >>> 4).toNat = x.toNat / 16 := by
      rw [BitVec.toNat_ushiftRight, Nat.shiftRight_eq_div_pow]
    have smaller : (x >>> 4).toNat < 16 ^ (n + 1) := by
      rw [rest, Nat.div_lt_iff_lt_mul (by decide), ← Nat.pow_succ]
      exact fits
    rw [hexDigits, ih _ smaller, low, rest, zeros_step, List.append_assoc]
    rfl

/-- `%016lx` -/
def longHex : Directive := ⟨.zero, some ⟨16, by decide⟩, none, 1, .hexadecimal⟩

/-- `printhex` prints what `printf` prints for `%016lx`. -/
theorem printhex_eq (slots : Nat → Word64) (strings : Word64 → List Char) :
    printhex (slots 0) = vprintfmt slots strings "%016lx".toList := by
  have printsNone : ShortStrings strings [.directive longHex] := by
    intro d inside isString
    cases List.mem_singleton.mp inside
    cases isString
  have printed : vprintfmt slots _ _ = _ := vprintfmt_text [.directive longHex] printsNone
  have text : [Piece.directive longHex].flatMap Piece.text = "%016lx".toList := by decide
  rw [text, meaning, meaning, List.append_nil] at printed
  rw [printed, printhex, hexDigits_eq [] (slots 0).isLt, List.append_nil]
  rfl

end Printhex

end RiscvLab.Runtime
