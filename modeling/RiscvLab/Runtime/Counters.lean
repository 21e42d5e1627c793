import RiscvLab.Runtime.Format

/-!
# Counters

`setStats` and the report that `_init` prints when `main` has returned. The report is put
together in a buffer of 64 bytes.
-/
namespace RiscvLab.Runtime

/-- `counters` and `counter_names`; a name is a pointer, null before it is set. -/
structure Stats where
  counters : Fin 2 → Word64
  names : Fin 2 → Word64

/-- The names of the two counters. -/
def counterName (i : Fin 2) : List Char :=
  if i = 0 then "mcycle".toList else "minstret".toList

section SetStats

variable (literals : Fin 2 → Word64)

/-- `READ_CTR` at index `i`; `literals` are the addresses of the names. -/
def readCtr (enable : Bool) (csr : Word64) (i : Fin 2) (s : Stats) : Stats where
  counters := Function.update s.counters i (if enable then csr else csr - s.counters i)
  names := if enable then s.names else Function.update s.names i (literals i)

/-- A call of `setStats`, and what the two counters of the hart are at its reads. -/
structure Call where
  enable : Bool
  csrs : Fin 2 → Word64

def setStats (call : Call) (s : Stats) : Stats :=
  readCtr literals call.enable (call.csrs 1) 1 (readCtr literals call.enable (call.csrs 0) 0 s)

/-- The state after a sequence of calls. -/
def statsAfter (calls : List Call) : Stats :=
  calls.foldl (fun s call => setStats literals call s) ⟨fun _ => 0, fun _ => 0⟩

end SetStats

section Report

variable (strings : Word64 → List Char)

/-- The slots of the arguments behind `"%s = %d\n"`. -/
def lineSlots (s : Stats) (i : Fin 2) (n : Nat) : Word64 :=
  if n = 0 then s.names i else s.counters i

/-- One round of the loop of `_init`: `stored` are the bytes from `buf` on that have been
written, `pbuf` is relative to `buf`. -/
def reportStep (s : Stats) (stored : List Char × Int) (i : Fin 2) : List Char × Int :=
  if s.counters i ≠ 0 then
    let (out, length) := sprintf (lineSlots s i) strings "%s = %d\n".toList
    (stored.1.take stored.2.toNat ++ out, stored.2 + length)
  else stored

def report (s : Stats) : List Char × Int := [0, 1].foldl (reportStep strings s) ([], 0)

/-- What `_init` prints: the string in the buffer, if anything has been written. -/
def printed (s : Stats) : List Char :=
  if (report strings s).2 ≠ 0 then (report strings s).1.takeWhile (· ≠ NUL) else []

end Report

section Lines

variable {strings : Word64 → List Char} {s : Stats} {i : Fin 2}

/-- `"%s = %d\n"` -/
def lineFormat : List Piece := [
  .directive ⟨.none, none, none, 0, .string⟩,
  .plain ' ' (by decide), .plain '=' (by decide), .plain ' ' (by decide),
  .directive ⟨.none, none, none, 0, .decimal⟩,
  .plain '\n' (by decide)]

/-- A number as `%d` prints it. -/
def decimal (value : Int) : List Char :=
  (if value < 0 then ['-'] else []) ++ Nat.toDigits 10 value.natAbs

def nameOf (strings : Word64 → List Char) (s : Stats) (i : Fin 2) : List Char :=
  if s.names i = 0 then "(null)".toList else strings (s.names i)

/-- The line of a counter. Only the lower half of the counter is printed, with a sign. -/
def line (strings : Word64 → List Char) (s : Stats) (i : Fin 2) : List Char :=
  nameOf strings s i ++ (" = ".toList ++ (decimal ((s.counters i).setWidth 32).toInt ++ ['\n']))

theorem sprintf_line (short : ∀ address, (strings address).length < 2 ^ 30) :
    sprintf (lineSlots s i) strings "%s = %d\n".toList =
      (line strings s i ++ [NUL], int32 (line strings s i).length) := by
  have text : lineFormat.flatMap Piece.text = "%s = %d\n".toList := by decide
  have printed : vprintfmt (lineSlots s i) _ _ = _ :=
    vprintfmt_text lineFormat fun _ _ _ => short
  have means : meaning (lineSlots s i) strings lineFormat 0 = line strings s i := by
    have name : Directive.meaning strings ⟨.none, none, none, 0, .string⟩ (s.names i) =
        nameOf strings s i := rightAligned_zero _ _
    have value : Directive.meaning strings ⟨.none, none, none, 0, .decimal⟩ (s.counters i) =
        decimal ((s.counters i).setWidth 32).toInt :=
      congrArg (_ ++ ·) (rightAligned_zero _ _)
    rw [line, ← name, ← value]
    rfl
  rw [text, means] at printed
  unfold sprintf
  rw [printed]

theorem length_decimal {value : Int} (low : -2 ^ 31 ≤ value) (high : value < 2 ^ 31) :
    (decimal value).length ≤ 11 := by
  have digits : (Nat.toDigits 10 value.natAbs).length ≤ 10 := by
    rw [Nat.length_toDigits_le_iff (by decide) (by decide)]
    omega
  unfold decimal
  split
  · rw [List.length_append, List.length_singleton]
    omega
  · rw [List.length_append, List.length_nil]
    omega

theorem length_line {n : Nat} (named : (nameOf strings s i).length ≤ n) :
    (line strings s i).length ≤ n + 15 := by
  have value := length_decimal (BitVec.le_toInt ((s.counters i).setWidth 32))
    (BitVec.toInt_lt (x := (s.counters i).setWidth 32))
  unfold line
  simp only [List.length_append, List.length_singleton]
  have middle : " = ".toList.length = 3 := rfl
  omega

theorem nameOf_short (short : ∀ address, (strings address).length < 2 ^ 30) :
    (nameOf strings s i).length ≤ 2 ^ 30 := by
  unfold nameOf
  split
  · decide
  · exact Nat.le_of_lt (short _)

theorem decimal_text (value : Int) : NUL ∉ decimal value := by
  intro inside
  rcases List.mem_append.mp inside with sign | digit
  · split at sign
    · exact absurd (List.mem_singleton.mp sign) (by decide)
    · exact List.not_mem_nil sign
  · have isDigit := Nat.isDigit_of_mem_toDigits (by decide) (by decide) digit
    exact absurd isDigit (by decide)

theorem line_text (named : NUL ∉ nameOf strings s i) : NUL ∉ line strings s i := by
  unfold line
  simp only [List.mem_append, not_or]
  exact ⟨named, by decide, decimal_text _, by decide⟩

end Lines

section Report

variable {strings : Word64 → List Char} {s : Stats}

/-- The lines of the counters that are not zero. -/
def reportText (strings : Word64 → List Char) (s : Stats) (indices : List (Fin 2)) : List Char :=
  indices.flatMap fun i => if s.counters i ≠ 0 then line strings s i else []

/-- The buffer holds `text`. -/
def Holds (stored : List Char × Int) (text : List Char) : Prop :=
  stored.2 = text.length ∧ (stored.1 = text ++ [NUL] ∨ text = [] ∧ stored.1 = [])

theorem Holds.take {stored : List Char × Int} {text : List Char} (h : Holds stored text) :
    stored.1.take stored.2.toNat = text := by
  obtain ⟨length, content⟩ := h
  rw [length, Int.toNat_natCast]
  rcases content with written | ⟨empty, nothing⟩
  · rw [written]
    exact List.take_left
  · rw [empty, nothing]
    rfl

theorem reportStep_holds (short : ∀ address, (strings address).length < 2 ^ 30)
    {stored : List Char × Int} {text : List Char} (h : Holds stored text) (i : Fin 2) :
    Holds (reportStep strings s stored i)
      (text ++ if s.counters i ≠ 0 then line strings s i else []) := by
  unfold reportStep
  split
  next =>
    rw [sprintf_line short, h.take]
    refine ⟨?_, .inl (List.append_assoc _ _ _).symm⟩
    have length : (line strings s i).length ≤ _ := length_line (nameOf_short short)
    rw [List.length_append, h.1, int32_eq (by omega) (by omega), Int.natCast_add]
  next =>
    rw [List.append_nil]
    exact h

/-- The loop of `_init` puts one line after the other. -/
theorem report_holds (short : ∀ address, (strings address).length < 2 ^ 30)
    (indices : List (Fin 2)) {stored : List Char × Int} {text : List Char}
    (h : Holds stored text) :
    Holds (indices.foldl (reportStep strings s) stored) (text ++ reportText strings s indices) := by
  induction indices generalizing stored text with
  | nil =>
    rw [reportText, List.flatMap_nil, List.append_nil]
    exact h
  | cons i indices ih =>
    have rest := ih (reportStep_holds (s := s) short h i)
    rw [List.append_assoc] at rest
    exact rest

end Report

section Run

variable {strings : Word64 → List Char} {literals : Fin 2 → Word64}

/-- The strings of the program: no string is overlong, and the names of the counters stand
at `literals`. -/
structure ProgramStrings (strings : Word64 → List Char) (literals : Fin 2 → Word64) : Prop where
  short : ∀ address, (strings address).length < 2 ^ 30
  name : ∀ i, strings (literals i) = counterName i

/-- A name is null or that of its counter. -/
def Named (literals : Fin 2 → Word64) (s : Stats) : Prop :=
  ∀ i, s.names i = 0 ∨ s.names i = literals i

theorem readCtr_named {s : Stats} (h : Named literals s) (enable : Bool) (csr : Word64)
    (i : Fin 2) : Named literals (readCtr literals enable csr i s) := by
  intro j
  cases enable with
  | true => exact h j
  | false =>
    by_cases own : j = i
    · subst own
      exact .inr (Function.update_self ..)
    · have other : (readCtr literals false csr i s).names j = s.names j :=
        Function.update_of_ne own ..
      rw [other]
      exact h j

theorem statsAfter_named (literals : Fin 2 → Word64) (calls : List Call) :
    Named literals (statsAfter literals calls) := by
  have run : ∀ (calls : List Call) (s : Stats), Named literals s →
      Named literals (calls.foldl (fun s call => setStats literals call s) s) := by
    intro calls
    induction calls with
    | nil => exact fun s h => h
    | cons call calls ih => exact fun s h => ih _ (readCtr_named (readCtr_named h _ _ 0) _ _ 1)
  exact run calls _ (fun _ => .inl rfl)

theorem nameOf_named (program : ProgramStrings strings literals) {s : Stats}
    (h : Named literals s) (i : Fin 2) :
    (nameOf strings s i).length ≤ 8 ∧ NUL ∉ nameOf strings s i := by
  have known : ∀ i, (counterName i).length ≤ 8 ∧ NUL ∉ counterName i := by decide
  unfold nameOf
  split
  · decide
  · rcases h i with null | name
    · contradiction
    · rw [name, program.name]
      exact known i

theorem reportText_bounds (program : ProgramStrings strings literals) {s : Stats}
    (h : Named literals s) : (reportText strings s [0, 1]).length ≤ 46 ∧
      NUL ∉ reportText strings s [0, 1] := by
  have lines : ∀ i, (if s.counters i ≠ 0 then line strings s i else []).length ≤ 23 ∧
      NUL ∉ (if s.counters i ≠ 0 then line strings s i else []) := by
    intro i
    obtain ⟨length, text⟩ := nameOf_named program h i
    split
    · exact ⟨length_line length, line_text text⟩
    · exact ⟨Nat.zero_le _, List.not_mem_nil⟩
  obtain ⟨first, text⟩ := lines 0
  obtain ⟨second, text'⟩ := lines 1
  rw [reportText, List.flatMap_cons, List.flatMap_singleton, List.length_append, List.mem_append]
  exact ⟨by omega, fun inside => inside.elim text text'⟩

/-- What `_init` leaves in the buffer and prints. -/
theorem report_text (program : ProgramStrings strings literals) {s : Stats}
    (h : Named literals s) :
    Holds (report strings s) (reportText strings s [0, 1]) ∧
      printed strings s = reportText strings s [0, 1] := by
  have empty : Holds ([], 0) [] := ⟨rfl, .inr ⟨rfl, rfl⟩⟩
  have holds := report_holds (s := s) program.short [0, 1] empty
  rw [List.nil_append] at holds
  change Holds (report strings s) _ at holds
  have text := (reportText_bounds program h).2
  refine ⟨holds, ?_⟩
  obtain ⟨length, content⟩ := holds
  unfold printed
  rw [length]
  rcases content with written | ⟨none_, nothing⟩
  · have cut : (reportText strings s [0, 1] ++ [NUL]).takeWhile (· ≠ NUL) =
        reportText strings s [0, 1] := by
      rw [List.takeWhile_append_of_pos]
      · exact List.append_nil _
      · intro c inside
        exact decide_eq_true (fun nul => text (nul ▸ inside))
    rw [written, cut]
    split
    next => rfl
    next nothing =>
      have length := Int.natCast_eq_zero.mp (not_not.mp nothing)
      exact (List.eq_nil_of_length_eq_zero length).symm
  · rw [none_, if_neg (by decide)]

/-- Whatever calls of `setStats` a program makes and whatever the counters of the hart are,
`_init` stays inside its buffer of 64 bytes and prints one line for each counter that is not
zero. -/
theorem report_fits (program : ProgramStrings strings literals) (calls : List Call) :
    (report strings (statsAfter literals calls)).1.length ≤ 64 ∧
      printed strings (statsAfter literals calls) =
        reportText strings (statsAfter literals calls) [0, 1] := by
  have named := statsAfter_named literals calls
  obtain ⟨⟨-, content⟩, text⟩ := report_text program named
  have long := (reportText_bounds program named).1
  refine ⟨?_, text⟩
  rcases content with written | ⟨-, nothing⟩
  · rw [written, List.length_append, List.length_singleton]
    omega
  · rw [nothing]
    decide

/-- The names at 0x1000 and 0x2000. -/
def sampleStrings (address : Word64) : List Char :=
  if address = 0x1000 then "mcycle".toList
  else if address = 0x2000 then "minstret".toList
  else []

def sampleLiterals (i : Fin 2) : Word64 := if i = 0 then 0x1000 else 0x2000

theorem sample_program : ProgramStrings sampleStrings sampleLiterals := by
  refine ⟨fun address => ?_, by decide⟩
  unfold sampleStrings
  split
  · decide
  · split <;> decide

/-- Without a second call the names are null. -/
theorem report_fits_started :
    printed sampleStrings (statsAfter sampleLiterals [⟨true, fun _ => 0xffffffff⟩]) =
      "(null) = -1\n(null) = -1\n".toList :=
  (report_fits sample_program [⟨true, fun _ => 0xffffffff⟩]).2

/-- A pair of calls leaves the differences of the counters. -/
theorem statsAfter_pair (literals : Fin 2 → Word64) (calls : List Call)
    (start stop : Fin 2 → Word64) :
    (statsAfter literals (calls ++ [⟨true, start⟩, ⟨false, stop⟩])).counters =
        (fun i => stop i - start i) ∧
      (statsAfter literals (calls ++ [⟨true, start⟩, ⟨false, stop⟩])).names = literals := by
  unfold statsAfter
  rw [List.foldl_append]
  generalize calls.foldl (fun s call => setStats literals call s) ⟨fun _ => 0, fun _ => 0⟩ = s
  have indices : ∀ i : Fin 2, i = 0 ∨ i = 1 := by decide
  constructor
  · funext i
    rcases indices i with rfl | rfl <;> rfl
  · funext i
    rcases indices i with rfl | rfl <;> rfl

/-- If a program ends with `setStats(1)` and `setStats(0)`, the report gives the differences
of the counters that have moved: their lower halves, with a sign. -/
theorem report_measures (program : ProgramStrings strings literals)
    (present : ∀ i, literals i ≠ 0) (calls : List Call) (start stop : Fin 2 → Word64) :
    printed strings (statsAfter literals (calls ++ [⟨true, start⟩, ⟨false, stop⟩])) =
      [(0 : Fin 2), 1].flatMap fun i =>
        if stop i - start i ≠ 0 then
          counterName i ++ (" = ".toList ++
            (decimal ((stop i - start i).setWidth 32).toInt ++ ['\n']))
        else [] := by
  obtain ⟨counters, names⟩ := statsAfter_pair literals calls start stop
  rw [(report_text program (statsAfter_named literals _)).2]
  unfold reportText line nameOf
  rw [counters, names]
  simp only [present, if_false, program.name]

/-- A thousand cycles with 900 instructions. -/
theorem report_measures_sample :
    printed sampleStrings (statsAfter sampleLiterals
      [⟨true, fun i => if i = 0 then 20 else 10⟩, ⟨false, fun i => if i = 0 then 1020 else 910⟩]) =
      "mcycle = 1000\nminstret = 900\n".toList :=
  report_measures sample_program (by decide) [] _ _

end Run

end RiscvLab.Runtime
