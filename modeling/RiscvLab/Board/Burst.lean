import RiscvLab.Board.Converter

/-!
# One burst of the converter

From the pulse to the response the converter goes through fixed stages, one cycle each
but for the wait for the slave. The handshakes of the channels are counted, so that a
compliant slave can be told by its responses.
-/
namespace RiscvLab.Board
open RiscvLab.Lib.ByteMemory

section Channels

variable (slave : SlaveInput) (c : Converter)

/-- The handshakes of the five channels. -/
def awTaken : Bool := c.axiAwvalid && slave.awready

def wTaken : Bool := c.axiWvalid && slave.wready

def bTaken : Bool := slave.bvalid && c.axiBready

def arTaken : Bool := c.axiArvalid && slave.arready

def rTaken : Bool := slave.rvalid && c.axiRready

/-- The handshakes of each channel so far. -/
structure Taken where
  aw : Nat
  w : Nat
  b : Nat
  ar : Nat
  r : Nat

def Taken.count (slave : SlaveInput) (c : Converter) (t : Taken) : Taken where
  aw := t.aw + (awTaken slave c).toNat
  w := t.w + (wTaken slave c).toNat
  b := t.b + (bTaken slave c).toNat
  ar := t.ar + (arTaken slave c).toNat
  r := t.r + (rTaken slave c).toNat

/-- Every response that was due has been taken. -/
structure Taken.Balanced (t : Taken) : Prop where
  address : t.aw = t.b
  word : t.w = t.b
  read : t.ar = t.r

end Channels

section Converter

/-- The state of the converter for one burst. -/
def execOf : Bool → ExecState
  | true => .initWrite
  | false => .initRead

def Converter.active (c : Converter) : Bool → Bool
  | true => c.burstWriteActive
  | false => c.burstReadActive

def Converter.doneFlag (c : Converter) : Bool → Bool
  | true => c.writesDone
  | false => c.readsDone

/-- No address and no word is shown. -/
structure NoValid (c : Converter) : Prop where
  aw : c.axiAwvalid = false
  w : c.axiWvalid = false
  ar : c.axiArvalid = false

/-- Nothing is sent and nothing is about to be. -/
structure Silent (c : Converter) : Prop extends NoValid c where
  startWrite : c.startSingleBurstWrite = false
  startRead : c.startSingleBurstRead = false

/-- Between two bursts `compare_done` is 1. -/
structure Resting (c : Converter) : Prop extends Silent c where
  exec : c.mstExecState = .idle
  done : c.compareDone = true

/-- The pulse has been taken. -/
structure Latched (write : Bool) (c : Converter) : Prop extends Silent c where
  exec : c.mstExecState = execOf write
  done : c.compareDone = false
  inactive : c.active write = false
  unanswered : c.doneFlag write = false

/-- The burst is about to be sent. -/
structure Launching (write : Bool) (c : Converter) : Prop extends NoValid c where
  exec : c.mstExecState = execOf write
  done : c.compareDone = false
  startWrite : c.startSingleBurstWrite = write
  startRead : c.startSingleBurstRead = !write
  unanswered : c.doneFlag write = false
  last : c.axiWlast = true

/-- The burst has been sent and not been answered. -/
structure Sent (write : Bool) (c : Converter) : Prop where
  exec : c.mstExecState = execOf write
  done : c.compareDone = false
  startWrite : c.startSingleBurstWrite = false
  startRead : c.startSingleBurstRead = false
  active : c.active write = true
  unanswered : c.doneFlag write = false
  last : c.axiWlast = true

/-- The response has been taken. -/
structure Responded (write : Bool) (c : Converter) : Prop extends Silent c where
  exec : c.mstExecState = execOf write
  done : c.compareDone = false
  closed : c.doneFlag write = true

variable {write : Bool} {c : Converter} (slave : SlaveInput) (address word : Word)
  (writeNread : Bool) {initAxiTxn : Bool}

/-- Nothing is shown that no start flag asks for. -/
theorem Silent.clock_noValid (h : Silent c) :
    NoValid (c.clock slave address word writeNread initAxiTxn) := by
  obtain ⟨⟨aw, w, ar⟩, startWrite, startRead⟩ := h
  constructor <;> simp [Converter.clock, *]

theorem Resting.clock (h : Resting c) (noPulse : c.initTxnPulse initAxiTxn = false) :
    Resting (c.clock slave address word writeNread initAxiTxn) := by
  obtain ⟨silent, exec, done⟩ := h
  refine ⟨⟨silent.clock_noValid .., ?_, ?_⟩, ?_, ?_⟩ <;>
    simp [Converter.clock, noPulse, exec, done, silent.startWrite, silent.startRead]

theorem Resting.pulse (h : Resting c) (pulse : c.initTxnPulse initAxiTxn = true) :
    Latched write (c.clock slave address word write initAxiTxn) := by
  obtain ⟨silent, exec, done⟩ := h
  refine ⟨⟨silent.clock_noValid .., ?_, ?_⟩, ?_, ?_, ?_, ?_⟩ <;> cases write <;>
    simp [Converter.clock, execOf, Converter.active, Converter.doneFlag, pulse, exec,
      silent.startWrite, silent.startRead]

/-- The burst is launched. No response can be taken before it has been sent. -/
theorem Latched.clock (h : Latched write c) (noPulse : c.initTxnPulse initAxiTxn = false)
    (noWrite : bTaken slave c = false) (noRead : rTaken slave c = false) :
    Launching write (c.clock slave address word writeNread initAxiTxn) := by
  obtain ⟨silent, exec, done, inactive, unanswered⟩ := h
  have shown : NoValid (c.clock slave address word writeNread initAxiTxn) :=
    silent.clock_noValid slave address word writeNread
  obtain ⟨⟨aw, w, ar⟩, startWrite, startRead⟩ := silent
  unfold bTaken at noWrite
  unfold rTaken at noRead
  cases write <;> refine ⟨shown, ?_, ?_, ?_, ?_, ?_, ?_⟩ <;>
    simp_all [Converter.clock, execOf, Converter.active, Converter.doneFlag]

theorem Launching.clock (h : Launching write c) (noPulse : c.initTxnPulse initAxiTxn = false)
    (noWrite : bTaken slave c = false) (noRead : rTaken slave c = false) :
    Sent write (c.clock slave address word writeNread initAxiTxn) := by
  obtain ⟨⟨aw, w, ar⟩, exec, done, startWrite, startRead, unanswered, last⟩ := h
  unfold bTaken at noWrite
  unfold rTaken at noRead
  cases write <;> constructor <;>
    simp_all [Converter.clock, execOf, Converter.active, Converter.doneFlag]

/-- The channels of the burst are shown on one edge. -/
theorem Launching.valid (h : Launching write c) (noPulse : c.initTxnPulse initAxiTxn = false) :
    (c.clock slave address word writeNread initAxiTxn).axiAwvalid = write ∧
      (c.clock slave address word writeNread initAxiTxn).axiWvalid = write ∧
      (c.clock slave address word writeNread initAxiTxn).axiArvalid = !write := by
  obtain ⟨⟨aw, w, ar⟩, exec, done, startWrite, startRead, unanswered, last⟩ := h
  simp [Converter.clock, *]

/-- A burst that has been sent keeps its valid signals up to the handshakes. -/
theorem Sent.valid (h : Sent write c) (noPulse : c.initTxnPulse initAxiTxn = false) :
    (c.clock slave address word writeNread initAxiTxn).axiAwvalid =
        (c.axiAwvalid && !slave.awready) ∧
      (c.clock slave address word writeNread initAxiTxn).axiWvalid =
        (c.axiWvalid && !slave.wready) ∧
      (c.clock slave address word writeNread initAxiTxn).axiArvalid =
        (c.axiArvalid && !slave.arready) := by
  obtain ⟨exec, done, startWrite, startRead, active, unanswered, last⟩ := h
  refine ⟨?_, ?_, ?_⟩
  · cases valid : c.axiAwvalid <;> cases ready : slave.awready <;>
      simp [Converter.clock, noPulse, startWrite, valid, ready]
  · cases valid : c.axiWvalid <;> cases ready : slave.wready <;>
      simp [Converter.clock, noPulse, startWrite, last, valid, ready]
  · cases valid : c.axiArvalid <;> cases ready : slave.arready <;>
      simp [Converter.clock, noPulse, startRead, valid, ready]

/-- The response to the burst. -/
def responded (slave : SlaveInput) (c : Converter) : Bool → Bool
  | true => bTaken slave c
  | false => rTaken slave c

theorem Sent.clock (h : Sent write c) (noPulse : c.initTxnPulse initAxiTxn = false)
    (waiting : responded slave c write = false) :
    Sent write (c.clock slave address word writeNread initAxiTxn) := by
  obtain ⟨exec, done, startWrite, startRead, active, unanswered, last⟩ := h
  cases write with
  | true =>
    have none : slave.bvalid = false ∨ c.axiBready = false :=
      Bool.and_eq_false_iff.mp waiting
    rcases none with none | none <;> constructor <;>
      simp_all [Converter.clock, execOf, Converter.active, Converter.doneFlag]
  | false =>
    have none : slave.rvalid = false ∨ c.axiRready = false :=
      Bool.and_eq_false_iff.mp waiting
    rcases none with none | none <;> constructor <;>
      simp_all [Converter.clock, execOf, Converter.active, Converter.doneFlag]

theorem Sent.respond (h : Sent write c) (noPulse : c.initTxnPulse initAxiTxn = false)
    (answer : responded slave c write = true)
    (shown : NoValid c) :
    Responded write (c.clock slave address word writeNread initAxiTxn) := by
  obtain ⟨aw, w, ar⟩ := shown
  have valid := h.valid slave address word writeNread noPulse
  obtain ⟨exec, done, startWrite, startRead, active, unanswered, last⟩ := h
  rw [aw, w, ar] at valid
  constructor
  · refine ⟨⟨valid.1, valid.2.1, valid.2.2⟩, ?_, ?_⟩ <;> cases write <;>
      simp_all [Converter.clock, execOf, Converter.active, Converter.doneFlag]
  all_goals cases write <;>
    simp_all [Converter.clock, execOf, Converter.doneFlag, responded, bTaken, rTaken]

/-- `compare_done` rises one cycle after the response. -/
theorem Responded.clock (h : Responded write c) (noPulse : c.initTxnPulse initAxiTxn = false) :
    Resting (c.clock slave address word writeNread initAxiTxn) := by
  obtain ⟨silent, exec, done, closed⟩ := h
  refine ⟨⟨silent.clock_noValid .., ?_, ?_⟩, ?_, ?_⟩ <;> cases write <;>
    simp_all [Converter.clock, execOf, Converter.doneFlag, silent.startWrite, silent.startRead]

end Converter

section Accounts

/-- `writes` and `reads` bursts have been sent and not answered. -/
structure Outstanding (writes reads : Nat) (c : Converter) (t : Taken) : Prop where
  address : t.aw + c.axiAwvalid.toNat = t.b + writes
  word : t.w + c.axiWvalid.toNat = t.b + writes
  read : t.ar + c.axiArvalid.toNat = t.r + reads
  order : t.b ≤ t.aw ∧ t.b ≤ t.w ∧ t.r ≤ t.ar

/-- The slave drives a response only where one is due. -/
structure Due (slave : SlaveInput) (t : Taken) : Prop where
  write : slave.bvalid = true → t.b < t.aw ∧ t.b < t.w
  read : slave.rvalid = true → t.r < t.ar

variable {slave : SlaveInput} {c c' : Converter} {t : Taken} {writes reads : Nat} {write : Bool}

theorem Outstanding.noWrite (h : Outstanding 0 reads c t) (due : Due slave t) :
    bTaken slave c = false := by
  have account := h.address
  cases valid : slave.bvalid with
  | false => rw [bTaken, valid, Bool.false_and]
  | true =>
    have owed := (due.write valid).1
    omega

theorem Outstanding.noRead (h : Outstanding writes 0 c t) (due : Due slave t) :
    rTaken slave c = false := by
  have account := h.read
  cases valid : slave.rvalid with
  | false => rw [rTaken, valid, Bool.false_and]
  | true =>
    have owed := due.read valid
    omega

/-- Nothing is shown before the edge and nothing after it. -/
theorem Outstanding.noValid (h : Outstanding 0 0 c t) (due : Due slave t) (now : NoValid c)
    (next : NoValid c') : Outstanding 0 0 c' (t.count slave c) := by
  have noWrite := h.noWrite due
  have noRead := h.noRead due
  obtain ⟨address, word, read, order⟩ := h
  constructor <;>
    simp_all [Taken.count, awTaken, wTaken, arTaken, now.aw, now.w, now.ar, next.aw, next.w,
      next.ar]

theorem Outstanding.launch (h : Outstanding 0 0 c t) (due : Due slave t)
    (now : Launching write c)
    (sent : c'.axiAwvalid = write ∧ c'.axiWvalid = write ∧ c'.axiArvalid = !write) :
    Outstanding write.toNat (!write).toNat c' (t.count slave c) := by
  have noWrite := h.noWrite due
  have noRead := h.noRead due
  obtain ⟨address, word, read, order⟩ := h
  constructor <;>
    simp_all [Taken.count, awTaken, wTaken, arTaken, now.aw, now.w, now.ar]

/-- A handshake of an address or a word takes it from the valid signals. -/
theorem Outstanding.wait (h : Outstanding writes reads c t)
    (noWrite : bTaken slave c = false) (noRead : rTaken slave c = false)
    (held : c'.axiAwvalid = (c.axiAwvalid && !slave.awready) ∧
      c'.axiWvalid = (c.axiWvalid && !slave.wready) ∧
      c'.axiArvalid = (c.axiArvalid && !slave.arready)) :
    Outstanding writes reads c' (t.count slave c) := by
  have split : ∀ valid ready : Bool,
      (valid && ready).toNat + (valid && !ready).toNat = valid.toNat := by decide
  obtain ⟨address, word, read, order⟩ := h
  obtain ⟨aw, w, ar⟩ := held
  have awSplit := split c.axiAwvalid slave.awready
  have wSplit := split c.axiWvalid slave.wready
  have arSplit := split c.axiArvalid slave.arready
  constructor
  · rw [aw]
    simp only [Taken.count, awTaken, noWrite, Bool.toNat_false]
    omega
  · rw [w]
    simp only [Taken.count, wTaken, noWrite, Bool.toNat_false]
    omega
  · rw [ar]
    simp only [Taken.count, arTaken, noRead, Bool.toNat_false]
    omega
  · simp only [Taken.count, noWrite, noRead, Bool.toNat_false]
    omega

/-- When the response is taken all parts of the burst have been. -/
theorem Outstanding.noValid_of_response (h : Outstanding write.toNat (!write).toNat c t)
    (due : Due slave t) (answer : responded slave c write = true) :
    NoValid c := by
  have zero : ∀ valid : Bool, valid.toNat = 0 → valid = false := by decide
  obtain ⟨address, word, read, order⟩ := h
  cases write with
  | true =>
    have owed := due.write (Bool.and_eq_true_iff.mp answer).1
    simp only [Bool.toNat_true, Bool.not_true, Bool.toNat_false] at address word read
    exact ⟨zero _ (by omega), zero _ (by omega), zero _ (by omega)⟩
  | false =>
    have owed := due.read (Bool.and_eq_true_iff.mp answer).1
    simp only [Bool.toNat_true, Bool.not_false, Bool.toNat_false] at address word read
    exact ⟨zero _ (by omega), zero _ (by omega), zero _ (by omega)⟩

/-- The response settles the account. -/
theorem Outstanding.respond (h : Outstanding write.toNat (!write).toNat c t)
    (due : Due slave t) (answer : responded slave c write = true) (next : NoValid c') :
    Outstanding 0 0 c' (t.count slave c) := by
  obtain ⟨aw, w, ar⟩ := h.noValid_of_response due answer
  cases write with
  | true =>
    have noRead := Outstanding.noRead h due
    have taken : bTaken slave c = true := answer
    obtain ⟨address, word, read, order⟩ := h
    constructor <;>
      simp_all [Taken.count, awTaken, wTaken, arTaken, next.aw, next.w, next.ar]
  | false =>
    have noWrite := Outstanding.noWrite h due
    have taken : rTaken slave c = true := answer
    obtain ⟨address, word, read, order⟩ := h
    constructor <;>
      simp_all [Taken.count, awTaken, wTaken, arTaken, next.aw, next.w, next.ar]

theorem Outstanding.balanced (h : Outstanding 0 0 c t) (quiet : NoValid c) :
    t.Balanced := by
  obtain ⟨address, word, read, order⟩ := h
  rw [quiet.aw] at address
  rw [quiet.w] at word
  rw [quiet.ar] at read
  exact ⟨address, word, read⟩

end Accounts

end RiscvLab.Board
