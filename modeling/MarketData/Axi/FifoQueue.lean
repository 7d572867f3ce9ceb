import MarketData.Axi.SimpleFifo

/-! The queue behind `simple_fifo`, and when its read and write actions are those of a queue. -/

namespace MarketData

variable {depthBits dataW addrW : Nat}

/-- A write on a queue of bounded capacity; a push on a full queue is dropped. -/
def WriteOp.apply {α : Type} (capacity : Nat) (q : List α) : WriteOp α → List α
  | .push x => if q.length < capacity then q ++ [x] else q
  | .clear => []
  | .ignored => q

/-- The queue after a read. -/
def ReadOp.apply {α : Type} (q : List α) : ReadOp → List α
  | .pop => q.tail
  | _ => q

/-- The data that a read of the queue returns. -/
def ReadOp.result (capacity : Nat) (q : List (BitVec dataW)) : ReadOp → BitVec dataW
  | .pop => q.headD 0
  | .count => BitVec.ofNat dataW q.length
  | .status =>
    (BitVec.ofBool (decide (q.length = capacity)) ++ BitVec.ofBool q.isEmpty).setWidth dataW
  | .zero => 0

/-- The write of a cycle, if it has one. -/
def written {α : Type} (capacity : Nat) (q : List α) (op : Option (WriteOp α)) : List α :=
  op.elim q (WriteOp.apply capacity q)

/-- The read of a cycle, if it has one, returns what it returned and leaves this queue. -/
def Reads (capacity : Nat) (q : List (BitVec dataW)) (op : Option (ReadOp × BitVec dataW))
    (q' : List (BitVec dataW)) : Prop :=
  match op with
  | none => q' = q
  | some (op, x) => x = op.result capacity q ∧ q' = op.apply q

/-- The actions of one cycle on a queue, in either order. -/
def CycleSerial (capacity : Nat) (q : List (BitVec dataW)) (w : Option (WriteOp (BitVec dataW)))
    (r : Option (ReadOp × BitVec dataW)) (q' : List (BitVec dataW)) : Prop :=
  Reads capacity (written capacity q w) r q' ∨
    ∃ q₁, Reads capacity q r q₁ ∧ q' = written capacity q₁ w

namespace SimpleFifo

/-- The write action of this cycle. -/
def writeAction (s : SimpleFifo depthBits dataW addrW) : Option (WriteOp (BitVec dataW)) :=
  if s.writes then some (writeOp s.awLatched s.wDataLatched) else none

/-- The read action of this cycle and the data it returns. -/
def readAction (s : SimpleFifo depthBits dataW addrW) : Option (ReadOp × BitVec dataW) :=
  if s.reads then some (readOp s.arLatched, s.readData) else none

/-- The distance of the pointers is the length of the queue, which is within the capacity. -/
def Counts (s : SimpleFifo depthBits dataW addrW) (q : List (BitVec dataW)) : Prop :=
  s.count.toNat = q.length ∧ q.length ≤ 2 ^ depthBits

/-- The actions of all cycles are those of a queue, whose length is the distance of the pointers. -/
def Serial : SimpleFifo depthBits dataW addrW → List (BitVec dataW) →
    List (AxiInputs dataW addrW) → Prop
  | s, q, [] => s.Counts q
  | s, q, i :: is => s.Counts q ∧
    ∃ q', CycleSerial (2 ^ depthBits) q s.writeAction s.readAction q' ∧ Serial (s.step i) q' is

/-- The FIFO is not cleared in the cycle of a pop, unless the read pointer wraps to zero. -/
def Apart (s : SimpleFifo depthBits dataW addrW) : Prop :=
  s.clears = true → s.pops = true → s.rp = BitVec.allOnes (depthBits + 1)

/-- In no cycle is the FIFO cleared together with a pop that leaves the read pointer nonzero. -/
def Orderly : SimpleFifo depthBits dataW addrW → List (AxiInputs dataW addrW) → Prop
  | _, [] => True
  | s, i :: is => s.Apart ∧ Orderly (s.step i) is

/-- Memory and pointers. -/
def ring (s : SimpleFifo depthBits dataW addrW) : Ring depthBits (BitVec dataW) :=
  ⟨s.mem, s.wp, s.rp⟩

section Flags

variable {s : SimpleFifo depthBits dataW addrW} {q : List (BitVec dataW)}

/-- `empty` says that the queue is empty. -/
theorem empty_eq (holds : s.ring.Holds q) : s.empty = q.isEmpty := by
  -- The pointers are equal exactly when the queue is empty.
  rw [empty, Bool.eq_iff_iff, decide_eq_true_eq, List.isEmpty_iff]
  exact holds.empty_iff

/-- `full` says that the queue has reached the capacity. -/
theorem full_eq (holds : s.ring.Holds q) : s.full = decide (q.length = 2 ^ depthBits) := by
  -- Pointers to the same cell are equal when their top bits are.
  have top : Ring.cell s.wp = Ring.cell s.rp →
      (s.wp.getLsbD depthBits = s.rp.getLsbD depthBits ↔ s.wp = s.rp) := by
    intro same
    refine ⟨fun bit => ?_, fun equal => by rw [equal]⟩
    apply BitVec.eq_of_getLsbD_eq
    intro k inside
    rcases Nat.lt_or_eq_of_le (Nat.le_of_lt_succ inside) with low | high
    · have read := congrArg (fun c => c.getLsbD k) same
      simpa [Ring.cell, low] using read
    · rw [high]
      exact bit
  rw [Bool.eq_iff_iff, decide_eq_true_eq, ← holds.full_iff, full, Bool.and_eq_true,
    decide_eq_true_eq, decide_eq_true_eq]
  constructor
  · rintro ⟨same, bits⟩
    exact ⟨same, fun equal => bits ((top same).mpr equal)⟩
  · rintro ⟨same, differ⟩
    exact ⟨same, fun bits => differ ((top same).mp bits)⟩

/-- What a read action returns is what the queue returns. -/
theorem readData_eq (holds : s.ring.Holds q) :
    s.readData = (readOp s.arLatched).result (2 ^ depthBits) q := by
  -- The four registers are compared one by one.
  unfold readData
  cases readOp s.arLatched with
  | pop =>
    cases q with
    | nil => simp [ReadOp.result, empty_eq holds]
    | cons x q =>
      have head : s.mem (s.rp.setWidth depthBits) = x := holds.head
      simp [ReadOp.result, empty_eq holds, head]
  | count =>
    have distance : s.count.toNat = q.length := holds.distance
    apply BitVec.eq_of_toNat_eq
    simp [ReadOp.result, distance]
  | status => simp only [ReadOp.result, full_eq holds, empty_eq holds]
  | zero => rfl

/-- A read leaves the queue as it is, unless it takes the head out. -/
theorem readAction_reads (holds : s.ring.Holds q) :
    Reads (2 ^ depthBits) q s.readAction (if s.pops then q.tail else q) := by
  -- Without a read nothing is taken out, and of an empty queue neither.
  unfold readAction pops
  cases s.reads with
  | false => rfl
  | true =>
    refine ⟨readData_eq holds, ?_⟩
    rw [empty_eq holds]
    unfold readOp
    by_cases first : register s.arLatched = 0#2
    · cases q <;> simp [first, ReadOp.apply]
    · simp only [first, decide_false, Bool.and_false, Bool.false_and, Bool.false_eq_true, if_false]
      split
      · rfl
      · split <;> rfl

/-- A write leaves the queue as it is, unless it stores a value or clears. -/
theorem writeAction_writes (holds : s.ring.Holds q) :
    written (2 ^ depthBits) q s.writeAction =
      if s.pushes then q ++ [s.wDataLatched] else if s.clears then [] else q := by
  -- A push on a full queue stores nothing.
  have fits := holds.fits
  unfold writeAction pushes clears
  rw [full_eq holds]
  cases s.writes with
  | false => rfl
  | true =>
    unfold writeOp
    by_cases first : register s.awLatched = 0#2
    · rcases Nat.lt_or_eq_of_le fits with space | all
      · simp [first, written, WriteOp.apply, space, Nat.ne_of_lt space]
      · simp [first, written, WriteOp.apply, all]
    · by_cases last : register s.awLatched = 3#2
      · simp [last, written, WriteOp.apply]
      · simp [first, last, written, WriteOp.apply]

/-- A stored value is the write of the cycle, on a queue that is not full. -/
theorem pushes_spec (holds : s.ring.Holds q) (pushes : s.pushes = true) :
    s.writeAction = some (.push s.wDataLatched) ∧ q.length < 2 ^ depthBits ∧ s.clears = false := by
  -- The address is that of a push.
  unfold SimpleFifo.pushes at pushes
  rw [full_eq holds] at pushes
  simp only [Bool.and_eq_true, decide_eq_true_eq, Bool.not_eq_eq_eq_not, Bool.not_true,
    decide_eq_false_iff_not] at pushes
  obtain ⟨⟨writes, first⟩, space⟩ := pushes
  have fits := holds.fits
  refine ⟨by simp [writeAction, writeOp, writes, first], by omega, ?_⟩
  simp [clears, first]

/-- A value that is taken out is the head of the queue. -/
theorem pops_spec (holds : s.ring.Holds q) (pops : s.pops = true) : ∃ x t, q = x :: t := by
  -- The queue is not empty.
  unfold SimpleFifo.pops at pops
  rw [empty_eq holds] at pops
  cases q with
  | nil => simp at pops
  | cons x t => exact ⟨x, t, rfl⟩

end Flags

section Step

variable {s : SimpleFifo depthBits dataW addrW} {q : List (BitVec dataW)}
  {i : AxiInputs dataW addrW}

/-- A pointer wraps to zero from the largest value only. -/
theorem wraps_iff {n : Nat} (p : BitVec n) : p + 1#n = 0#n ↔ p = BitVec.allOnes n := by
  -- The largest value is minus one.
  rw [← BitVec.eq_sub_iff_add_eq, BitVec.zero_sub, BitVec.neg_one_eq_allOnes]

/-- A clear empties the queue, whatever else happens in the cycle. -/
theorem Apart.clears (apart : s.Apart) (running : i.Running) (clears : s.clears = true)
    (stores : s.pushes = false) : (s.step i).ring.Holds [] := by
  -- The write pointer is cleared, and the read pointer is cleared or wraps to zero.
  apply Ring.Holds.of_eq
  unfold AxiInputs.Running at running
  cases pops : s.pops with
  | false => simp [ring, step, running, clears, stores, pops]
  | true =>
    have zero := (wraps_iff s.rp).mpr (apart clears pops)
    simp [ring, step, running, clears, stores, pops, zero]

/-- The actions of a cycle are those of the queue, and the registers hold what they leave. -/
theorem Apart.step (apart : s.Apart) (running : i.Running) (holds : s.ring.Holds q) :
    ∃ q', CycleSerial (2 ^ depthBits) q s.writeAction s.readAction q' ∧
      (s.step i).ring.Holds q' := by
  -- The read comes first, except when a value is taken out of a full queue and a push dropped.
  have reads := readAction_reads holds
  have writes := writeAction_writes holds
  have out : i.aresetn = true := running
  cases pushes : s.pushes with
  | true =>
    obtain ⟨write, space, clears⟩ := pushes_spec holds pushes
    cases pops : s.pops with
    | true =>
      -- The head goes out and the value comes in behind the rest.
      obtain ⟨x, t, rfl⟩ := pops_spec holds pops
      rw [pops, if_pos rfl] at reads
      have less : t.length < 2 ^ depthBits := Nat.lt_of_succ_lt space
      refine ⟨t ++ [s.wDataLatched], .inr ⟨t, reads, ?_⟩, ?_⟩
      · simp [written, write, WriteOp.apply, less]
      · have both := (holds.push space s.wDataLatched).pop
        simpa [ring, SimpleFifo.step, out, pushes, pops, clears, Ring.push, Ring.pop, Ring.cell]
          using both
    | false =>
      rw [pops, if_neg Bool.false_ne_true] at reads
      rw [pushes, if_pos rfl] at writes
      refine ⟨_, .inr ⟨q, reads, writes.symm⟩, ?_⟩
      have stored := holds.push space s.wDataLatched
      simpa [ring, SimpleFifo.step, out, pushes, pops, clears, Ring.push, Ring.cell] using stored
  | false =>
    rw [pushes, if_neg Bool.false_ne_true] at writes
    cases clears : s.clears with
    | true =>
      refine ⟨[], .inr ⟨_, reads, ?_⟩, apart.clears running clears pushes⟩
      have operation : s.writeAction = some .clear := by
        simp only [SimpleFifo.clears, Bool.and_eq_true, decide_eq_true_eq] at clears
        simp [writeAction, writeOp, clears.1, clears.2]
      simp [written, operation, WriteOp.apply]
    | false =>
      -- The write changes nothing, so the read may come behind it.
      rw [clears, if_neg Bool.false_ne_true] at writes
      refine ⟨_, .inl (by rw [writes]; exact reads), ?_⟩
      cases pops : s.pops with
      | true =>
        obtain ⟨x, t, rfl⟩ := pops_spec holds pops
        have taken := holds.pop
        simpa [ring, SimpleFifo.step, out, pushes, pops, clears, Ring.pop] using taken
      | false => simpa [ring, SimpleFifo.step, out, pushes, pops, clears] using holds

/-- After a clear every order of the actions leaves the empty queue. -/
theorem clears_empty {q' : List (BitVec dataW)} (clears : s.clears = true)
    (serial : CycleSerial (2 ^ depthBits) q s.writeAction s.readAction q') : q' = [] := by
  -- A read of the empty queue leaves it empty.
  have operation : s.writeAction = some .clear := by
    simp only [SimpleFifo.clears, Bool.and_eq_true, decide_eq_true_eq] at clears
    simp [writeAction, writeOp, clears.1, clears.2]
  rw [operation] at serial
  rcases serial with reads | ⟨q₁, _, rfl⟩
  · cases action : s.readAction with
    | none =>
      rw [action] at reads
      exact reads
    | some r =>
      obtain ⟨op, x⟩ := r
      rw [action] at reads
      obtain ⟨_, rfl⟩ := reads
      cases op <;> rfl
  · rfl

/-- When the registers count the queue of a serial cycle, a clear and a pop were apart. -/
theorem CycleSerial.apart {q' : List (BitVec dataW)} (running : i.Running)
    (serial : CycleSerial (2 ^ depthBits) q s.writeAction s.readAction q')
    (counts : (s.step i).Counts q') : s.Apart := by
  -- Together they leave the distance of zero and the read pointer moved on.
  intro clears pops
  obtain rfl := clears_empty clears serial
  have out : i.aresetn = true := running
  have address : register s.awLatched = 3#2 := by
    simp only [SimpleFifo.clears, Bool.and_eq_true, decide_eq_true_eq] at clears
    exact clears.2
  have stores : s.pushes = false := by simp [pushes, address]
  have moved : (s.step i).wp = 0 ∧ (s.step i).rp = s.rp + 1 := by
    simp [SimpleFifo.step, out, clears, pops, stores]
  have zero : (s.step i).count = 0 := BitVec.eq_of_toNat_eq counts.1
  rw [count, moved.1, moved.2] at zero
  have same := BitVec.sub_eq_iff_eq_add.mp zero
  exact (wraps_iff s.rp).mp (by simpa using same.symm)

end Step

/-- Registers that hold a queue keep to it in orderly cycles. -/
theorem Orderly.serial (is : List (AxiInputs dataW addrW)) :
    ∀ {s : SimpleFifo depthBits dataW addrW} {q : List (BitVec dataW)}, s.ring.Holds q →
      (∀ i ∈ is, i.Running) → s.Orderly is → s.Serial q is := by
  -- Induction on the cycles, each one by the step lemma.
  induction is with
  | nil => exact fun holds _ _ => ⟨holds.distance, holds.fits⟩
  | cons i is ih =>
    intro s q holds running orderly
    obtain ⟨here, later⟩ := List.forall_mem_cons.mp running
    obtain ⟨apart, rest⟩ := orderly
    obtain ⟨q', serial, holds'⟩ := apart.step here holds
    exact ⟨⟨holds.distance, holds.fits⟩, q', serial, ih holds' later rest⟩

/-- In a serial run the clears and the pops were apart. -/
theorem Serial.orderly (is : List (AxiInputs dataW addrW)) :
    ∀ {s : SimpleFifo depthBits dataW addrW} {q : List (BitVec dataW)},
      (∀ i ∈ is, i.Running) → s.Serial q is → s.Orderly is := by
  -- Induction on the cycles; the state after each one counts the queue it left.
  induction is with
  | nil => exact fun _ _ => trivial
  | cons i is ih =>
    intro s q running serial
    obtain ⟨here, later⟩ := List.forall_mem_cons.mp running
    obtain ⟨_, q', cycle, rest⟩ := serial
    have counts : (s.step i).Counts q' := by
      cases is with
      | nil => exact rest
      | cons j is => exact rest.1
    exact ⟨CycleSerial.apart here cycle counts, ih later rest⟩

/-- The registers come out of reset with the empty queue. -/
theorem AfterReset.holds {s : SimpleFifo depthBits dataW addrW} (reset : s.AfterReset) :
    s.ring.Holds [] := by
  -- Both pointers are zero.
  obtain ⟨t, i, low, rfl⟩ := reset
  exact Ring.Holds.of_eq (by simp [ring, step, low])

/-- From reset on, `simple_fifo` is a queue exactly as long as clears and pops are apart. -/
theorem serial_iff_orderly {s : SimpleFifo depthBits dataW addrW} (reset : s.AfterReset)
    (is : List (AxiInputs dataW addrW)) (running : ∀ i ∈ is, i.Running) :
    s.Serial [] is ↔ s.Orderly is :=
  -- One direction keeps the queue in the registers, the other reads the pointers off it.
  ⟨Serial.orderly is running, Orderly.serial is reset.holds running⟩

/-- A value is pushed, then a clear and a pop are requested in the same cycle. -/
def clearDuringPop : List (AxiInputs 32 5) :=
  [waitingInputs, { waitingInputs with awvalid := true, wvalid := true, wdata := 7 },
    waitingInputs, waitingInputs,
    { waitingInputs with awvalid := true, awaddr := 12, wvalid := true, arvalid := true },
    waitingInputs]

/-- A clear in the cycle of a pop leaves the write pointer behind the read pointer. -/
theorem clear_during_pop :
    ¬ ∀ (depthBits dataW addrW : Nat) (s : SimpleFifo depthBits dataW addrW)
      (is : List (AxiInputs dataW addrW)), 1 ≤ depthBits → s.AfterReset → (∀ i ∈ is, i.Running) →
        s.Serial [] is := by
  -- In the last cycle the value is taken out while the pointers are cleared.
  intro always
  have running : ∀ i ∈ clearDuringPop, i.Running := by
    simp [clearDuringPop, AxiInputs.Running, waitingInputs]
  have serial := always 8 32 5 started clearDuringPop (by decide) started_afterReset running
  obtain ⟨_, _, _, _, _, apart, _⟩ := Serial.orderly clearDuringPop running serial
  exact absurd (apart (by decide) (by decide)) (by decide)

/-- A value is pushed and popped, and the FIFO cleared afterwards. -/
def clearAfterPop : List (AxiInputs 32 5) :=
  [waitingInputs, { waitingInputs with awvalid := true, wvalid := true, wdata := 7 },
    waitingInputs, { waitingInputs with arvalid := true },
    { waitingInputs with awvalid := true, awaddr := 12, wvalid := true }, waitingInputs]

/-- The waveform is that of a queue. -/
theorem serial_clearAfterPop : started.Serial [] clearAfterPop := by
  -- The pop and the clear are one cycle apart.
  refine (serial_iff_orderly started_afterReset clearAfterPop ?_).mpr ?_
  · simp [clearAfterPop, AxiInputs.Running, waitingInputs]
  · have apart : ∀ t : SimpleFifo 8 32 5, (t.clears && t.pops) = false → t.Apart := by
      intro t never clears pops
      simp [clears, pops] at never
    exact ⟨apart _ (by decide), apart _ (by decide), apart _ (by decide), apart _ (by decide),
      apart _ (by decide), apart _ (by decide), trivial⟩

end SimpleFifo

end MarketData
