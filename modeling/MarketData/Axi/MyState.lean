import Mathlib.Algebra.BigOperators.Group.List.Basic
import Mathlib.Algebra.GroupWithZero.Nat
import Mathlib.Data.List.DropRight
import MarketData.Lib.Pulse

/-! `my_state`, an accumulator that is added to and cleared by pulses. -/

namespace MarketData

/-- The inputs of `my_state` at one clock edge; the reset is active low. -/
structure MyInputs where
  reset : Bool
  control : BitVec 2
  value : BitVec 32

/-- The registers of `my_state`, the outputs among them. -/
structure MyState where
  accumulator : BitVec 64
  controlPrev : BitVec 2
  sum : BitVec 32
  carry : BitVec 32

namespace MyState

/-- One clock edge; every register is assigned from the ones before it. -/
def step (s : MyState) (i : MyInputs) : MyState :=
  if !i.reset then { accumulator := 0, controlPrev := 0, sum := 0, carry := 0 }
  else
    { controlPrev := i.control
      accumulator :=
        if s.controlPrev = 0#2 ∧ i.control = 1#2 then s.accumulator + (0#32 ++ i.value)
        else if s.controlPrev = 0#2 ∧ i.control = 2#2 then 0
        else s.accumulator
      sum := s.accumulator.extractLsb' 0 32
      carry := s.accumulator.extractLsb' 32 32 }

/-- The registers after a run. -/
def run (s : MyState) (is : List MyInputs) : MyState :=
  is.foldl step s

/-- `{carry, sum}`. -/
def total (s : MyState) : BitVec 64 :=
  s.carry ++ s.sum

end MyState

/-- The commands that the accumulator is pulsed with. -/
inductive AccOp where
  | add
  | clear
  deriving DecidableEq

/-- The value of `control` for a command. -/
def AccOp.code : AccOp → BitVec 2
  | .add => 1
  | .clear => 2

/-- An operation: the addend is written to `value`, and the command is pulsed. -/
structure AccPulse where
  op : AccOp
  addend : BitVec 32
  holds : Holds

/-- A cycle out of reset with these values on `control` and `value`. -/
def accCycle (i : BitVec 2 × BitVec 32) : MyInputs :=
  { reset := true, control := i.1, value := i.2 }

/-- The cycles of an operation. -/
def AccPulse.cycles (p : AccPulse) : List MyInputs :=
  (pulse 0#2 p.op.code p.addend p.holds).map accCycle

/-- The addends added since the last clear, in order. -/
def addendsSinceClear (ps : List AccPulse) : List (BitVec 32) :=
  (ps.rtakeWhile fun p => p.op = .add).map AccPulse.addend

/-- What a value of `control` does to the accumulator, when it follows an idle cycle. -/
def accumulate (control : BitVec 2) (value : BitVec 32) (a : BitVec 64) : BitVec 64 :=
  if control = 1#2 then a + (0#32 ++ value) else if control = 2#2 then 0 else a

/-- What a list of operations does to the accumulator. -/
def accumulateAll (ps : List AccPulse) (a : BitVec 64) : BitVec 64 :=
  ps.foldl (fun a p => accumulate p.op.code p.addend a) a

/-- Idle cycles do not accumulate. -/
theorem accumulate_idle (value : BitVec 32) (a : BitVec 64) : accumulate 0#2 value a = a :=
  rfl

/-- A command is not idle. -/
theorem AccOp.code_ne (op : AccOp) : op.code ≠ 0#2 := by
  cases op <;> simp [AccOp.code]

/-- The accumulator holds the sum of the addends since the last clear. -/
theorem accumulateAll_toNat (ps : List AccPulse) :
    (accumulateAll ps 0).toNat = ((addendsSinceClear ps).map BitVec.toNat).sum % 2 ^ 64 := by
  -- Induction on the operations, the last one first: it adds to the sum or starts it again.
  induction ps using List.reverseRecOn with
  | nil => rfl
  | append_singleton ps p ih =>
    have last : accumulateAll (ps ++ [p]) 0 = accumulate p.op.code p.addend (accumulateAll ps 0) :=
      List.foldl_concat ..
    rw [last, addendsSinceClear]
    cases op : p.op with
    | add =>
      have wide : (0#32 ++ p.addend : BitVec 64).toNat = p.addend.toNat :=
        (BitVec.toNat_append 0#32 p.addend).trans (by simp)
      have adds : accumulate AccOp.add.code p.addend (accumulateAll ps 0) =
          accumulateAll ps 0 + (0#32 ++ p.addend) := rfl
      rw [List.rtakeWhile_concat_pos _ _ _ (by simp [op]), adds, BitVec.toNat_add, ih, wide,
        Nat.mod_add_mod, List.map_append, List.map_append, List.sum_append, addendsSinceClear]
      simp
    | clear =>
      rw [List.rtakeWhile_concat_neg _ _ _ (by simp [op])]
      rfl

namespace MyState

/-- The registers that the accumulation goes by. -/
def view (s : MyState) : BitVec 2 × BitVec 64 :=
  (s.controlPrev, s.accumulator)

/-- Out of reset, the registers act at the start of a pulse. -/
theorem step_view (s : MyState) (i : BitVec 2 × BitVec 32) :
    (s.step (accCycle i)).view = onEdge 0#2 accumulate s.view i := by
  by_cases idle : s.controlPrev = 0#2
  · simp [step, accCycle, view, onEdge, accumulate, idle]
  · simp [step, accCycle, view, onEdge, idle]

/-- So do they over a run. -/
theorem run_view (s : MyState) (is : List (BitVec 2 × BitVec 32)) :
    (s.run (is.map accCycle)).view = is.foldl (onEdge 0#2 accumulate) s.view := by
  -- Cycle by cycle.
  induction is generalizing s with
  | nil => rfl
  | cons i is ih => exact (ih (s.step (accCycle i))).trans (by rw [step_view]; rfl)

/-- The outputs show the accumulator of the cycle before. -/
theorem step_total (s : MyState) (i : BitVec 2 × BitVec 32) :
    (s.step (accCycle i)).total = s.accumulator :=
  BitVec.extractLsb'_append_extractLsb'

/-- One run after the other. -/
theorem run_append (s : MyState) (is js : List MyInputs) :
    s.run (is ++ js) = (s.run is).run js :=
  List.foldl_append ..

/-- A reset leaves zeros, whatever there was before. -/
theorem run_reset (s : MyState) {resets : List MyInputs} (some : resets ≠ [])
    (low : ∀ i ∈ resets, i.reset = false) :
    s.run resets = { accumulator := 0, controlPrev := 0, sum := 0, carry := 0 } := by
  -- The last cycle of the reset decides.
  obtain ⟨before, last, rfl⟩ := (List.eq_nil_or_concat' _).resolve_left some
  have held := low last (by simp)
  rw [run_append]
  simp [run, step, held]

end MyState

/-- Idle cycles, `value` being written in them or not. -/
def accIdle (values : List (BitVec 32)) : List MyInputs :=
  values.map fun v => accCycle (0#2, v)

namespace MyState

/-- Idle cycles leave an accumulator at rest as it is. -/
theorem run_idle {s : MyState} {a : BitVec 64} (rests : s.view = (0#2, a))
    (values : List (BitVec 32)) : (s.run (accIdle values)).view = (0#2, a) := by
  -- What the accumulator does shows in its view, and there an idle cycle does nothing.
  have quiet : ∀ i ∈ values.map fun v => ((0#2, v) : BitVec 2 × BitVec 32), i.1 = 0#2 := by
    intro i member
    obtain ⟨v, -, rfl⟩ := List.mem_map.mp member
    rfl
  have same := s.run_view (values.map fun v => (0#2, v))
  rw [rests, foldl_idle accumulate_idle a quiet, List.map_map] at same
  exact same

/-- An idle cycle shows an accumulator at rest. -/
theorem run_idle_total {s : MyState} {a : BitVec 64} (rests : s.view = (0#2, a))
    {values : List (BitVec 32)} (some : values ≠ []) : (s.run (accIdle values)).total = a := by
  -- The last idle cycle shows what the ones before it left alone.
  obtain ⟨before, last, rfl⟩ := (List.eq_nil_or_concat' _).resolve_left some
  have cycles : accIdle (before ++ [last]) = accIdle before ++ [accCycle (0#2, last)] :=
    List.map_append ..
  rw [cycles, run_append]
  exact ((s.run (accIdle before)).step_total (0#2, last)).trans
    (congrArg Prod.snd (run_idle rests before))

/-- A list of operations acts on the accumulator once each, and leaves it at rest. -/
theorem run_pulses {s : MyState} {a : BitVec 64} (rests : s.view = (0#2, a)) (ps : List AccPulse) :
    (s.run (ps.flatMap AccPulse.cycles)).view = (0#2, accumulateAll ps a) := by
  -- In the view a pulse acts once, however long it is held.
  have same := s.run_view (ps.flatMap fun p => pulse 0#2 p.op.code p.addend p.holds)
  rw [rests, foldl_pulses accumulate_idle (fun p => p.op.code_ne) AccPulse.addend AccPulse.holds ps a,
    List.map_flatMap] at same
  exact same

/-- Every pulse is accumulated once, however long its writes are held.

The outputs show the sum from two idle cycles behind the operations on. -/
theorem accumulates_once (s : MyState) {resets : List MyInputs} (some : resets ≠ [])
    (low : ∀ i ∈ resets, i.reset = false) (lead : List (BitVec 32)) (ps : List AccPulse)
    (idle : List (BitVec 32)) (two : 2 ≤ idle.length) :
    (s.run (resets ++ accIdle lead ++ ps.flatMap AccPulse.cycles ++ accIdle idle)).total.toNat =
      ((addendsSinceClear ps).map BitVec.toNat).sum % 2 ^ 64 := by
  -- The run is a reset, idle cycles, pulses and idle cycles, one after the other.
  have zeros : (s.run resets).view = (0#2, 0#64) := by
    rw [run_reset s some low]
    rfl
  have shows : idle ≠ [] := List.ne_nil_of_length_pos (by omega)
  have shown := run_idle_total (run_pulses (run_idle zeros lead) ps) shows
  rw [run_append, run_append, run_append, shown]
  exact accumulateAll_toNat ps

/-- Writes that are held for one, two, three and one cycles. -/
def someHolds : Holds :=
  ⟨1, 2, 3, 1, by simp⟩

/-- The first operations of the accumulator test, up to the sum that takes more than 32 bits. -/
def crossing : List AccPulse :=
  [⟨.clear, 0, someHolds⟩, ⟨.add, 5, someHolds⟩, ⟨.add, 5, someHolds⟩, ⟨.add, 100, someHolds⟩,
    ⟨.add, 0xFFFFFFFF, someHolds⟩]

/-- The outputs show carry 1 and sum 109. -/
theorem accumulates_crossing :
    ((⟨7, 1, 7, 7⟩ : MyState).run ([⟨false, 0, 3⟩] ++ accIdle [3] ++
      crossing.flatMap AccPulse.cycles ++ accIdle [0, 0])).total.toNat = 2 ^ 32 + 109 :=
  accumulates_once _ (by simp) (by simp) [3] crossing [0, 0] (by simp)

end MyState

end MarketData
