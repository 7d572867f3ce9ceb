import MarketData.Lib.Steady
import MarketData.Xgmii.Delivery

/-! The words of a frame leave `xgmii2axis` in consecutive cycles. -/

namespace MarketData.Xgmii

/-- The states in which no word of a frame is held back. -/
def RxFsm.vacant : RxFsm → Bool
  | .sres | .idle | .stLane4 => true
  | _ => false

namespace Xgmii2Axis

/-- What stands on an output after each clock edge without reset. -/
def shown (port : Port) : Xgmii2Axis → List Column → List AxisWord
  | _, [] => []
  | s, col :: cols => (s.step true col).out port :: shown port (s.step true col) cols

variable {s : Xgmii2Axis}

/-- Behind a word that does not end its frame the next one waits; between frames none does. -/
structure Flowing (s : Xgmii2Axis) : Prop where
  next : s.tvalidI = true → s.tlastI = false → s.tvalidD0 = true
  between : s.fsm.vacant = true → s.tvalidD0 = false

/-- A column that is received is held back, or the frame has ended. -/
theorem Received.flowing {word t : Xgmii2Axis} (receives : Received word t)
    (valid : word.tvalidD0 = true) (busy : word.fsm.vacant = false) : t.Flowing := by
  -- A frame that goes on has its last column held back; one that ends leaves nothing.
  cases receives with
  | more =>
    refine ⟨fun _ _ => valid, fun vacant => ?_⟩
    rw [busy] at vacant
    cases vacant
  | ends keep good => exact ⟨fun _ _ => by contradiction, fun _ => rfl⟩
  | late keep rcved calcted tchar next =>
    refine ⟨fun _ _ => valid, fun vacant => ?_⟩
    rcases next with rfl | rfl <;> cases vacant
  | breaks => exact ⟨fun _ _ => by contradiction, fun _ => rfl⟩

/-- Every clock edge without reset keeps the pipeline flowing. -/
theorem Flowing.step (flowing : s.Flowing) (col : Column) : (s.step true col).Flowing := by
  -- State by state; the outputs are no part of the pipeline.
  have adapter : (s.adapter col).Flowing := by
    obtain ⟨next, between⟩ := flowing
    cases fsm : s.fsm with
    | stLane0 =>
      rw [Xgmii2Axis.adapter, fsm]
      exact (received s col).1.flowing rfl (congrArg RxFsm.vacant fsm)
    | dLane4 =>
      rw [Xgmii2Axis.adapter, fsm]
      exact (received s col).2.flowing rfl (congrArg RxFsm.vacant fsm)
    | fin | finL4 =>
      -- The last word goes on, and it ends the frame.
      rw [Xgmii2Axis.adapter, fsm]
      refine ⟨fun _ more => ?_, fun _ => rfl⟩
      cases more
    | sres | stLane4 =>
      have empty := between (congrArg RxFsm.vacant fsm)
      rw [Xgmii2Axis.adapter, fsm]
      exact ⟨fun valid _ => valid, fun _ => empty⟩
    | idle =>
      -- No word is held back, so none goes on.
      have empty := between (congrArg RxFsm.vacant fsm)
      rw [Xgmii2Axis.adapter, fsm]
      refine ⟨fun valid _ => ?_, fun _ => rfl⟩
      exact absurd (empty.symm.trans valid) Bool.false_ne_true
  exact ⟨adapter.next, adapter.between⟩

/-- A column that is held back goes on in the next cycle. -/
theorem adapter_tvalidI (valid : s.tvalidD0 = true) (col : Column) :
    (s.adapter col).tvalidI = true := by
  -- Every state hands on what is held back, and a frame that breaks off makes it valid itself.
  have goes : ∀ {word t : Xgmii2Axis}, Received word t → word.tvalidI = true → t.tvalidI = true := by
    intro word t receives held
    cases receives with
    | more => exact held
    | ends keep good => exact held
    | late keep rcved calcted tchar next => exact held
    | breaks => rfl
  cases fsm : s.fsm <;> rw [adapter, fsm]
  case stLane0 => exact goes (received s col).1 valid
  case dLane4 => exact goes (received s col).2 valid
  all_goals exact valid

/-- While the outputs follow a flowing pipeline, the words of a frame come without a break. -/
theorem Flowing.steady (flowing : s.Flowing) (synced : s.Synced) (port : Port) (cols : List Column) :
    Steady (·.tvalid) (·.tlast) (shown port s cols) := by
  -- Column by column: an output shows what was held one cycle before.
  induction cols generalizing s with
  | nil => exact List.isChain_nil
  | cons col cols ih =>
    obtain ⟨follows, out⟩ := synced.step col
    cases cols with
    | nil => exact List.isChain_singleton _
    | cons next cols =>
      refine List.isChain_cons_cons.mpr ⟨?_, ih (flowing.step col) follows⟩
      rw [out port, (follows.step next).2 port]
      intro valid open'
      exact adapter_tvalidI (flowing.next valid open') col

/-- Between frames idle columns show no word. -/
theorem Still.quiet (still : s.Still) (synced : s.Synced) (port : Port) (n : Nat) :
    ∀ w ∈ shown port s (List.replicate n Column.idle), w.tvalid = false := by
  -- Column by column; the pipeline stays empty.
  induction n generalizing s with
  | zero =>
    intro w member
    cases member
  | succ n ih =>
    obtain ⟨follows, out⟩ := synced.step Column.idle
    have next := adapter_idle still.fsm (show ¬ Column.idle.Starts by decide)
    have empty : (s.step true Column.idle).Still := by
      refine ⟨?_, ?_, ?_⟩
      · exact congrArg Xgmii2Axis.fsm next
      · exact (congrArg tvalidI next).trans still.empty
      · exact congrArg tvalidD0 next
    intro w member
    rcases List.mem_cons.mp member with rfl | later
    · rw [out port]
      exact still.none
    · exact ih empty follows w later

end Xgmii2Axis

end MarketData.Xgmii
