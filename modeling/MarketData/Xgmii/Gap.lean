import Mathlib.Algebra.BigOperators.Ring.List
import Mathlib.Algebra.Ring.Nat
import MarketData.Lib.Potential
import MarketData.Xgmii.Transmission

/-! The gap between frames: what `axis2xgmii` sends between two of them, whatever it is offered. -/

namespace MarketData.Xgmii

namespace Column

variable (col : Column)

/-- The control characters of a column. -/
def controls : List Byte :=
  ((List.range 8).filter fun k => col.c.getLsbD k).map (byteLE col.d)

/-- The frames that start in the column. -/
def starts : Nat :=
  col.controls.countP fun b => decide (b = S)

/-- The idle and terminate characters of the column. -/
def spacing : Nat :=
  col.controls.countP fun b => decide (b = I) || decide (b = T)

/-- The errors that abort a frame in the column. -/
def errors : Nat :=
  col.controls.countP fun b => decide (b = E)

/-- What the column does for a gap: an abort of a frame stands for four characters. -/
def gap : Nat :=
  col.spacing + 4 * col.errors

variable {col}

/-- The control characters of a run of lanes up to the last one. -/
theorem controls_from {r : Nat} (small : r < 8) (control : col.c = 0xFF#8 <<< r) :
    col.controls = (bytesLE 8 col.d).drop r := by
  -- One lane at a time.
  have lanes : ∀ m : Fin 8, ((List.range 8).filter fun k => (0xFF#8 <<< m.val).getLsbD k) =
      (List.range 8).drop m.val := by decide
  rw [controls, control, lanes ⟨r, small⟩, bytesLE, List.map_drop]

/-- A column of data is no part of a gap. -/
theorem gap_data (data : col.c = 0#8) : col.starts = 0 ∧ col.gap = 0 := by
  -- No lane is a control character.
  have none : col.controls = [] := by
    rw [controls, data]
    rfl
  rw [starts, gap, spacing, errors, none]
  exact ⟨rfl, rfl⟩

/-- An end of a frame and the idle characters behind it. -/
theorem gap_end (lo : List Byte) (small : lo.length < 8) (control : col.c = 0xFF#8 <<< lo.length)
    (bytes : bytesLE 8 col.d = lo ++ T :: List.replicate (7 - lo.length) I) :
    col.starts = 0 ∧ col.gap = 8 - lo.length := by
  -- The control characters are the end of the frame and the idle ones behind it.
  have all : col.controls = T :: List.replicate (7 - lo.length) I := by
    rw [controls_from small control, bytes, List.drop_left]
  rw [starts, gap, spacing, errors, all]
  have counts : ∀ n, (T :: List.replicate n I).countP (fun b => decide (b = S)) = 0 ∧
      (T :: List.replicate n I).countP (fun b => decide (b = I) || decide (b = T)) = n + 1 ∧
      (T :: List.replicate n I).countP (fun b => decide (b = E)) = 0 := by
    intro n
    refine ⟨?_, ?_, ?_⟩
    · rw [List.countP_cons, List.countP_replicate]
      rfl
    · rw [List.countP_cons, List.countP_replicate]
      rfl
    · rw [List.countP_cons, List.countP_replicate]
      rfl
  -- None of them is a start or an error, and each counts one.
  obtain ⟨noStart, idle, noError⟩ := counts (7 - lo.length)
  rw [noStart, idle, noError]
  exact ⟨rfl, by omega⟩

/-- An idle column is a gap of eight. -/
theorem gap_idle : Column.idle.starts = 0 ∧ Column.idle.gap = 8 := by decide

/-- The gap of some columns. -/
theorem gap_sum (cols : List Column) :
    (cols.map gap).sum = (cols.map spacing).sum + 4 * (cols.map errors).sum := by
  -- The errors are weighted alike in every column.
  have both : (cols.map gap).sum = (cols.map spacing).sum + (cols.map fun col => 4 * col.errors).sum :=
    List.sum_map_add
  rw [both, List.sum_map_mul_left]

end Column

/-- The states that may send again what has been sent before. -/
def TxFsm.again : TxFsm → Bool
  | .sres | .l0Fin3B2B1B => true
  | _ => false

namespace Axis2Xgmii

/-- What a state still owes to the gap, the counter of the deficit apart. -/
def owed (fsm : TxFsm) (dic : BitVec 2) : Nat :=
  match fsm with
  | .sres => 4 + dic.toNat
  | .idleL0 => 12
  | .dwIdle => 8
  | .qwIdle => 4
  | .tLane5 => 3
  | .tLane6 => 2
  | .tLane7 => 1
  | _ => 0

/-- The account of the gap. -/
def balance (s : Axis2Xgmii) : Int :=
  (owed s.fsm s.dic : Int) - s.dic.toNat

/-- Two states send again what they have sent before. -/
def Repeats (s : Axis2Xgmii) : Prop :=
  (s.fsm = .sres → s.column = Column.idle) ∧ (s.fsm = .l0Fin3B2B1B → s.c = 0#8)

variable {s t : Axis2Xgmii} {i : AxisWord}

/-- A step pays for the frame that it starts, from what it sends and from what is owed less. -/
def Pays (s t : Axis2Xgmii) : Prop :=
  12 * t.column.starts + owed t.fsm t.dic + s.dic.toNat ≤
    t.column.gap + owed s.fsm s.dic + t.dic.toNat

/-- The deficit is two bits wide. -/
theorem dic_small (s : Axis2Xgmii) : s.dic.toNat ≤ 3 := by
  have := s.dic.isLt
  omega

/-- The deficit takes over what is missing to a half column, or gives what is there beyond it. -/
theorem dic_steps (x : BitVec 2) :
    ((x = 0 → (3 : BitVec 2).toNat = x.toNat + 3) ∧ (x ≠ 0 → (x - 1).toNat + 4 = x.toNat + 3)) ∧
      ((x < 2 → (x + 2).toNat = x.toNat + 2) ∧ (¬ x < 2 → (x - 2).toNat + 4 = x.toNat + 2)) ∧
      ((x < 3 → (x + 1).toNat = x.toNat + 1) ∧
        (¬ x < 3 → (0 : BitVec 2).toNat + 4 = x.toNat + 1)) := by
  -- There are four values.
  revert x
  decide

/-- What a step sends, where it leads and what is left of the deficit. -/
theorem Pays.of_step {sent got : Nat} {fsm : TxFsm} {dic : BitVec 2}
    (column : t.column.starts = sent ∧ t.column.gap = got) (next : t.fsm = fsm) (left : t.dic = dic)
    (enough : 12 * sent + owed fsm dic + s.dic.toNat ≤ got + owed s.fsm s.dic + dic.toNat) :
    Pays s t := by
  -- The account is read off the column, the next state and the deficit.
  rw [Pays, column.1, column.2, next, left]
  exact enough

/-- `IDLE_L0` pays for a frame with the whole gap. -/
theorem pays_idleL0 (fsm : s.fsm = .idleL0) (i : AxisWord) : Pays s (s.adapter i) := by
  -- Twelve are owed here: a start is paid at once, and an idle column pays eight for nothing.
  rw [adapter, fsm]
  change Pays s (s.idleL0Step i)
  rw [idleL0Step]
  split
  -- A frame starts, and nothing is owed behind it.
  · have start : (⟨preambleLane0D, preambleLane0C⟩ : Column).starts = 1 ∧
        (⟨preambleLane0D, preambleLane0C⟩ : Column).gap = 0 := by decide
    refine Pays.of_step start rfl rfl ?_
    rw [fsm]
    exact Nat.le_of_eq rfl
  · refine Pays.of_step Column.gap_idle fsm rfl ?_
    rw [fsm]
    change 0 + 12 + s.dic.toNat ≤ 8 + 12 + (if s.dic ≠ 0 then s.dic - 1 else s.dic).toNat
    -- The deficit is counted down by an idle column, which has eight to give for it.
    have less := (dic_steps s.dic).1.2
    split
    · rename_i some
      have := less some
      omega
    · omega

/-- `DW_IDLE` pays for a frame with the idle characters in front of it. -/
theorem pays_dwIdle (fsm : s.fsm = .dwIdle) (i : AxisWord) : Pays s (s.adapter i) := by
  -- Four idle characters stand in front of the start, and eight were owed.
  rw [adapter, fsm]
  change Pays s (s.dwIdleStep i)
  rw [dwIdleStep]
  split
  · have start : (⟨preambleLane4D, preambleLane4C⟩ : Column).starts = 1 ∧
        (⟨preambleLane4D, preambleLane4C⟩ : Column).gap = 4 := by decide
    refine Pays.of_step start rfl rfl ?_
    rw [fsm]
    exact Nat.le_of_eq rfl
  · refine Pays.of_step Column.gap_idle rfl rfl ?_
    rw [fsm]
    change 0 + 12 + s.dic.toNat ≤ 8 + 8 + s.dic.toNat
    omega

/-- A step that sends data pays if it owes no more than before. -/
theorem Pays.data {fsm : TxFsm} (column : t.c = 0#8) (next : t.fsm = fsm) (left : t.dic = s.dic)
    (free : owed fsm s.dic = 0) : Pays s t := by
  -- A data column has no gap and starts nothing, and the deficit is left alone.
  refine Pays.of_step (@Column.gap_data t.column column) next left ?_
  rw [free]
  omega

/-- Whatever the last keep is, the states behind it owe nothing. -/
theorem owed_finish (tkeep : BitVec 8) (dic : BitVec 2) :
    owed (finish tkeep .l0Fin8B .l0Fin7B6B5B .l0Fin4B .l0Fin3B2B1B) dic = 0 ∧
      owed (finish tkeep .l4Fin8B .l4Fin7B6B5B .l4Fin4B .l4Fin3B2B1B) dic = 0 := by
  -- The keep is looked at in three lanes only.
  unfold finish
  cases tkeep.getLsbD 7 <;> cases tkeep.getLsbD 4 <;> cases tkeep.getLsbD 3 <;> exact ⟨rfl, rfl⟩

/-- A frame that is aborted in lane 0 is ended in lane 7. -/
theorem gap_abort {d : BitVec 64} (mid : List Byte) (bytes : bytesLE 8 d = E :: mid ++ [T])
    (six : mid.length = 6) :
    (⟨d, xgmiiErrorL0C ||| 0x80#8⟩ : Column).starts = 0 ∧
      (⟨d, xgmiiErrorL0C ||| 0x80#8⟩ : Column).gap = 5 := by
  -- Only the first lane and the last are control characters.
  have lanes : ((List.range 8).filter fun k => (xgmiiErrorL0C ||| 0x80#8).getLsbD k) = [0, 7] := by
    decide
  have place : ∀ k < 8, (bytesLE 8 d)[k]? = some (byteLE d k) := by
    intro k small
    rw [bytesLE, List.getElem?_map, List.getElem?_range small, Option.map_some]
  -- They are the error and the end of the frame, which count four and one.
  have error := place 0 (by decide)
  have last := place 7 (by decide)
  rw [bytes] at error last
  rw [List.getElem?_append_right (by rw [List.length_cons]; omega), List.length_cons, six] at last
  have all : (⟨d, xgmiiErrorL0C ||| 0x80#8⟩ : Column).controls = [E, T] := by
    rw [Column.controls, lanes]
    exact congrArg₂ (fun a b => [a, b]) (Option.some.inj error).symm (Option.some.inj last).symm
  rw [Column.starts, Column.gap, Column.spacing, Column.errors, all]
  decide

/-- `ST_LANE0` sends data, or aborts the frame and has the gap behind it. -/
theorem pays_stLane0 (fsm : s.fsm = .stLane0) (i : AxisWord) : Pays s (s.adapter i) := by
  -- An error that the source reports aborts the frame, else the word is data.
  rw [adapter, fsm]
  change Pays s (s.stLane0Step i)
  rw [stLane0Step]
  split
  · refine Pays.of_step (gap_abort (bytesLE 6 (s.tdataI.extractLsb' 8 48)) ?_ rfl) rfl rfl ?_
    · rw [bytesLE_append 1 7 rfl, bytesLE_append 6 1 rfl]
      rfl
    · rw [fsm]
      change 0 + 4 + s.dic.toNat ≤ 5 + 0 + s.dic.toNat
      omega
  · split
    · exact Pays.data rfl fsm rfl rfl
    · exact Pays.data rfl rfl rfl (owed_finish i.tkeep s.dic).1

/-- `ST_LANE4` sends data, or aborts the frame and has the gap behind it. -/
theorem pays_stLane4 (fsm : s.fsm = .stLane4) (i : AxisWord) : Pays s (s.adapter i) := by
  -- As in lane 0; the abort stands behind the second half of the preamble.
  rw [adapter, fsm]
  change Pays s (s.stLane4Step i)
  rw [stLane4Step]
  split
  · refine Pays.of_step (gap_abort (bytesLE 3 (preambleLane4EndD.extractLsb' 8 24) ++
      bytesLE 3 (s.tdataI.extractLsb' 0 24)) ?_ rfl) rfl rfl ?_
    · rw [bytesLE_append 1 7 rfl, bytesLE_append 3 4 rfl, bytesLE_append 3 1 rfl]
      rfl
    · rw [fsm]
      change 0 + 4 + s.dic.toNat ≤ 5 + 0 + s.dic.toNat
      omega
  · exact Pays.data rfl rfl rfl rfl

/-- `ST_LANE4_D` sends data, or aborts the frame with an error, which stands for four. -/
theorem pays_stLane4D (fsm : s.fsm = .stLane4D) (i : AxisWord) : Pays s (s.adapter i) := by
  -- The abort has no room for the end of the frame in this column.
  rw [adapter, fsm]
  change Pays s (s.stLane4DStep i)
  rw [stLane4DStep]
  split
  · set d := s.tdataI.extractLsb' 8 24 ++ xgmiiErrorL4D ++ s.auxDw with sent
    -- Its error character is in lane 4, behind the half word that waited.
    have error : byteLE d 4 = E := by
      have place : (bytesLE 8 d)[4]? = some (byteLE d 4) := rfl
      rw [sent, bytesLE_append 4 4 rfl, bytesLE_append 1 3 rfl] at place
      exact (Option.some.inj place).symm
    have lanes : ((List.range 8).filter fun k => xgmiiErrorL4C.getLsbD k) = [4] := by decide
    have all : (⟨d, xgmiiErrorL4C⟩ : Column).controls = [E] := by
      rw [Column.controls, lanes]
      exact congrArg (fun b => [b]) error
    have column : (⟨d, xgmiiErrorL4C⟩ : Column).starts = 0 ∧ (⟨d, xgmiiErrorL4C⟩ : Column).gap = 4 := by
      rw [Column.starts, Column.gap, Column.spacing, Column.errors, all]
      decide
    refine Pays.of_step column rfl rfl ?_
    · rw [fsm]
      change 0 + 4 + s.dic.toNat ≤ 4 + 0 + s.dic.toNat
      omega
  · split
    · exact Pays.data rfl fsm rfl rfl
    · exact Pays.data rfl rfl rfl (owed_finish i.tkeep s.dic).2

/-- Behind an end in lane `r` the deficit says whether a half column or a whole one follows. -/
theorem tail_deficit {r : Nat} (fsm : s.fsm.Tail r) (i : AxisWord) :
    (s.adapter i).fsm = .dwIdle ∧ (s.adapter i).dic.toNat = s.dic.toNat + r ∨
      (s.adapter i).fsm = .qwIdle ∧ (s.adapter i).dic.toNat + 4 = s.dic.toNat + r := by
  -- The three comparisons ask whether the deficit would become too large.
  obtain ⟨⟨zero, some⟩, ⟨below, above⟩, one, full⟩ := dic_steps s.dic
  rcases fsm with ⟨fsm, rfl⟩ | ⟨fsm, rfl⟩ | ⟨fsm, rfl⟩ <;> simp only [adapter, fsm] <;> split
  case isTrue none => exact Or.inl ⟨rfl, zero none⟩
  case isFalse more => exact Or.inr ⟨rfl, some more⟩
  case isTrue few => exact Or.inl ⟨rfl, below few⟩
  case isFalse many => exact Or.inr ⟨rfl, above many⟩
  case isTrue few => exact Or.inl ⟨rfl, one few⟩
  case isFalse many => exact Or.inr ⟨rfl, full many⟩

/-- Behind a frame with `k` bytes more it says whether half a column follows the idle one. -/
theorem behind_deficit {k : Nat} (fsm : s.fsm.Behind k) (i : AxisWord) :
    (s.adapter i).fsm = .idleL0 ∧ (s.adapter i).dic.toNat = s.dic.toNat + k ∨
      (s.adapter i).fsm = .dwIdle ∧ (s.adapter i).dic.toNat + 4 = s.dic.toNat + k := by
  -- The comparisons are those behind an end in a lower lane.
  obtain ⟨⟨zero, some⟩, ⟨below, above⟩, one, full⟩ := dic_steps s.dic
  rcases fsm with ⟨fsm, rfl⟩ | ⟨fsm, rfl⟩ | ⟨fsm, rfl⟩ <;> simp only [adapter, fsm] <;> split
  case isTrue none => exact Or.inl ⟨rfl, zero none⟩
  case isFalse more => exact Or.inr ⟨rfl, some more⟩
  case isTrue few => exact Or.inl ⟨rfl, below few⟩
  case isFalse many => exact Or.inr ⟨rfl, above many⟩
  case isTrue few => exact Or.inl ⟨rfl, one few⟩
  case isFalse many => exact Or.inr ⟨rfl, full many⟩

/-- The end of a frame in lanes 1 to 3 moves the deficit, and a half or a whole column follows. -/
theorem pays_tail {r : Nat} (fsm : s.fsm.Tail r) (i : AxisWord) : Pays s (s.adapter i) := by
  -- The end in lane `r` and the idle characters behind it are eight less `r`.
  obtain ⟨bytes, control, -⟩ := tail_column fsm i
  have size : ((bytesLE 4 s.crcReg).drop (4 - r)).length = r := by
    rw [List.length_drop, length_bytesLE]
    rcases fsm with ⟨-, rfl⟩ | ⟨-, rfl⟩ | ⟨-, rfl⟩ <;> rfl
  have small : r < 8 := by
    rcases fsm with ⟨-, rfl⟩ | ⟨-, rfl⟩ | ⟨-, rfl⟩ <;> decide
  have sent := @Column.gap_end (s.adapter i).column ((bytesLE 4 s.crcReg).drop (4 - r))
    (by rw [size]; exact small) (by rw [size]; exact control) (by rw [size]; exact bytes)
  rw [size] at sent
  rw [Pays, sent.1, sent.2]
  -- What is owed behind it is eight or four, and the deficit takes up the rest.
  rcases tail_deficit fsm i with ⟨next, left⟩ | ⟨next, left⟩
  · have owes : owed (s.adapter i).fsm (s.adapter i).dic = 8 := by
      rw [next]
      rfl
    omega
  · have owes : owed (s.adapter i).fsm (s.adapter i).dic = 4 := by
      rw [next]
      rfl
    omega

/-- Behind an end of a frame in lanes 5 to 7 the deficit says whether half a column more is sent. -/
theorem pays_behind {k : Nat} (fsm : s.fsm.Behind k) (i : AxisWord) : Pays s (s.adapter i) := by
  -- The idle column behind the end is the same in all three states.
  have column : (s.adapter i).column = Column.idle := by
    rcases fsm with ⟨fsm, -⟩ | ⟨fsm, -⟩ | ⟨fsm, -⟩ <;> simp only [adapter, fsm] <;> split <;> rfl
  have owing : owed s.fsm s.dic + k = 4 := by
    rcases fsm with ⟨fsm, rfl⟩ | ⟨fsm, rfl⟩ | ⟨fsm, rfl⟩ <;> rw [fsm] <;> rfl
  rw [Pays, column, Column.gap_idle.1, Column.gap_idle.2]
  -- What is owed behind it is twelve or eight, and the deficit takes up the rest.
  rcases behind_deficit fsm i with ⟨next, left⟩ | ⟨next, left⟩
  · have owes : owed (s.adapter i).fsm (s.adapter i).dic = 12 := by
      rw [next]
      rfl
    omega
  · have owes : owed (s.adapter i).fsm (s.adapter i).dic = 8 := by
      rw [next]
      rfl
    omega

/-- The lanes that are kept of three, if any. -/
theorem highest_cases (tkeep : BitVec 8) :
    (∃ k, 1 ≤ k ∧ k ≤ 3 ∧ Highest tkeep k) ∨ ∀ j < 3, tkeep.getLsbD j = false := by
  -- The lanes are looked at from the third one down, as the transmitter does.
  cases two : tkeep.getLsbD 2 with
  | true => exact Or.inl ⟨3, by decide, by decide, two, fun j small beyond => by omega⟩
  | false =>
    cases one : tkeep.getLsbD 1 with
    | true =>
      refine Or.inl ⟨2, by decide, by decide, one, fun j small beyond => ?_⟩
      obtain rfl : j = 2 := by omega
      exact two
    | false =>
      have cases : ∀ j < 3, 1 ≤ j → tkeep.getLsbD j = false := by
        intro j small some
        have either : j = 1 ∨ j = 2 := by omega
        rcases either with rfl | rfl
        · exact one
        · exact two
      cases zero : tkeep.getLsbD 0 with
      | true => exact Or.inl ⟨1, by decide, by decide, zero, cases⟩
      | false =>
        refine Or.inr fun j small => ?_
        rcases Nat.eq_zero_or_pos j with rfl | some
        · exact zero
        · exact cases j small some

/-- The last column of a frame with one to three bytes more, or the column that was sent before. -/
theorem pays_l0Fin3B2B1B (fsm : s.fsm = .l0Fin3B2B1B) (repeats : s.c = 0#8) (i : AxisWord) :
    Pays s (s.adapter i) := by
  -- With a lane kept the frame is ended, and as many characters are owed as lanes are missing.
  rw [adapter, fsm]
  change Pays s s.l0Fin3B2B1BStep
  rcases highest_cases s.tkeepI with ⟨k, least, most, highest⟩ | none
  · obtain ⟨bytes, control, next⟩ := l0Fin3B2B1B_column least most highest
    have size : ((bytesLE 8 s.tdataI).take k ++ bytesLE 4 (~~~ crcRev (s.sumOf k))).length = k + 4 := by
      rw [List.length_append, List.length_take, length_bytesLE, length_bytesLE]
      omega
    have sent := @Column.gap_end s.l0Fin3B2B1BStep.column _ (by rw [size]; omega)
      (by rw [size]; exact control) (by rw [size, show 7 - (k + 4) = 3 - k by omega]; exact bytes)
    have left : s.l0Fin3B2B1BStep.dic = s.dic := by
      unfold l0Fin3B2B1BStep
      split <;> [skip; split <;> [skip; split]] <;> rfl
    rw [size] at sent
    rw [Pays, sent.1, sent.2, left]
    rcases next with ⟨next, rfl⟩ | ⟨next, rfl⟩ | ⟨next, rfl⟩ <;> rw [next, fsm] <;>
      exact Nat.le_of_eq rfl
  -- Without one nothing changes, and the column that was sent before was data.
  · have still : s.l0Fin3B2B1BStep = s := by
      rw [l0Fin3B2B1BStep, none 2 (by decide), none 1 (by decide), none 0 (by decide)]
      rfl
    rw [still]
    exact Pays.data repeats fsm rfl rfl

/-- The last data of a frame is sent with the first bytes of its check sequence. -/
theorem pays_carry (fsm : s.fsm = .l0Fin7B6B5B ∨ s.fsm = .l4Fin3B2B1B) (i : AxisWord) :
    Pays s (s.adapter i) := by
  -- Every branch sends data; the last one stays in its state.
  rcases fsm with fsm | fsm
  · rw [adapter, fsm]
    change Pays s s.l0Fin7B6B5BStep
    rw [l0Fin7B6B5BStep]
    split <;> [skip; split <;> [skip; split]]
    · exact Pays.data rfl rfl rfl rfl
    · exact Pays.data rfl rfl rfl rfl
    · exact Pays.data rfl rfl rfl rfl
    · exact Pays.data rfl fsm rfl rfl
  · rw [adapter, fsm]
    change Pays s s.l4Fin3B2B1BStep
    rw [l4Fin3B2B1BStep]
    split <;> [skip; split <;> [skip; split]]
    · exact Pays.data rfl rfl rfl rfl
    · exact Pays.data rfl rfl rfl rfl
    · exact Pays.data rfl rfl rfl rfl
    · exact Pays.data rfl fsm rfl rfl

/-- The end of a frame in lane 4 or in lane 0 is the first part of a gap. -/
theorem pays_end (fsm : s.fsm = .tLane4 ∨ s.fsm = .tLane0) (i : AxisWord) :
    Pays s (s.adapter i) := by
  -- Behind the end the rest of the column is idle.
  rcases fsm with fsm | fsm
  -- In lane 4 four characters are left, and four more are owed.
  -- In lane 0 all eight are idle characters or the end, and eight more are owed.
  · rw [adapter, fsm]
    set d := I.replicate 3 ++ T ++ s.calctedCrc4B with sent
    have bytes : bytesLE 8 d = bytesLE 4 s.calctedCrc4B ++ T :: List.replicate 3 I := by
      rw [sent, bytesLE_append 4 4 rfl, bytesLE_append 1 3 rfl]
      rfl
    have size := length_bytesLE 4 s.calctedCrc4B
    have column := @Column.gap_end ⟨d, 0xF0#8⟩ (bytesLE 4 s.calctedCrc4B)
      (by rw [size]; decide) (by rw [size]; rfl) (by rw [size]; exact bytes)
    rw [size] at column
    refine Pays.of_step (t := { s with d := d, c := 0xF0, fsm := .qwIdle }) column rfl rfl ?_
    rw [fsm]
    exact Nat.le_of_eq rfl
  · rw [adapter, fsm]
    have column : (⟨I.replicate 7 ++ T, 0xFF#8⟩ : Column).starts = 0 ∧
        (⟨I.replicate 7 ++ T, 0xFF#8⟩ : Column).gap = 8 := by decide
    refine Pays.of_step (t := { s with
      d := I.replicate 7 ++ T, c := 0xFF, tready := true, fsm := .dwIdle }) column rfl rfl ?_
    rw [fsm]
    exact Nat.le_of_eq rfl

/-- Every clock edge pays for the frame that it starts. -/
theorem pays (repeats : s.Repeats) (rst : Bool) (i : AxisWord) : Pays s (s.step rst i) := by
  have small := s.dic_small
  cases rst with
  | true =>
    -- The gap is begun again, and a column more is left over for the deficit.
    refine Pays.of_step (t := { s.quiet with tready := false, fsm := .sres }) Column.gap_idle rfl rfl ?_
    change 0 + (4 + s.dic.toNat) + s.dic.toNat ≤ 8 + owed s.fsm s.dic + s.dic.toNat
    omega
  | false =>
    change Pays s (s.adapter i)
    cases fsm : s.fsm with
    | sres =>
      rw [adapter, fsm]
      -- The idle column of the reset is sent once more.
      have column : s.column.starts = 0 ∧ s.column.gap = 8 := by
        rw [repeats.1 fsm]
        exact Column.gap_idle
      refine Pays.of_step (t := { s with dic := 0, tready := true, fsm := .idleL0 }) column rfl rfl ?_
      rw [fsm]
      change 0 + 12 + s.dic.toNat ≤ 8 + (4 + s.dic.toNat) + 0
      omega
    | idleL0 => exact pays_idleL0 fsm i
    | stLane0 => exact pays_stLane0 fsm i
    | qwIdle =>
      rw [adapter, fsm]
      refine Pays.of_step (t := { s.quiet with tready := true, fsm := .idleL0 }) Column.gap_idle rfl rfl ?_
      rw [fsm]
      exact Nat.le_of_eq rfl
    | l0Fin7B6B5B => exact pays_carry (Or.inl fsm) i
    | tLane4 => exact pays_end (Or.inl fsm) i
    | tLane3 => exact pays_tail (Or.inl ⟨fsm, rfl⟩) i
    | dwIdle => exact pays_dwIdle fsm i
    | tLane2 => exact pays_tail (Or.inr (Or.inl ⟨fsm, rfl⟩)) i
    | tLane1 => exact pays_tail (Or.inr (Or.inr ⟨fsm, rfl⟩)) i
    | tLane0 => exact pays_end (Or.inr fsm) i
    | l0Fin3B2B1B => exact pays_l0Fin3B2B1B fsm (repeats.2 fsm) i
    | tLane7 => exact pays_behind (Or.inl ⟨fsm, rfl⟩) i
    | tLane6 => exact pays_behind (Or.inr (Or.inl ⟨fsm, rfl⟩)) i
    | tLane5 => exact pays_behind (Or.inr (Or.inr ⟨fsm, rfl⟩)) i
    | stLane4 => exact pays_stLane4 fsm i
    | stLane4D => exact pays_stLane4D fsm i
    | l4Fin3B2B1B => exact pays_carry (Or.inr fsm) i
    | l0Fin8B | l0Fin4B | l4Fin8B | l4Fin7B6B5B | l4Fin4B =>
      rw [adapter, fsm]
      exact Pays.data rfl rfl rfl rfl

/-- A step that leads to another state than the two that repeat a column. -/
theorem Repeats.of_other {fsm : TxFsm} (next : t.fsm = fsm) (other : fsm.again = false) :
    Repeats t := by
  -- Nothing is asked of a state that sends a column of its own.
  refine ⟨fun reset => ?_, fun last => ?_⟩
  · rw [← next, reset] at other
    cases other
  · rw [← next, last] at other
    cases other

/-- A step that sends data and is no reset. -/
theorem Repeats.of_data (next : t.fsm ≠ .sres) (data : t.c = 0#8) : Repeats t :=
  ⟨fun is => absurd is next, fun _ => data⟩

/-- Behind the last word of a frame there is no reset. -/
theorem finish_no_reset (tkeep : BitVec 8) :
    finish tkeep .l0Fin8B .l0Fin7B6B5B .l0Fin4B .l0Fin3B2B1B ≠ .sres ∧
      finish tkeep .l4Fin8B .l4Fin7B6B5B .l4Fin4B .l4Fin3B2B1B ≠ .sres := by
  -- The keep is looked at in three lanes only.
  unfold finish
  cases tkeep.getLsbD 7 <;> cases tkeep.getLsbD 4 <;> cases tkeep.getLsbD 3 <;> exact ⟨by decide, by decide⟩

/-- A reset sends an idle column, which is repeated. -/
theorem repeats_reset (s : Axis2Xgmii) (i : AxisWord) : (s.step true i).Repeats :=
  ⟨fun _ => rfl, by rintro ⟨⟩⟩

/-- The columns that are sent again are the same in every run. -/
theorem repeats_kept (repeats : s.Repeats) (rst : Bool) (i : AxisWord) : (s.step rst i).Repeats := by
  -- State by state: a step sends data into a repeating state, or leads to another state.
  cases rst with
  | true => exact repeats_reset s i
  | false =>
    change (s.adapter i).Repeats
    cases fsm : s.fsm <;> simp only [adapter, fsm]
    case idleL0 =>
      rw [idleL0Step]
      split
      · exact Repeats.of_other rfl rfl
      · exact Repeats.of_other fsm rfl
    case stLane0 =>
      rw [stLane0Step]
      split
      · exact Repeats.of_other rfl rfl
      · split
        · exact Repeats.of_other fsm rfl
        · exact Repeats.of_data (finish_no_reset i.tkeep).1 rfl
    case l0Fin7B6B5B =>
      rw [l0Fin7B6B5BStep]
      split <;> [skip; split <;> [skip; split]]
      · exact Repeats.of_other rfl rfl
      · exact Repeats.of_other rfl rfl
      · exact Repeats.of_other rfl rfl
      · exact Repeats.of_other fsm rfl
    -- A word without a kept lane stays, and so does the column of data.
    case l0Fin3B2B1B =>
      rw [l0Fin3B2B1BStep]
      split <;> [skip; split <;> [skip; split]]
      · exact Repeats.of_other rfl rfl
      · exact Repeats.of_other rfl rfl
      · exact Repeats.of_other rfl rfl
      · exact repeats
    case dwIdle =>
      rw [dwIdleStep]
      split
      · exact Repeats.of_other rfl rfl
      · exact Repeats.of_other rfl rfl
    case stLane4 =>
      rw [stLane4Step]
      split
      · exact Repeats.of_other rfl rfl
      · exact Repeats.of_other rfl rfl
    -- The last word is sent as data, and its end may need a repeating state.
    case stLane4D =>
      rw [stLane4DStep]
      split
      · exact Repeats.of_other rfl rfl
      · split
        · exact Repeats.of_other fsm rfl
        · exact Repeats.of_data (finish_no_reset i.tkeep).2 rfl
    case l4Fin3B2B1B =>
      rw [l4Fin3B2B1BStep]
      split <;> [skip; split <;> [skip; split]]
      · exact Repeats.of_other rfl rfl
      · exact Repeats.of_other rfl rfl
      · exact Repeats.of_other rfl rfl
      · exact Repeats.of_other fsm rfl
    case tLane3 | tLane2 | tLane1 | tLane7 | tLane6 | tLane5 =>
      split
      · exact Repeats.of_other rfl rfl
      · exact Repeats.of_other rfl rfl
    case l4Fin7B6B5B => exact Repeats.of_data (by rintro ⟨⟩) rfl
    all_goals exact Repeats.of_other rfl rfl

/-- A clock edge of the transmitter, with the reset as an input like the word. -/
def edge (s : Axis2Xgmii) (i : Bool × AxisWord) : Axis2Xgmii :=
  s.step i.1 i.2

/-- The columns that are sent behind each edge of a run. -/
def sent (s : Axis2Xgmii) (is : List (Bool × AxisWord)) : List Column :=
  (visited edge s is).map column

/-- A run of edges pays for the frames that start in it. -/
theorem pays_run (repeats : s.Repeats) (is : List (Bool × AxisWord)) :
    12 * ((s.sent is).map Column.starts).sum ≤ ((s.sent is).map Column.gap).sum + 15 := by
  -- The balance is a potential: each edge pays for its start, so a run pays for all of them.
  have kept : ∀ (t : Axis2Xgmii) (i : Bool × AxisWord), t.Repeats → (t.edge i).Repeats :=
    fun t i repeats => repeats_kept repeats i.1 i.2
  have covered : ∀ (t : Axis2Xgmii) (i : Bool × AxisWord), t.Repeats →
      ((12 * (t.edge i).column.starts : Nat) : Int) + (t.edge i).balance ≤
        (t.edge i).column.gap + t.balance := by
    intro t i repeats
    have here := pays repeats i.1 i.2
    rw [Pays] at here
    rw [balance, balance, edge]
    omega
  have account := @amortized _ _ edge Repeats (fun t => 12 * t.column.starts) (fun t => t.column.gap)
    balance kept covered s repeats is
  -- The sums over the states are those over the columns they send.
  have costs : ((visited edge s is).map fun t => 12 * t.column.starts).sum =
      12 * ((s.sent is).map Column.starts).sum := by
    rw [sent, List.map_map, List.sum_map_mul_left]
    rfl
  have gains : (visited edge s is).map (fun t => t.column.gap) = (s.sent is).map Column.gap := by
    rw [sent, List.map_map]
    rfl
  rw [costs, gains, balance, balance] at account
  -- At the ends of the run the balance lies between the deficit and what is owed at most.
  have least := (is.foldl edge s).dic_small
  have most : owed s.fsm s.dic ≤ 12 := by
    have small := s.dic_small
    cases s.fsm <;> simp only [owed] <;> omega
  omega

/-- Twelve characters stand between two frames on the average, and three less at any one time.

The run begins with a reset, and resets, aborts and pauses of the stream may come in any order in it.
Over any part of it each frame that starts has its gap, where an abort stands for four characters;
fifteen are the gap that was sent before the part began and the deficit. -/
theorem interframe_gap (s : Axis2Xgmii) (first : AxisWord) (is part : List (Bool × AxisWord)) :
    12 * ((sent (is.foldl edge (s.step true first)) part).map Column.starts).sum ≤
      ((sent (is.foldl edge (s.step true first)) part).map Column.spacing).sum +
        4 * ((sent (is.foldl edge (s.step true first)) part).map Column.errors).sum + 15 := by
  -- Whatever came before, the part begins in a state that repeats only harmless columns.
  have kept : ∀ (t : Axis2Xgmii) (i : Bool × AxisWord), t.Repeats → (t.edge i).Repeats :=
    fun t i repeats => repeats_kept repeats i.1 i.2
  have start := foldl_invariant kept (repeats_reset s first) is
  have paid := pays_run start part
  rw [Column.gap_sum] at paid
  exact paid

end Axis2Xgmii

end MarketData.Xgmii
