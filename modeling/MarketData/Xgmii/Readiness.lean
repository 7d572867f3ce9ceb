import Mathlib.Data.List.Induction
import MarketData.Lib.Potential
import MarketData.Xgmii.Transmission

/-! When `axis2xgmii` takes the next word of the stream, and when it never does again. -/

namespace MarketData.Xgmii

/-- How many clock edges it takes at most until words are taken again. -/
def TxFsm.wait : TxFsm → Nat
  | .idleL0 | .stLane0 | .dwIdle | .stLane4 | .stLane4D => 0
  | .sres | .qwIdle | .tLane0 | .tLane7 | .tLane6 | .tLane5 => 1
  | .tLane4 | .tLane3 | .tLane2 | .tLane1 | .l0Fin4B | .l0Fin3B2B1B => 2
  | .l0Fin8B | .l0Fin7B6B5B | .l4Fin8B | .l4Fin7B6B5B | .l4Fin4B | .l4Fin3B2B1B => 3

/-- The states that take the second and the further words of a frame, of which one is the last. -/
def TxFsm.inside : TxFsm → Bool
  | .stLane0 | .stLane4D => true
  | _ => false

/-- Words are taken where there is no wait. -/
theorem TxFsm.wait_zero (fsm : TxFsm) : fsm.wait = 0 ↔ fsm.ready = true := by
  cases fsm <;> decide

/-- Inside a frame words are taken. -/
theorem TxFsm.inside_ready {fsm : TxFsm} (inside : fsm.inside = true) : fsm.wait = 0 := by
  cases fsm <;> first | rfl | cases inside

/-- No wait is longer than three clock edges. -/
theorem TxFsm.wait_three (fsm : TxFsm) : fsm.wait ≤ 3 := by
  cases fsm <;> decide

/-- The states that look at the keep of the last word. -/
def TxFsm.picks : TxFsm → Bool
  | .l0Fin7B6B5B | .l0Fin3B2B1B | .l4Fin7B6B5B | .l4Fin3B2B1B => true
  | _ => false

/-- Nothing is kept of a last word in the lanes that the ways to end a frame look at. -/
def AxisWord.Void (i : AxisWord) : Prop :=
  i.tuser = false ∧ i.tlast = true ∧ i.tkeep &&& 0x9F#8 = 0#8

namespace Axis2Xgmii

/-- The word ends a frame, but no byte of it is kept. -/
def Hangs (s : Axis2Xgmii) (i : AxisWord) : Prop :=
  s.fsm.inside = true ∧ i.Void

/-- One to three bytes more should be sent, but there are none. -/
def Hung (s : Axis2Xgmii) : Prop :=
  (s.fsm = .l0Fin3B2B1B ∨ s.fsm = .l4Fin3B2B1B) ∧
    s.tkeepI.getLsbD 2 = false ∧ s.tkeepI.getLsbD 1 = false ∧ s.tkeepI.getLsbD 0 = false

/-- Where five to seven bytes more are sent, the fifth is there. -/
def Fifth (s : Axis2Xgmii) : Prop :=
  s.fsm = .l0Fin7B6B5B ∨ s.fsm = .l4Fin7B6B5B → s.tkeepI.getLsbD 4 = true

/-- What a clock edge does to the wait for the next word. -/
structure Moves (s t : Axis2Xgmii) (i : AxisWord) : Prop where
  /-- The fifth byte is there where it is looked for. -/
  fifth : t.Fifth
  /-- Only the word at this edge can hang what did not hang before. -/
  hung : t.Hung ↔ s.Hung ∨ s.Hangs i
  /-- The wait becomes shorter. -/
  shorter : ¬ s.Hung → 0 < s.fsm.wait → t.fsm.wait < s.fsm.wait

variable {s t : Axis2Xgmii} {i : AxisWord}

/-- A state that does not look at the keep is not hung, and needs no fifth byte. -/
theorem not_hung {fsm : TxFsm} (next : t.fsm = fsm) (plain : fsm.picks = false) :
    t.Fifth ∧ ¬ t.Hung := by
  -- Both notions ask for a state that looks at the keep.
  refine ⟨?_, ?_⟩
  · rintro (picks | picks) <;> rw [← next, picks] at plain <;> cases plain
  · rintro ⟨picks | picks, -⟩ <;> rw [← next, picks] at plain <;> cases plain

/-- A clock edge from a state that cannot hang to one that cannot. -/
theorem Moves.of_plain {fsm : TxFsm} (now : ¬ s.Hung) (word : ¬ s.Hangs i) (next : t.fsm = fsm)
    (plain : fsm.picks = false)
    (less : 0 < s.fsm.wait → fsm.wait < s.fsm.wait) : Moves s t i := by
  -- Neither side of the equivalence holds, and the next state says how long the wait is.
  obtain ⟨fifth, later⟩ := not_hung next plain
  refine ⟨fifth, ⟨fun hung => absurd hung later, ?_⟩, ?_⟩
  · rintro (hung | hangs)
    · exact absurd hung now
    · exact absurd hangs word
  · intro _ waits
    rw [next]
    exact less waits

/-- A word hangs a frame in two states only. -/
theorem not_hangs {fsm : TxFsm} (now : s.fsm = fsm) (outside : fsm.inside = false) :
    ¬ s.Hangs i := by
  -- The word would have to be taken inside a frame.
  rintro ⟨inside, -⟩
  rw [now, outside] at inside
  cases inside

/-- Behind the last word of a frame the lanes that are looked for are there, or no lane is kept. -/
theorem finish_keeps (tkeep : BitVec 8) {fsm : TxFsm}
    (next : fsm = finish tkeep .l0Fin8B .l0Fin7B6B5B .l0Fin4B .l0Fin3B2B1B ∨
      fsm = finish tkeep .l4Fin8B .l4Fin7B6B5B .l4Fin4B .l4Fin3B2B1B) :
    (fsm = .l0Fin7B6B5B ∨ fsm = .l4Fin7B6B5B → tkeep.getLsbD 4 = true) ∧
      ((fsm = .l0Fin3B2B1B ∨ fsm = .l4Fin3B2B1B) ∧ tkeep.getLsbD 2 = false ∧
        tkeep.getLsbD 1 = false ∧ tkeep.getLsbD 0 = false ↔ tkeep &&& 0x9F#8 = 0#8) := by
  -- The keep has eight bits.
  rcases next with rfl | rfl
  · revert tkeep
    decide
  · revert tkeep
    decide

/-- A clock edge that takes a word of a frame. -/
theorem Moves.of_word (now : s.fsm = .stLane0 ∨ s.fsm = .stLane4D) (keep : t.tkeepI = i.tkeep)
    (aborted : i.tuser = true → t.fsm = .qwIdle)
    (inner : i.tuser = false → i.tlast = false → t.fsm = s.fsm)
    (last : i.tuser = false → i.tlast = true →
      t.fsm = finish i.tkeep .l0Fin8B .l0Fin7B6B5B .l0Fin4B .l0Fin3B2B1B ∨
        t.fsm = finish i.tkeep .l4Fin8B .l4Fin7B6B5B .l4Fin4B .l4Fin3B2B1B) : Moves s t i := by
  -- Both states take a word at once, so nothing is to be waited for.
  have ready : ¬ 0 < s.fsm.wait := by
    rcases now with fsm | fsm <;> rw [fsm] <;> exact Nat.lt_irrefl 0
  have plain : s.fsm.picks = false := by
    rcases now with fsm | fsm <;> rw [fsm] <;> rfl
  have inside : s.fsm.inside = true := by
    rcases now with fsm | fsm <;> rw [fsm] <;> rfl
  -- They do not look at the keep that is held, so only this word matters.
  have runs := (not_hung rfl plain).2
  cases user : i.tuser with
  | true =>
    -- An aborted frame leaves for the idle column behind it.
    refine Moves.of_plain runs ?_ (aborted user) rfl fun waits => absurd waits ready
    rintro ⟨-, good, -⟩
    rw [user] at good
    cases good
  | false =>
    cases ends : i.tlast with
    | false =>
      -- A word in the middle leaves the state as it is.
      refine Moves.of_plain runs ?_ (inner user ends) plain fun waits => absurd waits ready
      rintro ⟨-, -, closed, -⟩
      rw [ends] at closed
      cases closed
    | true =>
      -- Behind the last word the keep decides, and a void one hangs the frame.
      obtain ⟨fifth, hung⟩ := finish_keeps i.tkeep (last user ends)
      refine ⟨?_, ?_, fun _ waits => absurd waits ready⟩
      · rw [Fifth, keep]
        exact fifth
      · rw [Hung, keep, hung]
        constructor
        · intro void
          exact Or.inr ⟨inside, user, ends, void⟩
        · rintro (hung | hangs)
          · exact absurd hung runs
          · exact hangs.2.2.2

/-- A frame from lane 0 takes a word. -/
theorem moves_stLane0 (fsm : s.fsm = .stLane0) (i : AxisWord) : Moves s (s.adapter i) i := by
  -- The three branches are an abort, a further word and the last word.
  rw [adapter, fsm]
  change Moves s (s.stLane0Step i) i
  refine Moves.of_word (Or.inl fsm) ?_ ?_ ?_ ?_
  · rw [stLane0Step]
    split <;> [skip; split] <;> rfl
  · intro user
    rw [stLane0Step, if_pos user]
  · intro good inner
    rw [stLane0Step, if_neg (by rw [good]; exact Bool.false_ne_true), if_pos (by rw [inner]; rfl)]
    rfl
  · intro good last
    rw [stLane0Step, if_neg (by rw [good]; exact Bool.false_ne_true), if_neg (by rw [last]; exact Bool.false_ne_true)]
    exact Or.inl rfl

/-- A frame from lane 4 takes a word. -/
theorem moves_stLane4D (fsm : s.fsm = .stLane4D) (i : AxisWord) : Moves s (s.adapter i) i := by
  -- The three branches are those of a frame from lane 0.
  rw [adapter, fsm]
  change Moves s (s.stLane4DStep i) i
  refine Moves.of_word (Or.inr fsm) ?_ ?_ ?_ ?_
  · rw [stLane4DStep]
    split <;> [skip; split] <;> rfl
  · intro user
    rw [stLane4DStep, if_pos user]
  · intro good inner
    rw [stLane4DStep, if_neg (by rw [good]; exact Bool.false_ne_true), if_pos (by rw [inner]; rfl)]
    rfl
  · intro good last
    rw [stLane4DStep, if_neg (by rw [good]; exact Bool.false_ne_true),
      if_neg (by rw [last]; exact Bool.false_ne_true)]
    exact Or.inr rfl

/-- A state that is hung stays so. -/
theorem Moves.of_hung (hung : s.Hung) (same : t.fsm = s.fsm) (keep : t.tkeepI = s.tkeepI) :
    Moves s t i := by
  -- Nothing changes the state and the keep, and none of these states asks for a fifth byte.
  have still : t.Hung := by
    rw [Hung, same, keep]
    exact hung
  refine ⟨?_, ⟨fun _ => Or.inl hung, fun _ => still⟩, fun runs => absurd hung runs⟩
  rw [Fifth, same]
  rcases hung.1 with fsm | fsm <;> rw [fsm] <;> rintro (⟨⟨⟩⟩ | ⟨⟨⟩⟩)

/-- A state that sends one to three bytes is left if one of them is kept, and else never. -/
theorem Moves.of_keep (now : s.fsm = .l0Fin3B2B1B ∨ s.fsm = .l4Fin3B2B1B)
    (kept : ¬ s.Hung → t.fsm.picks = false ∧ t.fsm.wait < s.fsm.wait)
    (none : s.Hung → t.fsm = s.fsm ∧ t.tkeepI = s.tkeepI) : Moves s t i := by
  by_cases hung : s.Hung
  · exact Moves.of_hung hung (none hung).1 (none hung).2
  · -- The state takes no word, so the word at this edge hangs nothing.
    have word : ¬ s.Hangs i := by
      rcases now with fsm | fsm
      · exact not_hangs fsm rfl
      · exact not_hangs fsm rfl
    exact Moves.of_plain hung word rfl (kept hung).1 fun _ => (kept hung).2

/-- The end of a frame behind one to three bytes from lane 0 is sent, or the frame hangs. -/
theorem moves_l0Fin3B2B1B (fsm : s.fsm = .l0Fin3B2B1B) (i : AxisWord) : Moves s (s.adapter i) i := by
  rw [adapter, fsm]
  change Moves s s.l0Fin3B2B1BStep i
  refine Moves.of_keep (Or.inl fsm) (fun runs => ?_) ?_
  · -- The first of the lanes that is kept decides between three ends of the frame.
    rw [l0Fin3B2B1BStep, fsm]
    split <;> [skip; split <;> [skip; split]]
    case isTrue => exact ⟨rfl, Nat.le_refl 2⟩
    case isFalse.isTrue => exact ⟨rfl, Nat.le_refl 2⟩
    case isFalse.isFalse.isTrue => exact ⟨rfl, Nat.le_refl 2⟩
    case isFalse.isFalse.isFalse two one zero =>
      exact absurd ⟨Or.inl fsm, eq_false_of_ne_true two, eq_false_of_ne_true one,
        eq_false_of_ne_true zero⟩ runs
  · rintro ⟨-, two, one, zero⟩
    rw [l0Fin3B2B1BStep, two, one, zero]
    exact ⟨rfl, rfl⟩

/-- The end of a frame behind one to three bytes from lane 4 is sent, or the frame hangs. -/
theorem moves_l4Fin3B2B1B (fsm : s.fsm = .l4Fin3B2B1B) (i : AxisWord) : Moves s (s.adapter i) i := by
  rw [adapter, fsm]
  change Moves s s.l4Fin3B2B1BStep i
  refine Moves.of_keep (Or.inr fsm) (fun runs => ?_) ?_
  · -- As from lane 0; the end of the frame takes a column more.
    rw [l4Fin3B2B1BStep, fsm]
    split <;> [skip; split <;> [skip; split]]
    case isTrue => exact ⟨rfl, Nat.le_refl 3⟩
    case isFalse.isTrue => exact ⟨rfl, Nat.le_refl 3⟩
    case isFalse.isFalse.isTrue => exact ⟨rfl, Nat.le_refl 3⟩
    case isFalse.isFalse.isFalse two one zero =>
      exact absurd ⟨Or.inr fsm, eq_false_of_ne_true two, eq_false_of_ne_true one,
        eq_false_of_ne_true zero⟩ runs
  · rintro ⟨-, two, one, zero⟩
    rw [l4Fin3B2B1BStep, two, one, zero]
    exact ⟨rfl, rfl⟩

/-- The end of a frame behind five to seven bytes from lane 0 is sent. -/
theorem moves_l0Fin7B6B5B (fifth : s.Fifth) (fsm : s.fsm = .l0Fin7B6B5B) (i : AxisWord) :
    Moves s (s.adapter i) i := by
  -- This state hangs nothing: the fifth lane is kept, so one of its branches is taken.
  have word : ¬ s.Hangs i := not_hangs fsm rfl
  have now : ¬ s.Hung := by
    rintro ⟨three | three, -⟩
    · cases fsm.symm.trans three
    · cases fsm.symm.trans three
  have kept := fifth (Or.inl fsm)
  rw [adapter, fsm]
  change Moves s s.l0Fin7B6B5BStep i
  rw [l0Fin7B6B5BStep, if_pos kept]
  split <;> [skip; split] <;>
  · refine Moves.of_plain now word rfl rfl fun _ => ?_
    rw [fsm]
    exact Nat.le_refl 3

/-- The last word of a frame from lane 4 with five to seven bytes leaves one to three bytes. -/
theorem moves_l4Fin7B6B5B (fifth : s.Fifth) (fsm : s.fsm = .l4Fin7B6B5B) (i : AxisWord) :
    Moves s (s.adapter i) i := by
  have word : ¬ s.Hangs i := not_hangs fsm rfl
  have now : ¬ s.Hung := by
    rintro ⟨three | three, -⟩
    · cases fsm.symm.trans three
    · cases fsm.symm.trans three
  have kept := fifth (Or.inr fsm)
  -- The lanes from the fifth one on come into the lowest ones.
  have lowest : (s.tkeepI.extractLsb' 3 5 ++ s.tkeepI.extractLsb' 4 3).getLsbD 0 = true := by
    rw [BitVec.getLsbD_append, if_pos (by decide), BitVec.getLsbD_extractLsb', kept]
    rfl
  rw [adapter, fsm]
  refine ⟨?_, ⟨?_, ?_⟩, fun _ _ => ?_⟩
  · rintro (⟨⟨⟩⟩ | ⟨⟨⟩⟩)
  · rintro ⟨-, -, -, none⟩
    exact absurd lowest (by rw [none]; exact Bool.false_ne_true)
  · rintro (hung | hangs)
    · exact absurd hung now
    · exact absurd hangs word
  · rw [fsm]
    exact Nat.le_refl 3

/-- A clock edge in a state that neither takes the words of a frame nor looks at the keep. -/
theorem Moves.of_states {fsm next : TxFsm} (now : s.fsm = fsm) (later : t.fsm = next)
    (plain : fsm.picks = false ∧ next.picks = false) (outside : fsm.inside = false)
    (less : 0 < fsm.wait → next.wait < fsm.wait) : Moves s t i := by
  refine Moves.of_plain (not_hung now plain.1).2 (not_hangs now outside) later plain.2 ?_
  rw [now]
  exact less

/-- Every clock edge shortens the wait for the next word, unless the frame hangs. -/
theorem moves (fifth : s.Fifth) (i : AxisWord) : Moves s (s.adapter i) i := by
  -- State by state; those without a lemma of their own only move on.
  cases fsm : s.fsm with
  | stLane0 => exact moves_stLane0 fsm i
  | stLane4D => exact moves_stLane4D fsm i
  | l0Fin7B6B5B => exact moves_l0Fin7B6B5B fifth fsm i
  | l0Fin3B2B1B => exact moves_l0Fin3B2B1B fsm i
  | l4Fin7B6B5B => exact moves_l4Fin7B6B5B fifth fsm i
  | l4Fin3B2B1B => exact moves_l4Fin3B2B1B fsm i
  -- A state that takes words has nothing to wait for.
  | idleL0 =>
    rw [adapter, fsm]
    change Moves s (s.idleL0Step i) i
    rw [idleL0Step]
    split
    · exact Moves.of_states fsm rfl ⟨rfl, rfl⟩ rfl fun waits => absurd waits (Nat.lt_irrefl 0)
    · exact Moves.of_states fsm fsm ⟨rfl, rfl⟩ rfl fun waits => absurd waits (Nat.lt_irrefl 0)
  | dwIdle =>
    rw [adapter, fsm]
    change Moves s (s.dwIdleStep i) i
    rw [dwIdleStep]
    split
    · exact Moves.of_states fsm rfl ⟨rfl, rfl⟩ rfl fun waits => absurd waits (Nat.lt_irrefl 0)
    · exact Moves.of_states fsm rfl ⟨rfl, rfl⟩ rfl fun waits => absurd waits (Nat.lt_irrefl 0)
  | stLane4 =>
    rw [adapter, fsm]
    change Moves s (s.stLane4Step i) i
    rw [stLane4Step]
    split
    · exact Moves.of_states fsm rfl ⟨rfl, rfl⟩ rfl fun waits => absurd waits (Nat.lt_irrefl 0)
    · exact Moves.of_states fsm rfl ⟨rfl, rfl⟩ rfl fun waits => absurd waits (Nat.lt_irrefl 0)
  | sres | qwIdle | tLane0 | l0Fin4B | tLane4 | l0Fin8B | l4Fin8B | l4Fin4B =>
    rw [adapter, fsm]
    exact Moves.of_states fsm rfl ⟨rfl, rfl⟩ rfl fun _ => Nat.le_refl _
  | tLane7 | tLane6 | tLane5 =>
    -- The deficit says which state is next.
    simp only [adapter, fsm]
    split
    · exact Moves.of_states fsm rfl ⟨rfl, rfl⟩ rfl fun _ => Nat.le_refl 1
    · exact Moves.of_states fsm rfl ⟨rfl, rfl⟩ rfl fun _ => Nat.le_refl 1
  | tLane3 | tLane2 | tLane1 =>
    simp only [adapter, fsm]
    split
    · exact Moves.of_states fsm rfl ⟨rfl, rfl⟩ rfl fun _ => Nat.le_succ 1
    · exact Moves.of_states fsm rfl ⟨rfl, rfl⟩ rfl fun _ => Nat.le_refl 2

/-- A run from a reset hangs exactly if one of its words did. -/
theorem hung_run (s : Axis2Xgmii) (first : AxisWord) (is : List AxisWord) :
    ((s.step true first).after is).Fifth ∧
      (((s.step true first).after is).Hung ↔ ∃ before i behind, is = before ++ i :: behind ∧
        ((s.step true first).after before).Hangs i) := by
  -- Word by word, the last one first.
  induction is using List.reverseRecOn with
  | nil =>
    obtain ⟨fifth, runs⟩ := not_hung (t := s.step true first) rfl rfl
    refine ⟨fifth, fun hung => absurd hung runs, ?_⟩
    rintro ⟨before, i, behind, split, -⟩
    exact absurd split.symm (List.append_ne_nil_of_right_ne_nil before (List.cons_ne_nil i behind))
  | append_singleton is last ih =>
    obtain ⟨fifth, hung⟩ := ih
    have edge : (s.step true first).after (is ++ [last]) =
        ((s.step true first).after is).adapter last := by
      rw [after, List.foldl_append]
      rfl
    obtain ⟨later, either, -⟩ := moves fifth last
    rw [edge]
    refine ⟨later, ?_⟩
    rw [either, hung]
    constructor
    -- What hung before hangs still, and the last word may hang the frame now.
    · rintro (⟨before, i, behind, rfl, hangs⟩ | hangs)
      · exact ⟨before, i, behind ++ [last], by simp, hangs⟩
      · exact ⟨is, last, [], rfl, hangs⟩
    · rintro ⟨before, i, behind, split, hangs⟩
      rcases List.eq_nil_or_concat behind with rfl | ⟨init, final, rfl⟩
      · obtain ⟨rfl, same⟩ := List.append_inj' split rfl
        rw [List.cons.injEq] at same
        rw [same.1]
        exact Or.inr hangs
      · rw [List.concat_eq_append, ← List.cons_append, ← List.append_assoc] at split
        obtain ⟨rfl, -⟩ := List.append_inj' split rfl
        exact Or.inl ⟨before, i, init, rfl, hangs⟩

/-- Words are taken again within three clock edges, unless a frame has ended without a byte.

A last word that keeps none of the lanes that the adapter looks at stops it until the next reset. -/
theorem ready_again (s : Axis2Xgmii) (first : AxisWord) (is : List AxisWord) :
    (∀ later : List AxisWord, later.length = 3 →
        ∃ k ≤ 3, ((s.step true first).after (is ++ later.take k)).tready = true) ↔
      ¬ ∃ before i behind, is = before ++ i :: behind ∧ ((s.step true first).after before).Hangs i := by
  -- The ready flag is on in the states that take words, from the reset on.
  have kept : ∀ (t : Axis2Xgmii) (i : AxisWord), t.tready = t.fsm.ready →
      (t.step false i).tready = (t.step false i).fsm.ready := fun t i flag => tready_kept flag false i
  have flag : ∀ js, ((s.step true first).after js).tready = ((s.step true first).after js).fsm.ready :=
    fun js => foldl_invariant kept (show (s.step true first).tready = _ from rfl) js
  constructor
  · rintro again ⟨before, i, behind, rfl, hangs⟩
    obtain ⟨k, -, ready⟩ := again (List.replicate 3 first) List.length_replicate
    set later := (List.replicate 3 first).take k
    -- What has hung before hangs still.
    have stuck := (hung_run s first (before ++ i :: behind ++ later)).2.mpr
      ⟨before, i, behind ++ later, List.append_assoc .., hangs⟩
    rw [flag] at ready
    rcases stuck.1 with fsm | fsm <;> rw [fsm] at ready <;> cases ready
  · intro runs later three
    obtain ⟨fifth, hung⟩ := hung_run s first is
    -- Else every clock edge shortens the wait, and at most three are to be waited for.
    have shorter : ∀ (t : Axis2Xgmii) (i : AxisWord), (t.Fifth ∧ ¬ t.Hung) → 0 < t.fsm.wait →
        ((t.step false i).Fifth ∧ ¬ (t.step false i).Hung) ∧
          (t.step false i).fsm.wait < t.fsm.wait := by
      rintro t i ⟨fifth, runs⟩ waits
      obtain ⟨later, either, less⟩ := moves fifth i
      refine ⟨⟨later, fun hung => ?_⟩, less runs waits⟩
      rcases either.mp hung with hung | ⟨inside, -⟩
      · exact runs hung
      · rw [TxFsm.inside_ready inside] at waits
        exact Nat.lt_irrefl 0 waits
    have most := ((s.step true first).after is).fsm.wait_three
    have long : ((s.step true first).after is).fsm.wait ≤ later.length := by omega
    obtain ⟨k, bound, -, ended⟩ :=
      wait_ends shorter ⟨fifth, fun stuck => runs (hung.mp stuck)⟩ long
    refine ⟨k, by omega, ?_⟩
    rw [flag, ← TxFsm.wait_zero, after, List.foldl_append]
    exact ended

end Axis2Xgmii

end MarketData.Xgmii
