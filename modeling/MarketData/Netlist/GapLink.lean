import MarketData.Lib.Pacing
import MarketData.Netlist.Addressed

/-! Gaps inside a frame at the link layer: the MAC filter holds its history, the finder delays. -/

namespace MarketData

/-- A cycle without a word in which data and keep are held. -/
def Bus.hold (b : Bus) : Bus :=
  { b with valid := false, eog := false, eob := false }

/-- A cycle without a word in which data is held and no lane is enabled. -/
def Bus.mute (b : Bus) : Bus :=
  { b.hold with be := firstLanes 0 }

/-- A held cycle is quiet. -/
theorem Bus.hold_quiet (b : Bus) : b.hold.Quiet :=
  ⟨rfl, rfl, rfl⟩

/-- A muted cycle is silent. -/
theorem Bus.mute_silent (b : Bus) : b.mute.Silent :=
  ⟨⟨rfl, rfl, rfl⟩, rfl⟩

/-- The words of a train with the gaps behind them; none is counted behind the last word. -/
inductive PacedTrain : List (Bus × Nat) → Prop
  | last (w : Bus) : w.valid = true → w.eog = true → w.eob = false → PacedTrain [(w, 0)]
  | more (w : Bus) (n : Nat) {ps} : w.valid = true → w.eog = false → w.eob = false →
      PacedTrain ps → PacedTrain ((w, n) :: ps)

/-- A train has a word. -/
theorem Train.ne_nil {ws : List Bus} (train : Train ws) : ws ≠ [] := by
  cases train <;> exact List.cons_ne_nil _ _

/-- Gaps may be put between the words of a train. -/
theorem Train.gapped {ws : List Bus} (train : Train ws) (gaps : Nat → Nat) (i : Nat) :
    PacedTrain (gapped gaps i ws) := by
  -- Induction on the train; only the last word is without a gap.
  induction train generalizing i with
  | last w valid eog eob => exact .last w valid eog eob
  | more w valid eog eob rest ih =>
    rw [gapped_cons gaps i w rest.ne_nil]
    exact .more w _ valid eog eob (ih (i + 1))

/-- A word that does not end the frame is joined to one that does not. -/
theorem joined_eog (s : Fin 9) (p : Bus) {w : Bus} (eog : w.eog = false) :
    (joined s p w).eog = false := by
  show (w.eog && !spills s w.be) = false
  rw [eog, Bool.false_and]

/-- What the MAC filter makes of words with gaps: each word is joined to the one before it.

A last word that leaves lanes over is put out once more. -/
def relayed : Bus → List (Bus × Nat) → List (Bus × Nat)
  | _, [] => []
  | p, (w, n) :: ps =>
    if w.eog then
      (joined 6 p w, 0) ::
        if spills 6 w.be then [({ joined 6 p w with eog := true }, 0)] else []
    else (joined 6 p w, n) :: relayed w ps

/-- A word in front of the last one is joined, and keeps its gap. -/
theorem relayed_cons (p w : Bus) (n : Nat) (ps : List (Bus × Nat)) (eog : w.eog = false) :
    relayed p ((w, n) :: ps) = (joined 6 p w, n) :: relayed w ps := by
  rw [relayed, eog, if_neg Bool.false_ne_true]

/-- What is relayed is a train again. -/
theorem PacedTrain.relayed {ps : List (Bus × Nat)} (train : PacedTrain ps) (p : Bus) :
    PacedTrain (relayed p ps) := by
  -- Induction on the train; the end of the frame moves to the flush word, if there is one.
  induction train generalizing p with
  | last w valid eog eob =>
    rw [MarketData.relayed, if_pos eog]
    cases past : spills 6 w.be with
    | true => exact .more _ 0 rfl (by simp [joined, past]) rfl (.last _ rfl rfl rfl)
    | false => exact .last _ rfl (by simp [joined, eog, past]) rfl
  | more w n valid eog eob rest ih =>
    rw [relayed_cons p w n _ eog]
    exact .more _ n rfl (joined_eog 6 p eog) rfl (ih w)

section Mac

variable {m : MacFilter} {p q w : Bus}

/-- While streaming, a quiet cycle leaves the history as it is, and the output is held. -/
theorem MacFilter.Streaming.rests (streaming : m.Streaming p) (quiet : q.Quiet) :
    (m.step q).1.Streaming p ∧ (m.step q).1.second = m.second.mute := by
  -- The schedule has nothing but the role of the payload left, which is gated.
  obtain ⟨state, accepted, schedule, data, lanes⟩ := streaming
  obtain ⟨valid, eog, eob⟩ := quiet
  refine ⟨⟨?_, ?_, ?_, ?_, ?_⟩, ?_⟩
  all_goals simp [MacFilter.step, MacFilter.second, Bus.mute, Bus.hold, state, accepted, schedule,
    data, lanes, valid, eog, eob, MacRoles.gate]

/-- While streaming, a gap holds the output. -/
theorem MacFilter.Streaming.gap (n : Nat) {b : Bus} (streaming : m.Streaming p)
    (shown : m.second.mute = b) (quiet : q.Quiet) :
    ∃ m', macStage.Emits m (List.replicate n q) m' (List.replicate n b) ∧ m'.Streaming p := by
  -- Cycle by cycle: a quiet one mutes the output, which stays muted.
  have gap := Stage.Emits.replicate (m := macStage) (i := q) (e := b)
    (I := fun m => m.Streaming p ∧ m.second.mute = b) ?_ n ⟨streaming, shown⟩
  · obtain ⟨m', emits, streaming', -⟩ := gap
    exact ⟨m', emits, streaming'⟩
  · rintro m ⟨streaming, shown⟩
    obtain ⟨streaming', held⟩ := streaming.rests quiet
    have here := m.emits q
    rw [held, shown] at here
    exact ⟨_, here, streaming', by rw [held, shown, ← shown]; rfl⟩

/-- A last word that leaves lanes over is put out once more in the next cycle. -/
theorem MacFilter.Streaming.repeats (streaming : m.Streaming p) (valid : w.valid = true)
    (eog : w.eog = true) (eob : w.eob = false) (past : spills 6 w.be = true) (quiet : q.Quiet) :
    ((m.step w).1.step q).1.Idle ∧
      ((m.step w).1.step q).1.second = { joined 6 p w with eog := true } := by
  -- The purge state shows the history, which a quiet cycle does not move.
  obtain ⟨state, accepted, schedule, data, lanes⟩ := streaming
  obtain ⟨still, -, -⟩ := quiet
  rw [spills_six] at past
  have past : (w.be[6] || w.be[7]) = true := past
  have purges : (m.step w).1.fb0 = .purge ∧ (m.step w).1.fb10 = (true, false) ∧
      (m.step w).1.fb21 = p.data ∧ (m.step w).1.fb20 = w.data ∧ (m.step w).1.fb22 = p.be ∧
      (m.step w).1.fb19 = w.be := by
    simp [MacFilter.step, state, accepted, valid, eog, eob, past, data, lanes]
  generalize (m.step w).1 = m₁ at purges
  obtain ⟨purge, ended, old, new, oldLanes, newLanes⟩ := purges
  refine ⟨by simp [MacFilter.Idle, MacFilter.step, purge], ?_⟩
  simp [MacFilter.step, MacFilter.second, purge, ended, old, new, oldLanes, newLanes, still,
    macSched, joined]

/-- Words with gaps are relayed with their gaps, and the filter is between frames again. -/
theorem MacFilter.Streaming.paced {ps : List (Bus × Nat)} (train : PacedTrain ps) (quiet : q.Quiet) :
    ∀ {m : MacFilter} {p : Bus}, m.Streaming p →
      ∃ m' ts, macStage.Emits m (paced Bus.hold ps ++ [q]) m' (paced Bus.mute (relayed p ps) ++ ts) ∧
        m'.Idle ∧ ∀ t ∈ ts, t.Silent := by
  -- Induction on the train; the quiet cycle after the last word carries the flush, if any.
  induction train with
  | last w valid eog eob =>
    intro m p streaming
    have emits := (m.emits w).cons ((m.step w).1.emits q)
    rw [streaming.joins valid eob] at emits
    rw [relayed, if_pos eog]
    cases past : spills 6 w.be with
    | false =>
      obtain ⟨idle, silent⟩ := (streaming.ends valid eog past).quiet quiet
      exact ⟨_, [_], emits, idle, List.forall_mem_singleton.mpr silent⟩
    | true =>
      obtain ⟨idle, last⟩ := streaming.repeats valid eog eob past quiet
      rw [last] at emits
      exact ⟨_, [], emits, idle, by simp⟩
  | @more w n ps valid eog eob rest ih =>
    intro m p streaming
    have here := m.emits w
    rw [streaming.joins valid eob] at here
    obtain ⟨m₁, held, streaming₁⟩ := (streaming.next valid eog eob).gap n
      (congrArg Bus.mute (streaming.joins valid eob)) w.hold_quiet
    obtain ⟨m₂, ts, later, idle, silent⟩ := ih streaming₁
    refine ⟨m₂, ts, ?_, idle, silent⟩
    rw [relayed_cons p w n ps eog, paced_cons, paced_cons]
    have whole := here.cons (held.append later)
    simpa only [List.cons_append, List.append_assoc] using whole

/-- A gap behind the first word uses up the role of the second one. -/
theorem MacFilter.Idle.gap (idle : m.Idle) (valid : w.valid = true)
    (eog : w.eog = false) (eob : w.eob = false)
    (addressed : addressMatches macAddr w.data (by decide) = true) (quiet : q.Quiet) :
    ((m.step w).1.step q).1.Streaming w ∧ ((m.step w).1.step q).1.second.Silent := by
  -- The schedule moves on with every cycle, with or without a word.
  obtain ⟨state, accepted, schedule, -⟩ := idle.first valid eog eob addressed
  have data : (m.step w).1.fb20 = w.data := by simp [MacFilter.step, valid]
  have lanes : (m.step w).1.fb19 = w.be := by simp [MacFilter.step, valid]
  generalize (m.step w).1 = m₁ at state accepted schedule data lanes
  obtain ⟨still, eog', eob'⟩ := quiet
  refine ⟨⟨?_, ?_, ?_, ?_, ?_⟩, ?_⟩
  all_goals simp [MacFilter.step, MacFilter.second, Bus.Silent, Bus.Quiet, state, accepted, schedule,
    data, lanes, still, eog', eob', MacRoles.gate, macSched]

/-- What the MAC filter makes of a frame with gaps in it. -/
def relayedFrame (w₁ : Bus) (g₁ : Nat) (w₂ : Bus) (g₂ : Nat) (ps : List (Bus × Nat)) : List (Bus × Nat) :=
  if g₁ = 0 then relayed w₂ ps else relayed w₁ ((w₂, g₂) :: ps)

/-- Words with gaps and the quiet cycles behind them. -/
theorem MacFilter.Streaming.drained {ps : List (Bus × Nat)} (train : PacedTrain ps)
    {rs : List Bus} (streaming : m.Streaming p) (quiet : ∀ r ∈ q :: rs, r.Quiet) :
    ∃ m' ts, macStage.Emits m (MarketData.paced Bus.hold ps ++ q :: rs) m'
        (MarketData.paced Bus.mute (relayed p ps) ++ ts) ∧
      (∀ t ∈ ts, t.Silent) ∧ rs.length ≤ ts.length := by
  -- The first quiet cycle ends the packet, and the others find the filter idle.
  obtain ⟨calm, calms⟩ := List.forall_mem_cons.mp quiet
  obtain ⟨m₁, ts, body, idle, silent⟩ := MacFilter.Streaming.paced train calm streaming
  obtain ⟨m₂, es, tail, -, silent', long⟩ := Stage.Emits.steadily (m := macStage)
    (I := MacFilter.Idle) (P := Bus.Quiet) (Q := Bus.Silent)
    (fun m q idle quiet => ⟨_, _, m.emits q, idle.quiet quiet⟩) rs idle calms
  refine ⟨m₂, ts ++ es, ?_, List.forall_mem_append.mpr ⟨silent, silent'⟩, ?_⟩
  · simpa only [List.append_assoc, List.singleton_append] using body.append tail
  · rw [List.length_append, long]
    exact Nat.le_add_left _ _

/-- What is held in a gap is silent. -/
theorem replicate_mute_silent (n : Nat) (b : Bus) : ∀ e ∈ List.replicate n b.mute, e.Silent := by
  intro e member
  rw [(List.mem_replicate.mp member).2]
  exact b.mute_silent

/-- A frame with gaps in it and the quiet cycles behind it. -/
theorem MacFilter.Idle.frame {w₁ w₂ : Bus} (g₁ g₂ : Nat) {ps : List (Bus × Nat)} {rs : List Bus}
    (idle : m.Idle) (valid : w₁.valid = true ∧ w₂.valid = true)
    (eog : w₁.eog = false ∧ w₂.eog = false) (eob : w₁.eob = false ∧ w₂.eob = false)
    (addressed : addressMatches macAddr w₁.data (by decide) = true) (train : PacedTrain ps)
    (quiet : ∀ r ∈ q :: rs, r.Quiet) :
    ∃ m' qs ts, macStage.Emits m
        (MarketData.paced Bus.hold ((w₁, g₁) :: (w₂, g₂) :: ps) ++ q :: rs) m'
        (qs ++ MarketData.paced Bus.mute (relayedFrame w₁ g₁ w₂ g₂ ps) ++ ts) ∧
      (∀ e ∈ qs, e.Silent) ∧ (∀ t ∈ ts, t.Silent) ∧ rs.length ≤ ts.length := by
  obtain ⟨valid₁, valid₂⟩ := valid
  obtain ⟨eog₁, eog₂⟩ := eog
  obtain ⟨eob₁, eob₂⟩ := eob
  have first := m.emits w₁
  obtain ⟨state, accepted, schedule, silent₁⟩ := idle.first valid₁ eog₁ eob₁ addressed
  cases g₁ with
  | zero =>
    -- The second word is scheduled as such, and nothing comes of it or its gap.
    obtain ⟨streaming, silent₂⟩ := MacFilter.second_word state accepted schedule valid₂ eog₂ eob₂
    have second := (m.step w₁).1.emits w₂
    generalize ((m.step w₁).1.step w₂).1 = m₂ at second streaming silent₂
    obtain ⟨m₃, held, streaming₃⟩ := streaming.gap g₂ rfl w₂.hold_quiet
    obtain ⟨m₄, ts, body, silent, long⟩ := streaming₃.drained train quiet
    refine ⟨m₄, (m.step w₁).1.second :: m₂.second :: List.replicate g₂ m₂.second.mute, ts, ?_,
      List.forall_mem_cons.mpr ⟨silent₁, List.forall_mem_cons.mpr
        ⟨silent₂, replicate_mute_silent g₂ _⟩⟩, silent, long⟩
    have whole := first.cons (second.cons (held.append body))
    rw [relayedFrame, if_pos rfl, paced_cons, paced_cons]
    simpa only [List.replicate_zero, List.nil_append, List.cons_append, List.append_assoc]
      using whole
  | succ k =>
    -- The first quiet cycle uses up the role of the second word.
    obtain ⟨streaming, silent₂⟩ := idle.gap valid₁ eog₁ eob₁ addressed w₁.hold_quiet
    have second := (m.step w₁).1.emits w₁.hold
    generalize ((m.step w₁).1.step w₁.hold).1 = m₂ at second streaming silent₂
    obtain ⟨m₃, held, streaming₃⟩ := streaming.gap k rfl w₁.hold_quiet
    obtain ⟨m₄, ts, body, silent, long⟩ := streaming₃.drained
      (.more w₂ g₂ valid₂ eog₂ eob₂ train) quiet
    refine ⟨m₄, (m.step w₁).1.second :: m₂.second :: List.replicate k m₂.second.mute, ts, ?_,
      List.forall_mem_cons.mpr ⟨silent₁, List.forall_mem_cons.mpr
        ⟨silent₂, replicate_mute_silent k _⟩⟩, silent, long⟩
    have whole := first.cons (second.cons (held.append body))
    rw [relayedFrame, if_neg (Nat.succ_ne_zero k), paced_cons Bus.hold w₁, List.replicate_succ]
    simpa only [List.cons_append, List.append_assoc] using whole

end Mac

section Subframe

variable {f : FindSubframe}

/-- The finder passes every cycle on that it answers. -/
theorem FindSubframe.delays (is : List Bus) :
    ∀ {f f' : FindSubframe} {os : List Bus}, runOn subStage.step f is = some (f', os) →
      subStage.Emits f is f' is := by
  -- Cycle by cycle; the registers take the input in every state that answers.
  induction is with
  | nil =>
    intro f f' os runs
    obtain ⟨rfl, -⟩ := Prod.mk.inj (Option.some.inj runs)
    exact .nil subStage f
  | cons i is ih =>
    intro f f' os runs
    obtain ⟨f₁, o, later, step, rest, -⟩ := runOn_cons_some runs
    refine Stage.Emits.cons (.single step ?_) (ih rest)
    simp only [subStage, FindSubframe.step] at step
    cases state : f.fb0 with
    | idle =>
      simp only [state, Option.some.injEq, Prod.mk.injEq] at step
      obtain ⟨rfl, rfl⟩ := step
      rfl
    | normalWaitForLast =>
      simp only [state, Option.some.injEq, Prod.mk.injEq] at step
      obtain ⟨rfl, rfl⟩ := step
      rfl
    | smallPacket => simp [state] at step
    | smallWaitForLast => simp [state] at step

/-- A cycle that does not end the packet is answered. -/
theorem FindSubframe.Active.cycle (active : f.Active) (i : Bus) :
    ∃ f', subStage.Emits f [i] f' [i] ∧ (((i.eog || i.eob) && i.valid) = false → f'.Active) ∧
      (((i.eog || i.eob) && i.valid) = true → f'.Idle) := by
  -- The state is left with the end of the packet and not before.
  unfold FindSubframe.Active at active
  refine ⟨_, .single (by simp only [subStage, FindSubframe.step, active]; rfl) rfl, ?_, ?_⟩
  · intro more
    simp [FindSubframe.Active, more]
  · intro last
    simp [FindSubframe.Idle, last]

/-- A gap in a packet is answered. -/
theorem FindSubframe.Active.gap (active : f.Active) (w : Bus) (n : Nat) :
    ∃ f', subStage.Emits f (List.replicate n w.mute) f' (List.replicate n w.mute) ∧ f'.Active :=
  Stage.Emits.replicate (m := subStage) (I := FindSubframe.Active) (fun f active => by
    obtain ⟨f', emits, stays, -⟩ := active.cycle w.mute
    exact ⟨f', emits, stays (by simp [Bus.mute, Bus.hold])⟩) n active

/-- A packet with gaps in it is answered. -/
theorem FindSubframe.Active.paced {ps : List (Bus × Nat)} (train : PacedTrain ps) :
    ∀ {f : FindSubframe}, f.Active →
      ∃ f', subStage.Emits f (paced Bus.mute ps) f' (paced Bus.mute ps) ∧ f'.Idle := by
  -- Induction on the train; only its last word ends the packet.
  induction train with
  | last w valid eog eob =>
    intro f active
    obtain ⟨f', emits, -, ends⟩ := active.cycle w
    exact ⟨f', emits, ends (by simp [valid, eog])⟩
  | @more w n ps valid eog eob rest ih =>
    intro f active
    obtain ⟨f₁, here, stays, -⟩ := active.cycle w
    obtain ⟨f₂, held, active₂⟩ := (stays (by simp [eog, eob])).gap w n
    obtain ⟨f₃, later, idle⟩ := ih active₂
    rw [paced_cons]
    exact ⟨f₃, here.cons (held.append later), idle⟩

/-- A packet of normal size with gaps in it, in quiet surroundings, is answered. -/
theorem FindSubframe.Idle.answers (idle : f.Idle) {a : Bus} (n : Nat) {ps : List (Bus × Nat)}
    {qs rs : List Bus} (before : ∀ q ∈ qs, q.Quiet) (after : ∀ r ∈ rs, r.Quiet)
    (valid : a.valid = true) (eog : a.eog = false) (eob : a.eob = false)
    (version : a.data.get 0 = 0x45#8) (normal : ¬ (a.data.get 2 = 0#8 ∧ a.data.get 3 < 46#8))
    (train : PacedTrain ps) :
    ∃ f' os, runOn subStage.step f (qs ++ paced Bus.mute ((a, n) :: ps) ++ rs) = some (f', os) := by
  -- Part by part: quiet cycles, the first word, its gap, the words behind it and quiet cycles.
  have quiets : ∀ (is : List Bus) {f : FindSubframe}, f.Idle → (∀ i ∈ is, i.Quiet) →
      ∃ f' es, subStage.Emits f is f' es ∧ f'.Idle := by
    intro is f idle calm
    obtain ⟨f', es, emits, idle', -⟩ := Stage.Emits.steadily (m := subStage)
      (I := FindSubframe.Idle) (P := Bus.Quiet) (Q := fun _ => True)
      (fun f q idle quiet => by
        obtain ⟨f', emits, idle'⟩ := idle.quiet quiet
        exact ⟨f', q, emits, idle', trivial⟩) is idle calm
    exact ⟨f', es, emits, idle'⟩
  obtain ⟨f₁, es, lead, idle₁⟩ := quiets qs idle before
  obtain ⟨f₂, opening, active⟩ := idle₁.first valid eog eob version normal
  obtain ⟨f₃, held, active₃⟩ := active.gap a n
  obtain ⟨f₄, body, idle₄⟩ := active₃.paced train
  obtain ⟨f₅, ts, tail, -⟩ := quiets rs idle₄ after
  have whole := (lead.append (opening.cons (held.append body))).append tail
  obtain ⟨os, runs, -⟩ := whole
  rw [paced_cons]
  exact ⟨f₅, os, runs⟩

end Subframe

end MarketData
