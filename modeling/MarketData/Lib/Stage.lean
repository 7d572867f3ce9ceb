import Mathlib.Data.List.Basic
import Mathlib.Tactic.Common

/-! Clocked stages that answer with a fixed latency, and the framed streams that pass through them. -/

namespace MarketData

/-- The states and outputs of a partial clocked machine along its inputs. -/
def runOn {σ ι ω : Type} (step : σ → ι → Option (σ × ω)) : σ → List ι → Option (σ × List ω)
  | s, [] => some (s, [])
  | s, i :: is =>
    match step s i with
    | none => none
    | some (s', o) => (runOn step s' is).map fun r => (r.1, o :: r.2)

section Runs

variable {σ ι ω : Type} {step : σ → ι → Option (σ × ω)}

/-- A run that starts with one answered cycle. -/
theorem runOn_cons {s s' s'' : σ} {i : ι} {is : List ι} {o : ω} {os : List ω}
    (first : step s i = some (s', o)) (rest : runOn step s' is = some (s'', os)) :
    runOn step s (i :: is) = some (s'', o :: os) := by
  -- The first cycle is answered, so the run goes on from its state.
  simp [runOn, first, rest]

/-- An answered run is an answered first cycle and an answered rest. -/
theorem runOn_cons_some {s s'' : σ} {i : ι} {is : List ι} {os : List ω}
    (answered : runOn step s (i :: is) = some (s'', os)) :
    ∃ s' o later, step s i = some (s', o) ∧ runOn step s' is = some (s'', later) ∧
      os = o :: later := by
  -- An unanswered first cycle or rest would leave the whole run unanswered.
  simp only [runOn] at answered
  cases first : step s i with
  | none => simp [first] at answered
  | some r =>
    obtain ⟨s', o⟩ := r
    rw [first] at answered
    simp only [Option.map_eq_some_iff, Prod.mk.injEq] at answered
    obtain ⟨⟨t, later⟩, rest, rfl, rfl⟩ := answered
    exact ⟨s', o, later, rfl, rest, rfl⟩

/-- Consecutive runs are one run. -/
theorem runOn_append {s s' s'' : σ} {is js : List ι} {os ps : List ω}
    (first : runOn step s is = some (s', os)) (second : runOn step s' js = some (s'', ps)) :
    runOn step s (is ++ js) = some (s'', os ++ ps) := by
  -- Induction on the first inputs; its last state is where the second run starts.
  induction is generalizing s os with
  | nil =>
    simp only [runOn, Option.some.injEq, Prod.mk.injEq] at first
    obtain ⟨rfl, rfl⟩ := first
    exact second
  | cons i is ih =>
    obtain ⟨t, o, later, here, rest, rfl⟩ := runOn_cons_some first
    exact runOn_cons here (ih rest)

/-- There is one output for each input. -/
theorem runOn_length {s s' : σ} {is : List ι} {os : List ω}
    (answered : runOn step s is = some (s', os)) : os.length = is.length := by
  -- Induction on the inputs; each answered cycle adds one output.
  induction is generalizing s os with
  | nil =>
    simp only [runOn, Option.some.injEq, Prod.mk.injEq] at answered
    simp [← answered.2]
  | cons i is ih =>
    obtain ⟨t, o, later, _, rest, rfl⟩ := runOn_cons_some answered
    simp [ih rest]

/-- The start of an answered run is answered with the start of its outputs. -/
theorem runOn_prefix {s s'' : σ} {is js : List ι} {os : List ω}
    (answered : runOn step s (is ++ js) = some (s'', os)) :
    ∃ s', runOn step s is = some (s', os.take is.length) := by
  -- Induction on the first inputs; each of them is answered on its own.
  induction is generalizing s os with
  | nil => exact ⟨s, by simp [runOn]⟩
  | cons i is ih =>
    obtain ⟨t, o, later, first, rest, rfl⟩ := runOn_cons_some answered
    obtain ⟨s', early⟩ := ih rest
    exact ⟨s', runOn_cons first early⟩

end Runs

/-- A machine, what is observed of its outputs, and the observations its registers already fix. -/
structure Stage (σ ι ω ν : Type) where
  /-- One clock cycle; `none` is an input the source refuses. -/
  step : σ → ι → Option (σ × ω)
  /-- What the next stage can tell of an output. -/
  view : ω → ν
  /-- The observations of the next cycles, whatever their inputs are. -/
  ahead : σ → List ν

variable {σ ι ω ν α β γ : Type}

/-- The run ends in `s'` and adds the observations `es` behind those already fixed. -/
def Stage.Emits (m : Stage σ ι ω ν) (s : σ) (is : List ι) (s' : σ) (es : List ν) : Prop :=
  ∃ os, runOn m.step s is = some (s', os) ∧ os.map m.view ++ m.ahead s' = m.ahead s ++ es

/-- No input adds nothing. -/
theorem Stage.Emits.nil (m : Stage σ ι ω ν) (s : σ) : m.Emits s [] s [] :=
  ⟨[], rfl, by simp⟩

/-- One cycle outputs what was fixed first and adds one observation at the end. -/
theorem Stage.Emits.single {m : Stage σ ι ω ν} {s s' : σ} {i : ι} {o : ω} {e : ν}
    (step : m.step s i = some (s', o)) (shift : m.view o :: m.ahead s' = m.ahead s ++ [e]) :
    m.Emits s [i] s' [e] :=
  ⟨[o], runOn_cons step rfl, by simpa using shift⟩

/-- Consecutive runs add their observations one after the other. -/
theorem Stage.Emits.append {m : Stage σ ι ω ν} {s s' s'' : σ} {is js : List ι} {es fs : List ν}
    (first : m.Emits s is s' es) (second : m.Emits s' js s'' fs) :
    m.Emits s (is ++ js) s'' (es ++ fs) := by
  -- The runs are joined, and so are their queues.
  obtain ⟨os, runs, shift⟩ := first
  obtain ⟨ps, runs', shift'⟩ := second
  refine ⟨os ++ ps, runOn_append runs runs', ?_⟩
  -- The middle queue is what the first run leaves and the second one starts from.
  rw [List.map_append, List.append_assoc, shift', ← List.append_assoc, shift, List.append_assoc]

/-- A cycle in front of a run adds its observation in front. -/
theorem Stage.Emits.cons {m : Stage σ ι ω ν} {s s' s'' : σ} {i : ι} {is : List ι} {e : ν}
    {es : List ν} (first : m.Emits s [i] s' [e]) (second : m.Emits s' is s'' es) :
    m.Emits s (i :: is) s'' (e :: es) :=
  first.append second

/-- The observed outputs when the last observations are still in the registers. -/
theorem Stage.Emits.outputs {m : Stage σ ι ω ν} {s s' : σ} {is : List ι} {es late : List ν}
    (emits : m.Emits s is s' (es ++ late)) (latency : (m.ahead s').length = late.length) :
    ∃ os, runOn m.step s is = some (s', os) ∧ os.map m.view = m.ahead s ++ es ∧
      m.ahead s' = late := by
  -- What is still in the registers is as long as the late part, so both ends agree.
  obtain ⟨os, runs, shift⟩ := emits
  rw [← List.append_assoc] at shift
  exact ⟨os, runs, List.append_inj' shift latency⟩

/-- Packets in quiet surroundings.

At least `lead` quiet cycles stand before each packet, `gap` belong to each after it, and at
least `tail` end the stream. -/
inductive Framed (quiet : α → Prop) (carries : γ → List α → Prop) (lead gap tail : Nat) :
    List γ → List α → Prop
  | done {qs} : (∀ q ∈ qs, quiet q) → tail ≤ qs.length → Framed quiet carries lead gap tail [] qs
  | packet {p ps qs ws ts s} : (∀ q ∈ qs, quiet q) → lead ≤ qs.length → carries p ws →
      (∀ t ∈ ts, quiet t) → ts.length = gap → Framed quiet carries lead gap tail ps s →
      Framed quiet carries lead gap tail (p :: ps) (qs ++ ws ++ ts ++ s)

section Framing

variable {quiet : α → Prop} {carries : γ → List α → Prop} {lead gap tail : Nat}

/-- Quiet cycles may be put in front of a framed stream. -/
theorem Framed.prepend {ps : List γ} {s qs : List α} (calm : ∀ q ∈ qs, quiet q)
    (framed : Framed quiet carries lead gap tail ps s) :
    Framed quiet carries lead gap tail ps (qs ++ s) := by
  -- The quiet cycles join those in front of the first packet or at the end.
  cases framed with
  | done idle long =>
    refine .done ?_ (by rw [List.length_append]; omega)
    intro q member
    rcases List.mem_append.mp member with here | there
    · exact calm q here
    · exact idle q there
  | @packet p ps lds ws ts s idle enough carried after count rest =>
    have front : ∀ q ∈ qs ++ lds, quiet q := by
      intro q member
      rcases List.mem_append.mp member with here | there
      · exact calm q here
      · exact idle q there
    have same : qs ++ (lds ++ ws ++ ts ++ s) = (qs ++ lds) ++ ws ++ ts ++ s := by
      simp only [List.append_assoc]
    rw [same]
    exact .packet front (by rw [List.length_append]; omega) carried after count rest

/-- The last quiet cycles can be split off. -/
theorem Framed.trim {ps : List γ} {s : List α} (late : Nat)
    (framed : Framed quiet carries lead gap (tail + late) ps s) :
    ∃ s' qs, s = s' ++ qs ∧ qs.length = late ∧ (∀ q ∈ qs, quiet q) ∧
      Framed quiet carries lead gap tail ps s' := by
  -- Induction on the packets; the stream ends with more quiet cycles than are split off.
  induction framed with
  | @done qs idle long =>
    refine ⟨qs.take (qs.length - late), qs.drop (qs.length - late), by simp, ?_, ?_, ?_⟩
    · simp only [List.length_drop]
      omega
    · exact fun q member => idle q (List.mem_of_mem_drop member)
    · refine .done (fun q member => idle q (List.mem_of_mem_take member)) ?_
      simp only [List.length_take]
      omega
  | @packet p ps lds ws ts s idle enough carried after count rest ih =>
    obtain ⟨s', qs, rfl, long, calm, framed⟩ := ih
    exact ⟨lds ++ ws ++ ts ++ s', qs, by simp only [List.append_assoc], long, calm,
      .packet idle enough carried after count framed⟩

/-- When every packet is led by a quiet cycle, every packet is followed by one. -/
theorem Framed.follow {ps : List γ} {s : List α}
    (framed : Framed quiet carries 1 0 (tail + 1) ps s) :
    ∃ q s', s = q :: s' ∧ quiet q ∧ Framed quiet carries 0 1 tail ps s' := by
  -- Induction on the packets, shifting each leading quiet cycle by one packet.
  induction framed with
  | @done qs idle long =>
    cases qs with
    | nil => simp at long
    | cons q qs =>
      refine ⟨q, qs, rfl, idle q (by simp), .done (fun t member => idle t (by simp [member])) ?_⟩
      simpa using long
  | @packet p ps lds ws ts s idle enough carried after count rest ih =>
    -- The quiet cycle that leads the rest is the one that follows this packet.
    obtain ⟨q, s', rfl, calm, framed⟩ := ih
    have none : ts = [] := List.eq_nil_of_length_eq_zero count
    cases lds with
    | nil => simp at enough
    | cons l lds =>
      refine ⟨l, lds ++ ws ++ [q] ++ s', by simp [none], idle l (by simp), ?_⟩
      exact .packet (fun t member => idle t (by simp [member])) (Nat.zero_le _) carried
        (by simpa using calm) rfl framed

/-- Framing is read off an image of the stream. -/
theorem Framed.of_map {f : β → α} {ps : List γ} {s : List α}
    (framed : Framed quiet carries lead gap tail ps s) :
    ∀ {xs : List β}, s = xs.map f →
      Framed (fun x => quiet (f x)) (fun p ws => carries p (ws.map f)) lead gap tail ps xs := by
  -- Induction on the packets, cutting the preimage where the stream is cut.
  induction framed with
  | @done qs idle long =>
    rintro xs rfl
    exact .done (fun x member => idle (f x) (List.mem_map_of_mem member)) (by simpa using long)
  | @packet p ps lds ws ts s idle enough carried after count rest ih =>
    intro xs image
    -- The image of a concatenation is cut where its parts are.
    obtain ⟨xs₁₂₃, xs₄, rfl, image₁₂₃, same⟩ := List.map_eq_append_iff.mp image.symm
    obtain ⟨xs₁₂, xs₃, rfl, image₁₂, rfl⟩ := List.map_eq_append_iff.mp image₁₂₃
    obtain ⟨xs₁, xs₂, rfl, rfl, rfl⟩ := List.map_eq_append_iff.mp image₁₂
    refine .packet ?_ (by simpa using enough) carried ?_ (by simpa using count) (ih same.symm)
    · exact fun x member => idle (f x) (List.mem_map_of_mem member)
    · exact fun x member => after (f x) (List.mem_map_of_mem member)

/-- A framed stream stays framed when each of its cycles becomes some others. -/
theorem Framed.flatMap {quiet' : β → Prop} {carries' : γ → List β → Prop} {g : α → List β}
    (still : ∀ q, quiet q → g q ≠ [] ∧ ∀ b ∈ g q, quiet' b)
    (words : ∀ p ws, carries p ws → carries' p (ws.flatMap g)) {ps : List γ} {s : List α}
    (framed : Framed quiet carries 0 0 tail ps s) :
    Framed quiet' carries' 0 0 tail ps (s.flatMap g) := by
  -- Induction on the packets; quiet cycles stay quiet, and no fewer come of them.
  have calm : ∀ qs : List α, (∀ q ∈ qs, quiet q) →
      qs.length ≤ (qs.flatMap g).length ∧ ∀ b ∈ qs.flatMap g, quiet' b := by
    intro qs idle
    induction qs with
    | nil => exact ⟨Nat.le_refl 0, fun b member => absurd member List.not_mem_nil⟩
    | cons q qs ih =>
      obtain ⟨here, later⟩ := List.forall_mem_cons.mp idle
      obtain ⟨some, first⟩ := still q here
      obtain ⟨long, rest⟩ := ih later
      have positive := List.length_pos_iff.mpr some
      rw [List.flatMap_cons]
      refine ⟨?_, List.forall_mem_append.mpr ⟨first, rest⟩⟩
      rw [List.length_cons, List.length_append]
      omega
  induction framed with
  | @done qs idle long =>
    obtain ⟨more, silent⟩ := calm qs idle
    exact .done silent (Nat.le_trans long more)
  | @packet p ps lds ws ts s idle enough carried after count rest ih =>
    have none : ts = [] := List.eq_nil_of_length_eq_zero count
    subst none
    have parts : (lds ++ ws ++ [] ++ s).flatMap g =
        lds.flatMap g ++ ws.flatMap g ++ [] ++ s.flatMap g := by
      simp only [List.append_nil, List.flatMap_append]
    rw [parts]
    exact .packet (calm lds idle).2 (Nat.zero_le _) (words p ws carried)
      (fun t member => absurd member List.not_mem_nil) rfl ih

/-- Keeping what is not quiet keeps exactly the packets. -/
theorem Framed.filter {loud : α → Bool} {ps : List γ} {s : List α}
    (framed : Framed quiet carries lead gap tail ps s)
    (mute : ∀ q, quiet q → loud q = false)
    (heard : ∀ p ws, carries p ws → ∀ w ∈ ws, loud w = true) :
    ∃ packets, List.Forall₂ carries ps packets ∧ s.filter loud = packets.flatten := by
  -- Induction on the packets; quiet cycles drop out and packets stay whole.
  have silent : ∀ qs : List α, (∀ q ∈ qs, quiet q) → qs.filter loud = [] := by
    intro qs idle
    rw [List.filter_eq_nil_iff]
    intro q member
    simp [mute q (idle q member)]
  induction framed with
  | @done qs idle long => exact ⟨[], .nil, by simp [silent qs idle]⟩
  | @packet p ps lds ws ts s idle enough carried after count rest ih =>
    obtain ⟨packets, matched, kept⟩ := ih
    have all : ws.filter loud = ws := List.filter_eq_self.mpr (heard p ws carried)
    refine ⟨ws :: packets, .cons carried matched, ?_⟩
    simp [List.filter_append, silent lds idle, silent ts after, all, kept]

end Framing

/-- What a stage must do with quiet cycles and with one packet, starting between packets. -/
structure Stage.Passes (m : Stage σ ι ω ν) (Idle : σ → Prop) (quiet : ι → Prop)
    (carries : γ → List ι → Prop) (gap : Nat) (quiet' : ν → Prop)
    (carries' : γ → List ν → Prop) (lead' gap' : Nat) : Prop where
  /-- A quiet cycle adds a quiet observation. -/
  idle : ∀ s q, Idle s → quiet q → ∃ s' e, m.Emits s [q] s' [e] ∧ Idle s' ∧ quiet' e
  /-- A packet and the quiet cycles that belong to it add the packet in quiet surroundings. -/
  packet : ∀ s p ws ts, Idle s → carries p ws → (∀ t ∈ ts, quiet t) → ts.length = gap →
    ∃ s' qs ws' ts', m.Emits s (ws ++ ts) s' (qs ++ ws' ++ ts') ∧ Idle s' ∧
      (∀ q ∈ qs, quiet' q) ∧ lead' ≤ qs.length ∧ carries' p ws' ∧ (∀ t ∈ ts', quiet' t) ∧
      gap' ≤ ts'.length

section Passing

variable {m : Stage σ ι ω ν} {Idle : σ → Prop} {quiet : ι → Prop} {carries : γ → List ι → Prop}
  {gap : Nat} {quiet' : ν → Prop} {carries' : γ → List ν → Prop} {lead' gap' : Nat}

/-- Quiet cycles add as many quiet observations. -/
theorem Stage.Passes.idles (passes : m.Passes Idle quiet carries gap quiet' carries' lead' gap') :
    ∀ (qs : List ι) (s : σ), Idle s → (∀ q ∈ qs, quiet q) →
      ∃ s' es, m.Emits s qs s' es ∧ Idle s' ∧ (∀ e ∈ es, quiet' e) ∧ es.length = qs.length := by
  -- Induction on the quiet cycles, each of which leaves the stage between packets.
  intro qs
  induction qs with
  | nil =>
    intro s between _
    exact ⟨s, [], .nil m s, between, by simp, rfl⟩
  | cons q qs ih =>
    intro s between calm
    obtain ⟨s₁, e, first, between₁, silent⟩ := passes.idle s q between (calm q (by simp))
    obtain ⟨s₂, es, rest, between₂, silents, long⟩ :=
      ih s₁ between₁ fun t member => calm t (by simp [member])
    refine ⟨s₂, e :: es, first.cons rest, between₂, ?_, by simp [long]⟩
    intro t member
    rcases List.mem_cons.mp member with rfl | later
    · exact silent
    · exact silents t later

/-- A stage that handles one packet handles a framed stream. -/
theorem Stage.Passes.framed (passes : m.Passes Idle quiet carries gap quiet' carries' lead' gap')
    {lead tail : Nat} {ps : List γ} {is : List ι}
    (framed : Framed quiet carries lead gap tail ps is) :
    ∀ s, Idle s → ∃ s' es, m.Emits s is s' es ∧ Idle s' ∧
      Framed quiet' carries' lead' gap' tail ps es := by
  -- Induction on the packets: idle cycles, the packet and its gap, then the rest.
  induction framed with
  | @done qs calm long =>
    intro s between
    obtain ⟨s', es, emits, between', silent, same⟩ := passes.idles qs s between calm
    exact ⟨s', es, emits, between', .done silent (by omega)⟩
  | @packet p ps qs ws ts rest calm enough carried after count framed ih =>
    intro s between
    obtain ⟨s₁, es₁, emits₁, between₁, silent₁, _⟩ := passes.idles qs s between calm
    obtain ⟨s₂, qs', ws', ts', emits₂, between₂, silent₂, lead₂, carried', silent₃, gap₃⟩ :=
      passes.packet s₁ p ws ts between₁ carried after count
    obtain ⟨s₃, es₃, emits₃, between₃, framed'⟩ := ih s₂ between₂
    -- Quiet cycles beyond the gap are left to the rest of the stream.
    have left : Framed quiet' carries' lead' gap' _ ps (ts'.drop gap' ++ es₃) :=
      framed'.prepend fun t member => silent₃ t (List.mem_of_mem_drop member)
    have leading : ∀ q ∈ es₁ ++ qs', quiet' q := by
      intro q member
      rcases List.mem_append.mp member with here | there
      · exact silent₁ q here
      · exact silent₂ q there
    have whole : Framed quiet' carries' lead' gap' tail (p :: ps)
        (es₁ ++ qs' ++ ws' ++ ts'.take gap' ++ (ts'.drop gap' ++ es₃)) :=
      .packet leading (by rw [List.length_append]; omega) carried'
        (fun t member => silent₃ t (List.mem_of_mem_take member))
        (by rw [List.length_take]; omega) left
    refine ⟨s₃, _, ?_, between₃, whole⟩
    have joined := emits₁.append (emits₂.append emits₃)
    have shape : es₁ ++ (qs' ++ ws' ++ ts' ++ es₃) =
        es₁ ++ qs' ++ ws' ++ ts'.take gap' ++ (ts'.drop gap' ++ es₃) := by
      have split := List.take_append_drop gap' ts'
      simp only [List.append_assoc]
      rw [← List.append_assoc (ts'.take gap'), split]
    rw [shape] at joined
    simpa only [List.append_assoc] using joined

/-- Quiet cycles leave a stage between packets, and what it puts out is quiet. -/
theorem Stage.Passes.rests (passes : m.Passes Idle quiet carries gap quiet' carries' lead' gap')
    {qs : List ι} {s : σ} (between : Idle s) (calm : ∀ e ∈ m.ahead s, quiet' e)
    (still : ∀ q ∈ qs, quiet q) :
    ∃ s' os, runOn m.step s qs = some (s', os) ∧ Idle s' ∧ (∀ e ∈ m.ahead s', quiet' e) ∧
      ∀ o ∈ os, quiet' (m.view o) := by
  -- Every observation was fixed before or comes from a quiet cycle.
  obtain ⟨s', es, ⟨os, runs, shift⟩, between', silent, _⟩ := passes.idles qs s between still
  have all : ∀ e ∈ os.map m.view ++ m.ahead s', quiet' e := by
    rw [shift]
    exact List.forall_mem_append.mpr ⟨calm, silent⟩
  obtain ⟨seen, left⟩ := List.forall_mem_append.mp all
  exact ⟨s', os, runs, between', left, List.forall_mem_map.mp seen⟩

/-- On a framed stream that ends with enough quiet cycles a stage settles between packets again. -/
theorem Stage.Passes.settles (passes : m.Passes Idle quiet carries gap quiet' carries' lead' gap')
    {lead tail latency : Nat} {ps : List γ} {is : List ι} {s : σ}
    (depth : ∀ s, (m.ahead s).length = latency) (between : Idle s)
    (calm : ∀ e ∈ m.ahead s, quiet' e)
    (framed : Framed quiet carries lead gap (tail + latency) ps is) :
    ∃ s' os, runOn m.step s is = some (s', os) ∧
      Framed quiet' carries' lead' gap' tail ps (os.map m.view) ∧ Idle s' ∧
      ∀ e ∈ m.ahead s', quiet' e := by
  -- The observations at the end are still in the registers and are trimmed off.
  obtain ⟨s', es, emits, between', framed'⟩ := passes.framed framed s between
  obtain ⟨early, late, rfl, long, silent, framed''⟩ := framed'.trim latency
  obtain ⟨os, runs, seen, left⟩ := emits.outputs (by rw [depth, long])
  refine ⟨s', os, runs, ?_, between', by rwa [left]⟩
  rw [seen]
  exact framed''.prepend calm

/-- The outputs of a stage on a framed stream that ends with enough quiet cycles. -/
theorem Stage.Passes.outputs (passes : m.Passes Idle quiet carries gap quiet' carries' lead' gap')
    {lead tail latency : Nat} {ps : List γ} {is : List ι} {s : σ}
    (depth : ∀ s, (m.ahead s).length = latency) (between : Idle s)
    (calm : ∀ e ∈ m.ahead s, quiet' e)
    (framed : Framed quiet carries lead gap (tail + latency) ps is) :
    ∃ s' os, runOn m.step s is = some (s', os) ∧
      Framed quiet' carries' lead' gap' tail ps (os.map m.view) := by
  -- Only the outputs are kept.
  obtain ⟨s', os, runs, framed', _⟩ := passes.settles depth between calm framed
  exact ⟨s', os, runs, framed'⟩

end Passing

end MarketData
