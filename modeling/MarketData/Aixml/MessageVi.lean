import MarketData.Aixml.Command

/-! The generated VI: its lines are numbered and wired, and it computes the command of the table
entry. -/

namespace MarketData.Aixml

open Emit

/-- Without frames the command has the common values. -/
theorem command_common {sp : Spec} (none : sp.frames = []) (buffer : List Byte) :
    sp.commandField buffer = sp.commonField buffer := by
  -- There is no frame for any type.
  funext f
  simp [Spec.commandField, frameFor, none]

/-- The tunnels out of the structure are those of the fields that every frame lists. -/
theorem Spec.WellFormed.mem_exits {sp : Spec} (wf : sp.WellFormed) {fd : Frame}
    (mem : fd ∈ sp.frames) (f : Field) :
    f ∈ (exitsOf sp.frames).map Prod.fst ↔ f ∈ fd.fields.map Prod.fst := by
  -- They are the fields of the first frame, and all frames list the same ones.
  cases frames : sp.frames with
  | nil => simp [frames] at mem
  | cons first rest =>
    have head : first ∈ sp.frames := by simp [frames]
    rw [exitsOf, List.zipIdx_map_fst]
    exact ⟨wf.alike first head fd mem f, wf.alike fd mem first head f⟩

/-- Each tunnel belongs to one field. -/
theorem exits_ordered (frames : List Frame) :
    ∀ f f' k, (f, k) ∈ exitsOf frames → (f', k) ∈ exitsOf frames → f = f' := by
  -- Both stand at the same place of the list.
  intro f f' k mem mem'
  have place := (List.mk_mem_zipIdx_iff_le_and_getElem?_sub.mp mem).2
  have place' := (List.mk_mem_zipIdx_iff_le_and_getElem?_sub.mp mem').2
  exact Option.some.inj (place.symm.trans place')

/-- Behind the case structure, the wires carry the values of the command. -/
theorem frames_agree {stub : Stub} {buffer : List Byte} {L : List Line}
    (distinct : (L.map Line.uid).Nodup) {sp : Spec} (wf : sp.WellFormed) (framed : sp.frames ≠ []) {bufnet tb : Net}
    {before after : Wires} {c : CaseLines}
    (good : c.Good stub buffer L sp.choices bufnet (exitsOf sp.frames) sp.frames)
    (rewired : Rewired c.cs (exitsOf sp.frames) before after c.exits)
    (within : c.lines bufnet tb ⊆ L) (others : ∀ l ∈ L, l ∈ c.lines bufnet tb ∨ l.parent = none)
    (buf : Carries stub buffer L none bufnet (.buffer buffer))
    (typed : Carries stub buffer L none tb (.scalar (.uint .u8 (uintAt buffer 1 1))))
    (agree : before.Agree stub buffer L sp.choices (sp.commonField buffer)) :
    (∀ l ∈ c.lines bufnet tb, l.Wired L) ∧
      after.Agree stub buffer L sp.choices (sp.commandField buffer) := by
  -- The frame for the type is selected.
  obtain ⟨fd, chosen⟩ := frameFor_isSome (wf.default framed) (uintAt buffer 1 1)
  have mem := frameFor_mem chosen
  obtain ⟨wired, tunnels⟩ := caseLines_carry distinct good within others wf.selectors
    (wf.default framed) (exits_ordered sp.frames) buf typed chosen
  have listed : ∀ f, f ∉ (exitsOf sp.frames).map Prod.fst →
      sp.commandField buffer f = sp.commonField buffer f := by
    intro f unlisted
    have missing := lookup_reverse_eq_none.mpr fun listed => unlisted ((wf.mem_exits mem f).mpr listed)
    simp [Spec.commandField, chosen, missing]
  refine ⟨wired, rewired.tidy agree.tidy, fun f n found => ?_, fun f absent => ?_⟩
  · by_cases exit : f ∈ (exitsOf sp.frames).map Prod.fst
    · -- A listed field comes out of the structure.
      obtain ⟨k, u, among, line, net⟩ := rewired.replaced f exit
      obtain rfl : n = ⟨u, .value⟩ := Option.some.inj (found.symm.trans net)
      obtain ⟨t, target, carries⟩ := tunnels f k u among line
      simpa [Spec.commandField, chosen, target] using carries
    · -- Any other field is as before the structure.
      rw [listed f exit]
      exact agree.carried f n (rewired.kept f exit ▸ found)
  · have exit : f ∉ (exitsOf sp.frames).map Prod.fst := by
      intro exit
      obtain ⟨k, u, -, -, net⟩ := rewired.replaced f exit
      rw [absent] at net
      cases net
    rw [listed f exit]
    exact agree.missing f (rewired.kept f exit ▸ absent)

/-- The only indicator of a diagram shows the result. -/
theorem evaluate_eq {stub : Stub} {buffer : List Byte} {L : List Line} {types : List Ty} {n : Net}
    {u : Nat} {p : Option Nat} (mem : ⟨.indicator types n, u, p⟩ ∈ L)
    (only : ∀ l ∈ L, ∀ types' n', l.op = .indicator types' n' → types' = types ∧ n' = n)
    {components : List Scalar} (typed : components.map Scalar.ty = types)
    (carries : Evaluates stub buffer L n (.cluster components)) :
    ∀ᶠ fuel in Filter.atTop, evaluate stub buffer L fuel = some components := by
  -- The search finds an indicator, and there is no other.
  have found : indicatorOf L = some (types, n) := by
    unfold indicatorOf
    cases search : L.findSome? _ with
    | none =>
      have missed := List.findSome?_eq_none_iff.mp search _ mem
      simp at missed
    | some pair =>
      obtain ⟨⟨op, u', p'⟩, among, hit⟩ := List.exists_of_findSome?_eq_some search
      cases op <;> simp at hit
      subst hit
      obtain ⟨rfl, rfl⟩ := only _ among _ _ rfl
      rfl
  filter_upwards [carries] with fuel cluster
  simp [evaluate, found, cluster, typed]

/-- Besides its indicator a diagram has none. -/
theorem not_indicator {c : CaseLines} {stub : Stub} {buffer : List Byte} {L : List Line}
    {choices : List String} {bufnet tb : Net} {outs : List (Field × Nat)} {frames : List Frame}
    (good : c.Good stub buffer L choices bufnet outs frames) {l : Line}
    (mem : l ∈ c.lines bufnet tb) (types : List Ty) (n : Net) : l.op ≠ .indicator types n := by
  -- No part of a case structure is an indicator.
  rcases CaseLines.mem_lines.mp mem with rfl | rfl | ⟨b, among, rfl | inner⟩ | exit
  · exact fun same => by cases same
  · exact fun same => by cases same
  · exact fun same => by cases same
  · intro same
    rcases (good.blocks b among).kinds l inner with plain | ⟨_, _, _, _, _, op⟩
    · rw [same] at plain
      cases plain
    · rw [same] at op
      cases op
  · obtain ⟨-, k, op⟩ := good.exits l exit
    exact fun same => by rw [same] at op; cases op

section Diagram

variable (stub : Stub) (buffer : List Byte) {L : List Line} (distinct : (L.map Line.uid).Nodup)
  (reads : ReadsLittleEndian stub) (full : buffer.length = 72)

include distinct reads full

/-- What the case structure of an entry adds, if there is one. -/
def Structured (stub : Stub) (buffer : List Byte) (L : List Line) (sp : Spec) (bufnet tb : Net)
    (before after : Wires) (ls : List Line) : Prop :=
  (sp.frames = [] ∧ after = before ∧ ls = []) ∨
    (sp.frames ≠ [] ∧ ∃ c : CaseLines, ls = c.lines bufnet tb ∧
      c.Good stub buffer L sp.choices bufnet (exitsOf sp.frames) sp.frames ∧
      Rewired c.cs (exitsOf sp.frames) before after c.exits)

/-- The case structure of an entry is emitted well. -/
theorem frameWires_emits {sp : Spec} (wf : sp.WellFormed) {bufnet tb : Net} {wires : Wires} :
    Emits Line.uid (frameWires sp bufnet tb wires)
      (Structured stub buffer L sp bufnet tb wires) := by
  unfold frameWires
  split
  next empty => exact emits_pure (.inl ⟨List.isEmpty_iff.mp empty, rfl, rfl⟩)
  next framed =>
    -- Every frame lists the fields of the first one.
    refine (caseStructure_emits stub buffer distinct reads full
      (fun fd mem e among => (wf.allowed fd mem e among).2) ?_).mono
      fun _ _ emitted => .inr ⟨by simpa using framed, emitted⟩
    intro fd mem f exit
    rw [ne_eq, lookup_reverse_eq_none, not_not]
    exact (wf.mem_exits mem f).mp exit

omit reads full in
/-- With or without frames, the wires carry the values of the command. -/
theorem structured_agree {sp : Spec} (wf : sp.WellFormed) {bufnet tb : Net} {before after : Wires}
    {ls : List Line} (structured : Structured stub buffer L sp bufnet tb before after ls)
    (within : ls ⊆ L) (others : ∀ l ∈ L, l ∈ ls ∨ l.parent = none)
    (buf : Carries stub buffer L none bufnet (.buffer buffer))
    (typed : Carries stub buffer L none tb (.scalar (.uint .u8 (uintAt buffer 1 1))))
    (agree : before.Agree stub buffer L sp.choices (sp.commonField buffer)) :
    (∀ l ∈ ls, l.Wired L) ∧ after.Agree stub buffer L sp.choices (sp.commandField buffer) ∧
      ∀ l ∈ ls, ∀ types n, l.op ≠ .indicator types n := by
  rcases structured with ⟨none, rfl, rfl⟩ | ⟨framed, c, rfl, good, rewired⟩
  · -- Without frames nothing is added.
    exact ⟨by simp, by rwa [command_common none buffer], by simp⟩
  · obtain ⟨wired, agrees⟩ := frames_agree distinct wf framed good rewired within others
      buf typed agree
    exact ⟨wired, agrees, fun l mem => not_indicator good mem⟩

/-- As a whole diagram, the lines are wired and compute the command. -/
theorem diagram_emits {sp : Spec} (wf : sp.WellFormed) :
    Emits Line.uid (diagram sp) fun _ ls => L = ls → (∀ l ∈ L, l.Wired L) ∧
      ∀ᶠ fuel in Filter.atTop, evaluate stub buffer L fuel = some (sp.command buffer) := by
  -- The buffer, the base cluster and the common wires.
  refine Emits.bind (element_builds stub buffer distinct (p := none) .control .value
    (v := .buffer buffer) trivial (by simp [Op.terminals]) fun (_ : True) => ⟨isScope_root L,
      fun n none => (by cases none), fun _ => by simp [result]⟩) fun buf control entered => ?_
  refine Emits.bind (constant_builds stub buffer (p := none) distinct _
    (v := defaultCluster sp.choices) fun s same => by cases same) fun base defaults based => ?_
  refine Emits.bind (commonWires_builds stub buffer distinct reads full wf)
    fun wiring common shared => ?_
  obtain ⟨wires, tb⟩ := wiring
  refine Emits.bind (frameWires_emits stub buffer distinct reads full wf)
    fun wires' cases structured => ?_
  refine Emits.bind (bundleDotted_builds stub buffer distinct sp.choices
    (sp.commandField buffer)) fun cluster dotted positioned => ?_
  refine Emits.bind (bundleByName_builds stub buffer distinct (wf.typed buffer))
    fun bb named bundled => ?_
  refine emits_line fun u => emits_pure fun whole => ?_
  -- Every part lies in the diagram, and only the structure has lines outside the root.
  have parts : ∀ l, l ∈ L ↔ l ∈ control ∨ l ∈ defaults ∨ l ∈ common ∨ l ∈ cases ∨ l ∈ dotted ∨
      l ∈ named ∨ l = ⟨.indicator (clusterTypes sp.choices) ⟨bb, .outputCluster⟩, u, none⟩ := by
    intro l
    conv_lhs => rw [whole]
    simp
  have others : ∀ l ∈ L, l ∈ cases ∨ l.parent = none := by
    intro l mem
    rcases (parts l).mp mem with h | h | h | h | h | h | rfl
    exacts [.inr (entered.1 l h).1, .inr (based.1 l h).1, .inr (shared.1 l h).1, .inl h,
      .inr (positioned.1 l h).1, .inr (bundled.1 l h).1, .inr rfl]
  -- What one part gives, the next ones rely on.
  obtain ⟨wired₁, buffered⟩ := entered.2 (fun l h => (parts l).mpr (by simp [h])) trivial
  obtain ⟨wired₂, zeros⟩ := based.2 (fun l h => (parts l).mpr (by simp [h])) (isScope_root L)
  obtain ⟨wired₃, type, agree⟩ := shared.2 (fun l h => (parts l).mpr (by simp [h])) buffered
  obtain ⟨wired₄, complete, silent⟩ := structured_agree stub buffer distinct wf structured
    (fun l h => (parts l).mpr (by simp [h])) others buffered type agree
  obtain ⟨wired₅, placed⟩ := positioned.2 (fun l h => (parts l).mpr (by simp [h]))
    ⟨zeros, complete⟩
  obtain ⟨wired₆, result⟩ := bundled.2 (fun l h => (parts l).mpr (by simp [h])) ⟨complete, placed⟩
  have last : ⟨.indicator (clusterTypes sp.choices) ⟨bb, .outputCluster⟩, u, none⟩ ∈ L :=
    (parts _).mpr (by simp)
  refine ⟨fun l mem => ?_, evaluate_eq last ?_ ?_ result.2⟩
  · rcases (parts l).mp mem with h | h | h | h | h | h | rfl
    · exact wired₁ l h
    · exact wired₂ l h
    · exact wired₃ l h
    · exact wired₄ l h
    · exact wired₅ l h
    · exact wired₆ l h
    · intro n reads
      obtain rfl := List.mem_singleton.mp reads
      exact result.1
  · -- No part but the last line is an indicator.
    intro l mem types n op
    have plain : ¬ l.op.Plain := by
      rw [op]
      exact fun plain => plain
    rcases (parts l).mp mem with h | h | h | h | h | h | rfl
    · exact absurd (entered.1 l h).2 plain
    · exact absurd (based.1 l h).2 plain
    · exact absurd (shared.1 l h).2 plain
    · exact absurd op (silent l h types n)
    · exact absurd (positioned.1 l h).2 plain
    · exact absurd (bundled.1 l h).2 plain
    · simpa [eq_comm] using op
  · -- The components have the types of the indicator.
    rw [Spec.command, List.map_map, clusterTypes]
    exact List.map_congr_left fun f _ => wf.typed buffer f

end Diagram

/-- The terminals of an element differ. -/
theorem Op.terminals_nodup (op : Op) : op.terminals.Nodup := by
  cases op with
  | unbundle n => exact List.nodup_range.map fun i j same => by cases same; rfl
  | _ => simp [Op.terminals]

/-- Lines with different numbers produce different wires. -/
theorem outputs_nodup {L : List Line} (distinct : (L.map Line.uid).Nodup) :
    (L.flatMap Line.outputs).Nodup := by
  -- A wire has the number of its line in its name.
  refine List.nodup_flatMap.mpr ⟨fun l _ => ?_, ?_⟩
  · exact l.op.terminals_nodup.map fun t t' same => by cases same; rfl
  · refine (List.pairwise_map.mp distinct).imp fun {l l'} different => ?_
    refine List.disjoint_left.mpr fun n mem mem' => ?_
    obtain ⟨t, -, rfl⟩ := List.mem_map.mp mem
    obtain ⟨t', -, same⟩ := List.mem_map.mp mem'
    exact different (congrArg Net.uid same.symm)

/-- For every entry in the format, the lines have different numbers, every wire that is read is
produced once and in the scope of its reader, and every buffer is evaluated to the command. -/
theorem genMessageVi_correct (sp : Spec) (wf : sp.WellFormed) :
    ∃ L, genMessageVi sp = some L ∧ (L.map Line.uid).Nodup ∧
      (∀ l ∈ L, ∀ n ∈ l.op.reads,
        (L.flatMap Line.outputs).count n = 1 ∧ Produced L (l.scope L) n) ∧
      ∀ stub, ReadsLittleEndian stub → ∀ buffer : List Byte, buffer.length = 72 →
        ∀ᶠ fuel in Filter.atTop, evaluate stub buffer L fuel = some (sp.command buffer) := by
  -- The lines do not depend on the diagram they are looked at in.
  have ideal : ReadsLittleEndian uintAt := fun _ _ _ _ _ => rfl
  have blank : (List.replicate 72 (0 : Byte)).length = 72 := by simp
  obtain ⟨_, L, run, -, -⟩ :=
    diagram_emits uintAt _ (L := []) List.nodup_nil ideal blank wf 1100
  have distinct : (L.map Line.uid).Nodup :=
    (diagram_emits uintAt _ (L := []) List.nodup_nil ideal blank wf).nodup run
  have whole : ∀ stub buffer, ReadsLittleEndian stub → buffer.length = 72 →
      (∀ l ∈ L, l.Wired L) ∧
        ∀ᶠ fuel in Filter.atTop, evaluate stub buffer L fuel = some (sp.command buffer) := by
    intro stub buffer reads full
    obtain ⟨_, L', run', -, holds⟩ := diagram_emits stub buffer distinct reads full wf 1100
    obtain ⟨-, rfl⟩ : L.length = L'.length ∧ L = L' := by simpa [run] using run'
    exact holds rfl
  refine ⟨L, by simp [genMessageVi, run], distinct, fun l mem n read => ?_,
    fun stub reads buffer full => (whole stub buffer reads full).2⟩
  have produced := (whole uintAt _ ideal blank).1 l mem n read
  obtain ⟨l', mem', output, -⟩ := produced
  exact ⟨List.count_eq_one_of_mem (outputs_nodup distinct) (List.mem_flatMap.mpr ⟨l', mem', output⟩),
    (whole uintAt _ ideal blank).1 l mem n read⟩

/-- Every entry of the table is in the format. -/
theorem specs_wellFormed : ∀ entry ∈ specs, entry.2.WellFormed := by
  -- One entry after the other.
  have modify : modifyOrder.WellFormed :=
    ⟨by decide, fun _ => by decide, by decide, by decide, fun _ fixed => (by cases fixed; decide),
      by decide⟩
  have delete : deleteOrder.WellFormed :=
    ⟨by decide, fun framed => absurd rfl framed, by decide, by decide,
      fun _ fixed => by cases fixed; decide, by decide⟩
  have traded : trade.WellFormed :=
    ⟨by decide, fun _ => by decide, by decide, by decide, fun _ fixed => (by cases fixed; decide),
      by decide⟩
  have executed : orderExecuted.WellFormed :=
    ⟨by decide, fun _ => by decide, by decide, by decide, fun _ fixed => (by cases fixed), by decide⟩
  simpa [specs] using ⟨modify, delete, traded, executed⟩

/-- An execution of 100 at a price of 10000 that leaves 50 of order 7. -/
def executedMessage : List Byte :=
  [38, 36, 1, 0, 0, 0, 7, 0, 0, 0, 0, 0, 0, 0, 100, 0, 0, 0, 50, 0, 0, 0, 9, 0, 0, 0, 0, 0, 0, 0,
    16, 39, 0, 0, 0, 0, 0, 0] ++ List.replicate 34 0

/-- The VI of `OrderExecuted` gives the command of such an execution. -/
theorem orderExecuted_executedMessage :
    ∃ L, genMessageVi orderExecuted = some L ∧
      ∀ᶠ fuel in Filter.atTop, evaluate uintAt executedMessage L fuel = some
        [.enum enumChoices 3, .uint .u8 0, .uint .u64 7, .uint .u32 0, .uint .u64 0,
          .uint .u64 10000, .uint .u32 100, .uint .u32 0, .uint .u32 50, .uint .u64 0,
          .uint .u64 1, .bool false, .bool true, .bool false, .uint .u32 0, .uint .u64 0,
          .uint .u64 0] := by
  -- The second frame is selected, and its fields are read from the message.
  obtain ⟨L, run, -, -, evaluates⟩ := genMessageVi_correct orderExecuted
    (specs_wellFormed ("OrderExecuted", orderExecuted) (by simp [specs]))
  exact ⟨L, run, evaluates uintAt (fun _ _ _ _ _ => rfl) executedMessage rfl⟩

end MarketData.Aixml
