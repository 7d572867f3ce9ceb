import MarketData.Aixml.Frames

/-! The case structure: its tunnels carry what the selected frame lists. -/

namespace MarketData.Aixml

open Emit

/-- An entry is in the table for the selector or is the default. -/
def frameFor (frames : List Frame) (type : Nat) : Option Frame :=
  (frames.find? fun fd => fd.sel = type).or (frames.find? Frame.isDefault)

/-- The frame for a type is one of the frames. -/
theorem frameFor_mem {frames : List Frame} {type : Nat} {fd : Frame}
    (chosen : frameFor frames type = some fd) : fd ∈ frames := by
  -- Both searches go through the frames.
  rcases Option.or_eq_some_iff.mp chosen with matched | ⟨-, fallback⟩
  · exact List.mem_of_find?_eq_some matched
  · exact List.mem_of_find?_eq_some fallback

/-- When one element has a property, two that have it are the same. -/
theorem eq_of_countP_one {α : Type} {q : α → Bool} {l : List α} (one : l.countP q = 1) {a b : α}
    (memA : a ∈ l) (memB : b ∈ l) (holdsA : q a = true) (holdsB : q b = true) : a = b := by
  -- What is left of the list is a single element.
  rw [List.countP_eq_length_filter] at one
  obtain ⟨x, single⟩ := List.length_eq_one_iff.mp one
  have left : ∀ y ∈ l, q y = true → y = x := by
    intro y mem holds
    simpa [single] using List.mem_filter.mpr ⟨mem, holds⟩
  rw [left a memA holdsA, left b memB holdsB]

section Lookups

variable {L : List Line}

/-- The wire into a tunnel is found when there is one and no other. -/
theorem tunnelNet_eq {p : Nat} {id : TunnelId} {n : Net} {u : Nat}
    (mem : ⟨.tunnelInputs id n, u, some p⟩ ∈ L)
    (only : ∀ l ∈ L, l.parent = some p → ∀ n', l.op = .tunnelInputs id n' → n' = n) :
    tunnelNet L p id = some n := by
  -- Whatever the search finds is the wire, and it finds something.
  unfold tunnelNet
  cases search : L.findSome? _ with
  | none =>
    have missed := List.findSome?_eq_none_iff.mp search _ mem
    simp at missed
  | some n' =>
    obtain ⟨l, among, hit⟩ := List.exists_of_findSome?_eq_some search
    obtain ⟨op, u', parent⟩ := l
    cases op <;> simp at hit
    obtain ⟨⟨rfl, rfl⟩, rfl⟩ := hit
    rw [only _ among rfl _ rfl]

/-- The frame that is selected, when the frames are known and their selectors differ. -/
theorem selectedFrame_eq {cs type : Nat} {blocks : List Block} {b : Block}
    (heads : ∀ b ∈ blocks, b.head cs ∈ L)
    (only : ∀ l ∈ L, l.parent = some cs → ∀ sel isDefault, l.op = .caseFrame sel isDefault →
      ∃ b ∈ blocks, b.head cs = l)
    (selectors : ((blocks.map Block.frame).map Frame.sel).Nodup)
    (default : ((blocks.map Block.frame).countP Frame.isDefault) = 1) (mem : b ∈ blocks)
    (chosen : frameFor (blocks.map Block.frame) type = some b.frame) :
    selectedFrame L cs type = some b.uid := by
  -- The frames that are found are those of the blocks.
  have same : ∀ b' ∈ blocks, b'.frame.sel = b.frame.sel → b' = b := by
    intro b' mem' equal
    rw [List.map_map] at selectors
    exact List.inj_on_of_nodup_map selectors mem' mem equal
  unfold selectedFrame
  generalize frames : L.filterMap _ = found
  have from_block : ∀ e ∈ found, ∃ b' ∈ blocks,
      e = (b'.frame.sel, b'.frame.isDefault, b'.uid) := by
    intro e among
    rw [← frames, List.mem_filterMap] at among
    obtain ⟨⟨op, u, parent⟩, line, hit⟩ := among
    cases op <;> simp at hit
    obtain ⟨rfl, rfl⟩ := hit
    obtain ⟨b', mem', head⟩ := only _ line rfl _ _ rfl
    simp only [Block.head, Line.mk.injEq, Op.caseFrame.injEq] at head
    obtain ⟨⟨rfl, rfl⟩, rfl, -⟩ := head
    exact ⟨b', mem', rfl⟩
  have of_block : (b.frame.sel, b.frame.isDefault, b.uid) ∈ found := by
    rw [← frames, List.mem_filterMap]
    exact ⟨b.head cs, heads b mem, by simp [Block.head]⟩
  have sole : ∀ q : Nat × Bool × Nat → Bool, q (b.frame.sel, b.frame.isDefault, b.uid) = true →
      (∀ b' ∈ blocks, q (b'.frame.sel, b'.frame.isDefault, b'.uid) = true → b' = b) →
      found.find? q = some (b.frame.sel, b.frame.isDefault, b.uid) := by
    intro q holds unique
    cases search : found.find? q with
    | none => simpa [holds] using List.find?_eq_none.mp search _ of_block
    | some e =>
      obtain ⟨b', mem', rfl⟩ := from_block e (List.mem_of_find?_eq_some search)
      rw [unique b' mem' (List.find?_some search)]
  show ((found.find? fun fr => fr.1 = type).or (found.find? fun fr => fr.2.1)).map (·.2.2) = _
  unfold frameFor at chosen
  cases listed : (blocks.map Block.frame).find? fun fd => fd.sel = type with
  | some fd =>
    -- A selector matches.
    obtain rfl : fd = b.frame := by simpa [listed] using chosen
    have matched : b.frame.sel = type := by simpa using List.find?_some listed
    rw [sole (fun fr => fr.1 = type) (by simpa using matched) fun b' mem' holds =>
      same b' mem' (by simpa [matched] using holds)]
    rfl
  | none =>
    -- No selector matches, so it is the default.
    have none' : found.find? (fun fr => fr.1 = type) = none := by
      refine List.find?_eq_none.mpr fun e among => ?_
      obtain ⟨b', mem', rfl⟩ := from_block e among
      exact List.find?_eq_none.mp listed _ (List.mem_map_of_mem mem')
    rw [listed, Option.none_or] at chosen
    have isDefault : b.frame.isDefault = true := List.find?_some chosen
    rw [none', Option.none_or, sole (fun fr => fr.2.1) isDefault fun b' mem' holds => same b' mem' ?_]
    · rfl
    · rw [eq_of_countP_one default (List.mem_map_of_mem mem') (List.mem_map_of_mem mem) holds
        isDefault]

end Lookups

/-- A case structure as it was emitted: its number, the tunnel into it, its frames and the tunnels
out of it. -/
structure CaseLines where
  cs : Nat
  entry : Nat
  blocks : List Block
  exits : List Line

/-- The line that opens the structure. -/
def CaseLines.head (tb : Net) (c : CaseLines) : Line :=
  ⟨.caseStructure tb, c.cs, none⟩

/-- The line of the tunnel that brings the buffer in. -/
def CaseLines.tunnel (bufnet : Net) (c : CaseLines) : Line :=
  ⟨.tunnelInputs .in1 bufnet, c.entry, some c.cs⟩

/-- All lines of a case structure. -/
def CaseLines.lines (bufnet tb : Net) (c : CaseLines) : List Line :=
  c.head tb :: c.tunnel bufnet :: (c.blocks.flatMap (Block.lines c.cs) ++ c.exits)

/-- A line of a case structure is in one of its parts. -/
theorem CaseLines.mem_lines {bufnet tb : Net} {c : CaseLines} {l : Line} :
    l ∈ c.lines bufnet tb ↔ l = c.head tb ∨ l = c.tunnel bufnet ∨
      (∃ b ∈ c.blocks, l = b.head c.cs ∨ l ∈ b.rest) ∨ l ∈ c.exits := by
  -- The parts follow one another.
  simp [CaseLines.lines, Block.lines]

/-- The lines of a frame are lines of the structure. -/
theorem CaseLines.block_subset {bufnet tb : Net} {c : CaseLines} {b : Block} (mem : b ∈ c.blocks) :
    b.lines c.cs ⊆ c.lines bufnet tb := by
  -- They are the frame itself and its inner lines.
  intro l among
  exact CaseLines.mem_lines.mpr (.inr (.inr (.inl ⟨b, mem, by simpa [Block.lines] using among⟩)))

/-- The line of a frame is a line of the structure. -/
theorem CaseLines.frame_mem {bufnet tb : Net} {c : CaseLines} {b : Block} (mem : b ∈ c.blocks) :
    b.head c.cs ∈ c.lines bufnet tb :=
  CaseLines.block_subset mem (by simp [Block.lines])

section Structure

variable (stub : Stub) (buffer : List Byte) (L : List Line)

/-- The frames are those of the entry, and there are tunnels out of the structure. -/
structure CaseLines.Good (choices : List String) (bufnet : Net) (outs : List (Field × Nat))
    (frames : List Frame) (c : CaseLines) : Prop where
  frames : c.blocks.map Block.frame = frames
  blocks : ∀ b ∈ c.blocks, b.Good stub buffer L choices c.cs bufnet outs
  exits : ∀ l ∈ c.exits, l.parent = some c.cs ∧ ∃ k, l.op = .tunnelOutputs (.out k)

variable {stub buffer L} {choices : List String} {bufnet tb : Net} {outs : List (Field × Nat)}
  {frames : List Frame} {c : CaseLines} (distinct : (L.map Line.uid).Nodup)
  (good : c.Good stub buffer L choices bufnet outs frames)
  (within : c.lines bufnet tb ⊆ L)
  (others : ∀ l ∈ L, l ∈ c.lines bufnet tb ∨ l.parent = none)

include good others in
/-- A line that has a parent is on the border of the structure or inside a frame. -/
theorem inside_cases {l : Line} {p : Nat} (mem : l ∈ L) (parent : l.parent = some p) :
    (p = c.cs ∧ (l = c.tunnel bufnet ∨ (∃ b ∈ c.blocks, b.head c.cs = l) ∨
      ∃ k, l.op = .tunnelOutputs (.out k))) ∨ ∃ b ∈ c.blocks, p = b.uid ∧ l ∈ b.rest := by
  -- Every part of the structure knows its parent.
  rcases others l mem with inside | root
  · rcases CaseLines.mem_lines.mp inside with rfl | rfl | ⟨b, among, rfl | inner⟩ | exit
    · cases parent
    · exact .inl ⟨(Option.some.inj parent).symm, .inl rfl⟩
    · exact .inl ⟨(Option.some.inj parent).symm, .inr (.inl ⟨b, among, rfl⟩)⟩
    · have owner := (good.blocks b among).parents l inner
      exact .inr ⟨b, among, Option.some.inj (parent.symm.trans owner), inner⟩
    · obtain ⟨owner, output⟩ := good.exits l exit
      exact .inl ⟨Option.some.inj (parent.symm.trans owner), .inr (.inr output)⟩
  · rw [parent] at root
    cases root

include distinct within

/-- No frame has the number of the structure. -/
theorem block_ne_structure {b : Block} (mem : b ∈ c.blocks) : b.uid ≠ c.cs := by
  -- The two lines would be the same.
  intro equal
  have frame : b.head c.cs ∈ L := within (CaseLines.frame_mem mem)
  have structured : c.head tb ∈ L := within (CaseLines.mem_lines.mpr (.inl rfl))
  have same := List.inj_on_of_nodup_map distinct frame structured equal
  simp [Block.head, CaseLines.head] at same

/-- Frames with the same number have the same selector. -/
theorem block_sel_eq {b b' : Block} (mem : b ∈ c.blocks) (mem' : b' ∈ c.blocks)
    (equal : b.uid = b'.uid) : b.frame.sel = b'.frame.sel := by
  -- Their lines are the same.
  have same := List.inj_on_of_nodup_map distinct (within (CaseLines.frame_mem mem))
    (within (CaseLines.frame_mem mem')) equal
  simp only [Block.head, Line.mk.injEq, Op.caseFrame.injEq] at same
  exact same.1.1

include good others

/-- The buffer enters the frames through the only tunnel into the structure. -/
theorem entry_found : tunnelNet L c.cs .in1 = some bufnet := by
  -- No other line of the structure brings a wire into it.
  refine tunnelNet_eq (within (CaseLines.mem_lines.mpr (.inr (.inl rfl)))) fun l mem parent n op => ?_
  rcases inside_cases good others mem parent with
    ⟨-, rfl | ⟨b, -, rfl⟩ | ⟨k, output⟩⟩ | ⟨b, among, uid, -⟩
  · simpa [CaseLines.tunnel] using op.symm
  · simp [Block.head] at op
  · simp [output] at op
  · exact absurd uid.symm (block_ne_structure distinct within among)

/-- The wire at a tunnel out of a frame is the frame's wire for the field of that tunnel. -/
theorem exit_found (selectors : (frames.map Frame.sel).Nodup)
    (ordered : ∀ f f' k, (f, k) ∈ outs → (f', k) ∈ outs → f = f') {b : Block}
    (mem : b ∈ c.blocks) {f : Field} {k : Nat} (listed : (f, k) ∈ outs) :
    ∃ n, b.nets.lookup f = some n ∧ tunnelNet L b.uid (.out k) = some n := by
  -- No other frame has this number, and no other tunnel of the frame this one.
  obtain ⟨n, u, net, tunnel⟩ := (good.blocks b mem).each f k listed
  have found : (⟨.tunnelInputs (.out k) n, u, some b.uid⟩ : Line) ∈ L :=
    within (CaseLines.block_subset mem (by simp [Block.lines, tunnel]))
  refine ⟨n, net, tunnelNet_eq found fun l among parent n' op => ?_⟩
  rcases inside_cases good others among parent with
    ⟨uid, -⟩ | ⟨b', among', uid, inner⟩
  · exact absurd uid (block_ne_structure distinct within mem)
  · have sel := block_sel_eq distinct within mem among' uid
    have same : b = b' := by
      rw [← good.frames, List.map_map] at selectors
      exact List.inj_on_of_nodup_map selectors mem among' sel
    subst same
    rcases (good.blocks b mem).kinds l inner with plain | ⟨f', k', n'', listed', net', op'⟩
    · rw [op] at plain
      cases plain
    · obtain ⟨rfl, rfl⟩ : k = k' ∧ n' = n'' := by simpa [op] using op'
      obtain rfl := ordered f f' k listed listed'
      exact Option.some.inj (net'.symm.trans net)

/-- The structure selects the frame that the table has for the type. -/
theorem selected_found (selectors : (frames.map Frame.sel).Nodup)
    (default : frames.countP Frame.isDefault = 1) {type : Nat} {fd : Frame}
    (chosen : frameFor frames type = some fd) :
    ∃ b ∈ c.blocks, b.frame = fd ∧ selectedFrame L c.cs type = some b.uid := by
  -- The frames of the structure are those that were emitted.
  have listed := frameFor_mem chosen
  rw [← good.frames] at listed selectors default chosen
  obtain ⟨b, mem, rfl⟩ := List.mem_map.mp listed
  refine ⟨b, mem, rfl, selectedFrame_eq ?_ ?_ selectors default mem chosen⟩
  · exact fun b mem => within (CaseLines.frame_mem mem)
  · intro l among parent sel isDefault op
    rcases inside_cases good others among parent with
      ⟨-, rfl | head | ⟨k, output⟩⟩ | ⟨b', among', uid, -⟩
    · simp [CaseLines.tunnel] at op
    · exact head
    · simp [output] at op
    · exact absurd uid.symm (block_ne_structure distinct within among')

/-- The lines of the structure are wired, and what leaves it is what the selected frame lists. -/
theorem caseLines_carry (selectors : (frames.map Frame.sel).Nodup)
    (default : frames.countP Frame.isDefault = 1)
    (ordered : ∀ f f' k, (f, k) ∈ outs → (f', k) ∈ outs → f = f')
    (buf : Carries stub buffer L none bufnet (.buffer buffer)) {w : Width} {type : Nat}
    (typed : Carries stub buffer L none tb (.scalar (.uint w type))) {fd : Frame}
    (chosen : frameFor frames type = some fd) :
    (∀ l ∈ c.lines bufnet tb, l.Wired L) ∧
      ∀ f k u, (f, k) ∈ outs → ⟨.tunnelOutputs (.out k), u, some c.cs⟩ ∈ c.exits →
        ∃ t, fd.fields.reverse.lookup f = some t ∧
          Carries stub buffer L none ⟨u, .value⟩ (.scalar (t.value choices buffer)) := by
  -- The structure lies in the root, and so do the wires at its border.
  have structured : c.head tb ∈ L := within (CaseLines.mem_lines.mpr (.inl rfl))
  have opened : lineOf L c.cs = some (c.head tb) := lineOf_mem distinct structured
  have border : ∀ op u, (Line.mk op u (some c.cs)).scope L = none := by
    intro op u
    simp [Line.scope, opened, CaseLines.head]
  have enters := entry_found distinct good within others
  have inner : ∀ b ∈ c.blocks, (∀ l ∈ b.lines c.cs, l.Wired L) ∧
      Listed stub buffer L choices (some b.uid) b.frame.fields b.nets := by
    intro b mem
    exact (good.blocks b mem).wired (fun l among => within (CaseLines.block_subset mem among)) enters
      buf.2
  refine ⟨fun l mem => ?_, fun f k u listed exit => ?_⟩
  · rcases CaseLines.mem_lines.mp mem with rfl | rfl | ⟨b, among, part⟩ | exit
    · intro n reads
      obtain rfl : n = tb := by simpa [CaseLines.head, Op.reads] using reads
      exact typed.1
    · intro n reads
      obtain rfl : n = bufnet := by simpa [CaseLines.tunnel, Op.reads] using reads
      rw [CaseLines.tunnel, border]
      exact buf.1
    · exact (inner b among).1 l (by simpa [Block.lines] using part)
    · obtain ⟨-, k, op⟩ := good.exits l exit
      intro n reads
      simp [op, Op.reads] at reads
  · obtain ⟨b, mem, rfl, selected⟩ := selected_found distinct good within others selectors default
      chosen
    obtain ⟨n, net, found⟩ := exit_found distinct good within others selectors ordered mem listed
    obtain ⟨t, target, carries⟩ := (inner b mem).2 f n net
    have line : (⟨.tunnelOutputs (.out k), u, some c.cs⟩ : Line) ∈ L :=
      within (CaseLines.mem_lines.mpr (.inr (.inr (.inr exit))))
    refine ⟨t, target, ⟨_, line, by simp [Line.outputs, Op.terminals], border _ _⟩,
      evaluates_of_line distinct line ?_⟩
    -- The type selects the frame, and the tunnel leads to the wire in it.
    filter_upwards [typed.2, carries.2] with fuel type field
    simp [result, tunnelSource, opened, CaseLines.head, type, selected, found, field]

end Structure

section Emission

/-- Every field has a place in the cluster. -/
theorem mem_clusterOrder (f : Field) : f ∈ clusterOrder := by
  cases f <;> simp [clusterOrder]

/-- Fields at the same place are the same. -/
@[simp] theorem Field.index_inj {f f' : Field} : f.index = f'.index ↔ f = f' :=
  List.idxOf_inj (mem_clusterOrder f)

/-- The wire of a field, wherever fields of its kind are kept. -/
def Wires.lookup (w : Wires) (f : Field) : Option Net :=
  if f.dotted then w.positional.lookup f.index else w.byname.lookup f

/-- Undotted fields are kept by name, dotted ones by position. -/
structure Wires.Tidy (w : Wires) : Prop where
  byname : ∀ e ∈ w.byname, e.1.dotted = false
  positional : ∀ e ∈ w.positional, ∃ f : Field, f.dotted = true ∧ e.1 = f.index

/-- The latest wire of a field is the one that counts. -/
theorem Wires.lookup_put (w : Wires) (f f' : Field) (n : Net) :
    (w.put f n).lookup f' = if f' = f then some n else w.lookup f' := by
  -- A field that is kept elsewhere is another field.
  by_cases same : f' = f
  · subst same
    cases dotted : f'.dotted <;> simp [Wires.put, Wires.lookup, dotted]
  · have names : (f' == f) = false := beq_eq_false_iff_ne.mpr same
    have places : (f'.index == f.index) = false := by simpa using same
    cases dotted : f.dotted <;> cases dotted' : f'.dotted <;>
      simp [Wires.put, Wires.lookup, dotted, dotted', List.lookup_cons, same, names, places]

/-- Further wires are kept where they belong. -/
theorem Wires.Tidy.put {w : Wires} (tidy : w.Tidy) (f : Field) (n : Net) : (w.put f n).Tidy := by
  -- The new wire is kept by name or by position.
  obtain ⟨byname, positional⟩ := tidy
  unfold Wires.put
  split
  next dotted => exact ⟨byname, List.forall_mem_cons.mpr ⟨⟨f, dotted, rfl⟩, positional⟩⟩
  next undotted =>
    exact ⟨List.forall_mem_cons.mpr ⟨by simpa using undotted, byname⟩, positional⟩

/-- The wires behind a case structure: its tunnels for the fields it has, and the ones before it. -/
structure Rewired (cs : Nat) (outs : List (Field × Nat)) (before after : Wires) (ls : List Line) :
    Prop where
  tidy : before.Tidy → after.Tidy
  border : ∀ l ∈ ls, l.parent = some cs ∧ ∃ k, l.op = .tunnelOutputs (.out k)
  kept : ∀ f, f ∉ outs.map Prod.fst → after.lookup f = before.lookup f
  replaced : ∀ f ∈ outs.map Prod.fst, ∃ k u, (f, k) ∈ outs ∧
    ⟨.tunnelOutputs (.out k), u, some cs⟩ ∈ ls ∧ after.lookup f = some ⟨u, .value⟩

/-- The tunnels out of a structure, one for each field. -/
theorem exits_emits {cs : Nat} (outs : List (Field × Nat)) (wires : Wires) :
    Emits Line.uid (outs.foldlM (fun wires (field, k) => do
        let tu ← line (.tunnelOutputs (.out k)) (some cs)
        return wires.put field ⟨tu, .value⟩) wires)
      fun wires' ls => Rewired cs outs wires wires' ls := by
  -- Each turn adds a tunnel and the wire of its field.
  refine emits_foldlM (fun done wires' ls => Rewired cs done wires wires' ls) outs ?_
    ⟨id, by simp, by simp, by simp⟩
  intro done entry rest whole wires' ls earlier
  obtain ⟨f, k⟩ := entry
  obtain ⟨tidy, border, kept, replaced⟩ := earlier
  refine emits_line fun u => emits_pure ⟨fun before => (tidy before).put f _, fun l mem => ?_, fun f' other => ?_,
    fun f' listed => ?_⟩
  · rcases List.mem_append.mp mem with earlier | new
    · exact border l earlier
    · obtain rfl : l = ⟨.tunnelOutputs (.out k), u, some cs⟩ := by simpa using new
      exact ⟨rfl, k, rfl⟩
  · obtain ⟨earlier, different⟩ : f' ∉ done.map Prod.fst ∧ f' ≠ f := by simpa using other
    rw [Wires.lookup_put, if_neg different, kept f' earlier]
  · by_cases same : f' = f
    · subst same
      exact ⟨k, u, by simp, by simp, by simp [Wires.lookup_put]⟩
    · have earlier : f' ∈ done.map Prod.fst := by simpa [same] using listed
      obtain ⟨k', u', among, mem, found⟩ := replaced f' earlier
      exact ⟨k', u', by simp [among], by simp [mem], by rw [Wires.lookup_put, if_neg same, found]⟩

variable (stub : Stub) (buffer : List Byte) {L : List Line} (distinct : (L.map Line.uid).Nodup)
  (reads : ReadsLittleEndian stub) (full : buffer.length = 72)

include distinct reads full

/-- The frames of a structure are emitted one after the other. -/
theorem frames_emits {choices : List String} {cs : Nat} (bufnet : Net) {outs : List Field}
    {frames : List Frame} (suits : ∀ fd ∈ frames, ∀ e ∈ fd.fields, e.2.Suits choices e.1)
    (lists : ∀ fd ∈ frames, ∀ f ∈ outs, fd.fields.reverse.lookup f ≠ none) :
    Emits Line.uid (frames.foldlM (fun _ fd => caseFrame choices cs outs fd) ()) fun _ ls =>
      ∃ blocks : List Block, blocks.map Block.frame = frames ∧
        ls = blocks.flatMap (Block.lines cs) ∧
        ∀ b ∈ blocks, b.Good stub buffer L choices cs bufnet (outs.zipIdx 1) := by
  -- Each turn adds a block.
  refine emits_foldlM (fun done _ ls => ∃ blocks : List Block,
    blocks.map Block.frame = done ∧ ls = blocks.flatMap (Block.lines cs) ∧
      ∀ b ∈ blocks, b.Good stub buffer L choices cs bufnet (outs.zipIdx 1)) frames ?_
    ⟨[], rfl, rfl, by simp⟩
  intro done fd rest whole _ ls earlier
  obtain ⟨blocks, rfl, rfl, good⟩ := earlier
  have mem : fd ∈ frames := by simp [whole]
  refine (caseFrame_emits stub buffer distinct reads full bufnet (suits fd mem)
    (lists fd mem)).mono ?_
  intro _ _ emitted
  obtain ⟨b, rfl, rfl, fine⟩ := emitted
  refine ⟨blocks ++ [b], by simp, by simp, fun b' among => ?_⟩
  rcases List.mem_append.mp among with earlier | new
  · exact good b' earlier
  · obtain rfl := List.mem_singleton.mp new
    exact fine

/-- The fields of the first frame, numbered from one. -/
def exitsOf (frames : List Frame) : List (Field × Nat) :=
  ((frames.head?.map fun fd => fd.fields.map Prod.fst).getD []).zipIdx 1

/-- A case structure whose frames all list the fields of the first one is emitted well. -/
theorem caseStructure_emits {choices : List String} {bufnet tb : Net} {frames : List Frame}
    {wires : Wires} (suits : ∀ fd ∈ frames, ∀ e ∈ fd.fields, e.2.Suits choices e.1)
    (lists : ∀ fd ∈ frames, ∀ f ∈ (exitsOf frames).map Prod.fst,
      fd.fields.reverse.lookup f ≠ none) :
    Emits Line.uid (caseStructure choices bufnet tb frames wires) fun wires' ls =>
      ∃ c : CaseLines, ls = c.lines bufnet tb ∧
        c.Good stub buffer L choices bufnet (exitsOf frames) frames ∧
        Rewired c.cs (exitsOf frames) wires wires' c.exits := by
  -- The structure, the tunnel into it, the frames, the tunnels out of it.
  refine emits_line fun cs => emits_line fun tin => ?_
  refine Emits.bind (frames_emits stub buffer distinct reads full bufnet suits ?_) ?_
  · intro fd mem f among
    exact lists fd mem f (by simpa [exitsOf, List.zipIdx_map_fst] using among)
  · intro _ _ emitted
    obtain ⟨blocks, listed, rfl, good⟩ := emitted
    refine (exits_emits _ wires).mono fun wires' exits rewired => ?_
    exact ⟨⟨cs, tin, blocks, exits⟩, by simp [CaseLines.lines, CaseLines.head, CaseLines.tunnel],
      ⟨listed, good, rewired.border⟩, rewired⟩

end Emission

end MarketData.Aixml
