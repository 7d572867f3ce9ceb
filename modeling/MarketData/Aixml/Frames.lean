import MarketData.Aixml.Extraction

/-! The frames of a case structure: what each one emits, and what its tunnels carry. -/

namespace MarketData.Aixml

open Emit

/-- A frame as it was emitted: its number, its table entry, its inner lines and its wires. -/
structure Block where
  uid : Nat
  frame : Frame
  rest : List Line
  nets : Nets Field

/-- The line that opens a frame. -/
def Block.head (cs : Nat) (b : Block) : Line :=
  ⟨.caseFrame b.frame.sel b.frame.isDefault, b.uid, some cs⟩

/-- All lines of a frame. -/
def Block.lines (cs : Nat) (b : Block) : List Line :=
  b.head cs :: b.rest

/-- The tunnels that bring the listed wires out of a frame. -/
structure TunnelsOut (fr : Nat) (nets : Nets Field) (outs : List (Field × Nat)) (ls : List Line) :
    Prop where
  only : ∀ l ∈ ls, ∃ f k n, (f, k) ∈ outs ∧ nets.lookup f = some n ∧
    l.op = .tunnelInputs (.out k) n ∧ l.parent = some fr
  each : ∀ f k, (f, k) ∈ outs → ∃ n u, nets.lookup f = some n ∧
    ⟨.tunnelInputs (.out k) n, u, some fr⟩ ∈ ls

/-- A tunnel for each field of the first frame, when the frame has a wire for each. -/
theorem tunnelsOut_emits {fr : Nat} {nets : Nets Field} (outs : List (Field × Nat))
    (listed : ∀ f k, (f, k) ∈ outs → nets.lookup f ≠ none) :
    Emits Line.uid (outs.foldlM (fun _ (field, k) => do
        let net ← Emit.found (nets.lookup field)
        let _ ← line (.tunnelInputs (.out k) net) (some fr)) ())
      fun _ ls => TunnelsOut fr nets outs ls := by
  -- Each turn finds its wire and adds one tunnel.
  refine emits_foldlM (fun done _ ls => TunnelsOut fr nets done ls) outs ?_
    ⟨by simp, by simp⟩
  intro done entry rest whole _ ls earlier
  obtain ⟨f, k⟩ := entry
  obtain ⟨only, each⟩ := earlier
  obtain ⟨n, net⟩ := Option.ne_none_iff_exists'.mp (listed f k (by simp [whole]))
  refine Emits.bind (P := fun a ls' => n = a ∧ ls' = []) (emits_found net ⟨rfl, rfl⟩) ?_
  intro a ls' same
  obtain ⟨rfl, rfl⟩ := same
  refine emits_line fun u => emits_pure ⟨fun l mem => ?_, fun f' k' mem => ?_⟩
  · rcases List.mem_append.mp mem with earlier | new
    · obtain ⟨f', k', n', among, rest⟩ := only l earlier
      exact ⟨f', k', n', by simp [among], rest⟩
    · obtain rfl : l = ⟨.tunnelInputs (.out k) n, u, some fr⟩ := by simpa using new
      exact ⟨f, k, n, by simp, net, rfl, rfl⟩
  · rcases List.mem_append.mp mem with earlier | new
    · obtain ⟨n', u', found, among⟩ := each f' k' earlier
      exact ⟨n', u', found, by simp [among]⟩
    · obtain ⟨rfl, rfl⟩ : f' = f ∧ k' = k := by simpa using new
      exact ⟨n, u, net, by simp⟩

section Content

variable (stub : Stub) (buffer : List Byte) {L : List Line} (distinct : (L.map Line.uid).Nodup)
  (reads : ReadsLittleEndian stub) (full : buffer.length = 72)

/-- Every wire that is listed carries the value of the last target for its field. -/
def Listed (L : List Line) (choices : List String) (p : Option Nat)
    (fields : List (Field × Target)) (nets : Nets Field) : Prop :=
  ∀ f n, nets.lookup f = some n → ∃ t, fields.reverse.lookup f = some t ∧
    Carries stub buffer L p n (.scalar (t.value choices buffer))

include distinct reads full

/-- The wires of the fields a frame lists. -/
theorem fieldNets_emits {choices : List String} {p : Option Nat} {fb : Net}
    {fields : List (Field × Target)} (suits : ∀ e ∈ fields, e.2.Suits choices e.1) :
    Emits Line.uid (fieldNets choices fb p fields) fun nets ls =>
      (∀ f, nets.lookup f = none ↔ fields.reverse.lookup f = none) ∧
        Fragment L p (IsScope L p ∧ Carries stub buffer L p fb (.buffer buffer))
          (Listed stub buffer L choices p fields nets) ls := by
  -- Each turn adds the wire of one field.
  refine emits_foldlM (fun done nets ls =>
    (∀ f, nets.lookup f = none ↔ done.reverse.lookup f = none) ∧
      Fragment L p (IsScope L p ∧ Carries stub buffer L p fb (.buffer buffer))
        (Listed stub buffer L choices p done nets) ls) (b := []) fields ?_
    ⟨by simp, by simp, fun _ _ => ⟨by simp, fun f n none => by cases none⟩⟩
  intro done entry rest whole nets ls earlier
  obtain ⟨f, t⟩ := entry
  obtain ⟨domain, listed⟩ := earlier
  have fits : t.Suits choices f := suits (f, t) (by simp [whole])
  refine Emits.bind (fieldNet_builds stub buffer distinct reads full fits) ?_
  refine fun net ls' field => emits_pure ⟨fun f' => ?_, ?_⟩
  · rw [List.reverse_concat, List.lookup_cons, List.lookup_cons]
    cases f' == f with
    | true => simp
    | false => exact domain f'
  · rw [List.append_nil]
    refine listed.append (field.mono And.left ?_)
    intro given carries f' n
    rw [List.reverse_concat, List.lookup_cons, List.lookup_cons]
    cases f' == f with
    | true =>
      intro same
      cases same
      exact ⟨t, rfl, carries⟩
    | false => exact given.2 f' n

omit reads full in
/-- A frame is a scope of its own. -/
theorem isScope_frame {fr : Nat} {sel : Nat} {isDefault : Bool} {cs : Option Nat}
    (mem : ⟨.caseFrame sel isDefault, fr, cs⟩ ∈ L) : IsScope L (some fr) := by
  -- The element with that number is the frame.
  intro l among named n structured
  obtain rfl : l = ⟨.caseFrame sel isDefault, fr, cs⟩ :=
    List.inj_on_of_nodup_map distinct among mem (Option.some.inj named)
  cases structured

omit reads full in
/-- The tunnel into a frame carries what enters the structure. -/
theorem tunnelIn_builds (fr cs : Nat) (sel : Nat) (isDefault : Bool) (bufnet : Net) (v : Value) :
    Builds L (some fr) (⟨.caseFrame sel isDefault, fr, some cs⟩ ∈ L ∧
        tunnelNet L cs .in1 = some bufnet ∧ Evaluates stub buffer L bufnet v)
      (line (.tunnelOutputs .in1) (some fr)) fun u => Carries stub buffer L (some fr) ⟨u, .value⟩ v := by
  -- The frame leads to the structure, and the structure to the wire.
  refine element_builds stub buffer distinct _ _ trivial (by simp [Op.terminals])
    fun given => ?_
  obtain ⟨mem, enters, evaluates⟩ := given
  refine ⟨isScope_frame distinct mem, fun n none => (by cases none), fun u => ?_⟩
  filter_upwards [evaluates] with fuel buf
  simp [result, tunnelSource, lineOf_mem distinct mem, enters, buf]

/-- A frame has its own lines, a tunnel for each field, and wires that carry what it lists. -/
structure Block.Good (L : List Line) (choices : List String) (cs : Nat) (bufnet : Net)
    (outs : List (Field × Nat)) (b : Block) : Prop where
  parents : ∀ l ∈ b.rest, l.parent = some b.uid
  kinds : ∀ l ∈ b.rest, l.op.Plain ∨ ∃ f k n, (f, k) ∈ outs ∧ b.nets.lookup f = some n ∧
    l.op = .tunnelInputs (.out k) n
  each : ∀ f k, (f, k) ∈ outs → ∃ n u, b.nets.lookup f = some n ∧
    ⟨.tunnelInputs (.out k) n, u, some b.uid⟩ ∈ b.rest
  wired : b.lines cs ⊆ L → tunnelNet L cs .in1 = some bufnet →
    Evaluates stub buffer L bufnet (.buffer buffer) →
      (∀ l ∈ b.lines cs, l.Wired L) ∧
        Listed stub buffer L choices (some b.uid) b.frame.fields b.nets

/-- A frame that lists every field of the first one is emitted well. -/
theorem caseFrame_emits {choices : List String} {cs : Nat} (bufnet : Net) {outs : List Field}
    {fd : Frame} (suits : ∀ e ∈ fd.fields, e.2.Suits choices e.1)
    (lists : ∀ f ∈ outs, fd.fields.reverse.lookup f ≠ none) :
    Emits Line.uid (caseFrame choices cs outs fd) fun _ ls =>
      ∃ b : Block, b.frame = fd ∧ ls = b.lines cs ∧
        b.Good stub buffer L choices cs bufnet (outs.zipIdx 1) := by
  -- The frame, its label, the tunnel into it, the wires, the tunnels out of it.
  refine emits_line fun fr => ?_
  refine Emits.bind (builds_line (L := L) (p := some fr) (.freeLabel fd.label) (fun _ => True) trivial
    fun u mem (_ : True) => ⟨fun n none => (by cases none), trivial⟩) fun _ label labelled => ?_
  refine Emits.bind (tunnelIn_builds stub buffer distinct fr cs fd.sel fd.isDefault bufnet
    (.buffer buffer)) fun tf tunnel tunnelled => ?_
  refine Emits.bind (fieldNets_emits stub buffer distinct reads full suits)
    fun nets fields ⟨domain, listed⟩ => ?_
  have found : ∀ f k, (f, k) ∈ outs.zipIdx 1 → nets.lookup f ≠ none := by
    intro f k mem
    have among : f ∈ outs := List.fst_mem_of_mem_zipIdx mem
    rw [ne_eq, domain]
    exact lists f among
  refine (tunnelsOut_emits (outs.zipIdx 1) found).mono fun _ exits ⟨only, each⟩ => ?_
  have members : ∀ {l}, l ∈ label ++ (tunnel ++ (fields ++ exits)) →
      (l.parent = some fr ∧ l.op.Plain) ∨ l ∈ exits := by
    intro l mem
    simp only [List.mem_append] at mem
    rcases mem with first | second | third | last
    exacts [.inl (labelled.1 l first), .inl (tunnelled.1 l second), .inl (listed.1 l third), .inr last]
  refine ⟨⟨fr, fd, label ++ (tunnel ++ (fields ++ exits)), nets⟩, rfl, rfl, ?_, ?_, ?_, ?_⟩
  · -- Every inner line has the frame as its parent.
    intro l mem
    rcases members mem with plain | exit
    · exact plain.1
    · obtain ⟨_, _, _, _, _, _, parent⟩ := only l exit
      exact parent
  · -- Only the tunnels out of the frame are not plain.
    intro l mem
    rcases members mem with plain | exit
    · exact .inl plain.2
    · obtain ⟨f, k, n, among, net, op, _⟩ := only l exit
      exact .inr ⟨f, k, n, among, net, op⟩
  · -- Each field has its tunnel.
    intro f k mem
    obtain ⟨n, u, net, among⟩ := each f k mem
    exact ⟨n, u, net, by simp [among]⟩
  · -- The parts are wired one after the other.
    intro within enters evaluates
    obtain ⟨mem, inner⟩ := List.cons_subset.mp within
    obtain ⟨labelIn, inner⟩ := List.append_subset.mp inner
    obtain ⟨tunnelIn, inner⟩ := List.append_subset.mp inner
    obtain ⟨fieldsIn, exitsIn⟩ := List.append_subset.mp inner
    obtain ⟨tunnelWired, buf⟩ := tunnelled.2 tunnelIn ⟨mem, enters, evaluates⟩
    have proper : IsScope L (some fr) := isScope_frame distinct mem
    obtain ⟨fieldsWired, carried⟩ := listed.2 fieldsIn ⟨proper, buf⟩
    refine ⟨?_, carried⟩
    intro l among
    simp only [Block.lines, List.mem_cons, List.mem_append] at among
    rcases among with rfl | first | second | third | last
    · intro n none
      cases none
    · exact (labelled.2 labelIn trivial).1 l first
    · exact tunnelWired l second
    · exact fieldsWired l third
    · obtain ⟨f, k, n, _, net, op, parent⟩ := only l last
      obtain ⟨t, _, carries⟩ := carried f n net
      obtain ⟨op', u, parent'⟩ := l
      subst op parent
      intro n' reads
      obtain rfl : n' = n := by simpa [Op.reads] using reads
      rw [scope_eq proper]
      exact carries.1

end Content

end MarketData.Aixml
