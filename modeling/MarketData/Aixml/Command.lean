import MarketData.Aixml.Cluster

/-! The command a table entry stands for, and the wires that all its VIs have in common. -/

namespace MarketData.Aixml

/-- An entry in the format of the generator. -/
structure Spec.WellFormed (sp : Spec) : Prop where
  selectors : (sp.frames.map Frame.sel).Nodup
  default : sp.frames ≠ [] → sp.frames.countP Frame.isDefault = 1
  alike : ∀ fd ∈ sp.frames, ∀ fd' ∈ sp.frames, ∀ f ∈ fd.fields.map Prod.fst,
    f ∈ fd'.fields.map Prod.fst
  allowed : ∀ fd ∈ sp.frames, ∀ e ∈ fd.fields,
    e.1 ∉ [.orderId, .nanoseconds, .add, .edit, .remove] ∧ e.2.Suits sp.choices e.1
  typeValue : ∀ v, sp.typeValue = some v →
    v < sp.choices.length ∧ ∀ fd ∈ sp.frames, Field.type ∉ fd.fields.map Prod.fst
  flags : ∀ e ∈ sp.flags, e.1 ∈ [.add, .edit, .remove]

/-- The value of a field that no frame lists. -/
def Spec.commonField (sp : Spec) (bytes : List Byte) (f : Field) : Scalar :=
  match f with
  | .type => .enum sp.choices (sp.typeValue.getD 0)
  | .orderId => .uint .u64 (uintAt bytes 6 8)
  | .nanoseconds => .uint .u64 (uintAt bytes 2 4)
  | .add | .edit | .remove => .bool ((sp.flags.reverse.lookup f).getD false)
  | f => (f.ty sp.choices).zero

/-- The value of a field: what the frame for the type byte lists, or what all frames share. -/
def Spec.commandField (sp : Spec) (bytes : List Byte) (f : Field) : Scalar :=
  match (frameFor sp.frames (uintAt bytes 1 1)).bind fun fd => fd.fields.reverse.lookup f with
  | some t => t.value sp.choices bytes
  | none => sp.commonField bytes f

/-- The command that an entry stands for. -/
def Spec.command (sp : Spec) (bytes : List Byte) : List Scalar :=
  clusterOrder.map (sp.commandField bytes)

/-- A field is found in a list of fields exactly when it is listed. -/
theorem lookup_reverse_eq_none {α : Type} {fields : List (Field × α)} {f : Field} :
    fields.reverse.lookup f = none ↔ f ∉ fields.map Prod.fst := by
  -- Both say that no entry has this field.
  rw [List.lookup_eq_none_iff]
  constructor
  · intro absent listed
    obtain ⟨e, mem, rfl⟩ := List.mem_map.mp listed
    simpa using absent e (List.mem_reverse.mpr mem)
  · intro unlisted e mem
    exact bne_iff_ne.mpr fun same => unlisted (same ▸ List.mem_map_of_mem (List.mem_reverse.mp mem))

/-- What is found is listed. -/
theorem mem_of_lookup_reverse {α : Type} {fields : List (Field × α)} {f : Field} {a : α}
    (found : fields.reverse.lookup f = some a) : (f, a) ∈ fields := by
  -- It stands somewhere in the list.
  obtain ⟨front, rest, whole, -⟩ := List.lookup_eq_some_iff.mp found
  have mem : (f, a) ∈ fields.reverse := by simp [whole]
  exact List.mem_reverse.mp mem

/-- Where there is a default, there is a frame for every type. -/
theorem frameFor_isSome {frames : List Frame} (default : frames.countP Frame.isDefault = 1)
    (type : Nat) : ∃ fd, frameFor frames type = some fd := by
  -- When no selector matches, the default is found.
  obtain ⟨fd, mem, isDefault⟩ := List.countP_pos_iff.mp (default ▸ Nat.one_pos)
  refine Option.isSome_iff_exists.mp ?_
  rw [frameFor, Option.isSome_or, Bool.or_eq_true]
  exact .inr (List.find?_isSome.mpr ⟨fd, mem, isDefault⟩)

/-- Every field of the command has its type. -/
theorem Spec.WellFormed.typed {sp : Spec} (wf : sp.WellFormed) (bytes : List Byte) (f : Field) :
    (sp.commandField bytes f).ty = f.ty sp.choices := by
  -- Targets suit their fields, and the other values have the type by definition.
  unfold Spec.commandField
  cases listed : (frameFor sp.frames (uintAt bytes 1 1)).bind
      fun fd => fd.fields.reverse.lookup f with
  | some t =>
    obtain ⟨fd, chosen, found⟩ := Option.bind_eq_some_iff.mp listed
    exact Target.value_ty (wf.allowed fd (frameFor_mem chosen) (f, t)
      (mem_of_lookup_reverse found)).2 bytes
  | none => cases f <;> simp [Spec.commonField, Field.ty, Scalar.ty, Ty.zero]

/-- The common values are zero but for the type, the flags, the time stamp and the order id. -/
theorem Spec.WellFormed.commonField_eq {sp : Spec} (wf : sp.WellFormed) (bytes : List Byte) :
    sp.commonField bytes = Function.update (Function.update (fun f =>
        ((sp.flags.reverse.lookup f).map .bool).getD (Function.update
          (fun f => (f.ty sp.choices).zero) .type (.enum sp.choices (sp.typeValue.getD 0)) f))
      .nanoseconds (.uint .u64 (uintAt bytes 2 4))) .orderId (.uint .u64 (uintAt bytes 6 8)) := by
  -- Only the three flags are looked up among the flags.
  funext f
  have other : f ∉ [.add, .edit, .remove] → sp.flags.reverse.lookup f = none := by
    intro other
    refine lookup_reverse_eq_none.mpr fun listed => ?_
    obtain ⟨e, mem, rfl⟩ := List.mem_map.mp listed
    exact other (wf.flags e mem)
  cases f
  case add | edit | remove =>
    rw [Function.update_of_ne (by decide), Function.update_of_ne (by decide),
      Function.update_of_ne (by decide), Spec.commonField]
    cases sp.flags.reverse.lookup _ <;> rfl
  all_goals simp [Spec.commonField, Function.update_apply, other (by decide)]

section Wires

variable (stub : Stub) (buffer : List Byte) {L : List Line} (distinct : (L.map Line.uid).Nodup)
  (reads : ReadsLittleEndian stub) (full : buffer.length = 72)

/-- A further wire brings the value of its field. -/
theorem Wires.Agree.put {choices : List String} {g : Field → Scalar} {w : Wires}
    (agree : w.Agree stub buffer L choices g) {f : Field} {n : Net} {s : Scalar}
    (carries : Carries stub buffer L none n (.scalar s)) :
    (w.put f n).Agree stub buffer L choices (Function.update g f s) := by
  -- The other fields are as before.
  refine ⟨agree.tidy.put f n, fun f' n' found => ?_, fun f' absent => ?_⟩
  · rw [Wires.lookup_put] at found
    by_cases same : f' = f
    · subst same
      obtain rfl : n = n' := by simpa using found
      simpa using carries
    · rw [if_neg same] at found
      simpa [same] using agree.carried f' n' found
  · rw [Wires.lookup_put] at absent
    by_cases same : f' = f
    · simp [same] at absent
    · rw [if_neg same] at absent
      simpa [same] using agree.missing f' absent

include distinct reads full

/-- A read of the buffer with a conversion to a type that is wide enough. -/
theorem read_builds {bufnet : Net} (start : Nat) (length kind : Width)
    (inside : start + length.bytes ≤ 72) (wide : length.bytes ≤ kind.bytes) {β : Type}
    {f : Net → Emit Line β} {pre : Prop} {post : β → Prop}
    (known : pre → Carries stub buffer L none bufnet (.buffer buffer))
    (rest : ∀ n, Builds L none (pre ∧ Carries stub buffer L none n
      (.scalar (.uint kind (uintAt buffer start length.bytes)))) (f n) post) :
    Builds L none pre (do
      let raw ← call bufnet start length.bytes none
      let net ← conv raw kind none
      f net) post := by
  -- What is read fits the type.
  have raw := reads buffer start length full inside
  have low : uintAt buffer start length.bytes < kind.range :=
    (uintAt_lt _ _ _).trans_le (Nat.pow_le_pow_right (by omega) wide)
  have short : length.bytes < 256 := by cases length <;> decide
  refine (call_builds stub buffer distinct (by omega) short).bind
    (fun given => ⟨isScope_root L, known given⟩) fun raws => ?_
  refine (conv_builds stub buffer distinct kind (raw ▸ low)).bind
    (fun given => ⟨isScope_root L, given.2⟩) fun net => ?_
  rw [raw]
  exact (rest net).mono (fun given => ⟨given.1.1, given.2⟩) fun _ _ => id

omit reads full in
/-- The enumeration value that the entry fixes. -/
theorem typeWire_builds {sp : Spec} (wf : sp.WellFormed) :
    Builds L none True (typeWire sp) fun byname =>
      (⟨byname, []⟩ : Wires).Agree stub buffer L sp.choices (Function.update
        (fun f => (f.ty sp.choices).zero) .type (.enum sp.choices (sp.typeValue.getD 0))) := by
  -- Without any wire all fields keep their zero.
  have start : (⟨[], []⟩ : Wires).Agree stub buffer L sp.choices
      fun f => (f.ty sp.choices).zero := ⟨⟨by simp, by simp⟩, by simp [Wires.lookup], fun _ _ => rfl⟩
  unfold typeWire
  cases type : sp.typeValue with
  | none =>
    have zero : Function.update (fun f => (f.ty sp.choices).zero) Field.type
        (.enum sp.choices ((none : Option Nat).getD 0)) = fun f => (f.ty sp.choices).zero := by
      rw [Function.update_eq_self_iff]
      rfl
    rw [zero]
    exact builds_pure fun _ => start
  | some v =>
    have fits : (Scalar.enum sp.choices v).Fits := (wf.typeValue v type).1
    exact (const_builds stub buffer distinct _ fits).bind (fun _ => isScope_root L)
      fun net => builds_pure fun given => start.put stub buffer (f := .type) given.2

omit reads full in
/-- The flags of the entry. -/
theorem flagWires_builds {sp : Spec} (wf : sp.WellFormed) {g : Field → Scalar}
    {byname : Nets Field} :
    Builds L none ((⟨byname, []⟩ : Wires).Agree stub buffer L sp.choices g) (flagWires sp byname)
      fun byname => (⟨byname, []⟩ : Wires).Agree stub buffer L sp.choices fun f =>
        ((sp.flags.reverse.lookup f).map .bool).getD (g f) := by
  -- Each turn replaces one value.
  refine (builds_foldlM (fun done byname => (⟨byname, []⟩ : Wires).Agree stub buffer L
    sp.choices fun f => ((done.reverse.lookup f).map .bool).getD (g f)) sp.flags ?_ id)
  intro done entry rest whole byname
  obtain ⟨f, v⟩ := entry
  refine (const_builds stub buffer distinct _ (s := .bool v) trivial).bind
    (fun _ => isScope_root L) fun net => builds_pure fun given => ?_
  have undotted : f.dotted = false := by
    have flag := wf.flags (f, v) (by simp [whole])
    simp only [List.mem_cons, List.not_mem_nil, or_false] at flag
    rcases flag with rfl | rfl | rfl <;> rfl
  have put := given.1.2.put stub buffer (f := f) given.2
  have values : Function.update (fun f' => ((done.reverse.lookup f').map Scalar.bool).getD (g f'))
      f (.bool v) =
      fun f' => (((done ++ [(f, v)]).reverse.lookup f').map Scalar.bool).getD (g f') := by
    funext f'
    rw [List.reverse_concat, List.lookup_cons]
    by_cases same : f' = f
    · simp [same]
    · simp [same, beq_eq_false_iff_ne.mpr same]
  simpa only [values, Wires.put, undotted, Bool.false_eq_true, if_false] using put

/-- The wires that every VI has carry the values that all frames share. -/
theorem commonWires_builds {sp : Spec} (wf : sp.WellFormed) {bufnet : Net} :
    Builds L none (Carries stub buffer L none bufnet (.buffer buffer)) (commonWires sp bufnet)
      fun r => Carries stub buffer L none r.2 (.scalar (.uint .u8 (uintAt buffer 1 1))) ∧
        r.1.Agree stub buffer L sp.choices (sp.commonField buffer) := by
  -- The constants first, then the type byte, the time stamp and the order id.
  refine (typeWire_builds stub buffer distinct wf).bind (fun _ => trivial) fun byname => ?_
  refine (flagWires_builds stub buffer distinct wf).bind And.right fun byname => ?_
  refine read_builds stub buffer distinct reads full 1 .u8 .u8
    (by decide) (by decide) (·.1.1) fun tb => ?_
  refine read_builds stub buffer distinct reads full 2 .u32 .u64
    (by decide) (by decide) (·.1.1.1) fun nanoseconds => ?_
  refine read_builds stub buffer distinct reads full 6 .u64 .u64
    (by decide) (by decide) (·.1.1.1.1) fun orderId => builds_pure fun given => ?_
  obtain ⟨⟨⟨⟨-, flags⟩, type⟩, time⟩, id⟩ := given
  refine ⟨type, ?_⟩
  rw [wf.commonField_eq]
  exact (flags.put stub buffer (f := .nanoseconds) time).put stub buffer (f := .orderId) id

end Wires

end MarketData.Aixml
