import MarketData.Aixml.Wiring

/-! The elements that read a field from the buffer, and the value they give. -/

namespace MarketData.Aixml

/-- The little-endian value of some bytes of a buffer. -/
def uintAt (bytes : List Byte) (start length : Nat) : Nat :=
  Bats.leValue ((bytes.drop start).take length)

/-- The reader gives the little-endian value of the bytes it is asked for. -/
def ReadsLittleEndian (stub : Stub) : Prop :=
  ∀ bytes start (length : Width), bytes.length = 72 → start + length.bytes ≤ 72 →
    stub bytes start length.bytes = uintAt bytes start length.bytes

/-- The scalar a listed field has: six symbol bytes are padded with two spaces. -/
def Target.value (choices : List String) (bytes : List Byte) : Target → Scalar
  | .extract (.sym6 start) => .uint .u64 (Bats.leValue ((bytes.drop start).take 6 ++ [0x20, 0x20]))
  | .extract (.read start length want) => .uint want (uintAt bytes start length.bytes)
  | .enum v => .enum choices v
  | .const s => s

/-- A target that suits a field: types agree, and all that is read lies inside the buffer. -/
def Target.Suits (choices : List String) (f : Field) : Target → Prop
  | .extract (.sym6 start) => f = .symbol ∧ start + 8 ≤ 72
  | .extract (.read start length want) =>
    f.ty choices = .uint want ∧ length.bytes ≤ want.bytes ∧ start + length.bytes ≤ 72
  | .enum v => f = .type ∧ v < choices.length
  | .const s => s.ty = f.ty choices ∧ s.Fits

/-- Whether a target suits a field can be computed. -/
instance (choices : List String) (f : Field) (t : Target) : Decidable (t.Suits choices f) :=
  match t with
  | .extract (.sym6 start) => inferInstanceAs (Decidable (f = .symbol ∧ start + 8 ≤ 72))
  | .extract (.read start length want) => inferInstanceAs (Decidable
      (f.ty choices = .uint want ∧ length.bytes ≤ want.bytes ∧ start + length.bytes ≤ 72))
  | .enum v => inferInstanceAs (Decidable (f = .type ∧ v < choices.length))
  | .const s => inferInstanceAs (Decidable (s.ty = f.ty choices ∧ s.Fits))

/-- A target that suits a field has the type of the field. -/
theorem Target.value_ty {choices : List String} {f : Field} {t : Target} (suits : t.Suits choices f)
    (bytes : List Byte) : (t.value choices bytes).ty = f.ty choices := by
  -- One case for each kind of target.
  match t, suits with
  | .extract (.sym6 _), ⟨symbol, _⟩ => rw [symbol]; rfl
  | .extract (.read _ _ _), ⟨same, _, _⟩ => exact same.symm
  | .enum _, ⟨type, _⟩ => rw [type]; rfl
  | .const _, ⟨same, _⟩ => exact same

/-- Bytes behind others count from the next place on. -/
theorem leValue_append (front rest : List Byte) :
    Bats.leValue (front ++ rest) = Bats.leValue front + 256 ^ front.length * Bats.leValue rest := by
  -- Induction on the bytes in front.
  induction front with
  | nil => simp [Bats.leValue]
  | cons b front ih =>
    rw [List.cons_append, Bats.leValue, ih, Bats.leValue, List.length_cons, Nat.pow_succ,
      Nat.mul_comm (256 ^ front.length) 256, Nat.mul_assoc]
    omega

/-- A value that is read stays below the range of its length. -/
theorem uintAt_lt (bytes : List Byte) (start length : Nat) :
    uintAt bytes start length < 256 ^ length := by
  -- At most so many bytes are taken.
  have taken : ((bytes.drop start).take length).length ≤ length := by simp
  exact (Bats.leValue_lt _).trans_le (Nat.pow_le_pow_right (by omega) taken)

/-- Keeping the low six of eight bytes and filling the others with spaces pads a symbol. -/
theorem symbol_padded {bytes : List Byte} {start : Nat} (inside : start + 8 ≤ bytes.length) :
    uintAt bytes start 8 &&& 281474976710655 ||| 2314850208468434944 =
      Bats.leValue ((bytes.drop start).take 6 ++ [0x20, 0x20]) := by
  -- The eight bytes are six and two more.
  have six : ((bytes.drop start).take 6).length = 6 := by simp; omega
  have split : uintAt bytes start 8 =
      uintAt bytes start 6 + 2 ^ 48 * Bats.leValue (((bytes.drop start).drop 6).take 2) := by
    unfold uintAt
    rw [show 8 = 6 + 2 from rfl, List.take_add, leValue_append, six,
      show (256 : Nat) ^ 6 = 2 ^ 48 from rfl]
  have low := uintAt_lt bytes start 6
  -- The mask cuts the two away, and there the spaces are put.
  rw [show 281474976710655 = 2 ^ 48 - 1 from rfl, Nat.and_two_pow_sub_one_eq_mod, split,
    Nat.add_mul_mod_self_left, Nat.mod_eq_of_lt (by simpa using low), leValue_append, six,
    Nat.or_comm, show 2314850208468434944 = 2 ^ 48 * 8224 from rfl,
    ← Nat.two_pow_add_eq_or_of_lt (by simpa using low)]
  exact Nat.add_comm _ _

section Elements

variable (stub : Stub) (buffer : List Byte) {L : List Line} {p : Option Nat}
  (distinct : (L.map Line.uid).Nodup)

include distinct

/-- A constant carries its value; a scalar has to be in the range of its type. -/
theorem constant_builds (name : String) {v : Value} (fits : ∀ s, v = .scalar s → s.Fits) :
    Builds L p (IsScope L p) (const name v p) fun n => Carries stub buffer L p n v := by
  -- The constant reads nothing.
  refine (element_builds stub buffer distinct (.constant name v) .value trivial
    (by simp [Op.terminals]) fun proper => ⟨proper, ?_, fun _ => ?_⟩).bind id
    fun u => builds_pure And.right
  · intro n none
    cases none
  · cases v with
    | scalar s => simp [result, fits s rfl]
    | cluster components => simp [result]
    | buffer bytes => simp [result]

/-- A scalar constant in the range of its type. -/
theorem const_builds (name : String) {s : Scalar} (fits : s.Fits) :
    Builds L p (IsScope L p) (const name (.scalar s) p)
      fun n => Carries stub buffer L p n (.scalar s) :=
  constant_builds stub buffer distinct name fun s' same => by
    cases same
    exact fits

/-- A call reads the buffer where the two constants say. -/
theorem call_builds {bufnet : Net} {start length : Nat} (small : start < 256)
    (short : length < 256) :
    Builds L p (IsScope L p ∧ Carries stub buffer L p bufnet (.buffer buffer))
      (call bufnet start length p)
      fun n => Carries stub buffer L p n (.scalar (.uint .u64 (stub buffer start length))) := by
  -- The two constants first, then the call that is wired to them.
  refine (const_builds stub buffer distinct "Start.Idx" (s := .uint .u8 start) small).bind
    And.left fun s => ?_
  refine (const_builds stub buffer distinct "Length" (s := .uint .u8 length) short).bind
    (·.1.1) fun l => ?_
  refine (element_builds stub buffer distinct (.call bufnet s l) .outValueU64 trivial
    (by simp [Op.terminals]) fun given => ?_).bind id fun u => builds_pure And.right
  obtain ⟨⟨⟨proper, buf⟩, starts⟩, lengths⟩ := given
  refine ⟨proper, by simpa [Op.reads] using ⟨buf.1, starts.1, lengths.1⟩, fun _ => ?_⟩
  filter_upwards [buf.2, starts.2, lengths.2] with fuel bytes start length
  simp [result, bytes, start, length]

/-- A conversion keeps what fits. -/
theorem conv_builds {net : Net} (kind : Width) {w : Width} {x : Nat} (fits : x < kind.range) :
    Builds L p (IsScope L p ∧ Carries stub buffer L p net (.scalar (.uint w x)))
      (conv net kind p) fun n => Carries stub buffer L p n (.scalar (.uint kind x)) := by
  -- The remainder is the number itself.
  refine (element_builds stub buffer distinct (.convert kind net) (.number kind) trivial
    (by simp [Op.terminals]) fun given => ?_).bind id fun u => builds_pure And.right
  obtain ⟨proper, number⟩ := given
  refine ⟨proper, by simpa [Op.reads] using number.1, fun _ => ?_⟩
  filter_upwards [number.2] with fuel number
  simp [result, number, Nat.mod_eq_of_lt fits]

/-- What is extracted is the value of the target. -/
theorem extract_builds (reads : ReadsLittleEndian stub) (full : buffer.length = 72)
    {choices : List String} {f : Field} {bufnet : Net} {x : Extraction}
    (suits : (Target.extract x).Suits choices f) :
    Builds L p (IsScope L p ∧ Carries stub buffer L p bufnet (.buffer buffer))
      (extract bufnet x p)
      fun n => Carries stub buffer L p n (.scalar ((Target.extract x).value choices buffer)) := by
  cases x with
  | sym6 start =>
    -- Read eight bytes, mask, pad.
    obtain ⟨-, inside⟩ := suits
    have raw : stub buffer start 8 = uintAt buffer start 8 := reads buffer start .u64 full inside
    have padded := symbol_padded (by omega : start + 8 ≤ buffer.length)
    refine (call_builds stub buffer distinct (by omega) (by decide)).bind id fun raws => ?_
    refine (const_builds stub buffer distinct "mask6" (s := .uint .u64 281474976710655)
      (by decide)).bind (·.1.1) fun m1 => ?_
    refine (element_builds stub buffer distinct (.and raws m1) .andOut
      (v := .scalar (.uint .u64 (uintAt buffer start 8 &&& 281474976710655))) trivial
      (by simp [Op.terminals]) fun given => ?_).bind id fun u => ?_
    · obtain ⟨⟨given, value⟩, mask⟩ := given
      refine ⟨given.1, by simpa [Op.reads] using ⟨value.1, mask.1⟩, fun _ => ?_⟩
      filter_upwards [value.2, mask.2] with fuel value mask
      simp [result, value, mask, raw]
    · refine (const_builds stub buffer distinct "pad" (s := .uint .u64 2314850208468434944)
        (by decide)).bind (·.1.1.1.1) fun pads => ?_
      refine (element_builds stub buffer distinct (.or ⟨u, .andOut⟩ pads) .orOut trivial
        (by simp [Op.terminals]) fun given => ?_).bind id fun v => builds_pure And.right
      obtain ⟨⟨given, masked⟩, spaces⟩ := given
      refine ⟨given.1.1.1, by simpa [Op.reads] using ⟨masked.1, spaces.1⟩, fun _ => ?_⟩
      filter_upwards [masked.2, spaces.2] with fuel masked spaces
      simp [result, masked, spaces, padded, Target.value]
  | read start length want =>
    -- Read, convert to the length, and then to the type of the field if that is wider.
    obtain ⟨-, wide, inside⟩ := suits
    have raw := reads buffer start length full inside
    have low : uintAt buffer start length.bytes < length.range := uintAt_lt _ _ _
    have range : length.range ≤ want.range := Nat.pow_le_pow_right (by omega) wide
    have short : length.bytes < 256 := by cases length <;> decide
    refine ((call_builds stub buffer distinct (by omega) short).bind id fun raws => ?_)
    refine (conv_builds stub buffer distinct length (raw ▸ low)).bind
      (fun given => ⟨given.1.1, given.2⟩) fun net => ?_
    by_cases same : want = length
    · subst same
      simp only [ne_eq, not_true_eq_false, if_false]
      exact builds_pure fun given => by simpa only [Target.value, raw] using given.2
    · simp only [ne_eq, same, not_false_eq_true, if_true]
      refine (conv_builds stub buffer distinct want (raw ▸ low.trans_le range)).mono
        (fun given => ⟨given.1.1.1, given.2⟩) fun _ n given => ?_
      simpa only [Target.value, raw] using given

/-- The wire of a listed field carries the value of its target. -/
theorem fieldNet_builds (reads : ReadsLittleEndian stub) (full : buffer.length = 72)
    {choices : List String} {f : Field} {fb : Net} {t : Target} (suits : t.Suits choices f) :
    Builds L p (IsScope L p ∧ Carries stub buffer L p fb (.buffer buffer))
      (fieldNet choices fb p f t)
      fun n => Carries stub buffer L p n (.scalar (t.value choices buffer)) := by
  -- One case for each kind of target.
  cases t with
  | enum v =>
    exact (const_builds stub buffer distinct _ (s := .enum choices v) suits.2).mono And.left
      fun _ _ => id
  | const s =>
    exact (const_builds stub buffer distinct _ suits.2).mono And.left fun _ _ => id
  | extract x => exact extract_builds stub buffer distinct reads full suits

end Elements

end MarketData.Aixml
