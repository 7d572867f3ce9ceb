import MarketData.Netlist.BufferBytes
import MarketData.Netlist.Clearing
import MarketData.Netlist.ParserLaws

/-! The two step functions part only at a length byte of zero. -/

namespace MarketData

/-- The registers that both step functions have. -/
structure Parser.SameRegs (p q : Parser) : Prop where
  buf : p.buf = q.buf
  L : p.L = q.L
  state : p.state = q.state
  total : p.total = q.total
  hdrLen : p.hdrLen = q.hdrLen

/-- `Parser.step` on an element at an offset. -/
def Parser.stepAt (p : Parser) (e : Nat × Elem) : Parser :=
  p.step e.2.frameNo e.1 e.2.data8 e.2.keep e.2.eof

/-- The parser after `Parser.step` on a sequence of elements. -/
def Parser.stepFeed (p : Parser) (es : List (Nat × Elem)) : Parser :=
  es.foldl Parser.stepAt p

/-- A length byte of zero, if the element finds one, makes no difference.

The bytes that taking out none would clear are zero already, and the frame is not complete by its
byte count, or ends with the element anyway. -/
def Parser.ZeroHarmless (p : Parser) (e : Elem) : Prop :=
  p.state = .msg → 0 < (receive p.buf p.L e).2 → byteAt (receive p.buf p.L e).1 0 = 0#8 →
    ZeroFrom (receive p.buf p.L e).1 (keptByZero (receive p.buf p.L e).2) ∧
      (p.total < p.hdrLen ∨ e.eof = true)

instance (p : Parser) (e : Elem) : Decidable (p.ZeroHarmless e) :=
  inferInstanceAs (Decidable (_ → _ → _ → _))

/-- A valid element is appended in the same way by both step functions. -/
theorem receive_valid (buf : Buf) (L : Nat) {e : Elem} (valid : e.valid = true) :
    receive buf L e = addDataToBuffer buf L e.data8 e.keep := by
  simp [receive, valid]

/-- The length after an append is a U8. -/
theorem receive_small (buf : Buf) {L : Nat} (small : L < 256) (e : Elem) :
    (receive buf L e).2 < 256 := by
  -- An append counts modulo 256, and an element that is not valid counts nothing.
  unfold receive
  split
  · rw [addDataToBuffer_length buf small]
    exact Nat.mod_lt _ (by decide)
  · exact small

/-- The length stays a U8 along a run. -/
theorem Parser.feed_small {p : Parser} (small : p.L < 256) (es : List Elem) :
    (p.feed es).L < 256 := by
  -- Induction on the elements, each of which appends and may take out.
  induction es generalizing p with
  | nil => exact small
  | cons e es ih =>
    refine ih ?_
    have length := congrArg Prod.snd (p.stepElem_consumption e)
    simp only at length
    rw [length]
    cases p.consumption e with
    | none => exact receive_small p.buf small e
    | some c => exact compressBuffer_length_lt _ _ _

/-- One element keeps the registers the same exactly when a zero length byte is harmless. -/
theorem Parser.SameRegs.step_iff {p q : Parser} (same : p.SameRegs q) (small : p.L < 256)
    (e : Nat × Elem) (valid : e.2.valid = true) :
    (p.stepElem e.2).1.SameRegs (q.stepAt e) ↔ p.ZeroHarmless e.2 := by
  -- Both functions see the same buffer, and differ where the length byte is zero.
  obtain ⟨off, e⟩ := e
  have byte := receive_small p.buf small e
  obtain ⟨pBuf, pL, pState, pTotal, pHdrLen, pOut, pTrace⟩ := p
  obtain ⟨qBuf, qL, qState, qTotal, qHdrLen, qOut, qTrace⟩ := q
  obtain ⟨rfl, rfl, rfl, rfl, rfl⟩ := same
  simp only at valid
  simp only at byte
  simp only [Parser.stepElem, Parser.stepAt, Parser.step, Parser.ZeroHarmless]
  rw [← receive_valid pBuf pL valid]
  generalize receive pBuf pL e = b at byte ⊢
  obtain ⟨b, m⟩ := b
  cases pState with
  | hdr =>
    simp only
    split <;> exact ⟨fun _ state => absurd state (by simp), fun _ => ⟨rfl, rfl, rfl, rfl, rfl⟩⟩
  | msg =>
    simp only
    by_cases empty : m = 0
    · simp only [empty, if_true]
      exact ⟨fun _ _ some => absurd some (Nat.lt_irrefl 0), fun _ => ⟨rfl, rfl, rfl, rfl, rfl⟩⟩
    · rw [if_neg empty, if_neg empty]
      by_cases zero : byteAt b 0 = 0#8
      · -- The one function takes out no bytes, the other one waits.
        have none : (byteAt b 0).toNat = 0 := by rw [zero]; rfl
        rw [← compressBuffer_zero_iff b byte]
        simp only [none, Nat.zero_le, if_true, Nat.lt_irrefl, and_false, if_false, Nat.add_zero]
        constructor
        · intro after _ _ _
          refine ⟨Prod.ext after.buf after.L, ?_⟩
          have state := after.state
          simp only at state
          cases eof : e.eof with
          | true => exact Or.inr rfl
          | false =>
            refine Or.inl (Nat.lt_of_not_le fun complete => ?_)
            simp [eof, complete] at state
        · intro harmless
          obtain ⟨kept, incomplete⟩ := harmless trivial (by omega) zero
          refine ⟨congrArg Prod.fst kept, congrArg Prod.snd kept, ?_, rfl, rfl⟩
          rcases incomplete with open_ | eof
          · simp [Nat.not_le.mpr open_]
          · simp [eof]
      · -- Any other length byte passes the guard of both.
        have positive : 0 < (byteAt b 0).toNat := by
          refine Nat.pos_of_ne_zero fun none => zero ?_
          exact BitVec.eq_of_toNat_eq none
        simp only [positive, and_true]
        refine ⟨fun _ _ _ found => absurd found zero, fun _ => ?_⟩
        split <;> exact ⟨rfl, rfl, rfl, rfl, rfl⟩

/-- The registers after a last element. -/
theorem Parser.feed_concat (p : Parser) (es : List Elem) (e : Elem) :
    p.feed (es ++ [e]) = ((p.feed es).stepElem e).1 := by
  simp [Parser.feed]

/-- The two step functions agree along a run exactly when every zero length byte is harmless. -/
theorem step_agrees_iff (es : List (Nat × Elem)) (valid : ∀ e ∈ es, e.2.valid = true) :
    (∀ k, k ≤ es.length → (Parser.fresh.feed ((es.take k).map Prod.snd)).SameRegs
        (Parser.fresh.stepFeed (es.take k))) ↔
      ∀ k (within : k < es.length),
        (Parser.fresh.feed ((es.take k).map Prod.snd)).ZeroHarmless es[k].2 := by
  -- One element after the other, from the same registers.
  have next : ∀ k (within : k < es.length),
      (Parser.fresh.feed ((es.take k).map Prod.snd)).SameRegs
        (Parser.fresh.stepFeed (es.take k)) →
      ((Parser.fresh.feed ((es.take (k + 1)).map Prod.snd)).SameRegs
          (Parser.fresh.stepFeed (es.take (k + 1))) ↔
        (Parser.fresh.feed ((es.take k).map Prod.snd)).ZeroHarmless es[k].2) := by
    intro k within same
    have step := same.step_iff (Parser.feed_small (by decide) _) es[k]
      (valid _ (List.getElem_mem within))
    rw [List.take_succ_eq_append_getElem within, List.map_append, List.map_singleton,
      Parser.feed_concat, Parser.stepFeed, List.foldl_append]
    exact step
  constructor
  · intro agree k within
    exact (next k within (agree k (Nat.le_of_lt within))).mp (agree (k + 1) within)
  · intro harmless k
    induction k with
    | zero => exact fun _ => ⟨rfl, rfl, rfl, rfl, rfl⟩
    | succ k ih =>
      intro within
      exact (next k within (ih (Nat.le_of_lt within))).mpr (harmless k within)

/-- A header of a frame that ends with it, then a word of zeros. -/
def zeroElems : List (Nat × Elem) :=
  [(0, ⟨0, #v[8, 0, 0, 1, 7, 0, 0, 0], 0xFF, true, false⟩),
    (8, ⟨0, Vector.replicate 8 0, 0xFF, true, false⟩)]

/-- On a length byte of zero the one parser returns to the header state, the other one does not. -/
theorem zero_length_parts :
    ¬ ∀ es : List (Nat × Elem), (∀ e ∈ es, e.2.valid = true ∧ e.2.Contiguous) → ∀ k,
      k ≤ es.length → (Parser.fresh.feed ((es.take k).map Prod.snd)).SameRegs
        (Parser.fresh.stepFeed (es.take k)) := by
  -- The states differ behind the second element.
  intro always
  have proper : ∀ e ∈ zeroElems, e.2.valid = true ∧ e.2.Contiguous := by
    intro e member
    simp only [zeroElems, List.mem_cons, List.not_mem_nil, or_false] at member
    rcases member with rfl | rfl
    all_goals exact ⟨rfl, 8, by decide⟩
  have state := (always zeroElems proper 2 (by decide)).state
  exact absurd state (by decide +kernel)

/-- A header, a message of eight bytes, and a zero byte that ends the frame. -/
def plainElems : List (Nat × Elem) :=
  [(0, ⟨0, #v[24, 0, 2, 1, 7, 0, 0, 0], 0xFF, true, false⟩),
    (8, ⟨0, #v[8, 0x20, 0, 0, 0, 0, 0, 0], 0xFF, true, false⟩),
    (16, ⟨0, Vector.replicate 8 0, 0x01, true, true⟩)]

/-- On a zero length byte that is harmless the two parsers agree. -/
theorem step_agrees_plain :
    (Parser.fresh.feed (plainElems.map Prod.snd)).SameRegs (Parser.fresh.stepFeed plainElems) :=
  (step_agrees_iff plainElems (by simp [plainElems])).mpr (by decide +kernel) 3 (Nat.le_refl 3)

end MarketData
