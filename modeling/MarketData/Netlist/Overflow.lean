import MarketData.Netlist.Backlog
import MarketData.Netlist.ParserLaws

/-! When the nine words of the buffer are enough: the length bytes that leave room for a word. -/

namespace MarketData

/-- What the message state finds at the head of its buffer leaves room for another word.

Every length byte from 8 to 65 does. A shorter one does where at most 64 bytes are left behind the
message. -/
def Parser.Contained (p : Parser) (e : Elem) : Prop :=
  p.state = .msg → 0 < (receive p.buf p.L e).2 →
    (byteAt (receive p.buf p.L e).1 0).toNat ≤ 65 ∧
      (8 ≤ (byteAt (receive p.buf p.L e).1 0).toNat ∨
        (receive p.buf p.L e).2 ≤ (byteAt (receive p.buf p.L e).1 0).toNat + 64)

instance (p : Parser) (e : Elem) : Decidable (p.Contained e) :=
  inferInstanceAs (Decidable (_ → _ → _))

/-- An element is appended whole: no index is out of range, and the length does not wrap. -/
structure Parser.AppendsWhole (p : Parser) (e : Elem) : Prop where
  fits : (receive p.buf p.L e).2 ≤ 72
  length : (receive p.buf p.L e).2 = p.L + e.bytes.length
  kept : ∀ i, i < p.L → byteAt (receive p.buf p.L e).1 i = byteAt p.buf i
  added : ∀ i, i < e.bytes.length →
    byteAt (receive p.buf p.L e).1 (p.L + i) = e.bytes.getD i 0#8

/-- The buffer holds some bytes, with room for another word. -/
def Parser.Roomy (p : Parser) : Prop :=
  ∃ bs, p.Holding bs ∧ bs.length ≤ 64

/-- With room for a word the element is appended to what is held. -/
theorem Parser.Roomy.receives {p : Parser} (roomy : p.Roomy) {e : Elem} (keep : e.Contiguous) :
    ∃ bs, p.Holding bs ∧ p.Receives e (bs ++ e.bytes) ∧ (bs ++ e.bytes).length ≤ 72 := by
  -- No element brings more than a word.
  obtain ⟨bs, holding, room⟩ := roomy
  have word := e.bytes_length_le
  have fits : (bs ++ e.bytes).length ≤ 72 := by rw [List.length_append]; omega
  exact ⟨bs, holding, holding.receives keep fits, fits⟩

/-- With room for a word the element is appended whole. -/
theorem Parser.Roomy.appendsWhole {p : Parser} (roomy : p.Roomy) {e : Elem}
    (keep : e.Contiguous) : p.AppendsWhole e := by
  -- The bytes are read off the list that is held afterwards.
  obtain ⟨bs, holding, reads, fits⟩ := roomy.receives keep
  rw [Parser.Receives] at reads
  have size : (bs ++ e.bytes).length = p.L + e.bytes.length := by
    rw [List.length_append, holding.L]
  have length := holding.L
  refine ⟨by rw [reads]; exact fits, by rw [reads]; exact size, fun i within => ?_,
    fun i within => ?_⟩
  · rw [reads, holding.buf, byteAt_pack _ (by omega), byteAt_pack _ (by omega), getD_append,
      if_pos (by omega)]
  · rw [reads, byteAt_pack _ (by omega), getD_append, if_neg (by omega), length,
      Nat.add_sub_cancel_left]

/-- Taking bytes out leaves a remainder, which has room when it is short. -/
theorem Parser.roomy_of_remainder {p : Parser} {bs : List Byte} (start : Nat)
    (buf : p.buf = (compressBuffer (pack bs) bs.length start).1)
    (L : p.L = (compressBuffer (pack bs) bs.length start).2) (fits : bs.length ≤ 72)
    (within : start ≤ bs.length) (room : bs.length ≤ start + 64) : p.Roomy := by
  rw [compressBuffer_remainder bs fits within] at buf L
  refine ⟨remainder bs start, ⟨buf, L⟩, ?_⟩
  rw [remainder_length]
  omega

/-- A contained element leaves room for another word. -/
theorem Parser.Roomy.step {p : Parser} (roomy : p.Roomy) {e : Elem} (keep : e.Contiguous)
    (contained : p.Contained e) : (p.stepElem e).1.Roomy := by
  -- Each branch keeps the bytes, or takes a header or a message out of them.
  obtain ⟨bs, _, reads, fits⟩ := roomy.receives keep
  generalize bs ++ e.bytes = bs at reads fits
  unfold Parser.Contained at contained
  rw [Parser.Receives] at reads
  rw [reads] at contained
  unfold Parser.stepElem
  simp only [reads]
  cases state : p.state with
  | hdr =>
    simp only
    split
    · exact Parser.roomy_of_remainder 8 rfl rfl fits ‹_› (by omega)
    · exact ⟨bs, ⟨rfl, rfl⟩, by omega⟩
  | msg =>
    simp only
    split
    · exact ⟨bs, ⟨rfl, rfl⟩, by omega⟩
    · -- A message is awaited, so its length byte is bounded.
      obtain ⟨high, low⟩ := contained state (by omega)
      simp only at high low
      split
      · -- Of 72 bytes, a message of eight leaves 64 at most.
        have room : bs.length ≤ (byteAt (pack bs) 0).toNat + 64 := by omega
        exact Parser.roomy_of_remainder _ rfl rfl fits ‹_› room
      · exact ⟨bs, ⟨rfl, rfl⟩, by omega⟩

/-- Contained elements never overflow the buffer. -/
theorem Parser.Roomy.feed {es : List Elem} {p : Parser} (roomy : p.Roomy)
    (keeps : ∀ e ∈ es, e.Contiguous)
    (contained : ∀ k (within : k < es.length), (p.feed (es.take k)).Contained es[k]) :
    (p.feed es).Roomy := by
  -- Induction on the elements, each of which leaves room for the next.
  induction es generalizing p with
  | nil => exact roomy
  | cons e es ih =>
    have first := contained 0 (Nat.zero_lt_succ _)
    refine ih (roomy.step (keeps e (by simp)) first) (fun f member => keeps f (by simp [member]))
      fun k within => ?_
    exact contained (k + 1) (Nat.succ_lt_succ within)

/-- Behind elements whose length bytes leave room, an element is appended whole. -/
theorem stepElem_appends_whole (es : List Elem) (keeps : ∀ e ∈ es, e.Contiguous) (k : Nat)
    (within : k < es.length)
    (contained : ∀ j (inside : j < es.length), j < k →
      (Parser.fresh.feed (es.take j)).Contained es[j]) :
    (Parser.fresh.feed (es.take k)).AppendsWhole es[k] := by
  -- In front of the element there is room for a word.
  have start : Parser.fresh.Roomy := ⟨[], Parser.fresh_holding, Nat.zero_le _⟩
  have before : (Parser.fresh.feed (es.take k)).Roomy := by
    refine start.feed (fun e member => keeps e (List.mem_of_mem_take member)) fun j inside => ?_
    have early : j < k := by
      rw [List.length_take] at inside
      omega
    rw [List.take_take, Nat.min_eq_left (Nat.le_of_lt early), List.getElem_take]
    exact contained j (by omega) early
  exact before.appendsWhole (keeps _ (List.getElem_mem within))

/-- A header, then words that start with the length byte 255. -/
def longElems : List Elem :=
  ⟨0, #v[0xFF, 0xFF, 1, 1, 0, 0, 0, 0], 0xFF, true, false⟩ ::
    List.replicate 10 ⟨0, #v[255, 0, 0, 0, 0, 0, 0, 0], 0xFF, true, false⟩

/-- A message that is longer than the buffer fills it over. -/
theorem long_message_overflows :
    ¬ ∀ es : List Elem, (∀ e ∈ es, e.Contiguous) → ∀ k (within : k < es.length),
      (Parser.fresh.feed (es.take k)).AppendsWhole es[k] := by
  -- Behind the header ten words are kept, so that the length is 80.
  intro always
  have keeps : ∀ e ∈ longElems, e.Contiguous := by
    intro e member
    refine ⟨8, Nat.le_refl 8, ?_⟩
    rcases List.mem_cons.mp member with rfl | later
    · rfl
    · rw [List.eq_of_mem_replicate later]
      rfl
  have whole := (always longElems keeps 10 (by decide)).fits
  exact absurd whole (by decide +kernel)

/-- A header, a message of six bytes and one of twelve, in three words. -/
def shortElems : List Elem :=
  [⟨0, #v[26, 0, 2, 1, 0, 0, 0, 0], 0xFF, true, false⟩,
    ⟨0, #v[6, 0x20, 0, 0, 0, 0, 12, 0x22], 0xFF, true, false⟩,
    ⟨0, #v[0, 0, 0, 0, 0, 0, 0, 0], 0xFF, true, false⟩,
    ⟨0, #v[0, 0, 0, 0, 0, 0, 0, 0], 0x03, true, true⟩]

/-- The end of the second message is appended whole behind its start. -/
theorem short_message_appended :
    (Parser.fresh.feed (shortElems.take 3)).AppendsWhole (shortElems[3]) := by
  refine stepElem_appends_whole shortElems ?_ 3 (by decide) (by decide +kernel)
  intro e member
  simp only [shortElems, List.mem_cons, List.not_mem_nil, or_false] at member
  rcases member with rfl | rfl | rfl | rfl
  exacts [⟨8, by decide⟩, ⟨8, by decide⟩, ⟨8, by decide⟩, ⟨2, by decide⟩]

end MarketData
