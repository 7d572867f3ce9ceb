import MarketData.Netlist.BufferLaws
import MarketData.Netlist.Variants

/-! A cleared length hides every stale byte, and which eof elements clear it. -/

namespace MarketData

/-- No keep counts more than the eight bytes of a word. -/
theorem numOfTrue_le (keep : BitVec 8) : numOfTrue keep ≤ 8 := by
  -- The count is over eight bits.
  have counted := List.countP_le_length (p := fun i => keep.getLsbD i) (l := List.range 8)
  simpa [numOfTrue] using counted

/-- The converted length is the number of keep bits. -/
theorem zeroOutAndConvert_snd (d : Vector Byte 8) (keep : BitVec 8) :
    (zeroOutAndConvert d keep).2 = numOfTrue keep := by
  -- Both branches return the number of keep bits.
  unfold zeroOutAndConvert
  simp only
  split <;> rfl

/-- The length after an append is the sum of both lengths, as a U8. -/
theorem addDataToBuffer_length (buf : Buf) {L : Nat} (byte : L < 256) (d : Vector Byte 8)
    (keep : BitVec 8) : (addDataToBuffer buf L d keep).2 = (L + numOfTrue keep) % 256 := by
  -- The early return for an empty word agrees with adding zero.
  rw [← zeroOutAndConvert_snd d keep]
  unfold addDataToBuffer
  simp only
  split
  · split
    · rename_i none
      rw [none]; simp [Nat.mod_eq_of_lt byte]
    · rfl
  · rfl

/-- Below one word, an append makes the words it reaches independent of what they held. -/
theorem addDataToBuffer_fresh {a b : Buf} {L : Nat} (short : L < 8)
    (same : 0 < L → a[0] = b[0]) (d : Vector Byte 8) (keep : BitVec 8) :
    (0 < (addDataToBuffer a L d keep).2 →
      (addDataToBuffer a L d keep).1[0] = (addDataToBuffer b L d keep).1[0]) ∧
    (8 < (addDataToBuffer a L d keep).2 →
      (addDataToBuffer a L d keep).1[1] = (addDataToBuffer b L d keep).1[1]) := by
  -- At a word boundary the word is replaced; off it, the word that counts is the same.
  have count := zeroOutAndConvert_snd d keep
  have bound := numOfTrue_le keep
  unfold addDataToBuffer
  generalize zeroOutAndConvert d keep = converted at count ⊢
  obtain ⟨u, n⟩ := converted
  simp only at count ⊢
  have word : L / 8 = 0 := by omega
  rw [word]
  by_cases aligned : L % 8 = 0
  · -- An empty buffer takes the whole word, and one word is all that can be held.
    have none : L = 0 := by omega
    subst none
    by_cases empty : n = 0
    · simp [empty]
    · have small : (0 + n) % 256 ≤ 8 := by omega
      simp [empty]
      omega
  · have first := same (by omega)
    simp [aligned, first]

/-- Taking the header out reads no word past the one its remainder starts in. -/
theorem compressBuffer_eight {a b : Buf} {L : Nat} (enough : 8 ≤ L) (small : L ≤ 16)
    (same : 8 < L → a[1] = b[1]) : compressBuffer a L 8 = compressBuffer b L 8 := by
  -- The header is one word, so the remainder starts in the next one.
  rcases Nat.lt_or_ge 8 L with more | exact_
  · simp [compressBuffer, same more]
  · have all : L = 8 := by omega
    subst all
    simp [compressBuffer]

/-- The length after a compression is a U8. -/
theorem compressBuffer_length_lt (b : Buf) (L start : Nat) : (compressBuffer b L start).2 < 256 := by
  -- Every branch returns the same difference modulo 256.
  unfold compressBuffer
  simp only
  split
  · split <;> simp only <;> omega
  · simp only; omega

/-- The header length is read from word 0 alone. -/
theorem headerLength_congr {a b : Buf} (same : a[0]? = b[0]?) :
    headerLength a = headerLength b := by
  -- Both bytes of the field lie in word 0.
  have first : byteAt a 0 = byteAt b 0 := by rw [byteAt, byteAt, Nat.zero_div, same]
  have second : byteAt a 1 = byteAt b 1 := by
    rw [byteAt, byteAt, Nat.div_eq_of_lt (by decide), same]
  rw [headerLength, headerLength, first, second]

/-- Two variants that no further element can tell apart.

Either their buffers agree, or both wait for a header and agree on the bytes they count. -/
structure P.Alike (p q : P) : Prop where
  hdrClear : p.hdrClear = q.hdrClear
  msgLtClear : p.msgLtClear = q.msgLtClear
  L : p.L = q.L
  small : p.L < 256
  state : p.state = q.state
  counters : p.state = .msg → p.total = q.total ∧ p.hdrLen = q.hdrLen
  buf : p.buf = q.buf ∨ (p.state = .hdr ∧ p.L < 8 ∧ (0 < p.L → p.buf[0] = q.buf[0]))

/-- What an element adds, over alike parsers, to the length and to the words that count. -/
theorem P.Alike.receives {p q : P} (alike : p.Alike q) (e : Elem) :
    (receive p.buf p.L e).2 = (receive q.buf q.L e).2 ∧ (receive p.buf p.L e).2 < 256 ∧
    (receive p.buf p.L e = receive q.buf q.L e ∨
      (p.state = .hdr ∧ (receive p.buf p.L e).2 ≤ 16 ∧
        (0 < (receive p.buf p.L e).2 →
          (receive p.buf p.L e).1[0]? = (receive q.buf q.L e).1[0]?) ∧
        (8 < (receive p.buf p.L e).2 →
          (receive p.buf p.L e).1[1]? = (receive q.buf q.L e).1[1]?))) := by
  -- An invalid element changes nothing; a valid one hides what was stale.
  have length := alike.L
  have small := alike.small
  rw [← length]
  unfold receive
  cases valid : e.valid with
  | false =>
    refine ⟨rfl, small, ?_⟩
    rcases alike.buf with same | ⟨state, short, first⟩
    · left; simp [same]
    · exact Or.inr ⟨state, by simp; omega, fun some => by simpa using first some,
        fun long => by simp at long; omega⟩
  | true =>
    simp only [if_true, addDataToBuffer_length _ small]
    refine ⟨trivial, Nat.mod_lt _ (by decide), ?_⟩
    rcases alike.buf with same | ⟨state, short, first⟩
    · left; rw [same]
    · have counted := numOfTrue_le e.keep
      have fresh := addDataToBuffer_fresh short first e.data8 e.keep
      simp only [addDataToBuffer_length _ small] at fresh
      exact Or.inr ⟨state, by omega, fun some => by simpa using fresh.1 some,
        fun long => by simpa using fresh.2 long⟩

/-- One element keeps alike parsers alike and makes both report the same. -/
theorem P.Alike.step {p q : P} (alike : p.Alike q) (e : Elem) :
    (p.step e).Alike (q.step e) ∧
    ∃ hs ms, (p.step e).hdrs = p.hdrs ++ hs ∧ (q.step e).hdrs = q.hdrs ++ hs ∧
      (p.step e).msgs = p.msgs ++ ms ∧ (q.step e).msgs = q.msgs ++ ms := by
  -- Both states are compared branch by branch on what the element leaves in the buffer.
  obtain ⟨length, small, reads⟩ := alike.receives e
  obtain ⟨hdrClear, msgLtClear, before, _, state, counters, _⟩ := alike
  obtain ⟨pHdrClear, pMsgLtClear, pBuf, pL, pState, pTotal, pHdrLen, pHdrs, pMsgs⟩ := p
  obtain ⟨qHdrClear, qMsgLtClear, qBuf, qL, qState, qTotal, qHdrLen, qHdrs, qMsgs⟩ := q
  simp only at hdrClear msgLtClear before state counters length small reads
  subst hdrClear msgLtClear before state
  simp only [P.step]
  generalize receive pBuf pL e = b at length small reads ⊢
  generalize receive qBuf pL e = c at length reads ⊢
  obtain ⟨b, m⟩ := b
  obtain ⟨c, n⟩ := c
  simp only at length small reads ⊢
  subst length
  cases pState with
  | hdr =>
    simp only
    by_cases enough : 8 ≤ m
    · -- A complete header leaves equal buffers, whatever was stale before.
      have cut : compressBuffer b m 8 = compressBuffer c m 8 ∧ headerLength b = headerLength c := by
        rcases reads with same | ⟨_, short, first, second⟩
        · simp only [Prod.mk.injEq, and_true] at same
          simp [same]
        · exact ⟨compressBuffer_eight enough short fun long => by simpa using second long,
            headerLength_congr (first (by omega))⟩
      rw [if_pos enough, if_pos enough, cut.1, cut.2]
      exact ⟨⟨rfl, rfl, rfl, compressBuffer_length_lt c m 8, rfl, fun _ => ⟨rfl, rfl⟩, Or.inl rfl⟩,
        [_], [], rfl, rfl, by simp, by simp⟩
    · rw [if_neg enough, if_neg enough]
      split
      · exact ⟨⟨rfl, rfl, rfl, Nat.zero_lt_succ 255, rfl, by simp, Or.inr ⟨rfl, by simp, by simp⟩⟩,
          [], [], by simp, by simp, by simp, by simp⟩
      · refine ⟨⟨rfl, rfl, rfl, small, rfl, by simp, ?_⟩, [], [], by simp, by simp, by simp, by simp⟩
        rcases reads with same | ⟨_, _, first, _⟩
        · exact Or.inl (congrArg Prod.fst same)
        · exact Or.inr ⟨rfl, by simp only; omega, fun some => by simpa using first some⟩
  | msg =>
    -- In the message state nothing is stale, so both parsers do the same.
    obtain ⟨rfl, rfl⟩ := counters rfl
    have same : b = c := by
      rcases reads with same | ⟨header, _⟩
      · exact congrArg Prod.fst same
      · cases header
    subst same
    simp only
    split
    · exact ⟨⟨rfl, rfl, rfl, small, rfl, fun _ => ⟨rfl, rfl⟩, Or.inl rfl⟩,
        [], [], by simp, by simp, by simp, by simp⟩
    · split
      · split
        · exact ⟨⟨rfl, rfl, rfl, Nat.zero_lt_succ 255, rfl, by simp, Or.inl rfl⟩,
            [], [_], by simp, by simp, rfl, rfl⟩
        · exact ⟨⟨rfl, rfl, rfl, compressBuffer_length_lt b m _, rfl, fun _ => ⟨rfl, rfl⟩,
            Or.inl rfl⟩, [], [_], by simp, by simp, rfl, rfl⟩
      · split
        · refine ⟨⟨rfl, rfl, rfl, ?_, rfl, by simp, Or.inl rfl⟩,
            [], [], by simp, by simp, by simp, by simp⟩
          simp only
          split <;> omega
        · exact ⟨⟨rfl, rfl, rfl, small, rfl, fun _ => ⟨rfl, rfl⟩, Or.inl rfl⟩,
            [], [], by simp, by simp, by simp, by simp⟩

/-- Alike parsers stay alike along any elements, and append the same entries. -/
theorem P.Alike.feed {p q : P} (alike : p.Alike q) (es : List Elem) :
    (p.feed es).Alike (q.feed es) ∧
    ∃ hs ms, (p.feed es).hdrs = p.hdrs ++ hs ∧ (q.feed es).hdrs = q.hdrs ++ hs ∧
      (p.feed es).msgs = p.msgs ++ ms ∧ (q.feed es).msgs = q.msgs ++ ms := by
  -- Induction on the elements; the entries are appended one after the other.
  induction es generalizing p q with
  | nil => exact ⟨alike, [], [], by simp, by simp, by simp, by simp⟩
  | cons e es ih =>
    obtain ⟨next, hs, ms, ph, qh, pm, qm⟩ := alike.step e
    obtain ⟨final, hs', ms', ph', qh', pm', qm'⟩ := ih next
    refine ⟨final, hs ++ hs', ms ++ ms', ?_, ?_, ?_, ?_⟩
    · rw [P.feed_cons, ph', ph, List.append_assoc]
    · rw [P.feed_cons, qh', qh, List.append_assoc]
    · rw [P.feed_cons, pm', pm, List.append_assoc]
    · rw [P.feed_cons, qm', qm, List.append_assoc]

/-- The header state with a cleared length: what an eof clear leaves. -/
structure P.Cleared (p : P) : Prop where
  state : p.state = .hdr
  L : p.L = 0

/-- Two cleared parsers of one variant are alike, whatever their buffers hold. -/
theorem P.Cleared.alike {p q : P} (left : p.Cleared) (right : q.Cleared)
    (hdrClear : p.hdrClear = q.hdrClear) (msgLtClear : p.msgLtClear = q.msgLtClear) :
    p.Alike q where
  -- Nothing is held and the header is awaited, so the stale buffer and counters do not matter.
  hdrClear := hdrClear
  msgLtClear := msgLtClear
  L := left.L.trans right.L.symm
  small := by rw [left.L]; decide
  state := left.state.trans right.state.symm
  counters mode := by rw [left.state] at mode; cases mode
  buf := Or.inr ⟨left.state, by rw [left.L]; decide, fun more => by rw [left.L] at more; omega⟩

/-- Clearing only the length is a full clear.

Two parsers of one variant in the header state with length zero, whatever their buffers, totals
and header lengths, append the same entries and agree on length and state after every element. -/
theorem clear_length_is_full (p q : P) (hdrClear : p.hdrClear = q.hdrClear)
    (msgLtClear : p.msgLtClear = q.msgLtClear) (left : p.Cleared) (right : q.Cleared)
    (es : List Elem) :
    (∃ hs ms, (p.feed es).hdrs = p.hdrs ++ hs ∧ (q.feed es).hdrs = q.hdrs ++ hs ∧
      (p.feed es).msgs = p.msgs ++ ms ∧ (q.feed es).msgs = q.msgs ++ ms) ∧
    ∀ k, k ≤ es.length → (p.feed (es.take k)).L = (q.feed (es.take k)).L ∧
      (p.feed (es.take k)).state = (q.feed (es.take k)).state := by
  -- Two cleared parsers of one variant are alike.
  have alike := left.alike right hdrClear msgLtClear
  refine ⟨(alike.feed es).2, fun k _ => ?_⟩
  have after := (alike.feed (es.take k)).1
  exact ⟨after.L, after.state⟩

/-- A variant parser left by a clear with stale bytes and counters. -/
def staleP : P :=
  { P.fresh true true with buf := Vector.replicate 9 0xA5A5A5A5A5A5A5A5#64, total := 40, hdrLen := 99 }

/-- A header of a 24-byte payload split over two elements. -/
def staleElems : List Elem :=
  [⟨0, #v[24, 0, 1, 1, 5, 0, 0, 0], 0x0F, true, false⟩,
   ⟨0, #v[5, 0, 0, 0, 16, 0x20, 7, 7], 0xFF, true, false⟩]

/-- The clearing theorem at a fresh parser and one full of stale bytes. -/
theorem clear_length_is_full_stale :
    ((P.fresh true true).feed (staleElems.take 2)).L = (staleP.feed (staleElems.take 2)).L ∧
      ((P.fresh true true).feed (staleElems.take 2)).state =
        (staleP.feed (staleElems.take 2)).state :=
  (clear_length_is_full (P.fresh true true) staleP rfl rfl ⟨rfl, rfl⟩ ⟨rfl, rfl⟩ staleElems).2 2
    (by decide)

end MarketData
