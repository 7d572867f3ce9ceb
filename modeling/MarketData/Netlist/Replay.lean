import MarketData.Netlist.Clearing
import MarketData.Netlist.ParserLaws

/-! The replay of one payload, word by word: what it reports, conserves and never recovers from. -/

namespace MarketData

/-- An entry as the comparison reads it: frame number, length and type. -/
def OutEntry.report (o : OutEntry) : Nat × Nat × Byte :=
  (o.frameNo, o.len, o.type)

/-- Everything reported so far. -/
def Parser.reports (p : Parser) : List (Nat × Nat × Byte) :=
  p.out.map OutEntry.report

/-- The inner loop of `main` from an offset on, over the bytes still to come. -/
def Parser.replayFrom (p : Parser) (fno off : Nat) (bytes : List Byte) : Parser :=
  if bytes = [] then p
  else
    let chunk := bytes.take 8
    (p.step fno off (ljust8 chunk) (lowKeep chunk.length) (decide (bytes.length ≤ 8))).replayFrom
      fno (off + 8) (bytes.drop 8)
termination_by bytes.length
decreasing_by
  rename_i some
  have := List.length_pos_iff.mpr some
  rw [List.length_drop]
  omega

/-- Without bytes the loop is over. -/
@[simp] theorem Parser.replayFrom_nil (p : Parser) (fno off : Nat) :
    p.replayFrom fno off [] = p := by
  -- The loop ends without bytes.
  rw [Parser.replayFrom, if_pos rfl]

/-- One chunk, then the rest. -/
theorem Parser.replayFrom_step (p : Parser) (fno off : Nat) {bytes : List Byte}
    (some : bytes ≠ []) :
    p.replayFrom fno off bytes =
      (p.step fno off (ljust8 (bytes.take 8)) (lowKeep (bytes.take 8).length)
        (decide (bytes.length ≤ 8))).replayFrom fno (off + 8) (bytes.drop 8) := by
  -- The loop takes the next chunk while bytes are left.
  rw [Parser.replayFrom, if_neg some]

/-- The loop over offsets is the loop over what is left of the payload. -/
theorem Parser.replayFrame_eq (p : Parser) (fno : Nat) (payload : List Byte) :
    p.replayFrame fno payload = p.replayFrom fno 0 payload := by
  -- Induction on the number of chunks from an offset on.
  have loop : ∀ (k off : Nat) (p : Parser), ((payload.drop off).length + 7) / 8 = k →
      ((List.range k).map (off + 8 * ·)).foldl (fun p off =>
        let chunk := (payload.drop off).take 8
        p.step fno off (ljust8 chunk) ((1#8 <<< chunk.length) - 1#8)
          (decide (payload.length ≤ off + 8))) p = p.replayFrom fno off (payload.drop off) := by
    intro k
    induction k with
    | zero =>
      intro off p count
      have none : payload.drop off = [] := by
        rw [← List.length_eq_zero_iff]
        omega
      rw [none, Parser.replayFrom_nil]
      rfl
    | succ k ih =>
      intro off p count
      have some : payload.drop off ≠ [] := by
        rintro none
        rw [none, List.length_nil] at count
        omega
      have rest : ((payload.drop (off + 8)).length + 7) / 8 = k := by
        rw [List.length_drop] at count ⊢
        omega
      have offsets : (fun i => off + 8 * (i + 1)) = (off + 8 + 8 * ·) := by
        funext i
        omega
      have eof : (payload.length ≤ off + 8) = ((payload.drop off).length ≤ 8) := by
        rw [List.length_drop, Nat.sub_le_iff_le_add', Nat.add_comm]
      rw [Parser.replayFrom_step p fno off some, List.drop_drop, ← ih _ _ rest,
        List.range_succ_eq_map, List.map_cons, List.map_map, List.foldl_cons]
      simp only [Nat.mul_zero, Nat.add_zero, Function.comp_def, Nat.succ_eq_add_one, offsets, eof,
        lowKeep]
  have whole := loop _ 0 p rfl
  simpa [Parser.replayFrame] using whole

/-- Lengths and types reported under one frame number. -/
def inFrame (fno : Nat) (es : List (Nat × Byte)) : List (Nat × Nat × Byte) :=
  es.map fun e => (fno, e)

@[simp] theorem inFrame_nil (fno : Nat) : inFrame fno [] = [] := rfl

@[simp] theorem inFrame_cons (fno : Nat) (e : Nat × Byte) (es : List (Nat × Byte)) :
    inFrame fno (e :: es) = (fno, e) :: inFrame fno es := rfl

/-- Reports of one frame are joined. -/
theorem inFrame_append (fno : Nat) (es later : List (Nat × Byte)) :
    inFrame fno (es ++ later) = inFrame fno es ++ inFrame fno later :=
  List.map_append

/-- What a replay adds to the reports, and the bytes it accounts for. -/
structure Parser.Adds (p q : Parser) (fno : Nat) (es : List (Nat × Byte)) (arrived : Nat) :
    Prop where
  reports : q.reports = p.reports ++ inFrame fno es
  conserved : (es.map Prod.fst).sum + q.L ≤ arrived
  small : q.L < 256

/-- Taking out what is there leaves the difference. -/
theorem compressBuffer_length (buf : Buf) {L start : Nat} (within : start ≤ L) (small : L < 256) :
    (compressBuffer buf L start).2 = L - start := by
  -- Every branch returns the same difference.
  have diff : (((L : Int) - start) % 256).toNat = L - start := by omega
  unfold compressBuffer
  simp only [diff]
  split
  · split <;> rfl
  · rfl

/-- One chunk reports no more bytes than are counted with it. -/
theorem Parser.step_adds {p : Parser} (small : p.L < 256) (fno off : Nat) (data8 : Vector Byte 8)
    (keep : BitVec 8) (eof : Bool) :
    ∃ es, p.Adds (p.step fno off data8 keep eof) fno es ((p.L + numOfTrue keep) % 256) := by
  -- Each branch takes out a header, a message or nothing.
  have length := addDataToBuffer_length p.buf small data8 keep
  have byte : (p.L + numOfTrue keep) % 256 < 256 := Nat.mod_lt _ (by decide)
  unfold Parser.step
  rw [← length] at byte ⊢
  generalize addDataToBuffer p.buf p.L data8 keep = b at byte ⊢
  obtain ⟨b, m⟩ := b
  simp only at byte ⊢
  cases p.state with
  | hdr =>
    simp only
    split
    · -- A header is taken out without a report.
      rename_i enough
      have left := compressBuffer_length b enough byte
      exact ⟨[], by simp [Parser.reports], by simp [left], by simp only [left]; omega⟩
    · exact ⟨[], by simp [Parser.reports], by simp, byte⟩
  | msg =>
    simp only
    split
    · exact ⟨[], by simp [Parser.reports], by simp, byte⟩
    · split
      · rename_i taken
        have left := compressBuffer_length b taken.1 byte
        refine ⟨[((byteAt b 0).toNat, byteAt b 1)], ?_, ?_, ?_⟩
        · simp [Parser.reports, OutEntry.report]
        · simp only [List.map_cons, List.map_nil, List.sum_singleton, left]
          omega
        · simp only [left]
          omega
      · exact ⟨[], by simp [Parser.reports], by simp, byte⟩

/-- The chunk of a nonempty rest counts its bytes. -/
theorem numOfTrue_chunk (bytes : List Byte) :
    numOfTrue (lowKeep (bytes.take 8).length) = min 8 bytes.length := by
  -- The keep has one bit for each byte of the chunk.
  rw [numOfTrue_lowKeep (by rw [List.length_take]; omega), List.length_take]

/-- A replay reports no more bytes than were held and arrived. -/
theorem Parser.replayFrom_adds (bytes : List Byte) (fno off : Nat) {p : Parser}
    (small : p.L < 256) :
    ∃ es, p.Adds (p.replayFrom fno off bytes) fno es (p.L + bytes.length) := by
  -- Induction on the bytes left, one chunk at a time.
  by_cases none : bytes = []
  · subst none
    exact ⟨[], by simp, by simp, by simpa using small⟩
  · have some := List.length_pos_iff.mpr none
    obtain ⟨es, first⟩ := Parser.step_adds small fno off (ljust8 (bytes.take 8))
      (lowKeep (bytes.take 8).length) (decide (bytes.length ≤ 8))
    obtain ⟨es', later⟩ := Parser.replayFrom_adds (bytes.drop 8) fno (off + 8) first.small
    rw [← Parser.replayFrom_step p fno off none] at later
    refine ⟨es ++ es', ?_, ?_, later.small⟩
    · rw [later.reports, first.reports, inFrame_append, List.append_assoc]
    · -- The count before the chunk and the chunk itself bound what the first step accounts for.
      have before := first.conserved
      have after := later.conserved
      rw [numOfTrue_chunk] at before
      rw [List.length_drop] at after
      rw [List.map_append, List.sum_append]
      omega
termination_by bytes.length
decreasing_by
  rw [List.length_drop]
  omega

/-- Behind at least one byte, an append leaves byte 0 alone. -/
theorem byteAt_zero_addDataToBuffer (buf : Buf) {L : Nat} (held : 0 < L) (d : Vector Byte 8)
    (keep : BitVec 8) : byteAt (addDataToBuffer buf L d keep).1 0 = byteAt buf 0 := by
  -- Byte 0 lies in word 0, which an append behind it only adds to.
  unfold addDataToBuffer
  generalize zeroOutAndConvert d keep = converted
  obtain ⟨u, n⟩ := converted
  simp only
  split
  · rename_i aligned
    split
    · rfl
    · rw [byteAt_set _ _ _ (by decide), if_neg (by omega)]
  · rename_i turned
    rw [byteAt_set _ _ _ (by decide), if_neg (by omega), byteAt_set _ _ _ (by decide)]
    split
    · -- The new bytes of the word start at the offset, which is not zero.
      rename_i first
      have word : byteAt buf 0 = byteBE (buf[L / 8]?.getD 0#64) 0 := by
        rw [byteAt_eq (by decide), ← first]
        rfl
      rw [byteBE_or, ← word, byteBE_and_lowMask (n := 8) rfl _ _ _ (by omega) (by decide),
        if_neg (by omega), BitVec.or_zero]
    · rfl

/-- The parser stands in front of a message of this length that it does not take out.

The message is not there completely, or its length is zero. -/
structure Parser.WaitsFor (p : Parser) (len : Nat) : Prop where
  state : p.state = .msg
  held : 0 < p.L
  small : p.L < 256
  head : (byteAt p.buf 0).toNat = len
  waits : len = 0 ∨ p.L < len

/-- In the message state a chunk completes the message in front, or it is waited for. -/
theorem Parser.step_front {p : Parser} (state : p.state = .msg) (small : p.L < 256)
    (fno off : Nat) (data8 : Vector Byte 8) (keep : BitVec 8) (eof : Bool) {len : Nat}
    (some : 0 < (p.L + numOfTrue keep) % 256)
    (head : (byteAt (addDataToBuffer p.buf p.L data8 keep).1 0).toNat = len) :
    ((len = 0 ∨ (p.L + numOfTrue keep) % 256 < len) ∧
        (p.step fno off data8 keep eof).reports = p.reports ∧
        (p.step fno off data8 keep eof).L = (p.L + numOfTrue keep) % 256 ∧
        (eof = false → (p.step fno off data8 keep eof).WaitsFor len)) ∨
      (0 < len ∧ (∃ ty, (p.step fno off data8 keep eof).reports = p.reports ++ [(fno, len, ty)]) ∧
        (p.step fno off data8 keep eof).L + len = (p.L + numOfTrue keep) % 256) := by
  -- The guard of the branch is the length byte against what is held.
  have length := addDataToBuffer_length p.buf small data8 keep
  have byte : (p.L + numOfTrue keep) % 256 < 256 := Nat.mod_lt _ (by decide)
  unfold Parser.step
  rw [← length] at byte some ⊢
  generalize addDataToBuffer p.buf p.L data8 keep = b at byte some head ⊢
  obtain ⟨b, m⟩ := b
  simp only at byte some head ⊢
  rw [state]
  simp only [head]
  rw [if_neg (Nat.ne_of_gt some)]
  by_cases taken : len ≤ m ∧ 0 < len
  · rw [if_pos taken]
    have left := compressBuffer_length b taken.1 byte
    refine Or.inr ⟨taken.2, ⟨byteAt b 1, by simp [Parser.reports, OutEntry.report]⟩, ?_⟩
    simp only [left]
    omega
  · rw [if_neg taken]
    have waits : len = 0 ∨ m < len := by omega
    refine Or.inl ⟨waits, rfl, rfl, ?_⟩
    rintro rfl
    exact ⟨rfl, some, byte, head, waits⟩

/-- A frame reports nothing more, the awaited message first, or it loses 256 bytes.

The length byte stays in front until its message is complete, unless the length wraps. -/
theorem Parser.WaitsFor.replayFrom (bytes : List Byte) (fno off : Nat) {p : Parser} {len : Nat}
    (waiting : p.WaitsFor len) :
    ∃ es, (p.replayFrom fno off bytes).reports = p.reports ++ inFrame fno es ∧
      (es = [] ∨ (0 < len ∧ ∃ ty later, es = (len, ty) :: later) ∨
        (es.map Prod.fst).sum + 256 ≤ p.L + bytes.length) := by
  -- Induction on the bytes left; the first chunk that wraps the length ends the argument.
  by_cases none : bytes = []
  · subst none
    exact ⟨[], by simp, Or.inl rfl⟩
  · have some := List.length_pos_iff.mpr none
    have count := numOfTrue_chunk bytes
    have held := waiting.held
    rw [Parser.replayFrom_step p fno off none]
    by_cases room : p.L + numOfTrue (lowKeep (bytes.take 8).length) < 256
    · have head := waiting.head
      rw [← byteAt_zero_addDataToBuffer p.buf held (ljust8 (bytes.take 8))
        (lowKeep (bytes.take 8).length)] at head
      have step := Parser.step_front waiting.state waiting.small fno off _ _
        (decide (bytes.length ≤ 8)) (by rw [Nat.mod_eq_of_lt room]; omega) head
      rw [Nat.mod_eq_of_lt room] at step
      rcases step with ⟨-, reports, length, still⟩ | ⟨positive, ⟨ty, reports⟩, length⟩
      · by_cases last : bytes.length ≤ 8
        · rw [List.drop_eq_nil_of_le last, Parser.replayFrom_nil, reports]
          exact ⟨[], by simp, Or.inl rfl⟩
        · obtain ⟨es, later, cases⟩ := Parser.WaitsFor.replayFrom (bytes.drop 8) fno (off + 8)
            (still (by simpa using last))
          rw [length, count, List.length_drop] at cases
          refine ⟨es, by rw [later, reports], ?_⟩
          rcases cases with empty | first | lost
          · exact Or.inl empty
          · exact Or.inr (Or.inl first)
          · exact Or.inr (Or.inr (by omega))
      · -- The awaited message is complete, and whatever follows is reported behind it.
        have byte := waiting.small
        obtain ⟨es, later⟩ := Parser.replayFrom_adds (bytes.drop 8) fno (off + 8)
          (by omega : (p.step fno off (ljust8 (bytes.take 8)) (lowKeep (bytes.take 8).length)
            (decide (bytes.length ≤ 8))).L < 256)
        refine ⟨(len, ty) :: es, ?_, Or.inr (Or.inl ⟨positive, ty, es, rfl⟩)⟩
        rw [later.reports, reports, List.append_assoc]
        rfl
    · -- The wrapped length has lost 256 bytes, and nothing brings them back.
      obtain ⟨es, first⟩ := Parser.step_adds waiting.small fno off (ljust8 (bytes.take 8))
        (lowKeep (bytes.take 8).length) (decide (bytes.length ≤ 8))
      obtain ⟨es', later⟩ := Parser.replayFrom_adds (bytes.drop 8) fno (off + 8) first.small
      have small := waiting.small
      have before := first.conserved
      have after := later.conserved
      rw [count] at before room
      rw [List.length_drop] at after
      refine ⟨es ++ es', ?_, Or.inr (Or.inr ?_)⟩
      · rw [later.reports, first.reports, inFrame_append, List.append_assoc]
      · rw [List.map_append, List.sum_append]
        omega
termination_by bytes.length
decreasing_by
  rw [List.length_drop]
  omega

/-- From the header state on, a frame reports nothing more, or eight bytes are taken for a header. -/
theorem Parser.replayFrom_hdr (bytes : List Byte) (fno off : Nat) {p : Parser}
    (state : p.state = .hdr) (small : p.L < 256) :
    ∃ es, (p.replayFrom fno off bytes).reports = p.reports ++ inFrame fno es ∧
      (es = [] ∨ (es.map Prod.fst).sum + 8 ≤ p.L + bytes.length) := by
  -- Induction on the bytes left, until a header is complete.
  by_cases none : bytes = []
  · subst none
    exact ⟨[], by simp, Or.inl rfl⟩
  · have some := List.length_pos_iff.mpr none
    have length := addDataToBuffer_length p.buf small (ljust8 (bytes.take 8))
      (lowKeep (bytes.take 8).length)
    have byte : (addDataToBuffer p.buf p.L (ljust8 (bytes.take 8))
        (lowKeep (bytes.take 8).length)).2 < 256 := by
      rw [length]
      exact Nat.mod_lt _ (by decide)
    rw [numOfTrue_chunk] at length
    rw [Parser.replayFrom_step p fno off none]
    generalize next : p.step fno off (ljust8 (bytes.take 8)) (lowKeep (bytes.take 8).length)
      (decide (bytes.length ≤ 8)) = q
    unfold Parser.step at next
    generalize addDataToBuffer p.buf p.L (ljust8 (bytes.take 8))
      (lowKeep (bytes.take 8).length) = b at length byte next
    obtain ⟨b, m⟩ := b
    simp only [state] at length byte next
    by_cases enough : 8 ≤ m
    · -- The header is taken out, and the bytes left bound what is reported behind it.
      rw [if_pos enough] at next
      have left := compressBuffer_length b enough byte
      have same : q.reports = p.reports := by rw [← next]; rfl
      have after : q.L = m - 8 := by rw [← next]; exact left
      obtain ⟨es, later⟩ := Parser.replayFrom_adds (bytes.drop 8) fno (off + 8)
        (by omega : q.L < 256)
      have conserved := later.conserved
      rw [List.length_drop] at conserved
      exact ⟨es, by rw [later.reports, same], Or.inr (by omega)⟩
    · rw [if_neg enough] at next
      have same : q.reports = p.reports := by rw [← next]; rfl
      have after : q.L = m := by rw [← next]
      obtain ⟨es, later, cases⟩ := Parser.replayFrom_hdr (bytes.drop 8) fno (off + 8)
        (p := q) (by rw [← next]) (by omega)
      rw [after, List.length_drop] at cases
      refine ⟨es, by rw [later, same], ?_⟩
      rcases cases with empty | fewer
      · exact Or.inl empty
      · exact Or.inr (by omega)
termination_by bytes.length
decreasing_by
  rw [List.length_drop]
  omega

end MarketData
