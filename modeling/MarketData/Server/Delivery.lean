import MarketData.Server.Framing

/-! The pollers of both servers deliver the captured frames in runs with aligned accesses. -/

namespace MarketData.Server

section Runs

variable {count out : Type} {e : Emitter count out} {present : count → Captured → out}
variable {frames : List Captured} {s : Polled count out} {n : Nat} {acts : List PollAction}

/-- The accesses of the poller among some steps. -/
def polls : List PollAction → Nat
  | [] => 0
  | .arrive :: acts => polls acts
  | .poll _ :: acts => polls acts + 1

/-- An access of the poller brings no word into the FIFO. -/
theorem Emitter.poll_coming (e : Emitter count out) (s : Polled count out) (junk : BitVec 32) :
    (e.poll s junk).fifo.coming = s.fifo.coming := by
  -- In no branch does the poller write to the stream.
  unfold Emitter.poll
  split
  · split <;> rfl
  · dsimp only
    split
    · rfl
    · split <;> rfl
  · rfl
  · dsimp only
    split <;> rfl

/-- A run whose accesses are all aligned keeps the poller in step. -/
theorem Emitter.InStep.run (presents : e.Presents present) (acts : List PollAction) :
    ∀ {s : Polled count out} {n : Nat}, e.InStep present frames s n → e.AlignedRun s acts →
      ∃ n', e.InStep present frames (e.run s acts) n' ∧
        (s.fifo.coming = [] → n' = n - polls acts) := by
  -- Induction on the steps; when nothing is to come, this stays so.
  induction acts with
  | nil => exact fun {s n} inStep _ => ⟨n, inStep, fun _ => rfl⟩
  | cons a acts ih =>
    intro s n inStep aligned
    cases a with
    | arrive =>
      obtain ⟨n', later, fewer⟩ := ih inStep.arrive aligned
      refine ⟨n', later, fun finished => fewer ?_⟩
      show (s.fifo.arrive).coming = []
      simp [RxFifo.arrive, finished]
    | poll junk =>
      obtain ⟨now, aligned⟩ := aligned
      obtain ⟨n₁, next, one⟩ := inStep.poll presents now junk
      obtain ⟨n₂, later, fewer⟩ := ih next aligned
      refine ⟨n₂, later, fun finished => ?_⟩
      rw [fewer ((e.poll_coming s junk).trans finished), one finished, polls]
      omega

/-- A run has aligned accesses when its two parts have. -/
theorem Emitter.alignedRun_append (e : Emitter count out) (before after : List PollAction) :
    ∀ s : Polled count out, e.AlignedRun s (before ++ after) ↔
      e.AlignedRun s before ∧ e.AlignedRun (e.run s before) after := by
  -- Induction on the first part.
  induction before with
  | nil => exact fun s => ⟨fun aligned => ⟨trivial, aligned⟩, And.right⟩
  | cons a before ih =>
    intro s
    cases a with
    | arrive => exact ih _
    | poll junk =>
      have rest := ih (e.step s (.poll junk))
      exact ⟨fun ⟨now, aligned⟩ => ⟨⟨now, (rest.mp aligned).1⟩, (rest.mp aligned).2⟩,
        fun ⟨⟨now, first⟩, second⟩ => ⟨now, rest.mpr ⟨first, second⟩⟩⟩

/-- At its start the poller is in step and all frames are left. -/
theorem Emitter.start_inStep (e : Emitter count out) (present : count → Captured → out)
    (frames : List Captured) :
    e.InStep present frames (e.start (frames.flatMap Captured.beats)) (accesses frames) :=
  ⟨⟨[], frames, rfl, rfl, rfl, ⟨[], rfl, rfl, rfl⟩, rfl⟩, rfl⟩

/-- The state after some steps, when these frames arrive in the run. -/
def Emitter.after (e : Emitter count out) (frames : List Captured) (acts : List PollAction) :
    Polled count out :=
  e.run (e.start (frames.flatMap Captured.beats)) acts

/-- What a poller makes of the frames in a run. -/
structure Emitter.Delivers (e : Emitter count out) (present : count → Captured → out)
    (frames : List Captured) (acts : List PollAction) : Prop where
  /-- The first frames are emitted, in order and with consecutive numbers. -/
  inOrder : (e.after frames acts).emitted <+: e.expected present frames
  /-- The FIFO is never reset. -/
  quiet : (e.after frames acts).resets = 0
  /-- Some accesses behind the last arrival, all frames are emitted. -/
  complete : ∀ before after, acts = before ++ after → (e.after frames before).fifo.coming = [] →
    accesses frames ≤ polls after → (e.after frames acts).emitted = e.expected present frames

/-- A run whose accesses are all aligned delivers the frames. -/
theorem Emitter.delivers (presents : e.Presents present) (frames : List Captured)
    (acts : List PollAction)
    (aligned : e.AlignedRun (e.start (frames.flatMap Captured.beats)) acts) :
    e.Delivers present frames acts := by
  -- The poller is in step all along, and at the end no access is left.
  have start := e.start_inStep present frames
  obtain ⟨n, ⟨⟨done, rest, order, emitted, _, _⟩, quiet⟩, _⟩ := start.run presents acts aligned
  refine ⟨?_, quiet, ?_⟩
  · rw [Emitter.after, emitted, order, Emitter.expected, Emitter.expected, List.mapIdx_append]
    exact List.prefix_append _ _
  · intro before after split finished enough
    subst split
    obtain ⟨first, second⟩ := (e.alignedRun_append before after _).mp aligned
    obtain ⟨n₁, middle, _⟩ := start.run presents before first
    obtain ⟨n₂, final, fewer⟩ := middle.run presents after second
    obtain ⟨done₁, rest₁, order₁, _, _, placed₁⟩ := middle.done
    have bound : n₁ ≤ accesses frames := by
      refine Nat.le_trans placed₁.le ?_
      simp [order₁, accesses]
    have zero : n₂ = 0 := by
      rw [fewer finished]
      omega
    subst zero
    obtain ⟨done₂, rest₂, order₂, emitted₂, _, placed₂⟩ := final.done
    have all : frames = done₂ := by simpa [placed₂.done] using order₂
    have split : e.after frames (before ++ after) = e.run (e.after frames before) after :=
      List.foldl_append
    rw [split, all]
    rw [all] at emitted₂
    exact emitted₂

/-- The frame fills its last 64-bit word so far that both halves of it hold bytes. -/
def Captured.Even (f : Captured) : Prop :=
  f.len % 8 = 0 ∨ 5 ≤ f.len % 8

/-- In step with such frames, only the last frame can have a surplus read. -/
theorem Emitter.InStep.aligned (inStep : e.InStep present frames s n)
    (even : ∀ f ∈ frames.dropLast, f.Even) : s.Aligned := by
  -- A frame that is not the last one has two words for every 64-bit word.
  obtain ⟨fifo, stage, frame, emitted, resets⟩ := s
  match stage, inStep with
  | .head, _ => exact trivial
  | .occupied, _ => exact trivial
  | .reading _ _ _ none, _ => exact trivial
  | .reading len isPartial words (some lo), inStep =>
    intro behind
    obtain ⟨⟨done, rest, order, _, _, placed⟩, _⟩ := inStep
    obtain ⟨cur, rest', pairs, left, rfl, rfl, rfl, rfl, split, few, queued, _⟩ := placed
    have occupies := cur.occupies
    have count : cur.words.length = 2 * pairs.length + 1 + left.length := by
      rw [split, List.length_append, List.length_append, length_halves]
      rfl
    rw [joined, List.length_map] at behind
    cases rest' with
    | nil =>
      obtain ⟨arrived, none, words, _⟩ := queued
      have nothing : arrived = [] := (List.append_eq_nil_iff.mp none.symm).1
      have used : left = [] := List.eq_nil_of_length_eq_zero (by omega)
      simpa [nothing, used] using words
    | cons later rest'' =>
      have member : cur ∈ frames.dropLast := by
        rw [order, List.dropLast_append_cons]
        simp
      have both := even cur member
      simp only [Captured.Even, nwords] at both few
      omega

/-- When all frames but the last one are such, every run has aligned accesses. -/
theorem Emitter.alignedRun_of_even (presents : e.Presents present)
    (even : ∀ f ∈ frames.dropLast, f.Even) (acts : List PollAction) :
    ∀ {s : Polled count out} {n : Nat}, e.InStep present frames s n → e.AlignedRun s acts := by
  -- Induction on the steps: the poller stays in step.
  induction acts with
  | nil => exact fun _ => trivial
  | cons a acts ih =>
    intro s n inStep
    cases a with
    | arrive => exact ih inStep.arrive
    | poll junk =>
      obtain ⟨n', next, _⟩ := inStep.poll presents (inStep.aligned even) junk
      exact ⟨inStep.aligned even, ih next⟩

end Runs

/-- What is published for a frame: its bytes in two digits each. -/
def publishedFrame {count : Type} (name tag : String) (number : count) (f : Captured) :
    String × FrameLine count :=
  (name, { fifo := tag, frame := number, len := f.len, isPartial := false,
           data := f.bytes.flatMap byteDigits })

/-- What is printed for a frame: rows of eight bytes in two digits each. -/
def printedFrame (tag : String) (number : BitVec 32) (f : Captured) : FrameDump :=
  { tag, frame := number, len := f.len, isPartial := false,
    rows := (List.range ((f.len + 7) / 8)).map fun r =>
      (8 * r, ((f.bytes.drop (8 * r)).take 8).flatMap byteDigits) }

section Emitters

variable {words : List (BitVec 64)}

/-- The built words have all bytes of the frame. -/
theorem nwords_enough {len : Nat} (full : words.length = nwords len) : len ≤ 8 * words.length := by
  -- The number of words is rounded up.
  rw [full, nwords]
  omega

/-- The bytes of `json_frame` are those of the words. -/
theorem fifoPoller_presents (name tag : String) :
    (fifoPoller name tag).Presents (publishedFrame name tag) := by
  -- Byte after byte is read out of the words.
  intro number words f full bytes
  have reads := map_byteLEAt_take (by decide) words f.len (nwords_enough full)
  show (name, jsonFrame tag number words f.len false) = publishedFrame name tag number f
  simp only [publishedFrame, jsonFrame, hexByte_eq]
  rw [← bytes, ← reads, List.flatMap_map]

/-- The packed bytes are those of the words. -/
theorem fifoPollerPy_presents (name tag : String) :
    (fifoPollerPy name tag).Presents (publishedFrame name tag) := by
  -- The bytes of all words are cut off at the length.
  intro number words f full bytes
  have digits : hexByte = byteDigits := funext hexByte_eq
  simp only [fifoPollerPy, publishedFrame, bytes, digits]

/-- A row of `print_frame` has the next eight bytes, or those that are left. -/
theorem byteLEAt_row (len r : Nat) (within : 8 * r ≤ len) :
    (((List.range len).map (byteLEAt 8 words)).drop (8 * r)).take 8 =
      (List.range (min (len - 8 * r) 8)).map (byteLE (words.getD r 0)) := by
  -- Behind the bytes of the rows before, the bytes are counted anew.
  obtain ⟨more, rfl⟩ := Nat.exists_eq_add_of_le within
  rw [List.range_add, List.map_append, List.drop_left' (by simp), List.map_map, ← List.map_take,
    List.take_range, Nat.add_sub_cancel_left, Nat.min_comm]
  refine List.map_congr_left fun i small => ?_
  have below : i < 8 := by
    have := List.mem_range.mp small
    omega
  have row : (8 * r + i) / 8 = r := by omega
  have column : (8 * r + i) % 8 = i := by omega
  simp only [Function.comp, byteLEAt, row, column]

/-- The rows of `print_frame` have the bytes of the words. -/
theorem fifoPollerPrint_presents (tag : String) :
    (fifoPollerPrint tag).Presents (printedFrame tag) := by
  -- Row by row.
  intro number words f full bytes
  have reads := map_byteLEAt_take (by decide) words f.len (nwords_enough full)
  show printFrame tag number words f.len false = printedFrame tag number f
  unfold printFrame printedFrame
  congr 1
  refine List.map_congr_left fun r row => ?_
  have within : 8 * r ≤ f.len := by
    have := List.mem_range.mp row
    omega
  simp only [hexByte_eq]
  rw [← bytes, ← reads, byteLEAt_row f.len r within, List.flatMap_map]

end Emitters

/-- In this run, no data read behind the words of a frame takes a word of a later frame. -/
def Emitter.Orderly {count out : Type} (e : Emitter count out) (frames : List Captured)
    (acts : List PollAction) : Prop :=
  e.AlignedRun (e.start (frames.flatMap Captured.beats)) acts

instance {count out : Type} (e : Emitter count out) (frames : List Captured)
    (acts : List PollAction) : Decidable (e.Orderly frames acts) :=
  e.decideAlignedRun _ acts

/-- The pollers of both servers deliver the frames in every run with aligned accesses. -/
theorem fifoPoller_delivers (name tag : String) (frames : List Captured) (acts : List PollAction) :
    ((fifoPoller name tag).Orderly frames acts →
      (fifoPoller name tag).Delivers (publishedFrame name tag) frames acts) ∧
    ((fifoPollerPrint tag).Orderly frames acts →
      (fifoPollerPrint tag).Delivers (printedFrame tag) frames acts) ∧
    ((fifoPollerPy name tag).Orderly frames acts →
      (fifoPollerPy name tag).Delivers (publishedFrame name tag) frames acts) :=
  -- They differ in the counter and in how the bytes are read out of the words.
  ⟨Emitter.delivers (fifoPoller_presents name tag) frames acts,
    Emitter.delivers (fifoPollerPrint_presents tag) frames acts,
    Emitter.delivers (fifoPollerPy_presents name tag) frames acts⟩

/-- Frames that fill their last 64-bit words are delivered in every order of steps. -/
theorem fifoPoller_delivers_even (name tag : String) (frames : List Captured)
    (even : ∀ f ∈ frames.dropLast, f.Even) (acts : List PollAction) :
    (fifoPoller name tag).Delivers (publishedFrame name tag) frames acts ∧
      (fifoPollerPrint tag).Delivers (printedFrame tag) frames acts ∧
      (fifoPollerPy name tag).Delivers (publishedFrame name tag) frames acts := by
  -- No read is a surplus one, except behind the last frame.
  have cpp := fifoPoller_presents name tag
  have print := fifoPollerPrint_presents tag
  have py := fifoPollerPy_presents name tag
  exact ⟨Emitter.delivers cpp frames acts
      (Emitter.alignedRun_of_even cpp even acts (Emitter.start_inStep _ _ frames)),
    Emitter.delivers print frames acts
      (Emitter.alignedRun_of_even print even acts (Emitter.start_inStep _ _ frames)),
    Emitter.delivers py frames acts
      (Emitter.alignedRun_of_even py even acts (Emitter.start_inStep _ _ frames))⟩

/-- A frame of four bytes. -/
def shortFrame : Captured :=
  ⟨4, [0x44434241#32], by decide, by decide, rfl⟩

/-- A frame of eight bytes. -/
def longFrame : Captured :=
  ⟨8, [0x34333231#32, 0x38373635#32], by decide, by decide, rfl⟩

/-- Both frames are in the FIFO before the poller looks. -/
def burst : List PollAction :=
  List.replicate 3 .arrive ++ List.replicate 8 (.poll 0#32)

/-- The second frame arrives when the first one was read. -/
def paced : List PollAction :=
  [.arrive] ++ List.replicate 4 (.poll 0#32) ++ [.arrive, .arrive] ++ List.replicate 4 (.poll 0#32)

/-- Two frames that arrive at once are delivered, the first one filling its last 64-bit word. -/
theorem fifoPoller_delivers_even_burst :
    (fifoPoller "cmd" "CMD").Delivers (publishedFrame "cmd" "CMD") [longFrame, shortFrame] burst ∧
      (fifoPollerPrint "CMD").Delivers (printedFrame "CMD") [longFrame, shortFrame] burst ∧
      (fifoPollerPy "cmd" "CMD").Delivers (publishedFrame "cmd" "CMD") [longFrame, shortFrame] burst :=
  fifoPoller_delivers_even "cmd" "CMD" [longFrame, shortFrame]
    (List.forall_mem_singleton.mpr (Or.inl rfl)) burst

/-- Of a short frame and a frame right behind it, the second one is not delivered. -/
theorem burst_not_delivered :
    ¬ (fifoPoller "cmd" "CMD").Delivers (publishedFrame "cmd" "CMD") [shortFrame, longFrame] burst ∧
      ¬ (fifoPollerPy "cmd" "CMD").Delivers (publishedFrame "cmd" "CMD") [shortFrame, longFrame] burst := by
  -- The first word of the second frame was read as a half of the first frame's 64-bit word.
  constructor
  · intro delivers
    have data := delivers.inOrder.map fun line => line.2.data
    exact absurd data (by decide)
  · intro delivers
    have data := delivers.inOrder.map fun line => line.2.data
    exact absurd data (by decide)

/-- The two frames are delivered when the second one comes late. -/
theorem paced_delivered :
    (fifoPoller "cmd" "CMD").Delivers (publishedFrame "cmd" "CMD") [shortFrame, longFrame] paced ∧
      (fifoPollerPrint "CMD").Delivers (printedFrame "CMD") [shortFrame, longFrame] paced ∧
      (fifoPollerPy "cmd" "CMD").Delivers (publishedFrame "cmd" "CMD") [shortFrame, longFrame] paced := by
  -- The surplus read finds the FIFO empty.
  obtain ⟨cpp, print, py⟩ := fifoPoller_delivers "cmd" "CMD" [shortFrame, longFrame] paced
  exact ⟨cpp (by decide), print (by decide), py (by decide)⟩

end MarketData.Server
