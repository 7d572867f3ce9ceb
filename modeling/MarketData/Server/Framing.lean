import Mathlib.Algebra.GroupWithZero.Nat
import Mathlib.Logic.Function.Iterate
import MarketData.Server.Poller

/-! The frames that the pollers emit, over every order of arrivals and register accesses. -/

namespace MarketData.Server

/-- A frame in the FIFO: it occupies whole words, least significant word first. -/
structure Captured where
  len : Nat
  words : List (BitVec 32)
  positive : 1 ≤ len
  bounded : len ≤ 4096
  occupies : words.length = (len + 3) / 4

/-- The frame's own bytes. -/
def Captured.bytes (f : Captured) : List Byte :=
  (f.words.flatMap (bytesLE 4)).take f.len

/-- The words of a frame on their way into the FIFO. -/
def beatsOf (len : BitVec 32) : List (BitVec 32) → List RxBeat
  | [] => []
  | [w] => [⟨w, some len⟩]
  | w :: w' :: ws => ⟨w, none⟩ :: beatsOf len (w' :: ws)

/-- The words of a frame, its length with the last one. -/
def Captured.beats (f : Captured) : List RxBeat :=
  beatsOf (BitVec.ofNat 32 f.len) f.words

/-- The register accesses that a frame takes: occupancy, length and two for every 64-bit word. -/
def Captured.accesses (f : Captured) : Nat :=
  2 + 2 * nwords f.len

/-- The register accesses that some frames take. -/
def accesses (frames : List Captured) : Nat :=
  (frames.map Captured.accesses).sum

section Beats

variable {len : BitVec 32} {ws : List (BitVec 32)}

/-- The words arrive in order. -/
theorem map_word_beatsOf (len : BitVec 32) (ws : List (BitVec 32)) :
    (beatsOf len ws).map RxBeat.word = ws := by
  -- Every word has one beat.
  induction ws using beatsOf.induct with
  | case1 => rfl
  | case2 w => rfl
  | case3 w w' ws ih => rw [beatsOf, List.map_cons, ih]

/-- A length arrives with the last word and with no word before it. -/
theorem beatsOf_split {pre post : List RxBeat} (split : beatsOf len ws = pre ++ post)
    (unfinished : post ≠ []) : pre.filterMap RxBeat.last = [] := by
  -- Induction on the words; only the last beat has a length.
  induction ws using beatsOf.induct generalizing pre with
  | case1 =>
    cases pre with
    | nil => rfl
    | cons b pre => exact absurd split (by simp [beatsOf])
  | case2 w =>
    cases pre with
    | nil => rfl
    | cons b pre =>
      obtain ⟨_, rest⟩ := List.cons.inj split
      exact absurd (List.append_eq_nil_iff.mp rest.symm).2 unfinished
  | case3 w w' ws ih =>
    cases pre with
    | nil => rfl
    | cons b pre =>
      obtain ⟨head, rest⟩ := List.cons.inj split
      subst head
      simpa using ih rest

/-- Together with the last word the length arrives. -/
theorem filterMap_last_beatsOf (len : BitVec 32) (present : ws ≠ []) :
    (beatsOf len ws).filterMap RxBeat.last = [len] := by
  -- The last beat has the length.
  induction ws using beatsOf.induct with
  | case1 => exact absurd rfl present
  | case2 w => rfl
  | case3 w w' ws ih => simpa [beatsOf] using ih (by simp)

/-- A frame has a word. -/
theorem Captured.words_ne_nil (f : Captured) : f.words ≠ [] := by
  -- Its length is positive.
  have positive := f.positive
  have occupies := f.occupies
  intro none
  rw [none, List.length_nil] at occupies
  omega

end Beats

/-- Behind some words of the present frame, the FIFO holds what has arrived of the later frames. -/
def Queued (left : List (BitVec 32)) (rest : List Captured) (f : RxFifo) : Prop :=
  ∃ arrived, rest.flatMap Captured.beats = arrived ++ f.coming ∧
    f.words = left ++ arrived.map RxBeat.word ∧ f.lens = arrived.filterMap RxBeat.last

section Queue

variable {left : List (BitVec 32)} {rest : List Captured} {f : RxFifo}

/-- A word that arrives belongs to the later frames. -/
theorem Queued.arrive (queued : Queued left rest f) : Queued left rest f.arrive := by
  -- The word moves from those that come to those that arrived.
  obtain ⟨arrived, order, words, lens⟩ := queued
  unfold RxFifo.arrive
  split
  · exact ⟨arrived, order, words, lens⟩
  · rename_i b coming next
    refine ⟨arrived ++ [b], ?_, ?_, ?_⟩
    · rw [order, next, List.append_assoc, List.singleton_append]
    · simp [words]
    · cases last : b.last <;> simp [lens, last]

/-- A data read takes the next word of the present frame. -/
theorem Queued.rdfd {w : BitVec 32} (queued : Queued (w :: left) rest f) (junk : BitVec 32) :
    (f.rdfd junk).1 = w ∧ Queued left rest (f.rdfd junk).2 := by
  -- The word is the first one in the FIFO.
  obtain ⟨arrived, order, words, lens⟩ := queued
  unfold RxFifo.rdfd
  rw [words]
  exact ⟨rfl, arrived, order, rfl, lens⟩

/-- A data read of an empty FIFO leaves it so. -/
theorem Queued.rdfd_empty (queued : Queued [] rest f) (empty : f.words = []) (junk : BitVec 32) :
    Queued [] rest (f.rdfd junk).2 := by
  -- Nothing has arrived of the later frames.
  obtain ⟨arrived, order, words, lens⟩ := queued
  refine ⟨arrived, order, ?_, lens⟩
  show f.words.tail = [] ++ arrived.map RxBeat.word
  rw [← words, empty]
  rfl

/-- Without a length in the FIFO, reading it changes nothing. -/
theorem RxFifo.rlr_none (f : RxFifo) (none : f.lens = []) : f.rlr = (0, f) := by
  -- The tail of no lengths is no lengths.
  obtain ⟨coming, words, lens⟩ := f
  obtain rfl : lens = [] := none
  rfl

/-- With a length in the FIFO, the next frame has arrived, and the length is its length. -/
theorem Queued.rlr (queued : Queued [] rest f) (complete : f.lens ≠ []) :
    ∃ cur rest', rest = cur :: rest' ∧ f.rlr.1 = BitVec.ofNat 32 cur.len ∧
      Queued cur.words rest' f.rlr.2 := by
  -- Only the last word of a frame brings a length, so the first frame is among what arrived.
  obtain ⟨arrived, order, words, lens⟩ := queued
  cases rest with
  | nil =>
    obtain ⟨none, _⟩ := List.append_eq_nil_iff.mp order.symm
    rw [none] at lens
    exact absurd lens complete
  | cons cur rest' =>
    rw [List.flatMap_cons] at order
    have whole : ∃ arrived', arrived = cur.beats ++ arrived' ∧
        rest'.flatMap Captured.beats = arrived' ++ f.coming := by
      rcases List.append_eq_append_iff.mp order with ⟨more, covers, later⟩ | ⟨more, covers, later⟩
      · exact ⟨more, covers, later⟩
      · cases more with
        | nil => exact ⟨[], by simpa using covers.symm, by simpa using later.symm⟩
        | cons b more =>
          have early := beatsOf_split covers (by simp)
          exact absurd (lens.trans early) complete
    obtain ⟨arrived', split, later⟩ := whole
    have length := filterMap_last_beatsOf (BitVec.ofNat 32 cur.len) cur.words_ne_nil
    rw [split, List.filterMap_append, Captured.beats, length] at lens
    refine ⟨cur, rest', rfl, ?_, arrived', later, ?_, ?_⟩
    · simp [RxFifo.rlr, lens]
    · show f.words = cur.words ++ arrived'.map RxBeat.word
      rw [words, split, List.map_append, Captured.beats, map_word_beatsOf, List.nil_append]
    · simp [RxFifo.rlr, lens]

/-- Words are present of frames that are left only. -/
theorem Queued.awaits (queued : Queued [] rest f) (present : f.words ≠ []) :
    ∃ cur rest', rest = cur :: rest' := by
  -- Without a frame nothing has arrived.
  obtain ⟨arrived, order, words, _⟩ := queued
  cases rest with
  | nil =>
    obtain ⟨none, _⟩ := List.append_eq_nil_iff.mp order.symm
    rw [none] at words
    exact absurd words present
  | cons cur rest' => exact ⟨cur, rest', rfl⟩

/-- When nothing is to come, the words and lengths of all frames that are left are present. -/
theorem Queued.finished {cur : Captured} (queued : Queued [] (cur :: rest) f)
    (finished : f.coming = []) : f.words ≠ [] ∧ f.lens ≠ [] := by
  -- The first of the frames has a word and a length.
  obtain ⟨arrived, order, words, lens⟩ := queued
  rw [finished, List.append_nil, List.flatMap_cons] at order
  subst order
  have length := filterMap_last_beatsOf (BitVec.ofNat 32 cur.len) cur.words_ne_nil
  rw [List.filterMap_append, Captured.beats, length] at lens
  rw [List.map_append, Captured.beats, map_word_beatsOf] at words
  exact ⟨by simp [words, cur.words_ne_nil], by simp [lens]⟩

end Queue

section Poller

variable {count out : Type}

/-- What should be emitted for some frames: each with its number, counted from the first one. -/
def Emitter.expected (e : Emitter count out) (present : count → Captured → out)
    (frames : List Captured) : List out :=
  frames.mapIdx fun i f => present (e.next^[i + 1] e.zero) f

/-- For all words of a frame, and perhaps one word more, the frame's own bytes are emitted. -/
def Emitter.Presents (e : Emitter count out) (present : count → Captured → out) : Prop :=
  ∀ number words (f : Captured), words.length = nwords f.len →
    (words.flatMap (bytesLE 8)).take f.len = f.bytes → e.emit number words f.len false = present number f

/-- A data read behind the words that the present frame occupies finds the FIFO empty. -/
def Polled.Aligned (s : Polled count out) : Prop :=
  match s.stage with
  | .reading len _ words (some _) => (len + 3) / 4 ≤ 2 * words.length + 1 → s.fifo.words = []
  | _ => True

instance Polled.decidableAligned : (s : Polled count out) → Decidable s.Aligned
  | ⟨_, .head, _, _, _⟩ => .isTrue trivial
  | ⟨_, .occupied, _, _, _⟩ => .isTrue trivial
  | ⟨_, .reading _ _ _ none, _, _, _⟩ => .isTrue trivial
  | ⟨_, .reading _ _ _ (some _), _, _, _⟩ => inferInstanceAs (Decidable (_ → _))

/-- All accesses of a run are aligned. -/
def Emitter.AlignedRun (e : Emitter count out) : Polled count out → List PollAction → Prop
  | _, [] => True
  | s, .arrive :: acts => e.AlignedRun (e.step s .arrive) acts
  | s, .poll junk :: acts => s.Aligned ∧ e.AlignedRun (e.step s (.poll junk)) acts

/-- Whether all accesses are aligned is found by running the poller. -/
def Emitter.decideAlignedRun (e : Emitter count out) :
    (s : Polled count out) → (acts : List PollAction) → Decidable (e.AlignedRun s acts)
  | _, [] => .isTrue trivial
  | s, .arrive :: acts => e.decideAlignedRun (e.step s .arrive) acts
  | s, .poll junk :: acts =>
    @instDecidableAnd _ _ _ (e.decideAlignedRun (e.step s (.poll junk)) acts)

instance Emitter.decidableAlignedRun (e : Emitter count out) (s : Polled count out)
    (acts : List PollAction) : Decidable (e.AlignedRun s acts) :=
  e.decideAlignedRun s acts

/-- The 64-bit words that are built of pairs of words. -/
def joined (pairs : List (BitVec 32 × BitVec 32)) : List (BitVec 64) :=
  pairs.map fun p => join p.1 p.2

/-- The words of the pairs. -/
def halves (pairs : List (BitVec 32 × BitVec 32)) : List (BitVec 32) :=
  pairs.flatMap fun p => [p.1, p.2]

/-- Where the poller is in the frames that are left, and the accesses that these still take. -/
def Placed (rest : List Captured) (s : Polled count out) (n : Nat) : Prop :=
  match s.stage with
  | .head => Queued [] rest s.fifo ∧ n = accesses rest
  | .occupied => Queued [] rest s.fifo ∧ s.fifo.words ≠ [] ∧ n + 1 = accesses rest
  | .reading len isPartial words lo =>
    ∃ cur rest' pairs left, rest = cur :: rest' ∧ len = cur.len ∧ isPartial = false ∧
      words = joined pairs ∧ cur.words = halves pairs ++ lo.toList ++ left ∧
      pairs.length < nwords cur.len ∧ Queued left rest' s.fifo ∧
      n + 2 * pairs.length + lo.toList.length = 2 * nwords cur.len + accesses rest'

/-- The poller has emitted the first frames and is somewhere in the others. -/
structure Emitter.InStep (e : Emitter count out) (present : count → Captured → out)
    (frames : List Captured) (s : Polled count out) (n : Nat) : Prop where
  done : ∃ done rest, frames = done ++ rest ∧ s.emitted = e.expected present done ∧
    s.frame = e.next^[done.length] e.zero ∧ Placed rest s n
  quiet : s.resets = 0

variable {e : Emitter count out} {present : count → Captured → out} {frames rest : List Captured}
variable {s : Polled count out} {n : Nat}

/-- One more frame is expected with the next number. -/
theorem Emitter.expected_concat (e : Emitter count out) (present : count → Captured → out)
    (done : List Captured) (f : Captured) :
    e.expected present (done ++ [f]) =
      e.expected present done ++ [present (e.next (e.next^[done.length] e.zero)) f] := by
  -- The number of the last frame is the number of frames.
  unfold Emitter.expected
  rw [List.mapIdx_concat, Function.iterate_succ_apply']

/-- A word that arrives does not move the poller. -/
theorem Placed.arrive (placed : Placed rest s n) (e : Emitter count out) :
    Placed rest (e.step s .arrive) n := by
  -- The word joins the words that wait; where there was one, there is one.
  obtain ⟨fifo, stage, frame, emitted, resets⟩ := s
  cases stage with
  | head =>
    obtain ⟨queued, work⟩ := placed
    exact ⟨queued.arrive, work⟩
  | occupied =>
    obtain ⟨queued, present, work⟩ := placed
    refine ⟨queued.arrive, ?_, work⟩
    show fifo.arrive.words ≠ []
    unfold RxFifo.arrive
    split
    · exact present
    · simp
  | reading len isPartial words lo =>
    obtain ⟨cur, rest', pairs, left, h₁, h₂, h₃, h₄, h₅, h₆, queued, work⟩ := placed
    exact ⟨cur, rest', pairs, left, h₁, h₂, h₃, h₄, h₅, h₆, queued.arrive, work⟩

/-- The bytes of the built words are those of the words they are built of. -/
theorem flatMap_joined (pairs : List (BitVec 32 × BitVec 32)) :
    (joined pairs).flatMap (bytesLE 8) = (halves pairs).flatMap (bytesLE 4) := by
  -- Pair by pair, the low word's bytes come first.
  induction pairs with
  | nil => rfl
  | cons p pairs ih =>
    have pair : bytesLE 8 (join p.1 p.2) = bytesLE 4 p.1 ++ bytesLE 4 p.2 :=
      bytesLE_join 4 (by rfl) p.1 p.2
    have tail : (joined (p :: pairs)).flatMap (bytesLE 8) =
        bytesLE 8 (join p.1 p.2) ++ (joined pairs).flatMap (bytesLE 8) := rfl
    rw [tail, pair, ih]
    simp [halves]

/-- A pair has two words. -/
@[simp] theorem length_halves (pairs : List (BitVec 32 × BitVec 32)) :
    (halves pairs).length = 2 * pairs.length := by
  -- Pair by pair.
  induction pairs with
  | nil => rfl
  | cons p pairs ih =>
    show (halves pairs).length + 2 = 2 * (pairs.length + 1)
    rw [ih]
    omega

/-- One more pair brings its two words. -/
theorem halves_concat (pairs : List (BitVec 32 × BitVec 32)) (lo hi : BitVec 32) :
    halves (pairs ++ [(lo, hi)]) = halves pairs ++ [lo, hi] := by
  -- The words of a list of pairs are those of its parts.
  simp [halves]

/-- Words behind those of the frame do not reach its bytes. -/
theorem Captured.bytes_joined (cur : Captured) {pairs : List (BitVec 32 × BitVec 32)}
    {extra : List (BitVec 32)} (covers : halves pairs = cur.words ++ extra) :
    ((joined pairs).flatMap (bytesLE 8)).take cur.len = cur.bytes := by
  -- The frame's words have at least as many bytes as the frame.
  have enough : cur.len ≤ (cur.words.flatMap (bytesLE 4)).length := by
    rw [length_flatMap_bytesLE, cur.occupies]
    omega
  rw [flatMap_joined, covers, List.flatMap_append, List.take_append_of_le_length enough]
  rfl

/-- A length that was read is the frame's own, without the bit for a partial frame. -/
theorem Captured.rlr_len (cur : Captured) : BitVec.ofNat 32 cur.len ≠ 0 ∧
    (BitVec.ofNat 32 cur.len &&& 0x7FFFFFFF#32).toNat = cur.len ∧
      (BitVec.ofNat 32 cur.len).msb = false := by
  -- The length is far below the top bit.
  have positive := cur.positive
  have bounded := cur.bounded
  have value : (BitVec.ofNat 32 cur.len).toNat = cur.len := by
    rw [BitVec.toNat_ofNat]
    exact Nat.mod_eq_of_lt (by omega)
  refine ⟨fun zero => ?_, ?_, ?_⟩
  · rw [zero] at value
    exact absurd value (by simp; omega)
  · have masked : cur.len &&& 0x7FFFFFFF = cur.len % 2 ^ 31 :=
      Nat.and_two_pow_sub_one_eq_mod cur.len 31
    rw [BitVec.toNat_and, value]
    exact masked.trans (Nat.mod_eq_of_lt (by omega))
  · rw [BitVec.msb_eq_decide, value, decide_eq_false_iff_not]
    omega

/-- A frame takes some accesses, and those of the first frame come first. -/
theorem accesses_cons (cur : Captured) (rest : List Captured) :
    accesses (cur :: rest) = 2 + 2 * nwords cur.len + accesses rest :=
  rfl

/-- The pollers differ in nothing but what they emit: where a poller is after an access. -/
structure Stays (s s' : Polled count out) : Prop where
  emitted : s'.emitted = s.emitted
  frame : s'.frame = s.frame
  resets : s'.resets = s.resets

/-- At the head of its loop a poller waits for a word. -/
theorem Placed.poll_head (placed : Placed rest s n) (stage : s.stage = .head) (e : Emitter count out)
    (junk : BitVec 32) : Stays s (e.poll s junk) ∧
      ∃ n', Placed rest (e.poll s junk) n' ∧ (s.fifo.coming = [] → n' = n - 1) := by
  -- When nothing is to come and no word is present, no frame is left.
  obtain ⟨fifo, stage', frame, emitted, resets⟩ := s
  obtain rfl : stage' = .head := stage
  obtain ⟨queued, work⟩ := placed
  by_cases empty : fifo.words = []
  · have stay : e.poll ⟨fifo, .head, frame, emitted, resets⟩ junk =
        ⟨fifo, .head, frame, emitted, resets⟩ := by
      simp [Emitter.poll, RxFifo.rdfo, empty]
    rw [stay]
    refine ⟨⟨rfl, rfl, rfl⟩, n, ⟨queued, work⟩, fun finished => ?_⟩
    cases rest with
    | nil => exact work.trans (by simp [work, accesses])
    | cons cur rest' => exact absurd empty (queued.finished finished).1
  · have moves : e.poll ⟨fifo, .head, frame, emitted, resets⟩ junk =
        ⟨fifo, .occupied, frame, emitted, resets⟩ := by
      simp [Emitter.poll, RxFifo.rdfo, empty]
    rw [moves]
    obtain ⟨cur, rest', rfl⟩ := queued.awaits empty
    rw [accesses_cons] at work
    refine ⟨⟨rfl, rfl, rfl⟩, n - 1, ⟨queued, empty, ?_⟩, fun _ => rfl⟩
    rw [accesses_cons]
    omega

/-- With a word present a poller reads the length, which is that of a frame that has arrived. -/
theorem Placed.poll_occupied (placed : Placed rest s n) (stage : s.stage = .occupied)
    (e : Emitter count out) (junk : BitVec 32) : Stays s (e.poll s junk) ∧
      ∃ n', Placed rest (e.poll s junk) n' ∧ (s.fifo.coming = [] → n' = n - 1) := by
  -- Either no frame is complete, or the length is plausible and the data reads begin.
  obtain ⟨fifo, stage', frame, emitted, resets⟩ := s
  obtain rfl : stage' = .occupied := stage
  obtain ⟨queued, present, work⟩ := placed
  by_cases incomplete : fifo.lens = []
  · have back : e.poll ⟨fifo, .occupied, frame, emitted, resets⟩ junk =
        ⟨fifo, .head, frame, emitted, resets⟩ := by
      simp [Emitter.poll, fifo.rlr_none incomplete]
    rw [back]
    refine ⟨⟨rfl, rfl, rfl⟩, n + 1, ⟨queued, work⟩, fun finished => ?_⟩
    obtain ⟨cur, rest', rfl⟩ := queued.awaits present
    exact absurd incomplete (queued.finished finished).2
  · obtain ⟨cur, rest', rfl, length, later⟩ := queued.rlr incomplete
    obtain ⟨nonzero, len, whole⟩ := cur.rlr_len
    have positive := cur.positive
    have bounded := cur.bounded
    have sensible : ¬ (cur.len = 0 ∨ 4096 < cur.len) := by omega
    have moves : e.poll ⟨fifo, .occupied, frame, emitted, resets⟩ junk =
        ⟨fifo.rlr.2, .reading cur.len false [] none, frame, emitted, resets⟩ := by
      simp only [Emitter.poll, length, if_neg nonzero, len, whole, if_neg sensible]
    rw [moves]
    rw [accesses_cons] at work
    refine ⟨⟨rfl, rfl, rfl⟩, n - 1, ⟨cur, rest', [], cur.words, rfl, rfl, rfl, rfl, rfl, ?_, later, ?_⟩,
      fun _ => rfl⟩
    · simp only [List.length_nil, nwords]
      omega
    · simp only [List.length_nil, Option.toList_none]
      omega

/-- The first half of a 64-bit word is a word of the present frame. -/
theorem Placed.poll_low (placed : Placed rest s n) {len : Nat} {isPartial : Bool}
    {words : List (BitVec 64)} (stage : s.stage = .reading len isPartial words none)
    (e : Emitter count out) (junk : BitVec 32) : Stays s (e.poll s junk) ∧
      ∃ n', Placed rest (e.poll s junk) n' ∧ (s.fifo.coming = [] → n' = n - 1) := by
  -- Fewer words are built than the frame takes, so a word of it is left.
  obtain ⟨fifo, stage', frame, emitted, resets⟩ := s
  obtain rfl : stage' = .reading len isPartial words none := stage
  obtain ⟨cur, rest', pairs, left, rfl, rfl, rfl, rfl, split, few, queued, work⟩ := placed
  have occupies := cur.occupies
  have count : cur.words.length = 2 * pairs.length + left.length := by
    rw [split]
    simp [length_halves]
  simp only [Option.toList_none, List.length_nil, nwords] at work few
  cases left with
  | nil =>
    simp only [List.length_nil] at count
    omega
  | cons w left =>
    obtain ⟨read, later⟩ := queued.rdfd junk
    have moves : e.poll ⟨fifo, .reading cur.len false (joined pairs) none, frame, emitted, resets⟩ junk =
        ⟨(fifo.rdfd junk).2, .reading cur.len false (joined pairs) (some w), frame, emitted, resets⟩ := by
      simp only [Emitter.poll, read]
    rw [moves]
    refine ⟨⟨rfl, rfl, rfl⟩, n - 1,
      ⟨cur, rest', pairs, left, rfl, rfl, rfl, rfl, ?_, few, later, ?_⟩, fun _ => rfl⟩
    · simpa using split
    · simp only [Option.toList_some, List.length_singleton, nwords]
      omega

/-- When all its words are built, a frame is emitted with the next number. -/
theorem Emitter.InStep.emits (presents : e.Presents present) {done rest' : List Captured}
    {cur : Captured} {pairs : List (BitVec 32 × BitVec 32)} {extra : List (BitVec 32)}
    {fifo : RxFifo} (split : frames = done ++ cur :: rest')
    (covers : halves pairs = cur.words ++ extra) (full : pairs.length = nwords cur.len)
    (queued : Queued [] rest' fifo) :
    e.InStep present frames
      ⟨fifo, .head, e.next (e.next^[done.length] e.zero),
        e.expected present done ++
          [e.emit (e.next (e.next^[done.length] e.zero)) (joined pairs) cur.len false], 0⟩
      (accesses rest') := by
  -- The emitted bytes are the frame's own.
  have own := presents (e.next (e.next^[done.length] e.zero)) (joined pairs) cur
    (by rw [joined, List.length_map, full]) (cur.bytes_joined covers)
  refine ⟨⟨done ++ [cur], rest', ?_, ?_, ?_, queued, rfl⟩, rfl⟩
  · rw [split, List.append_assoc, List.singleton_append]
  · rw [own, e.expected_concat]
  · rw [List.length_append, List.length_singleton, Function.iterate_succ_apply']

/-- The second half of a 64-bit word is a word of the present frame, or read of an empty FIFO. -/
theorem Emitter.InStep.poll_high (presents : e.Presents present) (inStep : e.InStep present frames s n)
    {len : Nat} {isPartial : Bool} {words : List (BitVec 64)} {lo : BitVec 32}
    (stage : s.stage = .reading len isPartial words (some lo)) (aligned : s.Aligned)
    (junk : BitVec 32) :
    ∃ n', e.InStep present frames (e.poll s junk) n' ∧ (s.fifo.coming = [] → n' = n - 1) := by
  -- Either words of the frame are left, or the frame has an odd number of words and this is behind them.
  obtain ⟨fifo, stage', frame, emitted, resets⟩ := s
  obtain rfl : stage' = .reading len isPartial words (some lo) := stage
  obtain ⟨⟨done, rest, order, rfl, rfl, placed⟩, quiet⟩ := inStep
  obtain rfl : resets = 0 := quiet
  obtain ⟨cur, rest', pairs, left, rfl, rfl, rfl, rfl, split, few, queued, work⟩ := placed
  have occupies := cur.occupies
  have count : cur.words.length = 2 * pairs.length + 1 + left.length := by
    rw [split, List.length_append, List.length_append, length_halves]
    rfl
  have built (hi : BitVec 32) : joined pairs ++ [join lo hi] = joined (pairs ++ [(lo, hi)]) := by
    simp [joined]
  have length (hi : BitVec 32) : (joined (pairs ++ [(lo, hi)])).length = pairs.length + 1 := by
    simp [joined]
  simp only [Option.toList_some, List.length_singleton] at work split
  cases left with
  | nil =>
    -- The surplus word comes of an empty FIFO, and the frame is complete without it.
    have empty : fifo.words = [] := by
      refine aligned (Nat.le_of_eq ?_)
      rw [joined, List.length_map, ← occupies, count, List.length_nil]
    have full : pairs.length + 1 = nwords cur.len := by
      simp only [nwords] at few ⊢
      simp only [List.length_nil] at count
      omega
    have read : (fifo.rdfd junk).1 = junk := by simp [RxFifo.rdfd, empty]
    have covers : halves (pairs ++ [(lo, junk)]) = cur.words ++ [junk] := by
      rw [halves_concat, split]
      simp
    refine ⟨accesses rest', ?_, fun _ => by omega⟩
    simp only [Emitter.poll, read, built, length, full, Nat.lt_irrefl, if_false]
    exact .emits presents order covers (by simpa using full) (queued.rdfd_empty empty junk)
  | cons hi left =>
    obtain ⟨read, later⟩ := queued.rdfd junk
    by_cases more : pairs.length + 1 < nwords cur.len
    · refine ⟨n - 1, ⟨⟨done, cur :: rest', order, ?_⟩, ?_⟩, fun _ => rfl⟩
      all_goals simp only [Emitter.poll, read, built, length, if_pos more]
      refine ⟨trivial, trivial, cur, rest', pairs ++ [(lo, hi)], left, rfl, rfl, rfl, rfl, ?_, ?_, later, ?_⟩
      · rw [halves_concat, split]
        simp
      · simpa using more
      · simp only [Option.toList_none, List.length_nil, List.length_append, List.length_singleton]
        omega
    · -- No word of the frame is left behind the last 64-bit word.
      have full : pairs.length + 1 = nwords cur.len := by omega
      have none : left = [] := by
        refine List.eq_nil_of_length_eq_zero ?_
        simp only [nwords] at full
        simp only [List.length_cons] at count
        omega
      subst none
      have covers : halves (pairs ++ [(lo, hi)]) = cur.words ++ [] := by
        rw [halves_concat, split]
        simp
      refine ⟨accesses rest', ?_, fun _ => by omega⟩
      simp only [Emitter.poll, read, built, length, full, Nat.lt_irrefl, if_false]
      exact .emits presents order covers (by simpa using full) later

/-- An access that emits nothing keeps the poller in step. -/
theorem Emitter.InStep.stays (inStep : e.InStep present frames s n) {s' : Polled count out}
    {remains : Nat → Prop}
    (kept : ∀ rest, Placed rest s n → Stays s s' ∧ ∃ n', Placed rest s' n' ∧ remains n') :
    ∃ n', e.InStep present frames s' n' ∧ remains n' := by
  -- The frames that were emitted and their number are as before.
  obtain ⟨⟨done, rest, order, emitted, frame, placed⟩, quiet⟩ := inStep
  obtain ⟨stays, n', placed', fewer⟩ := kept rest placed
  refine ⟨n', ⟨⟨done, rest, order, ?_, ?_, placed'⟩, ?_⟩, fewer⟩
  · rw [stays.emitted, emitted]
  · rw [stays.frame, frame]
  · rw [stays.resets, quiet]

/-- An aligned access keeps the poller in step; with all frames there, one access fewer is left. -/
theorem Emitter.InStep.poll (presents : e.Presents present) (inStep : e.InStep present frames s n)
    (aligned : s.Aligned) (junk : BitVec 32) :
    ∃ n', e.InStep present frames (e.poll s junk) n' ∧ (s.fifo.coming = [] → n' = n - 1) := by
  -- By the place in the loop; only the last data read of a frame emits.
  cases stage : s.stage with
  | head => exact inStep.stays fun rest placed => placed.poll_head stage e junk
  | occupied => exact inStep.stays fun rest placed => placed.poll_occupied stage e junk
  | reading len isPartial words lo =>
    cases lo with
    | none => exact inStep.stays fun rest placed => placed.poll_low stage e junk
    | some lo => exact inStep.poll_high presents stage aligned junk

/-- A word that arrives keeps the poller in step. -/
theorem Emitter.InStep.arrive (inStep : e.InStep present frames s n) :
    e.InStep present frames (e.step s .arrive) n := by
  -- The poller has not moved.
  obtain ⟨⟨done, rest, order, emitted, frame, placed⟩, quiet⟩ := inStep
  exact ⟨⟨done, rest, order, emitted, frame, placed.arrive e⟩, quiet⟩

/-- Never are more accesses left than the frames that are left take. -/
theorem Placed.le (placed : Placed rest s n) : n ≤ accesses rest := by
  -- By the place in the loop.
  unfold Placed at placed
  split at placed
  · exact Nat.le_of_eq placed.2
  · omega
  · obtain ⟨cur, rest', pairs, left, rfl, _, _, _, _, _, _, work⟩ := placed
    rw [accesses_cons]
    omega

/-- No access is left when no frame is left. -/
theorem Placed.done (placed : Placed rest s 0) : rest = [] := by
  -- Every frame takes more than one access, and its last read is the one that emits it.
  cases rest with
  | nil => rfl
  | cons cur rest' =>
    unfold Placed at placed
    split at placed
    · exact absurd placed.2 (by rw [accesses_cons]; omega)
    · exact absurd placed.2.2 (by rw [accesses_cons]; omega)
    · rename_i lo _
      obtain ⟨cur', rest'', pairs, left, _, _, _, _, _, few, _, work⟩ := placed
      have one : lo.toList.length ≤ 1 := by cases lo <;> simp
      omega

end Poller

end MarketData.Server
