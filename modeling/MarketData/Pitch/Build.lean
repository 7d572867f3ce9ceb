import MarketData.Lib.Packing
import MarketData.Lib.WordBytes

/-! `build`, which packs generated messages into Sequenced Units of a maximal length. -/

namespace MarketData

/-- What `build` and its caller use of `cboe_pitch`, which is not in the repository. -/
structure CboePitch (Msg Hdr : Type) where
  /-- `SequencedUnitHeader(hdr_sequence=...)`. -/
  sequencedUnitHeader : Nat → Hdr
  getLength : Hdr → Nat
  getNextSequence : Hdr → Nat
  addMessage : Hdr → Msg → Hdr
  getMessages : Hdr → List Msg
  /-- The sequence of a header. -/
  sequence : Hdr → Nat
  /-- `msg.length()`. -/
  length : Msg → Nat

/-- Headers keep their sequence and their messages, and count them as they say. -/
structure CboePitch.Documented {Msg Hdr : Type} (lib : CboePitch Msg Hdr) : Prop where
  newMessages : ∀ n, lib.getMessages (lib.sequencedUnitHeader n) = []
  newSequence : ∀ n, lib.sequence (lib.sequencedUnitHeader n) = n
  addedMessages : ∀ h m, lib.getMessages (lib.addMessage h m) = lib.getMessages h ++ [m]
  addedSequence : ∀ h m, lib.sequence (lib.addMessage h m) = lib.sequence h
  getLength : ∀ h, lib.getLength h = 8 + ((lib.getMessages h).map lib.length).sum
  getNextSequence : ∀ h, lib.getNextSequence h = lib.sequence h + (lib.getMessages h).length

/-- The variables of the loop. -/
structure Builder (Hdr : Type) where
  frames : List Hdr
  hdr : Hdr

section Build

variable {Msg Hdr : Type} (lib : CboePitch Msg Hdr) (numFrames : Int) (maxPayload : Nat)
  (gen : Nat → Option Msg)

/-- What the loop does with a message. -/
def Builder.take (b : Builder Hdr) (msg : Msg) : Builder Hdr :=
  let b :=
    if maxPayload < lib.getLength b.hdr + lib.length msg then
      { frames := b.frames ++ [b.hdr], hdr := lib.sequencedUnitHeader (lib.getNextSequence b.hdr) }
    else b
  { b with hdr := lib.addMessage b.hdr msg }

/-- The loop from call `k` of `getNextMsg` on, which returns `gen k`.

Nothing is returned while the loop goes on and no turns are left. -/
def buildLoop : Nat → Nat → Builder Hdr → Option (List Hdr)
  | 0, _, b => if (b.frames.length : Int) < numFrames then none else some b.frames
  | turns + 1, k, b =>
    if (b.frames.length : Int) < numFrames then
      match gen k with
      | none => buildLoop turns (k + 1) b
      | some msg => buildLoop turns (k + 1) (b.take lib maxPayload msg)
    else some b.frames

/-- `build`, as far as it comes in a number of turns. -/
def build (turns : Nat) : Option (List Hdr) :=
  buildLoop lib numFrames maxPayload gen turns 0
    { frames := [], hdr := lib.sequencedUnitHeader 1 }

/-- The messages among the first results of the generator. -/
def generated (gen : Nat → Option Msg) (n : Nat) : List Msg :=
  (List.range n).filterMap gen

/-- Frames that hold the messages of a stream in order, packed and numbered. -/
structure PacksStream (frames : List Hdr) : Prop where
  nonempty : ∀ h ∈ frames, lib.getMessages h ≠ []
  fits : ∀ h ∈ frames, lib.getLength h ≤ maxPayload
  /-- The messages are the first ones of the stream. -/
  stream : ∃ n, frames.flatMap lib.getMessages <+: generated gen n
  first : ∀ h ∈ frames.head?, lib.sequence h = 1
  numbered : frames.IsChain fun h h' =>
    lib.sequence h' = lib.sequence h + (lib.getMessages h).length
  /-- No frame had room for the first message of the next one. -/
  tight : frames.IsChain fun h h' =>
    ∀ m ∈ (lib.getMessages h').head?, maxPayload < lib.getLength h + lib.length m

/-- The messages of the frames and of the header that is being filled. -/
def Builder.bins (b : Builder Hdr) : Bins Msg :=
  { closed := b.frames.map lib.getMessages, last := lib.getMessages b.hdr }

/-- What the loop keeps: these messages are packed, and the headers are numbered. -/
structure Builder.Built (b : Builder Hdr) (msgs : List Msg) : Prop where
  packs : (b.bins lib).Packs 8 lib.length maxPayload msgs
  first : ∀ h ∈ (b.frames ++ [b.hdr]).head?, lib.sequence h = 1
  numbered : (b.frames ++ [b.hdr]).IsChain fun h h' =>
    lib.sequence h' = lib.sequence h + (lib.getMessages h).length

variable {lib numFrames maxPayload gen}

/-- A result more of the generator. -/
theorem generated_succ (gen : Nat → Option Msg) (n : Nat) :
    generated gen (n + 1) = generated gen n ++ (gen n).toList := by
  rw [generated, List.range_succ, List.filterMap_append]
  cases result : gen n <;> simp [generated, result]

/-- A generator that goes on has any number of messages. -/
theorem generated_unbounded (goesOn : ∀ k, ∃ j, k ≤ j ∧ (gen j).isSome = true) (count : Nat) :
    ∃ n, count ≤ (generated gen n).length := by
  -- Induction on the number; the next message is waited for.
  induction count with
  | zero => exact ⟨0, Nat.zero_le _⟩
  | succ count ih =>
    obtain ⟨n, many⟩ := ih
    obtain ⟨j, later, some⟩ := goesOn n
    obtain ⟨msg, result⟩ := Option.isSome_iff_exists.mp some
    obtain ⟨d, rfl⟩ := Nat.exists_eq_add_of_le later
    have grows : generated gen n <+: generated gen (n + d) := by
      rw [generated, generated, List.range_add, List.filterMap_append]
      exact List.prefix_append _ _
    refine ⟨n + d + 1, ?_⟩
    rw [generated_succ, result, List.length_append, Option.toList_some, List.length_singleton]
    exact Nat.succ_le_succ (many.trans grows.length_le)

section Documented

variable (documented : lib.Documented)
include documented

/-- The length of a header is what its bin holds. -/
theorem CboePitch.Documented.load (h : Hdr) :
    lib.getLength h = Bins.load 8 lib.length (lib.getMessages h) :=
  documented.getLength h

/-- The loop packs a message as the bins do. -/
theorem Builder.bins_take (b : Builder Hdr) (msg : Msg) :
    (b.take lib maxPayload msg).bins lib = (b.bins lib).place 8 lib.length maxPayload msg := by
  -- The header has the load of the bin that is open.
  unfold Builder.take Builder.bins Bins.place
  rw [documented.load]
  split
  case isTrue =>
    simp [documented.addedMessages, documented.newMessages]
  case isFalse =>
    simp [documented.addedMessages]

/-- A message more, which is packed and numbered. -/
theorem Builder.Built.take {b : Builder Hdr} {msgs : List Msg} (built : b.Built lib maxPayload msgs)
    {msg : Msg} (small : 8 + lib.length msg ≤ maxPayload) :
    (b.take lib maxPayload msg).Built lib maxPayload (msgs ++ [msg]) := by
  have packs := built.packs.place small
  rw [← b.bins_take documented] at packs
  obtain ⟨-, first, numbered⟩ := built
  unfold Builder.take at packs ⊢
  split at packs
  case isTrue full =>
    -- The closed header counts its messages, and the new one goes on from there.
    rw [if_pos full]
    refine ⟨packs, ?_, isChain_concat numbered ?_⟩
    · intro h head
      refine first h ?_
      rwa [List.head?_append_of_ne_nil _ (by simp)] at head
    · rw [documented.addedSequence, documented.newSequence, documented.getNextSequence]
  case isFalse room =>
    -- A message does not change the sequence of its header.
    rw [if_neg room]
    refine ⟨packs, ?_, isChain_replace numbered fun h _ next => ?_⟩
    · intro h head
      cases frames : b.frames with
      | nil =>
        rw [frames] at first head
        obtain rfl := Option.some.inj head
        rw [documented.addedSequence]
        exact first b.hdr rfl
      | cons h' frames' =>
        rw [frames] at first head
        exact first h head
    · rw [documented.addedSequence]
      exact next

/-- Nothing has been built yet. -/
theorem Builder.built_nil :
    Builder.Built lib maxPayload { frames := [], hdr := lib.sequencedUnitHeader 1 } [] where
  -- There is no frame, and the header is the first one.
  packs := by
    rw [Builder.bins, documented.newMessages]
    exact Bins.packs_nil
  first h head := by
    obtain rfl := Option.some.inj head
    exact documented.newSequence 1
  numbered := List.isChain_singleton _

/-- The frames that are closed are packed and numbered. -/
theorem Builder.Built.packsStream {b : Builder Hdr} {n : Nat}
    (built : b.Built lib maxPayload (generated gen n)) : PacksStream lib maxPayload gen b.frames where
  -- Everything but the open header is a frame; the invariant says the rest of all of them.
  nonempty h member := built.packs.filled _ (List.mem_map_of_mem member)
  fits h member := by
    rw [documented.load]
    exact built.packs.fits _ (List.mem_map_of_mem member)
  stream := ⟨n, lib.getMessages b.hdr, by
    rw [List.flatMap_def]
    exact built.packs.flat⟩
  first h head := by
    cases frames : b.frames with
    | nil =>
      rw [frames] at head
      exact nomatch head
    | cons h' frames' =>
      rw [frames] at head
      refine built.first h ?_
      rw [frames]
      exact head
  numbered := (List.isChain_append.mp built.numbered).1
  tight := by
    have tight := (List.isChain_append.mp built.packs.tight).1
    rw [Builder.bins, List.isChain_map] at tight
    simp only [documented.load]
    exact tight

/-- The loop stops with enough frames, or goes on for all turns; either way it has built them. -/
theorem buildLoop_built (small : ∀ k msg, gen k = some msg → 8 + lib.length msg ≤ maxPayload)
    (turns : Nat) {k : Nat} {b : Builder Hdr} (built : b.Built lib maxPayload (generated gen k))
    (enough : (b.frames.length : Int) ≤ max numFrames 0) :
    ∃ (n : Nat) (b' : Builder Hdr), b'.Built lib maxPayload (generated gen n) ∧
      ((buildLoop lib numFrames maxPayload gen turns k b = some b'.frames ∧
          (b'.frames.length : Int) = max numFrames 0) ∨
        (buildLoop lib numFrames maxPayload gen turns k b = none ∧ n = k + turns ∧
          (b'.frames.length : Int) < numFrames)) := by
  -- Induction on the turns; a message closes one frame at most.
  induction turns generalizing k b with
  | zero =>
    rw [buildLoop]
    split
    case isTrue more => exact ⟨k, b, built, Or.inr ⟨rfl, rfl, more⟩⟩
    case isFalse done => exact ⟨k, b, built, Or.inl ⟨rfl, by omega⟩⟩
  | succ turns ih =>
    rw [buildLoop]
    split
    case isTrue more =>
      have later : k + 1 + turns = k + (turns + 1) := by omega
      cases result : gen k with
      | none =>
        have same : generated gen (k + 1) = generated gen k := by
          rw [generated_succ, result, Option.toList_none, List.append_nil]
        rw [← later]
        exact ih (same ▸ built) enough
      | some msg =>
        have one : generated gen (k + 1) = generated gen k ++ [msg] := by
          rw [generated_succ, result, Option.toList_some]
        have frames : (b.take lib maxPayload msg).frames.length ≤ b.frames.length + 1 := by
          unfold Builder.take
          split <;> simp
        rw [← later]
        exact ih (one ▸ built.take documented (small k msg result)) (by omega)
    case isFalse done => exact ⟨k, b, built, Or.inl ⟨rfl, by omega⟩⟩

/-- `build` packs the stream without loss: what it returns are the frames that were asked for. -/
theorem build_packs (small : ∀ k msg, gen k = some msg → 8 + lib.length msg ≤ maxPayload)
    {turns : Nat} {frames : List Hdr}
    (returns : build lib numFrames maxPayload gen turns = some frames) :
    (frames.length : Int) = max numFrames 0 ∧ PacksStream lib maxPayload gen frames := by
  -- The loop ends with the frames, or runs out of turns and returns nothing.
  have none : ((0 : Nat) : Int) ≤ max numFrames 0 := by omega
  obtain ⟨n, b, built, ⟨done, count⟩ | ⟨goesOn, -, -⟩⟩ := buildLoop_built documented small turns
    (k := 0) (Builder.built_nil documented) none
  · obtain rfl := Option.some.inj (returns.symm.trans done)
    exact ⟨count, built.packsStream documented⟩
  · exact nomatch returns.symm.trans goesOn

/-- A generator that goes on with messages of some length makes `build` return. -/
theorem build_returns (small : ∀ k msg, gen k = some msg → 8 + lib.length msg ≤ maxPayload)
    (positive : ∀ k msg, gen k = some msg → 0 < lib.length msg)
    (goesOn : ∀ k, ∃ j, k ≤ j ∧ (gen j).isSome = true) :
    ∃ turns frames, build lib numFrames maxPayload gen turns = some frames := by
  -- The frames that are asked for and the header behind them hold only so many messages.
  obtain ⟨turns, many⟩ := generated_unbounded goesOn (numFrames.toNat * maxPayload + 1)
  have none : ((0 : Nat) : Int) ≤ max numFrames 0 := by omega
  obtain ⟨n, b, built, ⟨done, -⟩ | ⟨-, rfl, more⟩⟩ := buildLoop_built documented small turns
    (k := 0) (Builder.built_nil documented) none
  · exact ⟨turns, b.frames, done⟩
  · rw [Nat.zero_add] at built
    have bound := built.packs.length_le fun msg member => by
      obtain ⟨k, -, result⟩ := List.mem_filterMap.mp member
      exact positive k msg result
    have frames : (b.bins lib).closed.length + 1 ≤ numFrames.toNat := by
      rw [Builder.bins, List.length_map]
      omega
    have room := Nat.mul_le_mul_right maxPayload frames
    omega

end Documented

/-- A library that keeps the messages of a header as byte strings. -/
def plainPitch : CboePitch (List Byte) (Nat × List (List Byte)) where
  sequencedUnitHeader n := (n, [])
  getLength h := 8 + (h.2.map List.length).sum
  getNextSequence h := h.1 + h.2.length
  addMessage h m := (h.1, h.2 ++ [m])
  getMessages h := h.2
  sequence h := h.1
  length := List.length

/-- Time messages of six bytes and Order Executed messages of twenty-six, with nothing at times. -/
def someMessages (k : Nat) : Option (List Byte) :=
  if k % 4 = 1 then none else if k % 4 = 0 then some (6 :: 0x20 :: List.replicate 4 0)
  else some (26 :: 0x23 :: List.replicate 24 0)

/-- The sample headers do what is said of them. -/
theorem plainPitch_documented : plainPitch.Documented :=
  ⟨fun _ => rfl, fun _ => rfl, fun _ _ => rfl, fun _ _ => rfl, fun _ => rfl, fun _ => rfl⟩

/-- Each of the sample messages has some bytes, and fits into a frame. -/
theorem someMessages_length {k : Nat} {msg : List Byte} (result : someMessages k = some msg) :
    8 + plainPitch.length msg ≤ 60 ∧ 0 < plainPitch.length msg := by
  -- A message has six bytes or twenty-six.
  unfold someMessages at result
  split at result
  · cases result
  · split at result
    all_goals
      obtain rfl := Option.some.inj result
      simp [plainPitch]

/-- Three frames of at most 60 bytes are built of them. -/
theorem build_packs_three : ∃ frames,
    build plainPitch 3 60 someMessages 12 = some frames ∧ frames.map Prod.fst = [1, 3, 5] ∧
      PacksStream plainPitch 60 someMessages frames := by
  have packs := fun frames (returns : build plainPitch 3 60 someMessages 12 = some frames) =>
    build_packs plainPitch_documented (fun _ _ result => (someMessages_length result).1) returns
  exact ⟨_, rfl, rfl, (packs _ rfl).2⟩

/-- However many frames are asked for, they are built of the sample messages. -/
theorem build_returns_hundred : ∃ turns frames,
    build plainPitch 100 60 someMessages turns = some frames := by
  refine build_returns plainPitch_documented (fun _ _ result => (someMessages_length result).1)
    (fun _ _ result => (someMessages_length result).2) fun k => ⟨4 * k, by omega, ?_⟩
  -- Every fourth result is a message.
  have fourth : 4 * k % 4 = 0 := Nat.mul_mod_right 4 k
  simp [someMessages, fourth]

end Build

end MarketData
