import Mathlib.Data.List.Induction
import MarketData.Bats.Dispatch

/-! The receive time of a command is that of the last word before its dispatch cycle. -/

namespace MarketData.Bats

/-- The time stamps of the accepted bytes, for each of them that of its word. -/
def stamps (is : List Inputs) : List (BitVec 64) :=
  is.flatMap fun i => (acceptedBytes i).map fun _ => i.dsTimestamp

/-- The bytes consumed by a run, in order. -/
def consumedAll (sub : Submodules) (r : Regs) (is : List Inputs) : List Byte :=
  (events sub r is).flatMap Event.bytes

/-- The time stamp of the word that carried the last byte a run consumed. -/
def lastByteStamp (sub : Submodules) (r : Regs) (is : List Inputs) : Option (BitVec 64) :=
  (stamps is)[(consumedAll sub r is).length - 1]?

/-- The time stamp of the last valid word. -/
def lastWordStamp (is : List Inputs) : Option (BitVec 64) :=
  (is.filter Inputs.dsDataValid).getLast?.map Inputs.dsTimestamp

/-- Every command bears the time stamp of the word that carried the last byte of its message. -/
def PairsReceiveTime (sub : Submodules) (r₀ : Regs) (is : List Inputs) : Prop :=
  ∀ k < is.length, (run sub r₀ (is.take (k + 1))).cmdValid = true →
    some (run sub r₀ (is.take (k + 1))).cmd.recvTime = lastByteStamp sub r₀ (is.take (k + 1))

/-- The time stamp of the accepted byte with `b` others behind it. -/
def stampBehind (is : List Inputs) (b : Nat) : Option (BitVec 64) :=
  (stamps is).reverse[b]?

/-- How many bytes the last valid word brought. -/
def lastWordBytes (is : List Inputs) : Nat :=
  ((is.filter Inputs.dsDataValid).getLast?.map fun i => (acceptedBytes i).length).getD 0

section Cycle

variable (i : Inputs) (r : Regs)

/-- The bytes in front of the parser in a cycle: those held, and those that arrive in it. -/
def upcoming : List Byte :=
  held r ++ acceptedBytes i

/-- The length byte of the message at the front. -/
def frontLength : Nat :=
  ((upcoming i r).getD 0 0#8).toNat

/-- A whole message of a type with a command stands at the front. -/
def CommandDue : Prop :=
  r.state = .readMsg ∧ 2 ≤ (upcoming i r).length ∧ frontLength i r ≤ (upcoming i r).length ∧
    (upcoming i r).getD 1 0#8 ∈ commandTypes

/-- That message was complete before the cycle, and the last word before it brought its end. -/
def BroughtByLastWord (before : List Inputs) : Prop :=
  frontLength i r ≤ (held r).length ∧ (held r).length < frontLength i r + lastWordBytes before

end Cycle

/-- No command is due as its message is completed, nor behind a newer word. -/
def DispatchedOnLastWord (sub : Submodules) (r₀ : Regs) (is : List Inputs) : Prop :=
  ∀ k (within : k < is.length), CommandDue is[k] (run sub r₀ (is.take k)) →
    BroughtByLastWord is[k] (run sub r₀ (is.take k)) (is.take k)

/-- The valid words of a run bear different time stamps. -/
def StampsDiffer (is : List Inputs) : Prop :=
  ((is.filter Inputs.dsDataValid).map Inputs.dsTimestamp).Nodup

instance (sub : Submodules) (r₀ : Regs) (is : List Inputs) :
    Decidable (PairsReceiveTime sub r₀ is) :=
  inferInstanceAs (Decidable (∀ k < is.length, _ → _))

instance (i : Inputs) (r : Regs) : Decidable (CommandDue i r) :=
  inferInstanceAs (Decidable (_ ∧ _ ∧ _ ∧ _))

instance (i : Inputs) (r : Regs) (before : List Inputs) :
    Decidable (BroughtByLastWord i r before) :=
  inferInstanceAs (Decidable (_ ∧ _))

instance (sub : Submodules) (r₀ : Regs) (is : List Inputs) :
    Decidable (DispatchedOnLastWord sub r₀ is) :=
  inferInstanceAs (Decidable (∀ k (_ : k < is.length), _ → _))

instance (is : List Inputs) : Decidable (StampsDiffer is) :=
  inferInstanceAs (Decidable (List.Nodup _))

/-- The dispatch leaves the receive time register alone. -/
theorem dispatch_recvTimeR (sub : Submodules) (i : Inputs) (r next : Regs) :
    (dispatch sub i r next).recvTimeR = next.recvTimeR := by
  -- Every branch sets command, seconds and debug registers only.
  simp only [dispatch, apply_ite Regs.recvTimeR, ite_self]

/-- The receive time register follows the valid words, whatever else the cycle does. -/
theorem step_recvTimeR (sub : Submodules) (i : Inputs) (r : Regs) :
    (step sub i r).recvTimeR = if i.dsDataValid then i.dsTimestamp else r.recvTimeR := by
  -- No branch of the state machine assigns the register.
  unfold step
  cases r.state <;>
    simp only [apply_ite Regs.recvTimeR, dispatch_recvTimeR, ite_self]

section Step

variable {sub : Submodules} {i : Inputs} {r : Regs}

/-- The wires of the appended buffer read the bytes in front of the parser. -/
theorem upcoming_reads (appends : Appends sub) (fits : r.bufferLength.toNat ≤ 72)
    (allowed : Allowed i r) :
    (upcoming i r).length = (alen sub i r).toNat ∧
      ∀ k < (alen sub i r).toNat, (upcoming i r).getD k 0#8 = byteBE (abuf sub i r) k := by
  -- The appended bytes are the front of the appended buffer.
  obtain ⟨-, -, appended⟩ := append_spec appends fits allowed
  have bytes : upcoming i r = front (abuf sub i r) (alen sub i r).toNat := appended.symm
  rw [bytes]
  refine ⟨front_length _ _, fun k inside => ?_⟩
  rw [front, List.getD_eq_getElem?_getD, List.getElem?_map, List.getElem?_range inside,
    Option.map_some, Option.getD_some]

/-- A command is emitted exactly when one is due. -/
theorem commandDue_iff (appends : Appends sub)
    (fits : r.state = .readMsg → r.bufferLength.toNat ≤ 72) (allowed : Allowed i r)
    (running : i.reset = false) (calm : flushes sub i r = false) :
    (step sub i r).cmdValid = true ↔ CommandDue i r := by
  rw [step_cmdValid running calm]
  refine and_congr_right fun state => ?_
  obtain ⟨size, read⟩ := upcoming_reads appends (fits state) allowed
  -- Without a flush the length byte is a legal one.
  have formed := (flushes_false running calm).2 state
  rw [← Bool.not_eq_true, msgMalformed_iff] at formed
  rw [msgReady_iff, size]
  constructor
  · rintro ⟨⟨known, -, -, whole⟩, type⟩
    refine ⟨known, ?_, ?_⟩
    · rw [frontLength, read 0 (by omega)]
      exact whole
    · rw [read 1 (by omega)]
      exact type
  · rintro ⟨known, whole, type⟩
    rw [frontLength, read 0 (by omega), ← msgLength_eq] at whole
    rw [read 1 (by omega)] at type
    exact ⟨⟨known, by omega, by omega, whole⟩, type⟩

/-- Behind a cycle with a command what stood behind its message is held. -/
theorem held_behind (appends : Appends sub) (fits : r.bufferLength.toNat ≤ 72)
    (allowed : Allowed i r) (running : i.reset = false) (calm : flushes sub i r = false)
    (due : CommandDue i r) :
    (held (step sub i r)).length = (upcoming i r).length - frontLength i r ∧
      (step sub i r).cmd.recvTime = r.recvTimeR := by
  obtain ⟨state, known, whole, type⟩ := due
  have emitted := (commandDue_iff appends (fun _ => fits) allowed running calm).mpr
    ⟨state, known, whole, type⟩
  have taken := message_of_cmdValid running calm emitted
  refine ⟨?_, (message_sampled calm taken).2⟩
  -- The bytes taken are as many as the length byte says.
  have active : r.state ≠ .reset := by simp [state]
  obtain ⟨kept, -⟩ := step_conserves appends fits allowed running active calm
  obtain ⟨size, read⟩ := upcoming_reads appends fits allowed
  have first : frontLength i r = (msgLength sub i r).toNat := by
    rw [frontLength, read 0 (by omega), msgLength_eq]
  have sizes := congrArg List.length kept
  rw [consumedBytes, taken, List.length_append] at sizes
  simp only [Option.toList_some, List.flatMap_cons, List.flatMap_nil, List.append_nil, Event.bytes,
    front_length] at sizes
  rw [upcoming, ← sizes, first, Nat.add_sub_cancel_left]

/-- A cycle without reset and flush does not lead back to ST_RESET. -/
theorem step_active (running : i.reset = false) (calm : flushes sub i r = false)
    (active : r.state ≠ .reset) : (step sub i r).state ≠ .reset := by
  -- What the cycle consumes decides the next state.
  cases consumed : event sub i r with
  | none =>
    rw [(step_idle running calm consumed active).1]
    exact active
  | some taken =>
    cases taken with
    | unitHdr bytes =>
      obtain ⟨_, _, _, _, next, _⟩ := step_unitHdr calm consumed
      simp [next]
    | message bytes seqNo =>
      obtain ⟨_, _, _, _, _, _, _, _, next, _⟩ := step_message calm consumed
      rw [next]
      split <;> simp

end Step

/-- The register holds the time stamp of the last valid word, if there was one. -/
theorem run_recvTimeR (sub : Submodules) (r : Regs) (is : List Inputs) :
    (run sub r is).recvTimeR = (lastWordStamp is).getD r.recvTimeR := by
  -- Induction on the cycles from the last one back.
  induction is using List.reverseRecOn with
  | nil => rfl
  | append_singleton is i ih =>
    rw [run_concat, step_recvTimeR, ih]
    cases valid : i.dsDataValid <;> simp [lastWordStamp, valid]

/-- Without a flush the bytes consumed are the first ones accepted, and the buffer is in bounds. -/
theorem run_conserves {sub : Submodules} (appends : Appends sub) (is : List Inputs) {r : Regs}
    (fits : r.bufferLength.toNat ≤ 72) (active : r.state ≠ .reset) (respects : Respects sub r is)
    (running : NoReset is) (calm : NoFlush sub r is) :
    consumedAll sub r is ++ held (run sub r is) = held r ++ acceptedAll is ∧
      (run sub r is).bufferLength.toNat ≤ 72 := by
  -- Induction on the cycles, each of which keeps every byte in order.
  induction is generalizing r with
  | nil => exact ⟨by simp [consumedAll, events, acceptedAll, run], fits⟩
  | cons i is ih =>
    obtain ⟨allowed, later⟩ := respects
    obtain ⟨quiet, rest⟩ := calm
    have awake : i.reset = false := running i (by simp)
    obtain ⟨kept, bound⟩ := step_conserves appends fits allowed awake active quiet
    obtain ⟨tail, within⟩ := ih bound (step_active awake quiet active) later
      (fun j member => running j (by simp [member])) rest
    have split : consumedAll sub r (i :: is) =
        consumedBytes sub i r ++ consumedAll sub (step sub i r) is := by
      simp [consumedAll, consumedBytes, events]
    refine ⟨?_, within⟩
    rw [split, run_cons, List.append_assoc, tail, ← List.append_assoc, kept, List.append_assoc]
    simp [acceptedAll]

/-- From ST_RESET on the bytes consumed are the first ones accepted, and the others are held. -/
theorem conserved_of_reset {sub : Submodules} (appends : Appends sub) {is : List Inputs} {r : Regs}
    (some : is ≠ []) (init : r.state = .reset) (respects : Respects sub r is)
    (running : NoReset is) (calm : NoFlush sub r is) :
    consumedAll sub r is ++ held (run sub r is) = acceptedAll is ∧
      (run sub r is).bufferLength.toNat ≤ 72 := by
  -- The first cycle refuses input and clears the buffer.
  cases is with
  | nil => exact absurd rfl some
  | cons i is =>
    obtain ⟨allowed, later⟩ := respects
    have awake : i.reset = false := running i (by simp)
    have silent : i.dsDataValid = false := by
      cases valid : i.dsDataValid with
      | false => rfl
      | true => exact absurd init ((readyForUdpInput_iff r).mp (allowed valid).1).1
    obtain ⟨state, _, empty⟩ := @step_init sub _ _ awake init
    obtain ⟨kept, within⟩ := run_conserves appends is (by simp [empty]) (by simp [state]) later
      (fun j member => running j (by simp [member])) calm.2
    rw [held_empty empty, List.nil_append] at kept
    refine ⟨?_, within⟩
    simpa [consumedAll, events, event, awake, init, acceptedAll, acceptedBytes, silent, run_cons]
      using kept

/-- What comes first in well-formed units is a header, so a message is never the first item. -/
theorem header_before_message {units : List SeqUnit} {es : List Event} {bytes : List Byte}
    {seqNo : BitVec 32} (taken : es ++ [.message bytes seqNo] <+: units.flatMap SeqUnit.consumptions) :
    es.flatMap Event.bytes ≠ [] := by
  -- The first item of the first unit is its header, which has eight bytes.
  obtain ⟨later, whole⟩ := taken
  cases units with
  | nil => simp at whole
  | cons u us =>
    cases es with
    | nil => simp [SeqUnit.consumptions] at whole
    | cons e es =>
      simp only [List.cons_append, List.flatMap_cons, SeqUnit.consumptions] at whole
      obtain ⟨rfl, -⟩ := List.cons.inj whole
      intro none
      have size := u.header_length
      simp only [List.flatMap_cons, Event.bytes, List.append_eq_nil_iff] at none
      simp [none.1] at size

/-- Accepted bytes came in some valid word. -/
theorem lastWordStamp_of_accepted {is : List Inputs} (some : acceptedAll is ≠ []) :
    ∃ t, lastWordStamp is = Option.some t := by
  -- Without a valid word nothing is accepted.
  cases words : is.filter Inputs.dsDataValid with
  | nil =>
    refine absurd (List.flatMap_eq_nil_iff.mpr fun i member => ?_) some
    have invalid := List.filter_eq_nil_iff.mp words i member
    simp [acceptedBytes, invalid]
  | cons w ws => simp [lastWordStamp, words, List.getLast?_cons]

/-- There is a stamp for each accepted byte. -/
theorem length_stamps (is : List Inputs) : (stamps is).length = (acceptedAll is).length := by
  rw [stamps, acceptedAll, List.length_flatMap, List.length_flatMap]
  refine congrArg List.sum (List.map_congr_left fun i _ => ?_)
  rw [List.length_map]

/-- A valid word adds its stamp once for each of its bytes, and another cycle adds none. -/
theorem stamps_concat (is : List Inputs) (i : Inputs) :
    stamps (is ++ [i]) = stamps is ++ (acceptedBytes i).map fun _ => i.dsTimestamp := by
  rw [stamps, List.flatMap_append, List.flatMap_cons, List.flatMap_nil, List.append_nil, stamps]

/-- The bytes of a cycle stand behind those of the cycles before it. -/
theorem stampBehind_concat (is : List Inputs) (i : Inputs) (b : Nat) :
    stampBehind (is ++ [i]) b =
      if b < (acceptedBytes i).length then some i.dsTimestamp
      else stampBehind is (b - (acceptedBytes i).length) := by
  -- Seen from the end the bytes of the cycle come first.
  rw [stampBehind, stamps_concat, List.reverse_append]
  split
  · rename_i few
    rw [List.getElem?_append_left (by simpa using few), ← List.map_reverse, List.getElem?_map,
      List.getElem?_eq_getElem (by simpa using few), Option.map_some]
  · rename_i many
    rw [List.getElem?_append_right (by simpa using many), List.length_reverse, List.length_map,
      stampBehind]

/-- The stamps are those of valid words. -/
theorem stampBehind_word {is : List Inputs} {b : Nat} {t : BitVec 64}
    (byte : stampBehind is b = some t) :
    t ∈ (is.filter Inputs.dsDataValid).map Inputs.dsTimestamp := by
  -- The byte was accepted in some cycle, and only valid words are.
  have member := List.mem_reverse.mp (List.mem_of_getElem? byte)
  obtain ⟨i, inside, stamped⟩ := List.mem_flatMap.mp member
  obtain ⟨_, accepted, rfl⟩ := List.mem_map.mp stamped
  refine List.mem_map_of_mem (List.mem_filter.mpr ⟨inside, ?_⟩)
  by_contra invalid
  simp [acceptedBytes, invalid] at accepted

/-- A valid word is the last one. -/
theorem words_valid (is : List Inputs) {i : Inputs} (valid : i.dsDataValid = true) :
    (is ++ [i]).filter Inputs.dsDataValid = is.filter Inputs.dsDataValid ++ [i] := by
  simp [valid]

/-- A cycle without a valid word accepts nothing. -/
theorem words_invalid (is : List Inputs) {i : Inputs} (invalid : i.dsDataValid = false) :
    acceptedBytes i = [] ∧
      (is ++ [i]).filter Inputs.dsDataValid = is.filter Inputs.dsDataValid :=
  ⟨by simp [acceptedBytes, invalid], by simp [invalid]⟩

/-- The last bytes accepted bear the stamp of the last valid word. -/
theorem stampBehind_lastWord {is : List Inputs} {b : Nat} (few : b < lastWordBytes is) :
    stampBehind is b = lastWordStamp is := by
  -- Induction from the last cycle back, to the last one with a valid word.
  induction is using List.reverseRecOn with
  | nil => exact absurd few (Nat.not_lt_zero b)
  | append_singleton is i ih =>
    rw [stampBehind_concat]
    cases valid : i.dsDataValid with
    | false =>
      obtain ⟨none, same⟩ := words_invalid is valid
      rw [lastWordBytes, same] at few
      rw [none, List.length_nil, if_neg (Nat.not_lt_zero b), lastWordStamp, same]
      exact ih few
    | true =>
      have here := words_valid is valid
      rw [lastWordBytes, here, List.getLast?_concat, Option.map_some, Option.getD_some] at few
      rw [if_pos few, lastWordStamp, here, List.getLast?_concat, Option.map_some]

/-- If the stamps differ, only the last bytes accepted bear the stamp of the last valid word. -/
theorem lastWord_of_stampBehind {is : List Inputs} (differ : StampsDiffer is) {b : Nat}
    {t : BitVec 64} (word : lastWordStamp is = some t) (byte : stampBehind is b = some t) :
    b < lastWordBytes is := by
  -- Induction from the last cycle back, to the last one with a valid word.
  induction is using List.reverseRecOn with
  | nil => cases word
  | append_singleton is i ih =>
    rw [stampBehind_concat] at byte
    cases valid : i.dsDataValid with
    | false =>
      obtain ⟨none, same⟩ := words_invalid is valid
      rw [StampsDiffer, same] at differ
      rw [lastWordStamp, same] at word
      rw [none, List.length_nil, if_neg (Nat.not_lt_zero b)] at byte
      rw [lastWordBytes, same]
      exact ih differ word byte
    | true =>
      have here := words_valid is valid
      rw [lastWordBytes, here, List.getLast?_concat, Option.map_some, Option.getD_some]
      by_contra many
      -- A byte from before would bear the stamp of another word.
      rw [if_neg many] at byte
      rw [lastWordStamp, here, List.getLast?_concat, Option.map_some, Option.some.injEq] at word
      rw [StampsDiffer, here, List.map_append, List.nodup_append] at differ
      exact differ.2.2 t (stampBehind_word byte) i.dsTimestamp (by simp) word.symm

/-- How many bytes stand behind the message at the front, of those that arrive and of those held. -/
theorem behind_front {i : Inputs} {r : Regs} (complete : frontLength i r ≤ (held r).length) :
    (upcoming i r).length - frontLength i r =
      (acceptedBytes i).length + ((held r).length - frontLength i r) := by
  rw [upcoming, List.length_append]
  omega

/-- What the last word before a cycle brought bears its stamp, whatever arrives in the cycle. -/
theorem BroughtByLastWord.stamped {before : List Inputs} {i : Inputs} {r : Regs}
    (brought : BroughtByLastWord i r before) :
    lastWordStamp before =
      stampBehind (before ++ [i]) ((upcoming i r).length - frontLength i r) := by
  -- The bytes that arrive now are skipped, and the last word comes next.
  obtain ⟨complete, ends⟩ := brought
  rw [behind_front complete, stampBehind_concat, if_neg (by omega), Nat.add_sub_cancel_left]
  exact (stampBehind_lastWord (by omega)).symm

/-- If the stamps differ, a message that bears the stamp of the last word before was ended by it. -/
theorem broughtByLastWord_of_stamped {before : List Inputs} {i : Inputs} {r : Regs} {t : BitVec 64}
    (differ : StampsDiffer (before ++ [i])) (whole : frontLength i r ≤ (upcoming i r).length)
    (word : lastWordStamp before = some t)
    (byte : stampBehind (before ++ [i]) ((upcoming i r).length - frontLength i r) = some t) :
    BroughtByLastWord i r before := by
  rw [stampBehind_concat] at byte
  have size : (upcoming i r).length = (held r).length + (acceptedBytes i).length :=
    List.length_append
  split at byte
  · -- The last byte arrives in this cycle, and its word would bear the stamp of one before.
    rename_i now
    have valid : i.dsDataValid = true := by
      by_contra invalid
      simp [acceptedBytes, invalid] at now
    have here := words_valid before valid
    rw [StampsDiffer, here, List.map_append, List.nodup_append] at differ
    obtain ⟨w, last, stamp⟩ := Option.map_eq_some_iff.mp word
    have member := List.mem_map_of_mem (f := Inputs.dsTimestamp) (List.mem_of_getLast? last)
    rw [stamp, ← Option.some.inj byte] at member
    exact absurd rfl (differ.2.2 _ member i.dsTimestamp (by simp))
  · rename_i earlier
    have early : StampsDiffer before := by
      rw [StampsDiffer, List.filter_append, List.map_append] at differ
      exact (List.nodup_append.mp differ).1
    have last := lastWord_of_stampBehind early word byte
    exact ⟨by omega, by omega⟩

section Runs

variable (sub : Submodules) (appends : Appends sub) (extracts : ExtractsLittleEndian sub)
  (units : List SeqUnit) (r₀ : Regs) (init : r₀.state = .reset)

include appends extracts init

/-- A cycle of a run in front of well-formed units emits a command when one is due.

The command bears the stamp of the last word before, and its message ends where the bytes behind it
begin. -/
theorem command_due {before : List Inputs} {i : Inputs} (respects : Respects sub r₀ (before ++ [i]))
    (running : NoReset (before ++ [i]))
    (good : ∀ j ∈ before ++ [i], j.dsDataValid = true → j.dsEofBad = false)
    (sent : acceptedAll (before ++ [i]) <+: unitBytes units) :
    ((run sub r₀ (before ++ [i])).cmdValid = true ↔ CommandDue i (run sub r₀ before)) ∧
      (CommandDue i (run sub r₀ before) →
        some (run sub r₀ (before ++ [i])).cmd.recvTime = lastWordStamp before ∧
          lastByteStamp sub r₀ (before ++ [i]) = stampBehind (before ++ [i])
            ((upcoming i (run sub r₀ before)).length - frontLength i (run sub r₀ before))) := by
  obtain ⟨calm, taken, _⟩ :=
    units_consumed sub appends extracts units r₀ init (before ++ [i]) respects running good sent
  obtain ⟨calmBefore, quiet, _⟩ := calm.split
  obtain ⟨early, allowed, -⟩ := respects.split
  have awake : i.reset = false := running i (by simp)
  have runningBefore : NoReset before := fun j member => running j (by simp [member])
  -- Behind ST_RESET the buffer is in bounds.
  have fits : (run sub r₀ before).state = .readMsg →
      before ≠ [] ∧ (run sub r₀ before).bufferLength.toNat ≤ 72 := by
    intro state
    have some : before ≠ [] := by
      rintro rfl
      rw [show run sub r₀ [] = r₀ from rfl, init] at state
      cases state
    exact ⟨some, (conserved_of_reset appends some init early runningBefore calmBefore).2⟩
  rw [run_concat]
  refine ⟨commandDue_iff appends (fun state => (fits state).2) allowed awake quiet, fun due => ?_⟩
  obtain ⟨some, bound⟩ := fits due.1
  obtain ⟨behind, sampled⟩ := held_behind appends bound allowed awake quiet due
  have emitted := (commandDue_iff appends (fun _ => bound) allowed awake quiet).mpr due
  have message := message_of_cmdValid awake quiet emitted
  constructor
  · -- The message is not the first item taken, so a word was accepted before.
    have consumed := (conserved_of_reset appends some init early runningBefore calmBefore).1
    have accepted : acceptedAll before ≠ [] := by
      intro none
      rw [none] at consumed
      simp only [events_append, events, message, Option.toList_some, List.append_nil] at taken
      exact header_before_message taken (List.append_eq_nil_iff.mp consumed).1
    obtain ⟨t, last⟩ := lastWordStamp_of_accepted accepted
    rw [sampled, run_recvTimeR, last, Option.getD_some]
  · -- The bytes consumed end with the message, and the others are still held.
    obtain ⟨all, -⟩ := conserved_of_reset appends (List.append_ne_nil_of_right_ne_nil before
      (List.cons_ne_nil i [])) init respects running calm
    have sizes := congrArg List.length all
    rw [List.length_append, run_concat, behind, ← length_stamps] at sizes
    have positive : 0 < (consumedAll sub r₀ (before ++ [i])).length := by
      have long := consumption_long (taken.subset (event_mem message))
      rw [consumedAll, events_append, events, message]
      simp only [Option.toList_some, events, List.append_nil, List.flatMap_append, List.flatMap_cons,
        List.flatMap_nil, List.length_append, Event.bytes]
      omega
    rw [lastByteStamp, stampBehind, List.getElem?_reverse (by omega)]
    congr 1
    omega

/-- Commands bear the right time stamps if messages wait for no word and none passes.

If the words bear different time stamps, these are all the runs in which they do. -/
theorem pairsReceiveTime_iff (is : List Inputs) (respects : Respects sub r₀ is)
    (running : NoReset is) (good : ∀ i ∈ is, i.dsDataValid = true → i.dsEofBad = false)
    (sent : acceptedAll is <+: unitBytes units) :
    (DispatchedOnLastWord sub r₀ is → PairsReceiveTime sub r₀ is) ∧
      (StampsDiffer is → (PairsReceiveTime sub r₀ is ↔ DispatchedOnLastWord sub r₀ is)) := by
  -- In each cycle with a command two time stamps are compared.
  have cycle : ∀ k (within : k < is.length),
      ((run sub r₀ (is.take (k + 1))).cmdValid = true ↔
        CommandDue is[k] (run sub r₀ (is.take k))) ∧
      (CommandDue is[k] (run sub r₀ (is.take k)) →
        some (run sub r₀ (is.take (k + 1))).cmd.recvTime = lastWordStamp (is.take k) ∧
          lastByteStamp sub r₀ (is.take (k + 1)) = stampBehind (is.take k ++ [is[k]])
            ((upcoming is[k] (run sub r₀ (is.take k))).length -
              frontLength is[k] (run sub r₀ (is.take k)))) := by
    intro k within
    have upto : is.take (k + 1) = is.take k ++ [is[k]] := List.take_succ_eq_append_getElem within
    have cut : is = (is.take k ++ [is[k]]) ++ is.drop (k + 1) := by
      rw [← upto, List.take_append_drop]
    have member : ∀ j ∈ is.take k ++ [is[k]], j ∈ is := by
      intro j member
      rw [cut]
      exact List.mem_append_left _ member
    have early : acceptedAll (is.take k ++ [is[k]]) <+: acceptedAll is := by
      refine ⟨acceptedAll (is.drop (k + 1)), ?_⟩
      rw [acceptedAll, acceptedAll, ← List.flatMap_append, ← cut, acceptedAll]
    have respects' : Respects sub r₀ (is.take k ++ [is[k]]) := by
      rw [cut] at respects
      exact respects.split.1
    rw [upto]
    exact command_due sub appends extracts units r₀ init respects'
      (fun j inside => running j (member j inside)) (fun j inside => good j (member j inside))
      (early.trans sent)
  have enough : DispatchedOnLastWord sub r₀ is → PairsReceiveTime sub r₀ is := by
    intro dispatched k within emitted
    obtain ⟨emits, stamped⟩ := cycle k within
    have due := emits.mp emitted
    obtain ⟨last, byte⟩ := stamped due
    rw [last, byte]
    exact (dispatched k within due).stamped
  refine ⟨enough, fun differ => ⟨fun pairs k within due => ?_, enough⟩⟩
  -- With different stamps the comparison says which word it was.
  obtain ⟨emits, stamped⟩ := cycle k within
  obtain ⟨last, byte⟩ := stamped due
  have same := pairs k within (emits.mpr due)
  rw [byte] at same
  have parts : is.take k ++ [is[k]] = is.take (k + 1) :=
    (List.take_succ_eq_append_getElem within).symm
  have early : StampsDiffer (is.take k ++ [is[k]]) := by
    rw [parts]
    exact List.Nodup.sublist (((List.take_sublist _ is).filter _).map _) differ
  exact broughtByLastWord_of_stamped early due.2.2.1 last.symm same.symm

end Runs

/-- A word with a time stamp. -/
def wordAt (t : BitVec 64) (bytes : List Byte) : Inputs :=
  { word bytes with dsTimestamp := t }

/-- An Order Executed message of 26 bytes. -/
def executedMessage : Message 2 64 :=
  ⟨[26, 0x23, 1, 2, 3, 4, 0x41, 0x42, 0x43, 0x44, 0x45, 0x46, 0x47, 0x48, 10, 0, 0, 0,
    1, 2, 3, 4, 5, 6, 7, 8], by decide, by decide, by decide⟩

/-- A unit of that message. -/
def executedUnit : SeqUnit :=
  ⟨[34, 0, 1, 1, 7, 0, 0, 0], [executedMessage], by decide, by simp, by decide⟩

/-- The unit word by word, the message completed by the word with time stamp 5. -/
def executedWords : List Inputs :=
  [idle, wordAt 1 [34, 0, 1, 1, 7, 0, 0, 0], wordAt 2 [26, 0x23, 1, 2, 3, 4, 0x41, 0x42],
    wordAt 3 [0x43, 0x44, 0x45, 0x46, 0x47, 0x48, 10, 0], wordAt 4 [0, 0, 1, 2, 3, 4, 5, 6],
    wordAt 5 [7, 8]]

/-- A message that is dispatched as its last word arrives bears the time stamp before. -/
theorem receiveTime_one_word_early :
    ¬ ∀ (sub : Submodules) (units : List SeqUnit) (r₀ : Regs) (is : List Inputs), Appends sub →
      ExtractsLittleEndian sub → r₀.state = .reset → Respects sub r₀ is → NoReset is →
      (∀ i ∈ is, i.dsDataValid = true → i.dsEofBad = false) →
      acceptedAll is <+: unitBytes units → PairsReceiveTime sub r₀ is := by
  -- The command bears time stamp 4, and the last byte came with time stamp 5.
  intro always
  have pairs := always reference [executedUnit] resetRegs executedWords reference_appends
    reference_extracts rfl (by decide +kernel) (by simp [NoReset, executedWords, idle, wordAt, word])
    (by simp [executedWords, idle, wordAt, word]) (by decide +kernel)
  have early : ¬ PairsReceiveTime reference resetRegs executedWords := by decide +kernel
  exact early pairs

/-- A unit of one message that is nothing but its length and its type. -/
def shortUnit : SeqUnit :=
  ⟨[10, 0, 1, 1, 7, 0, 0, 0], [⟨[2, 0x23], by decide, by decide, by decide⟩], by decide, by simp,
    by decide⟩

/-- The message arrives with the end of its header and waits one cycle. -/
def shortWords : List Inputs :=
  [idle, wordAt 1 [10, 0, 1, 1], wordAt 2 [7, 0, 0, 0, 2, 0x23], idle]

/-- A message that waits for its header bears the time stamp of its own word. -/
theorem pairsReceiveTime_short :
    PairsReceiveTime reference resetRegs shortWords ∧
      (run reference resetRegs shortWords).cmdValid = true ∧
      (run reference resetRegs shortWords).cmd.recvTime = 2 := by
  -- The only command is emitted in the last cycle, behind the word with time stamp 2.
  refine ⟨(pairsReceiveTime_iff reference reference_appends reference_extracts [shortUnit] resetRegs
    rfl shortWords (by decide +kernel) (by simp [NoReset, shortWords, idle, wordAt, word])
    (by simp [shortWords, idle, wordAt, word]) (by decide +kernel)).1 (by decide +kernel), ?_, ?_⟩
  all_goals decide +kernel

end MarketData.Bats
