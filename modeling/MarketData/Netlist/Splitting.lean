import MarketData.Netlist.Parser

/-! Splitting a payload by its length bytes: when the two loops end, and what the slices are. -/

namespace MarketData

/-- The splitting loop of `pcap_frames`: the slices `p[o:o + p[o]]` from `o` on.

`none` stands for a loop that a zero length byte keeps at one offset until the fuel is gone. -/
def frameMsgs (p : List Byte) : Nat → Nat → Option (List (List Byte))
  | 0, o => if o < p.length then none else some []
  | fuel + 1, o =>
    match p[o]? with
    | some len =>
      (frameMsgs p fuel (o + len.toNat)).map ((p.drop o).take len.toNat :: ·)
    | none => some []

/-- A length byte stands at `at_`, counted on from `start` by the lengths in between. -/
inductive LengthAt (p : List Byte) (start : Nat) : Nat → Byte → Prop
  | first {len : Byte} : p[start]? = some len → LengthAt p start start len
  | next {o : Nat} {len later : Byte} :
      LengthAt p start o len → p[o + len.toNat]? = some later →
        LengthAt p start (o + len.toNat) later

/-- The length bytes from an offset on are the one that stands there and those behind it. -/
theorem lengthAt_forall {p : List Byte} {start : Nat} {len : Byte} {holds : Nat → Byte → Prop}
    (here : p[start]? = some len) :
    (∀ o later, LengthAt p start o later → holds o later) ↔
      holds start len ∧ ∀ o later, LengthAt p (start + len.toNat) o later → holds o later := by
  constructor
  · intro all
    refine ⟨all start len (.first here), fun o later found => all o later ?_⟩
    -- Induction on the way to the offset, which the first length byte leads on to.
    induction found with
    | first found => exact .next (.first here) found
    | next _ found ih => exact .next ih found
  · rintro ⟨first, rest⟩ o later found
    -- The second length byte is where the rest starts.
    have reached : (o = start ∧ later = len) ∨ LengthAt p (start + len.toNat) o later := by
      induction found with
      | first found => exact Or.inl ⟨rfl, Option.some.inj (found.symm.trans here)⟩
      | next _ found ih =>
        rcases ih with ⟨rfl, rfl⟩ | ih
        · exact Or.inr (.first found)
        · exact Or.inr (.next ih found)
    rcases reached with ⟨rfl, rfl⟩ | reached
    · exact first
    · exact rest o later reached

/-- No length byte stands behind the end. -/
theorem not_lengthAt {p : List Byte} {start o : Nat} {len : Byte} (ended : p[start]? = none) :
    ¬ LengthAt p start o len := by
  -- Every way starts with the byte at the start.
  intro found
  induction found with
  | first found => exact absurd (ended.symm.trans found) (by simp)
  | next _ _ ih => exact ih

/-- Both loops, with what they record of a message, which may raise. -/
def splitLoop {β : Type} (item : Nat → Byte → Option β) (p : List Byte) :
    Nat → Nat → Option (List β)
  | 0, o => if o < p.length then none else some []
  | fuel + 1, o =>
    match p[o]? with
    | some len => (item o len).bind fun msg =>
        (splitLoop item p fuel (o + len.toNat)).map (msg :: ·)
    | none => some []

/-- `pcap_frames` records slices, which never raises. -/
theorem frameMsgs_eq (p : List Byte) (fuel o : Nat) :
    frameMsgs p fuel o = splitLoop (fun o len => some ((p.drop o).take len.toNat)) p fuel o := by
  -- Induction on the fuel.
  induction fuel generalizing o with
  | zero => rfl
  | succ fuel ih =>
    rw [frameMsgs, splitLoop]
    cases p[o]? with
    | none => rfl
    | some len => simp only [ih, Option.bind_some]

/-- `pcap_msgs` records offset, length and type, and raises without a type byte. -/
theorem splitMsgs_eq (p : List Byte) (fuel o : Nat) :
    splitMsgs p fuel o =
      splitLoop (fun o len => p[o + 1]?.map fun ty => (o, len, ty)) p fuel o := by
  -- Induction on the fuel.
  induction fuel generalizing o with
  | zero => rfl
  | succ fuel ih =>
    rw [splitMsgs, splitLoop]
    by_cases within : o < p.length
    · rw [if_pos within, List.getElem?_eq_getElem within]
      cases p[o + 1]? with
      | none => rfl
      | some ty => simp only [ih, Option.map_some, Option.bind_some]
    · rw [if_neg within, List.getElem?_eq_none (by omega)]

section Loop

variable {β : Type} {item : Nat → Byte → Option β} {p : List Byte}

/-- A zero length byte keeps the loop where it is. -/
theorem splitLoop_zero {o : Nat} (here : p[o]? = some 0#8) (fuel : Nat) :
    splitLoop item p fuel o = none := by
  -- Induction on the fuel; every turn starts at the same offset.
  induction fuel with
  | zero =>
    obtain ⟨within, -⟩ := List.getElem?_eq_some_iff.mp here
    rw [splitLoop, if_pos within]
  | succ fuel ih =>
    rw [splitLoop, here]
    simp [ih]

/-- A loop that ends has met no zero length byte and recorded every message. -/
theorem splitLoop_ended {fuel o : Nat} {msgs : List β} (ended : splitLoop item p fuel o = some msgs) :
    ∀ at_ len, LengthAt p o at_ len → len ≠ 0#8 ∧ (item at_ len).isSome := by
  -- Induction on the fuel.
  induction fuel generalizing o msgs with
  | zero =>
    intro at_ len found
    refine absurd found (not_lengthAt (List.getElem?_eq_none ?_))
    by_contra within
    rw [splitLoop, if_pos (by omega)] at ended
    exact absurd ended (by simp)
  | succ fuel ih =>
    cases here : p[o]? with
    | none => exact fun at_ len found => absurd found (not_lengthAt here)
    | some len =>
      have nonzero : len ≠ 0#8 := by
        rintro rfl
        rw [splitLoop_zero here] at ended
        exact absurd ended (by simp)
      rw [splitLoop, here] at ended
      obtain ⟨msg, recorded, rest⟩ := Option.bind_eq_some_iff.mp ended
      obtain ⟨msgs, rest, -⟩ := Option.map_eq_some_iff.mp rest
      rw [lengthAt_forall here]
      exact ⟨⟨nonzero, by rw [recorded]; rfl⟩, ih rest⟩

/-- Without a zero length byte, a turn for every byte is enough for the loop to end. -/
theorem splitLoop_ends {fuel o : Nat}
    (ok : ∀ at_ len, LengthAt p o at_ len → len ≠ 0#8 ∧ (item at_ len).isSome)
    (enough : p.length ≤ o + fuel) : ∃ msgs, splitLoop item p fuel o = some msgs := by
  -- Induction on the fuel; every length byte moves the offset on.
  induction fuel generalizing o with
  | zero => exact ⟨[], by rw [splitLoop, if_neg (by omega)]⟩
  | succ fuel ih =>
    rw [splitLoop]
    cases here : p[o]? with
    | none => exact ⟨[], rfl⟩
    | some len =>
      obtain ⟨⟨nonzero, recorded⟩, rest⟩ := (lengthAt_forall here).mp ok
      obtain ⟨msg, recorded⟩ := Option.isSome_iff_exists.mp recorded
      have positive : 0 < len.toNat :=
        Nat.pos_of_ne_zero fun zero => nonzero (BitVec.eq_of_toNat_eq zero)
      obtain ⟨msgs, rest⟩ := ih rest (by omega)
      exact ⟨msg :: msgs, by simp only [recorded, rest, Option.bind_some, Option.map_some]⟩

/-- The loop ends without an exception exactly when every length byte allows it. -/
theorem splitLoop_ends_iff {o : Nat} :
    (∃ fuel msgs, splitLoop item p fuel o = some msgs) ↔
      ∀ at_ len, LengthAt p o at_ len → len ≠ 0#8 ∧ (item at_ len).isSome :=
  ⟨fun ⟨_, _, ended⟩ => splitLoop_ended ended,
    fun ok => ⟨p.length, splitLoop_ends ok (Nat.le_add_left _ _)⟩⟩

end Loop

/-- A message slice is as long as its first byte says. -/
def LedByLength (slice : List Byte) : Prop :=
  slice.head?.map BitVec.toNat = some slice.length

/-- The slices of a loop that ends tile the payload, and only the last one may be cut short. -/
theorem frameMsgs_tile {p : List Byte} {fuel o : Nat} {slices : List (List Byte)}
    (ended : frameMsgs p fuel o = some slices) :
    slices.flatten = p.drop o ∧ ∀ slice ∈ slices.dropLast, LedByLength slice := by
  -- Induction on the fuel; the slices behind the first one tile what it leaves.
  induction fuel generalizing o slices with
  | zero =>
    rw [frameMsgs] at ended
    by_cases within : o < p.length
    · rw [if_pos within] at ended
      exact absurd ended (by simp)
    · rw [if_neg within] at ended
      obtain rfl := Option.some.inj ended
      simp [List.drop_eq_nil_of_le (Nat.le_of_not_lt within)]
  | succ fuel ih =>
    cases here : p[o]? with
    | none =>
      rw [frameMsgs, here] at ended
      obtain rfl := Option.some.inj ended
      simp [List.drop_eq_nil_of_le (List.getElem?_eq_none_iff.mp here)]
    | some len =>
      have nonzero : len ≠ 0#8 := by
        rintro rfl
        rw [frameMsgs_eq, splitLoop_zero here] at ended
        exact absurd ended (by simp)
      rw [frameMsgs, here] at ended
      obtain ⟨later, rest, rfl⟩ := Option.map_eq_some_iff.mp ended
      obtain ⟨tiled, led⟩ := ih rest
      constructor
      · rw [List.flatten_cons, tiled, ← List.drop_drop, List.take_append_drop]
      · intro slice member
        cases later with
        | nil => exact absurd member (by simp)
        | cons second later =>
          -- Something is left behind the first slice, so it is not cut short.
          rw [List.dropLast_cons_cons, List.mem_cons] at member
          rcases member with rfl | member
          · have whole : o + len.toNat < p.length := by
              by_contra past
              cases fuel with
              | zero => simp [frameMsgs, past] at rest
              | succ fuel =>
                rw [frameMsgs, List.getElem?_eq_none (by omega)] at rest
                exact absurd rest (by simp)
            have positive : len.toNat ≠ 0 := fun zero => nonzero (BitVec.eq_of_toNat_eq zero)
            simp only [LedByLength, List.head?_take, if_neg positive, List.head?_drop, here,
              Option.map_some, List.length_take, List.length_drop, Option.some.injEq]
            omega
          · exact led slice member

/-- The loop of `pcap_frames` ends exactly when it meets no zero length byte. -/
theorem frameMsgs_ends_iff (p : List Byte) (o : Nat) :
    (∃ fuel slices, frameMsgs p fuel o = some slices) ↔
      ∀ at_ len, LengthAt p o at_ len → len ≠ 0#8 := by
  simp only [frameMsgs_eq, splitLoop_ends_iff, Option.isSome_some, and_true]

/-- The loop of `pcap_msgs` also needs a byte behind every length byte. -/
theorem splitMsgs_ends_iff (p : List Byte) (o : Nat) :
    (∃ fuel msgs, splitMsgs p fuel o = some msgs) ↔
      ∀ at_ len, LengthAt p o at_ len → len ≠ 0#8 ∧ at_ + 1 < p.length := by
  simp only [splitMsgs_eq, splitLoop_ends_iff, Option.isSome_map, isSome_getElem?]

/-- Both loops end without an exception, and the slices tile the payload. -/
def SplitsAndTiles (p : List Byte) : Prop :=
  (∃ fuel msgs, splitMsgs p fuel 8 = some msgs) ∧
    ∃ fuel slices, frameMsgs p fuel 8 = some slices ∧ slices.flatten = p.drop 8 ∧
      ∀ slice ∈ slices.dropLast, LedByLength slice

/-- Splitting ends and tiles exactly when the length bytes are nonzero and none is the last byte. -/
theorem splitsAndTiles_iff (p : List Byte) :
    SplitsAndTiles p ↔ ∀ o len, LengthAt p 8 o len → len ≠ 0#8 ∧ o + 1 < p.length := by
  constructor
  · exact fun splits => (splitMsgs_ends_iff p 8).mp splits.1
  · intro ok
    refine ⟨(splitMsgs_ends_iff p 8).mpr ok, ?_⟩
    -- The slicing loop asks for less, and its slices tile whatever it ends on.
    obtain ⟨fuel, slices, ended⟩ :=
      (frameMsgs_ends_iff p 8).mpr fun o len found => (ok o len found).1
    exact ⟨fuel, slices, ended, frameMsgs_tile ended⟩

/-- A zero length byte behind the unit header, and a payload that ends with a length byte. -/
theorem zero_and_lone_length_do_not_split :
    ¬ SplitsAndTiles [9, 0, 0, 1, 7, 0, 0, 0, 0] ∧ ¬ SplitsAndTiles [9, 0, 0, 1, 7, 0, 0, 0, 1] := by
  -- On a length byte of zero the loop never ends, and behind a lone one its bytes are missing.
  constructor
  · rintro ⟨⟨fuel, msgs, ended⟩, -⟩
    rw [splitMsgs_eq, splitLoop_zero rfl] at ended
    exact absurd ended (by simp)
  · rintro ⟨⟨fuel, msgs, ended⟩, -⟩
    rw [splitMsgs_eq] at ended
    exact absurd (splitLoop_ended ended 8 1#8 (.first rfl)).2 (by decide)

end MarketData
