import Mathlib.Data.List.Basic
import Mathlib.Tactic.Common

/-! Linear feedback shift registers: linearity, symbolic runs, and what a burst of errors leaves. -/

namespace MarketData

section Register

variable {w : Nat} (poly : BitVec w)

/-- A bit enters: the register moves up, and the polynomial is added for a bit unlike the top one. -/
def shiftBit (r : BitVec w) (b : Bool) : BitVec w :=
  (r <<< 1) ^^^ (if r.msb ^^ b then poly else 0#w)

/-- The bits of a list enter one after the other. -/
def shiftBits (r : BitVec w) (bs : List Bool) : BitVec w :=
  bs.foldl (shiftBit poly) r

variable {poly}

/-- The bits of two lists enter one list after the other. -/
theorem shiftBits_append (r : BitVec w) (bs cs : List Bool) :
    shiftBits poly r (bs ++ cs) = shiftBits poly (shiftBits poly r bs) cs :=
  List.foldl_append

/-- A step is additive in the register and in the bit. -/
theorem shiftBit_xor (r s : BitVec w) (a b : Bool) :
    shiftBit poly (r ^^^ s) (a ^^ b) = shiftBit poly r a ^^^ shiftBit poly s b := by
  -- The feedback of the sum is the sum of both feedbacks, and two polynomials cancel.
  have feedback : (if (r ^^^ s).msb ^^ (a ^^ b) then poly else 0#w) =
      (if r.msb ^^ a then poly else 0#w) ^^^ (if s.msb ^^ b then poly else 0#w) := by
    rw [BitVec.msb_xor]
    cases r.msb <;> cases s.msb <;> cases a <;> cases b <;> simp
  unfold shiftBit
  rw [feedback, BitVec.shiftLeft_xor_distrib]
  ac_rfl

/-- A run is additive in the register and in its bits. -/
theorem shiftBits_xor (r s : BitVec w) {bs es : List Bool} (same : bs.length = es.length) :
    shiftBits poly (r ^^^ s) (List.zipWith xor bs es) =
      shiftBits poly r bs ^^^ shiftBits poly s es := by
  -- Step by step along both lists.
  induction bs generalizing r s es with
  | nil =>
    obtain rfl := List.length_eq_zero_iff.mp same.symm
    rfl
  | cons b bs ih =>
    obtain ⟨e, es, rfl⟩ := List.exists_cons_of_length_eq_add_one same.symm
    have fewer : bs.length = es.length := by simpa using same
    simp only [shiftBits, List.zipWith_cons_cons, List.foldl_cons, shiftBit_xor]
    exact ih _ _ fewer

/-- The zero register stays zero when zeros enter. -/
theorem shiftBits_zeros (n : Nat) : shiftBits poly 0#w (List.replicate n false) = 0#w := by
  -- A single step gives zero again.
  have once : shiftBit poly 0#w false = 0#w := by simp [shiftBit]
  induction n with
  | zero => rfl
  | succ n ih =>
    rw [List.replicate_succ, shiftBits, List.foldl_cons, once]
    exact ih

/-- The bits as they stand in the register, the first one on top. -/
def load : List Bool → BitVec w
  | [] => 0#w
  | b :: bs => (if b then BitVec.twoPow w (w - 1) else 0#w) ^^^ (load bs >>> 1)

/-- Bit `i` of a loaded list is the one that enters at the same distance from the top. -/
theorem getLsbD_load (bs : List Bool) (i : Nat) (within : i < w) :
    (load bs : BitVec w).getLsbD (w - 1 - i) = bs.getD i false := by
  -- The head stands on top, and every other bit one place below its place in the rest.
  induction bs generalizing i with
  | nil => simp [load]
  | cons b bs ih =>
    rw [load, BitVec.getLsbD_xor, BitVec.getLsbD_ushiftRight]
    cases i with
    | zero =>
      have beyond : (load bs : BitVec w).getLsbD (1 + (w - 1 - 0)) = false :=
        BitVec.getLsbD_of_ge _ _ (by omega)
      rw [beyond, Bool.xor_false, List.getD_cons_zero]
      cases b
      · simp
      · simp [BitVec.getLsbD_twoPow]
        omega
    | succ i =>
      have place : 1 + (w - 1 - (i + 1)) = w - 1 - i := by omega
      have other : w - 1 ≠ w - 1 - (i + 1) := by omega
      rw [place, ih i (by omega), List.getD_cons_succ]
      cases b
      · simp
      · simp [BitVec.getLsbD_twoPow, other]

/-- Bits that enter one by one could as well be loaded at once, if they fit. -/
theorem shiftBits_load (r : BitVec w) {bs : List Bool} (fits : bs.length ≤ w) :
    shiftBits poly r bs =
      shiftBits poly (r ^^^ load bs) (List.replicate bs.length false) := by
  -- The head is the feedback of the first step; the others move up without touching the top.
  induction bs generalizing r with
  | nil => simp [load, shiftBits]
  | cons b bs ih =>
    rw [List.length_cons] at fits
    have head : shiftBit poly (if b then BitVec.twoPow w (w - 1) else 0#w) b = 0#w := by
      have top : (BitVec.twoPow w (w - 1)).msb = true := by
        rw [BitVec.msb_eq_getLsbD_last, BitVec.getLsbD_twoPow]
        simp
        omega
      have out : BitVec.twoPow w (w - 1) <<< 1 = 0#w := by
        apply BitVec.eq_of_getLsbD_eq
        intro i small
        simp [BitVec.getLsbD_shiftLeft, BitVec.getLsbD_twoPow]
        omega
      cases b
      · simp [shiftBit]
      · simp [shiftBit, top, out]
    have rest : shiftBit poly (load bs >>> 1) false = load bs := by
      have top : ((load bs : BitVec w) >>> 1).msb = false := by
        rw [BitVec.msb_eq_getLsbD_last, BitVec.getLsbD_ushiftRight]
        exact BitVec.getLsbD_of_ge _ _ (by omega)
      have low : (load bs : BitVec w).getLsbD 0 = false := by
        have read := getLsbD_load (w := w) bs (w - 1) (by omega)
        rw [Nat.sub_self] at read
        rw [read, List.getD_eq_getElem?_getD, List.getElem?_eq_none (by omega)]
        rfl
      have back : (load bs : BitVec w) >>> 1 <<< 1 = load bs := by
        apply BitVec.eq_of_getLsbD_eq
        intro i small
        cases i with
        | zero => simp [low]
        | succ i => simp [Nat.add_comm 1 i]; omega
      simp [shiftBit, top, back]
    have split : r ^^^ load (b :: bs) =
        (r ^^^ (if b then BitVec.twoPow w (w - 1) else 0#w)) ^^^ (load bs >>> 1) := by
      rw [load, BitVec.xor_assoc]
    have first : shiftBit poly (r ^^^ load (b :: bs)) false = shiftBit poly r b ^^^ load bs := by
      have outer := @shiftBit_xor w poly (r ^^^ (if b then BitVec.twoPow w (w - 1) else 0#w))
        (load bs >>> 1) false false
      have inner := @shiftBit_xor w poly r (if b then BitVec.twoPow w (w - 1) else 0#w) b b
      rw [Bool.xor_self] at outer inner
      rw [split, outer, inner, head, rest, BitVec.xor_zero]
    rw [List.length_cons, List.replicate_succ, shiftBits, shiftBits, List.foldl_cons,
      List.foldl_cons, first]
    exact ih _ (by omega)

section Invertible

variable (odd : poly.getLsbD 0 = true)
include odd

/-- Nothing but zero is emptied by a zero bit, if the polynomial has a constant term. -/
theorem eq_zero_of_shiftBit {r : BitVec w} (emptied : shiftBit poly r false = 0#w) : r = 0#w := by
  -- The lowest bit is the feedback, so the top bit was clear; the others only moved up.
  have positive : 0 < w := by
    rcases Nat.eq_zero_or_pos w with rfl | positive
    · simp at odd
    · exact positive
  have top : r.msb = false := by
    have lowest := congrArg (·.getLsbD 0) emptied
    simp only [shiftBit, BitVec.getLsbD_xor, Bool.xor_false] at lowest
    cases msb : r.msb
    · rfl
    · simp [msb, odd] at lowest
  apply BitVec.eq_of_getLsbD_eq
  intro i small
  rw [BitVec.getLsbD_zero]
  rcases Nat.lt_or_ge (i + 1) w with below | last
  · have moved := congrArg (·.getLsbD (i + 1)) emptied
    simpa [shiftBit, top, below, small] using moved
  · have place : i = w - 1 := by omega
    rw [place, ← BitVec.msb_eq_getLsbD_last, top]

/-- Nothing but zero is emptied by any number of zero bits. -/
theorem eq_zero_of_shiftBits {r : BitVec w} {n : Nat}
    (emptied : shiftBits poly r (List.replicate n false) = 0#w) : r = 0#w := by
  -- Step by step from the last one back.
  induction n generalizing r with
  | zero => exact emptied
  | succ n ih =>
    rw [List.replicate_succ, shiftBits, List.foldl_cons] at emptied
    exact eq_zero_of_shiftBit odd (ih emptied)

/-- From one register, lists that fit into it lead to one register only if they are the same. -/
theorem eq_of_shiftBits_eq {r : BitVec w} {bs cs : List Bool} (same : bs.length = cs.length)
    (fits : bs.length ≤ w) (equal : shiftBits poly r bs = shiftBits poly r cs) : bs = cs := by
  -- Loaded at once, the difference of both lists is emptied by zeros, so there is none.
  have zeros : List.zipWith xor (List.replicate bs.length false) (List.replicate bs.length false) =
      List.replicate bs.length false := by
    simp
  rw [shiftBits_load r fits, shiftBits_load r (same ▸ fits), ← same,
    ← BitVec.xor_eq_zero_iff, ← shiftBits_xor _ _ rfl, zeros] at equal
  have loaded : r ^^^ load bs = r ^^^ load cs :=
    BitVec.xor_eq_zero_iff.mp (eq_zero_of_shiftBits odd equal)
  have loads := (BitVec.xor_right_inj r).mp loaded
  apply List.ext_getElem same
  intro i inBs inCs
  have bit := congrArg (·.getLsbD (w - 1 - i)) loads
  simp only [getLsbD_load _ i (by omega : i < w)] at bit
  simpa [List.getD_eq_getElem?_getD, List.getElem?_eq_getElem inBs,
    List.getElem?_eq_getElem inCs] using bit

/-- A burst that is no longer than the register never cancels out, wherever it lies. -/
theorem shiftBits_burst (before after : Nat) {burst : List Bool} (fits : burst.length ≤ w)
    (some : true ∈ burst) :
    shiftBits poly 0#w
      (List.replicate before false ++ burst ++ List.replicate after false) ≠ 0#w := by
  -- The zeros in front do nothing, and those behind would have to empty the register.
  intro cancelled
  rw [shiftBits_append, shiftBits_append, shiftBits_zeros] at cancelled
  have emptied := eq_zero_of_shiftBits odd cancelled
  have still := emptied.trans (@shiftBits_zeros w poly burst.length).symm
  have none := eq_of_shiftBits_eq odd (by rw [List.length_replicate]) fits still
  rw [none] at some
  exact absurd (List.eq_of_mem_replicate some) (by decide)

end Invertible

/-- The bits of the register itself, the top one first. -/
def topBits (r : BitVec w) : List Bool :=
  (List.range w).map r.getMsbD

/-- A register that is fed its own bits is emptied. -/
theorem shiftBits_topBits (r : BitVec w) : shiftBits poly r (topBits r) = 0#w := by
  -- Loaded at once, the bits are the register again.
  have length : (topBits r).length = w := by simp [topBits]
  have own : load (topBits r) = r := by
    apply BitVec.eq_of_getLsbD_eq
    intro i small
    have read := getLsbD_load (w := w) (topBits r) (w - 1 - i) (by omega)
    have place : w - 1 - (w - 1 - i) = i := by omega
    rw [place] at read
    rw [read, List.getD_eq_getElem?_getD, topBits, List.getElem?_map,
      List.getElem?_range (by omega), Option.map_some, Option.getD_some, BitVec.getMsbD,
      place]
    simp
    omega
  rw [shiftBits_load r (Nat.le_of_eq length), own, BitVec.xor_self, shiftBits_zeros]

end Register

section Forms

variable {F : Type} (add : F → F → F) (zero : F)

/-- A step of a register that holds a linear form in every place, the lowest place first. -/
def shiftForm (taps : List Bool) (fs : List F) (x : F) : List F :=
  let feedback := add (fs.getLastD zero) x
  List.zipWith (fun tap f => if tap then add f feedback else f) taps (zero :: fs)

/-- The forms have the bits of the register as their values. -/
def FormsRead {w : Nat} (value : F → Bool) (fs : List F) (r : BitVec w) : Prop :=
  fs.map value = (List.range w).map r.getLsbD

variable {add zero} {value : F → Bool} (additive : ∀ f g, value (add f g) = (value f ^^ value g))
  (absent : value zero = false)
include additive absent

/-- A step of forms is a step of the register that they read. -/
theorem FormsRead.shift {w : Nat} {poly : BitVec w} {taps : List Bool} {fs : List F} {r : BitVec w}
    (reads : FormsRead value fs r) (tapped : taps = (List.range w).map poly.getLsbD) (x : F) :
    FormsRead value (shiftForm add zero taps fs x) (shiftBit poly r (value x)) := by
  -- Place by place: what was below, and the feedback where there is a tap.
  have length : fs.length = w := by
    simpa using congrArg List.length reads
  have place : ∀ i, ∀ h : i < fs.length, value fs[i] = r.getLsbD i := by
    intro i h
    have same := congrArg (·[i]?) reads
    simpa [h, show i < w by omega] using same
  have top : value (fs.getLastD zero) = r.msb := by
    rw [BitVec.msb_eq_getLsbD_last]
    rcases List.eq_nil_or_concat fs with rfl | ⟨others, last, rfl⟩
    · obtain rfl : w = 0 := by simpa using length.symm
      simpa using absent
    · have here := place (w - 1) (by simp at length ⊢; omega)
      simp only [List.concat_eq_append] at here length ⊢
      rw [← here]
      simp at length
      simp [← length]
  have feedback : value (add (fs.getLastD zero) x) = (r.msb ^^ value x) := by
    rw [additive, top]
  unfold FormsRead
  apply List.ext_getElem
  · simp [shiftForm, tapped, length]
  · intro i _ inRange
    have small : i < w := by simpa using inRange
    have inside : i < (zero :: fs).length := by
      rw [List.length_cons, length]
      omega
    have below : value (zero :: fs)[i] = (r <<< 1).getLsbD i := by
      cases i with
      | zero => simpa using absent
      | succ i => simp [place i (by omega), small, show i < w by omega]
    have added : (if r.msb ^^ value x then poly else 0#w).getLsbD i =
        (poly.getLsbD i && (r.msb ^^ value x)) := by
      cases (r.msb ^^ value x) <;> simp
    simp only [shiftForm, List.getElem_map, List.getElem_zipWith, List.getElem_range, tapped]
    rw [shiftBit, BitVec.getLsbD_xor, added]
    cases poly.getLsbD i
    · rw [if_neg Bool.false_ne_true, below, Bool.false_and, Bool.xor_false]
    · rw [if_pos rfl, additive, below, feedback, Bool.true_and]

/-- A run of forms is a run of the register that they read. -/
theorem FormsRead.run {w : Nat} {poly : BitVec w} {taps : List Bool} {fs : List F} {r : BitVec w}
    (reads : FormsRead value fs r) (tapped : taps = (List.range w).map poly.getLsbD) (xs : List F) :
    FormsRead value (xs.foldl (shiftForm add zero taps) fs) (shiftBits poly r (xs.map value)) := by
  -- Form by form.
  induction xs generalizing fs r with
  | nil => exact reads
  | cons x xs ih =>
    rw [List.foldl_cons, List.map_cons, shiftBits, List.foldl_cons]
    exact ih (reads.shift additive absent tapped x)

end Forms

end MarketData
