import MarketData.Lib.Stage
import MarketData.Netlist.Filters

/-! Packets on a stream interface, and what shifting them across words does to their bytes. -/

namespace MarketData

/-- The first `n` lanes enabled, the others not. -/
def firstLanes (n : Nat) : Vector Bool 8 :=
  Vector.ofFn fun i => decide (i.val < n)

/-- A cycle that carries neither data nor the end of a frame. -/
def Bus.Quiet (b : Bus) : Prop :=
  b.valid = false ∧ b.eog = false ∧ b.eob = false

/-- A quiet cycle without enabled lanes. -/
def Bus.Silent (b : Bus) : Prop :=
  b.Quiet ∧ b.be = firstLanes 0

instance (b : Bus) : Decidable b.Quiet :=
  inferInstanceAs (Decidable (_ ∧ _ ∧ _))

instance (b : Bus) : Decidable b.Silent :=
  inferInstanceAs (Decidable (_ ∧ _))

/-- Valid words that carry these bytes, every word full but the last, eog on the last. -/
inductive Packet : List Bus → List Byte → Prop
  | last (w : Bus) (n : Nat) : 0 < n → n ≤ 8 → w.valid = true → w.eog = true → w.eob = false →
      w.be = firstLanes n → Packet [w] (w.data.toList.take n)
  | more (w : Bus) {ws bs} : w.valid = true → w.eog = false → w.eob = false →
      w.be = firstLanes 8 → Packet ws bs → Packet (w :: ws) (w.data.toList ++ bs)

/-- Valid words whose last one, and no other, ends the frame; their lanes may be any. -/
inductive Train : List Bus → Prop
  | last (w : Bus) : w.valid = true → w.eog = true → w.eob = false → Train [w]
  | more (w : Bus) {ws} : w.valid = true → w.eog = false → w.eob = false → Train ws →
      Train (w :: ws)

/-- Some lane from `s` on is enabled, so the word reaches into the next output word. -/
def spills (s : Fin 9) (be : Vector Bool 8) : Bool :=
  (be.toList.drop s.val).any id

/-- The output word in which a word is joined to the one before it. -/
def joined (s : Fin 9) (p w : Bus) : Bus :=
  { data := window s p.data w.data, valid := true, be := window s p.be w.be,
    eog := w.eog && !spills s w.be, eob := false }

/-- The flush word for the lanes the last word left over, in the cycle of `q`. -/
def flushed (s : Fin 9) (p q : Bus) : Bus :=
  { data := window s p.data q.data, valid := true, be := window s p.be q.be,
    eog := true, eob := false }

/-- The words `ws` joined to the word before them, and a flush word if the last one spills. -/
def realigned (s : Fin 9) (q : Bus) : Bus → List Bus → List Bus
  | p, [] => if spills s p.be then [flushed s p q] else []
  | p, w :: ws => joined s p w :: realigned s q w ws

/-- A schedule of two moves up by one. -/
@[simp] theorem rotate_two {α : Type} (a b x : α) : rotate #v[a, b] x = #v[b, x] := rfl

/-- A schedule of three moves up by one. -/
@[simp] theorem rotate_three {α : Type} (a b c x : α) : rotate #v[a, b, c] x = #v[b, c, x] := rfl

/-- A word of eight lists its elements. -/
theorem toList_eight {α : Type} (v : Vector α 8) :
    v.toList = [v.get 0, v.get 1, v.get 2, v.get 3, v.get 4, v.get 5, v.get 6, v.get 7] := by
  -- The vector is taken apart into its eight elements.
  obtain ⟨⟨elements⟩, size⟩ := v
  match elements, size with
  | [_, _, _, _, _, _, _, _], _ => rfl

/-- The lanes from 6 on are the last two. -/
theorem spills_six (be : Vector Bool 8) : spills 6 be = (be.get 6 || be.get 7) := by
  -- Two lanes are left after six are dropped.
  rw [spills, toList_eight]
  simp [List.drop]

/-- The lanes from 4 on are the last four. -/
theorem spills_four (be : Vector Bool 8) :
    spills 4 be = (be.get 4 || be.get 5 || be.get 6 || be.get 7) := by
  -- Four lanes are left after four are dropped.
  rw [spills, toList_eight]
  simp [List.drop, Bool.or_assoc]

/-- Bytes that are the address match it. -/
theorem addressMatches_of_take {n : Nat} (addr : Vector Byte n) (data : Vector Byte 8)
    (fits : n ≤ 8) (same : data.toList.take n = addr.toList) :
    addressMatches addr data fits = true := by
  -- Each byte is read off both lists.
  rw [addressMatches, List.all_eq_true]
  intro i _
  have read := congrArg (fun bytes => bytes[i.val]?) same
  have inData : i.val < data.toList.length := by simp; omega
  simp only [List.getElem?_take, i.isLt, if_true, List.getElem?_eq_getElem inData,
    Vector.getElem_toList] at read
  have equal : data.get ⟨i.val, by omega⟩ = addr.get i := by
    show data[i.val] = addr[i.val]
    exact Option.some.inj (by simpa using read)
  simp [equal]

/-- The bytes of a window: the end of the old word, then the start of the new one. -/
theorem window_toList {α : Type} (s : Fin 9) (old new : Vector α 8) :
    (window s old new).toList = old.toList.drop s.val ++ new.toList.take s.val := by
  -- A window position is read from the old word first, then from the new one.
  have bound := s.isLt
  apply List.ext_getElem
  · simp
    omega
  · intro k inWindow _
    have small : k < 8 := by simpa using inWindow
    simp only [window, Vector.getElem_toList, Vector.getElem_ofFn, List.getElem_append,
      List.length_drop, Vector.length_toList, List.getElem_drop, List.getElem_take]
    -- Positions up to the end of the old word are read from it.
    split
    · rename_i old
      show (_ ++ _ : Vector α 16)[s.val + k] = _
      rw [Vector.getElem_append_left (by omega)]
    · rename_i new
      show (_ ++ _ : Vector α 16)[s.val + k] = _
      rw [Vector.getElem_append_right (by omega) (by omega)]
      congr 1
      omega

/-- The first lanes as a list. -/
theorem firstLanes_toList {n : Nat} (small : n ≤ 8) :
    (firstLanes n).toList = List.replicate n true ++ List.replicate (8 - n) false := by
  -- A lane is enabled when its position is among the first.
  apply List.ext_getElem
  · simp
    omega
  · intro k inLanes _
    simp only [firstLanes, Vector.getElem_toList, Vector.getElem_ofFn, List.getElem_append,
      List.length_replicate, List.getElem_replicate]
    split
    · rename_i enabled
      exact decide_eq_true enabled
    · rename_i disabled
      exact decide_eq_false disabled

/-- First lanes reach past `s` exactly when there are more of them. -/
theorem spills_firstLanes (s : Fin 9) {n : Nat} (small : n ≤ 8) :
    spills s (firstLanes n) = decide (s.val < n) := by
  -- Behind position `s` there are `n - s` enabled lanes.
  rw [spills, firstLanes_toList small, List.drop_append, List.any_append, List.drop_replicate,
    List.drop_replicate, List.any_replicate, List.any_replicate]
  rcases Nat.lt_or_ge s.val n with past | within
  · have some : n - s.val ≠ 0 := by omega
    simp [some, past]
  · have none : n - s.val = 0 := by omega
    have not : ¬ s.val < n := by omega
    simp [none, not]

/-- Behind a full word, first lanes move up by the lanes the full word leaves over. -/
theorem window_full (s : Fin 9) {n : Nat} (small : n ≤ 8) :
    window s (firstLanes 8) (firstLanes n) = firstLanes (8 - s.val + min n s.val) := by
  -- The full word gives the lanes it leaves over, the other one those in front of `s`.
  apply Vector.toList_inj.mp
  have bound := s.isLt
  rw [window_toList, firstLanes_toList (by omega), firstLanes_toList (by omega),
    firstLanes_toList (by omega)]
  apply List.ext_getElem
  · simp
    omega
  · intro k inLanes _
    simp only [List.getElem_append, List.getElem_drop, List.getElem_take, List.getElem_replicate,
      List.length_append, List.length_drop, List.length_replicate]
    grind

/-- In front of no lanes, first lanes move down by the lanes already sent. -/
theorem window_none (s : Fin 9) {n : Nat} (small : n ≤ 8) :
    window s (firstLanes n) (firstLanes 0) = firstLanes (n - s.val) := by
  -- The lanes in front of `s` have been sent, and no new ones follow.
  apply Vector.toList_inj.mp
  have bound := s.isLt
  rw [window_toList, firstLanes_toList (by omega), firstLanes_toList (by omega),
    firstLanes_toList (by omega)]
  apply List.ext_getElem
  · simp
    omega
  · intro k inLanes _
    simp only [List.getElem_append, List.getElem_drop, List.getElem_take, List.getElem_replicate,
      List.length_append, List.length_drop, List.length_replicate]
    grind

/-- The words of a packet are a train. -/
theorem Packet.train {ws : List Bus} {bs : List Byte} (packet : Packet ws bs) : Train ws := by
  -- Induction on the packet; its lanes and bytes are forgotten.
  induction packet with
  | last w n some small valid eog eob be => exact .last w valid eog eob
  | more w valid eog eob be rest ih => exact .more w valid eog eob ih

/-- The first word of a long packet is full. -/
theorem Packet.uncons {ws : List Bus} {bs : List Byte} (packet : Packet ws bs)
    (long : 8 < bs.length) :
    ∃ w ws' bs', ws = w :: ws' ∧ bs = w.data.toList ++ bs' ∧ w.valid = true ∧ w.eog = false ∧
      w.eob = false ∧ w.be = firstLanes 8 ∧ Packet ws' bs' := by
  -- A packet of one word has at most eight bytes.
  cases packet with
  | last w n some small valid eog eob be =>
    rw [List.length_take] at long
    omega
  | @more w ws' bs' valid eog eob be rest =>
    exact ⟨w, ws', bs', rfl, rfl, valid, eog, eob, be, rest⟩

/-- Joining the words of a packet to a full word in front of it carries on the byte stream. -/
theorem Packet.realign {ws : List Bus} {bs : List Byte} (packet : Packet ws bs) (s : Fin 9)
    (part : s.val < 8) {p q : Bus} (full : p.be = firstLanes 8) (silent : q.be = firstLanes 0) :
    Packet (realigned s q p ws) (p.data.toList.drop s.val ++ bs) := by
  -- Induction on the packet; the word just joined is in front of the rest.
  induction packet generalizing p with
  | last w n some small valid eog eob be =>
    have lanes : (joined s p w).be = firstLanes (8 - s.val + min n s.val) := by
      rw [joined, full, be, window_full s small]
    have bytes : (joined s p w).data.toList = p.data.toList.drop s.val ++ w.data.toList.take s.val :=
      window_toList s p.data w.data
    rcases Nat.lt_or_ge s.val n with past | within
    · -- The last word spills: its first lanes fill a word, the others are flushed.
      have spilled : spills s w.be = true := by
        rw [be, spills_firstLanes s small]
        exact decide_eq_true past
      have rest : (flushed s w q).be = firstLanes (n - s.val) := by
        rw [flushed, silent, be, window_none s small]
      have tail : (flushed s w q).data.toList.take (n - s.val) =
          (w.data.toList.take n).drop s.val := by
        rw [flushed, window_toList, List.take_append_of_le_length (by simp; omega),
          List.drop_take]
      have flush := Packet.last (flushed s w q) (n - s.val) (by omega) (by omega) rfl rfl rfl rest
      have word := Packet.more (joined s p w) rfl (by simp [joined, spilled]) rfl
        (by rw [lanes]; congr 1; omega) flush
      have whole : (joined s p w).data.toList ++ (flushed s w q).data.toList.take (n - s.val) =
          p.data.toList.drop s.val ++ w.data.toList.take n := by
        have early : w.data.toList.take s.val = (w.data.toList.take n).take s.val := by
          rw [List.take_take, Nat.min_eq_left (by omega)]
        rw [bytes, tail, List.append_assoc, early, List.take_append_drop]
      rw [whole] at word
      simpa only [realigned, spilled, if_true] using word
    · have inside : spills s w.be = false := by
        rw [be, spills_firstLanes s small]
        exact decide_eq_false (by omega)
      have word := Packet.last (joined s p w) (8 - s.val + min n s.val) (by omega) (by omega) rfl
        (by simp [joined, eog, inside]) rfl lanes
      have whole : (joined s p w).data.toList.take (8 - s.val + min n s.val) =
          p.data.toList.drop s.val ++ w.data.toList.take n := by
        have size : (p.data.toList.drop s.val).length = 8 - s.val := by simp
        rw [bytes, ← size, List.take_length_add_append, List.take_take]
        congr 2
        omega
      rw [whole] at word
      simpa only [realigned, inside, Bool.false_eq_true, if_false] using word
  | @more w ws bs valid eog eob be rest ih =>
    have lanes : (joined s p w).be = firstLanes 8 := by
      have all : 8 - s.val + min 8 s.val = 8 := by omega
      rw [joined, full, be, window_full s (by omega), all]
    have word := Packet.more (joined s p w) rfl (by simp [joined, eog]) rfl lanes (ih be)
    have whole : (joined s p w).data.toList ++ (w.data.toList.drop s.val ++ bs) =
        p.data.toList.drop s.val ++ (w.data.toList ++ bs) := by
      rw [joined, window_toList, List.append_assoc, ← List.append_assoc (w.data.toList.take s.val),
        List.take_append_drop]
    rw [whole] at word
    exact word

end MarketData
