import MarketData.Netlist.Clearing
import MarketData.Netlist.ParserLaws

/-! Which end-of-frame elements bring the fully clearing variant back to an empty header state. -/

namespace MarketData

/-- The bytes counted once the element has been appended, as a U8. -/
def P.buffered (p : P) (e : Elem) : Nat :=
  if e.valid then (p.L + numOfTrue e.keep) % 256 else p.L

/-- The two situations in which an eof element reaches a clear.

A header must still be incomplete, and in the message state at least one byte must be buffered. -/
def P.ResyncsOn (p : P) (e : Elem) : Prop :=
  match p.state with
  | .hdr => p.buffered e < 8
  | .msg => p.buffered e ≠ 0

/-- The buffered count is the length the append reports. -/
theorem P.receive_length {p : P} (small : p.L < 256) (e : Elem) :
    (receive p.buf p.L e).2 = p.buffered e := by
  -- Only a valid element is appended.
  unfold receive P.buffered
  split
  · exact addDataToBuffer_length _ small _ _
  · rfl

/-- What never changes: the variant, and the length being a U8. -/
structure P.Bounded (p : P) (hdrClear msgLtClear : Bool) : Prop where
  hdrClear : p.hdrClear = hdrClear
  msgLtClear : p.msgLtClear = msgLtClear
  small : p.L < 256

/-- One element keeps the variant and the bound on the length. -/
theorem P.Bounded.step {p : P} {a b : Bool} (bounded : p.Bounded a b) (e : Elem) :
    (p.step e).Bounded a b := by
  -- A parser is alike to itself, and the step keeps that.
  have alike : p.Alike p := ⟨rfl, rfl, rfl, bounded.small, rfl, fun _ => ⟨rfl, rfl⟩, Or.inl rfl⟩
  refine ⟨?_, ?_, (alike.step e).1.small⟩
  · rw [← bounded.hdrClear]
    unfold P.step
    cases p.state <;> simp only <;> repeat' split
    all_goals rfl
  · rw [← bounded.msgLtClear]
    unfold P.step
    cases p.state <;> simp only <;> repeat' split
    all_goals rfl

/-- Every state reached by elements keeps the variant and the bound on the length. -/
theorem P.Bounded.feed {p : P} {a b : Bool} (bounded : p.Bounded a b) (es : List Elem) :
    (p.feed es).Bounded a b := by
  -- Induction on the elements.
  induction es generalizing p with
  | nil => exact bounded
  | cons e es ih => exact ih (bounded.step e)

/-- An eof element clears the parser exactly when it reaches one of the clears. -/
theorem P.step_eof_cleared {p : P} (bounded : p.Bounded true true) {e : Elem}
    (eof : e.eof = true) : (p.step e).Cleared ↔ p.ResyncsOn e := by
  -- With both clears on, every branch but two reaches a clear on eof.
  have length := P.receive_length bounded.small e
  have hdrClear := bounded.hdrClear
  have msgLtClear := bounded.msgLtClear
  unfold P.step P.ResyncsOn
  rw [← length]
  generalize receive p.buf p.L e = b
  obtain ⟨b, m⟩ := b
  cases state : p.state with
  | hdr =>
    simp only [eof, hdrClear, Bool.and_self, if_true]
    by_cases enough : 8 ≤ m
    · -- The header completes on the eof element, and the parser waits for messages.
      rw [if_pos enough]
      exact ⟨fun cleared => (nomatch cleared.state), fun short => absurd short (by omega)⟩
    · rw [if_neg enough]
      exact ⟨fun _ => by omega, fun _ => ⟨rfl, rfl⟩⟩
  | msg =>
    simp only [eof, Bool.or_true, if_true, msgLtClear]
    by_cases empty : m = 0
    · -- The early return leaves the message state.
      rw [if_pos empty]
      exact ⟨fun cleared => (nomatch cleared.state), fun more => absurd empty more⟩
    · rw [if_neg empty]
      refine ⟨fun _ => empty, fun _ => ?_⟩
      split <;> exact ⟨rfl, rfl⟩

/-- After a cleared state the parser reports what a fresh parser would report. -/
theorem P.Cleared.as_fresh {p : P} {a b : Bool} (cleared : p.Cleared) (bounded : p.Bounded a b)
    (later : List Elem) :
    (p.feed later).hdrs = p.hdrs ++ ((P.fresh a b).feed later).hdrs ∧
      (p.feed later).msgs = p.msgs ++ ((P.fresh a b).feed later).msgs := by
  -- A fresh parser is cleared too, and has reported nothing.
  have fresh : (P.fresh a b).Cleared := ⟨rfl, rfl⟩
  obtain ⟨_, hs, ms, ph, qh, pm, qm⟩ :=
    (cleared.alike fresh bounded.hdrClear bounded.msgLtClear).feed later
  have none : (P.fresh a b).hdrs = [] ∧ (P.fresh a b).msgs = [] := ⟨rfl, rfl⟩
  rw [none.1, List.nil_append] at qh
  rw [none.2, List.nil_append] at qm
  exact ⟨by rw [ph, qh], by rw [pm, qm]⟩

/-- A header that completes on the eof element leaves the message state, so resynchronisation
fails already on the first element of a run. -/
theorem eof_leaves_message_state :
    ¬ ∀ (es : List Elem) (e : Elem), (∀ x ∈ es ++ [e], x.Contiguous) → e.eof = true →
      ((P.fresh true true).feed (es ++ [e])).Cleared := by
  -- One element brings the header and the eof at once.
  intro resync
  have cleared := resync [] ⟨0, #v[8, 0, 0, 1, 5, 0, 0, 0], 0xFF, true, true⟩
    (by intro x member; simp at member; exact ⟨8, by decide, by rw [member]; decide⟩) rfl
  have state := cleared.state
  revert state
  decide

/-- Every eof of a run clears the parser exactly when every eof element reaches a clear.

From each cleared eof on, the frames that follow are parsed as by a fresh parser. -/
theorem eof_resynchronises_iff (es : List Elem) :
    ((∀ k e, es[k]? = some e → e.eof = true →
        ((P.fresh true true).feed (es.take (k + 1))).Cleared) ↔
      (∀ k e, es[k]? = some e → e.eof = true →
        ((P.fresh true true).feed (es.take k)).ResyncsOn e)) ∧
    (∀ k e later, es[k]? = some e → e.eof = true →
      ((P.fresh true true).feed (es.take k)).ResyncsOn e →
      (((P.fresh true true).feed (es.take (k + 1))).feed later).hdrs =
          ((P.fresh true true).feed (es.take (k + 1))).hdrs ++
            ((P.fresh true true).feed later).hdrs ∧
        (((P.fresh true true).feed (es.take (k + 1))).feed later).msgs =
          ((P.fresh true true).feed (es.take (k + 1))).msgs ++
            ((P.fresh true true).feed later).msgs) := by
  -- The statement is about each eof element by itself.
  have bounded : (P.fresh true true).Bounded true true := ⟨rfl, rfl, by decide⟩
  -- The state after the eof element is one step past the state before it.
  have clears : ∀ k e, es[k]? = some e → e.eof = true →
      (((P.fresh true true).feed (es.take (k + 1))).Cleared ↔
        ((P.fresh true true).feed (es.take k)).ResyncsOn e) := by
    intro k e found eof
    rw [List.take_add_one, found, Option.toList_some, P.feed_append, P.feed_cons, P.feed_nil]
    exact P.step_eof_cleared (bounded.feed _) eof
  refine ⟨⟨?_, ?_⟩, ?_⟩
  · exact fun cleared k e found eof => (clears k e found eof).mp (cleared k e found eof)
  · exact fun resyncs k e found eof => (clears k e found eof).mpr (resyncs k e found eof)
  · intro k e later found eof resyncs
    exact ((clears k e found eof).mpr resyncs).as_fresh (bounded.feed _) later

end MarketData
