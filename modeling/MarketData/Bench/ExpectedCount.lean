import MarketData.Bench.FilterBench

/-! When the expected count of the test bench is the number of commands that the filter passes. -/

namespace MarketData.Bench

/-- What a command adds to a count. -/
def tally (counted : Bool) : Nat :=
  if counted then 1 else 0

/-- The six types that orders are handled with. -/
def OBCommand.Handled (c : OBCommand) : Prop :=
  1 ≤ c.cmdType.toNat ∧ c.cmdType.toNat ≤ 6

section

variable (conv : FieldConverter) (watchList : List String)

/-- An order for a symbol on the watch list. -/
def watches (c : OBCommand) : Bool :=
  decide (c.cmdTypeStr = some .addOrder) && decide (conv.u64ToSymbol c.symbol ∈ watchList)

/-- A command for an order that was added and has left the book. -/
def strays (added : List (BitVec 64)) (book : Book) (c : OBCommand) : Bool :=
  decide (c.cmdTypeStr ≠ some .addOrder) && decide (c.orderid ∈ added) && (book c.orderid).isNone

/-- The order ids that were added, with this command. -/
def addedWith (added : List (BitVec 64)) (c : OBCommand) : List (BitVec 64) :=
  if watches conv watchList c then c.orderid :: added else added

/-- How many commands are for an order that was added before and has left the book. -/
def strayCount : List (BitVec 64) → Book → List OBCommand → Nat
  | _, _, [] => 0
  | added, book, c :: cs =>
    tally (strays added book c) +
      strayCount (addedWith conv watchList added c) (filterStep conv watchList book c).1 cs

/-- No command is for an order that was added before and has left the book. -/
def NoStrays : List (BitVec 64) → Book → List OBCommand → Prop
  | _, _, [] => True
  | added, book, c :: cs => strays added book c = false ∧
    NoStrays (addedWith conv watchList added c) (filterStep conv watchList book c).1 cs

/-- The set of order ids is that of the added ones, and the book has orders among these only. -/
structure Follows (b : FilterBench) (added : List (BitVec 64)) (book : Book) : Prop where
  watchList : b.watchList = watchList
  ids : ∃ ids, b.orderids = some ids ∧ ∀ id, conv.u64ToOrderid id ∈ ids ↔ id ∈ added
  entered : ∀ id, book id ≠ none → id ∈ added

end

section Step

variable {conv : FieldConverter} {watchList : List String} {b : FilterBench}
variable {added : List (BitVec 64)} {book : Book} {c : OBCommand}

/-- Filter.Other brings no order into the book, and passes a command for one that is in it. -/
theorem filterOther_spec (book : Book) (c : OBCommand) (quantity : BitVec 32 → BitVec 32) :
    (filterOther book c quantity).2 = (book c.orderid).isSome ∧
      ∀ id, (filterOther book c quantity).1 id ≠ none → book id ≠ none := by
  -- Only the order of the command may change.
  unfold filterOther
  cases order : book c.orderid with
  | none => exact ⟨rfl, fun _ present => present⟩
  | some q =>
    refine ⟨rfl, fun id present => ?_⟩
    by_cases same : id = c.orderid
    · rw [same, order]
      exact Option.some_ne_none q
    · simpa [Function.update_of_ne same] using present

/-- Any handled command but an order is one for Filter.Other. -/
theorem filterStep_other (handled : c.Handled) (other : c.cmdTypeStr ≠ some .addOrder) :
    ∃ quantity, filterStep conv watchList book c = filterOther book c quantity := by
  -- By the number of the type.
  obtain ⟨least, most⟩ := handled
  unfold filterStep
  have numbers : c.cmdType.toNat = 1 ∨ c.cmdType.toNat = 2 ∨ c.cmdType.toNat = 3 ∨
      c.cmdType.toNat = 4 ∨ c.cmdType.toNat = 5 ∨ c.cmdType.toNat = 6 := by omega
  rcases numbers with number | number | number | number | number | number
  · exact absurd (by simp [OBCommand.cmdTypeStr, number]) other
  · exact ⟨_, by simp only [OBCommand.cmdTypeStr, number]; rfl⟩
  · exact ⟨_, by simp only [OBCommand.cmdTypeStr, number]; rfl⟩
  · exact ⟨_, by simp only [OBCommand.cmdTypeStr, number]; rfl⟩
  · exact ⟨_, by simp only [OBCommand.cmdTypeStr, number]; rfl⟩
  · exact ⟨_, by simp only [OBCommand.cmdTypeStr, number]; rfl⟩

/-- The log of the bench with one more command. -/
def sentLog (conv : FieldConverter) (b : FilterBench) (c : OBCommand) (t : Int) :
    List (String × OBCommand × Int) :=
  setItem (conv.u64ToOrderid c.orderid ++ "-" ++ toString c.seqNo.toNat) (c, t) b.msgs

/-- An order on the watch list is counted and passed. -/
theorem Follows.watched (follows : Follows conv watchList b added book)
    (injective : Function.Injective conv.u64ToOrderid) (watched : watches conv watchList c = true)
    (t : Int) : ∃ b', b.logCommandSend conv c t = some b' ∧
      Follows conv watchList b' (addedWith conv watchList added c)
        (filterStep conv watchList book c).1 ∧
      b'.expectedMsgsCount = b.expectedMsgsCount + tally (filterStep conv watchList book c).2 +
        tally (strays added book c) := by
  -- Its id joins the set, the added ids and the book.
  obtain ⟨list, ⟨ids, set, member⟩, entered⟩ := follows
  have parts := watched
  simp only [watches, Bool.and_eq_true, decide_eq_true_eq] at parts
  obtain ⟨isAdd, symbol⟩ := parts
  have passes : filterStep conv watchList book c =
      (Function.update book c.orderid (some c.quantity), true) := by
    simp only [filterStep, isAdd, if_pos symbol]
  have grows : addedWith conv watchList added c = c.orderid :: added := by
    simp only [addedWith, watched, if_true]
  have noStray : strays added book c = false := by simp [strays, isAdd]
  have sent : b.logCommandSend conv c t = some { b with
      msgs := (sentLog conv b c t)
      expectedMsgsCount := b.expectedMsgsCount + 1
      orderids := some (insert (conv.u64ToOrderid c.orderid) ids) } := by
    simp only [FilterBench.logCommandSend, isAdd, if_true, list, if_pos symbol, set,
      Option.map_some, sentLog]
  rw [passes, grows, noStray]
  refine ⟨_, sent, ⟨list, ⟨_, rfl, fun id => ?_⟩, fun id present => ?_⟩, rfl⟩
  · rw [Finset.mem_insert, List.mem_cons, member, injective.eq_iff]
  · by_cases same : id = c.orderid
    · exact List.mem_cons.mpr (.inl same)
    · exact List.mem_cons_of_mem _ (entered id (by simpa [Function.update_of_ne same] using present))

/-- An order for another symbol is neither counted nor passed. -/
theorem Follows.unwatched (follows : Follows conv watchList b added book)
    (isAdd : c.cmdTypeStr = some .addOrder) (other : watches conv watchList c = false) (t : Int) :
    ∃ b', b.logCommandSend conv c t = some b' ∧
      Follows conv watchList b' (addedWith conv watchList added c)
        (filterStep conv watchList book c).1 ∧
      b'.expectedMsgsCount = b.expectedMsgsCount + tally (filterStep conv watchList book c).2 +
        tally (strays added book c) := by
  -- Nothing but the log of the commands changes.
  obtain ⟨list, ids, entered⟩ := follows
  have symbol : conv.u64ToSymbol c.symbol ∉ watchList := by simpa [watches, isAdd] using other
  have drops : filterStep conv watchList book c = (book, false) := by
    simp only [filterStep, isAdd, if_neg symbol]
  have same : addedWith conv watchList added c = added := by simp [addedWith, other]
  have noStray : strays added book c = false := by simp [strays, isAdd]
  have sent : b.logCommandSend conv c t = some { b with msgs := sentLog conv b c t } := by
    simp only [FilterBench.logCommandSend, isAdd, if_true, list, if_neg symbol, sentLog]
  rw [drops, same, noStray]
  exact ⟨_, sent, ⟨list, ids, entered⟩, rfl⟩

/-- Another command is counted if its order was added, and passed if the order is in the book. -/
theorem Follows.other (follows : Follows conv watchList b added book) (handled : c.Handled)
    (other : c.cmdTypeStr ≠ some .addOrder) (t : Int) :
    ∃ b', b.logCommandSend conv c t = some b' ∧
      Follows conv watchList b' (addedWith conv watchList added c)
        (filterStep conv watchList book c).1 ∧
      b'.expectedMsgsCount = b.expectedMsgsCount + tally (filterStep conv watchList book c).2 +
        tally (strays added book c) := by
  -- The book has no order that was not added.
  obtain ⟨list, ⟨ids, set, member⟩, entered⟩ := follows
  obtain ⟨quantity, step⟩ : ∃ quantity, filterStep conv watchList book c =
      filterOther book c quantity := filterStep_other handled other
  obtain ⟨passes, kept⟩ := filterOther_spec book c quantity
  have same : addedWith conv watchList added c = added := by simp [addedWith, watches, other]
  have stray : strays added book c = (decide (c.orderid ∈ added) && (book c.orderid).isNone) := by
    simp [strays, other]
  rw [step, passes, same, stray]
  by_cases was : c.orderid ∈ added
  · have sent : b.logCommandSend conv c t = some { b with
        msgs := sentLog conv b c t, expectedMsgsCount := b.expectedMsgsCount + 1 } := by
      simp only [FilterBench.logCommandSend, if_neg other, set, Option.map_some,
        if_pos ((member c.orderid).mpr was), sentLog]
    refine ⟨_, sent, ⟨list, ⟨ids, set, member⟩, fun id present => entered id (kept id present)⟩, ?_⟩
    cases order : book c.orderid <;> simp [tally, was]
  · have absent : book c.orderid = none := by
      by_contra present
      exact was (entered c.orderid present)
    have sent : b.logCommandSend conv c t = some { b with msgs := sentLog conv b c t } := by
      simp only [FilterBench.logCommandSend, if_neg other, set, Option.map_some,
        if_neg fun inSet => was ((member c.orderid).mp inSet), sentLog]
    refine ⟨_, sent, ⟨list, ⟨ids, set, member⟩, fun id present => entered id (kept id present)⟩, ?_⟩
    simp [tally, was, absent]

/-- A command is counted when it is passed, and when it is for an order that has left the book. -/
theorem Follows.step (follows : Follows conv watchList b added book)
    (injective : Function.Injective conv.u64ToOrderid) (handled : c.Handled) (t : Int) :
    ∃ b', b.logCommandSend conv c t = some b' ∧
      Follows conv watchList b' (addedWith conv watchList added c)
        (filterStep conv watchList book c).1 ∧
      b'.expectedMsgsCount = b.expectedMsgsCount + tally (filterStep conv watchList book c).2 +
        tally (strays added book c) := by
  -- An order on the watch list, another order, or another command.
  by_cases isAdd : c.cmdTypeStr = some .addOrder
  · cases watched : watches conv watchList c with
    | true => exact follows.watched injective watched t
    | false => exact follows.unwatched isAdd watched t
  · exact follows.other handled isAdd t

end Step

section Runs

variable {conv : FieldConverter} {watchList : List String}

/-- The passed commands with one more in front. -/
theorem length_passed_cons (conv : FieldConverter) (watchList : List String) (book : Book)
    (c : OBCommand) (cs : List OBCommand) :
    (passed conv watchList book (c :: cs)).length = tally (filterStep conv watchList book c).2 +
      (passed conv watchList (filterStep conv watchList book c).1 cs).length := by
  -- It is among them if the filter passes it.
  have unfolded : passed conv watchList book (c :: cs) = if (filterStep conv watchList book c).2
      then c :: passed conv watchList (filterStep conv watchList book c).1 cs
      else passed conv watchList (filterStep conv watchList book c).1 cs := rfl
  rw [unfolded]
  cases (filterStep conv watchList book c).2 with
  | true => exact Nat.add_comm _ _
  | false => exact (Nat.zero_add _).symm

/-- After some commands, those for orders that had left the book are counted too often. -/
theorem Follows.run (injective : Function.Injective conv.u64ToOrderid)
    (cs : List (OBCommand × Int)) : ∀ {b : FilterBench} {added : List (BitVec 64)} {book : Book},
      Follows conv watchList b added book → (∀ c ∈ cs, c.1.Handled) →
        ∃ b', b.logAll conv cs = some b' ∧ b'.expectedMsgsCount = b.expectedMsgsCount +
          (passed conv watchList book (cs.map Prod.fst)).length +
          strayCount conv watchList added book (cs.map Prod.fst) := by
  -- Induction on the commands.
  induction cs with
  | nil => exact fun {b _ _} _ _ => ⟨b, rfl, rfl⟩
  | cons sent cs ih =>
    intro b added book follows handled
    obtain ⟨c, t⟩ := sent
    obtain ⟨b₁, one, next, count⟩ := follows.step injective (handled (c, t) (by simp)) t
    obtain ⟨b₂, others, total⟩ := ih next fun other member => handled other (by simp [member])
    refine ⟨b₂, ?_, ?_⟩
    · rw [FilterBench.logAll, one]
      exact others
    · rw [total, count, List.map_cons, length_passed_cons, strayCount]
      omega

/-- The number of commands for orders that have left the book is zero when there are none. -/
theorem strayCount_eq_zero_iff (conv : FieldConverter) (watchList : List String)
    (cs : List OBCommand) : ∀ (added : List (BitVec 64)) (book : Book),
      strayCount conv watchList added book cs = 0 ↔ NoStrays conv watchList added book cs := by
  -- Induction on the commands.
  induction cs with
  | nil => exact fun _ _ => ⟨fun _ => trivial, fun _ => rfl⟩
  | cons c cs ih =>
    intro added book
    rw [strayCount, NoStrays, Nat.add_eq_zero_iff, ih]
    cases strays added book c <;> simp [tally]

/-- The bench of a configuration with a security follows the filter from the start. -/
theorem Follows.init {security : Type} (conv : FieldConverter) (watchList : List String)
    (securities : List security) (present : securities ≠ []) :
    Follows conv watchList (FilterBench.init watchList securities) [] fun _ => none := by
  -- The last turn of the loop leaves an empty set.
  have set : ∀ (rest : List security) (ids : Option (Finset String)), ids = some ∅ →
      rest.foldl (fun _ _ => some ∅) ids = some ∅ := by
    intro rest
    induction rest with
    | nil => exact fun _ empty => empty
    | cons _ rest ih => exact fun _ _ => ih _ rfl
  cases securities with
  | nil => exact absurd rfl present
  | cons s rest =>
    exact ⟨rfl, ⟨∅, set rest (some ∅) rfl, fun id => by simp⟩, fun id some_ => absurd rfl some_⟩

/-- The receive loop ends with nothing left when it waits for as many commands as come out. -/
theorem receive_eq_nil_iff (n : Nat) (out : List OBCommand) :
    receive n out = some [] ↔ n = out.length := by
  -- Command by command.
  induction out generalizing n with
  | nil => cases n <;> simp [receive]
  | cons c out ih => cases n <;> simp [receive, ih]

end Runs

/-- The expected count agrees with the filter when no command is for an order that has left the book. -/
theorem expectedCount_iff {security : Type} (conv : FieldConverter)
    (injective : Function.Injective conv.u64ToOrderid) (watchList : List String)
    (securities : List security) (present : securities ≠ []) (cs : List (OBCommand × Int))
    (handled : ∀ c ∈ cs, c.1.Handled) :
    ∃ b, (FilterBench.init watchList securities).logAll conv cs = some b ∧
      (b.expectedMsgsCount = (passed conv watchList (fun _ => none) (cs.map Prod.fst)).length ↔
        NoStrays conv watchList [] (fun _ => none) (cs.map Prod.fst)) ∧
      (receive b.expectedMsgsCount (passed conv watchList (fun _ => none) (cs.map Prod.fst)) =
          some [] ↔
        NoStrays conv watchList [] (fun _ => none) (cs.map Prod.fst)) := by
  -- The count is that of the passed commands and of those for orders that have left.
  have follows := Follows.init conv watchList _ present
  obtain ⟨b, logged, count⟩ := follows.run injective cs handled
  have start : (FilterBench.init watchList securities).expectedMsgsCount = 0 := rfl
  have agrees : b.expectedMsgsCount =
      (passed conv watchList (fun _ => none) (cs.map Prod.fst)).length ↔
        NoStrays conv watchList [] (fun _ => none) (cs.map Prod.fst) := by
    rw [← strayCount_eq_zero_iff, count, start]
    omega
  exact ⟨b, logged, agrees, (receive_eq_nil_iff _ _).trans agrees⟩

/-- A converter that writes a number in unary. -/
def unary : FieldConverter :=
  ⟨fun x => String.ofList (List.replicate x.toNat 'I'), fun x => String.ofList (List.replicate x.toNat 'I')⟩

/-- Numbers in unary differ in their length. -/
theorem unary_injective : Function.Injective unary.u64ToOrderid := by
  intro x y same
  have lists := congrArg String.toList same
  simp only [unary, String.toList_ofList] at lists
  have lengths := congrArg List.length lists
  simpa [BitVec.toNat_inj] using lengths

/-- An order of ten for a watched symbol. -/
def sampleAdd : OBCommand :=
  ⟨1, 7, 10, 3, 0, 0, 0, 1⟩

/-- The order is deleted. -/
def sampleDelete : OBCommand :=
  ⟨6, 7, 0, 0, 0, 0, 0, 2⟩

/-- The types of the sample are handled. -/
theorem sample_handled (cs : List (OBCommand × Int))
    (known : ∀ c ∈ cs, c.1 = sampleAdd ∨ c.1 = sampleDelete) : ∀ c ∈ cs, c.1.Handled := by
  -- One is an order, the other a delete.
  intro c member
  unfold OBCommand.Handled
  rcases known c member with same | same <;> rw [same] <;> decide

/-- A second delete of the order is counted and not passed. -/
theorem second_delete_counted :
    ¬ ∃ b, (FilterBench.init ["III"] [()]).logAll unary
        [(sampleAdd, 0), (sampleDelete, 1), (sampleDelete, 2)] = some b ∧
      b.expectedMsgsCount = (passed unary ["III"] (fun _ => none)
        [sampleAdd, sampleDelete, sampleDelete]).length := by
  -- The bench still has the id, the book no longer has the order.
  rintro ⟨b, logged, count⟩
  have follows := Follows.init unary ["III"] [()] (by simp)
  obtain ⟨b', logged', total⟩ := follows.run unary_injective
    [(sampleAdd, 0), (sampleDelete, 1), (sampleDelete, 2)] (sample_handled _ (by simp))
  have stray : strayCount unary ["III"] [] (fun _ => none)
      [sampleAdd, sampleDelete, sampleDelete] = 1 := by decide
  obtain rfl := Option.some.inj (logged.symm.trans logged')
  simp only [List.map_cons, List.map_nil, stray, count, FilterBench.init] at total
  omega

/-- With one delete the counts agree. -/
theorem one_delete_agrees :
    ∃ b, (FilterBench.init ["III"] [()]).logAll unary [(sampleAdd, 0), (sampleDelete, 1)] = some b ∧
      b.expectedMsgsCount =
        (passed unary ["III"] (fun _ => none) [sampleAdd, sampleDelete]).length := by
  -- The delete is for an order in the book.
  obtain ⟨b, logged, agrees, _⟩ := expectedCount_iff unary unary_injective ["III"] [()] (by simp)
    [(sampleAdd, 0), (sampleDelete, 1)] (sample_handled _ (by simp))
  exact ⟨b, logged, agrees.mpr ⟨by decide, by decide, trivial⟩⟩

end MarketData.Bench
