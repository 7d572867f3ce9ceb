import Mathlib.Data.List.Perm.Basic
import MarketData.Bench.FilterBench

/-! The commands that the test bench reads from the table in its configuration. -/

namespace MarketData.Bench

/-- A value of the table; a float is kept by its bits, any further kind of value by its text. -/
inductive Cell where
  | str (s : String)
  | int (n : Int)
  | float (bits : BitVec 64)
  | other (text : String)
  deriving DecidableEq

/-- `toml_file['messages']['csv']`: the row of column names and the rows behind it. -/
structure Csv where
  header : List String
  rows : List (List Cell)

/-- The members of the enumeration `CmdType` by name. -/
def CmdType.ofName (name : String) : Option CmdType :=
  match name with
  | "Time" => some .time
  | "AddOrder" => some .addOrder
  | "OrderExecuted" => some .orderExecuted
  | "OrderExecutedAtPrice" => some .orderExecutedAtPrice
  | "ReduceSize" => some .reduceSize
  | "ModifyOrder" => some .modifyOrder
  | "DeleteOrder" => some .deleteOrder
  | "GetEverything" => some .getEverything
  | "GetAllOrders" => some .getAllOrders
  | "GetTop" => some .getTop
  | _ => none

/-- `CmdType[...].value`. -/
def CmdType.value : CmdType → Nat
  | .time => 0
  | .addOrder => 1
  | .orderExecuted => 2
  | .orderExecutedAtPrice => 3
  | .reduceSize => 4
  | .modifyOrder => 5
  | .deleteOrder => 6
  | .getEverything => 7
  | .getAllOrders => 8
  | .getTop => 9

/-- `CmdType[cmd_type]`: a value that names no member is a `KeyError`. -/
def CmdType.ofCell : Cell → Option CmdType
  | .str name => CmdType.ofName name
  | _ => none

/-- A queued command, the dictionary that `gen_cmd` fills. -/
structure QueuedCmd where
  cmdType : Nat
  cmdSide : Nat
  cmdOrderid : BitVec 64
  cmdQuantity : Cell
  cmdSymbol : BitVec 64
  cmdPrice : Cell
  cmdExecutedQty : Cell
  cmdCanceledQty : Cell
  cmdRemainingQty : Cell
  cmdSeconds : Cell
  cmdNanoseconds : Cell
  cmdAdd : Bool
  cmdEdit : Bool
  cmdRemove : Bool
  cmdSeqNo : Cell
  deriving DecidableEq

/-- The conversions into words of the package for the feed, which is not in the repository. -/
structure FieldEncoder where
  orderidToU64 : Cell → BitVec 64
  symbolToU64 : Cell → BitVec 64

/-- `0x42 if cmd_side == 'B' else 0x53`. -/
def sideCode (side : Cell) : Nat :=
  if side = .str "B" then 0x42 else 0x53

/-- `gen_cmd`. -/
def genCmd (conv : FieldEncoder) (cmdType cmdSide cmdOrderid cmdQuantity cmdSymbol cmdPrice
    cmdExecutedQty cmdCanceledQty cmdRemainingQty cmdSeconds cmdNanoseconds : Cell)
    (cmdAdd cmdEdit cmdRemove : Bool) (cmdSeqNo : Cell) : Option QueuedCmd := do
  let type ← CmdType.ofCell cmdType
  return {
    cmdType := type.value
    cmdSide := sideCode cmdSide
    cmdOrderid := conv.orderidToU64 cmdOrderid
    cmdQuantity
    cmdSymbol := conv.symbolToU64 cmdSymbol
    cmdPrice, cmdExecutedQty, cmdCanceledQty, cmdRemainingQty, cmdSeconds, cmdNanoseconds
    cmdAdd, cmdEdit, cmdRemove, cmdSeqNo }

/-- `field_map`: a name that is there twice stands for its last column. -/
def fieldMap (header : List String) : List (String × Nat) :=
  header.zipIdx.foldl (fun m (val, idx) => setItem val idx m) []

/-- `msg[field_map[name]]`: nothing for a missing name or a row that is too short. -/
def field (map : List (String × Nat)) (msg : List Cell) (name : String) : Option Cell :=
  (map.lookup name).bind fun idx => msg[idx]?

/-- One turn of the loop: the command of a row. -/
def genRow (conv : FieldEncoder) (map : List (String × Nat)) (msg : List Cell) :
    Option QueuedCmd := do
  genCmd conv (← field map msg "Type") (← field map msg "Side") (← field map msg "OrderId")
    (← field map msg "Quantity") (← field map msg "Symbol") (← field map msg "Price")
    (← field map msg "Exe Quantity") (← field map msg "Can Quantity")
    (← field map msg "Rem Quantity") (← field map msg "Seconds")
    -- The nanoseconds are read from the column of the seconds.
    (← field map msg "Seconds")
    (decide ((← field map msg "Op") = .str "add")) (decide ((← field map msg "Op") = .str "edit"))
    (decide ((← field map msg "Op") = .str "remove")) (← field map msg "SeqNo")

/-- `gen_messages` on a configuration with a table: nothing when a row raises. -/
def genMessages (conv : FieldEncoder) (csv : Csv) : Option (List QueuedCmd) :=
  csv.rows.mapM (genRow conv (fieldMap csv.header))

/-- The column names. -/
def columns : List String :=
  ["Type", "Side", "OrderId", "Quantity", "Symbol", "Price", "Exe Quantity", "Can Quantity",
    "Rem Quantity", "Seconds", "Nanoseconds", "Op", "SeqNo"]

/-- The value of a row in the column of a name. -/
def cell (header : List String) (row : List Cell) (name : String) : Option Cell :=
  (header.zip row).lookup name

/-- The header has every column once, and each row has a value for it and a type that exists. -/
structure Csv.Proper (csv : Csv) : Prop where
  header : csv.header.Perm columns
  width : ∀ row ∈ csv.rows, row.length = csv.header.length
  type : ∀ row ∈ csv.rows, ∃ v t, cell csv.header row "Type" = some v ∧ CmdType.ofCell v = some t

/-- The sides of an order in a table, and the letters of the feed that stand for them. -/
inductive SideLetter : Cell → Nat → Prop where
  | buy : SideLetter (.str "B") 0x42
  | sell : SideLetter (.str "S") 0x53

/-- Every field of a command is the row's value by name, the nanoseconds in the column given.

A side is related to its code by the relation given. -/
structure Reads (conv : FieldEncoder) (header : List String) (sides : Cell → Nat → Prop)
    (nanos : String) (row : List Cell) (c : QueuedCmd) : Prop where
  type : ∃ v t, cell header row "Type" = some v ∧ CmdType.ofCell v = some t ∧ c.cmdType = t.value
  side : ∃ v, cell header row "Side" = some v ∧ sides v c.cmdSide
  orderid : (cell header row "OrderId").map conv.orderidToU64 = some c.cmdOrderid
  quantity : cell header row "Quantity" = some c.cmdQuantity
  symbol : (cell header row "Symbol").map conv.symbolToU64 = some c.cmdSymbol
  price : cell header row "Price" = some c.cmdPrice
  executedQty : cell header row "Exe Quantity" = some c.cmdExecutedQty
  canceledQty : cell header row "Can Quantity" = some c.cmdCanceledQty
  remainingQty : cell header row "Rem Quantity" = some c.cmdRemainingQty
  seconds : cell header row "Seconds" = some c.cmdSeconds
  nanoseconds : cell header row nanos = some c.cmdNanoseconds
  add : c.cmdAdd = true ↔ cell header row "Op" = some (.str "add")
  edit : c.cmdEdit = true ↔ cell header row "Op" = some (.str "edit")
  remove : c.cmdRemove = true ↔ cell header row "Op" = some (.str "remove")
  seqNo : cell header row "SeqNo" = some c.cmdSeqNo

/-- The queue holds one command for every row, in order, with the row's values by name. -/
def DecodesByName (conv : FieldEncoder) (csv : Csv) : Prop :=
  ∃ cmds, genMessages conv csv = some cmds ∧
    List.Forall₂ (Reads conv csv.header SideLetter "Nanoseconds") csv.rows cmds

/-- A key that was set is found with its value, and any other key as before. -/
theorem lookup_setItem {α : Type} (key name : String) (value : α) (d : List (String × α)) :
    (setItem key value d).lookup name = if name = key then some value else d.lookup name := by
  -- Induction on the dictionary, up to the key if it is there.
  induction d with
  | nil =>
    by_cases same : name = key
    · simp [setItem, same]
    · simp [setItem, List.lookup_cons, beq_false_of_ne same, same]
  | cons entry d ih =>
    obtain ⟨k, v⟩ := entry
    rw [setItem]
    by_cases found : k = key
    · subst found
      by_cases same : name = k
      · simp [same]
      · simp [List.lookup_cons, beq_false_of_ne same, same]
    · rw [if_neg found, List.lookup_cons, List.lookup_cons, ih]
      by_cases here : name = k
      · subst here
        simp [found]
      · simp [beq_false_of_ne here]

/-- Without repeated names, the column of a name is where it stands in the header. -/
theorem lookup_fieldMap {header : List String} (distinct : header.Nodup) {name : String}
    (present : name ∈ header) : (fieldMap header).lookup name = some (header.idxOf name) := by
  -- Induction from the end: the last name is set last, and is not set before.
  induction header using List.reverseRecOn with
  | nil => exact absurd present List.not_mem_nil
  | append_singleton header last ih =>
    have step : fieldMap (header ++ [last]) = setItem last header.length (fieldMap header) := by
      simp [fieldMap, List.zipIdx_append]
    obtain ⟨before, -, apart⟩ := List.nodup_append.mp distinct
    rw [step, lookup_setItem]
    by_cases same : name = last
    · subst same
      have absent : name ∉ header := fun member =>
        apart name member name (List.mem_singleton_self name) rfl
      rw [if_pos rfl, List.idxOf_append_of_notMem absent]
      simp
    · have member : name ∈ header := by simpa [same] using present
      rw [if_neg same, ih before member, List.idxOf_append_of_mem member]

/-- A row has the value that stands in the place of the name. -/
theorem cell_eq {header : List String} {row : List Cell} {name : String} (present : name ∈ header)
    (width : row.length = header.length) : cell header row name = row[header.idxOf name]? := by
  -- Induction on the columns.
  induction header generalizing row with
  | nil => exact absurd present List.not_mem_nil
  | cons first header ih =>
    obtain ⟨v, row, rfl⟩ := List.exists_cons_of_length_eq_add_one width
    rw [cell, List.zip_cons_cons, List.lookup_cons]
    by_cases same : name = first
    · subst same
      simp
    · have member : name ∈ header := by simpa [same] using present
      have other : first ≠ name := fun eq => same eq.symm
      rw [List.idxOf_cons_ne header other, List.getElem?_cons_succ,
        ← ih member (by simpa using width)]
      simp [beq_false_of_ne same, cell]

/-- A column name leads to the row's value in its column. -/
theorem field_eq {csv : Csv} (proper : csv.Proper) {row : List Cell} (member : row ∈ csv.rows)
    {name : String} (column : name ∈ columns) :
    ∃ v, field (fieldMap csv.header) row name = some v ∧ cell csv.header row name = some v := by
  -- The names are distinct, so the dictionary has the position that is found first.
  have distinct : csv.header.Nodup := proper.header.nodup_iff.mpr (by decide)
  have present : name ∈ csv.header := proper.header.mem_iff.mpr column
  have within : csv.header.idxOf name < row.length := by
    rw [proper.width row member]
    exact List.idxOf_lt_length_iff.mpr present
  refine ⟨row[csv.header.idxOf name], ?_, ?_⟩
  · rw [field, lookup_fieldMap distinct present, Option.bind_some, List.getElem?_eq_getElem within]
  · rw [cell_eq present (proper.width row member), List.getElem?_eq_getElem within]

/-- Every row of a proper table gives a command, whose nanoseconds are the seconds.

Its side is the one code or the other, whatever the row says. -/
theorem genRow_reads (conv : FieldEncoder) {csv : Csv} (proper : csv.Proper) {row : List Cell}
    (member : row ∈ csv.rows) :
    ∃ c, genRow conv (fieldMap csv.header) row = some c ∧
      Reads conv csv.header (fun v code => code = sideCode v) "Seconds" row c := by
  -- All columns are found, and the type exists.
  have found : ∀ name ∈ columns, ∃ v, field (fieldMap csv.header) row name = some v ∧
      cell csv.header row name = some v := fun name column => field_eq proper member column
  obtain ⟨type, typeField, typeCell⟩ := found "Type" (by decide)
  obtain ⟨side, sideField, sideCell⟩ := found "Side" (by decide)
  obtain ⟨orderid, orderidField, orderidCell⟩ := found "OrderId" (by decide)
  obtain ⟨quantity, quantityField, quantityCell⟩ := found "Quantity" (by decide)
  obtain ⟨symbol, symbolField, symbolCell⟩ := found "Symbol" (by decide)
  obtain ⟨price, priceField, priceCell⟩ := found "Price" (by decide)
  obtain ⟨exe, exeField, exeCell⟩ := found "Exe Quantity" (by decide)
  obtain ⟨can, canField, canCell⟩ := found "Can Quantity" (by decide)
  obtain ⟨rem, remField, remCell⟩ := found "Rem Quantity" (by decide)
  obtain ⟨seconds, secondsField, secondsCell⟩ := found "Seconds" (by decide)
  obtain ⟨op, opField, opCell⟩ := found "Op" (by decide)
  obtain ⟨seqNo, seqNoField, seqNoCell⟩ := found "SeqNo" (by decide)
  obtain ⟨v, t, here, known⟩ := proper.type row member
  obtain rfl := Option.some.inj (typeCell.symm.trans here)
  refine ⟨⟨t.value, sideCode side, conv.orderidToU64 orderid, quantity, conv.symbolToU64 symbol,
    price, exe, can, rem, seconds, seconds, decide (op = .str "add"), decide (op = .str "edit"),
    decide (op = .str "remove"), seqNo⟩, ?_, ?_⟩
  · simp only [genRow, typeField, sideField, orderidField, quantityField, symbolField, priceField,
      exeField, canField, remField, secondsField, opField, seqNoField, genCmd, known,
      Option.bind_eq_bind, Option.bind_some, Option.pure_def]
  · exact
      { type := ⟨type, t, typeCell, known, rfl⟩
        side := ⟨side, sideCell, rfl⟩
        orderid := by rw [orderidCell, Option.map_some]
        quantity := quantityCell
        symbol := by rw [symbolCell, Option.map_some]
        price := priceCell
        executedQty := exeCell
        canceledQty := canCell
        remainingQty := remCell
        seconds := secondsCell
        nanoseconds := secondsCell
        add := by simp [opCell]
        edit := by simp [opCell]
        remove := by simp [opCell]
        seqNo := seqNoCell }

/-- The row has the same value in both columns of its time, and one of the two sides. -/
def PlainRow (header : List String) (row : List Cell) : Prop :=
  cell header row "Nanoseconds" = cell header row "Seconds" ∧
    (cell header row "Side" = some (.str "B") ∨ cell header row "Side" = some (.str "S"))

/-- The code of a side is its letter for the two sides there are. -/
theorem sideLetter_iff (v : Cell) :
    SideLetter v (sideCode v) ↔ v = .str "B" ∨ v = .str "S" := by
  -- Two letters are specified, and the code of a row is one of the two.
  constructor
  · intro letter
    generalize sideCode v = code at letter
    cases letter with
    | buy => exact Or.inl rfl
    | sell => exact Or.inr rfl
  · rintro (rfl | rfl)
    · exact .buy
    · exact .sell

/-- The command of a row is right exactly when its times agree and it has a side. -/
theorem Reads.plain_iff {conv : FieldEncoder} {header : List String} {row : List Cell}
    {c : QueuedCmd} (reads : Reads conv header (fun v code => code = sideCode v) "Seconds" row c) :
    Reads conv header SideLetter "Nanoseconds" row c ↔ PlainRow header row := by
  -- The two readings differ in the side and in the nanoseconds.
  obtain ⟨v, there, code⟩ := reads.side
  constructor
  · intro right
    obtain ⟨w, here, letter⟩ := right.side
    obtain rfl := Option.some.inj (there.symm.trans here)
    rw [code, sideLetter_iff] at letter
    refine ⟨right.nanoseconds.trans reads.nanoseconds.symm, ?_⟩
    rw [there, Option.some_inj, Option.some_inj]
    exact letter
  · rintro ⟨same, named⟩
    rw [there, Option.some_inj, Option.some_inj, ← sideLetter_iff, ← code] at named
    exact { reads with side := ⟨v, there, named⟩, nanoseconds := same.trans reads.nanoseconds }

/-- The loop queues a command for every row, in order. -/
theorem genMessages_reads (conv : FieldEncoder) {csv : Csv} (proper : csv.Proper) :
    ∃ cmds, genMessages conv csv = some cmds ∧ List.Forall₂
      (Reads conv csv.header (fun v code => code = sideCode v) "Seconds") csv.rows cmds := by
  -- Induction on the rows, each of which gives a command.
  have loop : ∀ rows : List (List Cell), (∀ row ∈ rows, row ∈ csv.rows) →
      ∃ cmds, rows.mapM (genRow conv (fieldMap csv.header)) = some cmds ∧ List.Forall₂
        (Reads conv csv.header (fun v code => code = sideCode v) "Seconds") rows cmds := by
    intro rows
    induction rows with
    | nil => exact fun _ => ⟨[], rfl, .nil⟩
    | cons row rows ih =>
      intro members
      obtain ⟨c, made, reads⟩ := genRow_reads conv proper (members row List.mem_cons_self)
      obtain ⟨cmds, rest, all⟩ := ih fun row member => members row (List.mem_cons_of_mem _ member)
      exact ⟨c :: cmds, by simp [List.mapM_cons, made, rest], .cons reads all⟩
  exact loop csv.rows fun _ member => member

/-- The commands are right exactly when every row has one time in both columns and a side. -/
theorem decodesByName_iff (conv : FieldEncoder) (csv : Csv) (proper : csv.Proper) :
    DecodesByName conv csv ↔ ∀ row ∈ csv.rows, PlainRow csv.header row := by
  obtain ⟨cmds, made, reads⟩ := genMessages_reads conv proper
  have swap : ∀ (rows : List (List Cell)) (cmds : List QueuedCmd),
      List.Forall₂ (Reads conv csv.header (fun v code => code = sideCode v) "Seconds") rows cmds →
        (List.Forall₂ (Reads conv csv.header SideLetter "Nanoseconds") rows cmds ↔
          ∀ row ∈ rows, PlainRow csv.header row) := by
    -- Induction on the rows and their commands.
    intro rows cmds reads
    induction reads with
    | nil => simp
    | cons reads _ ih => rw [List.forall₂_cons, reads.plain_iff, ih, List.forall_mem_cons]
  rw [← swap csv.rows cmds reads]
  constructor
  · rintro ⟨others, again, right⟩
    obtain rfl := Option.some.inj (made.symm.trans again)
    exact right
  · exact fun right => ⟨cmds, made, right⟩

/-- Conversions for inputs written out here. -/
def plainEncoder : FieldEncoder where
  orderidToU64 _ := 0x4F52494430303031#64
  symbolToU64 _ := 0x4141504C20202020#64

/-- One order, stamped with seconds and nanoseconds. -/
def oneOrder (seconds nanoseconds : Int) : Csv where
  header := columns
  rows := [[.str "AddOrder", .str "B", .str "ORID0001", .int 150, .str "AAPL",
    .float 0x4065980000000000#64, .int 0, .int 0, .int 0, .int seconds, .int nanoseconds,
    .str "add", .int 1]]

/-- The table with one order is a proper one. -/
theorem oneOrder_proper (seconds nanoseconds : Int) : (oneOrder seconds nanoseconds).Proper where
  header := .refl _
  width row member := by
    obtain rfl := List.mem_singleton.mp member
    rfl
  type row member := by
    obtain rfl := List.mem_singleton.mp member
    exact ⟨.str "AddOrder", .addOrder, rfl, rfl⟩

/-- An order at 100 seconds and 100 nanoseconds is read right. -/
theorem decodesByName_even : DecodesByName plainEncoder (oneOrder 100 100) := by
  refine (decodesByName_iff plainEncoder _ (oneOrder_proper 100 100)).mpr fun row member => ?_
  obtain rfl := List.mem_singleton.mp member
  exact ⟨rfl, Or.inl rfl⟩

/-- The seconds are queued as the nanoseconds. -/
theorem seconds_as_nanoseconds :
    ¬ ∀ (conv : FieldEncoder) (csv : Csv), csv.Proper → DecodesByName conv csv := by
  -- One order at second 100 and nanosecond 0 shows the column that is taken.
  intro always
  obtain ⟨cmds, made, right⟩ := always plainEncoder (oneOrder 100 0) (oneOrder_proper 100 0)
  obtain ⟨c, rest, reads, -, rfl⟩ := List.forall₂_cons_left_iff.mp right
  have seconds : c.cmdNanoseconds = .int 100 := by
    have queued := congrArg (Option.map (List.map QueuedCmd.cmdNanoseconds)) made
    have first : (genMessages plainEncoder (oneOrder 100 0)).map
        (List.map QueuedCmd.cmdNanoseconds) = some [.int 100] := by rfl
    simp only [first, Option.map_some, List.map_cons, Option.some.injEq, List.cons.injEq] at queued
    exact queued.1.symm
  have read := reads.nanoseconds
  rw [seconds] at read
  exact absurd read (by decide)

end MarketData.Bench
