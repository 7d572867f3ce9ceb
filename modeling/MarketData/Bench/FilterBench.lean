import Mathlib.Data.Finset.Insert
import Mathlib.Logic.Function.Basic
import Mathlib.Tactic.Common

/-! The expected count of the filter's test bench, and the filter as its document describes it. -/

namespace MarketData.Bench

/-- The conversions of the package for the feed, which is not in the repository. -/
structure FieldConverter where
  u64ToOrderid : BitVec 64 → String
  u64ToSymbol : BitVec 64 → String

/-- orderbook.command.type. -/
inductive CmdType where
  | time
  | addOrder
  | orderExecuted
  | orderExecutedAtPrice
  | reduceSize
  | modifyOrder
  | deleteOrder
  | getEverything
  | getAllOrders
  | getTop
  deriving DecidableEq

/-- The fields of an `OBCommand` that the bench and the filter read. -/
structure OBCommand where
  cmdType : BitVec 8
  orderid : BitVec 64
  quantity : BitVec 32
  symbol : BitVec 64
  executedQty : BitVec 32
  canceledQty : BitVec 32
  remainingQty : BitVec 32
  seqNo : BitVec 32

/-- `cmd_type_str`: nothing for a number without a type. -/
def OBCommand.cmdTypeStr (c : OBCommand) : Option CmdType :=
  match c.cmdType.toNat with
  | 0 => some .time
  | 1 => some .addOrder
  | 2 => some .orderExecuted
  | 3 => some .orderExecutedAtPrice
  | 4 => some .reduceSize
  | 5 => some .modifyOrder
  | 6 => some .deleteOrder
  | 7 => some .getEverything
  | 8 => some .getAllOrders
  | 9 => some .getTop
  | _ => none

/-- What the bench keeps; the set of order ids is there only if there is a security. -/
structure FilterBench where
  watchList : List String
  orderids : Option (Finset String)
  /-- By order id and sequence number: the command and the time it was sent. -/
  msgs : List (String × OBCommand × Int)
  expectedMsgsCount : Nat

/-- `__init__`: every turn of the loop over the securities makes the set anew. -/
def FilterBench.init {security : Type} (watchList : List String) (securities : List security) :
    FilterBench :=
  { watchList
    -- Without a security the attribute is never set.
    orderids := securities.foldl (fun _ _ => some ∅) none
    msgs := []
    expectedMsgsCount := 0 }

/-- A dictionary with a key set. -/
def setItem {α : Type} (key : String) (value : α) (d : List (String × α)) : List (String × α) :=
  match d with
  | [] => [(key, value)]
  -- A key that is there keeps its place.
  | (k, v) :: d => if k = key then (key, value) :: d else (k, v) :: setItem key value d

/-- `log_command_send`; without a set of order ids an attribute is missing. -/
def FilterBench.logCommandSend (conv : FieldConverter) (b : FilterBench) (inObCmd : OBCommand)
    (inTimeNs : Int) : Option FilterBench :=
  let msgKey := conv.u64ToOrderid inObCmd.orderid ++ "-" ++ toString inObCmd.seqNo.toNat
  let b := { b with msgs := setItem msgKey (inObCmd, inTimeNs) b.msgs }
  -- Should this message pass through the filter?
  if inObCmd.cmdTypeStr = some .addOrder then
    if conv.u64ToSymbol inObCmd.symbol ∈ b.watchList then
      b.orderids.map fun ids =>
        { b with
          expectedMsgsCount := b.expectedMsgsCount + 1
          orderids := some (insert (conv.u64ToOrderid inObCmd.orderid) ids) }
    -- An order for another symbol leaves no trace but its message.
    else some b
  else
    -- Any other command counts if an order with its id was ever added from the watch list.
    b.orderids.map fun ids =>
      if conv.u64ToOrderid inObCmd.orderid ∈ ids then
        { b with expectedMsgsCount := b.expectedMsgsCount + 1 }
      else b

/-- The bench after some commands, each with the time it was sent. -/
def FilterBench.logAll (conv : FieldConverter) :
    FilterBench → List (OBCommand × Int) → Option FilterBench
  | b, [] => some b
  | b, (c, t) :: cs => (b.logCommandSend conv c t).bind fun b' => b'.logAll conv cs

/-- The orders in the filter, with the quantity of each. -/
abbrev Book := BitVec 64 → Option (BitVec 32)

/-- Filter.Other: a command for an order in the book, which leaves it at quantity zero. -/
def filterOther (book : Book) (c : OBCommand) (quantity : BitVec 32 → BitVec 32) : Book × Bool :=
  match book c.orderid with
  | none => (book, false)
  | some q =>
    -- An order of quantity zero is not kept.
    let rest := quantity q
    (Function.update book c.orderid (if rest = 0 then none else some rest), true)

/-- filter.wait.for.command: the book after a command, and whether the filter passes it. -/
def filterStep (conv : FieldConverter) (watchList : List String) (book : Book) (c : OBCommand) :
    Book × Bool :=
  match c.cmdTypeStr with
  | some .addOrder =>
    -- An order is kept if its symbol is watched, and replaces one with its id.
    if conv.u64ToSymbol c.symbol ∈ watchList then
      (Function.update book c.orderid (some c.quantity), true)
    else (book, false)
  -- What is left of the order depends on the type.
  | some .orderExecuted => filterOther book c fun q => q - c.executedQty
  | some .orderExecutedAtPrice => filterOther book c fun _ => c.remainingQty
  | some .reduceSize => filterOther book c fun q => q - c.canceledQty
  | some .modifyOrder => filterOther book c fun _ => c.quantity
  | some .deleteOrder => filterOther book c fun _ => 0
  | _ => (book, false)

/-- The commands that the filter passes. -/
def passed (conv : FieldConverter) (watchList : List String) : Book → List OBCommand → List OBCommand
  | _, [] => []
  | book, c :: cs =>
    let (book', passes) := filterStep conv watchList book c
    -- The book moves on with every command, passed or not.
    if passes then c :: passed conv watchList book' cs else passed conv watchList book' cs

/-- The receive loop of the test bench: so many commands are waited for. -/
def receive : Nat → List OBCommand → Option (List OBCommand)
  | 0, out => some out
  | _ + 1, [] => none
  | n + 1, _ :: out => receive n out

end MarketData.Bench
