import Mathlib.Data.List.Basic
import Mathlib.Logic.Function.Basic
import Mathlib.Tactic.Common

/-! The broker of the capture server and its client threads, one atomic step at a time. -/

namespace MarketData.Server

/-- `QUEUE_MAX`: lines a slow client may fall behind. -/
def queueMax : Nat := 4096

/-- Where a client thread stands. -/
inductive Phase where
  /-- Before its request was read. -/
  | connected
  /-- The names are set, the broker does not know the client yet. -/
  | subscribed
  /-- At the condition of the forward loop. -/
  | looping
  /-- In the loop, before the swap. -/
  | waiting
  /-- Sending its batch. -/
  | sending
  /-- Behind the loop, still known to the broker. -/
  | leaving
  /-- The thread has ended. -/
  | gone
  deriving DecidableEq

/-- A client: its subscription, its queue, and what its thread took from the queue. -/
structure Client (name line : Type) where
  phase : Phase
  names : List name
  q : List line
  /-- The lines swapped out of the queue and not sent. -/
  batch : List line
  /-- The lines sent. -/
  sent : List line

/-- The steps of a client thread. -/
inductive Own (name : Type) where
  | subscribe (names : List name)
  | quit
  | add
  | enter
  | swap
  | send
  | fail
  | finish
  | leave
  | remove
  deriving DecidableEq

/-- The steps of the server; any thread may publish. -/
inductive Action (κ name line : Type) where
  | publish (n : name) (l : line)
  | stop
  | own (c : κ) (o : Own name)
  deriving DecidableEq

/-- The clients, the broker's list of them and `g_stop`. -/
structure State (κ name line : Type) where
  clients : κ → Client name line
  subs : List κ
  stop : Bool

section

variable {κ name line : Type}

/-- A client whose thread has just started. -/
def Client.fresh : Client name line :=
  ⟨.connected, [], [], [], []⟩

/-- The broker knows the client: it is behind its add and in front of its remove. -/
def Phase.active : Phase → Bool
  | .looping | .waiting | .sending | .leaving => true
  | .connected | .subscribed | .gone => false

/-- A step of `client_thread`, where the thread stands in front of it. -/
def Client.own (x : Client name line) : Own name → Option (Client name line)
  | .subscribe names =>
    if x.phase = .connected then some { x with phase := .subscribed, names } else none
  -- No request came or the hello line could not be sent.
  | .quit =>
    if x.phase = .connected ∨ x.phase = .subscribed then some { x with phase := .gone } else none
  | .add => if x.phase = .subscribed then some { x with phase := .looping } else none
  -- The loop condition holds, and the thread waits for its queue.
  | .enter => if x.phase = .looping then some { x with phase := .waiting } else none
  -- The batch is a new empty queue when it is swapped with the client's.
  | .swap =>
    if x.phase = .waiting then some { x with phase := .sending, batch := x.q, q := [] } else none
  -- The lines of the batch are sent one by one, in their order.
  | .send =>
    match x.phase, x.batch with
    | .sending, l :: batch => some { x with batch, sent := x.sent ++ [l] }
    | _, _ => none
  -- A line that cannot be sent ends the connection; the rest of the batch is dropped.
  | .fail =>
    match x.phase, x.batch with
    | .sending, _ :: _ => some { x with phase := .leaving }
    | _, _ => none
  | .finish =>
    if x.phase = .sending ∧ x.batch.isEmpty then some { x with phase := .looping } else none
  -- The loop condition fails.
  | .leave => if x.phase = .looping then some { x with phase := .leaving } else none
  | .remove => if x.phase = .leaving then some { x with phase := .gone } else none

variable [DecidableEq κ] [DecidableEq name]

/-- One turn of the loop in `Broker::publish`. -/
def Client.offer (x : Client name line) (n : name) (l : line) : Client name line :=
  if !decide (n ∈ x.names) then x
  -- The queue is full: the line is dropped for this client only.
  else if x.q.length ≥ queueMax then x
  else { x with q := x.q ++ [l] }

/-- `Broker::publish`: one line for every subscriber of the name. -/
def publish (subs : List κ) (n : name) (l : line) (clients : κ → Client name line) :
    κ → Client name line :=
  subs.foldl (fun clients c => Function.update clients c ((clients c).offer n l)) clients

/-- `Broker::add`, `Broker::remove`, and no change by the other steps of a client. -/
def register (subs : List κ) (c : κ) : Own name → List κ
  | .add => subs ++ [c]
  | .remove => subs.erase c
  | _ => subs

/-- The loop condition reads `g_stop`. -/
def admits (stop : Bool) : Own name → Bool
  | .enter => !stop
  | .leave => stop
  | _ => true

/-- One atomic step. -/
def State.step (s : State κ name line) : Action κ name line → Option (State κ name line)
  | .publish n l => some { s with clients := publish s.subs n l s.clients }
  | .stop => some { s with stop := true }
  | .own c o =>
    if admits s.stop o then
      ((s.clients c).own o).map fun x =>
        { s with clients := Function.update s.clients c x, subs := register s.subs c o }
    else none

/-- The state after an interleaving of steps, if each of them is possible. -/
def State.run : State κ name line → List (Action κ name line) → Option (State κ name line)
  | s, [] => some s
  | s, a :: acts => (s.step a).bind fun s' => s'.run acts

/-- Before any client has come. -/
def State.init : State κ name line :=
  ⟨fun _ => .fresh, [], false⟩

end

end MarketData.Server
