import MarketData.Axi.FifoQueue

/-! Every AXI4-Lite transaction that `simple_fifo` accepts is handled exactly once and in order. -/

namespace MarketData

variable {depthBits dataW addrW : Nat}

/-- Memory and pointers behind a write action: a push needs room, and a clear resets the pointers. -/
def WriteOp.store {n : Nat} {α : Type} (full : Bool) (ring : Ring n α) : WriteOp α → Ring n α
  | .push x => if full then ring else ring.push x
  | .clear => { ring with wp := 0, rp := 0 }
  | .ignored => ring

namespace SimpleFifo

variable (s : SimpleFifo depthBits dataW addrW)

/-- The registers of the write address channel. -/
def aw : Latch (BitVec addrW) :=
  ⟨s.awready, s.awTaken, s.awLatched⟩

/-- The registers of the write data channel. -/
def w : Latch (BitVec dataW) :=
  ⟨s.wready, s.wTaken, s.wDataLatched⟩

/-- The registers of the read address channel. -/
def ar : Latch (BitVec addrW) :=
  ⟨s.arready, s.arTaken, s.arLatched⟩

/-- The registers of the write response channel. -/
def b : Reply (BitVec 2) :=
  ⟨s.bvalid, s.bresp⟩

/-- The registers of the read data channel. -/
def r : Reply (BitVec dataW) :=
  ⟨s.rvalid, s.rdata⟩

/-- The write address accepted in a cycle. -/
def acceptedAddress (i : AxiInputs dataW addrW) : List (BitVec addrW) :=
  s.aw.accepted i.awvalid i.awaddr

/-- The write data accepted in a cycle. -/
def acceptedData (i : AxiInputs dataW addrW) : List (BitVec dataW) :=
  s.w.accepted i.wvalid i.wdata

/-- The read address accepted in a cycle. -/
def acceptedRead (i : AxiInputs dataW addrW) : List (BitVec addrW) :=
  s.ar.accepted i.arvalid i.araddr

/-- The write action of a cycle, with its address and data. -/
def performedWrite (_ : AxiInputs dataW addrW) : List (BitVec addrW × BitVec dataW) :=
  if s.writes then [(s.awLatched, s.wDataLatched)] else []

/-- The read action of a cycle, with its address and the data it returns. -/
def performedRead (_ : AxiInputs dataW addrW) : List (BitVec addrW × BitVec dataW) :=
  if s.reads then [(s.arLatched, s.readData)] else []

/-- The handshake of a write response. -/
def writeResponse (i : AxiInputs dataW addrW) : List (BitVec 2) :=
  s.b.fetched i.bready

/-- The handshake of a read response, with its data. -/
def readResponse (i : AxiInputs dataW addrW) : List (BitVec dataW) :=
  s.r.fetched i.rready

/-- Memory and pointers behind the actions of a cycle, each a request with its data.

A pop moves the read pointer on, if there is something to read, whatever a clear does to it. -/
def acted (writes reads : List (BitVec addrW × BitVec dataW)) : Ring depthBits (BitVec dataW) :=
  let ring := writes.foldl (fun ring write => (writeOp write.1 write.2).store s.full ring) s.ring
  if reads.any (fun read => readOp read.1 = .pop) && !s.empty then { ring with rp := s.rp + 1 }
  else ring

/-- What is observed along an input waveform. -/
def along {ε : Type} (see : SimpleFifo depthBits dataW addrW → AxiInputs dataW addrW → List ε)
    (is : List (AxiInputs dataW addrW)) : List ε :=
  observed step see s is

/-- No channel accepts a request while it holds one. -/
structure OneAtATime : Prop where
  aw : s.aw.Single
  w : s.w.Single
  ar : s.ar.Single

/-- The addresses and data accepted, the n-th address with the n-th data. -/
def acceptedWrites (is : List (AxiInputs dataW addrW)) : List (BitVec addrW × BitVec dataW) :=
  (s.along acceptedAddress is).zip (s.along acceptedData is)

section Channels

variable {s} {i : AxiInputs dataW addrW}

/-- The write address channel is a latch that the write action uses. -/
theorem aw_step (running : i.Running) : (s.step i).aw = s.aw.step i.awvalid i.awaddr s.writes := by
  -- The assignments to its three registers are those of a latch.
  have out : i.aresetn = true := running
  simp [aw, step, Latch.step, out]

/-- The write data channel is a latch that the write action uses. -/
theorem w_step (running : i.Running) : (s.step i).w = s.w.step i.wvalid i.wdata s.writes := by
  -- The assignments to its three registers are those of a latch.
  have out : i.aresetn = true := running
  simp [w, step, Latch.step, out]

/-- The read address channel is a latch that the read action uses. -/
theorem ar_step (running : i.Running) : (s.step i).ar = s.ar.step i.arvalid i.araddr s.reads := by
  -- The assignments to its three registers are those of a latch.
  have out : i.aresetn = true := running
  simp [ar, step, Latch.step, out]

/-- The write response channel offers the response of the write action. -/
theorem b_step (running : i.Running) :
    (s.step i).b = s.b.step (if s.writes then some 0 else none) i.bready := by
  -- The assignments to its two registers are those of a reply.
  have out : i.aresetn = true := running
  cases writes : s.writes <;> simp [b, step, Reply.step, out, writes]

/-- The read data channel offers the data of the read action. -/
theorem r_step (running : i.Running) :
    (s.step i).r = s.r.step (if s.reads then some s.readData else none) i.rready := by
  -- The assignments to its two registers are those of a reply.
  have out : i.aresetn = true := running
  cases reads : s.reads <;> simp [r, step, Reply.step, out, reads]

/-- A write action uses an address and a datum that are held. -/
theorem writes_taken (act : s.writes = true) : s.aw.taken = true ∧ s.w.taken = true := by
  -- Both are conditions of the action.
  simp only [writes, Bool.and_eq_true] at act
  exact act.1

/-- A read action uses an address that is held. -/
theorem reads_taken (act : s.reads = true) : s.ar.taken = true := by
  -- It is a condition of the action.
  simp only [reads, Bool.and_eq_true] at act
  exact act.1

/-- A write action needs a free response channel. -/
theorem writes_free (act : (if s.writes then some (0 : BitVec 2) else none).isSome = true) :
    s.b.valid = false := by
  -- It is performed only while no response is on offer.
  cases writes : s.writes with
  | false => simp [writes] at act
  | true =>
    simp only [SimpleFifo.writes, Bool.and_eq_true] at writes
    simpa [b] using writes.2

/-- A read action needs a free data channel. -/
theorem reads_free (act : (if s.reads then some s.readData else none).isSome = true) :
    s.r.valid = false := by
  -- It is performed only while no data is on offer.
  cases reads : s.reads with
  | false => simp [reads] at act
  | true =>
    simp only [SimpleFifo.reads, Bool.and_eq_true] at reads
    simpa [r] using reads.2

/-- No channel ever accepts a request while it holds one. -/
theorem OneAtATime.step (single : s.OneAtATime) (running : i.Running) :
    (s.step i).OneAtATime where
  -- Each of the channels is a latch of its own.
  aw := by
    rw [aw_step running]
    exact single.aw.step _ _ _
  w := by
    rw [w_step running]
    exact single.w.step _ _ _
  ar := by
    rw [ar_step running]
    exact single.ar.step _ _ _

end Channels

/-- What a register still holds is at most one value. -/
theorem pending_le_one {α : Type} (held : Bool) (x : α) :
    (if held then [x] else []).length ≤ 1 := by
  -- One value if it is held, none otherwise.
  cases held <;> simp

/-- Pairs stay pairs when both lists grow. -/
theorem zip_prefix {α β : Type} (as : List α) :
    ∀ (bs : List β) (as' : List α) (bs' : List β),
      as.zip bs <+: (as ++ as').zip (bs ++ bs') := by
  -- Induction on the first list.
  induction as with
  | nil => exact fun _ _ _ => List.nil_prefix
  | cons a as ih =>
    intro bs as' bs'
    cases bs with
    | nil => exact List.nil_prefix
    | cons b bs => simpa using ih bs as' bs'

section Accounts

variable {s} {is : List (AxiInputs dataW addrW)}

/-- An image of what is observed is observed as the image. -/
theorem along_map {ε δ : Type} (f : ε → δ)
    (see : SimpleFifo depthBits dataW addrW → AxiInputs dataW addrW → List ε) :
    (s.along see is).map f = s.along (fun t i => (see t i).map f) is :=
  observed_map step f see s is

/-- What every cycle conserves is conserved along a waveform. -/
theorem along_conserved {ε : Type} (pending : SimpleFifo depthBits dataW addrW → List ε)
    {incoming outgoing : SimpleFifo depthBits dataW addrW → AxiInputs dataW addrW → List ε}
    (flow : ∀ t i, OneAtATime t → i.Running →
      pending t ++ incoming t i = outgoing t i ++ pending (t.step i))
    (single : s.OneAtATime) (running : ∀ i ∈ is, i.Running) :
    pending s ++ s.along incoming is = s.along outgoing is ++ pending (s.run is) := by
  -- The channels stay one at a time, so every cycle of the run conserves.
  have kept : ∀ (t : SimpleFifo depthBits dataW addrW) i, t.OneAtATime → i.Running →
      (t.step i).OneAtATime := fun _ _ single running => single.step running
  exact observed_conserved kept flow single running

/-- Every accepted write address is used or still held. -/
theorem addresses_accounted (single : s.OneAtATime) (running : ∀ i ∈ is, i.Running) :
    s.aw.pending ++ s.along acceptedAddress is =
      (s.along performedWrite is).map Prod.fst ++ (s.run is).aw.pending := by
  -- Each cycle conserves what the latch holds.
  rw [along_map]
  refine along_conserved (fun t => t.aw.pending) ?_ single running
  intro t i single running
  have flow := single.aw.flow i.awvalid i.awaddr fun act : t.writes = true => (writes_taken act).1
  rw [← aw_step running] at flow
  rw [acceptedAddress, flow, performedWrite]
  cases t.writes <;> rfl

/-- Every accepted write datum is used or still held. -/
theorem data_accounted (single : s.OneAtATime) (running : ∀ i ∈ is, i.Running) :
    s.w.pending ++ s.along acceptedData is =
      (s.along performedWrite is).map Prod.snd ++ (s.run is).w.pending := by
  -- Each cycle conserves what the latch holds.
  rw [along_map]
  refine along_conserved (fun t => t.w.pending) ?_ single running
  intro t i single running
  have flow := single.w.flow i.wvalid i.wdata fun act : t.writes = true => (writes_taken act).2
  rw [← w_step running] at flow
  rw [acceptedData, flow, performedWrite]
  cases t.writes <;> rfl

/-- Every accepted read address is used or still held. -/
theorem reads_accounted (single : s.OneAtATime) (running : ∀ i ∈ is, i.Running) :
    s.ar.pending ++ s.along acceptedRead is =
      (s.along performedRead is).map Prod.fst ++ (s.run is).ar.pending := by
  -- Each cycle conserves what the latch holds.
  rw [along_map]
  refine along_conserved (fun t => t.ar.pending) ?_ single running
  intro t i single running
  have flow := single.ar.flow i.arvalid i.araddr fun act : t.reads = true => reads_taken act
  rw [← ar_step running] at flow
  rw [acceptedRead, flow, performedRead]
  cases t.reads <;> rfl

/-- Every write action has had its response or is offering it. -/
theorem responses_accounted (single : s.OneAtATime) (running : ∀ i ∈ is, i.Running) :
    s.b.pending ++ (s.along performedWrite is).map (fun _ => 0) =
      s.along writeResponse is ++ (s.run is).b.pending := by
  -- Each cycle conserves what the response channel offers.
  rw [along_map]
  refine along_conserved (fun t => t.b.pending) ?_ single running
  intro t i _ running
  have flow := t.b.flow i.bready writes_free
  rw [← b_step running] at flow
  rw [writeResponse, ← flow, performedWrite]
  cases t.writes <;> rfl

/-- The data of every read action has been fetched or is on offer. -/
theorem fetches_accounted (single : s.OneAtATime) (running : ∀ i ∈ is, i.Running) :
    s.r.pending ++ (s.along performedRead is).map Prod.snd =
      s.along readResponse is ++ (s.run is).r.pending := by
  -- Each cycle conserves what the data channel offers.
  rw [along_map]
  refine along_conserved (fun t => t.r.pending) ?_ single running
  intro t i _ running
  have flow := t.r.flow i.rready reads_free
  rw [← r_step running] at flow
  rw [readResponse, ← flow, performedRead]
  cases t.reads <;> rfl

/-- The accepted pairs are those of the write actions and the pair still held. -/
theorem acceptedWrites_eq (single : s.OneAtATime) (running : ∀ i ∈ is, i.Running)
    (noAddress : s.aw.pending = []) (noData : s.w.pending = []) :
    s.acceptedWrites is =
      s.along performedWrite is ++ (s.run is).aw.pending.zip (s.run is).w.pending := by
  -- Addresses and data have the same write actions in front.
  have addresses := addresses_accounted single running
  have data := data_accounted single running
  rw [noAddress, List.nil_append] at addresses
  rw [noData, List.nil_append] at data
  rw [acceptedWrites, addresses, data, List.zip_append (by simp)]
  congr 1
  exact (List.zip_of_prod rfl rfl).symm

/-- A pair that is held is used once the response before it has been fetched. -/
theorem writes_serve : Serves step AxiInputs.Running
    (fun t : SimpleFifo depthBits dataW addrW => t.awTaken && t.wTaken) bvalid
    AxiInputs.bready where
  -- A response is offered exactly if a pair is held and none is on offer.
  replies t i running := by
    have out : i.aresetn = true := running
    have act : t.writes = (t.awTaken && t.wTaken && !t.bvalid) := rfl
    cases offered : t.bvalid <;> cases held : t.awTaken && t.wTaken <;>
      simp [step, out, act, offered, held]
  waits t i running held offered := by
    have out : i.aresetn = true := running
    simp only [Bool.and_eq_true] at held
    simp [step, out, writes, held, offered]

/-- A read address that is held is used once the data before it has been fetched. -/
theorem reads_serve : Serves step AxiInputs.Running
    (fun t : SimpleFifo depthBits dataW addrW => t.arTaken) rvalid AxiInputs.rready where
  -- As with writes, the data being the response.
  replies t i running := by
    have out : i.aresetn = true := running
    have act : t.reads = (t.arTaken && !t.rvalid) := rfl
    cases offered : t.rvalid <;> cases held : t.arTaken <;> simp [step, out, act, offered, held]
  waits t i running held offered := by
    have out : i.aresetn = true := running
    simp [step, out, reads, held, offered]

/-- Memory and pointers change by the actions that are performed, and by nothing else. -/
theorem ring_step {i : AxiInputs dataW addrW} (running : i.Running) :
    (s.step i).ring = s.acted (s.performedWrite i) (s.performedRead i) := by
  have out : i.aresetn = true := running
  -- The read pointer is assigned last by a pop.
  have pops : s.pops = ((s.performedRead i).any (fun read => readOp read.1 = .pop) && !s.empty) := by
    have pop : decide (readOp s.arLatched = .pop) = decide (register s.arLatched = 0#2) := by
      rw [decide_eq_decide, readOp]
      split
      · rename_i first
        exact ⟨fun _ => first, fun _ => rfl⟩
      · rename_i first
        refine ⟨fun same => ?_, fun same => absurd same first⟩
        split at same
        · cases same
        · split at same <;> cases same
    rw [SimpleFifo.pops, performedRead]
    cases s.reads with
    | false => rfl
    | true =>
      rw [if_pos rfl, List.any_cons, List.any_nil, Bool.or_false, pop, Bool.true_and]
  -- The write action is one of three.
  have written : (⟨if s.pushes then Function.update s.mem (s.wp.setWidth depthBits) s.wDataLatched
        else s.mem, if s.pushes then s.wp + 1 else if s.clears then 0 else s.wp,
        if s.clears then 0 else s.rp⟩ : Ring depthBits (BitVec dataW)) =
      (s.performedWrite i).foldl
        (fun ring write => (writeOp write.1 write.2).store s.full ring) s.ring := by
    rw [pushes, clears, performedWrite]
    cases s.writes with
    | false => rfl
    | true =>
      rw [if_pos rfl, List.foldl_cons, List.foldl_nil, writeOp]
      by_cases push : register s.awLatched = 0#2
      · have clear : ¬ register s.awLatched = 3#2 := by
          rw [push]
          decide
        cases full : s.full <;> simp [push, ring, Ring.push, Ring.cell, WriteOp.store]
      · by_cases clear : register s.awLatched = 3#2
        · simp [clear, ring, WriteOp.store]
        · simp [push, clear, ring, WriteOp.store]
  rw [acted, ← pops, ← written]
  cases taken : s.pops <;> simp [ring, step, out, taken]

/-- A write response is the fetching of an answer. -/
theorem writeResponse_length (t : SimpleFifo depthBits dataW addrW)
    (js : List (AxiInputs dataW addrW)) :
    (t.along writeResponse js).length =
      (observed step (fetches bvalid AxiInputs.bready) t js).length := by
  -- Only the value of the response is forgotten.
  have image : (fun (t : SimpleFifo depthBits dataW addrW) i =>
      (t.writeResponse i).map fun _ => ()) = fetches bvalid AxiInputs.bready := by
    funext t i
    unfold writeResponse Reply.fetched fetches b
    cases (t.bvalid && i.bready) <;> rfl
  rw [← image, ← List.length_map (fun _ => ()), along_map]
  rfl

/-- A read response is the fetching of an answer. -/
theorem readResponse_length (t : SimpleFifo depthBits dataW addrW)
    (js : List (AxiInputs dataW addrW)) :
    (t.along readResponse js).length =
      (observed step (fetches rvalid AxiInputs.rready) t js).length := by
  -- Only the data of the response is forgotten.
  have image : (fun (t : SimpleFifo depthBits dataW addrW) i =>
      (t.readResponse i).map fun _ => ()) = fetches rvalid AxiInputs.rready := by
    funext t i
    unfold readResponse Reply.fetched fetches r
    cases (t.rvalid && i.rready) <;> rfl
  rw [← image, ← List.length_map (fun _ => ()), along_map]
  rfl

/-- The channels come out of reset empty. -/
structure Fresh (s : SimpleFifo depthBits dataW addrW) : Prop where
  single : s.OneAtATime
  aw : s.aw.pending = []
  w : s.w.pending = []
  ar : s.ar.pending = []
  b : s.b.pending = []
  r : s.r.pending = []

/-- Reset empties the channels. -/
theorem AfterReset.fresh (reset : s.AfterReset) : s.Fresh := by
  -- Every ready, taken and valid flag is low.
  obtain ⟨t, i, low, rfl⟩ := reset
  constructor
  · constructor
    all_goals simp [SimpleFifo.aw, SimpleFifo.w, SimpleFifo.ar, Latch.Single, step, low]
  all_goals simp [SimpleFifo.aw, SimpleFifo.w, SimpleFifo.ar, SimpleFifo.b, SimpleFifo.r,
    Latch.pending, Reply.pending, step, low]

/-- How many accepted writes have not been answered. -/
theorem writes_due (fresh : s.Fresh) (running : ∀ i ∈ is, i.Running) :
    (s.acceptedWrites is).length = (s.along writeResponse is).length +
      (((s.run is).awTaken && (s.run is).wTaken).toNat + (s.run is).bvalid.toNat) := by
  -- They wait in the latches or their response is on offer.
  have pairs := acceptedWrites_eq fresh.single running fresh.aw fresh.w
  have answers := responses_accounted fresh.single running
  rw [fresh.b, List.nil_append] at answers
  have sizes := congrArg List.length answers
  rw [List.length_map, List.length_append] at sizes
  have held : ((s.run is).aw.pending.zip (s.run is).w.pending).length =
      ((s.run is).awTaken && (s.run is).wTaken).toNat := by
    unfold Latch.pending SimpleFifo.aw SimpleFifo.w
    cases (s.run is).awTaken <;> cases (s.run is).wTaken <;> rfl
  have offered : (s.run is).b.pending.length = (s.run is).bvalid.toNat := by
    unfold Reply.pending SimpleFifo.b
    cases (s.run is).bvalid <;> rfl
  rw [pairs, List.length_append, held, sizes, offered]
  omega

/-- How many accepted reads have not been answered. -/
theorem reads_due (fresh : s.Fresh) (running : ∀ i ∈ is, i.Running) :
    (s.along acceptedRead is).length = (s.along readResponse is).length +
      ((s.run is).arTaken.toNat + (s.run is).rvalid.toNat) := by
  -- They wait in the latch or their data is on offer.
  have requests := reads_accounted fresh.single running
  have answers := fetches_accounted fresh.single running
  rw [fresh.ar, List.nil_append] at requests
  rw [fresh.r, List.nil_append] at answers
  have sizes := congrArg List.length answers
  have sizes' := congrArg List.length requests
  rw [List.length_map, List.length_append] at sizes
  rw [List.length_append, List.length_map] at sizes'
  have held : (s.run is).ar.pending.length = (s.run is).arTaken.toNat := by
    unfold Latch.pending SimpleFifo.ar
    cases (s.run is).arTaken <;> rfl
  have offered : (s.run is).r.pending.length = (s.run is).rvalid.toNat := by
    unfold Reply.pending SimpleFifo.r
    cases (s.run is).rvalid <;> rfl
  omega

/-- In three ready cycles every accepted write is answered. -/
theorem writes_answered (fresh : s.Fresh) (running : ∀ i ∈ is, i.Running)
    {js : List (AxiInputs dataW addrW)} (later : ∀ j ∈ js, j.Running)
    (enough : 3 ≤ js.countP AxiInputs.bready) :
    (s.acceptedWrites is).length ≤ (s.along writeResponse (is ++ js)).length := by
  -- At most two are due, and the first of two is on offer.
  have due := writes_due fresh running
  have one := Bool.toNat_le ((s.run is).awTaken && (s.run is).wTaken)
  have two := Bool.toNat_le (s.run is).bvalid
  have served := writes_serve.served (s := s.run is) js (Nat.le_refl _) later (by omega)
  rw [← writeResponse_length] at served
  have split : s.along writeResponse (is ++ js) =
      s.along writeResponse is ++ (s.run is).along writeResponse js :=
    observed_append step writeResponse s is js
  rw [split, List.length_append]
  omega

/-- In three ready cycles every accepted read is answered. -/
theorem reads_answered (fresh : s.Fresh) (running : ∀ i ∈ is, i.Running)
    {js : List (AxiInputs dataW addrW)} (later : ∀ j ∈ js, j.Running)
    (enough : 3 ≤ js.countP AxiInputs.rready) :
    (s.along acceptedRead is).length ≤ (s.along readResponse (is ++ js)).length := by
  -- At most two are due, and the first of two is on offer.
  have due := reads_due fresh running
  have one := Bool.toNat_le (s.run is).arTaken
  have two := Bool.toNat_le (s.run is).rvalid
  have served := reads_serve.served (s := s.run is) js (Nat.le_refl _) later (by omega)
  rw [← readResponse_length] at served
  have split : s.along readResponse (is ++ js) =
      s.along readResponse is ++ (s.run is).along readResponse js :=
    observed_append step readResponse s is js
  rw [split, List.length_append]
  omega

end Accounts

/-- Every accepted transaction of a waveform is handled exactly once and in order. -/
structure HandlesOnce (s : SimpleFifo depthBits dataW addrW) (is : List (AxiInputs dataW addrW)) :
    Prop where
  /-- The write actions are the accepted pairs in order; at most the last pair still waits. -/
  writes : ∃ waiting, waiting.length ≤ 1 ∧
    s.acceptedWrites is = s.along performedWrite is ++ waiting
  /-- Each write action has one response; at most the last response is still on offer. -/
  responses : ∃ offered, offered.length ≤ 1 ∧
    (s.along performedWrite is).map (fun _ => 0) = s.along writeResponse is ++ offered
  /-- The read actions are the accepted addresses in order; at most the last one still waits. -/
  reads : ∃ waiting, waiting.length ≤ 1 ∧
    s.along acceptedRead is = (s.along performedRead is).map Prod.fst ++ waiting
  /-- Each read action has its data fetched once; at most the last data is still on offer. -/
  data : ∃ offered, offered.length ≤ 1 ∧
    (s.along performedRead is).map Prod.snd = s.along readResponse is ++ offered
  /-- In every cycle the actions that are performed, and nothing else, change memory and pointers. -/
  acts : ∀ early i late, is = early ++ i :: late →
    ((s.run early).step i).ring =
      (s.run early).acted ((s.run early).performedWrite i) ((s.run early).performedRead i)
  /-- A channel without a request takes the next one, now or from the next cycle on. -/
  offers : ∀ early i late, is = early ++ i :: late →
    ((s.run early).awTaken = false →
      (s.run early).awready = true ∨ ((s.run early).step i).awready = true) ∧
    ((s.run early).wTaken = false →
      (s.run early).wready = true ∨ ((s.run early).step i).wready = true) ∧
    ((s.run early).arTaken = false →
      (s.run early).arready = true ∨ ((s.run early).step i).arready = true)
  /-- A write response is held until it is fetched. -/
  bHeld : ∀ early i late, is = early ++ i :: late → (s.run early).bvalid = true →
    i.bready = false →
    ((s.run early).step i).bvalid = true ∧ ((s.run early).step i).bresp = (s.run early).bresp
  /-- Read data is held until it is fetched. -/
  rHeld : ∀ early i late, is = early ++ i :: late → (s.run early).rvalid = true →
    i.rready = false →
    ((s.run early).step i).rvalid = true ∧ ((s.run early).step i).rdata = (s.run early).rdata
  /-- With the master ready three times, no accepted write is lost. -/
  writesAnswered : ∀ js, (∀ j ∈ js, j.Running) → 3 ≤ js.countP AxiInputs.bready →
    s.acceptedWrites is <+: s.along performedWrite (is ++ js) ∧
      (s.acceptedWrites is).length ≤ (s.along writeResponse (is ++ js)).length
  /-- With the master ready three times, no accepted read is lost. -/
  readsAnswered : ∀ js, (∀ j ∈ js, j.Running) → 3 ≤ js.countP AxiInputs.rready →
    s.along acceptedRead is <+: (s.along performedRead (is ++ js)).map Prod.fst ∧
      (s.along acceptedRead is).length ≤ (s.along readResponse (is ++ js)).length

section Held

variable {s} {is : List (AxiInputs dataW addrW)}

/-- In the cycles of a waveform the inputs are out of reset. -/
theorem running_split {early late : List (AxiInputs dataW addrW)} {i : AxiInputs dataW addrW}
    (running : ∀ i ∈ is, i.Running) (split : is = early ++ i :: late) : i.Running :=
  running i (by rw [split]; simp)

/-- The accepted writes of a longer waveform start with those of a shorter one. -/
theorem acceptedWrites_initial (js : List (AxiInputs dataW addrW)) :
    s.acceptedWrites is <+: s.acceptedWrites (is ++ js) := by
  -- Addresses and data are accepted behind those accepted before.
  unfold acceptedWrites along
  rw [observed_append, observed_append]
  exact zip_prefix _ _ _ _

/-- In three ready cycles every accepted write is performed. -/
theorem writes_performed (fresh : s.Fresh) (running : ∀ i ∈ is, i.Running)
    {js : List (AxiInputs dataW addrW)} (later : ∀ j ∈ js, j.Running)
    (enough : 3 ≤ js.countP AxiInputs.bready) :
    s.acceptedWrites is <+: s.along performedWrite (is ++ js) := by
  -- As many responses as accepted writes have been fetched, and each is that of an action.
  have answered := writes_answered fresh running later enough
  have all : ∀ i ∈ is ++ js, i.Running := List.forall_mem_append.mpr ⟨running, later⟩
  have done := responses_accounted fresh.single all
  rw [fresh.b, List.nil_append] at done
  have sizes := congrArg List.length done
  rw [List.length_map, List.length_append] at sizes
  have performed : s.along performedWrite (is ++ js) <+: s.acceptedWrites (is ++ js) := by
    rw [acceptedWrites_eq fresh.single all fresh.aw fresh.w]
    exact List.prefix_append _ _
  exact List.prefix_of_prefix_length_le (acceptedWrites_initial js) performed (by omega)

/-- In three ready cycles every accepted read is performed. -/
theorem reads_performed (fresh : s.Fresh) (running : ∀ i ∈ is, i.Running)
    {js : List (AxiInputs dataW addrW)} (later : ∀ j ∈ js, j.Running)
    (enough : 3 ≤ js.countP AxiInputs.rready) :
    s.along acceptedRead is <+: (s.along performedRead (is ++ js)).map Prod.fst := by
  -- The data of as many actions as accepted reads has been fetched.
  have answered := reads_answered fresh running later enough
  have all : ∀ i ∈ is ++ js, i.Running := List.forall_mem_append.mpr ⟨running, later⟩
  have done := fetches_accounted fresh.single all
  rw [fresh.r, List.nil_append] at done
  have sizes := congrArg List.length done
  rw [List.length_map, List.length_append] at sizes
  have performed : (s.along performedRead (is ++ js)).map Prod.fst <+:
      s.along acceptedRead (is ++ js) := by
    have account := reads_accounted fresh.single all
    rw [fresh.ar, List.nil_append] at account
    rw [account]
    exact List.prefix_append _ _
  have longer : s.along acceptedRead is <+: s.along acceptedRead (is ++ js) := by
    unfold along
    rw [observed_append]
    exact List.prefix_append _ _
  exact List.prefix_of_prefix_length_le longer performed (by rw [List.length_map]; omega)

end Held

/-- `simple_fifo` handles every transaction that it accepts after reset exactly once, in order. -/
theorem transactions_handled_once {s : SimpleFifo depthBits dataW addrW} (reset : s.AfterReset)
    (is : List (AxiInputs dataW addrW)) (running : ∀ i ∈ is, i.Running) : s.HandlesOnce is := by
  -- The accounts of the five channels from reset on, and what is due at the end.
  have fresh := reset.fresh
  have pairs := acceptedWrites_eq fresh.single running fresh.aw fresh.w
  have answers := responses_accounted fresh.single running
  have requests := reads_accounted fresh.single running
  have fetched := fetches_accounted fresh.single running
  rw [fresh.b, List.nil_append] at answers
  rw [fresh.ar, List.nil_append] at requests
  rw [fresh.r, List.nil_append] at fetched
  refine ⟨⟨_, ?_, pairs⟩, ⟨_, pending_le_one _ _, answers⟩, ⟨_, pending_le_one _ _, requests⟩,
    ⟨_, pending_le_one _ _, fetched⟩, ?_, ?_, ?_, ?_, ?_, ?_⟩
  · rw [List.length_zip]
    exact Nat.le_trans (Nat.min_le_left _ _) (pending_le_one _ _)
  · exact fun early i late split => ring_step (running_split running split)
  · intro early i late split
    have out := running_split running split
    have offers : ∀ {α : Type} {l : Latch α} {valid : Bool} {x : α} {use : Bool} {next : Latch α},
        next = l.step valid x use → l.taken = false → l.ready = true ∨ next.ready = true := by
      rintro α l valid x use next rfl free
      exact Latch.offers free valid x use
    exact ⟨offers (aw_step out), offers (w_step out), offers (ar_step out)⟩
  · intro early i late split offered waits
    have held := Reply.holds (writes_free (s := s.run early)) offered waits
    rwa [← b_step (running_split running split)] at held
  · intro early i late split offered waits
    have held := Reply.holds (reads_free (s := s.run early)) offered waits
    rwa [← r_step (running_split running split)] at held
  · exact fun js later enough => ⟨writes_performed fresh running later enough,
      writes_answered fresh running later enough⟩
  · exact fun js later enough => ⟨reads_performed fresh running later enough,
      reads_answered fresh running later enough⟩

/-- Two writes and a read, address before data, data before address and both together. -/
def mixedTransactions : List (AxiInputs 32 5) :=
  [waitingInputs, { waitingInputs with awvalid := true },
    { waitingInputs with wvalid := true, wdata := 7, arvalid := true, rready := false },
    { waitingInputs with rready := false }, waitingInputs,
    { waitingInputs with wvalid := true, wdata := 8 }, { waitingInputs with awvalid := true },
    waitingInputs, waitingInputs]

/-- Both writes are performed with their data, in the order of acceptance. -/
example : started.along performedWrite mixedTransactions = [(0, 7), (0, 8)] := by decide

/-- The waveform is handled exactly once. -/
theorem mixedTransactions_handled : started.HandlesOnce mixedTransactions :=
  transactions_handled_once started_afterReset mixedTransactions
    (by simp [mixedTransactions, AxiInputs.Running, waitingInputs])

end SimpleFifo

end MarketData
