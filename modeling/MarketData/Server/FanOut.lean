import Mathlib.Data.List.Nodup
import MarketData.Server.Broker

/-! What every client of the broker receives, over every interleaving of the steps. -/

namespace MarketData.Server

section

variable {κ name line : Type}

/-- The lines sent, then the unsent part of the batch, then the queue. -/
def Client.stream (x : Client name line) : List line :=
  x.sent ++ x.batch ++ x.q

/-- A client's queue is bounded, and only a thread that sends or has sent holds a batch. -/
structure Client.Sound (x : Client name line) : Prop where
  bounded : x.q.length ≤ queueMax
  batchless : x.phase = .waiting → x.batch = []
  looped : x.phase = .looping → x.batch = []
  early : x.phase = .connected ∨ x.phase = .subscribed → x.batch = []

/-- A subscription chooses the names of a client. -/
def Own.chooses : Own name → List name → List name
  | .subscribe chosen, _ => chosen
  | _, names => names

/-- An add lets the broker know a client, a remove lets it forget the client. -/
def Own.activity : Own name → Bool → Bool
  | .add, _ => true
  | .remove, _ => false
  | _, known => known

section Own

variable {x x' : Client name line} {o : Own name}

/-- A line is sent from the front of the batch. -/
theorem Client.own_send (step : x.own .send = some x') :
    x.phase = .sending ∧ ∃ l batch, x.batch = l :: batch ∧
      x' = { x with batch, sent := x.sent ++ [l] } := by
  -- In any other phase, and without a batch, there is nothing to send.
  cases phase : x.phase with
  | sending =>
    cases unsent : x.batch with
    | nil => simp [Client.own, phase, unsent] at step
    | cons l batch =>
      simp only [Client.own, phase, unsent, Option.some.injEq] at step
      exact ⟨rfl, l, batch, rfl, step.symm⟩
  | _ => simp [Client.own, phase] at step

/-- A failed send ends the loop and leaves the rest of the batch. -/
theorem Client.own_fail (step : x.own .fail = some x') :
    x.phase = .sending ∧ x' = { x with phase := .leaving } := by
  -- In any other phase, and without a batch, there is nothing to send.
  cases phase : x.phase with
  | sending =>
    cases unsent : x.batch with
    | nil => simp [Client.own, phase, unsent] at step
    | cons l batch =>
      simp only [Client.own, phase, unsent, Option.some.injEq] at step
      exact ⟨rfl, step.symm⟩
  | _ => simp [Client.own, phase] at step

/-- A step of the thread neither adds to the stream nor takes from it. -/
theorem Client.Sound.own (sound : x.Sound) {o : Own name} (step : x.own o = some x') :
    x'.Sound ∧ x'.stream = x.stream := by
  -- Each step is possible in one phase only; the batch is empty when the queue is swapped.
  obtain ⟨bounded, batchless, looped, early⟩ := sound
  cases o with
  | subscribe names =>
    obtain ⟨phase, rfl⟩ := by simpa [Client.own] using step
    exact ⟨⟨bounded, by simp, by simp, fun _ => early (.inl phase)⟩, rfl⟩
  | quit =>
    obtain ⟨phase, rfl⟩ := by simpa [Client.own] using step
    exact ⟨⟨bounded, by simp, by simp, by simp⟩, rfl⟩
  | add =>
    obtain ⟨phase, rfl⟩ := by simpa [Client.own] using step
    exact ⟨⟨bounded, by simp, fun _ => early (.inr phase), by simp⟩, rfl⟩
  | enter =>
    obtain ⟨phase, rfl⟩ := by simpa [Client.own] using step
    exact ⟨⟨bounded, fun _ => looped phase, by simp, by simp⟩, rfl⟩
  | swap =>
    obtain ⟨phase, rfl⟩ := by simpa [Client.own] using step
    refine ⟨⟨Nat.zero_le _, by simp, by simp, by simp⟩, ?_⟩
    simp [Client.stream, batchless phase]
  | send =>
    obtain ⟨phase, l, batch, unsent, rfl⟩ := Client.own_send step
    refine ⟨⟨bounded, by simp [phase], by simp [phase], by simp [phase]⟩, ?_⟩
    simp [Client.stream, unsent]
  | fail =>
    obtain ⟨phase, rfl⟩ := Client.own_fail step
    exact ⟨⟨bounded, by simp, by simp, by simp⟩, rfl⟩
  | finish =>
    obtain ⟨⟨phase, done⟩, rfl⟩ := by simpa [Client.own] using step
    exact ⟨⟨bounded, by simp, fun _ => done, by simp⟩, rfl⟩
  | leave =>
    obtain ⟨phase, rfl⟩ := by simpa [Client.own] using step
    exact ⟨⟨bounded, by simp, by simp, by simp⟩, rfl⟩
  | remove =>
    obtain ⟨phase, rfl⟩ := by simpa [Client.own] using step
    exact ⟨⟨bounded, by simp, by simp, by simp⟩, rfl⟩

/-- The broker knows a client from its add to its remove. -/
theorem Client.own_active (step : x.own o = some x') :
    x'.phase.active = o.activity x.phase.active := by
  -- Each step is possible in one phase only.
  cases o with
  | send =>
    obtain ⟨_, _, _, _, rfl⟩ := Client.own_send step
    rfl
  | fail =>
    obtain ⟨phase, rfl⟩ := Client.own_fail step
    rw [phase]
    rfl
  | quit =>
    obtain ⟨phase | phase, rfl⟩ := by simpa [Client.own] using step
    all_goals rw [phase]; rfl
  | finish =>
    obtain ⟨⟨phase, _⟩, rfl⟩ := by simpa [Client.own] using step
    rw [phase]
    rfl
  | _ =>
    obtain ⟨phase, rfl⟩ := by simpa [Client.own] using step
    rw [phase]
    rfl

/-- A thread sets its client's names by its subscription alone. -/
theorem Client.own_names (step : x.own o = some x') : x'.names = o.chooses x.names := by
  -- Each step is possible in one phase only.
  cases o with
  | send =>
    obtain ⟨_, _, _, _, rfl⟩ := Client.own_send step
    rfl
  | fail =>
    obtain ⟨_, rfl⟩ := Client.own_fail step
    rfl
  | _ =>
    obtain ⟨_, rfl⟩ := by simpa [Client.own] using step
    rfl

/-- A client is added while the broker does not know it. -/
theorem Client.own_add (step : x.own .add = some x') : x.phase.active = false := by
  -- The thread has its names and has not reached the loop.
  obtain ⟨phase, _⟩ := by simpa [Client.own] using step
  rw [phase]
  rfl

end Own

/-- The broker lists the active clients once each. -/
structure State.Sound (s : State κ name line) : Prop where
  listed : ∀ c, c ∈ s.subs ↔ (s.clients c).phase.active = true
  once : s.subs.Nodup
  clients : ∀ c, (s.clients c).Sound

/-- At the start nothing is queued and no client is known. -/
theorem State.init_sound : (State.init : State κ name line).Sound where
  listed _ := by simp [State.init, Client.fresh, Phase.active]
  once := List.nodup_nil
  clients _ := ⟨Nat.zero_le _, fun _ => rfl, fun _ => rfl, fun _ => rfl⟩

variable [DecidableEq κ] [DecidableEq name]

/-- The client is between its add and its remove after this step. -/
def between (c : κ) (inside : Bool) : Action κ name line → Bool
  | .own d o => if d = c then o.activity inside else inside
  | _ => inside

/-- The names that the client has subscribed to after this step. -/
def subscribed (c : κ) (names : List name) : Action κ name line → List name
  | .own d o => if d = c then o.chooses names else names
  | _ => names

/-- The line that this step publishes to one of these names, and whether the client's queue is full. -/
def published (c : κ) (inside : Bool) (names : List name) (s : State κ name line) :
    Action κ name line → List (line × Bool)
  | .publish n l =>
    if inside && decide (n ∈ names) then
      [(l, decide ((s.clients c).q.length = queueMax))]
    else []
  | _ => []

/-- The lines published to the client's names between its add and its remove, in order. -/
def heard (c : κ) :
    Bool → List name → State κ name line → List (Action κ name line) → List (line × Bool)
  | _, _, _, [] => []
  | inside, names, s, a :: acts =>
    published c inside names s a ++
      match s.step a with
      | none => []
      | some s' => heard c (between c inside a) (subscribed c names a) s' acts

/-- The lines that were published while the queue was not full. -/
def kept (lines : List (line × Bool)) : List line :=
  (lines.filter fun l => !l.2).map Prod.fst

/-- The publishes and the client's own steps. -/
def concerns (c : κ) : Action κ name line → Bool
  | .publish _ _ => true
  | .stop => false
  | .own d _ => decide (d = c)

/-- What one step of the server does to a client that it concerns. -/
def Client.follow (x : Client name line) : Action κ name line → Client name line
  | .publish n l => if x.phase.active then x.offer n l else x
  | .stop => x
  | .own _ o => (x.own o).getD x

/-- A publish offers the line to every listed client once, and to no other. -/
theorem publish_client (subs : List κ) (once : subs.Nodup) (n : name) (l : line) (c : κ) :
    ∀ clients : κ → Client name line, publish subs n l clients c =
      if c ∈ subs then (clients c).offer n l else clients c := by
  -- Induction on the list; a client is met at most once.
  induction subs with
  | nil => exact fun _ => rfl
  | cons d subs ih =>
    intro clients
    obtain ⟨absent, once'⟩ := List.nodup_cons.mp once
    have rest := ih once' (Function.update clients d ((clients d).offer n l))
    have unfold_ : publish (d :: subs) n l clients =
        publish subs n l (Function.update clients d ((clients d).offer n l)) := rfl
    rw [unfold_, rest]
    by_cases same : c = d
    · subst same
      simp [absent]
    · simp [same]

section Steps

variable {s s' : State κ name line} {x : Client name line}

/-- An offer adds the line unless the queue is full or the name is another one. -/
theorem Client.offer_eq (x : Client name line) (sound : x.Sound) (n : name) (l : line) :
    x.offer n l = if n ∈ x.names ∧ x.q.length ≠ queueMax then { x with q := x.q ++ [l] } else x := by
  -- The queue is never longer than the maximum, so a full one has it exactly.
  have bounded := sound.bounded
  unfold Client.offer
  by_cases named : n ∈ x.names
  · by_cases full : x.q.length = queueMax
    · simp [named, full]
    · have space : ¬ x.q.length ≥ queueMax := by omega
      simp [named, full, space]
  · simp [named]

/-- An offer keeps the client sound. -/
theorem Client.Sound.offer (sound : x.Sound) (n : name) (l : line) : (x.offer n l).Sound := by
  -- A line is added only below the maximum.
  have bounded := sound.bounded
  rw [x.offer_eq sound]
  split
  · rename_i space
    refine ⟨?_, sound.batchless, sound.looped, sound.early⟩
    simp only [List.length_append, List.length_singleton]
    omega
  · exact sound

/-- An offer does not move the thread. -/
theorem Client.offer_phase (x : Client name line) (n : name) (l : line) :
    (x.offer n l).phase = x.phase ∧ (x.offer n l).names = x.names := by
  -- Only the queue may change.
  unfold Client.offer
  split
  · exact ⟨rfl, rfl⟩
  · split <;> exact ⟨rfl, rfl⟩

/-- A thread's step changes its client and the broker's list. -/
theorem State.step_own {d : κ} {o : Own name} (step : s.step (.own d o) = some s') :
    ∃ x, (s.clients d).own o = some x ∧
      s' = { s with clients := Function.update s.clients d x, subs := register s.subs d o } := by
  -- The step is possible for the loop condition and for the thread.
  have unfolded : s.step (.own d o) = if admits s.stop o then ((s.clients d).own o).map fun x =>
      { s with clients := Function.update s.clients d x, subs := register s.subs d o }
    else none := rfl
  rw [unfolded] at step
  split at step
  · obtain ⟨x, own, rfl⟩ := Option.map_eq_some_iff.mp step
    exact ⟨x, own, rfl⟩
  · exact absurd step (by simp)

/-- Every step keeps the clients sound and the broker's list of them. -/
theorem State.Sound.step (sound : s.Sound) {a : Action κ name line} (step : s.step a = some s') :
    s'.Sound := by
  -- A publish moves no thread; a thread's step changes the list by its add and remove only.
  obtain ⟨listed, once, clients⟩ := sound
  cases a with
  | publish n l =>
    obtain rfl := Option.some.inj step
    refine ⟨fun c => ?_, once, fun c => ?_⟩
    · show c ∈ s.subs ↔ (publish s.subs n l s.clients c).phase.active = true
      rw [publish_client s.subs once]
      split
      · rw [((s.clients c).offer_phase n l).1]
        exact listed c
      · exact listed c
    · show (publish s.subs n l s.clients c).Sound
      rw [publish_client s.subs once]
      split
      · exact (clients c).offer n l
      · exact clients c
  | stop =>
    obtain rfl := Option.some.inj step
    exact ⟨listed, once, clients⟩
  | own d o =>
    obtain ⟨x, own, rfl⟩ := State.step_own step
    have active := Client.own_active own
    refine ⟨fun c => ?_, ?_, fun c => ?_⟩
    · by_cases same : c = d
      · subst same
        dsimp only
        rw [Function.update_self, active]
        cases o <;> simp [register, Own.activity, listed, once.mem_erase_iff]
      · dsimp only
        rw [Function.update_of_ne same, ← listed c]
        cases o <;> simp [register, same, List.mem_erase_of_ne same]
    · cases o with
      | add =>
        have unknown : d ∉ s.subs := by
          rw [listed d, Client.own_add own]
          exact Bool.false_ne_true
        have front : ([d] ++ s.subs).Nodup := List.nodup_cons.mpr ⟨unknown, once⟩
        exact List.nodup_append_comm.mp front
      | remove => exact once.erase d
      | _ => exact once
    · by_cases same : c = d
      · subst same
        dsimp only
        rw [Function.update_self]
        exact ((clients c).own own).1
      · dsimp only
        rw [Function.update_of_ne same]
        exact clients c

/-- A step of the server does to a client what the step does, if it concerns the client. -/
theorem State.Sound.follows (sound : s.Sound) {a : Action κ name line}
    (step : s.step a = some s') (c : κ) :
    s'.clients c = if concerns c a then (s.clients c).follow a else s.clients c := by
  -- A publish reaches the listed clients, which are the active ones.
  cases a with
  | publish n l =>
    obtain rfl := Option.some.inj step
    have reached := publish_client s.subs sound.once n l c s.clients
    simp only [concerns, if_true, Client.follow, ← sound.listed c]
    exact reached
  | stop =>
    obtain rfl := Option.some.inj step
    rfl
  | own d o =>
    obtain ⟨x, own, rfl⟩ := State.step_own step
    by_cases same : c = d
    · subst same
      simp [concerns, Client.follow, own]
    · simp [concerns, same, Ne.symm same]

/-- A step adds to a client's stream what it publishes while the queue is not full. -/
theorem State.Sound.stream (sound : s.Sound) {a : Action κ name line}
    (step : s.step a = some s') (c : κ) :
    (s'.clients c).stream =
      (s.clients c).stream ++
        kept (published c (s.clients c).phase.active (s.clients c).names s a) := by
  -- Only an offer changes the stream.
  rw [sound.follows step c]
  cases a with
  | publish n l =>
    simp only [concerns, if_true, Client.follow, published]
    rw [(s.clients c).offer_eq (sound.clients c)]
    by_cases active : (s.clients c).phase.active = true
    · by_cases named : n ∈ (s.clients c).names
      · by_cases full : (s.clients c).q.length = queueMax
        · simp [active, named, full, kept]
        · simp [active, named, full, kept, Client.stream]
      · simp [active, named, kept]
    · simp [active, kept]
  | stop => simp [concerns, published, kept]
  | own d o =>
    simp only [published, kept, List.filter_nil, List.map_nil, List.append_nil]
    by_cases same : d = c
    · subst same
      obtain ⟨x, own, _⟩ := State.step_own step
      simpa [concerns, Client.follow, own] using ((sound.clients d).own own).2
    · simp [concerns, same]

/-- A client is active between its add and its remove. -/
theorem State.Sound.between (sound : s.Sound) {a : Action κ name line}
    (step : s.step a = some s') (c : κ) :
    (s'.clients c).phase.active = Server.between c (s.clients c).phase.active a := by
  -- A publish moves no thread.
  rw [sound.follows step c]
  cases a with
  | publish n l =>
    simp only [concerns, if_true, Client.follow, Server.between]
    split
    · rw [((s.clients c).offer_phase n l).1]
    · rfl
  | stop => rfl
  | own d o =>
    by_cases same : d = c
    · subst same
      obtain ⟨x, own, _⟩ := State.step_own step
      simpa [concerns, Client.follow, own, Server.between] using Client.own_active own
    · simp [concerns, same, Server.between]

/-- Only the client's own subscription sets its names. -/
theorem State.Sound.subscribed (sound : s.Sound) {a : Action κ name line}
    (step : s.step a = some s') (c : κ) :
    (s'.clients c).names = Server.subscribed c (s.clients c).names a := by
  -- An action of another client or of the publisher leaves the names as they are.
  rw [sound.follows step c]
  cases a with
  | publish n l =>
    simp only [concerns, if_true, Client.follow, Server.subscribed]
    split
    · rw [((s.clients c).offer_phase n l).2]
    · rfl
  | stop => rfl
  | own d o =>
    by_cases same : d = c
    · subst same
      obtain ⟨x, own, _⟩ := State.step_own step
      simpa [concerns, Client.follow, own, Server.subscribed] using Client.own_names own
    · simp [concerns, same, Server.subscribed]

end Steps

section Runs

variable {s s' : State κ name line} {acts : List (Action κ name line)}

/-- A possible interleaving is a possible first step and a possible rest. -/
theorem State.run_cons {a : Action κ name line} (run : s.run (a :: acts) = some s') :
    ∃ t, s.step a = some t ∧ t.run acts = some s' :=
  Option.bind_eq_some_iff.mp run

/-- Every interleaving keeps the clients sound and the broker's list of them. -/
theorem State.Sound.run (acts : List (Action κ name line)) :
    ∀ {s s' : State κ name line}, s.Sound → s.run acts = some s' → s'.Sound := by
  -- Induction on the steps.
  induction acts with
  | nil =>
    intro s s' sound run
    obtain rfl := Option.some.inj run
    exact sound
  | cons a acts ih =>
    intro s s' sound run
    obtain ⟨t, step, rest⟩ := State.run_cons run
    exact ih (sound.step step) rest

/-- An interleaving adds to a client's stream what it hears while its queue is not full. -/
theorem State.Sound.run_stream (acts : List (Action κ name line)) (c : κ) :
    ∀ {s s' : State κ name line}, s.Sound → s.run acts = some s' →
      (s'.clients c).stream =
        (s.clients c).stream ++
          kept (heard c (s.clients c).phase.active (s.clients c).names s acts) := by
  -- Induction on the steps; the client is active exactly between its add and its remove.
  induction acts with
  | nil =>
    intro s s' _ run
    obtain rfl := Option.some.inj run
    simp [heard, kept]
  | cons a acts ih =>
    intro s s' sound run
    obtain ⟨t, step, rest⟩ := State.run_cons run
    have later := ih (sound.step step) rest
    rw [sound.stream step c, sound.between step c, sound.subscribed step c, List.append_assoc]
      at later
    rw [later, heard, step]
    simp [kept]

/-- What becomes of a client is what the steps that concern it do, one after the other. -/
theorem State.Sound.run_follows (acts : List (Action κ name line)) (c : κ) :
    ∀ {s s' : State κ name line}, s.Sound → s.run acts = some s' →
      s'.clients c = (acts.filter (concerns c)).foldl Client.follow (s.clients c) := by
  -- Induction on the steps.
  induction acts with
  | nil =>
    intro s s' _ run
    obtain rfl := Option.some.inj run
    rfl
  | cons a acts ih =>
    intro s s' sound run
    obtain ⟨t, step, rest⟩ := State.run_cons run
    have later := ih (sound.step step) rest
    have here := sound.follows step c
    rw [later, here]
    cases concerned : concerns c a <;> simp [concerned]

end Runs

/-- What holds of a client after an interleaving of steps that led to this state. -/
structure FansOut (c : κ) (acts : List (Action κ name line)) (s : State κ name line) : Prop where
  /-- The stream is what was published to the client's names between its add and its remove. -/
  subsequence : (s.clients c).stream.Sublist ((heard c false [] State.init acts).map Prod.fst)
  /-- A line is missing only if the queue was full when it was published. -/
  missing : (s.clients c).stream = kept (heard c false [] State.init acts)
  /-- The queue never exceeds the maximum. -/
  bounded : (s.clients c).q.length ≤ queueMax
  /-- The publishes and the client's own steps determine what becomes of the client. -/
  isolated : ∀ acts' s', State.init.run acts' = some s' →
    acts'.filter (concerns c) = acts.filter (concerns c) → s'.clients c = s.clients c

/-- The broker fans out to every client, over every interleaving of the steps. -/
theorem broker_fans_out (acts : List (Action κ name line)) (s : State κ name line)
    (run : State.init.run acts = some s) (c : κ) : FansOut c acts s := by
  -- The run lemmas from the initial state, in which every stream is empty.
  have sound : (State.init : State κ name line).Sound := State.init_sound
  have stream : (s.clients c).stream = kept (heard c false [] State.init acts) :=
    State.Sound.run_stream acts c sound run
  refine ⟨?_, stream, ((sound.run acts run).clients c).bounded, ?_⟩
  · rw [stream]
    exact List.filter_sublist.map Prod.fst
  · intro acts' s' run' same
    rw [sound.run_follows acts' c run', sound.run_follows acts c run, same]

end

/-- Two clients subscribe, one of them stops reading, and the server stops. -/
def sampleActions : List (Action Nat Nat Nat) :=
  [.own 0 (.subscribe [7]), .publish 7 100, .own 0 .add, .own 1 (.subscribe [7, 8]), .publish 7 101,
    .own 1 .add, .own 0 .enter, .own 0 .swap, .publish 8 102, .publish 7 103, .own 0 .send,
    .own 0 .finish, .stop, .own 0 .leave, .own 0 .remove, .publish 7 104]

/-- Every step of the sample is possible. -/
theorem sampleActions_possible : (State.init.run sampleActions).isSome = true := by decide

/-- The first client has sent one line and has another one in its queue. -/
example : ((State.init.run sampleActions).map fun s => (s.clients 0).stream) = some [101, 103] := by
  decide

/-- The fan-out of the sample to its first client. -/
theorem sampleActions_fans_out :
    FansOut 0 sampleActions ((State.init.run sampleActions).get sampleActions_possible) :=
  broker_fans_out sampleActions _ (Option.some_get sampleActions_possible).symm 0

end MarketData.Server
