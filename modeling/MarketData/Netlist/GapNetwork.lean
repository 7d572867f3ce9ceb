import MarketData.Netlist.GapLink

/-! Gaps inside a packet at the network layer: a gap in the header stops it, a later one cuts it. -/

namespace MarketData

/-- The valid cycles are these, and the others are quiet. -/
structure Sounds {α : Type} (bus : α → Bus) (ws es : List α) : Prop where
  words : es.filter (fun e => (bus e).valid) = ws
  quiet : ∀ e ∈ es, (bus e).valid = false → (bus e).Quiet

section Sounds

variable {α β : Type} {bus : α → Bus} {ws vs es fs : List α}

/-- Quiet cycles hold no word. -/
theorem Sounds.of_quiet (quiet : ∀ e ∈ es, (bus e).Quiet) : Sounds bus [] es where
  words := List.filter_eq_nil_iff.mpr fun e member => by
    rw [(quiet e member).1]
    exact Bool.false_ne_true
  quiet e member _ := quiet e member

/-- A word is a cycle of its own. -/
theorem Sounds.word {e : α} (valid : (bus e).valid = true) : Sounds bus [e] [e] where
  words := by simp [valid]
  quiet e' member invalid := by
    rw [List.mem_singleton.mp member, valid] at invalid
    exact absurd invalid.symm Bool.false_ne_true

/-- Words come one after the other. -/
theorem Sounds.append (first : Sounds bus ws es) (second : Sounds bus vs fs) :
    Sounds bus (ws ++ vs) (es ++ fs) where
  words := by rw [List.filter_append, first.words, second.words]
  quiet := List.forall_mem_append.mpr ⟨first.quiet, second.quiet⟩

/-- Quiet cycles in front of the words. -/
theorem Sounds.behind (sounds : Sounds bus ws es) (silent : ∀ e ∈ fs, (bus e).Quiet) :
    Sounds bus ws (fs ++ es) :=
  (Sounds.of_quiet silent).append sounds

/-- A quiet cycle in front of the words. -/
theorem Sounds.cons {e : α} (sounds : Sounds bus ws es) (silent : (bus e).Quiet) :
    Sounds bus ws (e :: es) :=
  sounds.behind (show ∀ x ∈ [e], (bus x).Quiet from List.forall_mem_singleton.mpr silent)

/-- Quiet cycles after the words. -/
theorem Sounds.ahead (sounds : Sounds bus ws es) (silent : ∀ e ∈ fs, (bus e).Quiet) :
    Sounds bus ws (es ++ fs) := by
  have whole := sounds.append (Sounds.of_quiet silent)
  rwa [List.append_nil] at whole

/-- Behind a valid cycle come the other words. -/
theorem Sounds.uncons {w e : α} (sounds : Sounds bus (w :: ws) (e :: es))
    (valid : (bus e).valid = true) : e = w ∧ Sounds bus ws es := by
  have words := sounds.words
  simp only [List.filter_cons, valid, if_true, List.cons.injEq] at words
  obtain ⟨same, rest⟩ := words
  exact ⟨same, rest, fun e' member => sounds.quiet e' (List.mem_cons_of_mem e member)⟩

/-- A cycle that is not valid is quiet, and the words come behind it. -/
theorem Sounds.skip {e : α} (sounds : Sounds bus ws (e :: es)) (invalid : (bus e).valid = false) :
    (bus e).Quiet ∧ Sounds bus ws es := by
  have words := sounds.words
  simp only [List.filter_cons, invalid, Bool.false_eq_true, if_false] at words
  exact ⟨sounds.quiet e List.mem_cons_self invalid, words,
    fun e' member => sounds.quiet e' (List.mem_cons_of_mem e member)⟩

end Sounds

/-- What the history holds of a word behind its gap: a gap disables the lanes. -/
def Bus.behind (w : Bus) (n : Nat) : Bus :=
  if n = 0 then w else w.mute

/-- The data of a word is held in its gap. -/
@[simp] theorem Bus.behind_data (w : Bus) (n : Nat) : (w.behind n).data = w.data := by
  rw [Bus.behind]
  split <;> rfl

/-- What the IPv4 filter makes of words with gaps, `q` being the cycle behind the last one. -/
def rejoined (q : Bus) : Bus → List (Bus × Nat) → List Bus
  | _, [] => []
  | p, (w, n) :: ps =>
    joined 4 p w ::
      if w.eog then (if spills 4 w.be then [flushed 4 w q] else [])
      else rejoined q (w.behind n) ps

/-- A word in front of the last one is joined to what is left of the one before it. -/
theorem rejoined_cons (q p w : Bus) (n : Nat) (ps : List (Bus × Nat)) (eog : w.eog = false) :
    rejoined q p ((w, n) :: ps) = joined 4 p w :: rejoined q (w.behind n) ps := by
  rw [rejoined, eog, if_neg Bool.false_ne_true]

/-- What is joined is a train again. -/
theorem PacedTrain.rejoined {ps : List (Bus × Nat)} (train : PacedTrain ps) (q p : Bus) :
    Train (rejoined q p ps) := by
  -- Induction on the train; the end of the frame moves to the flush word, if there is one.
  induction train generalizing p with
  | last w valid eog eob =>
    rw [MarketData.rejoined, if_pos eog]
    cases past : spills 4 w.be with
    | true => exact .more _ rfl (by simp [joined, past]) rfl (.last _ rfl rfl rfl)
    | false => exact .last _ rfl (by simp [joined, eog, past]) rfl
  | more w n valid eog eob rest ih =>
    rw [rejoined_cons q p w n _ eog]
    exact .more _ rfl (joined_eog 4 p eog) rfl (ih _)

section Ipv4

variable {f : Ipv4Filter} {p q w : Bus}

/-- While passing, a quiet cycle enters the history and puts nothing out. -/
theorem Ipv4Filter.Passing.rests (passing : f.Passing p) (quiet : q.Quiet) :
    (f.step q).1.Passing q ∧ (f.step q).1.second.Quiet := by
  -- The schedule has nothing but the role of the payload left, which is gated.
  obtain ⟨state, opened, schedule, data, lanes, steady⟩ := passing
  obtain ⟨valid, eog, eob⟩ := quiet
  refine ⟨⟨?_, ?_, ?_, ?_, ?_, ?_, ?_⟩, ?_⟩
  all_goals simp [Ipv4Filter.step, Ipv4Filter.second, Bus.Quiet, state, opened, schedule, valid,
    eog, eob, Ipv4Roles.gate]

/-- While passing, a gap leaves the data of the word in the history, and its lanes disabled. -/
theorem Ipv4Filter.Passing.gap (n : Nat) {key : HeaderKey} (passing : f.Passing w)
    (shown : f.header.key = key) :
    ∃ f' es, keyedStage.Emits f (List.replicate n w.mute) f' es ∧ f'.Passing (w.behind n) ∧
      f'.header.key = key ∧ ∀ e ∈ es, e.1.Quiet := by
  cases n with
  | zero => exact ⟨f, [], .nil keyedStage f, passing, shown, by simp⟩
  | succ k =>
    -- The first cycle brings the disabled lanes, the others change nothing.
    have once : ∀ (g : Ipv4Filter) (p : Bus), g.Passing p → g.header.key = key →
        ∃ g' e, keyedStage.Emits g [w.mute] g' [e] ∧ (g'.Passing w.mute ∧ g'.header.key = key) ∧
          e.1.Quiet := by
      intro g p passing shown
      obtain ⟨passing', silent⟩ := passing.rests w.mute_silent.1
      exact ⟨_, _, g.emits_keyed w.mute fun _ => passing.steady,
        ⟨passing', (passing.steady.key w.mute).trans shown⟩, silent⟩
    obtain ⟨f₁, e, first, ⟨passing₁, shown₁⟩, silent⟩ := once f w passing shown
    obtain ⟨f₂, es, later, ⟨passing₂, shown₂⟩, silents, -⟩ := Stage.Emits.steadily (m := keyedStage)
      (I := fun g => g.Passing w.mute ∧ g.header.key = key) (P := fun i => i = w.mute)
      (Q := fun e => e.1.Quiet) (fun g i state same => by
        subst same
        exact once g _ state.1 state.2) (List.replicate k w.mute) ⟨passing₁, shown₁⟩
      (fun i member => (List.mem_replicate.mp member).2)
    rw [List.replicate_succ]
    exact ⟨f₂, e :: es, first.cons later, passing₂, shown₂,
      List.forall_mem_cons.mpr ⟨silent, silents⟩⟩

/-- Words with gaps are joined under one header, each to what its predecessor left over. -/
theorem Ipv4Filter.Passing.paced {ps : List (Bus × Nat)} (train : PacedTrain ps) (quiet : q.Quiet) :
    ∀ {f : Ipv4Filter} {p : Bus} {key : HeaderKey}, f.Passing p → f.header.key = key →
      ∃ f' es, keyedStage.Emits f (paced Bus.mute ps ++ [q]) f' es ∧
        Sounds Prod.fst ((rejoined q p ps).map (·, some key)) es ∧ f'.Idle := by
  -- Induction on the train; the quiet cycle after the last word carries the flush, if any.
  induction train with
  | last w valid eog eob =>
    rintro f p key passing rfl
    have first := passing.emits valid eob
    rw [rejoined, if_pos eog]
    cases past : spills 4 w.be with
    | false =>
      have idle := passing.ends valid eog past
      obtain ⟨idle', silent⟩ := idle.quiet quiet
      have second := (f.step w).1.emits_keyed q fun _ => idle.steady
      refine ⟨_, _, first.cons second, ?_, idle'⟩
      exact (Sounds.word (e := (joined 4 p w, some f.header.key)) rfl).ahead
        (List.forall_mem_singleton.mpr silent)
    | true =>
      have purging := passing.overflows valid eog eob past
      obtain ⟨idle', last⟩ := purging.flush (q := q)
      have second := (f.step w).1.emits_keyed q fun _ => purging.steady
      rw [last, Ipv4Filter.keyed, purging.steady.key q, passing.steady.key w] at second
      refine ⟨_, _, first.cons second, ?_, idle'⟩
      exact (Sounds.word (e := (joined 4 p w, some f.header.key)) rfl).append
        (Sounds.word (e := (flushed 4 w q, some f.header.key)) rfl)
  | @more w n ps valid eog eob rest ih =>
    rintro f p key passing rfl
    have first := passing.emits valid eob
    obtain ⟨f₁, es₁, held, passing₁, shown₁, silent⟩ :=
      (passing.next valid eog eob).gap n (passing.steady.key w)
    obtain ⟨f₂, es₂, later, sounds, idle⟩ := ih passing₁ shown₁
    refine ⟨f₂, [(joined 4 p w, some f.header.key)] ++ (es₁ ++ es₂), ?_, ?_, idle⟩
    · have whole := first.append (held.append later)
      rw [paced_cons]
      simpa only [List.cons_append, List.nil_append, List.append_assoc] using whole
    · rw [rejoined_cons q p w n ps eog]
      exact (Sounds.word rfl).append (sounds.behind silent)

/-- Quiet cycles between packets add quiet outputs. -/
theorem Ipv4Filter.Idle.rests (idle : f.Idle) {is : List Bus} (quiet : ∀ i ∈ is, i.Quiet) :
    ∃ f' es, keyedStage.Emits f is f' es ∧ f'.Idle ∧ (∀ e ∈ es, e.1.Quiet) ∧
      es.length = is.length :=
  Stage.Emits.steadily (m := keyedStage) (I := Ipv4Filter.Idle) (P := Bus.Quiet)
    (Q := fun e => e.1.Quiet) (fun f q idle quiet => ⟨_, _,
      f.emits_keyed q fun _ => idle.steady, idle.quiet quiet⟩) is idle quiet

/-- A packet with no gap in its header, in quiet surroundings, is passed on under its header. -/
theorem Ipv4Filter.Idle.paced {a b c : Bus} (k : Nat) {ps : List (Bus × Nat)} {qs rs : List Bus}
    (idle : f.Idle) (before : ∀ e ∈ qs, e.Quiet) (after : ∀ r ∈ q :: rs, r.Quiet)
    (valid : a.valid = true ∧ b.valid = true ∧ c.valid = true)
    (eog : a.eog = false ∧ b.eog = false ∧ c.eog = false)
    (eob : a.eob = false ∧ b.eob = false ∧ c.eob = false) (version : a.data.get 0 = 0x45#8)
    (address : addressMatches ipAddr c.data (by decide) = true) (train : PacedTrain ps) :
    ∃ f' es ts, ∃ g : Ipv4Filter, keyedStage.Emits f
        (qs ++ MarketData.paced Bus.mute ((a, 0) :: (b, 0) :: (c, k) :: ps) ++ q :: rs) f'
        (es ++ ts) ∧
      Sounds Prod.fst ((rejoined q (c.behind k) ps).map (·, some g.header.key)) es ∧
      (∀ t ∈ ts, t.1.Quiet) ∧ rs.length ≤ ts.length ∧ g.fb5 = a.data ∧ g.fb4 = b.data := by
  -- Three words of header open the filter, which then passes the train on word by word.
  obtain ⟨calm, calms⟩ := List.forall_mem_cons.mp after
  obtain ⟨f₁, es₁, lead, idle₁, silent₁, -⟩ := idle.rests before
  obtain ⟨⟨pd₁, quiet₁⟩, ⟨pd₂, quiet₂⟩, quiet₃, opened⟩ := idle₁.opens valid eog eob version
  have opening := (f₁.emits_keyed a fun _ => idle₁.steady).cons
    (((f₁.step a).1.emits_keyed b (by simp [pd₁])).cons
      (((f₁.step a).1.step b).1.emits_keyed c (by simp [pd₂])))
  generalize (((f₁.step a).1.step b).1.step c).1 = g at opening quiet₃ opened
  have silent₂ : ∀ e ∈ [(f₁.step a).1.keyed (f₁.step a).1.second,
      ((f₁.step a).1.step b).1.keyed ((f₁.step a).1.step b).1.second, g.keyed g.second],
      e.1.Quiet := by
    simp [Ipv4Filter.keyed, quiet₁, quiet₂, quiet₃]
  obtain ⟨state, decided, schedule, first, second, data, lanes, steady⟩ := opened
  have passing : g.Passing c := ⟨state, decided.trans address, schedule, data, lanes, steady⟩
  -- A gap behind the third word holds it, and the others are those of the train.
  obtain ⟨f₂, es₂, held, passing₂, shown, silent₃⟩ := passing.gap k rfl
  obtain ⟨f₃, es₃, body, sounds, idle₃⟩ := Ipv4Filter.Passing.paced train calm passing₂ shown
  obtain ⟨f₄, ts, tail, -, silent₄, long⟩ := idle₃.rests calms
  refine ⟨f₄, es₁ ++ ([_, _, _] ++ (es₂ ++ es₃)), ts, g, ?_,
    ((sounds.behind silent₃).behind silent₂).behind silent₁, silent₄, Nat.le_of_eq long.symm,
    first, second⟩
  -- The parts of the run are put together.
  have whole := lead.append (opening.append (held.append (body.append tail)))
  rw [paced_cons, paced_cons, paced_cons]
  simpa only [List.replicate_zero, List.nil_append, List.cons_append, List.append_assoc] using whole

end Ipv4

end MarketData
