import MarketData.Netlist.GapLoss

/-! What the receive path delivers of a frame with gaps between its beats. -/

namespace MarketData

/-- The elements that are enabled. -/
def sift (bytes : List Byte) (lanes : List Bool) : List Byte :=
  (bytes.zip lanes).filterMap fun b => if b.2 then some b.1 else none

/-- The enabled bytes of a word. -/
def Bus.enabled (b : Bus) : List Byte :=
  sift b.data.toList b.be.toList

/-- The enabled payload bytes and the ends of frame that are delivered. -/
def delivery (outs : List Bus) : List Byte × List Eof :=
  ((outs.filter Bus.valid).flatMap Bus.enabled,
    (outs.filter fun o => o.eog || o.eob).map fun o => (o.eog, o.eob))

/-- A cycle behind a beat in which data and keep are held. -/
def Row.held (r : Row) : Row :=
  { r with tl := false, tv := false }

/-- The beats of a frame with `gaps i` idle cycles behind beat `i`, and `drain` behind the last one. -/
def stuttered (gaps : Nat → Nat) (drain : Nat) (rows : List Row) : List Row :=
  paced Row.held (gapped gaps 1 rows) ++
    rows.getLast?.toList.flatMap fun r => List.replicate drain r.held

/-- What the path delivers in these cycles, `none` when it does not get through them. -/
def RxPath.received (c : RxPath) (rows : List Row) : Option (List Byte × List Eof) :=
  (runOn RxPath.step c (rows.map Row.bus)).map fun r => delivery r.2

/-- Consecutive parts are sifted one after the other. -/
theorem sift_append {xs ys : List Byte} {es fs : List Bool} (same : xs.length = es.length) :
    sift (xs ++ ys) (es ++ fs) = sift xs es ++ sift ys fs := by
  rw [sift, List.zip_append same, List.filterMap_append]
  rfl

/-- Nothing is left of disabled lanes. -/
theorem sift_disabled (xs : List Byte) (n : Nat) : sift xs (List.replicate n false) = [] := by
  rw [sift, List.filterMap_eq_nil_iff]
  intro b member
  have lane := List.eq_of_mem_replicate (List.of_mem_zip member).2
  rw [lane, if_neg Bool.false_ne_true]

/-- The enabled bytes in the first four lanes. -/
def Bus.lower (b : Bus) : List Byte :=
  sift (b.data.toList.take 4) (b.be.toList.take 4)

/-- The enabled bytes in the other lanes. -/
def Bus.upper (b : Bus) : List Byte :=
  sift (b.data.toList.drop 4) (b.be.toList.drop 4)

/-- A joined word has the last lanes of the old word and the first ones of the new one. -/
theorem enabled_joined (p w : Bus) : (joined 4 p w).enabled = p.upper ++ w.lower := by
  -- Data and lanes are cut at the same places.
  have data : (window 4 p.data w.data).toList = p.data.toList.drop 4 ++ w.data.toList.take 4 :=
    window_toList 4 p.data w.data
  have lanes : (window 4 p.be w.be).toList = p.be.toList.drop 4 ++ w.be.toList.take 4 :=
    window_toList 4 p.be w.be
  rw [Bus.enabled, joined, data, lanes, sift_append (by simp)]
  rfl

/-- A silent cycle has no enabled byte. -/
theorem Bus.silent_halves {q : Bus} (none : q.be = firstLanes 0) : q.lower = [] ∧ q.upper = [] := by
  have lanes : q.be.toList = List.replicate 8 false := by
    rw [none, firstLanes_toList (Nat.zero_le 8)]
    rfl
  rw [Bus.lower, Bus.upper, lanes, List.take_replicate, List.drop_replicate]
  exact ⟨sift_disabled _ _, sift_disabled _ _⟩

/-- A flush word has the last lanes of the old word. -/
theorem enabled_flushed {p q : Bus} (none : q.be = firstLanes 0) :
    (flushed 4 p q).enabled = p.upper := by
  have same : (flushed 4 p q).enabled = (joined 4 p q).enabled := rfl
  rw [same, enabled_joined, (Bus.silent_halves none).1, List.append_nil]

/-- A word that does not spill has nothing in its last lanes. -/
theorem upper_of_not_spills {w : Bus} (inside : spills 4 w.be = false) : w.upper = [] := by
  have lanes : w.be.toList.drop 4 = List.replicate 4 false := by
    refine List.eq_replicate_iff.mpr ⟨by simp, fun lane member => ?_⟩
    have disabled := List.any_eq_false.mp inside lane member
    simpa using disabled
  rw [Bus.upper, lanes, sift_disabled]

/-- What is delivered of words with gaps: a gap costs the last lanes of the word in front of it. -/
def kept (ps : List (Bus × Nat)) : List Byte :=
  ps.flatMap fun p => p.1.lower ++ (p.1.behind p.2).upper

/-- The first word comes in front of the rest. -/
theorem kept_cons (w : Bus) (n : Nat) (ps : List (Bus × Nat)) :
    kept ((w, n) :: ps) = w.lower ++ (w.behind n).upper ++ kept ps :=
  List.flatMap_cons

/-- The words that are joined hold what is kept. -/
theorem enabled_rejoined {ps : List (Bus × Nat)} (train : PacedTrain ps) {q : Bus}
    (none : q.be = firstLanes 0) (p : Bus) :
    (rejoined q p ps).flatMap Bus.enabled = p.upper ++ kept ps := by
  -- Induction on the train; every word gives its lanes to two joined words.
  induction train generalizing p with
  | last w valid eog eob =>
    have whole : w.behind 0 = w := if_pos rfl
    have nothing : kept [] = [] := rfl
    rw [rejoined, if_pos eog, kept_cons, nothing, List.flatMap_cons, enabled_joined, whole,
      List.append_nil]
    cases past : spills 4 w.be with
    | true =>
      rw [if_pos rfl, List.flatMap_cons, List.flatMap_nil, enabled_flushed none, List.append_nil,
        List.append_assoc]
    | false =>
      rw [if_neg Bool.false_ne_true, List.flatMap_nil, upper_of_not_spills past, List.append_nil,
        List.append_nil]
  | @more w n ps valid eog eob rest ih =>
    rw [rejoined_cons q p w n ps eog, List.flatMap_cons, ih, enabled_joined, kept_cons]
    simp only [List.append_assoc]

section Udp

variable {u : UdpRx}

/-- While passing, a quiet cycle stays quiet. -/
theorem UdpRx.Active.quiet (active : u.Active) {x : Bus × Ipv4Header} (quiet : x.1.Quiet) :
    (u.step x.1 x.2).1.Active ∧ (u.step x.1 x.2).2.Quiet := by
  obtain ⟨open_, accepted, whole⟩ := active
  obtain ⟨valid, eog, eob⟩ := quiet
  simp [UdpRx.step, UdpRx.Active, Bus.Quiet, open_, accepted, whole, valid, eog, eob]

/-- Quiet cycles between datagrams stay quiet. -/
theorem UdpRx.Idle.rests (idle : u.Idle) (xs : List (Bus × Ipv4Header))
    (quiet : ∀ x ∈ xs, x.1.Quiet) :
    ∃ u' os, udpStage.Emits u xs u' os ∧ ∀ o ∈ os, o.Quiet := by
  obtain ⟨u', os, emits, -, silent, -⟩ := Stage.Emits.steadily (m := udpStage)
    (I := UdpRx.Idle) (P := fun x => x.1.Quiet) (Q := Bus.Quiet)
    (fun u x idle calm => ⟨_, _, u.emits x, idle.quiet calm⟩) xs idle quiet
  exact ⟨u', os, emits, silent⟩

/-- The words of an open datagram are passed on, whatever quiet cycles stand between them. -/
theorem UdpRx.Active.sounds (xs : List (Bus × Ipv4Header)) :
    ∀ {u : UdpRx} {ws : List (Bus × Option HeaderKey)}, u.Active → Train (ws.map Prod.fst) →
      Sounds Prod.fst ws (xs.map keyedStage.view) →
      ∃ u' os, udpStage.Emits u xs u' os ∧ Sounds id (ws.map Prod.fst) os := by
  -- Cycle by cycle; only the last word closes the datagram.
  induction xs with
  | nil =>
    intro u ws _ train sounds
    have none : ws = [] := sounds.words.symm
    subst none
    exact absurd rfl train.ne_nil
  | cons x xs ih =>
    intro u ws active train sounds
    rw [List.map_cons] at sounds
    have seen : (keyedStage.view x).1 = x.1 := rfl
    cases valid : x.1.valid with
    | false =>
      obtain ⟨calm, rest⟩ := sounds.skip valid
      obtain ⟨active', silent⟩ := active.quiet (x := x) calm
      obtain ⟨u', os, emits, later⟩ := ih active' train rest
      exact ⟨u', _, (u.emits x).cons emits, later.cons silent⟩
    | true =>
      cases ws with
      | nil => exact absurd rfl train.ne_nil
      | cons w ws =>
        obtain ⟨same, rest⟩ := sounds.uncons valid
        rw [List.map_cons, ← same, seen] at train ⊢
        generalize later : ws.map Prod.fst = vs at train ⊢
        cases train with
        | last _ _ eog eob =>
          obtain ⟨passed, -, ends⟩ := active.word x.2 valid eob
          have none : ws = [] := List.map_eq_nil_iff.mp later
          subst none
          have quiet : ∀ x ∈ xs, x.1.Quiet := by
            intro x member
            have inside := List.mem_map_of_mem (f := keyedStage.view) member
            refine rest.quiet _ inside ?_
            exact Bool.eq_false_iff.mpr (List.filter_eq_nil_iff.mp rest.words _ inside)
          obtain ⟨u', os, emits, silent⟩ := (ends eog).rests xs quiet
          have here := (u.emits x).cons emits
          rw [passed] at here
          have word : Sounds id [x.1] [x.1] := .word valid
          exact ⟨u', _, here, word.ahead silent⟩
        | more _ _ eog eob train =>
          obtain ⟨passed, stays, -⟩ := active.word x.2 valid eob
          subst later
          obtain ⟨u', os, emits, sounds'⟩ := ih (stays eog) train rest
          have here := (u.emits x).cons emits
          rw [passed] at here
          have word : Sounds id [x.1] [x.1] := .word valid
          exact ⟨u', _, here, word.append sounds'⟩

/-- A datagram for the port is passed on behind its header, quiet cycles in any place. -/
theorem UdpRx.Idle.sounds (xs : List (Bus × Ipv4Header)) {h : Bus} {key : HeaderKey}
    {ws : List (Bus × Option HeaderKey)} (eog : h.eog = false) (eob : h.eob = false)
    (port : destinationPort h.data = udpPort) (proto : key.proto = 17#8)
    (frag : key.frag = 0) (flags : (key.flags >>> 0) &&& 1 = 0) (train : Train (ws.map Prod.fst)) :
    ∀ {u : UdpRx}, u.Idle → Sounds Prod.fst ((h, some key) :: ws) (xs.map keyedStage.view) →
      ∃ u' os, udpStage.Emits u xs u' os ∧ Sounds id (ws.map Prod.fst) os := by
  -- Cycle by cycle, up to the header.
  induction xs with
  | nil => exact fun {u} _ sounds => nomatch sounds.words
  | cons x xs ih =>
    intro u idle sounds
    rw [List.map_cons] at sounds
    cases valid : x.1.valid with
    | false =>
      obtain ⟨calm, rest⟩ := sounds.skip valid
      obtain ⟨idle', silent⟩ := idle.quiet (q := x) calm
      obtain ⟨u', os, emits, later⟩ := ih idle' rest
      exact ⟨u', _, (u.emits x).cons emits, later.cons silent⟩
    | true =>
      obtain ⟨same, rest⟩ := sounds.uncons valid
      obtain ⟨rfl, shown⟩ := Prod.mk.inj same
      have shown : x.2.key = key := by simpa [valid] using shown
      subst shown
      have accepted : x.2.accepted = true := by
        simp only [Ipv4Header.accepted, Bool.and_eq_true, decide_eq_true_eq]
        exact ⟨⟨proto, frag⟩, flags⟩
      obtain ⟨active, silent⟩ := idle.header valid eog eob port accepted
      obtain ⟨u', os, emits, later⟩ := UdpRx.Active.sounds xs active train rest
      exact ⟨u', _, (u.emits x).cons emits, later.cons silent⟩

end Udp

/-- The ends of frame in a train are that of its last word. -/
theorem Train.ends {ws : List Bus} (train : Train ws) :
    (ws.filter fun o => o.eog || o.eob).map (fun o => (o.eog, o.eob)) = [(true, false)] := by
  -- Word by word.
  induction train with
  | last w valid eog eob => simp [eog, eob]
  | more w valid eog eob rest ih =>
    rw [List.filter_cons_of_neg (by simp [eog, eob])]
    exact ih

/-- A train is delivered whole, quiet cycles between its words. -/
theorem Sounds.delivery {ws os : List Bus} (sounds : Sounds id ws os) (train : Train ws) :
    delivery os = (ws.flatMap Bus.enabled, [(true, false)]) := by
  -- A cycle that is not valid ends no frame.
  have words : os.filter Bus.valid = ws := sounds.words
  have loud : (os.filter fun o => o.eog || o.eob) = ws.filter fun o => o.eog || o.eob := by
    rw [← words, List.filter_filter]
    refine List.filter_congr fun o member => ?_
    cases valid : o.valid with
    | true => simp
    | false =>
      obtain ⟨-, eog, eob⟩ := sounds.quiet o member valid
      have eog : o.eog = false := eog
      have eob : o.eob = false := eob
      simp [eog, eob]
  rw [MarketData.delivery, words, loud, train.ends]

/-- Quiet cycles deliver nothing. -/
theorem delivery_quiet {os : List Bus} (quiet : ∀ o ∈ os, o.Quiet) : delivery os = ([], []) := by
  -- No word is valid, and none ends anything.
  have none : os.filter Bus.valid = [] := by
    refine List.filter_eq_nil_iff.mpr fun o member => ?_
    rw [(quiet o member).1]
    exact Bool.false_ne_true
  have open_ : (os.filter fun o => o.eog || o.eob) = [] := by
    refine List.filter_eq_nil_iff.mpr fun o member => ?_
    simp [(quiet o member).2.1, (quiet o member).2.2]
  rw [delivery, none, open_]
  rfl

end MarketData
