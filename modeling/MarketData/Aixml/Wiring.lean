import MarketData.Aixml.Semantics

/-! Rules for generators of plain elements: what they emit is wired within one scope. -/

namespace MarketData.Aixml

/-- Elements that no lookup of a structure, a frame, a tunnel or an indicator meets. -/
def Op.Plain : Op → Prop
  | .caseStructure _ | .caseFrame _ _ | .tunnelInputs _ _ | .indicator _ _ => False
  | _ => True

/-- Every wire a line reads is produced in the scope of the line. -/
def Line.Wired (L : List Line) (l : Line) : Prop :=
  ∀ n ∈ l.op.reads, Produced L (l.scope L) n

/-- A scope of its own: the root, or something other than a structure. -/
def IsScope (L : List Line) (p : Option Nat) : Prop :=
  ∀ l ∈ L, some l.uid = p → ∀ n, l.op ≠ .caseStructure n

/-- The root is a scope. -/
theorem isScope_root (L : List Line) : IsScope L none := by
  -- No element is the root.
  intro l _ root
  cases root

/-- The elements of a scope have the scope as theirs. -/
theorem scope_eq {L : List Line} {p : Option Nat} (proper : IsScope L p) (op : Op) (u : Nat) :
    (Line.mk op u p).scope L = p := by
  -- Only a structure as the parent would pass the scope on.
  cases p with
  | none => rfl
  | some p =>
    unfold Line.scope
    cases parent : lineOf L p with
    | none => simp [parent]
    | some l =>
      have member : l ∈ L := List.mem_of_find?_eq_some parent
      have named : l.uid = p := by simpa using List.find?_some parent
      have frame := proper l member (by rw [named])
      obtain ⟨op', u', around⟩ := l
      cases op' <;> simp_all

/-- A line is found under its number. -/
theorem lineOf_mem {L : List Line} (distinct : (L.map Line.uid).Nodup) {l : Line} (mem : l ∈ L) :
    lineOf L l.uid = some l := by
  -- What is found has the same number, so it is the line.
  unfold lineOf
  cases search : L.find? fun l' => l'.uid = l.uid with
  | none => simpa using List.find?_eq_none.mp search l mem
  | some l' =>
    have same : l'.uid = l.uid := by simpa using List.find?_some search
    rw [List.inj_on_of_nodup_map distinct (List.mem_of_find?_eq_some search) mem same]

section Values

variable {stub : Stub} {buffer : List Byte} {L : List Line}

/-- A line's output carries the line's result. -/
theorem evaluates_of_line (distinct : (L.map Line.uid).Nodup) {l : Line} (mem : l ∈ L)
    {t : Terminal} {v : Value}
    (res : ∀ᶠ fuel in Filter.atTop,
      result stub buffer L (value stub buffer L fuel) l t = some v) :
    Evaluates stub buffer L ⟨l.uid, t⟩ v := by
  -- One more step of fuel goes through the line.
  obtain ⟨enough, gives⟩ := Filter.eventually_atTop.mp res
  refine Filter.eventually_atTop.mpr ⟨enough + 1, fun fuel more => ?_⟩
  cases fuel with
  | zero => omega
  | succ fuel =>
    simp only [value, lineOf_mem distinct mem, Option.bind_some]
    exact gives fuel (by omega)

variable (stub buffer L)

/-- A wire of a scope carries a value. -/
def Carries (p : Option Nat) (n : Net) (v : Value) : Prop :=
  Produced L p n ∧ Evaluates stub buffer L n v

variable {stub buffer L}

/-- An element of a scope whose result is known. -/
theorem carries_of_line (distinct : (L.map Line.uid).Nodup) {p : Option Nat}
    (proper : IsScope L p) {op : Op} {u : Nat}
    (mem : Line.mk op u p ∈ L) {t : Terminal} (terminal : t ∈ op.terminals) {v : Value}
    (res : ∀ᶠ fuel in Filter.atTop,
      result stub buffer L (value stub buffer L fuel) ⟨op, u, p⟩ t = some v) :
    Carries stub buffer L p ⟨u, t⟩ v :=
  ⟨⟨_, mem, List.mem_map.mpr ⟨t, terminal, rfl⟩, scope_eq proper op u⟩,
    evaluates_of_line distinct mem res⟩

end Values

section Fragments

variable (L : List Line) (p : Option Nat)

/-- Plain elements of one scope; as part of the diagram they are wired and give what is promised,
provided that what they rely on holds. -/
def Fragment (pre post : Prop) (ls : List Line) : Prop :=
  (∀ l ∈ ls, l.parent = p ∧ l.op.Plain) ∧ (ls ⊆ L → pre → (∀ l ∈ ls, l.Wired L) ∧ post)

/-- What a fragment promises can be put in other words under what it relies on. -/
theorem Fragment.mono {L : List Line} {p : Option Nat} {pre pre' post post' : Prop}
    {ls : List Line} (fragment : Fragment L p pre post ls) (stronger : pre' → pre)
    (weaker : pre' → post → post') : Fragment L p pre' post' ls := by
  -- The lines are the same.
  refine ⟨fragment.1, fun within given => ?_⟩
  obtain ⟨wired, holds⟩ := fragment.2 within (stronger given)
  exact ⟨wired, weaker given holds⟩

/-- A line of its own, whatever it is, in front of the rest. -/
theorem emits_line {α : Type} {op : Op} {p : Option Nat} {f : Nat → Emit Line α}
    {Q : α → List Line → Prop}
    (rest : ∀ u, Emit.Emits Line.uid (f u) fun a ls => Q a (⟨op, u, p⟩ :: ls)) :
    Emit.Emits Line.uid (line op p >>= f) Q := by
  -- The line is the only one that is emitted before the rest.
  have first : Emit.Emits Line.uid (line op p) fun u ls => ls = [⟨op, u, p⟩] :=
    Emit.emits_record (fun _ => rfl) fun _ => rfl
  refine first.bind fun u ls same => ?_
  rw [same]
  exact rest u

/-- A generator emits a fragment. -/
def Builds {α : Type} (pre : Prop) (m : Emit Line α) (post : α → Prop) : Prop :=
  Emit.Emits Line.uid m fun a ls => Fragment L p pre (post a) ls

variable {L p} {α β : Type} {pre pre' : Prop}

/-- Fragments one after the other. -/
theorem Fragment.append {mid post : Prop} {ls ls' : List Line} (first : Fragment L p pre mid ls)
    (second : Fragment L p (pre ∧ mid) post ls') : Fragment L p pre post (ls ++ ls') := by
  -- What the first one gives is what the second one relies on.
  refine ⟨fun l mem => (List.mem_append.mp mem).elim (first.1 l) (second.1 l), ?_⟩
  intro within holds
  obtain ⟨front, rest⟩ := List.append_subset.mp within
  obtain ⟨wired, given⟩ := first.2 front holds
  obtain ⟨wired', given'⟩ := second.2 rest ⟨holds, given⟩
  exact ⟨fun l mem => (List.mem_append.mp mem).elim (wired l) (wired' l), given'⟩

/-- A result without any element. -/
theorem builds_pure {post : α → Prop} {a : α} (holds : pre → post a) :
    Builds L p pre (pure a) post :=
  Emit.emits_pure ⟨by simp, fun _ given => ⟨by simp, holds given⟩⟩

/-- A single plain element. -/
theorem builds_line (op : Op) (post : Nat → Prop) (plain : op.Plain)
    (holds : ∀ u, Line.mk op u p ∈ L → pre → (Line.mk op u p).Wired L ∧ post u) :
    Builds L p pre (line op p) post := by
  -- The only line is the one that is emitted.
  refine Emit.emits_record (fun _ => rfl) fun u => ⟨by simpa using plain, ?_⟩
  intro within given
  obtain ⟨wired, result⟩ := holds u (within (by simp)) given
  exact ⟨by simpa using wired, result⟩

/-- More may be assumed, and less concluded. -/
theorem Builds.mono {mid post : α → Prop} {m : Emit Line α} (builds : Builds L p pre m mid)
    (stronger : pre' → pre) (weaker : pre' → ∀ a, mid a → post a) : Builds L p pre' m post := by
  -- The lines are the same.
  exact Emit.Emits.mono builds fun a _ fragment => fragment.mono stronger fun given => weaker given a

/-- Generators one after the other; the first may rely on less than is known. -/
theorem Builds.bind {mid : α → Prop} {post : β → Prop} {m : Emit Line α} {f : α → Emit Line β}
    (first : Builds L p pre m mid) (known : pre' → pre)
    (second : ∀ a, Builds L p (pre' ∧ mid a) (f a) post) : Builds L p pre' (m >>= f) post :=
  Emit.Emits.bind (first.mono known fun _ _ => id) fun a _ front =>
    Emit.Emits.mono (second a) fun _ _ rest => front.append rest

/-- A loop keeps an invariant of what it has gone through and of its state. -/
theorem builds_foldlM {γ : Type} {f : β → γ → Emit Line β} (Inv : List γ → β → Prop) (xs : List γ)
    (step : ∀ done x rest, xs = done ++ x :: rest → ∀ b,
      Builds L p (pre ∧ Inv done b) (f b x) (Inv (done ++ [x])))
    {b : β} (start : pre → Inv [] b) : Builds L p pre (xs.foldlM f b) (Inv xs) := by
  -- The fragments of the turns are put together.
  refine Emit.emits_foldlM (fun done b ls => Fragment L p pre (Inv done b) ls) xs ?_
    ⟨by simp, fun _ given => ⟨by simp, start given⟩⟩
  intro done x rest whole b ls front
  exact Emit.Emits.mono (step done x rest whole b) fun _ _ turn => front.append turn

/-- A plain element whose inputs are in its scope and whose result is known. -/
theorem element_builds (stub : Stub) (buffer : List Byte) (distinct : (L.map Line.uid).Nodup)
    (op : Op) (t : Terminal) {v : Value} (plain : op.Plain) (terminal : t ∈ op.terminals)
    (known : pre → IsScope L p ∧ (∀ n ∈ op.reads, Produced L p n) ∧
      ∀ u, ∀ᶠ fuel in Filter.atTop,
        result stub buffer L (value stub buffer L fuel) ⟨op, u, p⟩ t = some v) :
    Builds L p pre (line op p) fun u => Carries stub buffer L p ⟨u, t⟩ v := by
  -- Its own scope is the scope it reads in.
  refine builds_line op _ plain fun u mem given => ?_
  obtain ⟨proper, inputs, res⟩ := known given
  refine ⟨fun n reads => ?_, carries_of_line distinct proper mem terminal (res u)⟩
  rw [scope_eq proper]
  exact inputs n reads

end Fragments

end MarketData.Aixml
