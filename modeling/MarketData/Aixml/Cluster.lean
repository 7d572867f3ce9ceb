import Mathlib.Order.Filter.Finite
import MarketData.Aixml.CaseStructure

/-! The final cluster: dotted fields go in by position and the others by name. -/

namespace MarketData.Aixml

/-- Every position belongs to a field. -/
theorem range_eq_index : List.range 17 = clusterOrder.map Field.index := by
  decide

/-- A field's position is one of the seventeen. -/
theorem Field.index_lt (f : Field) : f.index < 17 :=
  List.idxOf_lt_length_of_mem (mem_clusterOrder f)

/-- The component at the position of a field. -/
theorem cluster_get (g : Field → Scalar) (f : Field) :
    (clusterOrder.map g)[f.index]? = some (g f) := by
  cases f <;> rfl

/-- Another component at the position of a field. -/
theorem cluster_set (g : Field → Scalar) (f : Field) (s : Scalar) :
    (clusterOrder.map g).set f.index s = clusterOrder.map (Function.update g f s) := by
  cases f <;> rfl

/-- Values that are all there are collected. -/
theorem mapM_map {α β γ : Type} {h : β → Option γ} {net : α → β} {g : α → γ} {l : List α}
    (there : ∀ a ∈ l, h (net a) = some (g a)) : (l.map net).mapM h = some (l.map g) := by
  -- Induction on the list.
  induction l with
  | nil => rfl
  | cons a l ih =>
    obtain ⟨first, rest⟩ := List.forall_mem_cons.mp there
    simp [List.mapM_cons, first, ih rest]

/-- Values of the right types replace the components of undotted fields, one by one. -/
theorem replaceNamed_all {σ : Net → Option Value} {byname : Nets Field} {g : Field → Scalar}
    (undotted : ∀ f n, byname.lookup f = some n → f.dotted = false)
    (there : ∀ f n, byname.lookup f = some n → σ n = some (.scalar (g f))) (fs : List Field)
    (g₀ : Field → Scalar) (typed : ∀ f, (g f).ty = (g₀ f).ty) :
    (fs.filterMap fun f => (byname.lookup f).map fun net => (f, net)).foldlM
        (fun components (f, n) => replaceNamed σ components f n) (clusterOrder.map g₀) =
      some (clusterOrder.map fun f =>
        if f ∈ fs ∧ (byname.lookup f).isSome then g f else g₀ f) := by
  -- Induction on the fields, for any components that are there already.
  induction fs generalizing g₀ with
  | nil => simp
  | cons f fs ih =>
    cases net : byname.lookup f with
    | none =>
      rw [List.filterMap_cons_none (by simp [net]), ih g₀ typed]
      congr 2
      funext f'
      by_cases same : f' = f
      · subst same; simp [net]
      · exact if_congr (and_congr_left' (by simp [same])) rfl rfl
    | some n =>
      have replaced : replaceNamed σ (clusterOrder.map g₀) f n =
          some (clusterOrder.map (Function.update g₀ f (g f))) := by
        rw [replaceNamed, there f n net, cluster_get]
        simp [typed f, undotted f n net, cluster_set]
      have typed' : ∀ f', (g f').ty = (Function.update g₀ f (g f) f').ty := by
        intro f'
        by_cases same : f' = f
        · subst same; simp
        · simp [same, typed f']
      rw [List.filterMap_cons_some (b := (f, n)) (by simp [net]), List.foldlM_cons]
      simp only [replaced, Option.bind_eq_bind, Option.bind_some]
      rw [ih _ typed']
      congr 2
      funext f'
      by_cases same : f' = f
      · subst same; simp [net]
      · rw [Function.update_of_ne same]
        exact if_congr (and_congr_left' (by simp [same])) rfl rfl

/-- Zero has the type it is the zero of. -/
@[simp] theorem Ty.ty_zero (ty : Ty) : ty.zero.ty = ty := by
  cases ty <;> rfl

/-- A wire that is kept by position is the wire of its field. -/
theorem Wires.Tidy.lookup_positional {w : Wires} (tidy : w.Tidy) {f : Field} {n : Net}
    (kept : w.positional.lookup f.index = some n) : w.lookup f = some n := by
  -- Only dotted fields are kept there.
  obtain ⟨front, rest, whole, -⟩ := List.lookup_eq_some_iff.mp kept
  obtain ⟨f', dotted, place⟩ := tidy.positional (f.index, n) (by simp [whole])
  obtain rfl := Field.index_inj.mp place
  rw [Wires.lookup, if_pos dotted, kept]

/-- A wire that is kept by name is the wire of its field, which has no dot. -/
theorem Wires.Tidy.lookup_byname {w : Wires} (tidy : w.Tidy) {f : Field} {n : Net}
    (kept : w.byname.lookup f = some n) : f.dotted = false ∧ w.lookup f = some n := by
  -- Only undotted fields are kept there.
  obtain ⟨front, rest, whole, -⟩ := List.lookup_eq_some_iff.mp kept
  have undotted : f.dotted = false := tidy.byname (f, n) (by simp [whole])
  exact ⟨undotted, by simp [Wires.lookup, undotted, kept]⟩

section Bundles

variable (stub : Stub) (buffer : List Byte) (L : List Line)

/-- The wires carry these values, and fields without a wire keep their zero. -/
structure Wires.Agree (choices : List String) (g : Field → Scalar) (w : Wires) : Prop where
  tidy : w.Tidy
  carried : ∀ f n, w.lookup f = some n → Carries stub buffer L none n (.scalar (g f))
  missing : ∀ f, w.lookup f = none → g f = (f.ty choices).zero

/-- The components after the dotted fields were put in. -/
def placed (choices : List String) (g : Field → Scalar) (w : Wires) (f : Field) : Scalar :=
  if (w.positional.lookup f.index).isSome then g f else (f.ty choices).zero

/-- Every input by name is the wire kept under that name. -/
theorem mem_bynameInputs {byname : Nets Field} {f : Field} {n : Net}
    (mem : (f, n) ∈ bynameInputs byname) : byname.lookup f = some n := by
  obtain ⟨f', -, entry⟩ := List.mem_filterMap.mp mem
  obtain ⟨net, kept, pair⟩ := Option.map_eq_some_iff.mp entry
  obtain ⟨rfl, rfl⟩ := Prod.mk.inj pair
  exact kept

variable {stub buffer L}

/-- The wire of a position carries its component, when the elements carry the zeros. -/
theorem Wires.Agree.component {choices : List String} {g : Field → Scalar} {w : Wires}
    (agree : w.Agree stub buffer L choices g) {ub : Nat} {f : Field}
    (element : Carries stub buffer L none ⟨ub, .element f.index⟩ (.scalar (f.ty choices).zero)) :
    Carries stub buffer L none ((w.positional.lookup f.index).getD ⟨ub, .element f.index⟩)
      (.scalar (placed choices g w f)) := by
  -- A position without a wire keeps the element.
  unfold placed
  cases kept : w.positional.lookup f.index with
  | none => exact element
  | some n => exact agree.carried f n (agree.tidy.lookup_positional kept)

/-- The named fields complete the placed ones. -/
theorem Wires.Agree.complete {choices : List String} {g : Field → Scalar} {w : Wires}
    (agree : w.Agree stub buffer L choices g) :
    (fun f => if f ∈ clusterOrder ∧ (w.byname.lookup f).isSome then g f
      else placed choices g w f) = g := by
  -- A field has a wire by name, by position, or none at all.
  funext f
  split
  · rfl
  · next unnamed =>
    have absent : w.byname.lookup f = none := by
      rw [← Option.not_isSome_iff_eq_none]
      exact fun named => unnamed ⟨mem_clusterOrder f, named⟩
    unfold placed
    cases kept : w.positional.lookup f.index with
    | some n => rfl
    | none =>
      have nowhere : w.lookup f = none := by
        unfold Wires.lookup
        split
        exacts [kept, absent]
      simp [agree.missing f nowhere]

variable (stub buffer) (distinct : (L.map Line.uid).Nodup)

include distinct

/-- The dotted fields are put in by position. -/
theorem bundleDotted_builds (choices : List String) (g : Field → Scalar) {w : Wires} {base : Net} :
    Builds L none (Carries stub buffer L none base (defaultCluster choices) ∧
        w.Agree stub buffer L choices g) (bundleDotted base w.positional)
      fun n => Carries stub buffer L none n (.cluster (clusterOrder.map (placed choices g w))) := by
  have zeros : defaultCluster choices = .cluster (clusterOrder.map fun f => (f.ty choices).zero) := by
    simp [defaultCluster, clusterTypes, Function.comp_def]
  unfold bundleDotted
  split
  next empty =>
    -- Nothing is put in.
    have none : placed choices g w = fun f => (f.ty choices).zero := by
      funext f
      simp [placed, List.isEmpty_iff.mp empty]
    exact builds_pure fun given => by rw [none, ← zeros]; exact given.1
  next =>
    -- All components are taken apart, and those that have a wire are replaced.
    refine (builds_line (.unbundle base) (fun ub => ∀ f : Field,
      Carries stub buffer L none ⟨ub, .element f.index⟩ (.scalar (f.ty choices).zero)) trivial
      fun ub mem given => ⟨?_, fun f => ?_⟩).bind id fun ub => ?_
    · intro n reads
      obtain rfl : n = base := by simpa [Op.reads] using reads
      exact given.1.1
    · refine carries_of_line distinct (isScope_root L) mem ?_ ?_
      · exact List.mem_map.mpr ⟨f.index, List.mem_range.mpr f.index_lt, rfl⟩
      · filter_upwards [given.1.2] with fuel cluster
        rw [zeros] at cluster
        simp only [result, cluster, cluster_get]
        rfl
    · have inputs : ((List.range 17).map fun i =>
          (w.positional.lookup i).getD ⟨ub, .element i⟩) =
          clusterOrder.map fun f => (w.positional.lookup f.index).getD ⟨ub, .element f.index⟩ := by
        rw [range_eq_index, List.map_map]
        rfl
      rw [inputs]
      refine (element_builds stub buffer distinct (.bundle _) .outputCluster trivial
        (by simp [Op.terminals]) fun given => ⟨isScope_root L, ?_, fun _ => ?_⟩).bind id
        fun u => builds_pure And.right
      · intro n reads
        obtain ⟨f, -, rfl⟩ := List.mem_map.mp reads
        exact (given.1.2.component (given.2 f)).1
      · have all : ∀ᶠ fuel in Filter.atTop, ∀ f ∈ clusterOrder,
            value stub buffer L fuel ((w.positional.lookup f.index).getD ⟨ub, .element f.index⟩) =
              some (.scalar (placed choices g w f)) :=
          (Filter.eventually_all_finite (List.finite_toSet clusterOrder)).mpr
            fun f _ => (given.1.2.component (given.2 f)).2
        filter_upwards [all] with fuel there
        simp only [result]
        rw [mapM_map (g := placed choices g w) fun f mem => by simp [there f mem, Value.scalar?]]
        rfl

/-- The other fields are put in by name, which makes the values complete. -/
theorem bundleByName_builds {choices : List String} {g : Field → Scalar} {w : Wires} {cluster : Net}
    (typed : ∀ f, (g f).ty = f.ty choices) :
    Builds L none (w.Agree stub buffer L choices g ∧
        Carries stub buffer L none cluster (.cluster (clusterOrder.map (placed choices g w))))
      (line (.bundleByName (bynameInputs w.byname) cluster) none)
      fun u => Carries stub buffer L none ⟨u, .outputCluster⟩ (.cluster (clusterOrder.map g)) := by
  refine element_builds stub buffer distinct _ _ trivial (by simp [Op.terminals])
    fun given => ⟨isScope_root L, ?_, fun _ => ?_⟩
  · -- Every input is the wire of its field.
    intro n reads
    obtain ⟨agree, placed⟩ := given
    rcases List.mem_append.mp reads with named | base
    · obtain ⟨⟨f, n'⟩, mem, rfl⟩ := List.mem_map.mp named
      exact (agree.carried _ _ (agree.tidy.lookup_byname (mem_bynameInputs mem)).2).1
    · obtain rfl := List.mem_singleton.mp base
      exact placed.1
  · -- The values by name replace their components, and the others are there already.
    obtain ⟨agree, cluster⟩ := given
    have all : ∀ᶠ fuel in Filter.atTop, ∀ f ∈ clusterOrder, ∀ n, w.byname.lookup f = some n →
        value stub buffer L fuel n = some (.scalar (g f)) := by
      refine (Filter.eventually_all_finite (List.finite_toSet clusterOrder)).mpr fun f _ => ?_
      cases kept : w.byname.lookup f with
      | none => exact .of_forall fun _ _ none => by cases none
      | some n =>
        filter_upwards [(agree.carried f n (agree.tidy.lookup_byname kept).2).2] with fuel there
        intro n' same
        cases same
        exact there
    filter_upwards [cluster.2, all] with fuel base there
    have put := replaceNamed_all (g := g)
      (fun f n kept => (agree.tidy.lookup_byname kept).1) (fun f => there f (mem_clusterOrder f))
      clusterOrder (placed choices g w) fun f => by
        unfold placed
        split
        · rfl
        · rw [typed, Ty.ty_zero]
    simp only [result, base]
    unfold bynameInputs
    rw [put, agree.complete]
    rfl

end Bundles

end MarketData.Aixml
