import Sui.Move.InstantiationLoops.Graph

/-! Accepted modules have finitely many instances.

An instance is a function with type arguments; a generic call makes one of another function
by substitution. Without a growing cycle, the types that a parameter can be instantiated with
are finitely many (`finite_values`): by induction over the components of the graph, in a
component they are those that some call brings in from below, since within it calls pass them
on unchanged. -/
namespace Sui.Move.InstantiationLoops

open Sui.Lib List
open Relation (ReflTransGen)
open InstantiationLoopChecker

/-! ### Substitution -/

mutual

/-- The type with its parameters replaced, if all of them have a value. -/
def subst (args : Nat → Option SignatureToken) : SignatureToken → Option SignatureToken
  | .vector ty => (subst args ty).map .vector
  | .datatypeInstantiation handle tys => (substAll args tys).map (.datatypeInstantiation handle)
  | .reference ty => (subst args ty).map .reference
  | .mutableReference ty => (subst args ty).map .mutableReference
  | .typeParameter idx => args idx
  | .bool => some .bool
  | .u8 => some .u8
  | .u16 => some .u16
  | .u32 => some .u32
  | .u64 => some .u64
  | .u128 => some .u128
  | .u256 => some .u256
  | .address => some .address
  | .signer => some .signer
  | .datatype handle => some (.datatype handle)

def substAll (args : Nat → Option SignatureToken) : List SignatureToken → Option (List SignatureToken)
  | [] => some []
  | ty :: tys =>
    match subst args ty, substAll args tys with
    | some ty, some tys => some (ty :: tys)
    | _, _ => none

end

mutual

theorem mem_extract (acc : BTreeSet Nat) (ty : SignatureToken) :
    p ∈ extract acc ty ↔ p ∈ acc ∨ p ∈ extract ∅ ty := by
  cases ty with
  | vector ty => exact mem_extract acc ty
  | reference ty => exact mem_extract acc ty
  | mutableReference ty => exact mem_extract acc ty
  | datatypeInstantiation handle tys => exact mem_extractAll acc tys
  | typeParameter idx =>
    simp only [extract, BTreeSet.mem_insert_iff]
    simp [or_comm]
  | _ => simp [extract]

theorem mem_extractAll (acc : BTreeSet Nat) (tys : List SignatureToken) :
    p ∈ extractAll acc tys ↔ p ∈ acc ∨ p ∈ extractAll ∅ tys := by
  cases tys with
  | nil => simp [extractAll]
  | cons ty tys =>
    rw [extractAll, extractAll, mem_extractAll (extract acc ty) tys, mem_extract acc ty,
      mem_extractAll (extract ∅ ty) tys, or_assoc]

end

theorem mem_extractAll_cons : p ∈ extractAll ∅ (ty :: tys) ↔ p ∈ extract ∅ ty ∨ p ∈ extractAll ∅ tys := by
  rw [extractAll, mem_extractAll]

mutual

/-- Only the parameters of the type matter. -/
theorem subst_congr (ty : SignatureToken)
    (h : ∀ p ∈ extract ∅ ty, args p = args' p) : subst args ty = subst args' ty := by
  cases ty with
  | vector ty => rw [subst, subst, subst_congr ty h]
  | reference ty => rw [subst, subst, subst_congr ty h]
  | mutableReference ty => rw [subst, subst, subst_congr ty h]
  | datatypeInstantiation handle tys => rw [subst, subst, substAll_congr tys h]
  | typeParameter idx => exact h idx (by simp [extract])
  | _ => rfl

theorem substAll_congr (tys : List SignatureToken)
    (h : ∀ p ∈ extractAll ∅ tys, args p = args' p) : substAll args tys = substAll args' tys := by
  cases tys with
  | nil => rfl
  | cons ty tys =>
    rw [substAll, substAll, subst_congr ty fun p hp => h p (mem_extractAll_cons.mpr (.inl hp)),
      substAll_congr tys fun p hp => h p (mem_extractAll_cons.mpr (.inr hp))]

end

theorem substAll_cons_eq_some : substAll args (ty :: tys) = some tys' ↔
      ∃ ty' rest, subst args ty = some ty' ∧ substAll args tys = some rest ∧ ty' :: rest = tys' := by
  rw [substAll]
  cases subst args ty <;> cases substAll args tys <;> simp

mutual

/-- A substitution that succeeds has a value for each parameter. -/
theorem value_of_subst (ty : SignatureToken)
    (h : (subst args ty).isSome = true) (hp : p ∈ extract ∅ ty) : (args p).isSome = true := by
  cases ty with
  | vector ty => exact value_of_subst ty (by simpa [subst] using h) hp
  | reference ty => exact value_of_subst ty (by simpa [subst] using h) hp
  | mutableReference ty => exact value_of_subst ty (by simpa [subst] using h) hp
  | datatypeInstantiation handle tys => exact value_of_substAll tys (by simpa [subst] using h) hp
  | typeParameter idx =>
    have hidx : idx = p := by simpa [extract] using hp
    exact hidx ▸ h
  | _ => simp [extract] at hp

theorem value_of_substAll (tys : List SignatureToken)
    (h : (substAll args tys).isSome = true) (hp : p ∈ extractAll ∅ tys) : (args p).isSome = true := by
  cases tys with
  | nil => simp [extractAll] at hp
  | cons ty tys =>
    obtain ⟨_, h⟩ := Option.isSome_iff_exists.mp h
    obtain ⟨_, _, hty, htys, -⟩ := substAll_cons_eq_some.mp h
    rcases mem_extractAll_cons.mp hp with hp | hp
    · exact value_of_subst ty (Option.isSome_of_eq_some hty) hp
    · exact value_of_substAll tys (Option.isSome_of_eq_some htys) hp

end

/-- Finitely many values for the parameters make finitely many types. -/
theorem finite_subst (ty : SignatureToken) {V : Nat → Set SignatureToken} (hV : ∀ p ∈ extract ∅ ty, (V p).Finite) :
    {t | ∃ args, subst args ty = some t ∧ ∀ p ∈ extract ∅ ty, ∃ v ∈ V p, args p = some v}.Finite := by
  classical
  have hpi : {f : {p // p ∈ extract ∅ ty} → SignatureToken | ∀ p, f p ∈ V p.1}.Finite := by
    have hparams : Finite {p // p ∈ extract ∅ ty} := by
      refine Set.Finite.to_subtype (s := {p | p ∈ extract ∅ ty}) ?_
      refine ((extract ∅ ty).toList.toFinset.finite_toSet).subset fun p hp => ?_
      simpa using hp
    exact Set.Finite.pi' fun p => hV p.1 p.2
  refine ((hpi.image fun f => subst (fun p => if h : p ∈ extract ∅ ty then some (f ⟨p, h⟩) else none)
    ty).preimage (Option.some_injective _).injOn).subset ?_
  intro t ⟨args, ht, hargs⟩
  choose v hv hsome using hargs
  refine ⟨fun p => v p.1 p.2, fun p => hv p.1 p.2, ?_⟩
  rw [← ht]
  refine subst_congr ty fun p hp => ?_
  rw [dif_pos hp, hsome p hp]

/-! ### Instances -/

/-- A function with type arguments. -/
abbrev Instance := Nat × List SignatureToken

/-- A generic call of one instance to another. -/
def Instantiates (module : CompiledModule) (a b : Instance) : Prop :=
  ∃ actuals, Calls module a.1 b.1 actuals ∧ substAll (a.2[·]?) actuals = some b.2

def Reachable (module : CompiledModule) (start : Set Instance) (b : Instance) : Prop :=
  ∃ a ∈ start, ReflTransGen (Instantiates module) a b

/-- The types a parameter is instantiated with. -/
def values (module : CompiledModule) (start : Set Instance) (v : Node) : Set SignatureToken :=
  {t | ∃ args, Reachable module start ((ofLex v).1, args) ∧ args[(ofLex v).2]? = some t}

variable {args : Nat → Option SignatureToken} {tys tys' : List SignatureToken}

theorem getElem?_substAll
    (h : substAll args tys = some tys') {i : Nat} {t : SignatureToken} (ht : tys'[i]? = some t) :
    ∃ ty, tys[i]? = some ty ∧ subst args ty = some t := by
  induction tys generalizing tys' i with
  | nil =>
    cases h
    simp at ht
  | cons ty tys ih =>
    obtain ⟨ty', rest, hty, htys, rfl⟩ := substAll_cons_eq_some.mp h
    cases i with
    | zero => exact ⟨ty, rfl, hty.trans ht⟩
    | succ i => exact ih htys ht

theorem length_substAll (h : substAll args tys = some tys') : tys'.length = tys.length := by
  induction tys generalizing tys' with
  | nil =>
    cases h
    rfl
  | cons ty tys ih =>
    obtain ⟨ty', rest, hty, htys, rfl⟩ := substAll_cons_eq_some.mp h
    rw [length_cons, length_cons, ih htys]

section Finite
variable {module : CompiledModule} {start : Set Instance}

/-- The types that calls bring into the component of a node from below. -/
def brought (module : CompiledModule) (start : Set Instance) (v : Node) : Set SignatureToken :=
  {t | ∃ a ∈ start, t ∈ a.2} ∪
  ⋃ caller ∈ Set.Iio module.functionDefs.length, ⋃ ty ∈ {ty | ty ∈ module.signatures.flatten},
    {t | (∀ p ∈ extract ∅ ty, Below (Leads module) (toLex (caller, p)) v) ∧
      ∃ args, subst args ty = some t ∧
        ∀ p ∈ extract ∅ ty, ∃ t' ∈ values module start (toLex (caller, p)), args p = some t'}

theorem Calls.lt (h : Calls module caller callee actuals) :
    caller < module.functionDefs.length ∧ actuals ∈ module.signatures := by
  obtain ⟨d, code, idx, inst, hd, -, -, -, -, hactuals⟩ := h
  exact ⟨(List.getElem?_eq_some_iff.mp hd).1, List.mem_of_getElem? hactuals⟩

theorem finite_brought (hstart : start.Finite) (v : Node)
    (hbelow : ∀ u, Below (Leads module) u v → (values module start u).Finite) :
    (brought module start v).Finite := by
  refine Set.Finite.union ?_ ?_
  · refine (hstart.biUnion fun a _ => finite_toSet a.2).subset fun t ht => ?_
    obtain ⟨a, ha, ht⟩ := ht
    exact Set.mem_biUnion ha ht
  · refine (Set.finite_Iio _).biUnion fun caller _ => ?_
    refine (finite_toSet _).biUnion fun ty _ => ?_
    by_cases hall : ∀ p ∈ extract ∅ ty, Below (Leads module) (toLex (caller, p)) v
    · exact (finite_subst ty fun p hp => hbelow _ (hall p hp)).subset fun t ht => ht.2
    · exact Set.finite_empty.subset fun t ht => hall ht.1

/-- In a component, types come from below or are passed on. -/
theorem mem_brought (hgrow : ¬ GrowingCycle module) {v : Node} {b : Instance}
    (hb : Reachable module start b) {i : Nat} {t : SignatureToken} (ht : b.2[i]? = some t)
    (htogether : Together (Leads module) (toLex (b.1, i)) v) : t ∈ brought module start v := by
  obtain ⟨a, ha, hpath⟩ := hb
  induction hpath generalizing i t with
  | refl => exact .inl ⟨a, ha, mem_of_getElem? ht⟩
  | @tail a' b hpath hcall ih =>
    obtain ⟨actuals, hcalls, hsubst⟩ := hcall
    obtain ⟨ty, hty, ht⟩ := getElem?_substAll hsubst ht
    -- Where the parameters of the actual type come from.
    have hpass : ∀ p edge, Uses ty p edge →
        Passes module (toLex (a'.1, p)) (toLex (b.1, i)) edge := fun p edge huses =>
      ⟨a'.1, b.1, actuals, i, ty, p, hcalls, hty, huses, rfl, rfl⟩
    have hvalue : ∀ p ∈ extract ∅ ty, ∃ t' ∈ values module start (toLex (a'.1, p)), (a'.2[·]?) p = some t' := by
      intro p hp
      obtain ⟨t', ht'⟩ := Option.isSome_iff_exists.mp (value_of_subst ty (by rw [ht]; rfl) hp)
      exact ⟨t', ⟨a'.2, ⟨a, ha, hpath⟩, ht'⟩, ht'⟩
    have hfrom : (∀ p ∈ extract ∅ ty, Below (Leads module) (toLex (a'.1, p)) v) → t ∈ brought module start v := by
      intro hbelow
      refine .inr (Set.mem_biUnion hcalls.lt.1 (Set.mem_biUnion ?_ ⟨hbelow, _, ht, hvalue⟩))
      exact mem_flatten.mpr ⟨actuals, hcalls.lt.2, mem_of_getElem? hty⟩
    by_cases hparam : ∃ p, ty = .typeParameter p
    · obtain ⟨p, rfl⟩ := hparam
      have hlead : ReflTransGen (Leads module) (toLex (a'.1, p)) v :=
        .head ⟨_, hpass p _ (.identity p)⟩ htogether.1
      rcases Together.or_below hlead with hsame | hbelow
      · exact ih ht hsame
      · refine hfrom fun q hq => ?_
        have hqp : p = q := by simpa [extract] using hq
        exact hqp ▸ hbelow
    · refine hfrom fun p hp => ?_
      have huses : Uses ty p (.tyConApp ty) := .tyConApp (fun q hq => hparam ⟨q, hq⟩) hp
      refine ⟨.head ⟨_, hpass p _ huses⟩ htogether.1, fun hback => ?_⟩
      exact hgrow ⟨_, _, ty, hpass p _ huses, htogether.1.trans hback⟩

theorem finite_sources (module : CompiledModule) : {u | ∃ v, Leads module u v}.Finite := by
  have hfin : (⋃ caller ∈ Set.Iio module.functionDefs.length,
      ⋃ ty ∈ {ty | ty ∈ module.signatures.flatten},
      {u : Node | ∃ p ∈ extract ∅ ty, u = toLex (caller, p)}).Finite := by
    refine (Set.finite_Iio _).biUnion fun caller _ => (finite_toSet _).biUnion fun ty _ => ?_
    refine ((extract ∅ ty).toList.toFinset.finite_toSet.image fun p => (toLex (caller, p) : Node)).subset
      fun u hu => ?_
    obtain ⟨p, hp, rfl⟩ := hu
    exact ⟨p, by simpa using hp, rfl⟩
  refine hfin.subset fun u hu => ?_
  obtain ⟨v, edge, caller, callee, actuals, formal, ty, p, hcalls, hty, huses, rfl, -⟩ := hu
  refine Set.mem_biUnion hcalls.lt.1 (Set.mem_biUnion
    (mem_flatten.mpr ⟨actuals, hcalls.lt.2, mem_of_getElem? hty⟩) ⟨p, ?_, rfl⟩)
  cases huses with
  | identity => simp [extract]
  | tyConApp _ hp => exact hp

/-- Every parameter has finitely many values. -/
theorem finite_values (hgrow : ¬ GrowingCycle module) (hstart : start.Finite) (v : Node) :
    (values module start v).Finite := by
  induction v using below_induction (finite_sources module) with
  | step v ih =>
    refine (finite_brought hstart v ih).subset fun t ht => ?_
    obtain ⟨args, hargs, ht⟩ := ht
    exact mem_brought hgrow hargs ht ⟨.refl, .refl⟩

/-- Lists with finitely many choices at each position. -/
theorem finite_lists {V : Nat → Set T} (hV : ∀ i, (V i).Finite) (n : Nat) :
    {l : List T | l.length = n ∧ ∀ i t, l[i]? = some t → t ∈ V i}.Finite := by
  induction n generalizing V with
  | zero =>
    refine (Set.finite_singleton []).subset fun l hl => ?_
    exact length_eq_zero_iff.mp hl.1
  | succ n ih =>
    refine (Set.Finite.image2 cons (hV 0) (ih fun i => hV (i + 1))).subset fun l hl => ?_
    obtain ⟨hlen, hmem⟩ := hl
    cases l with
    | nil => simp at hlen
    | cons t l =>
      exact ⟨t, hmem 0 t rfl, l, ⟨by simpa using hlen, fun i t' ht' => hmem (i + 1) t' ht'⟩, rfl⟩

theorem definition_lt (h : definition? module handle = some callee) : callee < 65536 := by
  obtain ⟨x, -, heq⟩ := mem_map.mp (Writes.mem_of_last h)
  cases heq
  exact Nat.mod_lt _ (by decide)

/-- Without a growing cycle there are finitely many instances. -/
theorem finite_reachable (hgrow : ¬ GrowingCycle module) (hstart : start.Finite) :
    {b | Reachable module start b}.Finite := by
  have hcalled : (⋃ callee ∈ Set.Iio 65536, ⋃ actuals ∈ {s | s ∈ module.signatures},
      (fun args : List SignatureToken => ((callee, args) : Instance)) ''
        {l | l.length = length actuals ∧
          ∀ i t, l[i]? = some t → t ∈ values module start (toLex (callee, i))}).Finite :=
    (Set.finite_Iio _).biUnion fun callee _ => (finite_toSet _).biUnion fun actuals _ =>
      (finite_lists (fun i => finite_values hgrow hstart (toLex (callee, i))) _).image _
  refine (hstart.union hcalled).subset fun b hb => ?_
  obtain ⟨a, ha, hpath⟩ := hb
  rcases ReflTransGen.cases_tail hpath with rfl | ⟨a', hpath', hcall⟩
  · exact .inl ha
  · obtain ⟨actuals, hcalls, hsubst⟩ := hcall
    have hcallee : b.1 < 65536 := by
      obtain ⟨_, _, _, _, -, -, -, -, hdef, -⟩ := hcalls
      exact definition_lt hdef
    refine .inr (Set.mem_biUnion hcallee (Set.mem_biUnion hcalls.lt.2
      ⟨b.2, ⟨length_substAll hsubst, fun i t ht => ?_⟩, rfl⟩))
    exact ⟨b.2, ⟨a, ha, hpath⟩, ht⟩

end Finite

/-- **Accepted modules have finitely many instances**, and rejected ones a growing cycle. -/
theorem verifyModule_correct {tarjanScc : Graph → List (List Nat)} (hscc : IsScc tarjanScc)
    (debug : SignatureToken → String) (module : CompiledModule) :
    (verifyModule module tarjanScc debug = .ok () → ∀ start : Set Instance, start.Finite →
      {b | Reachable module start b}.Finite) ∧
    ∀ message, verifyModule module tarjanScc debug = .error (.loopInInstantiationGraph message) →
      GrowingCycle module :=
  ⟨fun hok _ hstart => finite_reachable (verifyModule_ok hscc hok) hstart,
    fun _ hrejected => verifyModule_rejected hscc hrejected⟩

/-! ### Two modules -/

section
open Classical

/-- The components, by definition. -/
noncomputable def components (graph : Graph) : List (List Nat) :=
  (List.range graph.nodes.length).map fun i =>
    (List.range graph.nodes.length).filter fun j => Together graph.Step i j

theorem isScc_components : IsScc components where
  covers graph _ i hi := by
    refine ⟨_, mem_map.mpr ⟨i, mem_range.mpr hi, rfl⟩, ?_⟩
    exact mem_filter.mpr ⟨mem_range.mpr hi, decide_eq_true ⟨.refl, .refl⟩⟩
  component graph hvalid nodes hnodes i hi j := by
    obtain ⟨k, -, rfl⟩ := mem_map.mp hnodes
    obtain ⟨hlt, hki⟩ := mem_filter.mp hi
    have hki := of_decide_eq_true hki
    rw [mem_filter, decide_eq_true_eq]
    refine ⟨fun ⟨_, hkj⟩ => ⟨hki.2.trans hkj.1, hkj.2.trans hki.1⟩, fun hij => ⟨?_, ?_⟩⟩
    · rcases ReflTransGen.cases_tail hij.1 with rfl | ⟨l, -, edge, he⟩
      · exact hlt
      · exact mem_range.mpr (hvalid l j edge he).2
    · exact ⟨hki.1.trans hij.1, hij.2.trans hki.2⟩

end

/-- A function that calls itself at a vector of its parameter, or another function. -/
def vectorCall (callee : Nat) : CompiledModule where
  functionDefs := [⟨0, some [.callGeneric 0]⟩, ⟨1, some []⟩]
  functionInstantiations := [⟨callee, 0⟩]
  signatures := [[.vector (.typeParameter 0)]]
  functionDefs_length := by simp
  signatures_length := by simp

theorem verifyModule_vectorCall_other (debug : SignatureToken → String) :
    verifyModule (vectorCall 1) components debug = .ok () := by
  have hbuild : ∃ c, (new (vectorCall 1)).buildGraph (vectorCall 1) = .ok c ∧
      c.graph.edges = [(0, 1, .tyConApp (.vector (.typeParameter 0)))] := ⟨_, rfl, rfl⟩
  obtain ⟨c, hbuild, hedges⟩ := hbuild
  have hnone : c.findNonTrivialComponents components = [] := by
    refine (findNonTrivialComponents_eq_nil isScc_components (buildGraph_spec hbuild).1.edges).mpr ?_
    intro ⟨i, j, ty, he, hback⟩
    rw [hedges, mem_singleton] at he
    cases he
    rcases ReflTransGen.cases_head hback with heq | ⟨k, ⟨edge, hstep⟩, -⟩
    · cases heq
    · rw [hedges, mem_singleton] at hstep
      cases hstep
  unfold verifyModule
  rw [Exec.bind_ok hbuild, hnone]
  rfl

theorem verifyModule_vectorCall_self (debug : SignatureToken → String) :
    ∃ message, verifyModule (vectorCall 0) components debug = .error (.loopInInstantiationGraph message) := by
  have hbuild : ∃ c, (new (vectorCall 0)).buildGraph (vectorCall 0) = .ok c ∧
      c.graph = ⟨[toLex (0, 0)], [(0, 0, .tyConApp (.vector (.typeParameter 0)))]⟩ := ⟨_, rfl, rfl⟩
  obtain ⟨c, hbuild, hgraph⟩ := hbuild
  have hcomponents : components c.graph = [[0]] := by
    have htogether : Together c.graph.Step 0 0 := ⟨.refl, .refl⟩
    rw [hgraph] at htogether
    simp [components, hgraph, htogether]
  obtain ⟨graph, nodeMap, defs⟩ := c
  unfold verifyModule
  rw [Exec.bind_ok hbuild]
  unfold findNonTrivialComponents
  rw [hcomponents]
  subst hgraph
  exact ⟨_, rfl⟩

theorem verifyModule_correct_vectorCall :
    (verifyModule (vectorCall 1) components (fun _ => "_") = .ok () ∧
      {b | Reachable (vectorCall 1) {(0, [.u8])} b}.Finite) ∧
    (∃ message, verifyModule (vectorCall 0) components (fun _ => "_") =
      .error (.loopInInstantiationGraph message)) ∧ GrowingCycle (vectorCall 0) := by
  have hcorrect := verifyModule_correct isScc_components fun _ => "_"
  have haccepted := verifyModule_vectorCall_other fun _ => "_"
  obtain ⟨message, hrejected⟩ := verifyModule_vectorCall_self fun _ => "_"
  exact ⟨⟨haccepted, (hcorrect _).1 haccepted _ (Set.finite_singleton _)⟩, ⟨message, hrejected⟩,
    (hcorrect _).2 message hrejected⟩

end Sui.Move.InstantiationLoops
