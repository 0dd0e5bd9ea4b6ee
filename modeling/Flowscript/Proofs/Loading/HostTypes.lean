import Flowscript.Proofs.Loading.UnloadedWorkspace
import Flowscript.Type.Builtin

/-! # Registries of described types

The types that a host describes mention no other types or bodies by number: their functions work on
primitive data or are functions of the host.
-/
namespace Flowscript

/-- The type mentions no types or bodies by number. -/
def TypeInfo.Plain (t : TypeInfo) : Prop := t.Within (fun _ => False) fun _ => False

namespace NativeType

variable (t : NativeType)

theorem body_of_mem_functions {f : Function} (hf : f ∈ t.functions) :
    ∃ op, f.body = .native op t.shape t.destructor := by
  unfold functions at hf
  simp only [List.mem_append, List.mem_ite_nil_right] at hf
  rcases hf with (((⟨-, hf⟩ | ⟨-, hf⟩) | ⟨-, hf⟩) | ⟨-, hf⟩) | hf
  · unfold defaultFunctions at hf
    simp only [List.mem_cons, List.not_mem_nil, or_false] at hf
    rcases hf with rfl | rfl | rfl <;> exact ⟨_, rfl⟩
  · unfold cloneFunctions at hf
    simp only [List.mem_cons, List.not_mem_nil, or_false] at hf
    rcases hf with rfl | rfl <;> exact ⟨_, rfl⟩
  · obtain ⟨op, -, rfl⟩ := List.mem_map.mp hf
    exact ⟨_, rfl⟩
  · obtain ⟨op, -, rfl⟩ := List.mem_map.mp hf
    exact ⟨_, rfl⟩
  · cases harith : t.abilities.arithmetic with
    | none =>
      rw [harith] at hf
      cases hf
    | some prim =>
      rw [harith] at hf
      obtain ⟨op, -, rfl⟩ := List.mem_map.mp hf
      exact ⟨_, rfl⟩

theorem plain_info : t.info.Plain := by
  refine TypeInfo.Within.addFunctions ⟨fun codec hcodec => ?_, List.forall_mem_nil _⟩ fun f hf => ?_
  · simp only [Option.mem_ite_none_right, Option.mem_some_iff] at hcodec
    rw [← hcodec.2]
    exact trivial
  · obtain ⟨op, hbody⟩ := t.body_of_mem_functions hf
    rw [hbody]
    exact trivial

theorem id_info : t.info.id = .ofName t.info.name := by
  have hface : ∀ (fs : List Function) (u : TypeInfo),
      (u.addFunctions fs).id = u.id ∧ (u.addFunctions fs).name = u.name := by
    intro fs
    induction fs with
    | nil => exact fun u => ⟨rfl, rfl⟩
    | cons f fs ih => exact fun u => ih (u.addFunction f)
  unfold info
  rw [(hface _ _).1, (hface _ _).2]
  rfl

end NativeType

namespace Catalogue

variable {c : Catalogue}

/-- All types have the identities of their names and mention nothing by number. -/
structure Plain (c : Catalogue) : Prop where
  filed : c.Filed
  plain : ∀ (h : Handle) (t : TypeInfo), c.infos[h]? = some t → t.Plain

namespace Plain

theorem empty : ({} : Catalogue).Plain := by
  refine ⟨⟨fun h t ht => ?_, fun id h hh => ?_⟩, fun h t ht => ?_⟩
  · cases ht
  · simp [handle?] at hh
  · cases ht

theorem modify (hc : c.Plain) (h : Handle) {f : TypeInfo → TypeInfo}
    (hface : ∀ t, (f t).id = t.id ∧ (f t).name = t.name) (hplain : ∀ t, t.Plain → (f t).Plain) :
    (c.modify h f).Plain := by
  refine ⟨hc.filed.modify h hface, fun k t ht => ?_⟩
  simp only [Catalogue.modify, Array.getElem?_modify] at ht
  split at ht
  · obtain ⟨u, hu, rfl⟩ := Option.map_eq_some_iff.mp ht
    exact hplain u (hc.plain k u hu)
  · exact hc.plain k t ht

theorem modifyId (hc : c.Plain) (id : TypeId) {f : TypeInfo → TypeInfo}
    (hface : ∀ t, (f t).id = t.id ∧ (f t).name = t.name) (hplain : ∀ t, t.Plain → (f t).Plain) :
    (c.modifyId id f).Plain := by
  unfold Catalogue.modifyId
  split
  · exact hc.modify _ hface hplain
  · exact hc

theorem addDerived_face (id : TypeId) (t : TypeInfo) :
    (addDerived id t).id = t.id ∧ (addDerived id t).name = t.name := by
  unfold addDerived
  split <;> exact ⟨rfl, rfl⟩

theorem grow (hc : c.Plain) {t : TypeInfo} (hid : t.id = .ofName t.name) (ht : t.Plain) : (c.grow t).Plain := by
  refine ⟨hc.filed.grow hid, fun k u hu => ?_⟩
  simp only [Catalogue.grow, Array.getElem?_push] at hu
  split at hu
  · cases hu
    exact ht
  · exact hc.plain k u hu

theorem register (hc : c.Plain) {t : TypeInfo} (hid : t.id = .ofName t.name) (ht : t.Plain) :
    (c.register t).2.Plain := by
  unfold Catalogue.register
  split
  · exact hc
  · have hbases : (t.bases.foldl (fun c base => c.modifyId base (Catalogue.addDerived t.id)) (c.grow t)).Plain :=
      List.foldlRecOn t.bases _ (hc.grow hid ht) fun d hd base _ =>
        hd.modifyId base (addDerived_face t.id) fun u hu => TypeInfo.Within.addDerived hu t.id
    have hheirs := List.foldlRecOn (motive := Plain)
      (heirs (t.bases.foldl (fun c base => c.modifyId base (Catalogue.addDerived t.id)) (c.grow t)) t.id)
      (fun d heir => d.modify c.infos.size (Catalogue.addDerived heir)) hbases fun d hd heir _ =>
        hd.modify c.infos.size (addDerived_face heir) fun u hu => TypeInfo.Within.addDerived hu heir
    exact ⟨⟨hheirs.filed.named, hheirs.filed.indexed⟩, hheirs.plain⟩

theorem registerNative (hc : c.Plain) (t : NativeType) : (c.registerNative t).2.Plain :=
  hc.register t.id_info t.plain_info

theorem info (hc : c.Plain) (h : Handle) : (c.info h).Plain := by
  by_cases hh : h < c.infos.size
  · have hsome := Array.getElem?_eq_getElem hh
    rw [info_of_getElem? hsome]
    exact hc.plain h _ hsome
  · rw [info_of_size_le (not_lt.mp hh)]
    exact ⟨fun _ hcodec => (nomatch hcodec), List.forall_mem_nil _⟩

theorem closed {k : Context} (hk : k.catalogue.Plain) : k.Closed := fun h _ =>
  (hk.info h).mono (fun _ => False.elim) fun _ => False.elim

end Plain

end Catalogue

section Steady

variable {k₀ : Context} {m₀ : Machine} {t : TypeInfo}

/-- Without a function of a host or a script, values are constructed in the same way always. -/
theorem Context.Steady.of_composed (h : ∀ f ∈ t.overloads (.operator .construct), ¬ f.body.IsForeign) :
    k₀.Steady m₀ t := fun f hf hbody => absurd hbody (h f (TypeInfo.mem_of_resolve hf))

theorem Context.Steady.of_zeroed {f : Function} {host : HostFunction} {r : Param} {u : TypeInfo}
    (hfiled : k₀.catalogue.Filed) (hf : t.resolve (.operator .construct) [] = .ok f) (hbody : f.body = .host host)
    (hrecord : host.record = false) (houtcome : host.outcome = .zeroed) (hresult : f.result = some r)
    (hu : k₀.catalogue.lookup? r.type = some u) : k₀.Steady m₀ t := by
  intro g hg _ k k' hk hk' m m' _ _ depth p p' _
  cases hf.symm.trans hg
  have hrun : ∀ (k : Context) (m : Machine) (p : Place), k₀.Outgrows k →
      Ensures (f.run (invokeWithin depth) [] (some p)) k m (fun v _ => v = none) fun _ _ => False := by
    intro k m p hk
    simp [Function.run, hbody, HostFunction.run, hrecord, HostFunction.perform, houtcome,
      HostFunction.produceResult, HostFunction.resultType, hresult, hk.lookup?_eq hfiled hu, Exec.produce]
  rw [Exec.outcome_of_ensures (hrun k m p hk), Exec.outcome_of_ensures (hrun k' m' p' hk')]
  exact .ok rfl

end Steady

namespace Catalogue

/-- A described type is registered, and the host gives it functions of its own. -/
def hosting (t : NativeType) (fs : List Function) : Catalogue :=
  (({} : Catalogue).registerNative t).2.modifyId t.id (·.addFunctions fs)

theorem Plain.hosting (t : NativeType) {fs : List Function}
    (hfs : ∀ f ∈ fs, f.body.Within (fun _ => False) fun _ => False) : (Catalogue.hosting t fs).Plain := by
  refine (empty.registerNative t).modifyId t.id (fun u => ?_) fun u hu => TypeInfo.Within.addFunctions hu hfs
  rw [TypeInfo.addFunctions_eq]
  exact ⟨rfl, rfl⟩

theorem hosting_eq {t : NativeType} (hbases : t.bases = []) (fs : List Function) : (hosting t fs).infos.size = 1 ∧
    (∀ id, (hosting t fs).handle? id = if id = t.id then some 0 else none) ∧
      ∃ heirs, (hosting t fs).info 0 = (withHeirs heirs t.info).addFunctions fs := by
  have hid : t.info.id = t.id := by
    rw [NativeType.info, TypeInfo.addFunctions_eq]
  have hnone : t.info.bases = [] := by
    rw [NativeType.info, TypeInfo.addFunctions_eq]
    exact List.map_eq_nil_iff.mpr hbases
  obtain ⟨hsize, hhandle, heirs, hinfo⟩ := register_first hnone
  rw [hid] at hhandle
  have hhosting : hosting t fs = (({} : Catalogue).register t.info).2.modify 0 (·.addFunctions fs) := by
    rw [hosting, modifyId, registerNative, hhandle, if_pos rfl]
  rw [hhosting]
  refine ⟨by simp [modify, hsize], hhandle, heirs, ?_⟩
  rw [info_modify, if_pos ⟨rfl, by rw [hsize]; exact Nat.one_pos⟩, hinfo]

theorem register_beside {c : Catalogue} {id : TypeId} (hsize : c.infos.size = 1)
    (hhandle : ∀ a, c.handle? a = if a = id then some 0 else none) {t : TypeInfo} (hbases : t.bases = [])
    (hne : t.id ≠ id) : (c.register t).2.infos.size = 2 ∧
      (∀ a, (c.register t).2.handle? a = if a = id then some 0 else if a = t.id then some 1 else none) ∧
        (c.register t).2.info 0 = c.info 0 ∧ ∃ heirs, (c.register t).2.info 1 = withHeirs heirs t := by
  have hnew : c.handle? t.id = none := by rw [hhandle, if_neg hne]
  have hgrows : c.Extends (c.register t).2 := .register hbases
  have hregister := congrArg Prod.snd (register_eq_grow hbases hnew)
  refine ⟨?_, fun a => ?_, hgrows.info_of_lt (by rw [hsize]; exact Nat.one_pos), (c.grow t).heirs t.id, ?_⟩
  · rw [hregister]
    simp [grow, hsize]
  · rw [handle?_register hbases, hhandle, hsize]
    split <;> rfl
  · rw [hregister]
    have hlast := info_grow c (withHeirs ((c.grow t).heirs t.id) t) 1
    rw [hsize, if_pos rfl] at hlast
    exact hlast

end Catalogue

end Flowscript

/-! ## Types that the host constructs

The default of a script's field may leave out a value of a type that has no default of its own. The host
constructs it then: reading the default calls a function of the host, which may do anything, and call back
scripts that were registered before. So loading may depend on what the host does.
-/
namespace Flowscript

namespace Loader

/-- A type of the host that has no default of its own. -/
def badge : NativeType where
  name := "Badge"
  layout := ⟨4, 4⟩
  codec := .scalar (.int .i32)
  abilities := { clone := true, codec := true, arithmetic := some (.int .i32) }

structure BadgeInfo (f : Function) (t : TypeInfo) : Prop where
  eq : t = { badge.info with functions := t.functions, derived := t.derived }
  resolve : t.resolve (.operator .construct) [] = .ok f

namespace BadgeInfo

variable {f : Function} {t : TypeInfo} (h : BadgeInfo f t)
include h

theorem name : t.name = badge.name := by
  rw [h.eq, NativeType.info, TypeInfo.addFunctions_eq]

theorem layout : t.layout = ⟨4, 4⟩ := by
  rw [h.eq, NativeType.info, TypeInfo.addFunctions_eq]
  rfl

theorem codec : t.codec = some (.native (.scalar (.int .i32))) := by
  rw [h.eq, NativeType.info, TypeInfo.addFunctions_eq]
  rfl

theorem traits : t.traits.copy = true ∧ t.traits.trivial = true := by
  rw [h.eq, NativeType.info, TypeInfo.addFunctions_eq]
  exact ⟨rfl, rfl⟩

theorem visible : t.visible = true := by
  rw [h.eq, NativeType.info, TypeInfo.addFunctions_eq]
  rfl

theorem destructor : t.destructor = none := by
  rw [h.eq, NativeType.info, TypeInfo.addFunctions_eq]
  rfl

end BadgeInfo

theorem badgeInfo_hosting {f : Function} {fs : List Function} (hname : f.name = Operator.construct.functionName)
    (hparams : f.params = []) (hfs : ∀ g ∈ fs, FunctionKey.operator .construct ≠ g.key) :
    BadgeInfo f ((Catalogue.hosting badge (f :: fs)).info 0) := by
  obtain ⟨-, -, heirs, hinfo⟩ := Catalogue.hosting_eq (t := badge) rfl (f :: fs)
  have hkey : f.key = .operator .construct := by
    rw [Function.key, hname]
    exact FunctionKey.ofName_functionName .construct
  have hoverloads : ((Catalogue.withHeirs heirs badge.info).addFunctions (f :: fs)).overloads (.operator .construct) =
      ((Catalogue.withHeirs heirs badge.info).addFunction f).overloads (.operator .construct) :=
    TypeInfo.overloads_addFunctions_of_ne hfs
  have hown : ∀ g ∈ badge.functions, g.params ≠ [] := by decide
  rw [hinfo]
  refine ⟨?_, TypeInfo.resolve_nil ?_ hparams fun g hg hnone => ?_⟩
  · rw [TypeInfo.addFunctions_eq, Catalogue.withHeirs_eq]
  · rw [hoverloads, ← hkey, TypeInfo.overloads_addFunction_self]
    exact List.mem_append_right _ List.mem_cons_self
  · rw [hoverloads] at hg
    rcases TypeInfo.mem_overloads_addFunction hg with hg | hg
    · exact hg
    · rw [Catalogue.overloads_withHeirs, NativeType.info] at hg
      rcases TypeInfo.mem_overloads_addFunctions hg with hg | hg
      · exact absurd hnone (hown g hg)
      · exact absurd hg List.not_mem_nil

def pouch : Script := { name := "Pouch", fields := [{ name := "badge", type := "Badge" }] }

def coat : Script := { name := "Coat", fields := [{ name := "pocket", type := "Pouch", default := some (.obj []) }] }

structure PouchInfo (t : TypeInfo) : Prop where
  layout : t.layout = ⟨4, 4⟩
  codec : t.codec = some (.aggregate [(⟨"badge", 0, 0, none, none⟩, .native (.scalar (.int .i32)))])
  ownable : t.isOwnable = true
  visible : t.visible = true
  destructor : t.destructor = none

theorem typeOf_pouch {c : Catalogue} {f : Function} (hbadge : BadgeInfo f (c.info 0)) (heirs : List TypeId) :
    (typeOf c pouch.name [⟨"badge", 0, none⟩]).2 = [] ∧
      PouchInfo (Catalogue.withHeirs heirs (typeOf c pouch.name [⟨"badge", 0, none⟩]).1) := by
  have hplace : Aggregate.place? c [⟨"badge", 0, none⟩] = some (⟨4, 4⟩, [⟨"badge", 0, 0, none, none⟩]) := by
    simp only [Aggregate.place?, List.map_cons, List.map_nil, hbadge.layout]
    rw [show Layout.place? [⟨4, 4⟩] = some (⟨4, 4⟩, [0]) from rfl]
    simp [hbadge.destructor]
  unfold typeOf
  rw [hplace]
  dsimp only
  unfold Aggregate.info
  rw [TypeInfo.addFunctions_eq, Catalogue.withHeirs_eq]
  obtain ⟨hcopy, htrivial⟩ := hbadge.traits
  refine ⟨rfl, ?_, ?_, ?_, ?_, ?_⟩ <;>
    simp [Aggregate.codecOf?, hbadge.codec, Aggregate.canCopy, hcopy, Aggregate.destructorOf, htrivial,
      TypeInfo.isOwnable]

section Read

variable {k : Context} {t : TypeInfo} {m : Machine}

theorem ensures_checkDefault_pouch {f : Function} (ht : PouchInfo t) (hbadge : BadgeInfo f (k.catalogue.info 0))
    {Q : List (Nat × Int) → Prop} {E : Prop} (hconstruct : ∀ place memory,
      Ensures (invoke f [] (some place)) k { m with memory } (fun v m' => v = none ∧ Q m'.counts) fun _ _ => E) :
    Ensures (checkDefault t (.obj [])) k m (fun _ m' => Q m'.counts) fun _ _ => E := by
  unfold checkDefault Invoke.decodeAt
  rw [ht.codec, ht.layout, ht.destructor]
  simp [Exec.allocate, Exec.free, Exec.destroy, Invoke.decode, Invoke.decodeParts, Invoke.defaultAt,
    Invoke.constructAt, hbadge.layout, Invoke.callKey, hbadge.resolve, Place.isAligned, Place.shift, Address.shift,
    Address.offset, Exec.orEnd]
  refine (hconstruct _ _).mono ?_ fun _ _ => id
  rintro _ _ ⟨rfl, hQ⟩
  simpa [Invoke.settleAt] using hQ

variable {h : Handle}

theorem errors_typeOf_coat (hpouch : PouchInfo (k.catalogue.info h)) :
    (typeOf k.catalogue coat.name [⟨"pocket", h, some (.obj [])⟩]).2 = [] := by
  unfold typeOf Aggregate.place?
  simp only [List.map_cons, List.map_nil, hpouch.layout]
  rfl

/-- A coat is declared without errors just if its default can be read. -/
theorem errors_coat (hnamed : k.catalogue.handleNamed? "Pouch" = some h) (hpouch : PouchInfo (k.catalogue.info h))
    {Q : Machine → Prop} {E : Prop}
    (hread : Ensures (checkDefault (k.catalogue.info h) (.obj [])) k m (fun _ m' => Q m') fun _ _ => E)
    {es : List ScriptError} {ms : List Member} {m' : Machine}
    (hfound : FindsAll k coat.name [] m [] coat.fields es ms m') :
    es ++ (typeOf k.catalogue coat.name ms).2 = [] ∧ Q m' ∨
      es ++ (typeOf k.catalogue coat.name ms).2 ≠ [] ∧ E := by
  have hrefuse : refuseField? k.catalogue coat.name [] []
      { name := "pocket", type := "Pouch", default := some (.obj []) } = .ok h := by
    simp [refuseField?, coat, hnamed, hpouch.visible, hpouch.ownable]
  cases hfound with
  | cons first rest =>
    cases rest
    cases first with
    | refused hwhy => cases hrefuse.symm.trans hwhy
    | bare _ hdefault => cases hdefault
    | read hok hdefault hdone =>
      cases hrefuse.symm.trans hok
      cases hdefault
      exact .inl ⟨errors_typeOf_coat hpouch, hread.ok hdone⟩
    | unread hok hdefault hdone =>
      cases hrefuse.symm.trans hok
      cases hdefault
      exact .inr ⟨List.cons_ne_nil _ _, hread.error hdone⟩

end Read

def mint : Function where
  name := Operator.construct.functionName
  params := []
  result := some (Function.resultParam badge.id .value)
  pure := true
  body := .host { record := false, outcome := .zeroed, counter := 0 }

/-- A function that can be called without arguments. -/
def errand : Graph where
  name := "Main"
  signature := { isStatic := true }
  nodes := #[some ⟨⟨1⟩, .entry, ⟨1⟩, 1, {}⟩]
  pins := #[some ⟨⟨1⟩, ⟨1⟩, .output, "Then", .flow, none⟩]

def errandProgram : Program where
  name := "Main"
  script := some "Clerk"
  nodes := #[some { id := ⟨1⟩, label := "Entry", op := .entry, pure := false, flowOut := [⟨1⟩] }]
  pins := #[some { node := ⟨1⟩, type := none, form := .value, default := none, storage := 0 }]
  entry := ⟨1⟩
  returnNode := none
  result := none
  pure := false
  params := 0
  hasWorld := false
  thisType := none
  storage := .empty

theorem compile_errand (c : Catalogue) : Program.compile errand c { script := some "Clerk" } = .ok errandProgram := by
  with_unfolding_all rfl

def clerk : TypeInfo :=
  (typeOf {} "Clerk" []).1.addFunction (functionOf "World" (.ofName "Clerk") errand 0)

theorem clerk_eq : clerk.id = .ofName "Clerk" ∧ clerk.name = "Clerk" ∧ clerk.bases = [] := by
  have hface := typeOf_eq {} "Clerk" []
  unfold clerk
  generalize typeOf {} "Clerk" [] = declared at hface ⊢
  exact hface

def staffed : Context where
  catalogue := ((Catalogue.hosting badge [mint]).register clerk).2
  bodies := #[⟨"Clerk::Main", .ready errandProgram⟩]

theorem staffed_eq : staffed.catalogue.infos.size = 2 ∧
    (∀ id, staffed.catalogue.handle? id =
      if id = badge.id then some 0 else if id = .ofName "Clerk" then some 1 else none) ∧
      BadgeInfo mint (staffed.catalogue.info 0) ∧
        ∃ heirs, staffed.catalogue.info 1 = Catalogue.withHeirs heirs clerk := by
  obtain ⟨hsize, hhandle, -⟩ := Catalogue.hosting_eq (t := badge) rfl [mint]
  obtain ⟨hid, hname, hbases⟩ := clerk_eq
  obtain ⟨hsize, hhandle, hfirst, hlast⟩ :=
    Catalogue.register_beside hsize hhandle hbases (by rw [hid]; decide +kernel)
  rw [hid] at hhandle
  exact ⟨hsize, hhandle, hfirst ▸ badgeInfo_hosting rfl rfl (List.forall_mem_nil _), hlast⟩

theorem plain_minting : (Catalogue.hosting badge [mint]).Plain :=
  .hosting badge (List.forall_mem_singleton.mpr trivial)

theorem filed_staffed : staffed.catalogue.Filed := by
  obtain ⟨hid, hname, hbases⟩ := clerk_eq
  exact plain_minting.filed.register hbases (by rw [hid, hname])

theorem closed_staffed : staffed.Closed := by
  obtain ⟨hsize, -, -, heirs, hclerk⟩ := staffed_eq
  intro h hh
  obtain rfl | rfl : h = 0 ∨ h = 1 := by omega
  · have hgrows : (Catalogue.hosting badge [mint]).Extends staffed.catalogue := .register clerk_eq.2.2
    rw [hgrows.info_of_lt (by rw [(Catalogue.hosting_eq (t := badge) rfl [mint]).1]; exact Nat.one_pos)]
    exact (plain_minting.info 0).mono (fun _ => False.elim) fun _ => False.elim
  · have hwithin : clerk.Within (fun j => j < staffed.catalogue.infos.size) fun n => n < staffed.bodies.size :=
      TypeInfo.Within.addFunction (within_typeOf "Clerk" (List.forall_mem_nil _)) Nat.one_pos
    rw [hclerk]
    exact hwithin.withHeirs heirs

/-- What the host provides to construct badges is steady, and the other script provides nothing. -/
theorem reliable_staffed (scripts : List Script) : ({ context := staffed } : Workspace).Reliable scripts := by
  obtain ⟨hsize, hhandle, hbadge, heirs, hclerk⟩ := staffed_eq
  refine ⟨filed_staffed, closed_staffed, fun h hh => ?_⟩
  have hlt : h < 2 := hsize ▸ hh.involves.lt_size filed_staffed closed_staffed
  rcases Nat.le_one_iff_eq_zero_or_eq_one.mp (Nat.le_of_lt_succ hlt) with rfl | rfl
  · have hlookup : staffed.catalogue.lookup? badge.id = some (staffed.catalogue.info 0) := by
      rw [Catalogue.lookup?, hhandle, if_pos rfl, Option.map_some]
    exact .of_zeroed filed_staffed hbadge.resolve rfl rfl rfl rfl hlookup
  · refine .of_composed fun f hf hforeign => ?_
    have hf : f ∈ (staffed.catalogue.info 1).overloads (.operator .construct) := hf
    rw [hclerk, Catalogue.overloads_withHeirs, clerk, TypeInfo.overloads_addFunction_of_ne (by decide +kernel)] at hf
    obtain ⟨entry, hentry, hf⟩ := TypeInfo.mem_functions_of_overloads hf
    obtain ⟨op, whole, hbody, -⟩ := body_of_mem_typeOf hentry hf
    rw [hbody] at hforeign
    exact hforeign

theorem constructs_badge {scripts : List Script} (hpouch : pouch ∈ scripts) (hcoat : coat ∈ scripts) :
    Constructs staffed.catalogue scripts 0 := by
  obtain ⟨-, hhandle, hbadge, -⟩ := staffed_eq
  have hnew : ∀ s ∈ [pouch, coat], staffed.catalogue.contains s.type = false := by
    intro s hs
    rw [Catalogue.contains_eq, hhandle]
    revert s
    decide +kernel
  have hread : Reads staffed.catalogue scripts pouch.name :=
    .default hcoat (hnew coat (by simp)) List.mem_cons_self rfl
  refine .member hpouch (hnew pouch (by simp)) hread List.mem_cons_self ?_
  rw [Catalogue.handleNamed?, hhandle, if_pos (show TypeId.ofName "Badge" = badge.id from rfl), Option.filter_some,
    hbadge.name]
  rfl

end Loader

end Flowscript
