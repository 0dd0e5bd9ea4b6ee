import Flowscript.Proofs.Loading.DeclarationPlans
import Flowscript.Proofs.Types.MirroredCatalogues

/-! # Compiling with other numbers

The types that scripts declare, the errors of graphs and the compiled programs are the same for a
catalogue and one of the same types under other numbers, up to these numbers.
-/
namespace Flowscript

variable {c c' : Catalogue} {σ : Renumbering}

namespace Aggregate

theorem place?_renumbered {ms : List Member} (h : ∀ m ∈ ms, c.SameAt σ c' m.type) :
    place? c' (ms.map σ.member) = (place? c ms).map fun p => (p.1, p.2.map σ.part) := by
  have hlayouts : (ms.map σ.member).map (fun m => (c'.info m.type).layout) =
      ms.map fun m => (c.info m.type).layout := by
    rw [List.map_map]
    refine List.map_congr_left fun m hm => ?_
    show (c'.info (σ.handle m.type)).layout = _
    rw [h m hm, Renumbering.layout_type]
  unfold place?
  rw [hlayouts, Option.map_map]
  congr 1
  funext ⟨layout, offsets⟩
  simp only [Function.comp_apply, Prod.mk.injEq, true_and, List.map_map, List.zip_map_left]
  refine List.map_congr_left fun p hp => ?_
  show Part.mk p.1.name (σ.handle p.1.type) p.2 p.1.default (c'.info (σ.handle p.1.type)).destructor = _
  rw [h p.1 (List.of_mem_zip hp).1, Renumbering.destructor_type]
  rfl

section Parts

variable {parts : List Part} (h : ∀ p ∈ parts, c.SameAt σ c' p.type)
include h

theorem codecOf?_renumbered : codecOf? c' (parts.map σ.part) = (codecOf? c parts).map σ.codec := by
  have hcodecs : (parts.map σ.part).mapM (fun p => (c'.info p.type).codec.map (p, ·)) =
      (parts.mapM fun p => (c.info p.type).codec.map (p, ·)).map σ.codecs := by
    induction parts with
    | nil => rfl
    | cons p parts ih =>
      obtain ⟨hp, hparts⟩ := List.forall_mem_cons.mp h
      have hp : (c'.info (σ.part p).type).codec = (c.info p.type).codec.map σ.codec := by
        show (c'.info (σ.handle p.type)).codec = _
        rw [hp]
        rfl
      rw [List.map_cons, List.mapM_cons, List.mapM_cons, ih hparts, hp]
      cases (c.info p.type).codec with
      | none => rfl
      | some codec =>
        cases parts.mapM fun p => (c.info p.type).codec.map (p, ·) <;> rfl
  unfold codecOf?
  rw [hcodecs, Option.map_map, Option.map_map]
  rfl

theorem all_renumbered (able : TypeInfo → Part → Bool) (hable : ∀ t p, able (σ.type t) (σ.part p) = able t p) :
    ((parts.map σ.part).all fun p => able (c'.info p.type) p) =
      parts.all fun p => able (c.info p.type) p := by
  rw [List.all_map]
  refine Bool.eq_iff_iff.mpr ?_
  rw [List.all_eq_true, List.all_eq_true]
  refine forall₂_congr fun p hp => ?_
  show able (c'.info (σ.handle p.type)) (σ.part p) = true ↔ _
  rw [h p hp, hable]

theorem hasDefault_renumbered : hasDefault c' (parts.map σ.part) = hasDefault c parts :=
  all_renumbered h (fun t p => p.default.isSome || t.traits.default) fun _ _ => rfl

theorem canCopy_renumbered : canCopy c' (parts.map σ.part) = canCopy c parts :=
  all_renumbered h (fun t _ => t.traits.copy) fun _ _ => rfl

theorem canMove_renumbered : canMove c' (parts.map σ.part) = canMove c parts :=
  all_renumbered h (fun t _ => t.traits.move || t.traits.copy) fun _ _ => rfl

theorem canCompare_renumbered : canCompare c' (parts.map σ.part) = canCompare c parts := by
  refine all_renumbered h (fun t _ => !(t.overloads (.operator .equal)).isEmpty) fun t _ => ?_
  rw [Renumbering.overloads_type, List.isEmpty_map]

theorem destructorOf_renumbered : destructorOf c' (parts.map σ.part) = destructorOf c parts := by
  unfold destructorOf
  rw [all_renumbered h (fun t _ => t.traits.trivial) fun _ _ => rfl, List.filterMap_map]
  rfl

end Parts

theorem functions_renumbered (whole : Aggregate) (h : ∀ p ∈ whole.parts, c.SameAt σ c' p.type) :
    functions c' (σ.aggregate whole) = (functions c whole).map σ.function := by
  unfold functions
  dsimp only [Renumbering.aggregate]
  rw [hasDefault_renumbered h, canCopy_renumbered h, canMove_renumbered h, canCompare_renumbered h]
  simp only [List.map_append, apply_ite (List.map σ.function), List.map_cons, List.map_nil]
  rfl

theorem info_renumbered (script : String) (layout : Layout) {parts : List Part}
    (h : ∀ p ∈ parts, c.SameAt σ c' p.type) :
    info c' script layout (parts.map σ.part) = σ.type (info c script layout parts) := by
  have hfields : (parts.map σ.part).map (fun p => (⟨p.name, (c'.info p.type).id, p.offset⟩ : FieldInfo)) =
      parts.map fun p => ⟨p.name, (c.info p.type).id, p.offset⟩ := by
    rw [List.map_map]
    refine List.map_congr_left fun p hp => ?_
    show FieldInfo.mk p.name (c'.info (σ.handle p.type)).id p.offset = _
    rw [h p hp, Renumbering.id_type]
  have hfunctions := functions_renumbered
    { type := .ofName script, layout, destructor := destructorOf c parts, parts } h
  unfold info
  dsimp only
  rw [destructorOf_renumbered h, hfields, codecOf?_renumbered h, hasDefault_renumbered h, canCopy_renumbered h,
    canMove_renumbered h]
  rw [← Renumbering.addFunctions_type, ← hfunctions]
  rfl

end Aggregate

theorem Loader.typeOf_renumbered (script : String) {ms : List Member} (h : ∀ m ∈ ms, c.SameAt σ c' m.type) :
    typeOf c' script (ms.map σ.member) = (σ.type (typeOf c script ms).1, (typeOf c script ms).2) := by
  unfold typeOf
  rw [Aggregate.place?_renumbered h]
  cases hplace : Aggregate.place? c ms with
  | some placed =>
    have hparts : ∀ p ∈ placed.2, c.SameAt σ c' p.type := by
      intro p hp
      have hface : (p.name, p.type) ∈ placed.2.map fun p => (p.name, p.type) := List.mem_map_of_mem hp
      rw [Aggregate.map_parts hplace] at hface
      obtain ⟨m, hm, heq⟩ := List.mem_map.mp hface
      rw [← (Prod.mk.inj heq).2]
      exact h m hm
    dsimp only [Option.map_some]
    rw [Aggregate.info_renumbered script placed.1 hparts]
  | none =>
    have hnil : ∀ p ∈ ([] : List Part), c.SameAt σ c' p.type := List.forall_mem_nil _
    have hnone := Aggregate.info_renumbered script Layout.empty hnil
    rw [List.map_nil] at hnone
    dsimp only [Option.map_none]
    rw [hnone]

namespace NodeKind

variable (h : c.Renames σ c')
include h

theorem resolveCall_renumbered (type function : String) (signature : SignatureId) :
    resolveCall c' type function signature = (resolveCall c type function signature).map σ.function := by
  unfold resolveCall
  rw [h.lookupName?_eq]
  cases c.lookupName? type with
  | none => rfl
  | some owner =>
    dsimp only [Option.map_some]
    rw [Renumbering.functionsNamed_type]
    cases owner.functionsNamed function with
    | nil => rfl
    | cons f fs =>
      rw [List.map_cons]
      dsimp only
      rw [← List.map_cons, List.find?_map,
        show ((·.signature == signature) ∘ σ.function : Function → Bool) = (·.signature == signature) from rfl]
      cases (f :: fs).find? (·.signature == signature) <;> rfl

theorem typeName_renumbered (id : TypeId) : typeName c' id = typeName c id := by
  unfold typeName
  rw [h.lookup?_eq]
  cases c.lookup? id <;> rfl

theorem resolveField_renumbered (type field : String) : resolveField c' type field = resolveField c type field := by
  unfold resolveField
  rw [h.lookupName?_eq]
  cases c.lookupName? type with
  | none => rfl
  | some owner =>
    dsimp only [Option.map_some]
    rw [show (σ.type owner).field? field = owner.field? field from rfl]
    simp only [typeName_renumbered h]

theorem callPins_renumbered (f : Function) : callPins c' (σ.function f) = callPins c f := by
  unfold callPins
  simp only [typeName_renumbered h]
  rfl

theorem expectedPins_renumbered (kind : NodeKind) (signature : GraphSignature) :
    kind.expectedPins signature c' = kind.expectedPins signature c := by
  cases kind with
  | call type function signature =>
    dsimp only [expectedPins]
    rw [resolveCall_renumbered h]
    cases resolveCall c type function signature with
    | error e => rfl
    | ok f => exact callPins_renumbered h f
  | fieldGet type field =>
    dsimp only [expectedPins]
    rw [resolveField_renumbered h]
  | fieldSet type field =>
    dsimp only [expectedPins]
    rw [resolveField_renumbered h]
  | entry | ret | branch | forLoop | whileLoop | comment | reroute => rfl

end NodeKind

namespace Graph

variable (h : c.Renames σ c')
include h

theorem checkType_renumbered (type : String) (form : Form) : checkType c' type form = checkType c type form := by
  unfold checkType
  rw [h.lookupName?_eq]
  cases c.lookupName? type <;> rfl

theorem checkParams_renumbered (seen : List String) (ps : List ParamDecl) :
    checkParams c' seen ps = checkParams c seen ps := by
  induction ps generalizing seen with
  | nil => rfl
  | cons p ps ih => rw [checkParams, checkParams, ih, checkType_renumbered h]

theorem checkSignature_renumbered (s : GraphSignature) : checkSignature c' s = checkSignature c s := by
  unfold checkSignature checkEvent
  rw [checkParams_renumbered h]
  simp only [checkType_renumbered h, h.event?_eq]

theorem checkNode_renumbered (g : Graph) (n : Node) : g.checkNode c' n = g.checkNode c n := by
  unfold checkNode
  rw [NodeKind.expectedPins_renumbered h]
  simp only [h.lookupName?_eq, Option.isSome_map]

theorem checkLink_renumbered (g : Graph) (l : Link) : g.checkLink c' l = g.checkLink c l := by
  unfold checkLink linkProblem
  simp only [h.isDerivedFrom_eq]

theorem errors_renumbered (g : Graph) (script : Option String) : g.errors c' script = g.errors c script := by
  have hnodes : g.checkNode c' = g.checkNode c := funext (checkNode_renumbered h g)
  have hlinks : g.checkLink c' = g.checkLink c := funext (checkLink_renumbered h g)
  unfold errors findings checkLinks
  rw [checkSignature_renumbered h, hnodes, hlinks]

end Graph

namespace Program

section Slots

variable {α β : Type} (f : α → β) (slots : Array (Option α)) (number : Nat)

theorem slot?_map : slot? (slots.map (·.map f)) number = (slot? slots number).map f := by
  unfold slot?
  split
  · rfl
  · rw [Array.getElem?_map]
    cases slots[number - 1]? with
    | none => rfl
    | some slot => cases slot <;> rfl

theorem setSlot_map (a : Option α) :
    setSlot (slots.map (·.map f)) number (a.map f) = (setSlot slots number a).map (·.map f) := by
  unfold setSlot
  split
  · rfl
  · rw [Array.map_setIfInBounds]

theorem store_map (a : α) :
    store (slots.map (·.map f)) number (f a) = (store slots number a).map (Array.map (·.map f)) := by
  unfold store
  rw [Array.size_map, ← Option.map_some, setSlot_map]
  split <;> rfl

end Slots

theorem orFail_map {α β : Type} (f : α → β) (x : Except ScriptError α) :
    orFail (x.map f) = (orFail x).map f := by
  cases x <;> rfl

variable (h : c.Renames σ c')
include h

theorem placePin_renumbered (storage : Layout) (p : Pin) :
    placePin c' storage p = (placePin c storage p).map fun q => (q.1, σ.pin q.2) := by
  unfold placePin
  cases p.type with
  | flow => rfl
  | data type form =>
    dsimp only
    rw [h.handleNamed?_eq]
    cases c.handleNamed? type with
    | none => rfl
    | some k =>
      dsimp only [Option.map_some]
      rw [h.info, Renumbering.layout_type]
      cases storage.extend? (c.info k).layout <;> rfl

theorem placePins_renumbered (storage : Layout) (pins : Array (Option ProgramPin)) (ps : List Pin) :
    placePins c' storage (pins.map (·.map σ.pin)) ps =
      (placePins c storage pins ps).map fun q => (q.1, q.2.map (·.map σ.pin)) := by
  induction ps generalizing storage pins with
  | nil => rfl
  | cons p ps ih =>
    rw [placePins, placePins, placePin_renumbered h, orFail_map]
    cases orFail (placePin c storage p) with
    | error e => rfl
    | ok placed =>
      show (store (pins.map (·.map σ.pin)) p.id.val (σ.pin placed.2) >>= fun pins =>
        placePins c' placed.1 pins ps) =
          (store pins p.id.val placed.2 >>= fun pins => placePins c placed.1 pins ps).map _
      rw [store_map]
      cases store pins p.id.val placed.2 with
      | error e => rfl
      | ok stored => exact ih placed.1 stored

theorem fieldAccess_renumbered (type field : String) :
    fieldAccess c' type field = (fieldAccess c type field).map fun q => (q.1, σ.handle q.2) := by
  unfold fieldAccess
  rw [h.lookupName?_eq]
  cases c.lookupName? type with
  | none => rfl
  | some owner =>
    dsimp only [Option.map_some]
    rw [show (σ.type owner).field? field = owner.field? field from rfl]
    cases owner.field? field with
    | none => rfl
    | some info =>
      dsimp only
      rw [h.handle]
      cases c.handle? info.type <;> rfl

theorem opOf_renumbered (n : Node) : opOf c' n = (opOf c n).map σ.op := by
  unfold opOf
  cases n.kind with
  | call type function signature =>
    dsimp only
    rw [NodeKind.resolveCall_renumbered h]
    cases NodeKind.resolveCall c type function signature <;> rfl
  | fieldGet type field =>
    dsimp only
    rw [fieldAccess_renumbered h]
    cases fieldAccess c type field <;> rfl
  | fieldSet type field =>
    dsimp only
    rw [fieldAccess_renumbered h]
    cases fieldAccess c type field <;> rfl
  | entry | ret | branch | forLoop | whileLoop | comment | reroute => rfl

theorem compileNode_renumbered (g : Graph) (n : Node) : compileNode g c' n = (compileNode g c n).map σ.node := by
  unfold compileNode
  rw [opOf_renumbered h]
  cases opOf c n <;> rfl

theorem compileNodes_renumbered (g : Graph) (nodes : Array (Option ProgramNode)) (ns : List Node) :
    compileNodes g c' (nodes.map (·.map σ.node)) ns =
      (compileNodes g c nodes ns).map (Array.map (·.map σ.node)) := by
  induction ns generalizing nodes with
  | nil => rfl
  | cons n ns ih =>
    rw [compileNodes, compileNodes, compileNode_renumbered h, orFail_map]
    cases orFail (compileNode g c n) with
    | error e => rfl
    | ok compiled =>
      show (store (nodes.map (·.map σ.node)) n.id.val (σ.node compiled) >>= fun nodes =>
        compileNodes g c' nodes ns) =
          (store nodes n.id.val compiled >>= fun nodes => compileNodes g c nodes ns).map _
      rw [store_map]
      cases store nodes n.id.val compiled with
      | error e => rfl
      | ok stored => exact ih stored

omit h in
theorem connect_map (g : Graph) (pins : Array (Option ProgramPin)) (l : Link) :
    connect g (pins.map (·.map σ.pin)) l = (connect g pins l).map (·.map σ.pin) := by
  have hset : ∀ (number : Nat) (p : ProgramPin), setSlot (pins.map (·.map σ.pin)) number (some (σ.pin p)) =
      (setSlot pins number (some p)).map (·.map σ.pin) := fun number p => setSlot_map σ.pin pins number (some p)
  unfold connect
  rw [slot?_map, slot?_map]
  split
  · cases slot? pins l.output.val with
    | none => rfl
    | some p => exact hset _ { p with target := some l.input }
  · cases slot? pins l.input.val with
    | none => rfl
    | some p => exact hset _ { p with source := some l.output }

omit h in
theorem connectAll_map (g : Graph) (pins : Array (Option ProgramPin)) (ls : List Link) :
    ls.foldl (connect g) (pins.map (·.map σ.pin)) = (ls.foldl (connect g) pins).map (·.map σ.pin) := by
  induction ls generalizing pins with
  | nil => rfl
  | cons l ls ih => rw [List.foldl_cons, List.foldl_cons, connect_map, ih]

theorem assemble_renumbered (g : Graph) (s : Setting) : assemble g c' s = (assemble g c s).map σ.program := by
  have hpins := placePins_renumbered h .empty (Array.replicate g.pins.size none) g.livePins
  have hnodes := compileNodes_renumbered h g (Array.replicate g.nodes.size none) g.liveNodes
  rw [Array.map_replicate, Option.map_none] at hpins hnodes
  unfold assemble
  rw [hpins]
  cases placePins c .empty (Array.replicate g.pins.size none) g.livePins with
  | error e => rfl
  | ok placed =>
    simp only [Except.map, bind, Except.bind]
    rw [hnodes, connectAll_map]
    cases compileNodes g c (Array.replicate g.nodes.size none) g.liveNodes with
    | error e => rfl
    | ok nodes =>
      simp only [Except.map]
      cases g.entries.head? with
      | none => rfl
      | some entry =>
        simp only
        cases g.signature.result with
        | none => rfl
        | some r =>
          simp only [h.handleNamed?_eq]
          cases c.handleNamed? r.type <;> rfl

theorem compile_renumbered (g : Graph) (s : Setting) : compile g c' s = (compile g c s).map σ.program := by
  unfold compile Graph.collect?
  rw [Graph.errors_renumbered h, assemble_renumbered h]
  cases g.overflows with
  | true => rfl
  | false =>
    cases g.errors c s.script with
    | nil => cases assemble g c s <;> rfl
    | cons e es => rfl

end Program

end Flowscript
