import Mathlib
import Flowscript.Proofs.Loading.HostHistories
import Flowscript.Proofs.Loading.HostTypes
import Flowscript.Proofs.Run.StoredIntegers

/-! # Loading again

A loader removes what it loaded before it loads anew. Whatever it loaded so often, the last load has the
outcome that it would have had as the first one, and unloading leads back to what there was before any.
Only the numbers of types and bodies tell that something was loaded before.
-/
namespace Flowscript

namespace Context

variable {k₀ k k' : Context}

/-- The types of some time before, and others that are the same in both contexts up to the numbers of types
and bodies. -/
structure SameTypes (k₀ : Context) (σ : Renumbering) (k k' : Context) : Prop where
  lookup : ∀ id, k'.catalogue.lookup? id = (k.catalogue.lookup? id).map σ.type
  known : ∀ id t, k₀.catalogue.lookup? id = some t →
    k.catalogue.lookup? id = some t ∧ k'.catalogue.lookup? id = some t
  events : k.catalogue.events = k₀.catalogue.events ∧ k'.catalogue.events = k₀.catalogue.events
  body : ∀ n, k₀.bodies.size ≤ n → k₀.bodies.size ≤ σ.number n ∧
    k'.bodies[σ.number n]? = (k.bodies[n]?).map σ.scriptBody
  knownBody : ∀ n < k₀.bodies.size, σ.number n = n ∧ k.bodies[n]? = k₀.bodies[n]? ∧
    k'.bodies[n]? = k₀.bodies[n]?

/-- The same types are registered under the same handles. -/
structure SameRegistry (k k' : Context) : Prop where
  handle : ∀ id, k'.catalogue.handle? id = k.catalogue.handle? id
  lookup : ∀ id, k'.catalogue.lookup? id = k.catalogue.lookup? id
  registered : k'.catalogue.registered = k.catalogue.registered
  types : k'.catalogue.types = k.catalogue.types
  events : k'.catalogue.events = k.catalogue.events

theorem Mirrors.sameTypes {gap : Gap} (hfiled : k₀.catalogue.Filed) (h : k₀.Mirrors gap k k') :
    k₀.SameTypes gap.moves k k' := by
  obtain ⟨hleft, hright⟩ := h.outgrows hfiled
  refine ⟨h.catalogue.renames.lookup?_eq, fun id t ht =>
    ⟨hleft.lookup?_eq hfiled ht, hright.lookup?_eq hfiled ht⟩,
    h.catalogue.events, fun n hn => ?_, fun n hn => ⟨Gap.number_of_lt (h.firstBody ▸ hn), h.knownBody n hn⟩⟩
  rw [Gap.number_of_le (h.firstBody ▸ hn)]
  exact ⟨by omega, h.movedBody n hn⟩

theorem Restored.sameRegistry (hfiled : k₀.catalogue.Filed) (h : k₀.Restored k) : SameRegistry k₀ k := by
  have hinfo : ∀ j < k₀.catalogue.infos.size, k.catalogue.info j = k₀.catalogue.info j := by
    intro j hj
    have hsome := Array.getElem?_eq_getElem hj
    rw [Catalogue.info_of_getElem? hsome, Catalogue.info_of_getElem? (h.catalogue.info j _ hsome)]
  have hregistered : k.catalogue.registered = k₀.catalogue.registered := by
    obtain ⟨m, hm⟩ := Nat.exists_eq_add_of_le h.catalogue.size_le
    unfold Catalogue.registered
    dsimp only
    rw [hm, List.range_add, List.filterMap_append]
    simp only [h.handle?_eq]
    -- Handles from the first new one on are not those of registered types.
    have hnew : ((List.range m).map (k₀.catalogue.infos.size + ·)).filterMap (fun j =>
        if k₀.catalogue.handle? (k.catalogue.info j).id = some j then some ((k.catalogue.info j).id, j)
        else none) = [] := by
      refine List.filterMap_eq_nil_iff.mpr fun j hj => if_neg fun hsome => ?_
      obtain ⟨i, -, rfl⟩ := List.mem_map.mp hj
      have hlt : k₀.catalogue.infos.size + i < k₀.catalogue.infos.size := hfiled.lt_size hsome
      omega
    rw [hnew, List.append_nil]
    exact List.filterMap_congr fun j hj => by rw [hinfo j (List.mem_range.mp hj)]
  refine ⟨h.handle?_eq, fun id => ?_, hregistered, ?_, h.catalogue.events⟩
  · rw [Catalogue.lookup?, Catalogue.lookup?, h.handle?_eq]
    cases hj : k₀.catalogue.handle? id with
    | none => rfl
    | some j => exact congrArg some (hinfo j (hfiled.lt_size hj))
  · rw [Catalogue.types, Catalogue.types, hregistered]
    congr 1
    refine List.map_congr_left fun p hp => hinfo p.2 ?_
    simp only [Catalogue.registered, List.mem_filterMap, List.mem_range] at hp
    obtain ⟨j, hj, hp⟩ := hp
    split at hp
    · cases hp
      exact hj
    · cases hp

end Context

namespace Loader

variable {k₀ : Context} {l l₀ : Loader} {w w₀ : Workspace}

/-- Nothing was loaded. -/
def Fresh (l : Loader) : Prop := l.bodies = [] ∧ l.types = []

theorem Fresh.unload (hl : l.Fresh) (w : Workspace) : (l.unload w).2 = w := by
  obtain ⟨hbodies, htypes⟩ := hl
  unfold Loader.unload
  rw [hbodies, htypes]
  rfl

theorem Fresh.owns (hl : l.Fresh) (hk : k₀.catalogue.Filed) : Owns k₀ l k₀ where
  outgrows := ⟨.refl hk, le_rfl, fun _ _ => rfl⟩
  types _ hid := .inl hid
  new := hl.2 ▸ List.forall_mem_nil _
  bodies := hl.1 ▸ List.forall_mem_nil _

theorem unload_worldType (l : Loader) (w : Workspace) : (l.unload w).1.worldType = l.worldType := rfl

theorem load_worldType (l : Loader) (scripts : List Script) (w : Workspace) :
    (l.load scripts w).2.1.worldType = l.worldType := by
  rw [(load_eq_built l scripts w).2.1]

theorem comparable_load (l : Loader) (scripts : List Script) (w : Workspace) :
    w.machine.Comparable (l.load scripts w).2.2.machine := by
  obtain ⟨es, hs, c, k, hbuilds⟩ := exists_builds l.worldType scripts (l.unload w).2
  exact (unload_machine l w).comparable.trans (hbuilds.takes.comparable.trans (load_machine l scripts w).comparable)

section Again

variable (h : Owns k₀ l w.context)
include h

/-- A load that got through leaves a loader that knows everything that came. -/
theorem Owns.load {scripts : List Script} (hthrough : (l.load scripts w).1.isSome) :
    Owns k₀ (l.load scripts w).2.1 (l.load scripts w).2.2.context := by
  obtain ⟨hreport, hloader, hcontext⟩ := load_eq_built l scripts w
  have hrestored := h.restored
  obtain ⟨es, hs, c, k, hbuilds⟩ := exists_builds l.worldType scripts (l.unload w).2
  have hfiled := hrestored.catalogue.filed
  rw [isSome_load] at hthrough
  rw [hloader, hcontext, if_pos hthrough]
  have hcontains : ∀ id, (l.unload w).2.catalogue.contains id = k₀.catalogue.contains id := fun id => by
    rw [Catalogue.contains_eq, Catalogue.contains_eq]
    exact congrArg Option.isSome (hrestored.handle?_eq id)
  have hnew : ∀ r ∈ schedule (l.unload w).2.catalogue scripts, k₀.catalogue.handle? r.1.2.type = none := by
    intro r hr
    rw [← hrestored.handle?_eq]
    exact handle?_of_mem_schedule hr
  refine ⟨hbuilds.outgrows hrestored.toOutgrows hnew, fun id hid => ?_, fun id hid => ?_, fun n hn => ?_⟩
  · have hid := (hbuilds.contains_iff hfiled).mp hid
    rwa [hcontains] at hid
  · rw [hbuilds.types_eq hfiled] at hid
    obtain ⟨r, hr, rfl⟩ := List.mem_map.mp hid
    exact hnew r hr
  · dsimp only at hn
    rw [hbuilds.bodies_eq, List.mem_range'_1] at hn
    exact hrestored.bodies_le.trans hn.1

theorem Owns.unload : Owns k₀ (l.unload w).1 (l.unload w).2.context := by
  obtain ⟨houtgrows, hgone⟩ := h.restored
  refine ⟨houtgrows, fun id hid => .inl ?_, List.forall_mem_nil _, List.forall_mem_nil _⟩
  rw [Catalogue.contains_eq] at hid ⊢
  obtain ⟨j, hj⟩ := Option.isSome_iff_exists.mp hid
  rw [hgone id j hj]
  rfl

end Again

/-- Whatever a loader does, it knows everything that came, and the machine stays comparable. -/
theorem Owns.act {s s' : Shared} (h : Owns k₀ s.loader s.workspace.context) {d : Deed} (hs : s.act d = some s') :
    Owns k₀ s'.loader s'.workspace.context ∧ s'.loader.worldType = s.loader.worldType ∧
      s.workspace.machine.Comparable s'.workspace.machine := by
  cases d with
  | load scripts =>
    obtain ⟨hthrough, rfl⟩ := Shared.act_load_iff.mp hs
    exact ⟨h.load hthrough, load_worldType s.loader scripts s.workspace,
      comparable_load s.loader scripts s.workspace⟩
  | unload =>
    cases Shared.act_unload_iff.mp hs
    exact ⟨h.unload, unload_worldType s.loader s.workspace, (unload_machine s.loader s.workspace).comparable⟩

theorem Owns.run {ds : List Deed} {s s' : Shared} (h : Owns k₀ s.loader s.workspace.context)
    (hs : Shared.run (ds.map .loader) s = some s') :
    Owns k₀ s'.loader s'.workspace.context ∧ s'.loader.worldType = s.loader.worldType ∧
      s.workspace.machine.Comparable s'.workspace.machine := by
  induction ds generalizing s with
  | nil =>
    cases hs
    exact ⟨h, rfl, .refl _⟩
  | cons d ds ih =>
    obtain ⟨s₁, hs₁, hs⟩ := Option.bind_eq_some_iff.mp hs
    obtain ⟨howns, hworld, hmachine⟩ := h.act hs₁
    obtain ⟨hall, hworld', hmachine'⟩ := ih howns hs
    exact ⟨hall, hworld'.trans hworld, hmachine.trans hmachine'⟩

theorem Owns.load_alike {scripts : List Script} (hw₀ : w₀.Reliable scripts) (h : Owns w₀.context l w.context)
    (hm : w₀.machine.Comparable w.machine) (hl₀ : l₀.Fresh) (hworld : l₀.worldType = l.worldType) :
    (l.load scripts w).1 = (l₀.load scripts w₀).1 ∧
      ∃ gap, w₀.context.Mirrors gap (l₀.load scripts w₀).2.2.context (l.load scripts w).2.2.context := by
  obtain ⟨hsame, hmirrors, herrors⟩ := build_mirrored hw₀ l.worldType
    ⟨w₀, []⟩ ⟨(l.unload w).2, []⟩ (h.restored.declaring hw₀.filed hw₀.closed scripts) (.refl _)
    (hm.trans ((unload_machine l w).comparable)) rfl
  obtain ⟨hreport, -, hcontext⟩ := load_eq_built l scripts w
  obtain ⟨hreport₀, -, hcontext₀⟩ := load_eq_built l₀ scripts w₀
  rw [hl₀.unload] at hreport₀ hcontext₀
  rw [hworld] at hreport₀ hcontext₀
  rw [hreport, hreport₀, hcontext, hcontext₀]
  have hthrough : (built l.worldType scripts (l.unload w).2).1.through = (built l.worldType scripts w₀).1.through :=
    hsame.through
  have htypes : (built l.worldType scripts (l.unload w).2).1.types = (built l.worldType scripts w₀).1.types :=
    hsame.types
  have herrors : (built l.worldType scripts (l.unload w).2).2.errors = (built l.worldType scripts w₀).2.errors :=
    herrors
  rw [hthrough, herrors, htypes]
  exact ⟨rfl, _, hmirrors⟩

def countBadges : Function where
  name := "Count"
  params := []
  result := some (Function.resultParam badge.id .value)
  pure := true
  body := .host { record := false, outcome := .count, counter := 0 }

def numberBadge : Function where
  name := Operator.construct.functionName
  params := []
  result := some (Function.resultParam badge.id .value)
  pure := true
  body := .host { record := false, outcome := .callback pouch.type "Next", counter := 1 }

def addBadges : Function := badge.binary .add badge.id (.arithmetic (.int .i32) .add)

/-- The number of a badge is what the host counts, and the greatest number but one. -/
def nextBadge : Graph where
  name := "Next"
  signature := { result := some ⟨"Badge", .value⟩, pure := true, isStatic := true }
  nodes := #[some ⟨⟨1⟩, .entry, ⟨1⟩, 0, {}⟩,
    some ⟨⟨2⟩, .call "Badge" "Count" countBadges.signature, ⟨1⟩, 1, {}⟩,
    some ⟨⟨3⟩, .call "Badge" "operator+" addBadges.signature, ⟨2⟩, 3, {}⟩,
      some ⟨⟨4⟩, .ret, ⟨5⟩, 1, {}⟩]
  pins := #[data 1 2 .output "Return Value" .value none, data 2 3 .input "a" .constRef (some (.int 0x7ffffffe)),
    data 3 3 .input "b" .constRef none, data 4 3 .output "Return Value" .value none,
    data 5 4 .input "Return Value" .value none]
  links := #[some ⟨⟨1⟩, ⟨3⟩, ⟨1⟩⟩, some ⟨⟨2⟩, ⟨5⟩, ⟨4⟩⟩]
where
  data (id node : Nat) (direction : Direction) (name : String) (form : Form) (default : Option Json) : Option Pin :=
    some ⟨⟨id⟩, ⟨node⟩, direction, name, .data "Badge" form, default⟩

def addingNode : ProgramNode where
  id := ⟨3⟩
  label := "Call"
  op := .call addBadges
  pure := true
  dataIn := [⟨2⟩, ⟨3⟩]
  dataOut := [⟨4⟩]

def returningNode : ProgramNode where
  id := ⟨4⟩
  label := "Return"
  op := .ret
  pure := false
  dataIn := [⟨5⟩]

def nextProgram : Program where
  name := "Next"
  script := some "Pouch"
  nodes := #[some { id := ⟨1⟩, label := "Entry", op := .entry, pure := false },
    some { id := ⟨2⟩, label := "Call", op := .call countBadges, pure := true, dataOut := [⟨1⟩] },
    some addingNode, some returningNode]
  pins := #[some (data 2 .value 0), some { data 3 .constRef 4 with default := some (.int 0x7ffffffe) },
    some { data 3 .constRef 8 with source := some ⟨1⟩ }, some (data 3 .value 12),
    some { data 4 .value 16 with source := some ⟨4⟩ }]
  entry := ⟨1⟩
  returnNode := some ⟨4⟩
  result := some (0, .value)
  pure := true
  params := 0
  hasWorld := false
  thisType := none
  storage := ⟨20, 4⟩
where
  data (node : Nat) (form : Form) (storage : Nat) : ProgramPin :=
    { node := ⟨node⟩, type := some 0, form, default := none, storage }

def numberedPouch : TypeInfo :=
  (typeOf (Catalogue.hosting badge [numberBadge, countBadges]) pouch.name [⟨"badge", 0, none⟩]).1.addFunction
    (functionOf "World" pouch.type nextBadge 0)

def numbering : Context where
  catalogue := ((Catalogue.hosting badge [numberBadge, countBadges]).register numberedPouch).2
  bodies := #[⟨"Pouch::Next", .ready nextProgram⟩]

set_option maxRecDepth 20000 in
theorem compile_nextBadge :
    Program.compile nextBadge numbering.catalogue { script := some "Pouch" } = .ok nextProgram := by
  cbv

theorem numberedPouch_eq :
    numberedPouch.id = pouch.type ∧ numberedPouch.name = pouch.name ∧ numberedPouch.bases = [] := by
  have hface := typeOf_eq (Catalogue.hosting badge [numberBadge, countBadges]) pouch.name [⟨"badge", 0, none⟩]
  unfold numberedPouch
  generalize typeOf (Catalogue.hosting badge [numberBadge, countBadges]) pouch.name
    [⟨"badge", 0, none⟩] = declared at hface ⊢
  exact hface

theorem badgeInfo_numbering : BadgeInfo numberBadge ((Catalogue.hosting badge [numberBadge, countBadges]).info 0) :=
  badgeInfo_hosting rfl rfl (List.forall_mem_singleton.mpr (by decide +kernel))

theorem numbering_eq : numbering.catalogue.infos.size = 2 ∧
    (∀ id, numbering.catalogue.handle? id =
      if id = badge.id then some 0 else if id = pouch.type then some 1 else none) ∧
      BadgeInfo numberBadge (numbering.catalogue.info 0) ∧
        ∃ heirs, numbering.catalogue.info 1 = Catalogue.withHeirs heirs numberedPouch := by
  obtain ⟨hsize, hhandle, -⟩ := Catalogue.hosting_eq (t := badge) rfl [numberBadge, countBadges]
  obtain ⟨hid, -, hbases⟩ := numberedPouch_eq
  obtain ⟨hsize, hhandle, hfirst, hlast⟩ :=
    Catalogue.register_beside hsize hhandle hbases (by rw [hid]; decide +kernel)
  rw [hid] at hhandle
  exact ⟨hsize, hhandle, hfirst ▸ badgeInfo_numbering, hlast⟩

theorem numberedPouch_info (heirs : List TypeId) : PouchInfo (Catalogue.withHeirs heirs numberedPouch) ∧
    (Catalogue.withHeirs heirs numberedPouch).name = pouch.name ∧
      (Catalogue.withHeirs heirs numberedPouch).resolve (.ofName "Next") [] =
        .ok (functionOf "World" pouch.type nextBadge 0) := by
  have hnamed : FunctionKey.ofName "Next" = .named (NameHash.ofString "Next") := by
    rw [FunctionKey.ofName, show Operator.ofFunctionName? "Next" = none by decide +kernel]
  refine ⟨?_, ?_, TypeInfo.resolve_nil ?_ rfl fun g hg _ => ?_⟩
  · obtain ⟨-, hlayout, hcodec, hownable, hvisible, hdestructor⟩ := typeOf_pouch badgeInfo_numbering heirs
    rw [Catalogue.withHeirs_eq] at *
    exact ⟨hlayout, hcodec, hownable, hvisible, hdestructor⟩
  · rw [Catalogue.withHeirs_eq]
    exact numberedPouch_eq.2.1
  · rw [Catalogue.overloads_withHeirs]
    exact TypeInfo.overloads_addFunction_self ▸ List.mem_append_right _ List.mem_cons_self
  · rw [Catalogue.overloads_withHeirs] at hg
    rcases TypeInfo.mem_overloads_addFunction hg with hg | hg
    · exact hg
    · rw [overloads_typeOf fun op h => by cases hnamed.symm.trans h] at hg
      cases hg

theorem plain_numbering : (Catalogue.hosting badge [numberBadge, countBadges]).Plain := by
  refine .hosting badge fun f hf => ?_
  rcases List.mem_pair.mp hf with rfl | rfl <;> exact trivial

theorem filed_numbering : numbering.catalogue.Filed := by
  obtain ⟨hid, hname, hbases⟩ := numberedPouch_eq
  exact plain_numbering.filed.register hbases (by rw [hid, hname, Script.type])

theorem closed_numbering : numbering.Closed := by
  obtain ⟨hsize, -, -, heirs, hpouch⟩ := numbering_eq
  obtain ⟨hone, -⟩ := Catalogue.hosting_eq (t := badge) rfl [numberBadge, countBadges]
  intro h hh
  obtain rfl | rfl : h = 0 ∨ h = 1 := by omega
  · have hgrows : (Catalogue.hosting badge [numberBadge, countBadges]).Extends numbering.catalogue :=
      .register numberedPouch_eq.2.2
    rw [hgrows.info_of_lt (by rw [hone]; exact Nat.one_pos)]
    exact (plain_numbering.info 0).mono (fun _ => False.elim) fun _ => False.elim
  · have hwithin : numberedPouch.Within (fun j => j < numbering.catalogue.infos.size)
        fun n => n < numbering.bodies.size := by
      refine TypeInfo.Within.addFunction (within_typeOf _ (List.forall_mem_singleton.mpr
        ⟨by rw [hsize]; exact Nat.two_pos, fun codec hcodec => ?_⟩)) Nat.one_pos
      rw [badgeInfo_numbering.codec] at hcodec
      cases hcodec
      exact trivial
    rw [hpouch]
    exact hwithin.withHeirs heirs

section Numbered

/-- How often the host counted, once it has counted again. -/
def drawn (counts : List (Nat × Int)) : Int := (counts.lookup 0).getD 0 + 1

def counted (counts : List (Nat × Int)) : List (Nat × Int) := (0, drawn counts) :: counts.filter (·.1 != 0)

def Numbers (counts : List (Nat × Int)) : Prop :=
  IntKind.i32.contains (0x7ffffffe + IntKind.i32.wrap (drawn counts)) = true

instance (counts : List (Nat × Int)) : Decidable (Numbers counts) := inferInstanceAs (Decidable (_ = true))

def withBadges (k : Context) (functions : List (FunctionKey × List Function)) (derived : List TypeId)
    (types : List TypeInfo) : Context where
  catalogue := { k.catalogue with infos := ⟨{ badge.info with functions, derived } :: types⟩ }
  bodies := k.bodies

def nextScope (k : Context) (functions : List (FunctionKey × List Function)) (derived : List TypeId)
    (types : List TypeInfo) : Scope :=
  nextProgram.scope .spare [] (withBadges k functions derived types)

def busy (m : Machine) (memory : Memory) (steps : Nat) (failure : Option ScriptError) (counts : List (Nat × Int))
    (care : Care) (watch : Watch) : Machine :=
  { m with
    memory, counts, care, watch, current := some .spare
    spare :=
      { stack := { ({} : Interpreter).stack with used := 140, highWater := max (max m.spare.stack.highWater 120) 140 }
        steps, visits := steps, depth := 1, nestedFailure := failure } }

def openFrame (block : Nat) : Frame := { slots := Array.replicate 5 {}, firstBlock := block, base := 120, mark := 0 }

def termsFrame (block : Nat) : Frame := ((openFrame block).set ⟨2⟩ .owned).set ⟨1⟩ .owned

def sumFrame (block : Nat) : Frame := (termsFrame block).set ⟨4⟩ .owned

/-- Where the call keeps what a pin holds. -/
def slotPlace (block index : Nat) : Place := ⟨block + index, 0, .stack (120 + 4 * index)⟩

def HasCounted (m : Machine) (counts : List (Nat × Int)) (f : Frame) (a : Activation) : Prop :=
  ∃ memory care watch, a = ⟨f, busy m memory 3 none (counted counts) care watch⟩

section Steps

variable (k : Context) (functions : List (FunctionKey × List Function)) (derived : List TypeId)
  (types : List TypeInfo) (m : Machine) (memory : Memory) (failure : Option ScriptError) (counts : List (Nat × Int))
  (care : Care) (watch : Watch) (block depth : Nat)

theorem take?_next (highWater : Nat) :
    Frame.take? nextProgram { ({} : Interpreter).stack with highWater } =
      (some 120, { ({} : Interpreter).stack with used := 140, highWater := max (max highWater 120) 140 }) := by
  simp [Frame.take?, BumpStack.alloc?, BumpStack.ofCapacity, nextProgram, Frame.slotLayout, roundUp]

theorem ensures_takeFrame_next {highWater steps visits : Nat} (hspare : m.spare =
      { stack := { ({} : Interpreter).stack with highWater }, steps, visits, nestedFailure := failure }) :
    Ensures (nextProgram.takeFrame .spare) (withBadges k functions derived types) (nextProgram.enter .spare [] m)
      (fun f m' => f = openFrame m.memory.next ∧
        m' = busy m { m.memory with next := m.memory.next + 5 } 0 failure m.counts m.care m.watch)
      fun _ _ => False := by
  have hstack : ((nextProgram.enter .spare [] m).interpreter .spare).stack =
      { ({} : Interpreter).stack with highWater } := by
    rw [show (nextProgram.enter .spare [] m).interpreter .spare = (nextProgram.enter .spare [] m).spare from rfl,
      Program.enter, Machine.modifyInterpreter, hspare]
  rw [Program.takeFrame, Ensures.bind_iff, Ensures.get_iff]
  dsimp only
  rw [hstack, take?_next]
  obtain ⟨memory, journal, own, spare, current, counts, care, watch⟩ := m
  cases hspare
  simp only [Ensures.bind_iff, Ensures.modify_iff, Ensures.modifyGet_iff]
  exact ⟨rfl, rfl⟩

theorem tick_next {steps : Nat} (h : steps < 2) :
    Run.tick (nextScope k functions derived types)
        ⟨openFrame block, busy m memory steps failure counts care watch⟩ =
      .ok () ⟨openFrame block, busy m memory (steps + 1) failure counts care watch⟩ := by
  obtain rfl | rfl : steps = 0 ∨ steps = 1 := by omega
  · with_unfolding_all rfl
  · with_unfolding_all rfl

theorem pull_greatest : ∃ care' watch',
    Run.pullWithin (invokeWithin (depth + 1)) 5 ⟨2⟩ (nextScope k functions derived types)
        ⟨openFrame block, busy m memory 2 failure counts care watch⟩ =
      .ok (some (slotPlace block 1)) ⟨(openFrame block).set ⟨2⟩ .owned,
        busy m (memory.write (slotPlace block 1) (.int .i32) (.int 0x7ffffffe)) 2 failure counts care' watch'⟩ :=
  ⟨_, _, by with_unfolding_all rfl⟩

theorem pull_count : ∃ care' watch',
    Run.pullWithin (invokeWithin (depth + 1)) 5 ⟨3⟩ (nextScope k functions derived types)
        ⟨(openFrame block).set ⟨2⟩ .owned, busy m memory 2 failure counts care watch⟩ =
      .ok (some (slotPlace block 0)) ⟨termsFrame block,
        busy m (memory.write (slotPlace block 0) (.int .i32) (.int (IntKind.i32.wrap (drawn counts)))) 3 none
          (counted counts) care' watch'⟩ :=
  ⟨_, _, by with_unfolding_all rfl⟩

theorem pinType_next (a : Activation) {id : Nat} (hid : id = 2 ∨ id = 3) :
    Run.pinType ⟨id⟩ (nextScope k functions derived types) a = .ok { badge.info with functions, derived } a := by
  rcases hid with rfl | rfl
  · with_unfolding_all rfl
  · with_unfolding_all rfl

theorem resultStorage_sum :
    Run.resultStorage (some ⟨4⟩) (some .value) (nextScope k functions derived types)
        ⟨termsFrame block, busy m memory 3 none counts care watch⟩ =
      .ok (some (slotPlace block 3)) ⟨termsFrame block, busy m memory 3 none counts care watch⟩ := by
  with_unfolding_all rfl

theorem storeResult_sum : ∃ care',
    Run.storeResult ⟨4⟩ .value none (nextScope k functions derived types)
        ⟨termsFrame block, busy m memory 3 none counts care watch⟩ =
      .ok () ⟨sumFrame block, busy m memory 3 none counts care' watch⟩ :=
  ⟨_, by with_unfolding_all rfl⟩

theorem produce_sum : ∃ place memory' care',
    Run.produce { badge.info with functions, derived } none (fun place =>
        (Run.handOver (invokeWithin (depth + 1)) { badge.info with functions, derived }
          (slotPlace block 3) place).mapError
          (·.atNode returningNode.id))
        (nextScope k functions derived types) ⟨sumFrame block, busy m memory 3 none counts care watch⟩ =
      .ok (some (.owned badge.id place 4 none))
        ⟨(sumFrame block).set ⟨4⟩ .empty, busy m memory' 3 none counts care' watch⟩ :=
  ⟨_, _, _, by with_unfolding_all rfl⟩

theorem watchInput_sum : ∃ watch',
    Run.watchInput ⟨5⟩ (some (slotPlace block 3)) (nextScope k functions derived types)
        ⟨sumFrame block, busy m memory 3 none counts care watch⟩ =
      .ok () ⟨sumFrame block, busy m memory 3 none counts care watch'⟩ :=
  ⟨_, by with_unfolding_all rfl⟩

theorem value?_sumFrame : (sumFrame block).value? (nextScope k functions derived types).program ⟨4⟩ =
    some (slotPlace block 3) := rfl

end Steps

section Sum

attribute [local irreducible] Ensures

variable {k : Context} {m : Machine} {functions : List (FunctionKey × List Function)} {derived : List TypeId}
  {types : List TypeInfo} {memory : Memory} {failure : Option ScriptError} {counts : List (Nat × Int)}
  {care : Care} {watch : Watch} {block : Nat}

theorem ensures_addBadges (depth : Nat) {a b place : Place} {x y : Int} (hx : m.memory.read a (.int .i32) = .int x)
    (hy : m.memory.read b (.int .i32) = .int y) :
    Ensures (invokeWithin (depth + 1) addBadges [.borrowed badge.id .constRef a, .borrowed badge.id .constRef b]
        (some place)) k m
      (fun v m' => IntKind.i32.contains (x + y) = true ∧ v = none ∧ ∃ memory, m' = { m with memory })
      fun _ _ => ¬ IntKind.i32.contains (x + y) = true := by
  have hcheck : addBadges.check ([Value.borrowed badge.id .constRef a, .borrowed badge.id .constRef b].map
      Value.argument) = .ok () := by
    with_unfolding_all rfl
  have hfirst : readArgument badge.shape [.borrowed badge.id .constRef a, .borrowed badge.id .constRef b] 0 k m =
      .ok a m := by
    with_unfolding_all rfl
  have hsecond : readArgument badge.shape [.borrowed badge.id .constRef a, .borrowed badge.id .constRef b] 1 k m =
      .ok b m := by
    with_unfolding_all rfl
  rw [invokeWithin]
  dsimp only
  rw [hcheck]
  simp only [Function.run, show addBadges.body = .native (.arithmetic (.int .i32) .add) badge.shape none from rfl,
    NativeOp.run, NativeOp.argumentData, show badge.shape.leaves = [(0, .int .i32)] from rfl, Memory.readLeaves,
    List.map_cons, List.map_nil, Place.shift_zero, Ensures.bind_iff, Ensures.exec_memory_iff, Ensures.pure_iff,
    Ensures.iff_of_ok hfirst, Ensures.iff_of_ok hsecond, hx, hy, Atom.arithmetic, Atom.intArithmetic]
  by_cases hfits : IntKind.i32.contains (x + y) = true
  · simp [hfits, Exec.giveBack, Exec.produce]
  · simp [hfits]

theorem ensures_callNode_sum (depth : Nat) :
    Ensures (Run.callNode (invokeWithin (depth + 1)) (Run.pullWithin (invokeWithin (depth + 1)) 5) addingNode addBadges)
      (nextScope k functions derived types) ⟨openFrame block, busy m memory 2 failure counts care watch⟩
      (fun _ a => Numbers counts ∧ HasCounted m counts (sumFrame block) a) fun _ _ => ¬ Numbers counts := by
  obtain ⟨care₁, watch₁, hgreatest⟩ :=
    pull_greatest k functions derived types m memory failure counts care watch block depth
  obtain ⟨care₂, watch₂, hcount⟩ := pull_count k functions derived types m
    (memory.write (slotPlace block 1) (.int .i32) (.int 0x7ffffffe)) failure counts care₁ watch₁ block depth
  have hparams : addBadges.params.zip addingNode.dataIn =
      [(⟨"a", badge.id, .constRef⟩, ⟨2⟩), (⟨"b", badge.id, .constRef⟩, ⟨3⟩)] := rfl
  rw [Run.callNode, hparams, show addingNode.dataOut.head? = some ⟨4⟩ from rfl,
    show addBadges.result.map (·.form) = some .value from rfl]
  simp [Run.withStack, Run.withArguments, Form.isOwning, Ensures.iff_of_ok hgreatest, Ensures.iff_of_ok hcount,
    Ensures.iff_of_ok (pinType_next ..), Ensures.iff_of_ok (resultStorage_sum ..)]
  refine (ensures_addBadges depth (x := 0x7ffffffe) (y := IntKind.i32.wrap (drawn counts)) ?_ ?_).mono ?_
    fun e _ hfits => .of_forall (fun _ _ => hfits) fun _ _ => hfits
  · refine (Memory.read_write_of_ne _ _ _ _ ?_).trans (Memory.read_write_int _ _ rfl)
    simp [slotPlace]
  · exact Memory.read_write_int _ _ (IntKind.contains_wrap _ _)
  · rintro v _ ⟨hfits, rfl, memory', rfl⟩
    obtain ⟨care₃, hstore⟩ := storeResult_sum k functions derived types m memory' (counted counts) care₂
      watch₂ block
    exact (Ensures.iff_of_ok hstore).mpr ⟨hfits, memory', care₃, watch₂, rfl⟩

theorem ensures_pull_sum (depth : Nat) :
    Ensures (Run.pullInput (invokeWithin (depth + 1)) ⟨5⟩) (nextScope k functions derived types)
      ⟨openFrame block, busy m memory 1 failure counts care watch⟩
      (fun place a => Numbers counts ∧ place = some (slotPlace block 3) ∧ HasCounted m counts (sumFrame block) a)
      fun _ _ => ¬ Numbers counts := by
  have hpin : ∀ a, Run.pin ⟨5⟩ (nextScope k functions derived types) a =
      .ok { nextProgram.data 4 .value 16 with source := some ⟨4⟩ } a := fun _ => rfl
  have hsource : ∀ a, Run.pin ⟨4⟩ (nextScope k functions derived types) a =
    .ok (nextProgram.data 3 .value 12) a :=
    fun _ => rfl
  have hnode : ∀ a, Run.node (nextProgram.data 3 .value 12).node (nextScope k functions derived types) a =
      .ok addingNode a := fun _ => rfl
  have hnote : ∀ a, Run.noteNode "Evaluating pure node" addingNode (nextScope k functions derived types) a =
    .ok () a :=
    fun _ => rfl
  rw [Run.pullInput, Ensures.bind_iff, Ensures.run_program_iff,
    show (nextScope k functions derived types).program.pins.size + 1 = 5 + 1 from rfl, Run.pullWithin]
  simp only [Run.pullStep, Run.supply, Run.pullOutput, Ensures.bind_iff, Ensures.iff_of_ok (hpin _),
    Ensures.iff_of_ok (hsource _), Ensures.iff_of_ok (hnode _), addingNode.eq_def, if_pos, Ensures.run_frame_iff,
    show Run.isFresh (openFrame block) ⟨4⟩ = false from rfl, Bool.not_false, Run.evaluate]
  simp only [← addingNode.eq_def, Ensures.iff_of_ok (tick_next (h := Nat.one_lt_two) ..),
    Ensures.iff_of_ok (hnote _)]
  refine (ensures_callNode_sum depth).mono ?_ fun _ _ => id
  rintro _ _ ⟨hfits, memory', care', watch', rfl⟩
  obtain ⟨watch'', hwatch⟩ := watchInput_sum k functions derived types m memory' (counted counts) care' watch' block
  rw [Ensures.run_program_iff, Ensures.pure_iff, value?_sumFrame, Ensures.iff_of_ok hwatch, Ensures.pure_iff]
  exact ⟨hfits, rfl, memory', care', watch'', rfl⟩

theorem ensures_body_next (depth : Nat) :
    Ensures (Run.body (invokeWithin (depth + 1)) [] none) (nextScope k functions derived types)
      ⟨openFrame block, busy m memory 0 failure counts care watch⟩
      (fun v a => Numbers counts ∧ (∃ place, v = some (.owned badge.id place 4 none)) ∧
        HasCounted m counts ((sumFrame block).set ⟨4⟩ .empty) a)
      fun _ _ => ¬ Numbers counts := by
  have hentry : ∀ a, Run.node nextProgram.entry (nextScope k functions derived types) a =
      .ok { id := ⟨1⟩, label := "Entry", op := .entry, pure := false } a := fun _ => rfl
  have hreturn : ∀ a, Run.node ⟨4⟩ (nextScope k functions derived types) a = .ok returningNode a := fun _ => rfl
  have hinput : ∀ a, Run.nth returningNode.dataIn 0 (nextScope k functions derived types) a = .ok ⟨5⟩ a :=
    fun _ => rfl
  have hinfo : (nextScope k functions derived types).context.catalogue.info 0 =
      { badge.info with functions, derived } := rfl
  simp only [Run.body, Run.finish, Run.bindArguments, Ensures.bind_iff, Ensures.run_program_iff, Ensures.read_iff,
    Ensures.pure_iff, if_pos, show (nextScope k functions derived types).program = nextProgram from rfl,
    show nextProgram.pure = true from rfl, show nextProgram.returnNode = some ⟨4⟩ from rfl,
    show nextProgram.result = some (0, .value) from rfl, Ensures.iff_of_ok (hentry _), Ensures.iff_of_ok (hreturn _),
    Ensures.iff_of_ok (hinput _), Ensures.iff_of_ok (tick_next (h := Nat.two_pos) ..), hinfo]
  refine (ensures_pull_sum depth).mono ?_ fun _ _ => id
  rintro _ _ ⟨hfits, rfl, memory', care', watch', rfl⟩
  obtain ⟨place, memory'', care'', hproduce⟩ :=
    produce_sum k functions derived types m memory' (counted counts) care' watch' block depth
  exact (Ensures.iff_of_ok hproduce).mpr ⟨hfits, ⟨place, rfl⟩, memory'', care'', watch', rfl⟩

theorem counts_clearAll (sc : Scope) (n : Nat) (a : Activation) : Ensures (Run.clearAll n) sc a
    (fun _ b => b.machine.counts = a.machine.counts) fun _ b => b.machine.counts = a.machine.counts := by
  induction n generalizing a with
  | zero => exact Ensures.pure_iff.mpr rfl
  | succ n ih =>
    have hclear : ∀ id, Ensures (Run.clear id) sc a (fun _ b => b.machine.counts = a.machine.counts)
        fun _ b => b.machine.counts = a.machine.counts := by
      intro id
      simp only [Run.clear, Exec.endCharge, Exec.destroy, Ensures.bind_iff, Ensures.run_program_iff,
        Ensures.run_frame_iff]
      split
      · split
        · simp
          split <;> simp
        · simp
      · simp
    exact (hclear _).bind fun _ b hb => (ih b).mono (fun _ _ h => h.trans hb) fun _ _ h => h.trans hb

theorem counts_closeFrame (sc : Scope) (a : Activation) (v : Option Value) :
    ((Program.closeFrame sc a).watchResult v).counts = a.machine.counts := by
  have hclear := counts_clearAll sc sc.program.pins.size a
  rw [Machine.watchResult_eq, Program.closeFrame]
  cases h : Run.clearAll sc.program.pins.size sc a with
  | ok u b => exact (Machine.counts_modifyInterpreter ..).trans (hclear.ok h)
  | error e b => exact (Machine.counts_modifyInterpreter ..).trans (hclear.error h)

theorem ensures_execute_next (depth : Nat) {highWater steps visits : Nat} (hspare : m.spare =
      { stack := { ({} : Interpreter).stack with highWater }, steps, visits, nestedFailure := failure }) :
    Ensures (nextProgram.execute (invokeWithin (depth + 1)) .spare [] none) (withBadges k functions derived types) m
      (fun v m' => Numbers m.counts ∧ (∃ place, v = some (.owned badge.id place 4 none)) ∧
        m'.counts = counted m.counts)
      fun _ _ => ¬ Numbers m.counts := by
  rw [Program.execute_iff, Program.runFramed, if_neg (by simp [Program.arity, Program.implicitArgs, nextProgram])]
  refine Ensures.bind ((ensures_takeFrame_next k functions derived types m failure hspare).mono (fun _ _ => id)
    fun _ _ => False.elim) ?_
  rintro _ _ ⟨rfl, rfl⟩
  rw [Program.runIn_iff]
  refine (ensures_body_next depth).mono ?_ fun e a hfits => .of_forall (fun _ _ => hfits) fun _ _ => trivial
  rintro _ a ⟨hfits, hplace, memory', care', watch', rfl⟩
  exact ⟨hfits, hplace, counts_closeFrame _ _ _⟩

theorem exists_withBadges {f : Function} (hbadge : BadgeInfo f (k.catalogue.info 0))
    (hsize : 0 < k.catalogue.infos.size)
    (hlimit : k.traceLimit = none) : ∃ functions derived types, k = withBadges k functions derived types := by
  obtain ⟨⟨⟨infos⟩, index, events, history⟩, bodies, limit⟩ := k
  cases hlimit
  cases infos with
  | nil => cases hsize
  | cons t types =>
    have heq : t = { badge.info with functions := t.functions, derived := t.derived } := hbadge.eq
    exact ⟨t.functions, t.derived, types, congrArg
      (fun t => ({ catalogue := ⟨⟨t :: types⟩, index, events, history⟩, bodies } : Context)) heq⟩

structure Issues (k : Context) : Prop where
  badge : BadgeInfo numberBadge (k.catalogue.info 0)
  size : 0 < k.catalogue.infos.size
  traceLimit : k.traceLimit = none
  resolve : ∃ t, k.catalogue.lookup? pouch.type = some t ∧
    t.resolve (.ofName "Next") [] = .ok (functionOf "World" pouch.type nextBadge 0)
  body : k.bodies[0]? = some ⟨"Pouch::Next", .ready nextProgram⟩

theorem ensures_nextBadge (hk : Issues k) (depth : Nat) {highWater steps visits : Nat} (hcurrent : m.current = none)
    (hspare : m.spare =
      { stack := { ({} : Interpreter).stack with highWater }, steps, visits, nestedFailure := failure }) :
    Ensures (invokeWithin (depth + 2) (functionOf "World" pouch.type nextBadge 0) [] none) k m
      (fun v m' => Numbers m.counts ∧ (∃ place, v = some (.owned badge.id place 4 none)) ∧
        m'.counts = counted m.counts)
      fun _ _ => ¬ Numbers m.counts := by
  obtain ⟨functions, derived, types, hbadges⟩ := exists_withBadges hk.badge hk.size hk.traceLimit
  have hcheck : (functionOf "World" pouch.type nextBadge 0).check ([].map Value.argument) = .ok () := rfl
  have hbody : (functionOf "World" pouch.type nextBadge 0).body = .script 0 := rfl
  rw [invokeWithin]
  dsimp only
  rw [hcheck]
  simp only [Function.run, hbody, runScript, readyProgram, Ensures.bind_iff, Ensures.read_iff, hk.body,
    Ensures.pure_iff, Ensures.get_iff, Ensures.exec_mapError_iff, Machine.seat, hcurrent, Option.getD_none]
  rw [hbadges]
  exact ensures_execute_next depth hspare

theorem ensures_numberBadge (hk : Issues k) {highWater steps visits : Nat} (hcurrent : m.current = none)
    (hspare : m.spare =
      { stack := { ({} : Interpreter).stack with highWater }, steps, visits, nestedFailure := failure })
    (place : Place) :
    Ensures (invoke numberBadge [] (some place)) k m
      (fun v m' => v = none ∧ Numbers m.counts ∧ m'.counts = counted m.counts) fun _ _ => ¬ Numbers m.counts := by
  obtain ⟨t, hlookup, hresolve⟩ := hk.resolve
  obtain ⟨n, hn⟩ : ∃ n, callDepth = n + 3 := ⟨_, rfl⟩
  have hcheck : numberBadge.check [] = .ok () := rfl
  rw [invoke, hn, invokeWithin]
  dsimp only
  rw [List.map_nil, hcheck]
  simp [Function.run, numberBadge, HostFunction.run, HostFunction.perform, Invoke.callNamed, hlookup, Invoke.callKey,
    hresolve]
  refine (ensures_nextBadge hk n hcurrent hspare).mono ?_ fun _ _ => id
  rintro _ m' ⟨hfits, ⟨source, rfl⟩, hcounts⟩
  simp [HostFunction.settle, Exec.relocate, Value.owned, Exec.free, hfits, hcounts]

theorem spare_of_comparable (hm : ({} : Machine).Comparable m) : m.current = none ∧
    ∃ highWater steps visits failure, m.spare =
      { stack := { ({} : Interpreter).stack with highWater }, steps, visits, nestedFailure := failure } := by
  have hstance : (m.interpreter .spare).stance = ({} : Interpreter).stance :=
    congrArg (·.stance .spare) hm.standing
  obtain ⟨hsettings, hcapacity⟩ := hm.paced .spare
  obtain ⟨memory, journal, own, ⟨settings, ⟨capacity, used, highWater⟩, steps, visits, depth, world,
    failure⟩, current,
    counts, care, watch⟩ := m
  simp only [Interpreter.stance, Machine.interpreter, Machine.meter, Interpreter.meter, Stance.mk.injEq]
    at hstance hsettings hcapacity
  obtain ⟨hused, hdepth, hworld⟩ := hstance
  exact ⟨congrArg (·.current) hm.standing, highWater, steps, visits, failure, by simp [*]⟩

theorem Issues.of_restored (hk : numbering.Restored k) (hlimit : k.traceLimit = none) : Issues k := by
  obtain ⟨hsize, hhandle, hbadge, heirs, hpouch⟩ := numbering_eq
  have hlookup : numbering.catalogue.lookup? pouch.type = some (numbering.catalogue.info 1) := by
    rw [Catalogue.lookup?, hhandle, if_neg (by decide +kernel), if_pos rfl, Option.map_some]
  refine ⟨?_, ?_, hlimit, ⟨_, hk.lookup?_eq filed_numbering hlookup, ?_⟩, hk.body 0 Nat.one_pos⟩
  · rwa [hk.catalogue.toExtends.info_of_lt (by rw [hsize]; exact Nat.two_pos)]
  · exact Nat.lt_of_lt_of_le (by rw [hsize]; exact Nat.two_pos) hk.catalogue.size_le
  · rw [hpouch]
    exact (numberedPouch_info heirs).2.2

theorem takes_coat (hk : numbering.Restored k) (hlimit : k.traceLimit = none) (hm : ({} : Machine).Comparable m)
    {es : List ScriptError} {h : Handle} {c : Catalogue} {m' : Machine} (htakes : Takes k m coat [] es h c m') :
    if Numbers m.counts then es = [] ∧ m'.counts = counted m.counts else es ≠ [] := by
  obtain ⟨hsize, hhandle, -, heirs, hinfo⟩ := numbering_eq
  obtain ⟨hcurrent, highWater, steps, visits, failure, hspare⟩ := spare_of_comparable hm
  have hissues := Issues.of_restored hk hlimit
  obtain ⟨hpouch, hname, -⟩ := numberedPouch_info heirs
  have hinfo : k.catalogue.info 1 = Catalogue.withHeirs heirs numberedPouch :=
    (hk.catalogue.toExtends.info_of_lt (by rw [hsize]; exact Nat.one_lt_two)).trans hinfo
  rw [← hinfo] at hpouch hname
  have hhandle : k.catalogue.handleNamed? "Pouch" = some 1 := by
    rw [Catalogue.handleNamed?, hk.handle?_eq, hhandle, if_neg (by decide +kernel),
      if_pos (show TypeId.ofName "Pouch" = pouch.type from rfl), Option.filter_some, hname]
    rfl
  cases htakes with
  | @intro es ms m₁ hfound journal =>
    have hread := ensures_checkDefault_pouch (m := m)
      (Q := fun counts => Numbers m.counts ∧ counts = counted m.counts) (E := ¬ Numbers m.counts) hpouch
      hissues.badge fun place memory => ensures_numberBadge (m := { m with memory }) hissues hcurrent hspare place
    rcases errors_coat hhandle hpouch hread hfound with ⟨hnone, hfits, hcounts⟩ | ⟨hsome, hfits⟩
    · rw [if_pos hfits]
      exact ⟨hnone, hcounts⟩
    · rwa [if_neg hfits]

end Sum

end Numbered

theorem load_coat {l : Loader} {w : Workspace} (howns : Owns numbering l w.context)
    (hlimit : w.context.traceLimit = none) (hm : ({} : Machine).Comparable w.machine) :
    ∃ r, (l.load [coat] w).1 = some r ∧ if Numbers w.machine.counts then
      r.errors = [] ∧ (l.load [coat] w).2.2.machine.counts = counted w.machine.counts else r.errors ≠ [] := by
  have hrestored := howns.restored
  have hnew : (l.unload w).2.catalogue.contains coat.type = false := by
    rw [Catalogue.contains_eq, Workspace.catalogue, hrestored.handle?_eq, numbering_eq.2.1]
    decide +kernel
  have hkept : (l.unload w).2.context.traceLimit = none := by
    rw [unload_context]
    exact hlimit
  have hunloaded := unload_machine l w
  obtain ⟨es, h, c, m, htakes, hnoted, r, hr, rfl⟩ := load_single rfl hnew
  have hcoat := takes_coat hrestored hkept (hm.trans hunloaded.comparable) htakes
  rw [hunloaded.counts] at hcoat
  rw [hnoted.counts]
  exact ⟨r, hr, hcoat⟩

theorem load_coat_again {l : Loader} {w : Workspace} (howns : Owns numbering l w.context)
    (hlimit : w.context.traceLimit = none) (hm : ({} : Machine).Comparable w.machine)
    (hcounts : w.machine.counts = []) :
    ∃ r r', (l.load [coat] w).1 = some r ∧
      ((l.load [coat] w).2.1.load [coat] (l.load [coat] w).2.2).1 = some r' ∧ r.errors = [] ∧ r'.errors ≠ [] := by
  obtain ⟨r, hr, hfirst⟩ := load_coat howns hlimit hm
  rw [hcounts, if_pos (by decide)] at hfirst
  have howns' := howns.load (Option.isSome_of_mem hr)
  have hlimit' := (traceLimit_load l [coat] w).trans hlimit
  have hm' := hm.trans (comparable_load l [coat] w)
  generalize l.load [coat] w = first at *
  obtain ⟨r', hr', hsecond⟩ := load_coat howns' hlimit' hm'
  rw [hfirst.2, if_neg (by decide)] at hsecond
  exact ⟨r, r', hr, hr', hfirst.1, hsecond⟩

end Loader
end Flowscript
