import Flowscript.Proofs.Loading.LoadingOrder
import Flowscript.Proofs.Types.FunctionNames
import Flowscript.Proofs.Types.ValueLaws

/-! # Laws of described types

The functions of a type that a host describes are derived from the primitive data of which its values consist. It obeys
the laws of values if its data come back when they are put elsewhere, and are the same just if nothing tells them apart.
The data of integers do.
-/
namespace Flowscript

open Exec

/-- The signatures of the functions that make values of a type: from nothing, by copying and by moving. -/
def TypeId.constructions (type : TypeId) : List SignatureId :=
  [.ofParams [] (some (Function.resultParam type .value)),
    .ofParams [⟨"other", type, .constRef⟩] (some (Function.resultParam type .value)),
    .ofParams [⟨"other", type, .rvalue⟩] (some (Function.resultParam type .value))]

theorem latest_of_nodup {α β : Type} [DecidableEq β] {key : α → β} {l : List α} (h : (l.map key).Nodup) :
    latest key l = l := by
  induction l with
  | nil => rfl
  | cons a l ih =>
    obtain ⟨ha, hl⟩ := List.nodup_cons.mp h
    have hnone : (l.any fun b => key b = key a) = false := by
      refine Bool.eq_false_iff.mpr fun hany => ?_
      obtain ⟨b, hb, hkey⟩ := List.any_eq_true.mp hany
      exact ha (List.mem_map.mpr ⟨b, hb, of_decide_eq_true hkey⟩)
    rw [latest, hnone, if_neg Bool.false_ne_true, ih hl]

namespace NativeOp

variable {shape : Shape} {type : TypeId} {form : Form} {args : List Value} {index : Nat} {source : Place} {w : Context}
  {m : Machine}

theorem argumentData_eq (htype : type = .ofName shape.name) (h : args[index]? = some (.borrowed type form source)) :
    argumentData shape args index w m = .ok (m.memory.readLeaves source shape.leaves) m := by
  have hread : readArgument shape args index = pure source := by
    unfold readArgument
    rw [h]
    dsimp only
    rw [Value.place?_borrowed]
    exact if_pos htype
  rw [argumentData, hread]
  rfl

theorem takeData_eq (htype : type = .ofName shape.name) (hform : form.isMutable)
    (h : args[index]? = some (.borrowed type form source)) :
    takeData shape args index w m = .ok (m.memory.readLeaves source shape.leaves)
      { m with memory := m.memory.writeLeaves source shape.leaves shape.defaults } := by
  have hchange : changeArgument shape args index = pure source := by
    unfold changeArgument
    rw [h]
    dsimp only
    rw [Value.place?_borrowed]
    exact if_pos ⟨htype, hform⟩
  rw [takeData, hchange]
  rfl

theorem run_default_into (shape : Shape) (destructor : Option Destructor) (args : List Value) (target : Place)
    (w : Context)
    (m : Machine) : NativeOp.default.run shape destructor args (some target) w m =
      .ok none { m with memory := m.memory.writeLeaves target shape.leaves shape.defaults } := rfl

theorem run_copy_into (destructor : Option Destructor) (form : Form) (source target : Place) (w : Context) (m : Machine)
    (htype : type = .ofName shape.name) :
    NativeOp.copyConstruct.run shape destructor [.borrowed type form source] (some target) w m = .ok none
      { m with memory := m.memory.writeLeaves target shape.leaves (m.memory.readLeaves source shape.leaves) } := by
  rw [run]
  exact bind_of_ok (argumentData_eq htype rfl)

theorem run_move_into (destructor : Option Destructor) (source target : Place) (w : Context) (m : Machine)
    (htype : type = .ofName shape.name) (hform : form.isMutable) :
    NativeOp.moveConstruct.run shape destructor [.borrowed type form source] (some target) w m = .ok none
      { m with
        memory := (m.memory.writeLeaves source shape.leaves shape.defaults).writeLeaves target shape.leaves
          (m.memory.readLeaves source shape.leaves) } := by
  rw [run]
  exact bind_of_ok (takeData_eq htype hform rfl)

theorem run_compare_into (op : Operator) (destructor : Option Destructor) (form : Form) (a b target : Place)
    (w : Context)
    (m : Machine) (htype : type = .ofName shape.name) :
    (NativeOp.compare op).run shape destructor [.borrowed type form a, .borrowed type form b] (some target) w m =
    .ok none
      { m with
        memory := m.memory.writeLeaves target boolShape.leaves
          [.bool (Atom.compareBy op (m.memory.readLeaves a shape.leaves) (m.memory.readLeaves b shape.leaves))] } := by
  rw [run]
  exact (bind_of_ok (argumentData_eq htype rfl)).trans (bind_of_ok (argumentData_eq htype rfl))

end NativeOp

namespace NativeType

/-- What is asked of the data of values: they lie within these, come back when they are put elsewhere, and are the same
just if nothing tells them apart. -/
structure Lossless (t : NativeType) : Prop where
  align : ∃ k, t.layout.align = 2 ^ k
  fits : ∀ l ∈ t.codec.leaves, l.1 + l.2.layout.size ≤ t.layout.size
  kept : ∀ (m m' : Memory) (p q : Place), let data := m'.readLeaves p t.codec.leaves
    (m.writeLeaves q t.codec.leaves data).readLeaves q t.codec.leaves = data
  same : ∀ (m m' : Memory) (p q : Place), let data := m.readLeaves p t.codec.leaves
    let data' := m'.readLeaves q t.codec.leaves
    Atom.sameList data data' = true ↔ data = data'

def ownDefault (t : NativeType) : Function := t.function .construct [] (some t.id) true .default

def ownMove (t : NativeType) : Function :=
  t.function .construct [⟨"other", t.id, .rvalue⟩] (some t.id) true .moveConstruct

def ownCopy (t : NativeType) : Function :=
  t.function .construct [⟨"other", t.id, .constRef⟩] (some t.id) true .copyConstruct

theorem key_function (t : NativeType) (op : Operator) (params : List Param) (result : Option TypeId) (pure : Bool)
    (body : NativeOp) : (t.function op params result pure body).key = .operator op := FunctionKey.ofName_functionName op

def constructors (t : NativeType) : List Function :=
  (if t.abilities.default then [t.ownDefault, t.ownMove] else []) ++ if t.abilities.clone then [t.ownCopy] else []

theorem filter_functions (t : NativeType) :
    t.functions.filter (·.key = .operator .construct) = t.constructors ∧
      t.functions.filter (·.key = .operator .equal) =
        (if t.abilities.equal then [t.binary .equal boolId (.compare .equal)] else []) ∧
      t.functions.filter (·.key = .operator .notEqual) =
        (if t.abilities.equal then [t.binary .notEqual boolId (.compare .notEqual)] else []) := by
  cases harithmetic : t.abilities.arithmetic <;>
    simp [functions, harithmetic, constructors, defaultFunctions, cloneFunctions, compareFunctions, arithmeticFunctions,
      binary, apply_ite (List.filter _), key_function, ownDefault, ownMove, ownCopy]

theorem nodup_constructors {t : NativeType} (h : t.id.constructions.Nodup) :
    (t.constructors.map (·.signature)).Nodup := by
  have hswap : [t.ownDefault.signature, t.ownMove.signature, t.ownCopy.signature].Nodup :=
    ((List.Perm.swap _ _ []).cons _).nodup_iff.mp h
  refine hswap.sublist ?_
  rw [constructors, List.map_append]
  change List.Sublist _ ([t.ownDefault.signature, t.ownMove.signature] ++ [t.ownCopy.signature])
  refine List.Sublist.append ?_ ?_
  all_goals
    split
    · exact List.Sublist.refl _
    · exact List.nil_sublist _

theorem overloads_info {t : NativeType} (h : t.id.constructions.Nodup) :
    t.info.overloads (.operator .construct) = t.constructors ∧
      t.info.overloads (.operator .equal) =
        (if t.abilities.equal then [t.binary .equal boolId (.compare .equal)] else []) ∧
      t.info.overloads (.operator .notEqual) =
        (if t.abilities.equal then [t.binary .notEqual boolId (.compare .notEqual)] else []) := by
  obtain ⟨hconstruct, hequal, hnotEqual⟩ := t.filter_functions
  have hoverloads (key : FunctionKey) : t.info.overloads key =
      latest Function.signature (t.functions.filter (·.key = key)) :=
    TypeInfo.overloads_addFunctions
      { id := t.id, name := t.name, layout := t.layout, traits := t.traits, visible := t.visible
        fields := t.fields, bases := t.bases.map TypeId.ofName, destructor := t.destructor
        codec := if t.abilities.codec then some (.native t.codec) else none } t.functions key
  refine ⟨?_, ?_, ?_⟩
  · rw [hoverloads, hconstruct, latest_of_nodup (nodup_constructors h)]
  · rw [hoverloads, hequal]
    split <;> rfl
  · rw [hoverloads, hnotEqual]
    split <;> rfl

theorem makeup_info (t : NativeType) : t.info.makeup =
    { id := t.id, name := t.name, layout := t.layout, traits := t.traits, visible := t.visible
      fields := t.fields, bases := t.bases.map TypeId.ofName, destructor := t.destructor
      codec := if t.abilities.codec then some (.native t.codec) else none } := by
  rw [info, TypeInfo.makeup_addFunctions]
  rfl

section Lawful

variable {t : NativeType} {u : TypeInfo} {d : Nat} {w : Context}

def data (t : NativeType) (m : Memory) (p : Place) : List Atom := m.readLeaves p t.codec.leaves

/-- A type is as it was described: nothing was added under the keys by which values are made and compared. -/
structure Governs (t : NativeType) (u : TypeInfo) : Prop where
  makeup : u.makeup = t.info.makeup
  constructors : u.overloads (.operator .construct) = t.constructors
  equal : u.overloads (.operator .equal) = if t.abilities.equal then [t.binary .equal boolId (.compare .equal)] else []
  notEqual : u.overloads (.operator .notEqual) =
    if t.abilities.equal then [t.binary .notEqual boolId (.compare .notEqual)] else []

namespace Governs

variable (h : t.Governs u)
include h

theorem info_eq : u.id = t.id ∧ u.layout = t.layout ∧ u.traits = t.traits := by
  have hmakeup := h.makeup
  rw [makeup_info] at hmakeup
  exact ⟨congrArg TypeInfo.id hmakeup, congrArg TypeInfo.layout hmakeup, congrArg TypeInfo.traits hmakeup⟩

theorem resolve_default (hdefault : t.abilities.default) :
    u.resolve (.operator .construct) t.ownDefault.ownArguments = .ok t.ownDefault := by
  refine TypeInfo.resolve_own [] ?_ (List.forall_mem_nil _)
  rw [h.constructors, NativeType.constructors, if_pos hdefault]
  exact List.prefix_append [t.ownDefault] _

theorem resolve_move (hdefault : t.abilities.default) :
    u.resolve (.operator .construct) t.ownMove.ownArguments = .ok t.ownMove := by
  refine TypeInfo.resolve_own [t.ownDefault] ?_ (List.forall_mem_singleton.mpr fun hcheck => ?_)
  · rw [h.constructors, NativeType.constructors, if_pos hdefault]
    exact List.prefix_append _ _
  · cases Function.check_eq_ok_iff.mp hcheck

theorem resolve_copy (hclone : t.abilities.clone) :
    u.resolve (.operator .construct) t.ownCopy.ownArguments = .ok t.ownCopy := by
  refine TypeInfo.resolve_own (if t.abilities.default then [t.ownDefault, t.ownMove] else []) ?_ fun g hg hcheck => ?_
  · rw [h.constructors, NativeType.constructors, if_pos hclone]
  · split at hg
    · rcases List.mem_pair.mp hg with rfl | rfl
      · cases Function.check_eq_ok_iff.mp hcheck
      · exact Nat.one_pos
    · cases hg

end Governs

theorem Lossless.touches (ht : t.Lossless) (m : Memory) (target : Place) (data : List Atom) :
    m.Touches [(target, t.layout.size)] (m.writeLeaves target t.codec.leaves data) := by
  refine (m.changesOnly_writeLeaves target data ht.fits).touches ?_
  rw [Memory.next_writeLeaves]

theorem exists_compare (op : Operator) (m : Machine) (a b out : Place) : ∃ n,
    (invokeWithin (d + 1)) (t.binary op boolId (.compare op))
      [.borrowed t.id .constRef a, .borrowed t.id .constRef b] (some out) w m = .ok none n ∧
    n.memory.read out .bool = .bool (Atom.compareBy op (t.data m.memory a) (t.data m.memory b)) ∧
    m.memory.Touches [(out, 1)] n.memory := by
  have hleaves : ∀ l ∈ NativeOp.boolShape.leaves, l.1 + l.2.layout.size ≤ 1 := by decide
  have hargs : [Value.borrowed t.id .constRef a, .borrowed t.id .constRef b].map Value.argument =
      (t.binary op boolId (.compare op)).ownArguments := rfl
  have hrun := NativeOp.run_compare_into op t.destructor .constRef a b out w m
    (show t.id = .ofName t.shape.name from rfl)
  rw [Invoke.invokeWithin_of_own hargs]
  refine ⟨_, hrun, m.memory.read_writeLeaves_bool out _,
    (Memory.changesOnly_writeLeaves _ out _ hleaves).touches ?_⟩
  rw [Memory.next_writeLeaves]

theorem Lossless.within (ht : t.Lossless) {m m' : Memory} {p : Place} (h : m.Agrees m' p t.layout.size) :
    t.data m p = t.data m' p := h.readLeaves ht.fits

theorem comparison_eq {op : Operator} {fs : List Function}
    (hfs : fs = if t.abilities.equal then [t.binary op boolId (.compare op)] else []) (hne : fs ≠ []) :
    fs = [t.binary op boolId (.compare op)] := by
  by_cases hequal : t.abilities.equal = true
  · rw [hfs, if_pos hequal]
  · exact absurd (hfs.trans (if_neg hequal)) hne

namespace Governs

variable (h : t.Governs u) (ht : t.Lossless)
include h ht

theorem construct (hdefault : t.abilities.default) (m : Machine) {target : Place} (hseats : u.Seats m.memory target) :
    ∃ n, (invokeWithin (d + 1)).defaultAt u target w m = .ok () n ∧
      m.memory.Touches [(target, t.layout.size)] n.memory := by
  have hargs : [].map Value.argument = t.ownDefault.ownArguments := rfl
  exact ⟨_, Invoke.constructAt_of_own hseats.aligned hargs (h.resolve_default hdefault)
    (NativeOp.run_default_into t.shape t.destructor [] target w m), ht.touches m.memory target t.shape.defaults⟩

theorem copy (hclone : t.abilities.clone) (m : Machine) {target : Place} (source : Place)
    (hseats : u.Seats m.memory target) :
    ∃ n, (invokeWithin (d + 1)).copyAt u target source w m = .ok () n ∧
      t.data n.memory target = t.data m.memory source ∧ m.memory.Touches [(target, t.layout.size)] n.memory := by
  have hargs : [Value.borrowed u.id .constRef source].map Value.argument = t.ownCopy.ownArguments := by
    rw [h.info_eq.1]
    rfl
  have hcall : (invokeWithin (d + 1)).copyAt u target source w m = _ :=
    Invoke.constructAt_of_own hseats.aligned hargs (h.resolve_copy hclone)
      (NativeOp.run_copy_into t.destructor .constRef source target w m
        (show u.id = .ofName t.shape.name from h.info_eq.1))
  exact ⟨_, hcall, ht.kept m.memory m.memory source target, ht.touches m.memory target _⟩

theorem move (hdefault : t.abilities.default) (m : Machine) {target : Place} (source : Place)
    (hseats : u.Seats m.memory target) :
    ∃ n, (invokeWithin (d + 1)).moveAt u target source w m = .ok () n ∧
      t.data n.memory target = t.data m.memory source ∧
      m.memory.Touches [(target, t.layout.size), (source, t.layout.size)] n.memory := by
  have hargs : [Value.borrowed u.id .rvalue source].map Value.argument = t.ownMove.ownArguments := by
    rw [h.info_eq.1]
    rfl
  have hcall : (invokeWithin (d + 1)).moveAt u target source w m = _ :=
    Invoke.constructAt_of_own hseats.aligned hargs (h.resolve_move hdefault)
      (NativeOp.run_move_into t.destructor source target w m (show u.id = .ofName t.shape.name from h.info_eq.1)
        (show Form.rvalue.isMutable = true from rfl))
  have hsource := ht.touches m.memory source t.shape.defaults
  have htarget := ht.touches (m.memory.writeLeaves source t.codec.leaves t.shape.defaults) target
    (t.data m.memory source)
  refine ⟨_, hcall, ht.kept _ m.memory source target, (hsource.widen ?_).trans (htarget.widen ?_)⟩
  · exact List.forall_mem_singleton.mpr ⟨_, List.mem_cons_of_mem _ List.mem_cons_self, rfl, Nat.le_refl _,
      Nat.le_refl _⟩
  · exact List.forall_mem_singleton.mpr ⟨_, List.mem_cons_self, rfl, Nat.le_refl _, Nat.le_refl _⟩

theorem exists_equal (hequal : u.overloads (.operator .equal) ≠ []) {m : Machine} {a b : Place}
    (ha : a.block < m.memory.next)
    (hb : b.block < m.memory.next) :
    ∃ told n, ((invokeWithin (d + 1)).equals u a b : Exec CallError (Option Bool)) w m = .ok (some told) n ∧
      (told = true ↔ t.data m.memory a = t.data m.memory b) ∧ m.memory.Touches [] n.memory := by
  have hequality : Invoke.equality? u = some (t.binary .equal boolId (.compare .equal)) := by
    rw [Invoke.equality?, comparison_eq h.equal hequal]
    exact List.find?_cons_of_pos (by simp [binary, function, boolId, Function.resultParam])
  refine Invoke.exists_equals hequality ht.within ha hb fun m out _ _ => ?_
  obtain ⟨n, hn, hread, htouches⟩ := exists_compare (t := t) (d := d) (w := w) .equal m a b out
  rw [h.info_eq.1]
  exact ⟨_, n, hn, hread, ht.same m.memory m.memory a b, htouches⟩

theorem exists_notEqual (hnotEqual : u.overloads (.operator .notEqual) ≠ []) (m : Machine) (a b out : Place) :
    ∃ told n,
    (invokeWithin (d + 1)).callKey u (.operator .notEqual) [.borrowed u.id .constRef a, .borrowed u.id .constRef b]
        (some out) w m = .ok none n ∧
      n.memory.read out .bool = .bool told ∧ (told = true ↔ t.data m.memory a ≠ t.data m.memory b) ∧
      m.memory.Touches [(out, 1)] n.memory := by
  obtain ⟨n, hn, hread, htouches⟩ := exists_compare (t := t) (d := d) (w := w) .notEqual m a b out
  have hargs : [Value.borrowed t.id .constRef a, .borrowed t.id .constRef b].map Value.argument =
      (t.binary .notEqual boolId (.compare .notEqual)).ownArguments := rfl
  have hresolve : u.resolve (.operator .notEqual) (t.binary .notEqual boolId (.compare .notEqual)).ownArguments =
      .ok (t.binary .notEqual boolId (.compare .notEqual)) := by
    refine TypeInfo.resolve_own [] ?_ (List.forall_mem_nil _)
    rw [comparison_eq h.notEqual hnotEqual]
    exact List.prefix_rfl
  refine ⟨_, n, ?_, hread, ?_, htouches⟩
  · rw [Invoke.callKey, h.info_eq.1, hargs, hresolve]
    exact hn
  · rw [Atom.compareBy, Bool.not_eq_true', ← Bool.not_eq_true]
    exact not_congr (ht.same m.memory m.memory a b)

/-- A described type obeys the laws if its data come back. -/
theorem lawful : u.Lawful (invokeWithin (d + 1)) w t.data := by
  obtain ⟨-, hlayout, htraits⟩ := h.info_eq
  refine ⟨?_, ?_, ?_, ?_, ?_, fun hequal m a b => h.exists_equal ht hequal,
    fun hnotEqual m a b out _ _ _ => h.exists_notEqual ht hnotEqual m a b out⟩
  all_goals rw [hlayout]
  · exact ht.align
  · exact ht.within
  all_goals rw [htraits]
  · exact fun hdefault m target => h.construct ht hdefault m
  · exact fun hcopy m target source hseats _ _ => h.copy ht hcopy m source hseats
  · exact fun hmove m target source hseats _ _ => h.move ht hmove m source hseats

end Governs

end Lawful

theorem governs_withHeirs {t : NativeType} (h : t.id.constructions.Nodup) (heirs : List TypeId) :
    t.Governs (Catalogue.withHeirs heirs t.info) := by
  obtain ⟨hconstruct, hequal, hnotEqual⟩ := overloads_info h
  refine ⟨TypeInfo.makeup_withHeirs heirs t.info, ?_, ?_, ?_⟩
  all_goals rw [Catalogue.overloads_withHeirs]
  · exact hconstruct
  · exact hequal
  · exact hnotEqual

end NativeType

theorem NativeType.lossless_int (name : String) (kind : IntKind) (arithmetic : Bool) :
    (ofPrim name (.int kind) arithmetic).Lossless := by
  have hdata (m : Memory) (p : Place) : ∃ k, m.readLeaves p [(0, .int kind)] = [.int k] ∧ kind.contains k = true :=
    ⟨_, congrArg (fun a => [a]) (Block.read_eq_number (fun h => by cases h)), kind.contains_wrap _⟩
  refine ⟨?_, ?_, fun m m' p q => ?_, fun m m' p q => ?_⟩
  · cases kind
    · exact ⟨2, rfl⟩
    · exact ⟨3, rfl⟩
    · exact ⟨2, rfl⟩
    · exact ⟨3, rfl⟩
  · exact List.forall_mem_singleton.mpr (Nat.le_of_eq (Nat.zero_add _))
  · obtain ⟨k, hk, hcontains⟩ := hdata m' p
    show (m.writeLeaves q [(0, .int kind)] (m'.readLeaves p [(0, .int kind)])).readLeaves q [(0, .int kind)] =
      m'.readLeaves p [(0, .int kind)]
    rw [hk]
    exact congrArg (fun a => [a]) (m.read_write_int (q.shift 0) hcontains)
  · obtain ⟨k, hk, -⟩ := hdata m p
    obtain ⟨k', hk', -⟩ := hdata m' q
    show Atom.sameList (m.readLeaves p [(0, .int kind)]) (m'.readLeaves q [(0, .int kind)]) = true ↔
      m.readLeaves p [(0, .int kind)] = m'.readLeaves q [(0, .int kind)]
    rw [hk, hk']
    simp [Atom.sameList, Atom.same]

end Flowscript
