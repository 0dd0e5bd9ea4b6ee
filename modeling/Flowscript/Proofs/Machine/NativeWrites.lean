import Flowscript.Proofs.Machine.NestedInvocation
import Flowscript.Proofs.Machine.SealedBlocks
import Flowscript.Proofs.Types.OverloadChoice

/-! # What native code writes to

Operations on primitive data write to the arguments that they change, and to no other; those of
aggregates and functions of the host leave most of it to what they call. All results are constructed in
storage of their own or of the caller.
-/
namespace Flowscript

open Exec

variable {ε : Type} {κ : Seal} {I : Machine → Prop} {w : Context} {args : List Value}
  {ret : Option Place}

theorem Function.accepts_of_check {f : Function} (h : f.check (args.map Value.argument) = .ok ())
    {i : Nat} {v : Value} (hv : args[i]? = some v) :
    ∃ q, f.params[i]? = some q ∧ q.form.accepts v.form = true := by
  have hfits := check_eq_ok_iff.mp h
  rw [List.forall₂_map_left_iff, List.forall₂_map_right_iff] at hfits
  obtain ⟨hlt, rfl⟩ := List.getElem?_eq_some_iff.mp hv
  have hlt' : i < f.params.length := hfits.length_eq ▸ hlt
  exact ⟨_, List.getElem?_eq_getElem hlt', ((List.forall₂_iff_get.mp hfits).2 i hlt' hlt).2.1⟩

@[simp] theorem Value.place?_view (v : Value) (form : Form) : (v.view form).place? = v.place? := by
  unfold view
  cases v.place? with
  | none => rfl
  | some place => exact place?_borrowed _ _ _

@[simp] theorem Value.isOwning_view (v : Value) (form : Form) : (v.view form).isOwning = false := by
  unfold view
  cases v.place? with
  | none => rfl
  | some place => exact isOwning_borrowed _ _ _

def NativeOp.changes : NativeOp → List Nat
  | .moveConstruct => [0]
  | .copyAssign => [0]
  | .moveAssign => [0, 1]
  | _ => []

/-- An argument that may be changed lies elsewhere. -/
def Seal.Shuns (κ : Seal) (args : List Value) (index : Nat) : Prop :=
  ∀ v, args[index]? = some v → v.form.isMutable = true → κ.Free v.place?

theorem Seal.Withholds.shuns (h : κ.Withholds args) (index : Nat) : κ.Shuns args index := by
  intro v hv hmutable place hplace hblock
  rw [h v (List.mem_of_getElem? hv) place hplace hblock] at hmutable
  cases hmutable

theorem Maintains.look_changeArgument {α : Type} {R : α → Prop} {shape : Shape} {index : Nat}
    (hargs : κ.Shuns args index) {f : Place → Exec CallError α}
    (hf : ∀ place, place.block ≠ κ.block → Maintains I w (f place) R) :
    Maintains I w (changeArgument shape args index >>= f) R := by
  refine look (looks_changeArgument shape args index) (fun m _ => ?_) hf
  unfold changeArgument
  cases hv : args[index]? with
  | none => trivial
  | some v =>
    dsimp only
    cases hplace : v.place? with
    | none => trivial
    | some place =>
      dsimp only
      split
      · rename_i hmutable
        exact hargs v hv hmutable.2 place hplace
      · trivial

theorem Maintains.look_typeInfo {α : Type} {R : α → Prop} {handle : Handle} {f : TypeInfo → Exec ε α}
    (hf : Maintains I w (f (w.catalogue.info handle)) R) :
    Maintains I w (typeInfo handle >>= f) R :=
  look (S := (· = w.catalogue.info handle)) (looks_typeInfo handle) (fun _ _ => rfl)
    fun _ ht => by rw [ht]; exact hf

theorem Maintains.callNamed {invoke : Invoke} {type : TypeId} {name : String}
    {Q : Option Value → Prop} (h : ∀ t f, w.catalogue.lookup? type = some t →
      f ∈ t.overloads (.ofName name) → Maintains I w (invoke f args none) Q) :
    Maintains I w (invoke.callNamed type name args) Q := by
  refine .look (S := (· = w.catalogue)) looks_catalogue (fun _ _ => rfl) ?_
  rintro _ rfl
  cases ht : w.catalogue.lookup? type with
  | none => exact .throw _
  | some t =>
    dsimp only
    unfold Invoke.callKey
    cases hf : t.resolve (.ofName name) (args.map Value.argument) with
    | error e => exact .throw e
    | ok f => exact h t f ht (TypeInfo.mem_of_resolve hf)

variable [hI : Machine.Sealing κ I]
include hI

namespace Exec

/-- A value is produced in the caller's storage or in new storage. -/
theorem spares_produce (type : TypeId) (l : Layout) (destructor : Option Destructor)
    (hret : κ.Free ret) {init : Place → Exec ε Unit}
    (hinit : ∀ place, place.block ≠ κ.block → Maintains I w (init place) fun _ => True) :
    Maintains I w (produce type l destructor ret init) κ.Apart := by
  cases ret with
  | some place => exact (hinit place (hret place rfl)).andThen fun _ => .pure κ.apart_none
  | none =>
    refine (spares_allocate l).bind fun place hplace =>
      (hinit place hplace).exec_attempt.bind fun outcome _ => ?_
    cases outcome with
    | ok u =>
      refine (spares_adopt type place l.size destructor).bind ?_
      rintro _ rfl
      refine .pure ?_
      rintro v ⟨⟩
      exact Seal.free_some hplace
    | error e => exact (spares_free hplace).andThen fun _ => .throw e

theorem spares_writeLeaves {place : Place} (h : place.block ≠ κ.block) (leaves : List (Nat × Prim))
    (data : List Atom) :
    Maintains I w (modifyMemory (·.writeLeaves place leaves data) : Exec ε Unit) fun _ => True :=
  .modifyMemory fun m =>
    ⟨m.block_writeLeaves_of_ne _ _ h, Nat.le_of_eq (m.next_writeLeaves _ _ _).symm⟩

theorem spares_giveBack (shape : Shape) (destructor : Option Destructor) (hret : κ.Free ret)
    (data : List Atom) :
    Maintains I w (giveBack shape destructor ret data : Exec ε (Option Value)) κ.Apart :=
  spares_produce _ _ _ hret fun _ hplace => spares_writeLeaves hplace _ _

theorem spares_emit (note : Event) :
    Maintains I w (emit note : Exec ε Unit) fun _ => True :=
  .modify fun _ hm => Machine.Sealing.congr hm rfl (Nat.le_refl _) fun _ => rfl

theorem spares_dropResult {result : Option Value} (h : κ.Unowned result) :
    Maintains I w (result.forM drop : Exec ε Unit) fun _ => True := by
  cases result with
  | none => exact .pure trivial
  | some v => exact spares_drop (h v rfl)

end Exec

namespace NativeOp

theorem spares_takeData {index : Nat} (hargs : κ.Shuns args index) (shape : Shape) :
    Maintains I w (takeData shape args index) fun _ => True :=
  .look_changeArgument hargs fun _ hplace => (Maintains.looks looks_memory).andThen fun _ =>
    (spares_writeLeaves hplace _ _).andThen fun _ => .pure trivial

theorem spares_assign (hargs : κ.Shuns args 0) (shape : Shape) (destructor : Option Destructor)
    (data : List Atom) : Maintains I w (assign shape destructor args data) κ.Apart :=
  .look_changeArgument hargs fun _ hplace => (spares_destroy _ _).andThen fun _ =>
    (spares_writeLeaves hplace _ _).andThen fun _ => .pure κ.apart_none

theorem spares_run (op : NativeOp) (shape : Shape) (destructor : Option Destructor)
    (hargs : ∀ index ∈ op.changes, κ.Shuns args index) (hret : κ.Free ret) :
    Maintains I w (op.run shape destructor args ret) κ.Apart := by
  have hread : ∀ {α : Type} {R : α → Prop} (index : Nat) {f : List Atom → Exec CallError α},
      (∀ data, Maintains I w (f data) R) →
      Maintains I w (argumentData shape args index >>= f) R := fun index _ hf =>
    (Maintains.looks (looks_argumentData shape args index)).bind fun data _ => hf data
  have hgive : ∀ (s : Shape) (d : Option Destructor) (data : List Atom),
      Maintains I w (giveBack s d ret data : Exec CallError (Option Value)) κ.Apart :=
    fun s d data => spares_giveBack s d hret data
  unfold run
  cases op with
  | default => exact hgive _ _ _
  | moveConstruct =>
    exact (spares_takeData (hargs 0 (.head _)) shape).andThen fun _ => hgive _ _ _
  | moveAssign =>
    exact (spares_takeData (hargs 1 (.tail _ (.head _))) shape).andThen fun _ =>
      spares_assign (hargs 0 (.head _)) shape destructor _
  | copyConstruct => exact hread 0 fun _ => hgive _ _ _
  | copyAssign => exact hread 1 fun _ => spares_assign (hargs 0 (.head _)) shape destructor _
  | compare op => exact hread 0 fun _ => hread 1 fun _ => hgive _ _ _
  | arithmetic prim op =>
    refine hread 0 fun a => hread 1 fun b => ?_
    split
    · split
      · exact hgive _ _ _
      · exact .throw _
    · exact .throw _
  | concat =>
    refine hread 0 fun a => hread 1 fun b => ?_
    split <;> exact hgive _ _ _
  | largest =>
    refine hread 0 fun a => hread 1 fun b => ?_
    split <;> exact hgive _ _ _
  | twice =>
    refine hread 0 fun a => ?_
    split <;> exact hgive _ _ _
  | byteLength =>
    refine hread 0 fun a => ?_
    split <;> exact hgive _ _ _
  | startsWith =>
    refine hread 0 fun a => hread 1 fun b => ?_
    split <;> exact hgive _ _ _

end NativeOp

omit hI in
def Invoke.Compares (κ : Seal) (I : Machine → Prop) (w : Context) (invoke : Invoke) : Prop :=
  ∀ handle f args out, equality? (w.catalogue.info handle) = some f → κ.Withholds args →
    out.block ≠ κ.block → Maintains I w (invoke f args (some out)) κ.Unowned

variable {invoke : Invoke}

theorem Invoke.spares_equals (h : invoke.Compares κ I w) (handle : Handle) (a b : Place) :
    Maintains I w (equals invoke (w.catalogue.info handle) a b : Exec ε (Option Bool))
      fun _ => True := by
  unfold equals
  cases hf : equality? (w.catalogue.info handle) with
  | none => exact .pure trivial
  | some f =>
    refine (spares_allocate _).bind fun out hout => ?_
    refine (h handle f _ out hf (List.forall_mem_cons.mpr ⟨fun _ _ _ => rfl,
      List.forall_mem_singleton.mpr fun _ _ _ => rfl⟩) hout).exec_attempt.bind
        fun outcome houtcome => ?_
    refine (Maintains.looks looks_memory).andThen fun _ => (spares_free hout).andThen fun _ => ?_
    cases outcome with
    | error e => exact .pure trivial
    | ok v => exact (spares_dropResult (houtcome v rfl)).andThen fun _ => .pure trivial

namespace AggregateOp

theorem spares_build (whole : Aggregate) (hret : κ.Free ret)
    {init : Part → Place → Exec CallError Unit}
    (hinit : ∀ part place, place.block ≠ κ.block →
      Maintains I w (init part place) fun _ => True) :
    Maintains I w (build whole ret init) κ.Apart := by
  refine spares_produce _ _ _ hret fun target htarget => ?_
  induction whole.parts with
  | nil => exact .pure trivial
  | cons part rest ih =>
    exact (hinit part (target.shift part.offset) htarget).andThen fun _ => spares_orEnd _ _ ih

theorem spares_equalParts (h : invoke.Compares κ I w) (a b : Place) (parts : List Part) :
    Maintains I w (equalParts invoke a b parts) fun _ => True := by
  induction parts with
  | nil => exact .pure trivial
  | cons part rest ih =>
    refine .look_typeInfo ((Invoke.spares_equals h part.type _ _).bind fun equal _ => ?_)
    split
    · exact .throw _
    · exact .pure trivial
    · exact ih

theorem spares_compare (h : invoke.Compares κ I w) (whole : Aggregate) (expected : Bool)
    (hret : κ.Free ret) : Maintains I w (compare invoke whole expected args ret) κ.Apart := by
  unfold compare
  split
  · exact (spares_equalParts h _ _ _).andThen fun _ => spares_giveBack _ _ hret _
  · exact .throw _

variable (h : invoke.Builds κ I w)
include h

theorem spares_defaultPart (part : Part) {target : Place} (htarget : target.block ≠ κ.block) :
    Maintains I w (invoke.defaultPart part target) fun _ => True := by
  refine .look_typeInfo ?_
  cases part.default with
  | some j => exact (Invoke.spares_decodeAt h _ j htarget).exec_mapError _
  | none => exact Invoke.spares_defaultAt h htarget part.type

/-- Operations of aggregates construct their result elsewhere; one that moves parts out of its argument
is not handed the sealed block. -/
theorem spares_run (hcompares : invoke.Compares κ I w) (op : AggregateOp) (whole : Aggregate)
    (hret : κ.Free ret) (hmove : op = .move → κ.Free (args.head?.bind Value.place?)) :
    Maintains I w (op.run invoke whole args ret) κ.Apart := by
  unfold run
  cases op with
  | default => exact spares_build whole hret fun part _ hplace => spares_defaultPart h part hplace
  | copy =>
    refine (Maintains.looks (looks_source args)).bind fun src _ => ?_
    exact spares_build whole hret fun part _ hplace =>
      .look_typeInfo (Invoke.spares_copyAt h hplace part.type _)
  | move =>
    refine Maintains.look (S := fun src => src.block ≠ κ.block) (looks_source args) (fun m _ => ?_)
      fun src hsrc => spares_build whole hret fun part _ hplace => .look_typeInfo ?_
    · unfold source
      cases hplace : args.head?.bind Value.place? with
      | none => trivial
      | some place => exact hmove rfl place hplace
    · split
      · refine Invoke.spares_constructAt h hplace part.type (List.forall_mem_singleton.mpr ?_)
        intro place hpart hblock
        rw [Value.place?] at hpart
        cases hpart
        exact absurd hblock hsrc
      · exact Invoke.spares_copyAt h hplace part.type _
  | equal => exact spares_compare hcompares whole true hret
  | notEqual => exact spares_compare hcompares whole false hret

end AggregateOp

namespace HostFunction

variable {f : Function} {Q : Option Value → Prop} (hunowned : ∀ result, Q result → κ.Unowned result)

theorem spares_produceResult (hret : κ.Free ret) {init : TypeInfo → Place → Exec CallError Unit}
    (hinit : ∀ handle place, place.block ≠ κ.block →
      Maintains I w (init (w.catalogue.info handle) place) fun _ => True) :
    Maintains I w (produceResult f ret init) κ.Apart := by
  refine Maintains.look (S := fun t => ∃ handle, t = w.catalogue.info handle) (looks_resultType f)
    (fun m _ => ?_) ?_
  · simp only [resultType, Ensures.bind_iff, Ensures.exec_catalogue_iff]
    cases ht : f.result.bind fun r => w.catalogue.lookup? r.type with
    | none => trivial
    | some t =>
      obtain ⟨r, -, hr⟩ := Option.bind_eq_some_iff.mp ht
      obtain ⟨handle, -, rfl⟩ := Option.map_eq_some_iff.mp hr
      exact ⟨handle, rfl⟩
  · rintro _ ⟨handle, rfl⟩
    exact spares_produce _ _ _ hret fun place hplace => hinit handle place hplace

include hunowned

theorem spares_settle (hapart : ∀ result, κ.Apart result → Q result) (hret : κ.Free ret)
    {result : Option Value} (hresult : Q result) : Maintains I w (settle ret result) Q := by
  unfold settle
  split
  · rename_i place v
    refine (spares_relocate (hunowned _ hresult v rfl) (hret place rfl)).bind fun moved _ => ?_
    cases moved with
    | true => exact .pure (hapart none κ.apart_none)
    | false => exact .pure hresult
  · exact .pure hresult

theorem spares_report {outcome : Except CallError (Option Value)}
    (hresult : ∀ result, outcome = .ok result → Q result) :
    Maintains I w (report outcome) fun _ => True := by
  cases outcome with
  | error e => exact spares_emit _
  | ok result =>
    exact (spares_emit _).andThen fun _ => spares_dropResult (hunowned _ (hresult result rfl))

theorem spares_run (h : invoke.Builds κ I w) (hapart : ∀ result, κ.Apart result → Q result)
    (host : HostFunction) (hret : κ.Free ret)
    (hshuns : ∀ index amount, host.outcome = .increment index amount → κ.Shuns args index)
    (hview : ∀ index r v, host.outcome = .argument index → f.result = some r →
      args[index]? = some v → Q (some (v.view r.form)))
    (hback : ∀ type name, host.outcome = .callback type name ∨
      (∃ message, host.outcome = .tryCallback type name message) →
      Maintains I w (invoke.callNamed type name args) Q) :
    Maintains I w (host.run invoke f args ret) Q := by
  have hsource : ∀ {α : Type} {R : α → Prop} {index : Nat} {k : Place → Exec CallError α},
      (∀ place, Maintains I w (k place) R) →
      Maintains I w (argumentPlace args index >>= k) R := fun hk =>
    (Maintains.looks (looks_argumentPlace args _)).bind fun place _ => hk place
  have hnone : Q none := hapart none κ.apart_none
  have hperform : Maintains I w (host.perform invoke f args ret) Q := by
    unfold perform
    cases houtcome : host.outcome with
    | nothing => exact .pure hnone
    | decoded j =>
      exact (spares_produceResult hret fun _ _ hplace =>
        Invoke.spares_decodeAt h _ j hplace).mono hapart
    | owned j =>
      exact (spares_produceResult κ.free_none fun _ _ hplace =>
        Invoke.spares_decodeAt h _ j hplace).mono hapart
    | copy index =>
      exact hsource fun source => (spares_produceResult hret fun handle _ hplace =>
        Invoke.spares_copyAt h hplace handle source).mono hapart
    | zeroed =>
      exact (spares_produceResult hret fun _ place hplace => .modifyMemory fun m =>
        ⟨m.block_modifyBlock_of_ne _ hplace, Nat.le_refl m.next⟩).mono hapart
    | bytes index =>
      exact hsource fun source => (spares_produceResult hret fun _ place hplace =>
        spares_transfer source _ hplace).mono hapart
    | fail message => exact .throw _
    | null =>
      dsimp only
      split
      · refine .pure (hapart _ ?_)
        rintro v ⟨⟩ place hplace
        cases hplace
      · exact .pure hnone
    | argument index =>
      dsimp only
      split
      · rename_i r v hr hv
        exact .pure (hview index r v houtcome hr hv)
      · exact .pure hnone
    | readInt index =>
      exact (Maintains.looks (NativeOp.looks_argumentData _ args index)).andThen fun _ =>
        (spares_giveBack _ _ hret _).mono hapart
    | increment index amount =>
      refine .look_changeArgument (hshuns index amount houtcome) fun place hplace =>
        (Maintains.looks looks_memory).andThen fun _ => ?_
      split
      · exact Maintains.andThen (.modifyMemory fun m =>
          ⟨m.block_write_of_ne _ _ hplace, Nat.le_refl m.next⟩) fun _ => .pure hnone
      · exact .pure hnone
    | count =>
      exact Maintains.andThen (fun m hm =>
        ⟨Machine.Sealing.congr hm rfl (Nat.le_refl _) fun _ => rfl, trivial⟩) fun _ =>
          (spares_giveBack _ _ hret _).mono hapart
    | world =>
      exact fun m hm => ⟨Machine.Sealing.congr hm rfl (Nat.le_refl _) fun _ => rfl, hnone⟩
    | stack =>
      exact fun m hm => ⟨Machine.Sealing.congr hm rfl (Nat.le_refl _) fun _ => rfl, hnone⟩
    | callback type name =>
      exact (hback type name (.inl houtcome)).bind fun _ hresult =>
        spares_settle hunowned hapart hret hresult
    | tryCallback type name message =>
      refine (hback type name (.inr ⟨message, houtcome⟩)).exec_attempt.bind fun outcome hoc => ?_
      refine (spares_report hunowned hoc).andThen fun _ => ?_
      split
      · exact .throw _
      · exact .pure hnone
  unfold run
  split
  · exact (Maintains.looks (.mapM looks_document args)).andThen fun _ =>
      (spares_emit _).andThen fun _ => hperform
  · exact hperform

end HostFunction

end Flowscript
