import Flowscript.Proofs.Machine.NativeWrites
import Flowscript.Proofs.Run.SealKeepingCalls

/-! # Constant data

Operations on primitive data change arguments of a form that allows it and no others; results are
constructed in storage of their own or of the caller. So the functions that come with types leave alone
what they were handed as constant, and those of the host do unless they hand it out again to be changed.

References into a block that was lent as constant get to slots of sheltered pins, and to the inputs that
draw on these. No data is changed through such an input, so a function that it belongs to is handed the
block as constant only.
-/
namespace Flowscript

open Exec

variable {ε : Type} {κ : Seal} {callable : Function → Prop} {w : Context} {args : List Value}
  {ret : Option Place}

/-- Native code that may be relied on to leave constant data as they are: it neither writes to the block
if it is handed the block as constant only, nor hands it out to be changed; it may call functions that
do the same. -/
def Native.Spares (κ : Seal) (callable : Function → Prop) (w : Context) (native : Native) : Prop :=
  ∀ invoke, invoke.Spares κ callable w → ∀ f args ret, callable f →
    f.check (args.map Value.argument) = .ok () → κ.Withholds args → κ.Free ret →
    Maintains (Machine.Intact κ) w (native invoke f args ret) (f.Yields κ)

/-- What is called by that name can be called, does not change what it takes by value, and gives back as
constant what `f` does not give back to be changed. -/
def Context.Relays (callable : Function → Prop) (w : Context) (f : Function) (type : TypeId)
    (name : String) : Prop :=
  ∀ t g, w.catalogue.lookup? type = some t → g ∈ t.overloads (.ofName name) →
    callable g ∧ w.GuardsCopies g ∧ ∀ r, g.result = some r → r.form.isMutable = false →
      ∃ r', f.result = some r' ∧ r'.form.isMutable = false

/-- A function of the host does not hand out constant arguments to be changed. -/
def HostFunction.Discreet (callable : Function → Prop) (w : Context) (f : Function)
    (h : HostFunction) : Prop :=
  match h.outcome with
  | .argument index => ∀ q r, f.params[index]? = some q → q.form.spares = true →
      f.result = some r → r.form.isMutable = false
  | .callback type name => w.Relays callable f type name
  | .tryCallback type name _ => w.Relays callable f type name
  | _ => True

/-- Nor is an aggregate declared to take as constant what it moves from. -/
def Function.Discreet (callable : Function → Prop) (w : Context) (f : Function) : Prop :=
  match f.body with
  | .aggregate .move _ => ∀ q, f.params[0]? = some q → q.form.spares = false
  | .host h => h.Discreet callable w f
  | _ => True

namespace HostFunction

variable {invoke : Invoke} (h : invoke.Spares κ callable w) (hw : w.Sparing callable) {f : Function}
include h hw

/-- What a call by name gives back, a function that relays may give back, too. -/
theorem spares_relayed {type : TypeId} {name : String} (hrelays : w.Relays callable f type name)
    (hargs : κ.Withholds args) :
    Maintains (Machine.Intact κ) w (invoke.callNamed type name args) (f.Yields κ) := by
  refine .callNamed fun t g ht hg => ?_
  obtain ⟨hcallable, hcopies, hconstant⟩ := hrelays t g ht hg
  refine (h g args none hcallable (hw.entrusts hcallable hcopies hargs) κ.free_none).mono
    fun result hyields v place hv hplace hblock => ?_
  obtain ⟨howning, r, hr, hform⟩ := hyields v place hv hplace hblock
  exact ⟨howning, hconstant r hr hform⟩

theorem spares_discreet (host : HostFunction) (hdiscreet : host.Discreet callable w f)
    (hcheck : f.check (args.map Value.argument) = .ok ()) (hargs : κ.Withholds args)
    (hret : κ.Free ret) :
    Maintains (Machine.Intact κ) w (host.run invoke f args ret) (f.Yields κ) := by
  unfold Discreet at hdiscreet
  refine spares_run (fun _ hresult => hresult.unowned) (h.builds hw) (fun _ hresult => hresult.yields f)
    host hret (fun index _ _ => hargs.shuns index) (fun index r v houtcome hr hv => ?_)
    fun type name houtcome => spares_relayed h hw ?_ hargs
  · rw [houtcome] at hdiscreet
    rintro u place ⟨⟩ hplace hblock
    rw [Value.place?_view] at hplace
    obtain ⟨q, hq, haccepts⟩ := Function.accepts_of_check hcheck hv
    have hspares := Form.spares_of_accepts haccepts
      (hargs v (List.mem_of_getElem? hv) place hplace hblock)
    exact ⟨Value.isOwning_view v r.form, r, hr, hdiscreet q r hq hspares hr⟩
  · rcases houtcome with houtcome | ⟨message, houtcome⟩ <;> rwa [houtcome] at hdiscreet

end HostFunction

/-- The functions that come with types and those of the host leave constant data as they are, as long as
what they are declared as does not contradict it, and values can be compared. -/
theorem Native.spares_builtin (hw : w.Sparing callable)
    (hdiscreet : ∀ f, callable f → f.Discreet callable w)
    (hequal : ∀ handle f, Invoke.equality? (w.catalogue.info handle) = some f →
      callable f ∧ w.GuardsCopies f) :
    Native.builtin.Spares κ callable w := by
  intro invoke h f args ret hcallable hcheck hargs hret
  have hf := hdiscreet f hcallable
  unfold Function.Discreet at hf
  unfold builtin
  cases hbody : f.body with
  | native op shape destructor =>
    exact (op.spares_run shape destructor (fun index _ => hargs.shuns index) hret).mono
      fun _ hr => hr.yields f
  | aggregate op whole =>
    have hcompares : invoke.Compares κ (Machine.Intact κ) w := fun handle g args' out hg hargs' hout =>
      have ⟨hcallable', hcopies⟩ := hequal handle g hg
      (h g args' (some out) hcallable' (hw.entrusts hcallable' hcopies hargs')
        (Seal.free_some hout)).mono fun _ hresult => hresult.unowned
    refine (AggregateOp.spares_run (h.builds hw) hcompares op whole hret ?_).mono
      fun _ hr => hr.yields f
    -- A moved argument's parameter would not take it as constant.
    rintro rfl place hplace hblock
    rw [hbody] at hf
    obtain ⟨v, hv, hplace⟩ := Option.bind_eq_some_iff.mp hplace
    rw [List.head?_eq_getElem?] at hv
    obtain ⟨q, hq, haccepts⟩ := Function.accepts_of_check hcheck hv
    have hspares := Form.spares_of_accepts haccepts
      (hargs v (List.mem_of_getElem? hv) place hplace hblock)
    rw [hf q hq] at hspares
    cases hspares
  | host host =>
    rw [hbody] at hf
    exact HostFunction.spares_discreet h hw host hf hcheck hargs hret
  | script number => exact .throw _

end Flowscript

namespace Flowscript

variable {κ : Seal} {callable : Function → Prop} {sc : Scope} {invoke : Invoke}

structure Scope.Sparing (κ : Seal) (callable : Function → Prop) (sc : Scope) (invoke : Invoke) :
    Prop where
  invoke : invoke.Spares κ callable sc.context
  context : sc.context.Sparing callable
  program : sc.program.Sparing callable
  this : κ.Free sc.this

theorem Scope.Sparing.fitsForms (h : sc.Sparing κ callable invoke) {id : NodeId} {n : ProgramNode}
    (hn : sc.program.node? id = some n) : sc.program.FitsForms n :=
  have ⟨_, _, _, hedited, hcompile⟩ := h.program.compiled
  Program.fitsForms_of_compile hedited hcompile hn

/-- The seal is intact; the frame has other blocks, and refers into this one where it is sheltered. -/
abbrev Activation.Intact (κ : Seal) (sc : Scope) : Activation → Prop :=
  Activation.Bears κ (Machine.Intact κ) sc.program.Shelters

def Program.Draws (p : Program) (id : PinId) : Prop := ∃ o, p.Source id o ∧ p.Shelters o

theorem Program.Draws.not_changes {p : Program} {id : PinId} (h : p.Draws id) : ¬ p.Changes id :=
  fun hchanges => have ⟨_, hsource, hshelters⟩ := h; hshelters id hchanges hsource

/-- Arguments that lie in the sealed block are constant, and so are their parameters. -/
def Run.ConstantArguments (κ : Seal) (pins : List (Param × PinId)) (args : List Value) : Prop :=
  List.Forall₂ (fun x v => κ.Only (v.form.isMutable = false ∧ x.1.form.isMutable = false) v.place?)
    pins args

theorem Run.ConstantArguments.entrusts {w : Context} {f : Function} {ids : List PinId}
    {args : List Value} (hargs : ConstantArguments κ (f.params.zip ids) args)
    (hw : w.Sparing callable) (hf : callable f) : w.Entrusts κ f args := by
  have hat : ∀ (i : Nat) (v : Value) (place : Place), args[i]? = some v → v.place? = some place →
      place.block = κ.block →
      v.form.isMutable = false ∧ ∀ q : Param, f.params[i]? = some q → q.form.isMutable = false := by
    intro i v place hv hplace hblock
    obtain ⟨hlt, rfl⟩ := List.getElem?_eq_some_iff.mp hv
    have hlt' : i < (f.params.zip ids).length := hargs.length_eq ▸ hlt
    obtain ⟨hconstant, hparam⟩ := (List.forall₂_iff_get.mp hargs).2 i hlt' hlt place hplace hblock
    refine ⟨hconstant, fun q hq => ?_⟩
    obtain ⟨_, rfl⟩ := List.getElem?_eq_some_iff.mp hq
    rwa [List.get_eq_getElem, List.getElem_zip] at hparam
  refine ⟨fun v hv place hplace hblock => ?_, fun i v q place hv hq hplace hblock _ =>
    hw.guards hf hq ((hat i v place hv hplace hblock).2 q hq)⟩
  obtain ⟨i, hi⟩ := List.mem_iff_getElem?.mp hv
  exact (hat i v place hi hplace hblock).1

namespace Scope.Sparing

variable (h : sc.Sparing κ callable invoke) {n : ProgramNode} {nid : NodeId}
  (hn : sc.program.node? nid = some n) {f : Function} (hop : n.op = .call f)
include h hn hop

theorem changes_of_call {x : Param × PinId} (hx : x ∈ f.params.zip n.dataIn)
    (hlends : x.1.form.lends = true) : sc.program.Changes x.2 := by
  have hfits := h.fitsForms hn
  rw [Program.FitsForms, hop] at hfits
  refine ⟨nid, n, x.1.form, hn, ?_, (List.of_mem_zip hx).2, hfits.1 x hx, hlends⟩
  rw [hop]
  rintro ⟨⟩

theorem constant_of_lent {args : List Value}
    (hargs : Run.Lent κ sc.program.Draws (f.params.zip n.dataIn) args) :
    Run.ConstantArguments κ (f.params.zip n.dataIn) args := by
  refine List.forall₂_iff_zip.mpr ⟨hargs.length_eq, fun {x v} hxv place hplace hblock => ?_⟩
  obtain ⟨hform, howning, hdraws⟩ := (List.forall₂_iff_zip.mp hargs).2 hxv place hplace hblock
  have hconstant : x.1.form.isMutable = false := by
    refine Form.constant_of_not_lends ?_ howning
    by_contra hlends
    exact hdraws.not_changes
      (h.changes_of_call hn hop (List.of_mem_zip hxv).1 (Bool.not_eq_false _ ▸ hlends))
  exact ⟨hform ▸ hconstant, hconstant⟩

theorem answers :
    sc.Answers κ (Machine.Intact κ) sc.program.Shelters sc.program.Draws invoke n f := by
  intro args ret hargs hret
  have hcallable := h.program.calls nid n f hn hop
  have hentrusts := (h.constant_of_lent hn hop hargs).entrusts h.context hcallable
  refine (h.invoke f args ret hcallable hentrusts hret).mono
    fun result hyields v hv place hplace hblock => ?_
  obtain ⟨howning, r, hr, hconstant⟩ := hyields v place hv hplace hblock
  refine ⟨howning, fun out hout => ?_⟩
  have hfits := h.fitsForms hn
  rw [Program.FitsForms, hop] at hfits
  obtain ⟨r', hr', hformOf⟩ := hfits.2 out (List.mem_of_mem_head? hout)
  rw [hr] at hr'
  cases hr'
  exact h.program.secure out r.form hformOf hconstant

end Scope.Sparing

theorem Scope.Sparing.custody (h : sc.Sparing κ callable invoke) :
    sc.Custody κ (Machine.Intact κ) sc.program.Shelters sc.program.Draws invoke where
  builds := h.invoke.builds h.context
  this := fun _ => h.this.only _
  world := by
    intro m hm id place hplace hblock
    obtain ⟨⟨type, _⟩, hworld, rfl⟩ := Option.map_eq_some_iff.mp hplace
    exact absurd hblock (hm.world sc.seat type _ hworld)
  output := fun _ o hsource hshelters => ⟨o, hsource, hshelters⟩
  reroute := fun _ _ hpasses ⟨o, hsource, hshelters⟩ => ⟨o, hpasses o hsource, hshelters⟩
  answers := fun _ _ _ hn _ hop => h.answers hn hop

end Flowscript
