import Flowscript.Proofs.Graph.RerouteChains
import Flowscript.Proofs.Run.SoundInputs

/-! # Where data may be changed

A node changes data through its inputs of a form that lends them to be changed: a reference or pointer
that is not constant. A pin is sheltered when no such input draws on it, at any distance. The outputs
of a constant form are sheltered if every link was accepted and no Reroute passes its data on by value;
a Reroute by value takes constant data, and passes them on to whatever wants to change them.
-/
namespace Flowscript

namespace Form

def lends : Form → Bool
  | .ref | .ptr => true
  | _ => false

/-- A parameter that takes constant data, and has to leave them as they are. -/
def spares : Form → Bool
  | .value | .constRef | .constPtr => true
  | _ => false

theorem lends_eq_false_of_spares {f : Form} (h : f.spares = true) : f.lends = false := by
  cases f <;> first | rfl | cases h

theorem spares_of_constant {f : Form} (h : f.isMutable = false) : f.spares = true := by
  cases f <;> first | rfl | cases h

/-- Only parameters that spare data take constant arguments. -/
theorem spares_of_accepts {f g : Form} (h : f.accepts g = true) (hg : g.isMutable = false) :
    f.spares = true := by
  cases g <;> first | (cases hg; done) | (cases f <;> first | rfl | cases h)

theorem constant_of_spares {f : Form} (h : f.spares = true) (hne : f ≠ .value) :
    f.isMutable = false := by
  cases f <;> first | rfl | (cases h; done) | exact absurd rfl hne

theorem constant_of_not_lends {f : Form} (h : f.lends = false) (howning : f.isOwning = false) :
    f.isMutable = false := by
  cases f <;> first | rfl | (cases h; done) | cases howning

end Form

namespace Program

def formOf (p : Program) (id : PinId) : Option Form := (p.pin? id).map (·.form)

def Changes (p : Program) (i : PinId) : Prop :=
  ∃ id n form, p.node? id = some n ∧ n.op ≠ .reroute ∧ i ∈ n.dataIn ∧ p.formOf i = some form ∧
    form.lends = true

/-- Nothing is changed through what a pin holds. -/
def Shelters (p : Program) (o : PinId) : Prop := ∀ i, p.Changes i → ¬ p.Source i o

/-- Whatever is handed out as constant stays as it is. -/
def Secure (p : Program) : Prop :=
  ∀ o form, p.formOf o = some form → form.isMutable = false → p.Shelters o

/-- An argument's data stay as they are: it is one that the entry shows, and what it shows is
sheltered. -/
def Guards (p : Program) (index : Nat) : Prop :=
  p.implicitArgs ≤ index ∧ ∀ n o, p.node? p.entry = some n →
    n.dataOut[index - p.implicitArgs]? = some o → p.Shelters o

def FitsForms (p : Program) (n : ProgramNode) : Prop :=
  match n.op with
  | .ret => ∀ h form, p.result = some (h, form) → ∀ id, n.dataIn[0]? = some id →
    p.formOf id = some form
  | .call f => (∀ x ∈ f.params.zip n.dataIn, p.formOf x.2 = some x.1.form) ∧
    ∀ out ∈ n.dataOut, ∃ r, f.result = some r ∧ p.formOf out = some r.form
  | .fieldSet .. => ∀ id, n.dataIn[0]? = some id → p.formOf id = some .ref
  | _ => True

open Flowscript.Graph

variable {g : Graph} {c : Catalogue} {p : Program}

theorem Assembled.formOf (ha : Assembled g c p) {id : PinId} {q : Pin} (hq : g.pin? id = some q)
    {type : String} {form : Form} (ht : q.type = .data type form) : p.formOf id = some form := by
  obtain ⟨pp, hpp, hstands⟩ := ha.exists_pin hq
  rw [Program.formOf, hpp, Option.map_some, hstands.form type form ht]

section Nodes

variable (ha : Assembled g c p) (hn : g.Numbered) (hg : g.Consistent) {n : Node}
  (hnode : g.node? n.id = some n) (hchecked : g.NodeChecked c n) {specs : List PinSpec}
  (hspecs : n.kind.expectedPins g.signature c = .ok specs)
include ha hn hg hnode hchecked hspecs

theorem Assembled.forms_toward (direction : Direction) :
    List.Forall₂ (fun s id => ∀ type form, s.type = .data type form → p.formOf id = some form)
      (specsToward specs direction false) ((g.pinsToward n.id direction false).map (·.id)) := by
  refine (pins_toward hn hg hnode hchecked hspecs direction).imp ?_
  rintro s id ⟨q, hq, hsame⟩ type form hs
  exact ha.formOf hq (hsame.trans hs)

theorem Assembled.formOf_of_specs {direction : Direction} {i : Nat} {id : PinId} {s : PinSpec}
    {type : String} {form : Form} (hs : (specsToward specs direction false)[i]? = some s)
    (htype : s.type = .data type form)
    (hid : ((g.pinsToward n.id direction false).map (·.id))[i]? = some id) :
    p.formOf id = some form := by
  have hforms := ha.forms_toward hn hg hnode hchecked hspecs direction
  obtain ⟨hlt, hs⟩ := List.getElem?_eq_some_iff.mp hs
  obtain ⟨hlt', hid⟩ := List.getElem?_eq_some_iff.mp hid
  have h := (List.forall₂_iff_get.mp hforms).2 i hlt hlt'
  rw [List.get_eq_getElem, List.get_eq_getElem, hs, hid] at h
  exact h type form htype

omit hspecs in
theorem fitsForms_of_checked {pn : ProgramNode} (hpn : compileNode g c n = .ok pn) :
    p.FitsForms pn := by
  obtain ⟨op, hop, rfl⟩ := compileNode_eq hpn
  obtain ⟨specs, hspecs, -⟩ := hchecked.fitting
  have hforms := fun direction => ha.forms_toward hn hg hnode hchecked hspecs direction
  have hform : ∀ {direction : Direction} {i : Nat} {id : PinId} {s : PinSpec} {type : String}
      {form : Form}, (specsToward specs direction false)[i]? = some s → s.type = .data type form →
      ((g.pinsToward n.id direction false).map (·.id))[i]? = some id → p.formOf id = some form :=
    fun hs ht hid => ha.formOf_of_specs hn hg hnode hchecked hspecs hs ht hid
  have hop := opOf_eq_ok_iff.mp hop
  generalize n.kind = kind at hop hspecs
  cases hop with
  | entry | branch | forLoop | whileLoop | comment | reroute | fieldGet => trivial
  | fieldSet haccess =>
    obtain ⟨⟨info, name⟩, -, hspecs⟩ := bind_eq_ok_iff.mp hspecs
    cases hspecs
    exact fun id hid => hform rfl rfl hid
  | ret =>
    cases hspecs
    intro h form hresult id hid
    obtain ⟨r, hr, -, rfl⟩ := ha.resultType h form hresult
    refine hform (s := PinSpec.dataIn Function.resultName r.type r.form) ?_ rfl hid
    rw [specsToward_append, hr]
    cases g.signature.pure <;> rfl
  | @call _ _ _ f hresolve =>
    obtain ⟨f', hf, hspecs⟩ := bind_eq_ok_iff.mp hspecs
    rw [hresolve] at hf
    cases hf
    obtain ⟨hparams, hresult⟩ := specs_of_callPins hspecs
    refine ⟨fun x hx => ?_, fun out hout => ?_⟩
    · refine (List.forall₂_iff_zip (R := fun (q : Param) id => p.formOf id = some q.form).mp
        (List.forall₂_iff_get.mpr ⟨hparams.length_eq.trans (hforms .input).length_eq,
          fun i hi hi' => ?_⟩)).2 hx
      obtain ⟨name, -, hdata⟩ := (List.forall₂_iff_get.mp hparams).2 i hi (hparams.length_eq ▸ hi)
      exact (List.forall₂_iff_get.mp (hforms .input)).2 i (hparams.length_eq ▸ hi) hi' _ _ hdata
    · rcases hresult with hnone | ⟨r, s, name, hr, -, hdata, hone⟩
      · have hlen := (hforms .output).length_eq
        rw [hnone] at hlen
        rw [List.length_eq_zero_iff.mp hlen.symm] at hout
        cases hout
      · have hone' := hforms .output
        rw [hone] at hone'
        obtain ⟨id, rest, hid, hnil, hids⟩ := List.forall₂_cons_left_iff.mp hone'
        rw [hids, List.forall₂_nil_left_iff.mp hnil, List.mem_singleton] at hout
        exact ⟨r, hr, hout ▸ hid name r.form hdata⟩

end Nodes

theorem exists_reroute_of_opOf {n : Node} (h : opOf c n = .ok .reroute) : ∃ type, n.kind = .reroute type := by
  have h := opOf_eq_ok_iff.mp h
  generalize n.kind = kind at h ⊢
  cases h with
  | reroute => exact ⟨_, rfl⟩

section Compiled

variable {s : Setting} (hedited : g.Edited) (h : compile g c s = .ok p)
include hedited h

theorem fitsForms_of_compile {id : NodeId} {n : ProgramNode} (hn : p.node? id = some n) :
    p.FitsForms n := by
  obtain ⟨-, ha⟩ := assembled_of_compile hedited.consistent h
  obtain ⟨n', hn', -, hchecked, hcompile⟩ := exists_compiled hedited.consistent h hn
  exact fitsForms_of_checked ha hedited.numbered hedited.consistent hn' hchecked hcompile

theorem entry_forms_of_compile {n : ProgramNode} (hn : p.node? p.entry = some n) :
    List.Forall₂ (fun q id => p.formOf id = some q.form) g.signature.params n.dataOut := by
  obtain ⟨-, ha⟩ := assembled_of_compile hedited.consistent h
  obtain ⟨n', hn', hid, hchecked, hcompile⟩ := exists_compiled hedited.consistent h hn
  obtain ⟨op, -, rfl⟩ := compileNode_eq hcompile
  obtain ⟨entry, hentry, hid'⟩ := ha.entry
  obtain ⟨hlive, hkind⟩ := List.mem_filter.mp hentry
  have hsame := node?_of_mem_live hedited.consistent hlive
  rw [← hid', ← hid, hn'] at hsame
  cases hsame
  have hforms := ha.forms_toward hedited.numbered hedited.consistent hn' hchecked
    (by rw [eq_of_beq hkind]; rfl) .output
  have hspecs : specsToward ((if g.signature.pure then [] else [PinSpec.flowOut "Then"]) ++
      g.signature.params.map fun q => .dataOut q.name q.type q.form) .output false =
      g.signature.params.map fun q => .dataOut q.name q.type q.form := by
    rw [specsToward_append]
    have hdata : specsToward (g.signature.params.map fun q => .dataOut q.name q.type q.form) .output
        false = g.signature.params.map fun q => .dataOut q.name q.type q.form := by
      refine List.filter_eq_self.mpr fun spec hspec => ?_
      obtain ⟨q, -, rfl⟩ := List.mem_map.mp hspec
      rfl
    rw [hdata]
    cases g.signature.pure <;> rfl
  rw [hspecs] at hforms
  exact (List.forall₂_map_left_iff.mp hforms).imp fun q id hq => hq q.type q.form rfl

theorem accepts_of_compile {i o : PinId} {q : ProgramPin} {form : Form} (hq : p.pin? i = some q)
    (ho : q.source = some o) (hform : p.formOf o = some form) :
    ∃ form', p.formOf i = some form' ∧ form'.accepts form = true := by
  obtain ⟨hfindings, ha⟩ := assembled_of_compile hedited.consistent h
  obtain ⟨-, -, hlinks, -, -⟩ := findings_eq_nil_iff.mp hfindings
  obtain ⟨q', hpin, -, hlinked⟩ := ha.pin_of i q hq
  obtain ⟨l, hl, hinput, rfl, hflow⟩ := hlinked.source o ho
  obtain ⟨output, input, hout, hin, -, -, hjoins⟩ := hlinks l hl
  rw [hout] at hflow
  have hin' : g.pin? i = some input := by rw [← PinId.ext hinput]; exact hin
  cases hot : output.type with
  | flow => rw [Option.any_some, Pin.isFlow, hot] at hflow; cases hflow
  | data outType outForm =>
    cases hit : input.type with
    | flow => rw [hot, hit] at hjoins; exact hjoins.elim
    | data inType inForm =>
      rw [hot, hit] at hjoins
      rw [ha.formOf hout hot] at hform
      cases hform
      exact ⟨inForm, ha.formOf hin' hit, hjoins.2⟩

variable (hreroutes : ∀ n ∈ g.liveNodes, ∀ type, n.kind ≠ .reroute (.data type .value))
include hreroutes

theorem form_of_reroute {j o : PinId} {r : ProgramPin} {n : ProgramNode} {form : Form} (hr : p.pin? o = some r)
    (hpn : p.node? r.node = some n) (hop : n.op = .reroute) (hj : n.dataIn[0]? = some j)
    (hform : p.formOf j = some form) : p.formOf o = some form ∧ form ≠ .value := by
  have hn := hedited.numbered
  have hg := hedited.consistent
  obtain ⟨-, ha⟩ := assembled_of_compile hg h
  obtain ⟨n', hn', hid, hchecked, hcompile⟩ := exists_compiled hg h hpn
  obtain ⟨op, hop', rfl⟩ := compileNode_eq hcompile
  obtain rfl : op = .reroute := hop
  obtain ⟨type, hkind⟩ := exists_reroute_of_opOf hop'
  obtain ⟨q, hq, rfl⟩ := List.mem_map.mp (List.mem_of_getElem? hj)
  obtain ⟨hmem, -, hdata⟩ := mem_pinsToward_iff.mp hq
  have htype := hchecked.type_of_reroute hkind hmem
  obtain ⟨output, hout, hstands, -⟩ := ha.pin_of o r hr
  have hown := mem_nodePins_of_pin? hn hg hout
  rw [← hstands.node, ← hid] at hown
  have htype' := hchecked.type_of_reroute hkind hown
  cases type with
  | flow => rw [Pin.isFlow, htype] at hdata; cases hdata
  | data name form' =>
    rw [ha.formOf ((mem_nodePins_iff hn hg hn').mp hmem).1 htype] at hform
    cases hform
    refine ⟨ha.formOf hout htype', ?_⟩
    rintro rfl
    exact hreroutes n' (mem_live_iff.mpr ⟨n'.id.val, hn'⟩) name hkind

/-- Whatever draws on a constant output, through Reroutes or not, spares its data. -/
theorem spares_of_source {i o : PinId} (hsource : p.Source i o) {form : Form} (hform : p.formOf o = some form)
    (hconstant : form.isMutable = false) : ∃ form', p.formOf i = some form' ∧ form'.spares = true := by
  induction hsource with
  | unlinked hq hnone => exact ⟨form, hform, Form.spares_of_constant hconstant⟩
  | output hq ho hr hpn hop =>
    obtain ⟨form', hform', haccepts⟩ := accepts_of_compile hedited h hq ho hform
    exact ⟨form', hform', Form.spares_of_accepts haccepts hconstant⟩
  | reroute hq ho hr hpn hop hj hk ih =>
    obtain ⟨between, hbetween, hspares⟩ := ih hform
    obtain ⟨hexit, hne⟩ := form_of_reroute hedited h hreroutes hr hpn hop hj hbetween
    obtain ⟨form', hform', haccepts⟩ := accepts_of_compile hedited h hq ho hexit
    exact ⟨form', hform', Form.spares_of_accepts haccepts (Form.constant_of_spares hspares hne)⟩

/-- Without Reroutes by value, a program of an edited graph is secure: what accepts a constant output
holds a copy or is constant itself, link by link. -/
theorem secure_of_compile : p.Secure := by
  rintro o form hform hconstant i ⟨id, n, lent, -, -, -, hlent, hlends⟩ hsource
  obtain ⟨form', hform', hspared⟩ := spares_of_source hedited h hreroutes hsource hform hconstant
  rw [hlent] at hform'
  cases hform'
  rw [Form.lends_eq_false_of_spares hspared] at hlends
  cases hlends

end Compiled

/-- The program was compiled from the graph that declares the function, and the graph was edited. -/
def Implements (p : Program) (f : Function) : Prop :=
  ∃ g c s worldType type number, Graph.Edited g ∧ compile g c s = .ok p ∧
    s.hasWorld = g.signature.event.isSome ∧
    s.thisType = (if g.signature.isStatic then none else some type) ∧
    f = Loader.functionOf worldType type g number

namespace Implements

variable {f : Function} (h : p.Implements f)
include h

theorem result : f.result.map (·.form) = p.result.map (·.2) := by
  obtain ⟨g, c, s, worldType, type, number, -, hp, -, -, rfl⟩ := h
  obtain ⟨-, -, hresult⟩ := of_compile hp
  cases hr : g.signature.result with
  | none =>
    rw [hr] at hresult
    simp [Loader.functionOf, hr, hresult]
  | some r =>
    rw [hr] at hresult
    obtain ⟨handle, -, hresult⟩ := hresult
    simp [Loader.functionOf, hr, hresult, Function.resultParam]

/-- The world and the owner of the function are lent to be changed; the other arguments are shown by the
entry in the forms of their parameters. -/
theorem form_of_param {i : Nat} {q : Param} (hq : f.params[i]? = some q) :
    q.form = .ref ∨ p.implicitArgs ≤ i ∧ ∀ n o, p.node? p.entry = some n →
      n.dataOut[i - p.implicitArgs]? = some o → p.formOf o = some q.form := by
  obtain ⟨g, c, s, worldType, type, number, hedited, hp, hworld, hthis, rfl⟩ := h
  obtain ⟨hpworld, hpthis, -⟩ := of_compile hp
  obtain ⟨implicit, hparams, hlength, hrefs⟩ : ∃ implicit : List Param,
      (Loader.functionOf worldType type g number).params =
        implicit ++ g.signature.params.map (fun q => ⟨q.name, .ofName q.type, q.form⟩) ∧
      implicit.length = p.implicitArgs ∧ ∀ q ∈ implicit, q.form = .ref := by
    refine ⟨_, rfl, ?_, ?_⟩
    · rw [implicitArgs, hpworld, hpthis, hworld, hthis]
      cases g.signature.event.isSome <;> cases g.signature.isStatic <;> rfl
    · cases g.signature.event.isSome <;> cases g.signature.isStatic <;> simp
  rw [hparams] at hq
  rcases Nat.lt_or_ge i p.implicitArgs with hlt | hge
  · rw [List.getElem?_append_left (hlength ▸ hlt)] at hq
    exact .inl (hrefs q (List.mem_of_getElem? hq))
  · rw [List.getElem?_append_right (hlength ▸ hge), hlength, List.getElem?_map] at hq
    obtain ⟨decl, hdecl, rfl⟩ := Option.map_eq_some_iff.mp hq
    refine .inr ⟨hge, fun n o hn ho => ?_⟩
    have hforms := entry_forms_of_compile hedited hp hn
    obtain ⟨hlt, hdecl⟩ := List.getElem?_eq_some_iff.mp hdecl
    obtain ⟨hlt', ho⟩ := List.getElem?_eq_some_iff.mp ho
    have hform := (List.forall₂_iff_get.mp hforms).2 _ hlt hlt'
    rwa [List.get_eq_getElem, List.get_eq_getElem, hdecl, ho] at hform

theorem guards (hsecure : p.Secure) {i : Nat} {q : Param} (hq : f.params[i]? = some q)
    (hconstant : q.form.isMutable = false) : p.Guards i := by
  rcases h.form_of_param hq with href | ⟨hle, hshown⟩
  · rw [href] at hconstant
    cases hconstant
  · exact ⟨hle, fun n o hn ho => hsecure o q.form (hshown n o hn ho) hconstant⟩

end Implements

end Program

end Flowscript
