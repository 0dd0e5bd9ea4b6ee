import Flowscript.Proofs.Run.PureFunctions

/-! # How the pins of a program are arranged

The outputs of a node are its own, and no node reads one of them as an input of its own. A call and a field
read have one output at most, which they fill, and no flow leads into them if they are expressions. Programs
of edited graphs are arranged like this.
-/
namespace Flowscript

/-- A call or a field read that is computed when its output is asked for. -/
def ProgramNode.IsExpression (n : ProgramNode) : Prop :=
  (∃ f, n.op = .call f ∧ n.pure = true) ∨ ∃ offset type, n.op = .fieldGet offset type

namespace Program

/-- Pins belong to the nodes that list them, and expressions fill their outputs. -/
structure Arranged (p : Program) : Prop where
  entry : ∀ n, p.node? p.entry = some n → n.op = .entry
  output : ∀ id n, p.node? id = some n → ∀ o ∈ n.dataOut, ∃ q, p.pin? o = some q ∧ q.node = id
  input : ∀ id n, p.node? id = some n → ∀ i ∈ n.dataIn, ∀ id' n', p.node? id' = some n' → i ∉ n'.dataOut
  call : ∀ id n f, p.node? id = some n → n.op = .call f → ∀ o ∈ n.dataOut, n.dataOut = [o] ∧
    ∃ r, f.result = some r
  field : ∀ id n offset type, p.node? id = some n → n.op = .fieldGet offset type →
    ∀ o ∈ n.dataOut, n.dataOut = [o]
  pure : ∀ id n, p.node? id = some n → n.IsExpression → n.pure = true
  flowless : ∀ id n, p.node? id = some n → n.IsExpression → n.flowIn = []

theorem Arranged.apart {p : Program} (h : p.Arranged) {id id' : NodeId} {n n' : ProgramNode}
    (hn : p.node? id = some n) (hn' : p.node? id' = some n') (hne : id ≠ id') :
    ∀ o ∈ n.dataOut, o ∉ n'.dataOut := by
  intro o ho ho'
  obtain ⟨q, hq, hid⟩ := h.output id n hn o ho
  obtain ⟨q', hq', hid'⟩ := h.output id' n' hn' o ho'
  rw [hq] at hq'
  cases hq'
  exact hne (hid.symm.trans hid')

open Flowscript.Graph

variable {g : Graph} {c : Catalogue} {p : Program}

theorem callPins_of_opOf {n : Node} {f : Function} (h : opOf c n = .ok (.call f)) {specs : List PinSpec}
    (hspecs : n.kind.expectedPins g.signature c = .ok specs) : NodeKind.callPins c f = .ok specs := by
  obtain ⟨type, function, signature, hkind, hresolve⟩ := exists_call_of_opOf h
  rwa [hkind, NodeKind.expectedPins, hresolve] at hspecs

theorem outputs_of_callPins {n : Node} (hchecked : g.NodeChecked c n) {f : Function} {specs : List PinSpec}
    (hspecs : n.kind.expectedPins g.signature c = .ok specs) (hcall : NodeKind.callPins c f = .ok specs)
    {o : PinId} (ho : o ∈ (g.pinsToward n.id .output false).map (·.id)) :
    (g.pinsToward n.id .output false).map (·.id) = [o] ∧ ∃ r, f.result = some r := by
  obtain ⟨-, hnone | ⟨r, s, type, hr, -, -, hone⟩⟩ := specs_of_callPins hcall
  · rw [pinsToward_eq_nil hchecked hspecs hnone] at ho
    cases ho
  · exact ⟨pinsToward_eq_singleton hchecked hspecs hone ho, r, hr⟩

theorem flowless_of_callPins {f : Function} {specs : List PinSpec} (h : NodeKind.callPins c f = .ok specs)
    (hpure : f.pure = true) : specsToward specs .input true = [] := by
  obtain ⟨args, result, hargs, rfl, hresult⟩ := callPins_eq h
  obtain ⟨-, hflow⟩ := length_specsToward_params hargs
  have hout : specsToward result .input true = [] := by
    obtain rfl | ⟨r, type, -, -, rfl⟩ := hresult <;> rfl
  simp only [hpure, if_true, specsToward_append, hflow, hout, List.append_nil]
  rfl

theorem exists_fieldGet_of_opOf {n : Node} {offset : Nat} {type : Handle}
    (h : opOf c n = .ok (.fieldGet offset type)) : ∃ owner field, n.kind = .fieldGet owner field := by
  have h := opOf_eq_ok_iff.mp h
  generalize n.kind = kind at h ⊢
  cases h with
  | fieldGet haccess => exact ⟨_, _, rfl⟩

section Compiled

variable {s : Setting} (hedited : g.Edited) (h : compile g c s = .ok p)
include hedited h

/-- A call has one output, for the result of a function that has one, and no flow if the function is pure. -/
theorem pins_of_call {id : NodeId} {pn : ProgramNode} {f : Function} (hpn : p.node? id = some pn)
    (hop : pn.op = .call f) :
    (∀ o ∈ pn.dataOut, pn.dataOut = [o] ∧ ∃ r, f.result = some r) ∧ (f.pure = true → pn.flowIn = []) := by
  obtain ⟨n, -, -, hchecked, hcompile⟩ := exists_compiled hedited.consistent h hpn
  obtain ⟨op, hop', rfl⟩ := compileNode_eq hcompile
  obtain rfl : op = .call f := hop
  obtain ⟨specs, hspecs, -⟩ := hchecked.fitting
  have hcall := callPins_of_opOf hop' hspecs
  exact ⟨fun o ho => outputs_of_callPins hchecked hspecs hcall ho,
    fun hpure => pinsToward_eq_nil hchecked hspecs (flowless_of_callPins hcall hpure)⟩

theorem pins_of_fieldGet {id : NodeId} {pn : ProgramNode} {offset : Nat} {type : Handle}
    (hpn : p.node? id = some pn) (hop : pn.op = .fieldGet offset type) :
    (∀ o ∈ pn.dataOut, pn.dataOut = [o]) ∧ pn.pure = true := by
  obtain ⟨n, hn, -, hchecked, hcompile⟩ := exists_compiled hedited.consistent h hpn
  obtain ⟨op, hop', rfl⟩ := compileNode_eq hcompile
  obtain rfl : op = .fieldGet offset type := hop
  obtain ⟨owner, field, hkind⟩ := exists_fieldGet_of_opOf hop'
  obtain ⟨specs, hspecs, -⟩ := hchecked.fitting
  have hpure := isPure_of_checked hn hchecked hspecs
  have hasked := hspecs
  rw [hkind] at hasked hpure
  obtain ⟨⟨info, name⟩, -, hasked⟩ := bind_eq_ok_iff.mp hasked
  cases hasked
  exact ⟨fun o ho => pinsToward_eq_singleton hchecked hspecs rfl ho, hpure⟩

theorem arranged_of_compile : p.Arranged where
  entry pn hpn := (assembled_of_compile hedited.consistent h).2.op_entry hedited.consistent hpn
  output id pn hpn o ho := pin_of_output hedited h hpn ho
  input id pn hpn i hi id' pn' hpn' := notMem_dataOut_of_input hedited h hpn hi hpn'
  call id pn f hpn hop := (pins_of_call hedited h hpn hop).1
  field id pn offset type hpn hop := (pins_of_fieldGet hedited h hpn hop).1
  pure id pn hpn hexpr := by
    obtain ⟨f, -, hpure⟩ | ⟨offset, type, hop⟩ := hexpr
    · exact hpure
    · exact (pins_of_fieldGet hedited h hpn hop).2
  flowless id pn hpn hexpr := by
    obtain ⟨f, hop, hpure⟩ | ⟨offset, type, hop⟩ := hexpr
    · exact (pins_of_call hedited h hpn hop).2 (pure_of_call hedited h hpn hop hpure)
    · have hsuits := (wellFormed_of_compile hedited h).suits id pn hpn
      rw [Suits, hop] at hsuits
      exact hsuits.1

end Compiled

end Program

end Flowscript
