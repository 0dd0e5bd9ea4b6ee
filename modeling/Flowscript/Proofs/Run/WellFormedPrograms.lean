import Mathlib.Data.Finset.Card
import Mathlib.Data.Finset.Range
import Flowscript.Proofs.Graph.CheckFindings
import Flowscript.Proofs.Graph.CycleSearch
import Flowscript.Proofs.Run.AssembledPrograms

/-! # Well-formed programs

A program is well-formed when everything its run looks up is there: pins and nodes under their numbers,
the pins that a node needs for what it does, nodes that can run where flow leads, and sources of data
that do not pull themselves. Programs of edited graphs are well-formed.
-/
namespace Flowscript

namespace Program

def IsData (p : Program) (id : PinId) : Prop := ∃ q h, p.pin? id = some q ∧ q.type = some h

def IsNamed (c : Catalogue) (p : Program) (id : PinId) (name : String) : Prop :=
  ∃ q h, p.pin? id = some q ∧ q.type = some h ∧ (c.info h).name = name

/-- A node has the pins it needs for what it does, and no others that would let it run or be read
where it cannot. -/
def Suits (c : Catalogue) (p : Program) (n : ProgramNode) : Prop :=
  match n.op with
  | .entry => n.flowIn = [] ∧ n.pure = false
  | .ret => n.pure = false ∧ (p.result.isSome → 0 < n.dataIn.length)
  | .call f => f.params.length ≤ n.dataIn.length ∧ (n.flowIn ≠ [] → 0 < n.flowOut.length)
  | .fieldGet .. => n.flowIn = [] ∧ 0 < n.dataIn.length ∧ 0 < n.dataOut.length
  | .fieldSet .. => n.dataOut = [] ∧ 1 < n.dataIn.length ∧ 0 < n.flowOut.length
  | .branch => n.pure = false ∧ 1 < n.flowOut.length ∧
    ∃ condition, n.dataIn[0]? = some condition ∧ p.IsNamed c condition "bool"
  | .forLoop => n.pure = false ∧ 1 < n.flowIn.length ∧ 1 < n.flowOut.length ∧ 0 < n.dataOut.length ∧
    ∃ start stop, n.dataIn[0]? = some start ∧ n.dataIn[1]? = some stop ∧
      p.IsNamed c start "i32" ∧ p.IsNamed c stop "i32"
  | .whileLoop => n.pure = false ∧ 1 < n.flowIn.length ∧ 1 < n.flowOut.length ∧
    ∃ condition, n.dataIn[0]? = some condition ∧ p.IsNamed c condition "bool"
  | .reroute => (n.dataOut ≠ [] → n.pure = true ∧ 0 < n.dataIn.length) ∧
    (n.flowIn ≠ [] → 0 < n.flowOut.length)
  | .comment => n.flowIn = [] ∧ n.dataOut = []

/-- Pulling one input means pulling another: an input of the expression that feeds it. -/
def Pulls (p : Program) (i j : PinId) : Prop :=
  ∃ q o r n, p.pin? i = some q ∧ q.source = some o ∧ p.pin? o = some r ∧ p.node? r.node = some n ∧
    n.pure = true ∧ j ∈ n.dataIn

structure WellFormed (c : Catalogue) (p : Program) : Prop where
  entry : ∃ n, p.node? p.entry = some n
  result : p.pure = true → ∃ id n, p.returnNode = some id ∧ p.node? id = some n ∧ n.op = .ret
  node_id : ∀ id n, p.node? id = some n → n.id = id
  suits : ∀ id n, p.node? id = some n → p.Suits c n
  flow : ∀ id n, p.node? id = some n → ∀ q ∈ n.flowOut, (p.pin? q).isSome
  data : ∀ id n, p.node? id = some n → ∀ q, q ∈ n.dataIn ∨ q ∈ n.dataOut → p.IsData q
  source : ∀ id q o, p.pin? id = some q → q.source = some o →
    ∃ r n, p.pin? o = some r ∧ p.node? r.node = some n ∧ o ∈ n.dataOut
  target : ∀ id q t, p.pin? id = some q → q.target = some t →
    ∃ r n, p.pin? t = some r ∧ p.node? r.node = some n ∧ t ∈ n.flowIn
  acyclic : ∀ id, ¬ Relation.TransGen p.Pulls id id

namespace WellFormed

variable {c : Catalogue} {p : Program}

open Classical in
noncomputable def height (p : Program) (id : PinId) : Nat :=
  ((Finset.range p.pins.size).filter fun k => Relation.TransGen p.Pulls id ⟨k + 1⟩).card

theorem height_le (p : Program) (id : PinId) : height p id ≤ p.pins.size := by
  classical
  refine (Finset.card_filter_le _ _).trans ?_
  rw [Finset.card_range]

theorem height_lt (h : p.WellFormed c) {i j : PinId} (hp : p.Pulls i j) :
    height p j < height p i := by
  classical
  refine Finset.card_lt_card ⟨fun k hk => ?_, fun hsub => ?_⟩
  · rw [Finset.mem_filter] at hk ⊢
    exact ⟨hk.1, .head hp hk.2⟩
  · obtain ⟨_, _, _, n, -, -, -, hn, -, hj⟩ := id hp
    obtain ⟨q, _, hq, -⟩ := h.data _ n hn j (.inl hj)
    have hb := slot?_bound hq
    have hj1 : (⟨j.val - 1 + 1⟩ : PinId) = j := by
      rw [Nat.sub_add_cancel hb.1]
    have hmem : j.val - 1 ∈ (Finset.range p.pins.size).filter
        fun k => Relation.TransGen p.Pulls i ⟨k + 1⟩ := by
      rw [Finset.mem_filter, Finset.mem_range, hj1]
      exact ⟨by omega, .single hp⟩
    have hback := hsub hmem
    rw [Finset.mem_filter, hj1] at hback
    exact h.acyclic j hback.2

end WellFormed

end Program

namespace Graph

def pinsToward (g : Graph) (id : NodeId) (direction : Direction) (flow : Bool) : List Pin :=
  (g.nodePins id).filter fun p => p.direction == direction && p.isFlow == flow

def specsToward (specs : List PinSpec) (direction : Direction) (flow : Bool) : List PinSpec :=
  specs.filter fun s => s.direction == direction && s.type.isFlow == flow

variable {g : Graph} {c : Catalogue}

theorem fits_toward {specs : List PinSpec} {pins : List Pin}
    (h : List.Forall₂ (fun s p => PinSpec.fits s p = true) specs pins) (direction : Direction)
    (flow : Bool) :
    List.Forall₂ (fun s p => PinSpec.fits s p = true) (specsToward specs direction flow)
      (pins.filter fun p => p.direction == direction && p.isFlow == flow) := by
  induction h with
  | nil => exact .nil
  | @cons s p specs pins hfit _ ih =>
    obtain ⟨hd, -, ht⟩ := PinSpec.fits_iff.mp hfit
    have hsame : (p.direction == direction && p.isFlow == flow) =
        (s.direction == direction && s.type.isFlow == flow) := by
      rw [Pin.isFlow, hd, ht]
    simp only [specsToward, List.filter_cons, hsame]
    split
    · exact .cons hfit ih
    · exact ih

theorem mem_pinsToward_iff {id : NodeId} {direction : Direction} {flow : Bool} {p : Pin} :
    p ∈ g.pinsToward id direction flow ↔
      p ∈ g.nodePins id ∧ p.direction = direction ∧ p.isFlow = flow := by
  simp only [pinsToward, List.mem_filter, Bool.and_eq_true, beq_iff_eq]

theorem mem_nodePins_iff (hn : g.Numbered) (hg : g.Consistent) {id : NodeId} {p : Pin} {n : Node}
    (hid : g.node? id = some n) :
    p ∈ g.nodePins id ↔ g.pin? p.id = some p ∧ InRange n p.id := by
  rw [nodePins, hid]
  exact mem_pinsOf_iff hn hg (hg.range id n hid).2

theorem mem_nodePins_of_pin? (hn : g.Numbered) (hg : g.Consistent) {id : PinId} {p : Pin}
    (hp : g.pin? id = some p) : p ∈ g.nodePins p.node := by
  obtain ⟨n, hnode, hrange⟩ := hg.pin_node id p hp
  rw [mem_nodePins_iff hn hg hnode, hg.pin_id id p hp]
  exact ⟨hp, hrange⟩

theorem specsToward_append (xs ys : List PinSpec) (direction : Direction) (flow : Bool) :
    specsToward (xs ++ ys) direction flow =
      specsToward xs direction flow ++ specsToward ys direction flow := List.filter_append xs ys

theorem specsToward_outputs (params : List ParamDecl) :
    specsToward (params.map fun q => .dataOut q.name q.type q.form) .input true = [] := by
  rw [specsToward, List.filter_eq_nil_iff]
  intro s hs
  obtain ⟨q, -, rfl⟩ := List.mem_map.mp hs
  exact Bool.false_ne_true

theorem length_specsToward_params {params : List Param} {args : List PinSpec}
    (h : params.mapM (fun p => do
      let type ← NodeKind.typeName c p.type
      Except.ok (PinSpec.dataIn p.name type p.form)) = .ok args) :
    (specsToward args .input false).length = params.length ∧ specsToward args .input true = [] := by
  induction params generalizing args with
  | nil =>
    cases h
    exact ⟨rfl, rfl⟩
  | cons p params ih =>
    rw [List.mapM_cons] at h
    obtain ⟨s, hs, h⟩ := bind_eq_ok_iff.mp h
    obtain ⟨rest, hrest, h⟩ := bind_eq_ok_iff.mp h
    obtain ⟨type, -, hs⟩ := bind_eq_ok_iff.mp hs
    cases h
    cases hs
    obtain ⟨hlen, hflow⟩ := ih hrest
    refine ⟨?_, hflow⟩
    simp only [List.length_cons, ← hlen]
    rfl

/-- The pins of a call: those for the parameters and the result, and those for flow around them unless
the function is pure. -/
theorem callPins_eq {f : Function} {specs : List PinSpec} (h : NodeKind.callPins c f = .ok specs) :
    ∃ args result, f.params.mapM (fun p => do
        let type ← NodeKind.typeName c p.type
        Except.ok (PinSpec.dataIn p.name type p.form)) = .ok args ∧
      specs = (if f.pure then [] else [PinSpec.flowIn "Exec"]) ++ args
        ++ (if f.pure then [] else [PinSpec.flowOut "Then"]) ++ result ∧
      (result = [] ∨ ∃ r type, f.result = some r ∧ NodeKind.typeName c r.type = .ok type ∧
        result = [PinSpec.dataOut Function.resultName type r.form]) := by
  unfold NodeKind.callPins at h
  obtain ⟨args, hargs, h⟩ := bind_eq_ok_iff.mp h
  cases hr : f.result with
  | none =>
    rw [hr] at h
    cases h
    exact ⟨args, [], hargs, rfl, .inl rfl⟩
  | some r =>
    rw [hr] at h
    obtain ⟨type, htype, h⟩ := bind_eq_ok_iff.mp h
    cases h
    exact ⟨args, _, hargs, rfl, .inr ⟨r, type, rfl, htype, rfl⟩⟩

theorem specsToward_callPins {f : Function} {specs : List PinSpec}
    (h : NodeKind.callPins c f = .ok specs) :
    f.params.length ≤ (specsToward specs .input false).length ∧
      (specsToward specs .input true ≠ [] → 0 < (specsToward specs .output true).length) := by
  obtain ⟨args, result, hargs, rfl, hresult⟩ := callPins_eq h
  obtain ⟨hlen, hflow⟩ := length_specsToward_params hargs
  have hout : specsToward result .input true = [] := by
    obtain rfl | ⟨r, type, -, -, rfl⟩ := hresult <;> rfl
  simp only [specsToward_append, List.length_append, hlen, hflow, hout]
  refine ⟨by omega, ?_⟩
  cases f.pure with
  | true => exact fun hne => absurd rfl hne
  | false =>
    have hthen : (specsToward [PinSpec.flowOut "Then"] .output true).length = 1 := rfl
    intro _
    simp only [Bool.false_eq_true, ↓reduceIte, hthen]
    omega

end Graph

namespace Program

open Flowscript.Graph

variable {g : Graph} {c : Catalogue} {p : Program}

theorem exists_call_of_opOf {n : Node} {f : Function} (h : opOf c n = .ok (.call f)) :
    ∃ type function signature, n.kind = .call type function signature ∧
      NodeKind.resolveCall c type function signature = .ok f := by
  have h := opOf_eq_ok_iff.mp h
  generalize n.kind = kind at h ⊢
  cases h with
  | call hresolve => exact ⟨_, _, _, rfl, hresolve⟩

theorem compileNode_eq {n : Node} {pn : ProgramNode} (h : compileNode g c n = .ok pn) :
    ∃ op, opOf c n = .ok op ∧ pn =
      { id := n.id, label := n.kind.label, op, pure := g.isPure n.id
        flowIn := (g.pinsToward n.id .input true).map (·.id)
        flowOut := (g.pinsToward n.id .output true).map (·.id)
        dataIn := (g.pinsToward n.id .input false).map (·.id)
        dataOut := (g.pinsToward n.id .output false).map (·.id) } := by
  obtain ⟨op, hop, h⟩ := bind_eq_ok_iff.mp h
  cases h
  exact ⟨op, hop, rfl⟩

theorem isPure_of_isAlwaysImpure {n : Node} (hn : g.node? n.id = some n)
    (h : n.kind.isAlwaysImpure = true) : g.isPure n.id = false := by
  simp only [isPure, hn, h, ↓reduceIte]

theorem Assembled.isNamed (ha : Assembled g c p) {id : PinId} {q : Pin} (hq : g.pin? id = some q)
    {type : String} {form : Form} (ht : q.type = .data type form) : p.IsNamed c id type := by
  obtain ⟨pp, hpp, hstands⟩ := ha.exists_pin hq
  obtain ⟨h, hh, htype⟩ := hstands.data type form ht
  refine ⟨pp, h, hpp, htype, ?_⟩
  obtain ⟨-, hname⟩ := Option.filter_eq_some_iff.mp hh
  exact beq_iff_eq.mp hname

theorem length_pinsToward {n : Node} (hc : g.NodeChecked c n) {specs : List PinSpec}
    (hspecs : n.kind.expectedPins g.signature c = .ok specs) (direction : Direction) (flow : Bool) :
    ((g.pinsToward n.id direction flow).map (·.id)).length =
      (specsToward specs direction flow).length := by
  obtain ⟨specs', hs, hfit⟩ := hc.fitting
  rw [hspecs] at hs
  cases hs
  rw [List.length_map]
  exact (fits_toward hfit direction flow).length_eq.symm

section Checked

variable {n : Node} (hchecked : g.NodeChecked c n) {specs : List PinSpec}
  (hspecs : n.kind.expectedPins g.signature c = .ok specs)
include hchecked hspecs

theorem pinsToward_eq_nil {direction : Direction} {flow : Bool}
    (hnone : specsToward specs direction flow = []) :
    (g.pinsToward n.id direction flow).map (·.id) = [] := by
  rw [← List.length_eq_zero_iff, length_pinsToward hchecked hspecs, hnone]
  rfl

theorem pinsToward_eq_singleton {direction : Direction} {flow : Bool} {s : PinSpec}
    (hone : specsToward specs direction flow = [s]) {o : PinId}
    (ho : o ∈ (g.pinsToward n.id direction flow).map (·.id)) :
    (g.pinsToward n.id direction flow).map (·.id) = [o] := by
  have hlen := length_pinsToward hchecked hspecs direction flow
  rw [hone] at hlen
  obtain ⟨o', ho'⟩ := List.length_eq_one_iff.mp hlen
  rw [ho'] at ho ⊢
  rw [List.mem_singleton.mp ho]

end Checked

theorem Assembled.exists_isNamed (ha : Assembled g c p) (hn : g.Numbered) (hg : g.Consistent)
    {n : Node} (hnode : g.node? n.id = some n) (hc : g.NodeChecked c n) {specs : List PinSpec}
    (hspecs : n.kind.expectedPins g.signature c = .ok specs) {i : Nat} {label type : String}
    {form : Form}
    (hi : (specsToward specs .input false)[i]? = some (PinSpec.dataIn label type form)) :
    ∃ id, ((g.pinsToward n.id .input false).map (·.id))[i]? = some id ∧ p.IsNamed c id type := by
  obtain ⟨specs', hs, hfit⟩ := hc.fitting
  rw [hspecs] at hs
  cases hs
  have hfit := fits_toward hfit .input false
  obtain ⟨hlt, hi⟩ := List.getElem?_eq_some_iff.mp hi
  have hlt' : i < (g.pinsToward n.id .input false).length := hfit.length_eq ▸ hlt
  have hpin := List.forall₂_iff_get.mp hfit |>.2 i hlt hlt'
  obtain ⟨-, -, htype⟩ := PinSpec.fits_iff.mp hpin
  have hmem := List.getElem_mem hlt'
  have hq := ((mem_nodePins_iff hn hg hnode).mp (mem_pinsToward_iff.mp hmem).1).1
  rw [List.get_eq_getElem, List.get_eq_getElem, hi] at htype
  refine ⟨_, ?_, ha.isNamed hq htype⟩
  rw [List.getElem?_map, List.getElem?_eq_getElem hlt']
  rfl

theorem isPure_of_checked {n : Node} (hnode : g.node? n.id = some n) (hc : g.NodeChecked c n)
    {specs : List PinSpec} (hspecs : n.kind.expectedPins g.signature c = .ok specs) :
    g.isPure n.id = (!n.kind.isAlwaysImpure && (!specs.any (·.type.isFlow) ||
      !(specs.find? (·.direction == .output)).any (·.type.isFlow))) := by
  obtain ⟨specs', hs, hfits⟩ := hc.fitting
  rw [hspecs] at hs
  cases hs
  have hpins : ∀ {specs : List PinSpec} {pins : List Pin},
      List.Forall₂ (fun s p => s.fits p = true) specs pins →
      pins.any Pin.isFlow = specs.any (·.type.isFlow) ∧ (pins.find? Pin.isOutput).any Pin.isFlow =
        (specs.find? (·.direction == .output)).any (·.type.isFlow) := by
    intro specs pins h
    induction h with
    | nil => exact ⟨rfl, rfl⟩
    | @cons s q specs pins hfit _ ih =>
      obtain ⟨hdirection, -, htype⟩ := PinSpec.fits_iff.mp hfit
      have hflow : q.isFlow = s.type.isFlow := congrArg PinType.isFlow htype
      have hout : q.isOutput = (s.direction == .output) := congrArg (· == .output) hdirection
      rw [List.any_cons, List.any_cons, hflow, ih.1, List.find?_cons, List.find?_cons, hout]
      refine ⟨rfl, ?_⟩
      cases s.direction == .output
      · exact ih.2
      · exact hflow
  obtain ⟨hany, hleading⟩ := hpins hfits
  have hnodePins : g.nodePins n.id = g.pinsOf n := by rw [nodePins, hnode]
  rw [hnodePins] at hany hleading
  simp only [isPure, hnode, hany, hleading]
  cases n.kind.isAlwaysImpure <;> rfl

theorem isPure_reroute {n : Node} (hnode : g.node? n.id = some n) (hc : g.NodeChecked c n)
    {type : String} {form : Form} (hk : n.kind = .reroute (.data type form)) :
    g.isPure n.id = true := by
  have hspecs : n.kind.expectedPins g.signature c =
      .ok [⟨.input, "In", .data type form⟩, ⟨.output, "Out", .data type form⟩] := by rw [hk]; rfl
  rw [isPure_of_checked hnode hc hspecs, hk]
  rfl

theorem suits_of_checked (ha : Assembled g c p) (hn : g.Numbered) (hg : g.Consistent) {n : Node}
    (hnode : g.node? n.id = some n) (hc : g.NodeChecked c n) {pn : ProgramNode}
    (hpn : compileNode g c n = .ok pn) : p.Suits c pn := by
  obtain ⟨op, hop, rfl⟩ := compileNode_eq hpn
  obtain ⟨specs, hspecs, -⟩ := hc.fitting
  have hlen := length_pinsToward hc hspecs
  have hnil {direction : Direction} {flow : Bool} (hs : specsToward specs direction flow = []) :
      (g.pinsToward n.id direction flow).map (·.id) = [] := pinsToward_eq_nil hc hspecs hs
  have hnamed : ∀ (i : Nat) (label type : String) (form : Form),
      (specsToward specs .input false)[i]? = some (PinSpec.dataIn label type form) →
      ∃ id, ((g.pinsToward n.id .input false).map (·.id))[i]? = some id ∧ p.IsNamed c id type :=
    fun _ _ _ _ hi => ha.exists_isNamed hn hg hnode hc hspecs hi
  have himpure := isPure_of_isAlwaysImpure hnode
  have hop := opOf_eq_ok_iff.mp hop
  generalize hk : n.kind = kind at hop hspecs himpure
  cases hop with
  | entry =>
    cases hspecs
    refine ⟨hnil ?_, himpure rfl⟩
    rw [specsToward_append, specsToward_outputs, List.append_nil]
    split <;> rfl
  | ret =>
    cases hspecs
    refine ⟨himpure rfl, fun hr => ?_⟩
    obtain ⟨r, hr⟩ := Option.isSome_iff_exists.mp (ha.result hr)
    rw [hlen, specsToward_append, List.length_append, hr]
    exact Nat.lt_of_lt_of_le Nat.one_pos (Nat.le_add_left 1 _)
  | @call _ _ _ f hresolve =>
    obtain ⟨f', hf, hspecs⟩ := bind_eq_ok_iff.mp hspecs
    rw [hresolve] at hf
    cases hf
    obtain ⟨hparams, hflow⟩ := specsToward_callPins hspecs
    refine ⟨?_, fun h => ?_⟩
    · rw [hlen]
      exact hparams
    · rw [hlen]
      exact hflow fun hs => h (hnil hs)
  | fieldGet haccess =>
    obtain ⟨⟨info, fieldType⟩, -, hspecs⟩ := bind_eq_ok_iff.mp hspecs
    cases hspecs
    refine ⟨hnil rfl, ?_, ?_⟩ <;> · rw [hlen]; exact Nat.one_pos
  | fieldSet haccess =>
    obtain ⟨⟨info, fieldType⟩, -, hspecs⟩ := bind_eq_ok_iff.mp hspecs
    cases hspecs
    refine ⟨hnil rfl, ?_, ?_⟩
    · rw [hlen]
      exact Nat.lt_add_one 1
    · rw [hlen]
      exact Nat.one_pos
  | branch =>
    cases hspecs
    refine ⟨himpure rfl, ?_, hnamed 0 _ _ _ rfl⟩
    rw [hlen]
    exact Nat.lt_add_one 1
  | forLoop =>
    cases hspecs
    obtain ⟨start, hstart, hstart'⟩ := hnamed 0 _ _ _ rfl
    obtain ⟨stop, hstop, hstop'⟩ := hnamed 1 _ _ _ rfl
    refine ⟨himpure rfl, ?_, ?_, ?_, start, stop, hstart, hstop, hstart', hstop'⟩
    · rw [hlen]
      exact Nat.lt_add_one 1
    · rw [hlen]
      exact Nat.lt_add_one 1
    · rw [hlen]
      exact Nat.one_pos
  | whileLoop =>
    cases hspecs
    refine ⟨himpure rfl, ?_, ?_, hnamed 0 _ _ _ rfl⟩ <;> · rw [hlen]; exact Nat.lt_add_one 1
  | comment =>
    cases hspecs
    exact ⟨hnil rfl, hnil rfl⟩
  | @reroute type =>
    cases hspecs
    cases type with
    | flow =>
      refine ⟨fun h => absurd (hnil rfl) h, fun _ => ?_⟩
      rw [hlen]
      exact Nat.one_pos
    | data type form =>
      refine ⟨fun _ => ⟨isPure_reroute hnode hc hk, ?_⟩, fun h => absurd (hnil rfl) h⟩
      rw [hlen]
      exact Nat.one_pos

/-- A pin of the graph is found in the program, and its node under the number the pin names. -/
theorem Assembled.exists_node (ha : Assembled g c p) (hg : g.Consistent) {id : PinId} {q : Pin}
    (hq : g.pin? id = some q) :
    ∃ r n pn, p.pin? id = some r ∧ r.node = q.node ∧ p.node? r.node = some pn ∧
      n.id = q.node ∧ compileNode g c n = .ok pn := by
  obtain ⟨r, hr, hstands⟩ := ha.exists_pin hq
  obtain ⟨n, hnode, -⟩ := hg.pin_node id q hq
  obtain ⟨pn, hpn⟩ := ha.node_exists q.node n hnode
  obtain ⟨n', hnode', hcompile⟩ := ha.node_of q.node pn hpn
  exact ⟨r, n', pn, hr, hstands.node, hstands.node ▸ hpn, hg.node_id _ _ hnode', hcompile⟩

theorem mem_map_pinsToward (hn : g.Numbered) (hg : g.Consistent) {id : PinId} {q : Pin}
    (hq : g.pin? id = some q) :
    id ∈ (g.pinsToward q.node q.direction q.isFlow).map (·.id) :=
  List.mem_map.mpr ⟨q, mem_pinsToward_iff.mpr ⟨mem_nodePins_of_pin? hn hg hq, rfl, rfl⟩,
    hg.pin_id id q hq⟩

theorem exists_pin_of_mem (hn : g.Numbered) (hg : g.Consistent) {n : Node}
    (hnode : g.node? n.id = some n) {direction : Direction} {flow : Bool} {id : PinId}
    (hid : id ∈ (g.pinsToward n.id direction flow).map (·.id)) :
    ∃ q, g.pin? id = some q ∧ q ∈ g.nodePins n.id ∧ q.direction = direction ∧ q.isFlow = flow := by
  obtain ⟨q, hq, rfl⟩ := List.mem_map.mp hid
  obtain ⟨hmem, hdirection, hflow⟩ := mem_pinsToward_iff.mp hq
  exact ⟨q, ((mem_nodePins_iff hn hg hnode).mp hmem).1, hmem, hdirection, hflow⟩

theorem Assembled.exists_own_pin (ha : Assembled g c p) (hn : g.Numbered) (hg : g.Consistent) {n : Node}
    (hnode : g.node? n.id = some n) (hchecked : g.NodeChecked c n) {direction : Direction} {flow : Bool} {id : PinId}
    (hid : id ∈ (g.pinsToward n.id direction flow).map (·.id)) : ∃ pp, p.pin? id = some pp ∧ pp.node = n.id := by
  obtain ⟨q, hq, hmem, -⟩ := exists_pin_of_mem hn hg hnode hid
  obtain ⟨pp, hpp, hstands⟩ := ha.exists_pin hq
  exact ⟨pp, hpp, hstands.node.trans (hchecked.own q hmem)⟩

theorem exists_compiled {s : Setting} (hg : g.Consistent) (h : compile g c s = .ok p) {id : NodeId} {pn : ProgramNode}
    (hpn : p.node? id = some pn) :
    ∃ n, g.node? n.id = some n ∧ n.id = id ∧ g.NodeChecked c n ∧ compileNode g c n = .ok pn := by
  obtain ⟨hfindings, ha⟩ := assembled_of_compile hg h
  obtain ⟨-, hnodes, -⟩ := findings_eq_nil_iff.mp hfindings
  obtain ⟨n, hnode, hcompile⟩ := ha.node_of id pn hpn
  have hid := hg.node_id id n hnode
  exact ⟨n, hid ▸ hnode, hid, hnodes n (mem_live_iff.mpr ⟨id.val, hnode⟩), hcompile⟩

theorem Assembled.isData (ha : Assembled g c p) {id : PinId} {q : Pin} (hq : g.pin? id = some q)
    (hflow : q.isFlow = false) : p.IsData id := by
  cases ht : q.type with
  | flow =>
    rw [Pin.isFlow, ht] at hflow
    cases hflow
  | data type form =>
    obtain ⟨r, h, hr, htype, -⟩ := ha.isNamed hq ht
    exact ⟨r, h, hr, htype⟩

/-- The output at the end of a recorded link lies among the outputs of its node. -/
theorem Assembled.source (ha : Assembled g c p) (hn : g.Numbered) (hg : g.Consistent)
    (hlinks : ∀ l ∈ g.liveLinks, g.LinkChecked c l) {id o : PinId} {q : ProgramPin}
    (hq : p.pin? id = some q) (ho : q.source = some o) :
    ∃ r n, p.pin? o = some r ∧ p.node? r.node = some n ∧ o ∈ n.dataOut := by
  obtain ⟨_, -, -, hlinked⟩ := ha.pin_of id q hq
  obtain ⟨l, hl, -, rfl, hflow⟩ := hlinked.source o ho
  obtain ⟨output, _, hout, -, hdir, -, -⟩ := hlinks l hl
  rw [hout] at hflow
  obtain ⟨r, n, pn, hr, -, hpn, hid, hcompile⟩ := ha.exists_node hg hout
  refine ⟨r, pn, hr, hpn, ?_⟩
  obtain ⟨op, -, rfl⟩ := compileNode_eq hcompile
  have hmem := mem_map_pinsToward hn hg hout
  rw [hdir, show output.isFlow = false from hflow, ← hid] at hmem
  exact hmem

theorem Assembled.target (ha : Assembled g c p) (hn : g.Numbered) (hg : g.Consistent)
    (hlinks : ∀ l ∈ g.liveLinks, g.LinkChecked c l) {id t : PinId} {q : ProgramPin}
    (hq : p.pin? id = some q) (ht : q.target = some t) :
    ∃ r n, p.pin? t = some r ∧ p.node? r.node = some n ∧ t ∈ n.flowIn := by
  obtain ⟨_, -, -, hlinked⟩ := ha.pin_of id q hq
  obtain ⟨l, hl, -, rfl, hflow⟩ := hlinked.target t ht
  obtain ⟨output, input, hout, hin, -, hdir, hjoins⟩ := hlinks l hl
  rw [hout] at hflow
  have hinflow : input.isFlow = true := by
    have hf : output.type.isFlow = true := hflow
    revert hjoins hf
    unfold Pin.isFlow
    cases output.type <;> cases input.type <;> simp [Joins, PinType.isFlow]
  obtain ⟨r, n, pn, hr, -, hpn, hid, hcompile⟩ := ha.exists_node hg hin
  refine ⟨r, pn, hr, hpn, ?_⟩
  obtain ⟨op, -, rfl⟩ := compileNode_eq hcompile
  have hmem := mem_map_pinsToward hn hg hin
  rw [hdir, hinflow, ← hid] at hmem
  exact hmem

/-- A pull leads to an input of an expression; between expressions it follows a dependency. -/
theorem Assembled.pulls (ha : Assembled g c p) (hn : g.Numbered) (hg : g.Consistent)
    (hnodes : ∀ n ∈ g.liveNodes, g.NodeChecked c n) {i j : PinId} (hp : p.Pulls i j) :
    ∃ b, g.pin? j = some b ∧ g.isPure b.node = true ∧
      ∀ a, g.pin? i = some a → g.isPure a.node = true → (a.node, b.node) ∈ g.dependencies := by
  obtain ⟨q, o, r, pn, hq, ho, hr, hpn, hpure, hj⟩ := hp
  obtain ⟨n, hnode, hcompile⟩ := ha.node_of r.node pn hpn
  have hid := hg.node_id _ n hnode
  rw [← hid] at hnode
  obtain ⟨op, -, rfl⟩ := compileNode_eq hcompile
  obtain ⟨b, hb, hmem, -⟩ := exists_pin_of_mem hn hg hnode hj
  have hbnode : b.node = n.id :=
    (hnodes n (mem_live_iff.mpr ⟨n.id.val, hnode⟩)).own b hmem
  refine ⟨b, hb, hbnode ▸ hpure, fun a hia hapure => ?_⟩
  obtain ⟨_, -, -, hlinked⟩ := ha.pin_of i q hq
  obtain ⟨l, hl, hinput, rfl, hflow⟩ := hlinked.source o ho
  obtain ⟨output, hout, hstands, -⟩ := ha.pin_of l.output r hr
  have hin : g.pin? l.input = some a := by
    rw [PinId.ext hinput]
    exact hia
  have houtnode : output.node = n.id := hstands.node.symm.trans hid.symm
  rw [hout] at hflow
  refine List.mem_filterMap.mpr ⟨l, hl, ?_⟩
  have hno : (output.isFlow || !g.isPure n.id || !g.isPure a.node) = false := by
    rw [show output.isFlow = false from hflow, show g.isPure n.id = true from hpure, hapure]
    rfl
  simp only [hout, hin, houtnode, hno, Bool.false_eq_true, ↓reduceIte, hbnode]

theorem Assembled.acyclic (ha : Assembled g c p) (hn : g.Numbered) (hg : g.Consistent)
    (hnodes : ∀ n ∈ g.liveNodes, g.NodeChecked c n) (hcycles : g.dataCycles = []) (id : PinId) :
    ¬ Relation.TransGen p.Pulls id id := by
  intro hcycle
  -- Along pulls that start at an expression, the nodes depend on each other.
  have hdepends : ∀ {i j : PinId} {a : Pin}, Relation.TransGen p.Pulls i j → g.pin? i = some a →
      g.isPure a.node = true → ∃ b, g.pin? j = some b ∧ g.isPure b.node = true ∧
        Relation.TransGen (fun m k => (m, k) ∈ g.dependencies) a.node b.node := by
    intro i j a hij ha' hpure
    induction hij with
    | single hp =>
      obtain ⟨b, hb, hbpure, hdep⟩ := ha.pulls hn hg hnodes hp
      exact ⟨b, hb, hbpure, .single (hdep a ha' hpure)⟩
    | tail _ hp ih =>
      obtain ⟨k, hk, hkpure, hpath⟩ := ih
      obtain ⟨b, hb, hbpure, hdep⟩ := ha.pulls hn hg hnodes hp
      exact ⟨b, hb, hbpure, hpath.tail (hdep k hk hkpure)⟩
  obtain ⟨k, -, hlast⟩ := Relation.TransGen.tail'_iff.mp hcycle
  obtain ⟨a, ha', hpure, -⟩ := ha.pulls hn hg hnodes hlast
  obtain ⟨b, hb, -, hpath⟩ := hdepends hcycle ha' hpure
  rw [ha'] at hb
  cases hb
  obtain ⟨n, hnode, -⟩ := hg.pin_node id a ha'
  rw [← hg.node_id _ n hnode] at hpath
  obtain ⟨found, hfound, -⟩ := exists_mem_dataCycles (mem_live_iff.mpr ⟨a.node.val, hnode⟩) hpath
  rw [hcycles] at hfound
  cases hfound

/-- A pure function has exactly one return, which its program knows. -/
theorem Assembled.exists_return (ha : Assembled g c p) (hg : g.Consistent) (h : g.checkPure = [])
    (hpure : g.signature.pure = true) :
    ∃ id pn, p.returnNode = some id ∧ p.node? id = some pn ∧ pn.op = .ret := by
  rw [checkPure, if_pos hpure, List.append_eq_nil_iff] at h
  have hone : g.returns.length = 1 := by
    by_contra hne
    rw [if_neg hne] at h
    cases h.1
  obtain ⟨n, hreturns⟩ := List.length_eq_one_iff.mp hone
  have hmem : n ∈ g.returns := by rw [hreturns]; exact List.mem_singleton_self n
  obtain ⟨hlive, hkind⟩ := List.mem_filter.mp hmem
  obtain ⟨pn, hpn⟩ := ha.node_exists n.id n (node?_of_mem_live hg hlive)
  refine ⟨n.id, pn, ?_, hpn, ?_⟩
  · rw [ha.returnNode, hreturns]
    rfl
  · obtain ⟨n', hnode', hcompile⟩ := ha.node_of n.id pn hpn
    rw [node?_of_mem_live hg hlive] at hnode'
    cases hnode'
    obtain ⟨op, hop, rfl⟩ := compileNode_eq hcompile
    rw [opOf, beq_iff_eq.mp hkind] at hop
    cases hop
    rfl

theorem wellFormed_of_compile {s : Setting} (hedited : g.Edited) (h : compile g c s = .ok p) :
    p.WellFormed c := by
  have hn := hedited.numbered
  have hg := hedited.consistent
  obtain ⟨hfindings, ha⟩ := assembled_of_compile hg h
  obtain ⟨-, hnodes, hlinks, -, hstructure⟩ := findings_eq_nil_iff.mp hfindings
  simp only [checkStructure, List.append_eq_nil_iff, List.map_eq_nil_iff] at hstructure
  obtain ⟨⟨⟨-, hpure⟩, hcycles⟩, -⟩ := hstructure
  refine ⟨?_, fun hp => ?_, fun id pn hpn => ?_, fun id pn hpn => ?_, fun id pn hpn q hq => ?_,
    fun id pn hpn q hq => ?_, fun id q o => ha.source hn hg hlinks,
    fun id q t => ha.target hn hg hlinks, ha.acyclic hn hg hnodes hcycles⟩
  · obtain ⟨n, hmem, he⟩ := ha.entry
    rw [he]
    exact ha.node_exists n.id n (node?_of_mem_live hg (List.mem_filter.mp hmem).1)
  · exact ha.exists_return hg hpure (ha.pure.symm.trans hp)
  · obtain ⟨n, -, hid, -, hcompile⟩ := exists_compiled hg h hpn
    obtain ⟨op, -, rfl⟩ := compileNode_eq hcompile
    exact hid
  · obtain ⟨n, hn', -, hchecked, hcompile⟩ := exists_compiled hg h hpn
    exact suits_of_checked ha hn hg hn' hchecked hcompile
  · obtain ⟨n, hn', -, -, hcompile⟩ := exists_compiled hg h hpn
    obtain ⟨op, -, rfl⟩ := compileNode_eq hcompile
    obtain ⟨a, ha', -⟩ := exists_pin_of_mem hn hg hn' hq
    exact Option.isSome_iff_exists.mpr (ha.pin_exists q a ha')
  · obtain ⟨n, hn', -, -, hcompile⟩ := exists_compiled hg h hpn
    obtain ⟨op, -, rfl⟩ := compileNode_eq hcompile
    rcases hq with hq | hq
    · obtain ⟨a, ha', -, -, hflow⟩ := exists_pin_of_mem hn hg hn' hq
      exact ha.isData ha' hflow
    · obtain ⟨a, ha', -, -, hflow⟩ := exists_pin_of_mem hn hg hn' hq
      exact ha.isData ha' hflow

end Program

namespace Catalogue

/-- Types stay behind their handles and keep their names. -/
def Keeps (c c' : Catalogue) : Prop :=
  ∀ (h : Handle) (t : TypeInfo), c.infos[h]? = some t →
    ∃ u : TypeInfo, c'.infos[h]? = some u ∧ u.name = t.name

namespace Keeps

variable {c c' c'' : Catalogue}

theorem refl (c : Catalogue) : c.Keeps c := fun _ t ht => ⟨t, ht, rfl⟩

theorem trans (h : c.Keeps c') (h' : c'.Keeps c'') : c.Keeps c'' := by
  intro handle t ht
  obtain ⟨t', ht', hname⟩ := h handle t ht
  obtain ⟨t'', ht'', hname'⟩ := h' handle t' ht'
  exact ⟨t'', ht'', hname'.trans hname⟩

theorem modify (c : Catalogue) (handle : Handle) {f : TypeInfo → TypeInfo}
    (hf : ∀ t, (f t).name = t.name) : c.Keeps (c.modify handle f) := by
  intro k t ht
  simp only [Catalogue.modify, Array.getElem?_modify, ht]
  split
  · exact ⟨f t, rfl, hf t⟩
  · exact ⟨t, rfl, rfl⟩

theorem modifyId (c : Catalogue) (id : TypeId) {f : TypeInfo → TypeInfo}
    (hf : ∀ t, (f t).name = t.name) : c.Keeps (c.modifyId id f) := by
  unfold Catalogue.modifyId
  split
  · exact modify c _ hf
  · exact refl c

theorem foldl {α : Type} {f : Catalogue → α → Catalogue}
    (hf : ∀ (c : Catalogue) (a : α), c.Keeps (f c a)) (as : List α) (c : Catalogue) :
    c.Keeps (as.foldl f c) := by
  induction as generalizing c with
  | nil => exact refl c
  | cons a as ih => exact (hf c a).trans (ih (f c a))

theorem register (c : Catalogue) (t : TypeInfo) : c.Keeps (c.register t).2 := by
  unfold Catalogue.register
  split
  · exact refl c
  · have hpush : c.Keeps { c with
        infos := c.infos.push t, index := c.index.insert t.id c.infos.size } := by
      intro h u hu
      have hlt := (Array.getElem?_eq_some_iff.mp hu).choose
      refine ⟨u, ?_, rfl⟩
      dsimp only
      rw [Array.getElem?_push_lt hlt, ← hu, Array.getElem?_eq_getElem hlt]
    have hname : ∀ id t, (addDerived id t).name = t.name := by
      intro id t
      unfold addDerived
      split <;> rfl
    refine hpush.trans ((foldl (fun c base => modifyId c base (hname t.id)) t.bases _).trans ?_)
    exact foldl (fun c heir => modify c _ (hname heir)) _ _

theorem remove (c : Catalogue) (id : TypeId) : c.Keeps (c.remove id).2 := by
  unfold Catalogue.remove
  split
  · exact refl c
  · rename_i h _
    have hbases : ∀ c : Catalogue, c.Keeps
        ((c.info h).bases.foldl (fun c base => c.modifyId base (removeDerived id)) c) :=
      fun c => foldl (fun c base => modifyId c base (f := removeDerived id) fun _ => rfl)
        (c.info h).bases c
    exact (hbases { c with index := c.index.erase id }).trans (modify _ h fun _ => rfl)

end Keeps

end Catalogue

namespace Program

variable {c c' : Catalogue} {p : Program}

theorem IsNamed.of_keeps {id : PinId} {name : String} (h : p.IsNamed c id name) (hc : c.Keeps c')
    (hname : name ≠ (default : TypeInfo).name) : p.IsNamed c' id name := by
  obtain ⟨q, handle, hq, ht, hn⟩ := h
  refine ⟨q, handle, hq, ht, ?_⟩
  cases hi : c.infos[handle]? with
  | none =>
    rw [Catalogue.info, Array.getD_eq_getD_getElem?, hi] at hn
    exact absurd hn.symm hname
  | some t =>
    obtain ⟨u, hu, hut⟩ := hc handle t hi
    rw [Catalogue.info, Array.getD_eq_getD_getElem?, hi] at hn
    rw [Catalogue.info, Array.getD_eq_getD_getElem?, hu]
    exact hut.trans hn

theorem WellFormed.of_keeps (h : p.WellFormed c) (hc : c.Keeps c') : p.WellFormed c' := by
  have hbool : "bool" ≠ (default : TypeInfo).name := by decide
  have hint : "i32" ≠ (default : TypeInfo).name := by decide
  refine { h with suits := fun id n hn => ?_ }
  have hs := h.suits id n hn
  unfold Suits at hs ⊢
  cases hop : n.op with
  | branch =>
    rw [hop] at hs
    obtain ⟨hpure, hout, condition, hid, hnamed⟩ := hs
    exact ⟨hpure, hout, condition, hid, hnamed.of_keeps hc hbool⟩
  | whileLoop =>
    rw [hop] at hs
    obtain ⟨hpure, hin, hout, condition, hid, hnamed⟩ := hs
    exact ⟨hpure, hin, hout, condition, hid, hnamed.of_keeps hc hbool⟩
  | forLoop =>
    rw [hop] at hs
    obtain ⟨hpure, hin, hout, hdata, start, stop, hstart, hstop, hstart', hstop'⟩ := hs
    exact ⟨hpure, hin, hout, hdata, start, stop, hstart, hstop, hstart'.of_keeps hc hint,
      hstop'.of_keeps hc hint⟩
  | _ => rw [hop] at hs; exact hs

end Program

end Flowscript
