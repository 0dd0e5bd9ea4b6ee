import Flowscript.Proofs.Run.WellFormedPrograms

/-! # Types of pins

What an input is given has the type of the output it comes from. A program is typed when that is the
type of the input or one derived from it, and when what a node does fits the types of its pins: the
parameters and the result of the function it calls, the field it reads or writes, the result of the
program. Programs of edited graphs are typed.

Where the parts of a value lie is known only to the types themselves: `Layouts` are relations between a
type, an offset and the type of what lies there.
-/
namespace Flowscript

/-- Which types lie at which offsets in values of a type. -/
abbrev Layouts := TypeId → Nat → TypeId → Prop

namespace Catalogue

/-- Types are registered under their identity, which is that of their name. -/
structure Filed (c : Catalogue) : Prop where
  named : ∀ (h : Handle) (t : TypeInfo), c.infos[h]? = some t → t.id = .ofName t.name
  indexed : ∀ id h, c.handle? id = some h → ∃ t : TypeInfo, c.infos[h]? = some t ∧ t.id = id

/-- A value lies in itself, its base at its beginning and its fields at their offsets. -/
structure Embeds (c : Catalogue) (lies : Layouts) : Prop where
  whole : ∀ type, lies type 0 type
  base : ∀ {type offset heir base}, lies type offset heir → c.isDerivedFrom heir base = true →
    lies type offset base
  field : ∀ {type offset owner t f}, lies type offset owner → c.lookup? owner = some t →
    f ∈ t.fields → lies type (offset + f.offset) f.type

variable {c c' : Catalogue}

theorem Filed.ofName_name (h : c.Filed) {id : TypeId} {t : TypeInfo} (ht : c.lookup? id = some t) :
    TypeId.ofName t.name = id := by
  obtain ⟨handle, hhandle, rfl⟩ := Option.map_eq_some_iff.mp ht
  obtain ⟨t, hfound, rfl⟩ := h.indexed id handle hhandle
  have hinfo : c.info handle = t := by rw [info, Array.getD_eq_getD_getElem?, hfound]; rfl
  rw [hinfo]
  exact (h.named handle t hfound).symm

theorem Filed.id_info (h : c.Filed) (h' : c'.Filed) (hc : c.Keeps c') {id : TypeId} {handle : Handle}
    (hhandle : c.handle? id = some handle) : (c'.info handle).id = id := by
  obtain ⟨t, ht, rfl⟩ := h.indexed id handle hhandle
  obtain ⟨u, hu, hname⟩ := hc handle t ht
  have hinfo : c'.info handle = u := by rw [info, Array.getD_eq_getD_getElem?, hu]; rfl
  rw [hinfo, h'.named handle u hu, hname, h.named handle t ht]

theorem handle?_of_handleNamed? {name : String} {handle : Handle}
    (h : c.handleNamed? name = some handle) : c.handle? (.ofName name) = some handle :=
  (Option.filter_eq_some_iff.mp h).1

theorem lookup?_of_lookupName? {name : String} {t : TypeInfo} (h : c.lookupName? name = some t) :
    c.lookup? (.ofName name) = some t := by
  obtain ⟨handle, hhandle, rfl⟩ := Option.map_eq_some_iff.mp h
  rw [lookup?, handle?_of_handleNamed? hhandle]
  rfl

end Catalogue

namespace Program

def typeOf (c : Catalogue) (p : Program) (id : PinId) : Option TypeId :=
  ((p.pin? id).bind (·.type)).map fun h => (c.info h).id

def Casts (lies : Layouts) (source target : TypeId) : Prop :=
  ∀ type offset, lies type offset source → lies type offset target

def HasField (lies : Layouts) (owner : TypeId) (offset : Nat) (field : TypeId) : Prop :=
  ∀ type start, lies type start owner → lies type (start + offset) field

def Fits (lies : Layouts) (c : Catalogue) (p : Program) (n : ProgramNode) : Prop :=
  match n.op with
  | .ret => ∀ h form, p.result = some (h, form) → ∀ id, n.dataIn[0]? = some id →
    p.typeOf c id = some (c.info h).id
  | .call f => (∀ x ∈ f.params.zip n.dataIn, p.typeOf c x.2 = some x.1.type) ∧
    ∀ out ∈ n.dataOut, n.dataOut.head? = some out ∧
      ∃ r, f.result = some r ∧ p.typeOf c out = some r.type
  | .fieldGet offset type =>
    (∀ id, n.dataIn[0]? = some id → ∃ owner, p.typeOf c id = some owner ∧
      HasField lies owner offset (c.info type).id) ∧
    ∀ out ∈ n.dataOut, n.dataOut[0]? = some out ∧ p.typeOf c out = some (c.info type).id
  | .fieldSet offset type =>
    (∀ id, n.dataIn[0]? = some id → ∃ owner, p.typeOf c id = some owner ∧
      HasField lies owner offset (c.info type).id) ∧
    ∀ id, n.dataIn[1]? = some id → p.typeOf c id = some (c.info type).id
  | .forLoop => ∀ out ∈ n.dataOut, p.typeOf c out = some (.ofName "i32")
  | .reroute => ∀ id, n.dataIn[0]? = some id → ∀ out ∈ n.dataOut, p.typeOf c out = p.typeOf c id
  | _ => True

/-- Pins belong to the nodes that list them, links lead to inputs of the same or a more general type,
and what nodes do fits. -/
structure Typed (lies : Layouts) (c : Catalogue) (p : Program) : Prop where
  input : ∀ id n, p.node? id = some n → ∀ i ∈ n.dataIn,
    i ∉ n.dataOut ∧ ∃ q, p.pin? i = some q ∧ q.node = id
  output : ∀ id n, p.node? id = some n → ∀ o ∈ n.dataOut, ∃ q, p.pin? o = some q ∧ q.node = id
  link : ∀ i q o, p.pin? i = some q → q.source = some o → ∃ source target,
    p.typeOf c o = some source ∧ p.typeOf c i = some target ∧ Casts lies source target
  fits : ∀ id n, p.node? id = some n → p.Fits lies c n
  entry : ∀ n, p.node? p.entry = some n → n.op = .entry

end Program

namespace Program

open Flowscript.Graph Flowscript.Catalogue

variable {g : Graph} {c c' : Catalogue} {p : Program}

theorem pins_toward (hn : g.Numbered) (hg : g.Consistent) {n : Node} (hnode : g.node? n.id = some n)
    (hchecked : g.NodeChecked c n) {specs : List PinSpec}
    (hspecs : n.kind.expectedPins g.signature c = .ok specs) (direction : Direction) :
    List.Forall₂ (fun s id => ∃ q, g.pin? id = some q ∧ q.type = s.type)
      (specsToward specs direction false) ((g.pinsToward n.id direction false).map (·.id)) := by
  obtain ⟨specs', hs, hfit⟩ := hchecked.fitting
  rw [hspecs] at hs
  cases hs
  refine List.forall₂_map_right_iff.mpr ?_
  refine List.forall₂_iff_zip.mpr ⟨(fits_toward hfit direction false).length_eq, ?_⟩
  intro s q hmem
  have hfits := (List.forall₂_iff_zip.mp (fits_toward hfit direction false)).2 hmem
  have hq := (mem_pinsToward_iff.mp (List.of_mem_zip hmem).2).1
  exact ⟨q, ((mem_nodePins_iff hn hg hnode).mp hq).1, (PinSpec.fits_iff.mp hfits).2.2⟩

theorem ofName_of_typeName (hc : c.Filed) {id : TypeId} {name : String}
    (h : NodeKind.typeName c id = .ok name) : TypeId.ofName name = id := by
  unfold NodeKind.typeName at h
  cases ht : c.lookup? id with
  | none =>
    rw [ht] at h
    cases h
  | some t =>
    rw [ht] at h
    cases h
    exact hc.ofName_name ht

theorem specs_of_params {params : List Param} {args : List PinSpec}
    (h : params.mapM (fun q => do
      let type ← NodeKind.typeName c q.type
      Except.ok (PinSpec.dataIn q.name type q.form)) = .ok args) :
    specsToward args .output false = [] ∧ specsToward args .input false = args ∧
      List.Forall₂ (fun q s => ∃ type, NodeKind.typeName c q.type = .ok type ∧
        s.type = .data type q.form) params args := by
  induction params generalizing args with
  | nil =>
    cases h
    exact ⟨rfl, rfl, .nil⟩
  | cons q params ih =>
    rw [List.mapM_cons] at h
    obtain ⟨s, hs, h⟩ := bind_eq_ok_iff.mp h
    obtain ⟨rest, hrest, h⟩ := bind_eq_ok_iff.mp h
    obtain ⟨type, htype, hs⟩ := bind_eq_ok_iff.mp hs
    cases h
    cases hs
    obtain ⟨hout, hin, hall⟩ := ih hrest
    refine ⟨hout, ?_, .cons ⟨type, htype, rfl⟩ hall⟩
    exact congrArg (PinSpec.dataIn q.name type q.form :: ·) hin

theorem specs_of_callPins {f : Function} {specs : List PinSpec}
    (h : NodeKind.callPins c f = .ok specs) :
    List.Forall₂ (fun q s => ∃ type, NodeKind.typeName c q.type = .ok type ∧
        s.type = .data type q.form) f.params (specsToward specs .input false) ∧
      (specsToward specs .output false = [] ∨ ∃ r s type, f.result = some r ∧
        NodeKind.typeName c r.type = .ok type ∧ s.type = .data type r.form ∧
          specsToward specs .output false = [s]) := by
  obtain ⟨args, result, hargs, rfl, hresult⟩ := callPins_eq h
  obtain ⟨hout, hin, hall⟩ := specs_of_params hargs
  have hflow : ∀ direction,
      specsToward (if f.pure then [] else [PinSpec.flowIn "Exec"]) direction false = [] ∧
      specsToward (if f.pure then [] else [PinSpec.flowOut "Then"]) direction false = [] := by
    intro direction
    cases f.pure <;> cases direction <;> exact ⟨rfl, rfl⟩
  have hinputs : specsToward result .input false = [] := by
    obtain rfl | ⟨r, type, -, -, rfl⟩ := hresult <;> rfl
  simp only [specsToward_append, hout, hin, hinputs, (hflow _).1, (hflow _).2, List.nil_append,
    List.append_nil]
  refine ⟨hall, ?_⟩
  obtain rfl | ⟨r, type, hr, htype, rfl⟩ := hresult
  · exact .inl rfl
  · exact .inr ⟨r, _, type, hr, htype, rfl, rfl⟩

section Pins

variable (ha : Assembled g c p) (hc : c.Filed) (hc' : c'.Filed) (hkeeps : c.Keeps c')
include ha hc hc' hkeeps

theorem Assembled.typeOf {id : PinId} {q : Pin} (hq : g.pin? id = some q) {type : String}
    {form : Form} (ht : q.type = .data type form) : p.typeOf c' id = some (.ofName type) := by
  obtain ⟨pp, hpp, hstands⟩ := ha.exists_pin hq
  obtain ⟨h, hh, htype⟩ := hstands.data type form ht
  rw [Program.typeOf, hpp, Option.bind_some, htype, Option.map_some,
    hc.id_info hc' hkeeps (handle?_of_handleNamed? hh)]

variable (hn : g.Numbered) (hg : g.Consistent) {n : Node} (hnode : g.node? n.id = some n)
  (hchecked : g.NodeChecked c n) {specs : List PinSpec}
  (hspecs : n.kind.expectedPins g.signature c = .ok specs)
include hn hg hnode hchecked hspecs

theorem Assembled.types_toward (direction : Direction) :
    List.Forall₂ (fun s id => ∀ type form, s.type = .data type form →
        p.typeOf c' id = some (.ofName type))
      (specsToward specs direction false) ((g.pinsToward n.id direction false).map (·.id)) := by
  refine (pins_toward hn hg hnode hchecked hspecs direction).imp ?_
  rintro s id ⟨q, hq, hsame⟩ type form hs
  exact ha.typeOf hc hc' hkeeps hq (hsame.trans hs)

theorem Assembled.typeOf_of_specs {direction : Direction} {i : Nat} {id : PinId} {s : PinSpec}
    {type : String} {form : Form} (hs : (specsToward specs direction false)[i]? = some s)
    (htype : s.type = .data type form)
    (hid : ((g.pinsToward n.id direction false).map (·.id))[i]? = some id) :
    p.typeOf c' id = some (.ofName type) := by
  have htypes := ha.types_toward hc hc' hkeeps hn hg hnode hchecked hspecs direction
  obtain ⟨hlt, hs⟩ := List.getElem?_eq_some_iff.mp hs
  obtain ⟨hlt', hid⟩ := List.getElem?_eq_some_iff.mp hid
  have h := (List.forall₂_iff_get.mp htypes).2 i hlt hlt'
  rw [List.get_eq_getElem, List.get_eq_getElem, hs, hid] at h
  exact h type form htype

theorem Assembled.typeOf_of_only {direction : Direction} {s : PinSpec} {type : String} {form : Form} {id : PinId}
    (hs : specsToward specs direction false = [s]) (htype : s.type = .data type form)
    (hid : id ∈ (g.pinsToward n.id direction false).map (·.id)) :
    ((g.pinsToward n.id direction false).map (·.id))[0]? = some id ∧ p.typeOf c' id = some (.ofName type) := by
  have hfirst : ((g.pinsToward n.id direction false).map (·.id))[0]? = some id := by
    rw [pinsToward_eq_singleton hchecked hspecs hs hid]
    rfl
  exact ⟨hfirst, ha.typeOf_of_specs hc hc' hkeeps hn hg hnode hchecked hspecs (by rw [hs]; rfl) htype hfirst⟩

/-- The arguments of a call are of the types of its parameters, and its result is of the type of the function's. -/
theorem Assembled.fits_call {f : Function} (hcall : NodeKind.callPins c f = .ok specs) :
    (∀ x ∈ f.params.zip ((g.pinsToward n.id .input false).map (·.id)), p.typeOf c' x.2 = some x.1.type) ∧
      ∀ out ∈ (g.pinsToward n.id .output false).map (·.id),
        ((g.pinsToward n.id .output false).map (·.id)).head? = some out ∧
          ∃ r, f.result = some r ∧ p.typeOf c' out = some r.type := by
  obtain ⟨hparams, hresult⟩ := specs_of_callPins hcall
  constructor
  · intro x hx
    obtain ⟨i, hi, hget⟩ := List.mem_iff_getElem.mp hx
    rw [List.getElem_zip] at hget
    rw [List.length_zip] at hi
    have hparam : f.params[i]? = some x.1 := by
      rw [List.getElem?_eq_getElem (by omega), ← hget]
    have hpin : ((g.pinsToward n.id .input false).map (·.id))[i]? = some x.2 := by
      rw [List.getElem?_eq_getElem (by omega), ← hget]
    obtain ⟨hlt, hparam⟩ := List.getElem?_eq_some_iff.mp hparam
    have hlt' : i < (specsToward specs .input false).length := hparams.length_eq ▸ hlt
    obtain ⟨name, hname, hdata⟩ := (List.forall₂_iff_get.mp hparams).2 i hlt hlt'
    rw [List.get_eq_getElem, hparam] at hname
    rw [ha.typeOf_of_specs hc hc' hkeeps hn hg hnode hchecked hspecs (List.getElem?_eq_getElem hlt') hdata hpin,
      ofName_of_typeName hc hname]
  · intro out hout
    rcases hresult with hnone | ⟨r, s, name, hr, hname, hdata, hone⟩
    · rw [pinsToward_eq_nil hchecked hspecs hnone] at hout
      cases hout
    · obtain ⟨hfirst, htyped⟩ := ha.typeOf_of_only hc hc' hkeeps hn hg hnode hchecked hspecs hone hdata hout
      refine ⟨by rw [List.head?_eq_getElem?]; exact hfirst, r, hr, ?_⟩
      rw [htyped, ofName_of_typeName hc hname]

end Pins

theorem hasField_of_access {lies : Layouts} (hc : c.Filed) (hc' : c'.Filed) (hkeeps : c.Keeps c')
    (hlies : c.Embeds lies) {type field : String} {offset : Nat} {h : Handle}
    (haccess : fieldAccess c type field = .ok (offset, h)) :
    HasField lies (.ofName type) offset (c'.info h).id := by
  intro start from' hstart
  obtain ⟨owner, info, howner, hinfo, hhandle, rfl⟩ := fieldAccess_eq_ok haccess
  rw [hc.id_info hc' hkeeps hhandle]
  exact hlies.field hstart (lookup?_of_lookupName? howner) (List.mem_of_find?_eq_some hinfo)

/-- A field is of the type that the node's pins are given for it. -/
theorem id_info_of_access (hc : c.Filed) (hc' : c'.Filed) (hkeeps : c.Keeps c') {type field : String} {offset : Nat}
    {h : Handle} {info : FieldInfo} {name : String} (haccess : fieldAccess c type field = .ok (offset, h))
    (hresolve : NodeKind.resolveField c type field = .ok (info, name)) : TypeId.ofName name = (c'.info h).id := by
  obtain ⟨owner, info', howner, hinfo, hhandle, rfl⟩ := fieldAccess_eq_ok haccess
  obtain ⟨owner', howner', hinfo', hname⟩ := resolveField_eq_ok hresolve
  rw [howner] at howner'
  cases howner'
  rw [hinfo] at hinfo'
  cases hinfo'
  rw [hc.id_info hc' hkeeps hhandle]
  exact ofName_of_typeName hc hname

theorem fits_of_checked {lies : Layouts} (ha : Assembled g c p) (hc : c.Filed) (hc' : c'.Filed)
    (hkeeps : c.Keeps c') (hlies : c.Embeds lies) (hn : g.Numbered) (hg : g.Consistent) {n : Node}
    (hnode : g.node? n.id = some n) (hchecked : g.NodeChecked c n) {pn : ProgramNode}
    (hpn : compileNode g c n = .ok pn) : p.Fits lies c' pn := by
  obtain ⟨op, hop, rfl⟩ := compileNode_eq hpn
  obtain ⟨specs, hspecs, -⟩ := hchecked.fitting
  have htype : ∀ {direction : Direction} {i : Nat} {id : PinId} {s : PinSpec} {type : String}
      {form : Form}, (specsToward specs direction false)[i]? = some s → s.type = .data type form →
      ((g.pinsToward n.id direction false).map (·.id))[i]? = some id →
      p.typeOf c' id = some (.ofName type) :=
    fun hs ht hid => ha.typeOf_of_specs hc hc' hkeeps hn hg hnode hchecked hspecs hs ht hid
  have honly : ∀ {direction : Direction} {s : PinSpec} {type : String} {form : Form} {id : PinId},
      specsToward specs direction false = [s] → s.type = .data type form →
      id ∈ (g.pinsToward n.id direction false).map (·.id) →
      ((g.pinsToward n.id direction false).map (·.id))[0]? = some id ∧
        p.typeOf c' id = some (.ofName type) :=
    fun hs ht hid => ha.typeOf_of_only hc hc' hkeeps hn hg hnode hchecked hspecs hs ht hid
  have hnone (hs : specsToward specs .input false = []) := pinsToward_eq_nil hchecked hspecs hs
  have hcall {f : Function} := ha.fits_call (f := f) hc hc' hkeeps hn hg hnode hchecked hspecs
  have hop := opOf_eq_ok_iff.mp hop
  generalize n.kind = kind at hop hspecs
  cases hop with
  | entry | branch | whileLoop | comment => trivial
  | ret =>
    cases hspecs
    intro h form hresult id hid
    obtain ⟨r, hr, hhandle, -⟩ := ha.resultType h form hresult
    rw [hc.id_info hc' hkeeps (handle?_of_handleNamed? hhandle)]
    refine htype (s := PinSpec.dataIn Function.resultName r.type r.form) ?_ rfl hid
    rw [specsToward_append, hr]
    cases g.signature.pure <;> rfl
  | @call _ _ _ f hresolve =>
    obtain ⟨f', hf, hspecs⟩ := bind_eq_ok_iff.mp hspecs
    rw [hresolve] at hf
    cases hf
    exact hcall hspecs
  | fieldGet haccess =>
    obtain ⟨⟨info, name⟩, hresolve, hspecs⟩ := bind_eq_ok_iff.mp hspecs
    cases hspecs
    refine ⟨fun id hid => ⟨_, htype rfl rfl hid, hasField_of_access hc hc' hkeeps hlies haccess⟩,
      fun out hout => ?_⟩
    rw [← id_info_of_access hc hc' hkeeps haccess hresolve]
    exact honly rfl rfl hout
  | fieldSet haccess =>
    obtain ⟨⟨info, name⟩, hresolve, hspecs⟩ := bind_eq_ok_iff.mp hspecs
    cases hspecs
    refine ⟨fun id hid => ⟨_, htype rfl rfl hid, hasField_of_access hc hc' hkeeps hlies haccess⟩,
      fun id hid => ?_⟩
    rw [← id_info_of_access hc hc' hkeeps haccess hresolve]
    exact htype rfl rfl hid
  | forLoop =>
    cases hspecs
    exact fun out hout => (honly rfl rfl hout).2
  | @reroute type =>
    cases hspecs
    cases type with
    | flow =>
      intro id hid
      rw [hnone rfl] at hid
      cases hid
    | data type form =>
      intro id hid out hout
      rw [(honly rfl rfl hout).2]
      exact (htype rfl rfl hid).symm

theorem Assembled.op_entry (ha : Assembled g c p) (hg : g.Consistent) {pn : ProgramNode}
    (hpn : p.node? p.entry = some pn) : pn.op = .entry := by
  obtain ⟨entry, hentry, hid⟩ := ha.entry
  obtain ⟨hlive, hkind⟩ := List.mem_filter.mp hentry
  obtain ⟨n, hn', hcompile⟩ := ha.node_of p.entry pn hpn
  rw [hid, node?_of_mem_live hg hlive] at hn'
  cases hn'
  obtain ⟨op, hop, rfl⟩ := compileNode_eq hcompile
  rw [opOf, eq_of_beq hkind] at hop
  cases hop
  rfl

section Compiled

variable {s : Setting} (hedited : g.Edited) (h : compile g c s = .ok p)
include hedited h

theorem pin_of_output {id : NodeId} {pn : ProgramNode} (hpn : p.node? id = some pn) {o : PinId}
    (ho : o ∈ pn.dataOut) : ∃ q, p.pin? o = some q ∧ q.node = id := by
  obtain ⟨-, ha⟩ := assembled_of_compile hedited.consistent h
  obtain ⟨n, hn, rfl, hchecked, hcompile⟩ := exists_compiled hedited.consistent h hpn
  obtain ⟨op, -, rfl⟩ := compileNode_eq hcompile
  exact ha.exists_own_pin hedited.numbered hedited.consistent hn hchecked ho

theorem notMem_dataOut_of_input {id id' : NodeId} {pn pn' : ProgramNode} (hpn : p.node? id = some pn) {i : PinId}
    (hi : i ∈ pn.dataIn) (hpn' : p.node? id' = some pn') : i ∉ pn'.dataOut := by
  intro ho
  obtain ⟨n, hn, -, -, hcompile⟩ := exists_compiled hedited.consistent h hpn
  obtain ⟨n', hn', -, -, hcompile'⟩ := exists_compiled hedited.consistent h hpn'
  obtain ⟨op, -, rfl⟩ := compileNode_eq hcompile
  obtain ⟨op', -, rfl⟩ := compileNode_eq hcompile'
  obtain ⟨q, hq, -, hin, -⟩ := exists_pin_of_mem hedited.numbered hedited.consistent hn hi
  obtain ⟨q', hq', -, hout, -⟩ := exists_pin_of_mem hedited.numbered hedited.consistent hn' ho
  rw [hq] at hq'
  cases hq'
  cases hin.symm.trans hout

end Compiled

theorem typed_of_compile {lies : Layouts} {s : Setting} (hedited : g.Edited)
    (h : compile g c s = .ok p) (hc : c.Filed) (hc' : c'.Filed) (hkeeps : c.Keeps c')
    (hlies : c.Embeds lies) : p.Typed lies c' := by
  have hn := hedited.numbered
  have hg := hedited.consistent
  obtain ⟨hfindings, ha⟩ := assembled_of_compile hg h
  obtain ⟨-, -, hlinks, -, -⟩ := findings_eq_nil_iff.mp hfindings
  refine ⟨fun id pn hpn i hi => ?_, fun id pn hpn o ho => pin_of_output hedited h hpn ho, fun i q o hq ho => ?_,
    fun id pn hpn => ?_, fun pn hpn => ha.op_entry hg hpn⟩
  · obtain ⟨n, hn', rfl, hchecked, hcompile⟩ := exists_compiled hg h hpn
    obtain ⟨op, -, rfl⟩ := compileNode_eq hcompile
    exact ⟨notMem_dataOut_of_input hedited h hpn hi hpn, ha.exists_own_pin hn hg hn' hchecked hi⟩
  · obtain ⟨_, -, -, hlinked⟩ := ha.pin_of i q hq
    obtain ⟨l, hl, hinput, rfl, hflow⟩ := hlinked.source o ho
    obtain ⟨output, input, hout, hin, -, -, hjoins⟩ := hlinks l hl
    rw [hout] at hflow
    have hin' : g.pin? i = some input := by rw [← PinId.ext hinput]; exact hin
    cases hot : output.type with
    | flow => rw [Option.any_some, Pin.isFlow, hot] at hflow; cases hflow
    | data outType outForm =>
      cases hit : input.type with
      | flow => rw [hot, hit] at hjoins; exact hjoins.elim
      | data inType inForm =>
        rw [hot, hit] at hjoins
        refine ⟨_, _, ha.typeOf hc hc' hkeeps hout hot, ha.typeOf hc hc' hkeeps hin' hit,
          fun type offset hlie => ?_⟩
        rcases hjoins.1 with heq | ⟨-, hderived⟩
        · rw [← heq]
          exact hlie
        · exact hlies.base hlie hderived
  · obtain ⟨n, hn', -, hchecked, hcompile⟩ := exists_compiled hg h hpn
    exact fits_of_checked ha hc hc' hkeeps hlies hn hg hn' hchecked hcompile

end Program

end Flowscript
