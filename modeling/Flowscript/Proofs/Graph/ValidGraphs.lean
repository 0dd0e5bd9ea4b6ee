import Mathlib.Data.List.Pairwise
import Flowscript.Proofs.CollectionLemmas
import Flowscript.Proofs.Graph.CheckFindings
import Flowscript.Proofs.Graph.CycleSearch
import Flowscript.Proofs.Graph.FlowSearch
import Flowscript.Proofs.Graph.LinkLimits
import Flowscript.Proofs.Graph.RerouteChains

/-! # Valid graphs

What makes a graph valid, without reference to how it is checked. The checks find nothing exactly in
valid graphs: they miss no problem and report none that is not there.
-/
namespace Flowscript

/-- A type that a signature may name in a form: registered, visible and, to be held by value,
ownable. -/
def Catalogue.Offers (c : Catalogue) (type : String) (form : Form) : Prop :=
  ∃ t, c.lookupName? type = some t ∧ t.visible = true ∧ (form.isOwning = true → t.isOwnable = true)

def GraphSignature.Answers (s : GraphSignature) (e : EventSignature) : Prop :=
  List.Forall₂ (fun (q : Param) (p : ParamDecl) => q.type = .ofName p.type ∧ q.form = p.form)
    e.params s.params ∧
  Option.Rel (fun (q : Param) (r : ResultDecl) => q.type = .ofName r.type ∧ q.form = r.form)
    e.result s.result

def Node.pinIds (n : Node) : List PinId := (List.range' n.firstPin.val n.pinCount).map PinId.mk

namespace Graph

/-- One expression reads another: a data link leads from the second to the first. -/
def Reads (g : Graph) (a b : NodeId) : Prop :=
  ∃ l ∈ g.liveLinks, ∃ output input, g.pin? l.output = some output ∧ g.pin? l.input = some input ∧
    output.isFlow = false ∧ g.isPure output.node = true ∧ g.isPure input.node = true ∧
    input.node = a ∧ output.node = b

/-- A signature whose parameters have different names, whose types are on offer and that answers the
event it names. -/
structure SignatureValid (c : Catalogue) (s : GraphSignature) : Prop where
  names : (s.params.map (·.name)).Nodup
  params : ∀ p ∈ s.params, c.Offers p.type p.form
  result : ∀ r ∈ s.result, c.Offers r.type r.form
  event : ∀ name ∈ s.event, ∃ e, c.event? name = some e ∧ s.Answers e

/-- A node whose range lies within the pins and holds, in order, live pins of its own that are those
its kind asks for, of registered types. -/
structure NodeValid (g : Graph) (c : Catalogue) (n : Node) : Prop where
  range : 0 < n.firstPin.val ∧ n.firstPin.val + n.pinCount ≤ g.pins.size + 1
  pins : ∃ specs, n.kind.expectedPins g.signature c = .ok specs ∧
    List.Forall₂ (fun s id => ∃ p, g.pin? id = some p ∧ p.node = n.id ∧
      p.direction = s.direction ∧ p.name = s.name ∧ p.type = s.type ∧
      ∀ type ∈ p.type.type?, (c.lookupName? type).isSome) specs n.pinIds

/-- A graph that can be compiled. -/
structure Valid (g : Graph) (c : Catalogue) : Prop where
  signature : SignatureValid c g.signature
  nodes : ∀ n ∈ g.liveNodes, g.NodeValid c n
  links : ∀ l ∈ g.liveLinks, g.LinkChecked c l
  fans : g.Fanned
  entry : g.entries.length = 1
  pure : g.signature.pure = true → g.returns.length = 1 ∧ ∀ n ∈ g.liveNodes,
    n.kind = .entry ∨ n.kind = .ret ∨ n.kind.isComment = true ∨ g.isPure n.id = true
  acyclic : ∀ id, ¬ Relation.TransGen g.Reads id id
  sources : ∀ l ∈ g.liveLinks, ∀ output, g.pin? l.output = some output → output.isFlow = false →
    g.isPure output.node = false →
    ∃ n ∈ g.entries, Relation.ReflTransGen g.FlowsTo n.id output.node

variable {g : Graph} {c : Catalogue}

theorem checkType_eq_nil_iff {type : String} {form : Form} :
    checkType c type form = [] ↔ c.Offers type form := by
  unfold checkType Catalogue.Offers
  cases c.lookupName? type with
  | none => simp
  | some t =>
    cases ht : t.visible <;> cases hf : form.isOwning <;> cases ho : t.isOwnable <;> simp_all

theorem checkParams_eq_nil_iff {seen : List String} {params : List ParamDecl} :
    checkParams c seen params = [] ↔ (∀ p ∈ params, p.name ∉ seen) ∧
      (params.map (·.name)).Nodup ∧ ∀ p ∈ params, c.Offers p.type p.form := by
  induction params generalizing seen with
  | nil => simp [checkParams]
  | cons p params ih =>
    rw [checkParams, List.append_eq_nil_iff, List.append_eq_nil_iff, checkType_eq_nil_iff, ih,
      List.forall_mem_cons, List.forall_mem_cons, List.map_cons, List.nodup_cons]
    simp only [ite_eq_right_iff, List.contains_iff_mem, reduceCtorEq, imp_false, List.mem_cons, not_or,
      List.mem_map, not_exists, not_and]
    constructor
    · rintro ⟨⟨hseen, hoffers⟩, hrest, hnodup, hall⟩
      exact ⟨⟨hseen, fun q hq => (hrest q hq).2⟩, ⟨fun q hq => (hrest q hq).1, hnodup⟩, hoffers, hall⟩
    · rintro ⟨⟨hseen, hrest⟩, ⟨hname, hnodup⟩, hoffers, hall⟩
      exact ⟨⟨hseen, hoffers⟩, fun q hq => ⟨hname q hq, hrest q hq⟩, hnodup, hall⟩

theorem answersEvent_iff {s : GraphSignature} {e : EventSignature} :
    answersEvent s e = true ↔ s.Answers e := by
  simp only [answersEvent, GraphSignature.Answers, Bool.and_eq_true, beq_iff_eq, List.all_eq_true,
    Prod.forall, List.forall₂_iff_zip]
  refine and_congr Iff.rfl ?_
  cases e.result <;> cases s.result <;> simp

theorem checkEvent_eq_nil_iff {s : GraphSignature} :
    checkEvent c s = [] ↔ ∀ name ∈ s.event, ∃ e, c.event? name = some e ∧ s.Answers e := by
  unfold checkEvent
  cases s.event with
  | none => simp
  | some name =>
    cases he : c.event? name with
    | none => simp [he]
    | some e =>
      simp [he, ← answersEvent_iff]

theorem checkSignature_eq_nil_iff {s : GraphSignature} :
    checkSignature c s = [] ↔ SignatureValid c s := by
  simp only [checkSignature, List.append_eq_nil_iff, checkParams_eq_nil_iff, checkEvent_eq_nil_iff]
  constructor
  · rintro ⟨⟨⟨-, hnames, hparams⟩, hresult⟩, hevent⟩
    refine ⟨hnames, hparams, fun r hr => ?_, hevent⟩
    rw [Option.mem_def.mp hr] at hresult
    exact checkType_eq_nil_iff.mp hresult
  · intro h
    refine ⟨⟨⟨by simp, h.names, h.params⟩, ?_⟩, h.event⟩
    cases hr : s.result with
    | none => rfl
    | some r => exact checkType_eq_nil_iff.mpr (h.result r hr)

theorem pinRange_eq_pinIds {n : Node} (hn : g.Numbered)
    (hrange : n.firstPin.val + n.pinCount ≤ g.pins.size + 1) : g.pinRange n = n.pinIds := by
  have hstop := pinStop_eq hn hrange
  rw [pinRange, Node.pinIds, hstop, Nat.min_eq_left hrange, Nat.add_sub_cancel_left]

theorem SignatureValid.registered (h : SignatureValid c g.signature) {kind : NodeKind}
    (hkind : kind = .entry ∨ kind = .ret) {specs : List PinSpec}
    (hspecs : kind.expectedPins g.signature c = .ok specs) {s : PinSpec} (hs : s ∈ specs)
    {type : String} (htype : type ∈ s.type.type?) : (c.lookupName? type).isSome := by
  rcases hkind with rfl | rfl
  · cases hspecs
    rcases List.mem_append.mp hs with hs | hs
    · split at hs
      · cases hs
      · rw [List.mem_singleton.mp hs] at htype
        cases htype
    · obtain ⟨p, hp, rfl⟩ := List.mem_map.mp hs
      obtain ⟨t, ht, -⟩ := h.params p hp
      cases htype
      rw [ht]
      rfl
  · cases hspecs
    rcases List.mem_append.mp hs with hs | hs
    · split at hs
      · cases hs
      · rw [List.mem_singleton.mp hs] at htype
        cases htype
    · rw [Option.mem_toList, Option.map_eq_some_iff] at hs
      obtain ⟨r, hr, rfl⟩ := hs
      obtain ⟨t, ht, -⟩ := h.result r hr
      cases htype
      rw [ht]
      rfl

/-- The pins of a node's range are in order those asked for, and a property holds of each, exactly
when the live ones are and none is missing. -/
theorem forall₂_pinIds_iff {n : Node} (hn : g.Numbered)
    (hrange : n.firstPin.val + n.pinCount ≤ g.pins.size + 1) (P : Pin → Prop) (specs : List PinSpec) :
    List.Forall₂ (fun s id => ∃ p, g.pin? id = some p ∧ P p ∧ s.fits p = true) specs n.pinIds ↔
      (g.pinsOf n).length = n.pinCount ∧ (∀ p ∈ g.pinsOf n, P p) ∧
        List.Forall₂ (fun s p => s.fits p = true) specs (g.pinsOf n) := by
  rw [← forall₂_filterMap_iff, forall₂_and_right_iff, ← pinRange_eq_pinIds hn hrange, pinsOf]
  rw [pinRange_eq_pinIds hn hrange, Node.pinIds, List.length_map, List.length_range']

theorem nodeChecked_iff (hn : g.Numbered) (hsignature : SignatureValid c g.signature) {n : Node}
    (hnode : g.node? n.id = some n) : g.NodeChecked c n ↔ g.NodeValid c n := by
  have hpins : g.nodePins n.id = g.pinsOf n := by rw [nodePins, hnode]
  let Fine (p : Pin) : Prop := p.node = n.id ∧ ∀ type ∈ p.type.type?, (c.lookupName? type).isSome
  have hfine : ∀ (s : PinSpec) (p : Pin), (p.node = n.id ∧ p.direction = s.direction ∧
      p.name = s.name ∧ p.type = s.type ∧ ∀ type ∈ p.type.type?, (c.lookupName? type).isSome) ↔
      Fine p ∧ s.fits p = true := by
    intro s p
    rw [PinSpec.fits_iff]
    tauto
  constructor
  · intro h
    have hrange : 0 < n.firstPin.val ∧ n.firstPin.val + n.pinCount ≤ g.pins.size + 1 := by
      have hfirst := h.first
      have hlast := h.last
      omega
    obtain ⟨specs, hspecs, hfits⟩ := h.fitting
    refine ⟨hrange, specs, hspecs, ?_⟩
    simp only [hfine]
    rw [forall₂_pinIds_iff hn hrange.2, ← hpins]
    refine ⟨h.full, fun p hp => ⟨h.own p hp, fun type htype => ?_⟩, hfits⟩
    by_cases hkind : n.kind = .entry ∨ n.kind = .ret
    · obtain ⟨s, hs, -, -, htypes⟩ := h.exists_spec hp hspecs
      rw [htypes] at htype
      exact hsignature.registered hkind hspecs hs htype
    · rw [not_or] at hkind
      exact h.registered hkind.1 hkind.2 p hp type htype
  · rintro ⟨hrange, specs, hspecs, hall⟩
    simp only [hfine] at hall
    rw [forall₂_pinIds_iff hn hrange.2, ← hpins] at hall
    obtain ⟨hfull, hall, hfits⟩ := hall
    exact ⟨by omega, by omega, fun p hp => (hall p hp).1, hfull, ⟨specs, hspecs, hfits⟩,
      fun _ _ p hp => (hall p hp).2⟩

/-- The ends that are counted are different exactly when none is counted twice. -/
theorem checkFans_eq_nil_iff {seen : List (Bool × PinId)} (hseen : seen.Nodup) {links : List Link} :
    g.checkFans seen links = [] ↔
      (links.filterMap g.limitedEnd?).Nodup ∧ ∀ e ∈ links.filterMap g.limitedEnd?, e ∉ seen := by
  induction links generalizing seen with
  | nil => simp [checkFans]
  | cons l links ih =>
    rw [checkFans]
    cases hend : g.limitedEnd? l with
    | none =>
      rw [List.filterMap_cons_none hend]
      exact ih hseen
    | some e =>
      rw [List.filterMap_cons_some hend, List.append_eq_nil_iff, List.nodup_cons,
        List.forall_mem_cons]
      by_cases hmem : e ∈ seen
      · have hcount : seen.count e = 1 := List.count_eq_one_of_mem hseen hmem
        simp [hcount, hmem]
      · have hcount : seen.count e ≠ 1 := by
          rw [List.count_eq_zero_of_not_mem hmem]
          decide
        rw [if_neg hcount, ih (List.nodup_cons.mpr ⟨hmem, hseen⟩)]
        simp only [List.mem_cons, not_or, true_and]
        constructor
        · rintro ⟨hnodup, hall⟩
          exact ⟨⟨fun he => (hall e he).1 rfl, hnodup⟩, hmem, fun x hx => (hall x hx).2⟩
        · rintro ⟨⟨hnot, hnodup⟩, -, hall⟩
          exact ⟨hnodup, fun x hx => ⟨fun he => hnot (he ▸ hx), hall x hx⟩⟩

theorem LinkChecked.role {l : Link} (h : g.LinkChecked c l) : ∃ a b flow,
    g.role? l.output = some (a, .output, flow) ∧ g.role? l.input = some (b, .input, flow) ∧
      g.limitedEnd? l = some (if flow then (true, l.output) else (false, l.input)) := by
  obtain ⟨output, input, hout, hin, hdo, hdi, hjoins⟩ := h
  have hflow : input.isFlow = output.isFlow := by
    unfold Pin.isFlow
    generalize output.type = source at hjoins ⊢
    generalize input.type = target at hjoins ⊢
    cases source <;> cases target <;> simp_all [Joins, PinType.isFlow]
  refine ⟨output.node, input.node, output.isFlow, ?_, ?_, ?_⟩
  · rw [role?, hout, Option.map_some, Pin.role, hdo]
  · rw [role?, hin, Option.map_some, Pin.role, hdi, hflow]
  · rw [limitedEnd?, hout, Option.map_some]

theorem LinkChecked.directed {l : Link} (h : g.LinkChecked c l) : g.Directed l := by
  obtain ⟨output, input, hout, hin, hdo, hdi, -⟩ := h
  exact ⟨output, input, hout, hin, hdo, hdi⟩

/-- A link counts at an end of its own exactly when that end takes one link at most. -/
theorem LinkChecked.limitedEnd_eq_iff {l : Link} (h : g.LinkChecked c l) {q : PinId} {node : NodeId}
    {direction : Direction} {flow : Bool} (hq : g.role? q = some (node, direction, flow))
    (htakes : flow = (direction == .output)) :
    g.limitedEnd? l = some (flow, q) ↔ l.endAt direction = q := by
  obtain ⟨a, b, kind, hout, hin, hend⟩ := h.role
  rw [hend, Option.some.injEq]
  cases direction with
  | input =>
    subst htakes
    cases kind with
    | false => simp [Link.endAt]
    | true =>
      refine ⟨fun he => by simp at he, fun he => ?_⟩
      have hin' : g.role? q = some (b, .input, true) := he ▸ hin
      rw [hq] at hin'
      simp at hin'
  | output =>
    subst htakes
    cases kind with
    | true => simp [Link.endAt]
    | false =>
      refine ⟨fun he => by simp at he, fun he => ?_⟩
      have hout' : g.role? q = some (a, .output, false) := he ▸ hout
      rw [hq] at hout'
      simp at hout'

theorem LinkChecked.exists_role {l : Link} (h : g.LinkChecked c l) {flow : Bool} {q : PinId}
    (he : g.limitedEnd? l = some (flow, q)) : ∃ node direction,
      g.role? q = some (node, direction, flow) ∧ flow = (direction == .output) := by
  obtain ⟨a, b, kind, hout, hin, hend⟩ := h.role
  rw [hend] at he
  cases kind with
  | true =>
    cases he
    exact ⟨a, .output, hout, rfl⟩
  | false =>
    cases he
    exact ⟨b, .input, hin, rfl⟩

/-- Checked links count at different ends exactly when the limits hold. -/
theorem nodup_limitedEnds_iff (hid : ∀ k l, g.link? k = some l → l.id = k)
    (hlinks : ∀ l ∈ g.liveLinks, g.LinkChecked c l) :
    (g.liveLinks.filterMap g.limitedEnd?).Nodup ↔ g.Sparse := by
  have hsymm : Std.Symm fun l l' : Link => ∀ e, g.limitedEnd? l = some e →
      ∀ e', g.limitedEnd? l' = some e' → e ≠ e' :=
    ⟨fun l l' h e he e' he' hsame => h e' he' e he hsame.symm⟩
  rw [List.Nodup, List.pairwise_filterMap]
  constructor
  · intro h q node direction flow hq htakes k k' l l' hl hl' he he'
    have hmem := mem_liveLinks_iff.mpr ⟨k, hl⟩
    have hmem' := mem_liveLinks_iff.mpr ⟨k', hl'⟩
    have hend := ((hlinks l hmem).limitedEnd_eq_iff hq htakes).mpr he
    have hend' := ((hlinks l' hmem').limitedEnd_eq_iff hq htakes).mpr he'
    by_contra hne
    refine h.forall hmem hmem' (fun hsame => hne ?_) _ hend _ hend' rfl
    rw [← hid k l hl, ← hid k' l' hl', hsame]
  · intro h
    refine (nodup_liveLinks hid).pairwise_of_forall_ne fun l hl l' hl' hne e he e' he' hsame => hne ?_
    subst hsame
    obtain ⟨node, direction, hq, htakes⟩ := (hlinks l hl).exists_role he
    have hend := ((hlinks l hl).limitedEnd_eq_iff hq htakes).mp he
    have hend' := ((hlinks l' hl').limitedEnd_eq_iff hq htakes).mp he'
    obtain ⟨k, hk⟩ := mem_liveLinks_iff.mp hl
    obtain ⟨k', hk'⟩ := mem_liveLinks_iff.mp hl'
    have hslot := h _ _ _ _ hq htakes k k' l l' hk hk' hend hend'
    rw [hslot, hk'] at hk
    exact (Option.some.inj hk).symm

theorem checkPure_eq_nil_iff : g.checkPure = [] ↔ (g.signature.pure = true →
    g.returns.length = 1 ∧ ∀ n ∈ g.liveNodes,
      n.kind = .entry ∨ n.kind = .ret ∨ n.kind.isComment = true ∨ g.isPure n.id = true) := by
  unfold checkPure
  cases g.signature.pure with
  | false => simp
  | true =>
    simp only [if_true, List.append_eq_nil_iff, ite_eq_left_iff, List.map_eq_nil_iff,
      List.filter_eq_nil_iff, fitsPure, Bool.not_eq_true', Bool.not_eq_false, Bool.or_eq_true,
      beq_iff_eq, or_assoc, true_implies, reduceCtorEq, not_not, imp_false]

theorem mem_dependencies_iff {a b : NodeId} : (a, b) ∈ g.dependencies ↔ g.Reads a b := by
  simp only [dependencies, Reads, List.mem_filterMap]
  refine exists_congr fun l => and_congr_right fun _ => ?_
  cases g.pin? l.output with
  | none => simp
  | some output =>
    cases g.pin? l.input with
    | none => simp
    | some input =>
      cases hflow : output.isFlow <;> cases hout : g.isPure output.node <;>
        cases hin : g.isPure input.node <;> simp [hflow, hout, hin]

theorem reads_eq (g : Graph) : (fun a b => (a, b) ∈ g.dependencies) = g.Reads := by
  funext a b
  exact propext mem_dependencies_iff

/-- Two expressions that read each other, directly or not: they are in one component. -/
def Entwined (g : Graph) (a b : NodeId) : Prop :=
  Relation.ReflTransGen g.Reads a b ∧ Relation.ReflTransGen g.Reads b a

/-- Only live nodes read others, so the search for cycles misses none. -/
theorem exists_entwined (hid : ∀ id n, g.node? id = some n → n.id = id) {id : NodeId}
    (hcycle : Relation.TransGen g.Reads id id) : ∃ found ∈ g.dataCycles, g.Entwined id found := by
  obtain ⟨next, hnext, -⟩ := Relation.TransGen.head'_iff.mp hcycle
  obtain ⟨l, -, output, input, -, -, -, -, hpure, hnode, -⟩ := hnext
  rw [hnode] at hpure
  have hlive : ∃ n, g.node? id = some n := by
    unfold isPure at hpure
    cases hn : g.node? id with
    | none => simp [hn] at hpure
    | some n => exact ⟨n, rfl⟩
  obtain ⟨n, hn⟩ := hlive
  have hthrough := exists_mem_dataCycles (mem_live_iff.mpr ⟨_, hn⟩)
  rw [reads_eq, hid id n hn] at hthrough
  exact hthrough hcycle

theorem transGen_reads_of_mem {id : NodeId} (h : id ∈ g.dataCycles) : Relation.TransGen g.Reads id id := by
  have hcycle := transGen_of_mem_dataCycles h
  rwa [reads_eq] at hcycle

theorem dataCycles_eq_nil_iff (hid : ∀ id n, g.node? id = some n → n.id = id) :
    g.dataCycles = [] ↔ ∀ id, ¬ Relation.TransGen g.Reads id id := by
  constructor
  · intro h id hcycle
    obtain ⟨found, hfound, -⟩ := exists_entwined hid hcycle
    rw [h] at hfound
    cases hfound
  · intro h
    exact List.eq_nil_iff_forall_not_mem.mpr fun id hid => h id (transGen_reads_of_mem hid)

/-- Every node found lies on a cycle, none is found twice, and of every component with a cycle one is
found. -/
theorem dataCycles_exact (hslots : g.Slotted) :
    (∀ id ∈ g.dataCycles, Relation.TransGen g.Reads id id) ∧ g.dataCycles.Nodup ∧
      ∀ id, Relation.TransGen g.Reads id id → ∃ found ∈ g.dataCycles, g.Entwined id found :=
  ⟨fun _ => transGen_reads_of_mem, g.nodup_dataCycles, fun _ => exists_entwined hslots.node_id⟩

def knotNode (n : Nat) : Node :=
  { id := ⟨n⟩, kind := .reroute (.data "i32" .value), firstPin := ⟨2 * n - 1⟩, pinCount := 2 }

def knotIn (n : Nat) : Pin :=
  { id := ⟨2 * n - 1⟩, node := ⟨n⟩, direction := .input, name := "In", type := .data "i32" .value }

def knotOut (n : Nat) : Pin :=
  { id := ⟨2 * n⟩, node := ⟨n⟩, direction := .output, name := "Out", type := .data "i32" .value }

/-- Two reroutes that feed each other, one of them twice, one that feeds itself, and one that none
depends on. -/
def knot : Graph where
  name := "Knot"
  nodes := #[some (knotNode 1), some (knotNode 2), some (knotNode 3), some (knotNode 4)]
  pins := #[some (knotIn 1), some (knotOut 1), some (knotIn 2), some (knotOut 2), some (knotIn 3),
    some (knotOut 3), some (knotIn 4), some (knotOut 4)]
  links := #[some ⟨⟨1⟩, ⟨3⟩, ⟨2⟩⟩, some ⟨⟨2⟩, ⟨1⟩, ⟨4⟩⟩,
    some ⟨⟨3⟩, ⟨3⟩, ⟨2⟩⟩, some ⟨⟨4⟩, ⟨5⟩, ⟨6⟩⟩,
    some ⟨⟨5⟩, ⟨7⟩, ⟨2⟩⟩]

theorem slotted_knot : knot.Slotted := by
  refine ⟨fun i n hn => ?_, fun i p hp => ?_, fun i l hl => ?_⟩
  · match i, hn with
    | 0, rfl | 1, rfl | 2, rfl | 3, rfl => rfl
  · match i, hp with
    | 0, rfl | 1, rfl | 2, rfl | 3, rfl | 4, rfl | 5, rfl | 6, rfl | 7, rfl => rfl
  · match i, hl with
    | 0, rfl | 1, rfl | 2, rfl | 3, rfl | 4, rfl => rfl

theorem dataCycles_exact_knot : knot.Slotted ∧ knot.dataCycles = [⟨1⟩, ⟨3⟩] ∧
    (∀ id ∈ knot.dataCycles, Relation.TransGen knot.Reads id id) ∧ knot.dataCycles.Nodup ∧
      ∀ id, Relation.TransGen knot.Reads id id → ∃ found ∈ knot.dataCycles, knot.Entwined id found :=
  ⟨slotted_knot, by decide, dataCycles_exact slotted_knot⟩

theorem checkSources_eq_nil_iff : g.checkSources = [] ↔ ∀ l ∈ g.liveLinks, ∀ output,
    g.pin? l.output = some output → output.isFlow = false → g.isPure output.node = false →
    ∃ n ∈ g.entries, Relation.ReflTransGen g.FlowsTo n.id output.node := by
  simp only [checkSources, List.filterMap_eq_nil_iff]
  refine forall₂_congr fun l _ => ?_
  have hreached : ∀ id, (g.reachable (g.entries.map (·.id))).contains id = true ↔
      ∃ n ∈ g.entries, Relation.ReflTransGen g.FlowsTo n.id id := by
    intro id
    rw [List.contains_iff_mem, mem_reachable_iff]
    simp only [List.mem_map, exists_exists_and_eq_and]
  cases g.pin? l.output with
  | none => simp
  | some output =>
    simp only [Option.some.injEq, forall_eq']
    rw [← hreached]
    cases hflow : output.isFlow <;> cases hpure : g.isPure output.node <;> simp

theorem checkStructure_eq_nil_iff : g.checkStructure = [] ↔ g.entries.length = 1 ∧
    g.checkPure = [] ∧ g.dataCycles = [] ∧ g.checkSources = [] := by
  simp only [checkStructure, List.append_eq_nil_iff, List.map_eq_nil_iff, ite_eq_left_iff,
    reduceCtorEq, imp_false, not_not, and_assoc]

/-- The checks find nothing exactly in valid graphs. -/
theorem errors_eq_nil_iff_valid (hslots : g.Slotted) (hn : g.Numbered) (c : Catalogue)
    (script : Option String) : g.errors c script = [] ↔ g.Valid c := by
  have hnodes : (∀ n ∈ g.liveNodes, g.node? n.id = some n) := by
    intro n hn
    obtain ⟨id, hid⟩ := mem_live_iff.mp hn
    rw [hslots.node_id ⟨id⟩ n hid]
    exact hid
  have hfans : (∀ l ∈ g.liveLinks, g.LinkChecked c l) →
      (g.checkFans [] g.liveLinks = [] ↔ g.Fanned) := by
    intro hlinks
    rw [checkFans_eq_nil_iff List.nodup_nil, nodup_limitedEnds_iff hslots.link_id hlinks,
      fanned_iff_sparse hslots.pin_id hslots.link_id fun k l hl =>
        (hlinks l (mem_liveLinks_iff.mpr ⟨k, hl⟩)).directed]
    simp
  rw [errors, List.map_eq_nil_iff, findings_eq_nil_iff, checkSignature_eq_nil_iff,
    checkStructure_eq_nil_iff, checkPure_eq_nil_iff, dataCycles_eq_nil_iff hslots.node_id,
    checkSources_eq_nil_iff]
  constructor
  · rintro ⟨hsignature, hchecked, hlinks, hcrowded, hentry, hpure, hcycles, hsources⟩
    exact ⟨hsignature, fun n hn' => (nodeChecked_iff hn hsignature (hnodes n hn')).mp (hchecked n hn'),
      hlinks, (hfans hlinks).mp hcrowded, hentry, hpure, hcycles, hsources⟩
  · intro h
    exact ⟨h.signature, fun n hn' => (nodeChecked_iff hn h.signature (hnodes n hn')).mpr (h.nodes n hn'),
      h.links, (hfans h.links).mpr h.fans, h.entry, h.pure, h.acyclic, h.sources⟩

theorem slotted_looseGraph : looseGraph.Slotted := by
  refine ⟨fun i n hn => ?_, fun i p hp => ?_, fun i l hl => ?_⟩
  · match i, hn with
    | 0, rfl | 1, rfl | 2, rfl => rfl
  · match i, hp with
    | 0, rfl | 1, rfl | 2, rfl | 3, rfl | 4, rfl | 5, rfl => rfl
  · match i, hl with
    | 0, rfl | 1, rfl => rfl

theorem valid_looseGraph :
    looseGraph.errors looseCatalogue none = [] ∧ looseGraph.Valid looseCatalogue := by
  have hnone : looseGraph.errors looseCatalogue none = [] := by
    rw [errors, findings_looseGraph]
    rfl
  have hn : looseGraph.Numbered := by
    unfold Numbered
    decide
  exact ⟨hnone, (errors_eq_nil_iff_valid slotted_looseGraph hn _ none).mp hnone⟩

end Graph

end Flowscript
