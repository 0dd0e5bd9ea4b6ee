import Mathlib.Data.List.Forall2
import Flowscript.Graph.Check

/-! # Graphs without findings

What the checks of nodes and links ask for, as properties: a check finds nothing exactly when its
property holds.
-/
namespace Flowscript

theorem PinSpec.fits_iff {s : PinSpec} {p : Pin} :
    s.fits p = true ↔ p.direction = s.direction ∧ p.name = s.name ∧ p.type = s.type := by
  simp only [fits, Bool.and_eq_true, beq_iff_eq, and_assoc]

theorem PinSpec.exists_fits {specs : List PinSpec} {pins : List Pin}
    (h : List.Forall₂ (fun s p => PinSpec.fits s p = true) specs pins) {p : Pin} (hp : p ∈ pins) :
    ∃ s ∈ specs, p.direction = s.direction ∧ p.name = s.name ∧ p.type = s.type := by
  induction h with
  | nil => cases hp
  | @cons s q specs pins hsq _ ih =>
    rcases List.mem_cons.mp hp with rfl | hp
    · exact ⟨s, List.mem_cons_self, PinSpec.fits_iff.mp hsq⟩
    · obtain ⟨s', hs', hfit⟩ := ih hp
      exact ⟨s', List.mem_cons_of_mem s hs', hfit⟩

namespace Graph

/-- A node's pins are its own, live, the ones its kind asks for, and of registered types. -/
structure NodeChecked (g : Graph) (c : Catalogue) (n : Node) : Prop where
  first : n.firstPin.val ≠ 0
  last : n.firstPin.val - 1 + n.pinCount ≤ g.pins.size
  own : ∀ p ∈ g.nodePins n.id, p.node = n.id
  full : (g.nodePins n.id).length = n.pinCount
  fitting : ∃ specs, n.kind.expectedPins g.signature c = .ok specs ∧
    List.Forall₂ (fun s p => s.fits p = true) specs (g.nodePins n.id)
  registered : n.kind ≠ .entry → n.kind ≠ .ret → ∀ p ∈ g.nodePins n.id, ∀ type ∈ p.type.type?,
    (c.lookupName? type).isSome

/-- What may travel between two pins: flow, or a value in a form that the input accepts, of the same
type or, for an input that refers to its data, of a derived one. -/
def Joins (c : Catalogue) : PinType → PinType → Prop
  | .flow, .flow => True
  | .data outType outForm, .data inType inForm =>
    (TypeId.ofName outType = .ofName inType ∨
      (inForm.isReference || inForm.isPointer) = true ∧
        c.isDerivedFrom (.ofName outType) (.ofName inType) = true) ∧
    inForm.accepts outForm = true
  | _, _ => False

/-- A link runs from a live output to a live input that takes what it carries. -/
def LinkChecked (g : Graph) (c : Catalogue) (l : Link) : Prop :=
  ∃ output input, g.pin? l.output = some output ∧ g.pin? l.input = some input ∧
    output.direction = .output ∧ input.direction = .input ∧ Joins c output.type input.type

variable {g : Graph} {c : Catalogue}

theorem NodeChecked.exists_spec {n : Node} (h : g.NodeChecked c n) {p : Pin}
    (hp : p ∈ g.nodePins n.id) {specs : List PinSpec}
    (hspecs : n.kind.expectedPins g.signature c = .ok specs) :
    ∃ s ∈ specs, p.direction = s.direction ∧ p.name = s.name ∧ p.type = s.type := by
  obtain ⟨specs', hs, hfit⟩ := h.fitting
  rw [hspecs] at hs
  cases hs
  exact PinSpec.exists_fits hfit hp

theorem rangeLeaves_eq_false_iff {n : Node} :
    g.rangeLeaves n = false ↔
      n.firstPin.val ≠ 0 ∧ n.firstPin.val - 1 + n.pinCount ≤ g.pins.size := by
  simp only [rangeLeaves, Bool.or_eq_false_iff, beq_eq_false_iff_ne, decide_eq_false_iff_not,
    Nat.not_lt, gt_iff_lt]

theorem fitting_iff {specs : List PinSpec} {pins : List Pin} {count : Nat} :
    (pins.length == count && specs.length == pins.length
        && (specs.zip pins).all fun (s, p) => s.fits p) = true ↔
      pins.length = count ∧ List.Forall₂ (fun s p => s.fits p = true) specs pins := by
  simp only [Bool.and_eq_true, beq_iff_eq, List.all_eq_true, Prod.forall, List.forall₂_iff_zip,
    and_assoc]

theorem checkNode_eq_nil_iff {n : Node} : g.checkNode c n = [] ↔ g.NodeChecked c n := by
  unfold checkNode
  cases hleaves : g.rangeLeaves n with
  | true =>
    refine ⟨fun h => absurd h (by simp), fun h => ?_⟩
    rw [rangeLeaves_eq_false_iff.mpr ⟨h.first, h.last⟩] at hleaves
    cases hleaves
  | false =>
    obtain ⟨hfirst, hlast⟩ := rangeLeaves_eq_false_iff.mp hleaves
    simp only [Bool.false_eq_true, ↓reduceIte]
    cases hstray : (g.nodePins n.id).find? (·.node != n.id) with
    | some stray =>
      refine ⟨fun h => absurd h (by simp), fun h => ?_⟩
      have hne := List.find?_some hstray
      rw [h.own stray (List.mem_of_find?_eq_some hstray)] at hne
      simp at hne
    | none =>
      have hown : ∀ p ∈ g.nodePins n.id, p.node = n.id := by
        simpa [List.find?_eq_none] using hstray
      cases hspecs : n.kind.expectedPins g.signature c with
      | error e =>
        refine ⟨fun h => absurd h (by simp), fun h => ?_⟩
        obtain ⟨specs, hs, -⟩ := h.fitting
        rw [hspecs] at hs
        cases hs
      | ok specs =>
        simp only [List.append_eq_nil_iff]
        constructor
        · rintro ⟨hfit, hreg⟩
          split at hfit
          · rename_i hf
            obtain ⟨hfull, hf⟩ := fitting_iff.mp hf
            refine ⟨hfirst, hlast, hown, hfull, ⟨specs, hspecs, hf⟩, fun he hr p hp type ht => ?_⟩
            rw [if_neg (by simp [he, hr]), List.filterMap_eq_nil_iff] at hreg
            have hp := hreg p hp
            rw [Option.mem_def.mp ht, Option.bind_some] at hp
            by_contra hnone
            rw [if_neg hnone] at hp
            cases hp
          · cases hfit
        · intro h
          obtain ⟨specs', hs, hf⟩ := h.fitting
          rw [hspecs] at hs
          cases hs
          refine ⟨if_pos (fitting_iff.mpr ⟨h.full, hf⟩), ?_⟩
          split
          · rfl
          · rename_i hk
            rw [List.filterMap_eq_nil_iff]
            intro p hp
            cases ht : p.type.type? with
            | none => rfl
            | some type =>
              exact if_pos (h.registered (fun he => hk (.inl he)) (fun hr => hk (.inr hr)) p hp type ht)

theorem linkProblem_eq_none_iff {output input : PinType} :
    linkProblem c output input = none ↔ Joins c output input := by
  cases output with
  | flow => cases input <;> simp [linkProblem, Joins]
  | data outType outForm =>
    cases input with
    | flow => simp [linkProblem, Joins]
    | data inType inForm =>
      simp only [linkProblem, Joins]
      by_cases htype : TypeId.ofName outType = .ofName inType
      · cases h : inForm.accepts outForm <;> simp [htype]
      · cases hup : (inForm.isReference || inForm.isPointer)
            && c.isDerivedFrom (.ofName outType) (.ofName inType) with
        | false =>
          rw [Bool.and_eq_false_iff] at hup
          rcases hup with hup | hup <;> simp [htype, hup]
        | true =>
          rw [Bool.and_eq_true] at hup
          cases h : inForm.accepts outForm <;> simp [htype, hup]

theorem checkLink_eq_nil_iff {l : Link} : g.checkLink c l = [] ↔ g.LinkChecked c l := by
  unfold checkLink LinkChecked
  cases ho : g.pin? l.output with
  | none => simp
  | some output =>
    cases hi : g.pin? l.input with
    | none => simp
    | some input =>
      dsimp only
      by_cases hd : output.direction = .output ∧ input.direction = .input
      · have hout : (!output.isOutput || !input.isInput) = false := by
          simp [Pin.isOutput, Pin.isInput, hd.1, hd.2]
        rw [hout, if_neg (by simp)]
        cases hp : linkProblem c output.type input.type with
        | none => simp [hd, linkProblem_eq_none_iff.mp hp]
        | some problem =>
          have hj : ¬ Joins c output.type input.type := by
            rw [← linkProblem_eq_none_iff, hp]
            simp
          simp [hj]
      · have hout : (!output.isOutput || !input.isInput) = true := by
          by_contra h
          simp [Pin.isOutput, Pin.isInput] at h
          exact hd h
        rw [hout, if_pos rfl]
        simpa using fun h h' => absurd ⟨h, h'⟩ hd

/-- Nothing is found exactly when no check finds anything. -/
theorem findings_eq_nil_iff :
    g.findings c = [] ↔
      checkSignature c g.signature = [] ∧ (∀ n ∈ g.liveNodes, g.NodeChecked c n) ∧
        (∀ l ∈ g.liveLinks, g.LinkChecked c l) ∧ g.checkFans [] g.liveLinks = [] ∧
        g.checkStructure = [] := by
  simp only [findings, checkLinks, List.append_eq_nil_iff, List.flatMap_eq_nil_iff,
    checkNode_eq_nil_iff, checkLink_eq_nil_iff, and_assoc]

end Graph

end Flowscript
