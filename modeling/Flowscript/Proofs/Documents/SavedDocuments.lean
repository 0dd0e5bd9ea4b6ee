import Flowscript.Proofs.Documents.LoadedRecords
import Flowscript.Proofs.Graph.LinkWiring

/-! # Saving and loading

A graph or script is saved as the text of its document and loaded from it. What was loaded comes back
when it is saved and loaded again exactly if each of its numbers does: a floating-point number is
written with the fewest digits that tell it apart, and these are read with a limited precision. What
was edited need not come back even then: a value that is null counts as left out, and one that is
nested too deep cannot be loaded.
-/
namespace Flowscript

namespace Graph

/-- Saved and loaded, the graph is the same, and so is its text. -/
def RoundTrips (g : Graph) : Prop := ∃ g', parse g.render = .ok g' ∧ g' = g ∧ g'.render = g.render

/-- The coordinates of the nodes and the numbers in the values of the pins are read back as they are. -/
structure Rereads (g : Graph) : Prop where
  position : ∀ n ∈ g.liveNodes, n.position.Rereads
  default : ∀ p ∈ g.livePins, ∀ j ∈ p.default, j.Rereads

theorem roundTrips_iff {g : Graph} (hg : g.Fits) : g.RoundTrips ↔ g.Kept 0 := by
  have hparse : parse g.render = Graph.ofDraft .text (Draft.written 0 g.toJson) :=
    Draft.interpret_pretty _ _
  rw [← ofDraft_written .text (show 0 + 3 < Draft.maxDepth by decide) hg, ← hparse]
  constructor
  · rintro ⟨g', h, rfl, -⟩
    exact h
  · exact fun h => ⟨g, h, rfl, rfl⟩

theorem Sound.kept_iff {depth : Nat} {g : Graph} (hg : g.Sound depth) : g.Kept depth ↔ g.Rereads := by
  constructor
  · intro h
    exact ⟨h.position, fun p hp j hj => (h.default p hp j hj).2.rereads⟩
  · intro h
    refine ⟨h.position, fun p hp j hj => ?_⟩
    obtain ⟨hne, hsorted, hwithin⟩ := hg.default p hp j hj
    exact ⟨hne, h.default p hp j hj, hsorted, hwithin⟩

/-- Node and link numbers have 32 bits. -/
def Counted (g : Graph) : Prop := g.nodes.size < 0x100000000 ∧ g.links.size < 0x100000000

theorem Edited.fits {g : Graph} (h : g.Edited) (hcounted : g.Counted) : g.Fits := by
  have hc := h.consistent
  have hw := h.wired
  have hpins := h.numbered
  obtain ⟨hnodes, hlinks⟩ := hcounted
  unfold Numbered at hpins
  have hnode : ∀ {id : NodeId} {n : Node}, g.node? id = some n → id.val < 0x100000000 :=
    fun hn => Nat.lt_of_le_of_lt (slot?_bound hn).2 hnodes
  have hpin : ∀ {id : PinId} {p : Pin}, g.pin? id = some p → id.val < 0x100000000 := by
    intro id p hp
    have := (slot?_bound hp).2
    omega
  refine ⟨fun n hn => ?_, fun p hp => ?_, fun l hl => ?_⟩
  · obtain ⟨number, hn⟩ := mem_live_iff.mp hn
    have hid := hc.node_id ⟨number⟩ n hn
    have hrange := hc.range ⟨number⟩ n hn
    exact ⟨by rw [hid]; exact hnode hn, by omega, by omega⟩
  · obtain ⟨number, hp⟩ := mem_live_iff.mp hp
    have hid := hc.pin_id ⟨number⟩ p hp
    obtain ⟨n, hn, -⟩ := hc.pin_node ⟨number⟩ p hp
    exact ⟨by rw [hid]; exact hpin hp, hnode hn⟩
  · obtain ⟨number, hl⟩ := mem_live_iff.mp hl
    have hid := hw.link_id ⟨number⟩ l hl
    obtain ⟨source, target, hsource, htarget, -⟩ := hw.joined ⟨number⟩ l hl
    exact ⟨by rw [hid]; exact Nat.lt_of_le_of_lt (slot?_bound hl).2 hlinks, hpin htarget, hpin hsource⟩

/-- The values of the pins are documents, and all numbers are read back as they are. -/
structure Exact (g : Graph) : Prop extends Rereads g where
  sorted : ∀ p ∈ g.livePins, ∀ j ∈ p.default, j.Sorted

/-- No pin has the value null, or one that is nested too deep where it is written. -/
def Plain (depth : Nat) (g : Graph) : Prop :=
  ∀ p ∈ g.livePins, ∀ j ∈ p.default, j ≠ .null ∧ j.Within (depth + 3)

theorem Exact.kept_iff {depth : Nat} {g : Graph} (hg : g.Exact) : g.Kept depth ↔ g.Plain depth := by
  constructor
  · intro h p hp j hj
    obtain ⟨hne, hreloads⟩ := h.default p hp j hj
    exact ⟨hne, hreloads.within⟩
  · intro h
    refine ⟨hg.position, fun p hp j hj => ?_⟩
    obtain ⟨hne, hwithin⟩ := h p hp j hj
    exact ⟨hne, hg.default p hp j hj, hg.sorted p hp j hj, hwithin⟩

end Graph

namespace Script

/-- Saved and loaded, the script is the same, and so is its text. -/
def RoundTrips (s : Script) : Prop := ∃ s', parse s.render = .ok s' ∧ s' = s ∧ s'.render = s.render

/-- The numbers in the values of the fields and in the functions are read back as they are. -/
structure Rereads (s : Script) : Prop where
  field : ∀ f ∈ s.fields, ∀ j ∈ f.default, j.Rereads
  function : ∀ g ∈ s.functions, g.Rereads

theorem roundTrips_iff {s : Script} (hs : ∀ g ∈ s.functions, g.Fits) : s.RoundTrips ↔ s.Kept 0 := by
  have hparse : parse s.render = Script.ofDraft .text (Draft.written 0 s.toJson) :=
    Draft.interpret_pretty _ _
  rw [← ofDraft_written .text (show 0 + 5 < Draft.maxDepth by decide) hs, ← hparse]
  constructor
  · rintro ⟨s', h, rfl, -⟩
    exact h
  · exact fun h => ⟨s, h, rfl, rfl⟩

theorem Sound.kept_iff {depth : Nat} {s : Script} (hs : s.Sound depth) : s.Kept depth ↔ s.Rereads := by
  constructor
  · intro h
    exact ⟨fun f hf j hj => (h.field f hf j hj).2.rereads,
      fun g hg => (hs.function g hg).kept_iff.mp (h.function g hg)⟩
  · intro h
    refine ⟨fun f hf j hj => ?_, fun g hg => (hs.function g hg).kept_iff.mpr (h.function g hg)⟩
    obtain ⟨hne, hsorted, hwithin⟩ := hs.field f hf j hj
    exact ⟨hne, h.field f hf j hj, hsorted, hwithin⟩

/-- The values of the fields and pins are documents, and all numbers are read back as they are. -/
structure Exact (s : Script) : Prop where
  field : ∀ f ∈ s.fields, ∀ j ∈ f.default, j.Rereads ∧ j.Sorted
  function : ∀ g ∈ s.functions, g.Exact

/-- No field or pin has the value null, or one that is nested too deep where it is written. -/
structure Plain (depth : Nat) (s : Script) : Prop where
  field : ∀ f ∈ s.fields, ∀ j ∈ f.default, j ≠ .null ∧ j.Within (depth + 3)
  function : ∀ g ∈ s.functions, g.Plain (depth + 2)

theorem Exact.kept_iff {depth : Nat} {s : Script} (hs : s.Exact) : s.Kept depth ↔ s.Plain depth := by
  constructor
  · intro h
    refine ⟨fun f hf j hj => ?_, fun g hg => (hs.function g hg).kept_iff.mp (h.function g hg)⟩
    obtain ⟨hne, hreloads⟩ := h.field f hf j hj
    exact ⟨hne, hreloads.within⟩
  · intro h
    refine ⟨fun f hf j hj => ?_, fun g hg => (hs.function g hg).kept_iff.mpr (h.function g hg)⟩
    obtain ⟨hne, hwithin⟩ := h.field f hf j hj
    obtain ⟨hrereads, hsorted⟩ := hs.field f hf j hj
    exact ⟨hne, hrereads, hsorted, hwithin⟩

end Script

/-- An edited graph, and a script of such graphs, comes back from its text exactly if no value in it is
null or nested too deep, provided that the text of each of its numbers is read as that number. -/
theorem roundTrips_edited_iff (g : Graph) (s : Script) :
    (g.Edited → g.Counted → g.Exact → (g.RoundTrips ↔ g.Plain 0)) ∧
      ((∀ g ∈ s.functions, g.Edited ∧ g.Counted) → s.Exact → (s.RoundTrips ↔ s.Plain 0)) := by
  constructor
  · intro hg hcounted hexact
    rw [Graph.roundTrips_iff (hg.fits hcounted), hexact.kept_iff]
  · intro hs hexact
    rw [Script.roundTrips_iff fun g hg => (hs g hg).1.fits (hs g hg).2, hexact.kept_iff]

namespace Graph

def voided : Graph :=
  let g : Graph := { name := "Voided" }
  let g := (EditOp.addNodeWithPins .branch [.dataIn "Condition" "bool" .value]).apply {} g
  (EditOp.setDefault ⟨1⟩ (some .null)).apply {} g

theorem edited_voided : voided.Edited := by
  unfold voided
  refine .edit (.edit (.new "Voided" {}) _ _ ?_) _ _ ?_ <;>
    · unfold Numbered
      decide +kernel

theorem livePins_voided : voided.livePins =
    [{ id := ⟨1⟩, node := ⟨1⟩, direction := .input, name := "Condition", type := .data "bool" .value,
       default := some .null }] := by rfl

theorem exact_voided : voided.Exact := by
  have hnull : ∀ p ∈ voided.livePins, ∀ j ∈ p.default, Json.Reloads 0 j := by
    rw [livePins_voided]
    rintro p hp j hj
    rw [List.mem_singleton.mp hp] at hj
    cases hj
    exact Json.reloads_scalar rfl (by simp)
  have hposition : ∀ n ∈ voided.liveNodes, n.position = {} := by
    rw [← List.forall_mem_map (P := (· = ({} : Position))), show voided.liveNodes.map Node.position = [{}] by rfl]
    simp
  refine ⟨⟨fun n hn => ?_, fun p hp j hj => (hnull p hp j hj).rereads⟩,
    fun p hp j hj => (hnull p hp j hj).sorted⟩
  rw [hposition n hn]
  exact ⟨by decide +kernel, by decide +kernel⟩

/-- The null is lost. -/
theorem voided_not_roundTrips : voided.Exact ∧ ¬ voided.RoundTrips := by
  refine ⟨exact_voided, fun h => ?_⟩
  have hplain := ((roundTrips_edited_iff voided { name := "" }).1 edited_voided
    (by unfold Counted; decide +kernel) exact_voided).mp h
  unfold Plain at hplain
  rw [livePins_voided] at hplain
  exact (hplain _ List.mem_cons_self .null rfl).1 rfl

end Graph

/-- A graph or script that was loaded, from whatever text, comes back from its own text exactly if each
of its numbers does. -/
theorem roundTrips_parsed_iff (text : String) :
    (∀ g, Graph.parse text = .ok g → (g.RoundTrips ↔ g.Rereads)) ∧
      ∀ s, Script.parse text = .ok s → (s.RoundTrips ↔ s.Rereads) := by
  constructor
  · intro g h
    obtain ⟨d, hd, hdecode⟩ := Draft.exists_of_interpret h
    have hsound := Graph.sound_of_ofDraft hd hdecode
    rw [Graph.roundTrips_iff hsound.fits, hsound.kept_iff]
  · intro s h
    obtain ⟨d, hd, hdecode⟩ := Draft.exists_of_interpret h
    have hsound := Script.sound_of_ofDraft hd hdecode
    rw [Script.roundTrips_iff fun g hg => (hsound.function g hg).fits, hsound.kept_iff]

namespace Graph

/-- A graph whose one pin has a number that is read back as its neighbour. -/
def driftingText : String :=
  "\x7b\"name\":\"Drifting\",\"pins\":[\x7b\"id\":1,\"node\":1,\"direction\":\"input\",\"name\":\"x\","
    ++ "\"type\":\x7b\"kind\":\"data\",\"type\":\"f64\",\"form\":\"value\"\x7d,"
    ++ "\"default\":5.269390661482218e-13\x7d]\x7d"

/-- The floating-point numbers that are values of pins. -/
def doubles (g : Graph) : List F64 :=
  g.livePins.filterMap fun p => match p.default with
    | some (.num (.double x)) => some x
    | _ => none

theorem doubles_drifting :
    (parse driftingText).toOption.map doubles = some [⟨4423249786196444827⟩] := by decide +kernel

theorem not_rereads_drifting : ¬ (Number.double ⟨4423249786196444827⟩).Rereads := by
  intro h
  have htext : (Number.double ⟨4423249786196444827⟩).reread.toJson.toOption.map Json.compact
      = some (Number.double ⟨4423249786196444827⟩).text := by
    rw [show (Number.double ⟨4423249786196444827⟩).reread = _ from h]
    simp [Draft.toJson, Except.toOption, Json.compact, Json.compactChars, Json.scalarChars]
  revert htext
  decide +kernel

/-- The number drifts when the graph is saved and loaded again. -/
theorem drifting_not_roundTrips : ∃ g, parse driftingText = .ok g ∧ ¬ g.RoundTrips := by
  cases hparse : parse driftingText with
  | error fault =>
    have hdoubles := doubles_drifting
    rw [hparse] at hdoubles
    cases hdoubles
  | ok g =>
    refine ⟨g, rfl, fun h => ?_⟩
    have hrereads := ((roundTrips_parsed_iff driftingText).1 g hparse).mp h
    have hdoubles := doubles_drifting
    rw [hparse] at hdoubles
    have hmem : (⟨4423249786196444827⟩ : F64) ∈ g.doubles := by
      rw [Option.some.inj hdoubles]
      exact List.mem_cons_self
    obtain ⟨p, hp, hx⟩ := List.mem_filterMap.mp hmem
    split at hx
    · rename_i x hdefault
      cases hx
      exact not_rereads_drifting (hrereads.default p hp _ hdefault 0 _ (.whole _))
    · cases hx

end Graph

end Flowscript
