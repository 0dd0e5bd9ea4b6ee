import Mathlib.Data.Finset.Card
import Mathlib.Data.List.Dedup
import Mathlib.Logic.Relation
import Flowscript.Graph.Reach
import Flowscript.Proofs.Graph.SlotArrays

/-! # The search along flow links

The search finds exactly the nodes that flow links lead to. Each node it finds is one that some pin
names, and each is expanded once, so it never runs out of fuel.
-/
namespace Flowscript.Graph

variable {g : Graph}

/-- A flow output of one node is linked to a pin of another. -/
def FlowsTo (g : Graph) (a b : NodeId) : Prop :=
  ∃ p ∈ g.nodePins a, p.isFlow = true ∧ p.direction = .output ∧
    ∃ l ∈ g.liveLinks, l.output = p.id ∧ ∃ q, g.pin? l.input = some q ∧ q.node = b

theorem mem_flowTargets_iff {a b : NodeId} : b ∈ g.flowTargets a ↔ g.FlowsTo a b := by
  simp only [flowTargets, FlowsTo, List.mem_flatMap, List.mem_filter, List.mem_filterMap,
    Bool.and_eq_true, Pin.isOutput, beq_iff_eq, Option.map_eq_some_iff, and_assoc]

def named (g : Graph) : Finset NodeId := (g.livePins.map (·.node)).toFinset

theorem card_named_le : g.named.card ≤ g.pins.size := by
  refine (List.toFinset_card_le _).trans ?_
  rw [List.length_map, livePins, live]
  exact List.length_filterMap_le _ _

theorem FlowsTo.mem_named {a b : NodeId} (h : g.FlowsTo a b) : b ∈ g.named := by
  obtain ⟨-, -, -, -, l, -, -, q, hq, rfl⟩ := h
  exact List.mem_toFinset.mpr (List.mem_map.mpr ⟨q, mem_live_iff.mpr ⟨_, hq⟩, rfl⟩)

/-- Targets are added to the nodes seen, and the new ones to those to come; together with the nodes
not seen yet these do not become more. -/
theorem discover_spec (all : Finset NodeId) (targets seen pending : List NodeId)
    (hall : ∀ x ∈ targets, x ∈ all) :
    (∀ x, x ∈ (discover seen pending targets).1 ↔ x ∈ seen ∨ x ∈ targets) ∧
    (∀ x, x ∈ (discover seen pending targets).2 ↔ x ∈ pending ∨ x ∈ targets ∧ x ∉ seen) ∧
    (discover seen pending targets).2.length +
        (all \ (discover seen pending targets).1.toFinset).card ≤
      pending.length + (all \ seen.toFinset).card := by
  induction targets generalizing seen pending with
  | nil => simp [discover]
  | cons n targets ih =>
    rw [List.forall_mem_cons] at hall
    rw [discover]
    split
    · next hseen =>
      rw [List.contains_iff_mem] at hseen
      obtain ⟨hs, hp, hcard⟩ := ih seen pending hall.2
      refine ⟨fun x => ?_, fun x => ?_, hcard⟩
      · rw [hs, List.mem_cons]
        grind
      · rw [hp, List.mem_cons]
        grind
    · next hseen =>
      rw [List.contains_iff_mem] at hseen
      obtain ⟨hs, hp, hcard⟩ := ih (n :: seen) (pending ++ [n]) hall.2
      refine ⟨fun x => ?_, fun x => ?_, hcard.trans ?_⟩
      · rw [hs, List.mem_cons, List.mem_cons]
        grind
      · rw [hp, List.mem_append, List.mem_singleton, List.mem_cons, List.mem_cons]
        grind
      · have hmem : n ∈ all \ seen.toFinset := by simp [hall.1, hseen]
        have herase : all \ (n :: seen).toFinset = (all \ seen.toFinset).erase n := by
          ext x
          simp only [Finset.mem_sdiff, List.mem_toFinset, List.mem_cons, Finset.mem_erase]
          grind
        rw [herase, Finset.card_erase_of_mem hmem, List.length_append, List.length_singleton]
        have hpos := Finset.card_pos.mpr ⟨n, hmem⟩
        omega

/-- What holds of a search from some nodes: it has seen only nodes that can be reached, all nodes
seen are expanded or to come, and there is fuel to expand those to come and those not seen. -/
structure Following (g : Graph) (start : List NodeId) (fuel : Nat) (seen pending : List NodeId) :
    Prop where
  sound : ∀ x ∈ seen, ∃ s ∈ start, Relation.ReflTransGen g.FlowsTo s x
  started : ∀ x ∈ start, x ∈ seen
  noticed : ∀ x ∈ pending, x ∈ seen
  expanded : ∀ x ∈ seen, x ∉ pending → ∀ y, g.FlowsTo x y → y ∈ seen
  enough : pending.length + (g.named \ seen.toFinset).card < fuel

namespace Following

variable {start seen pending : List NodeId} {fuel : Nat}

theorem expand {n : NodeId} (h : Following g start (fuel + 1) seen (n :: pending)) :
    Following g start fuel (discover seen pending (g.flowTargets n)).1
      (discover seen pending (g.flowTargets n)).2 := by
  obtain ⟨hs, hp, hcard⟩ := discover_spec g.named (g.flowTargets n) seen pending fun x hx =>
    (mem_flowTargets_iff.mp hx).mem_named
  refine ⟨fun x hx => ?_, fun x hx => (hs x).mpr (.inl (h.started x hx)), fun x hx => ?_,
    fun x hx hnot y hy => ?_, ?_⟩
  · rcases (hs x).mp hx with hx | hx
    · exact h.sound x hx
    · obtain ⟨s, hstart, hreach⟩ := h.sound n (h.noticed n List.mem_cons_self)
      exact ⟨s, hstart, hreach.tail (mem_flowTargets_iff.mp hx)⟩
  · rcases (hp x).mp hx with hx | ⟨hx, -⟩
    · exact (hs x).mpr (.inl (h.noticed x (List.mem_cons_of_mem n hx)))
    · exact (hs x).mpr (.inr hx)
  · rw [hp, not_or] at hnot
    rw [hs]
    by_cases hseen : x ∈ seen
    · by_cases hn : x = n
      · exact .inr (mem_flowTargets_iff.mpr (hn ▸ hy))
      · refine .inl (h.expanded x hseen ?_ y hy)
        rw [List.mem_cons, not_or]
        exact ⟨hn, hnot.1⟩
    · exact absurd ⟨((hs x).mp hx).resolve_left hseen, hseen⟩ hnot.2
  · have hfuel := h.enough
    rw [List.length_cons] at hfuel
    omega

/-- Nothing leads out of the nodes seen once no node is to come. -/
theorem mem_iff (h : Following g start fuel seen []) (x : NodeId) :
    x ∈ seen ↔ ∃ s ∈ start, Relation.ReflTransGen g.FlowsTo s x := by
  refine ⟨h.sound x, ?_⟩
  rintro ⟨s, hs, hreach⟩
  induction hreach with
  | refl => exact h.started s hs
  | tail _ hstep ih => exact h.expanded _ ih List.not_mem_nil _ hstep

theorem mem_follow_iff (h : Following g start fuel seen pending) (x : NodeId) :
    x ∈ g.follow fuel seen pending ↔ ∃ s ∈ start, Relation.ReflTransGen g.FlowsTo s x := by
  induction fuel generalizing seen pending with
  | zero => exact absurd h.enough (Nat.not_lt_zero _)
  | succ fuel ih =>
    cases pending with
    | nil => exact h.mem_iff x
    | cons n pending => exact ih h.expand

end Following

/-- The search finds exactly the nodes that flow links lead to. -/
theorem mem_reachable_iff {start : List NodeId} {x : NodeId} :
    x ∈ g.reachable start ↔ ∃ s ∈ start, Relation.ReflTransGen g.FlowsTo s x := by
  refine Following.mem_follow_iff ⟨fun s hs => ⟨s, hs, .refl⟩, fun _ hs => hs, fun _ hs => hs,
    fun s hs hnot => absurd hs hnot, ?_⟩ x
  have hcard : (g.named \ start.toFinset).card ≤ g.named.card :=
    Finset.card_le_card Finset.sdiff_subset
  have hsize := card_named_le (g := g)
  omega

end Flowscript.Graph
