import Flowscript.Proofs.Graph.NodeRefresh

/-! # Carried links

What refreshing a node carries over when it replaces the pins. A link at an old pin goes to the first
new pin like it, with its number and its far end, and is lost where there is none; a new pin takes the
default of the last old pin that leads to it. Nothing else of the graph changes.
-/
namespace Flowscript

/-- The first pin of a list that is like another one: of its direction, name and kind. -/
def FirstAlike (news : List Pin) (old new : Pin) : Prop :=
  ∃ before after, news = before ++ new :: after ∧ Graph.Alike new old ∧
    ∀ p ∈ before, ¬ Graph.Alike p old

def LastLeading (olds news : List Pin) (old new : Pin) : Prop :=
  ∃ before after, olds = before ++ old :: after ∧ FirstAlike news old new ∧
    ∀ p ∈ after, ¬ FirstAlike news p new

/-- What a graph is after a node's pins were replaced. -/
structure Carried (g g' : Graph) (c : Catalogue) (id : NodeId) : Prop where
  heading : g'.name = g.name ∧ g'.signature = g.signature
  /-- The node keeps all but its range. -/
  node : ∃ n n', g.node? id = some n ∧ g'.node? id = some n' ∧
    n' = { n with firstPin := n'.firstPin, pinCount := n'.pinCount }
  others : ∀ other, other ≠ id → g'.node? other = g.node? other
  /-- Pins of other nodes are what they were, and none are added. -/
  foreign : ∀ q p, p.node ≠ id → (g'.pin? q = some p ↔ g.pin? q = some p)
  /-- The old pins of the node are gone, and those that it has are new and the ones asked for. -/
  gone : ∀ old ∈ g.nodePins id, g'.pin? old.id = none
  fresh : ∀ q p, g'.pin? q = some p → p.node = id → p ∈ g'.nodePins id ∧ g.pins.size < q.val
  asked : g'.Suits c id
  /-- A new pin has the default of the last old pin that leads to it. -/
  inherits : ∀ old new, LastLeading (g.nodePins id) (g'.nodePins id) old new →
    new.default = old.default
  plain : ∀ new ∈ g'.nodePins id, (∀ old ∈ g.nodePins id, ¬ FirstAlike (g'.nodePins id) old new) →
    new.default = none
  /-- A link at an old pin stays exactly if some new pin is like the old one, and then goes to the
  first such pin. -/
  stays : ∀ k l old, g.link? k = some l → old ∈ g.nodePins id → l.touches old.id = true →
    ((g'.link? k).isSome ↔ ∃ new ∈ g'.nodePins id, Graph.Alike new old)
  goes : ∀ k l old, g.link? k = some l → old ∈ g.nodePins id → l.touches old.id = true →
    ∀ l', g'.link? k = some l' ↔
      ∃ new, FirstAlike (g'.nodePins id) old new ∧ l' = l.withEnd old.direction new.id
  /-- Links elsewhere are what they were, and none are added. -/
  elsewhere : ∀ k l, g.link? k = some l → (∀ old ∈ g.nodePins id, l.touches old.id = false) →
    g'.link? k = some l
  links : ∀ k, (g'.link? k).isSome → (g.link? k).isSome

theorem exists_firstAlike_iff {news : List Pin} {old : Pin} :
    (∃ new, FirstAlike news old new) ↔ ∃ new ∈ news, Graph.Alike new old := by
  constructor
  · rintro ⟨new, before, after, rfl, halike, -⟩
    exact ⟨new, by simp, halike⟩
  · rintro ⟨new, hnew, halike⟩
    induction news with
    | nil => cases hnew
    | cons p news ih =>
      by_cases hp : Graph.Alike p old
      · exact ⟨p, [], news, rfl, hp, nofun⟩
      · have hrest := (List.mem_cons.mp hnew).resolve_left fun he => hp (he ▸ halike)
        obtain ⟨first, before, after, hnews, hfirst, hbefore⟩ := ih hrest
        refine ⟨first, p :: before, after, by rw [hnews]; rfl, hfirst, ?_⟩
        exact List.forall_mem_cons.mpr ⟨hp, hbefore⟩

theorem successor?_eq_some_iff {news : List Pin} {old : Pin} {q : PinId} :
    Edit.successor? news old = some q ↔ ∃ new, FirstAlike news old new ∧ new.id = q := by
  have halike : ∀ p : Pin, (p.direction == old.direction && p.name == old.name &&
      p.isFlow == old.isFlow) = true ↔ Graph.Alike p old := by
    intro p
    simp only [Graph.Alike, Bool.and_eq_true, beq_iff_eq, and_assoc]
  rw [Edit.successor?, Option.map_eq_some_iff]
  refine exists_congr fun new => and_congr_left fun _ => ?_
  rw [List.find?_eq_some_iff_append, halike, FirstAlike]
  simp only [Bool.not_eq_true', ← Bool.not_eq_true, halike]
  tauto

theorem FirstAlike.mem {news : List Pin} {old new : Pin} (h : FirstAlike news old new) :
    new ∈ news := by
  obtain ⟨before, after, rfl, -⟩ := h
  simp

namespace Graph

section Defaults

variable {olds news : List Pin} {old new : Pin}

theorem successor?_inherit (olds news : List Pin) :
    Edit.successor? (news.map (inherit olds news)) = Edit.successor? news := by
  funext old
  rw [Edit.successor?, Edit.successor?, List.find?_map, Option.map_map]
  rfl

theorem predecessor?_of_lastLeading (hids : ∀ p ∈ news, ∀ q ∈ news, p.id = q.id → p = q)
    (h : LastLeading olds news old new) : predecessor? olds news new.id = some old := by
  obtain ⟨before, after, rfl, hfirst, hlast⟩ := h
  have hold : Edit.successor? news old = some new.id :=
    successor?_eq_some_iff.mpr ⟨new, hfirst, rfl⟩
  have hafter : after.filter (fun p => Edit.successor? news p == some new.id) = [] := by
    rw [List.filter_eq_nil_iff]
    intro p hp he
    obtain ⟨other, hother, hid⟩ := successor?_eq_some_iff.mp (beq_iff_eq.mp he)
    exact hlast p hp (hids other hother.mem new hfirst.mem hid ▸ hother)
  rw [predecessor?, List.filter_append, List.filter_cons_of_pos (by simp [hold]), hafter]
  simp

theorem predecessor?_eq_none (hids : ∀ p ∈ news, ∀ q ∈ news, p.id = q.id → p = q)
    (hnew : new ∈ news) (h : ∀ old ∈ olds, ¬ FirstAlike news old new) :
    predecessor? olds news new.id = none := by
  refine Option.eq_none_iff_forall_ne_some.mpr fun old hold => ?_
  obtain ⟨hmem, hsuccessor⟩ := predecessor?_eq_some hold
  obtain ⟨other, hother, hid⟩ := successor?_eq_some_iff.mp hsuccessor
  exact h old hmem (hids other hother.mem new hnew hid ▸ hother)

end Defaults

section Replace

variable {g : Graph} {c : Catalogue} {id : NodeId} {n : Node} {specs : List PinSpec}

theorem default_of_mem_nodePins (hc : g.Consistent) (hnode : g.node? id = some n)
    (hn : (Edit.replacePins id n (g.pinsOf n) specs g).Numbered) {new : Pin}
    (hnew : new ∈ (Edit.replacePins id n (g.pinsOf n) specs g).nodePins id) :
    new.default = (predecessor? (g.pinsOf n)
      ((Edit.replacePins id n (g.pinsOf n) specs g).nodePins id) new.id).bind (·.default) := by
  have hpins := nodePins_replacePins hnode (fun _ => le_of_mem_pinsOf hc) hn
  rw [hpins] at hnew ⊢
  obtain ⟨p, -, rfl⟩ := List.mem_map.mp hnew
  rw [predecessor?, successor?_inherit]
  rfl

theorem successor?_nodePins (hc : g.Consistent) (hnode : g.node? id = some n)
    (hn : (Edit.replacePins id n (g.pinsOf n) specs g).Numbered) :
    Edit.successor? (g.fresh id specs) =
      Edit.successor? ((Edit.replacePins id n (g.pinsOf n) specs g).nodePins id) := by
  rw [nodePins_replacePins hnode (fun _ => le_of_mem_pinsOf hc) hn, successor?_inherit]

theorem eq_of_mem_nodePins (hc : g.Consistent) {p q : Pin} (hp : p ∈ g.nodePins id)
    (hq : q ∈ g.nodePins id) (he : p.id = q.id) : p = q := by
  unfold nodePins at hp hq
  cases hnode : g.node? id with
  | none =>
    rw [hnode] at hp
    cases hp
  | some n =>
    rw [hnode] at hp hq
    exact List.inj_on_of_nodup_map (nodup_pinsOf hc.pin_id n) hp hq he

theorem link?_replacePins_of_touches (hc : g.Consistent) (hg : g.Wired) (hnode : g.node? id = some n)
    (hn : (Edit.replacePins id n (g.pinsOf n) specs g).Numbered) {k : LinkId} {l : Link} {old : Pin}
    (hl : g.link? k = some l) (hold : old ∈ g.nodePins id) (htouches : l.touches old.id = true)
    (l' : Link) : (Edit.replacePins id n (g.pinsOf n) specs g).link? k = some l' ↔ ∃ new,
      FirstAlike ((Edit.replacePins id n (g.pinsOf n) specs g).nodePins id) old new ∧
        l' = l.withEnd old.direction new.id := by
  have hnumbered : g.Numbered := (Change.replacePins hnode specs).follows.numbered hn
  rw [nodePins, hnode] at hold
  have hlive := ((mem_pinsOf_iff hnumbered hc (hc.range id n hnode).2).mp hold).1
  have hrole : g.role? old.id = some old.role := congrArg (Option.map Pin.role) hlive
  have hend := ((hg.joined k l hl).directed.touches_iff hrole).mp htouches
  rw [link?_replacePins_at_old hnumbered hc hg hnode hold hl hend, successor?_nodePins hc hnode hn]
  simp only [successor?_eq_some_iff]
  constructor
  · rintro ⟨_, ⟨new, hnew, rfl⟩, he⟩
    exact ⟨new, hnew, he⟩
  · rintro ⟨new, hnew, he⟩
    exact ⟨_, ⟨new, hnew, rfl⟩, he⟩

theorem link?_replacePins_of_not_touches (hc : g.Consistent) {k : LinkId} {l : Link}
    (hl : g.link? k = some l) (hout : ∀ old ∈ g.pinsOf n, l.touches old.id = false) :
    (Edit.replacePins id n (g.pinsOf n) specs g).link? k = some l := by
  simp only [Link.touches, Bool.or_eq_false_iff, beq_eq_false_iff_ne] at hout
  refine (link?_replacePins (nodup_pinsOf hc.pin_id n) fun _ => le_of_mem_pinsOf hc).mpr
    ⟨l, hl, renewedLink_eq_some_iff.mpr ⟨rfl, ?_, ?_⟩⟩
  · exact renewed_of_ne fun old hold => (hout old hold).1.symm
  · exact renewed_of_ne fun old hold => (hout old hold).2.symm

theorem pin?_replacePins_of_foreign (hc : g.Consistent) (hg : g.Wired) (hnode : g.node? id = some n)
    (hn : (Edit.replacePins id n (g.pinsOf n) specs g).Numbered) {q : PinId} {p : Pin}
    (hne : p.node ≠ id) :
    (Edit.replacePins id n (g.pinsOf n) specs g).pin? q = some p ↔ g.pin? q = some p := by
  have hnumbered : g.Numbered := (Change.replacePins hnode specs).follows.numbered hn
  refine ⟨fun hp => ?_, fun hp => pin?_replacePins_of_node_ne hnumbered hc hg hnode hp hne⟩
  -- The pin lies in its node's range, so it was there before.
  obtain ⟨m, hm, hrange⟩ :=
    ((Change.replacePins hnode specs).follows.consistent hn hc).pin_node q p hp
  rw [node?_replacePins hnode, if_neg hne] at hm
  rwa [pin?_replacePins_of_inRange hnumbered hc hg hnode hm hne hrange] at hp

/-- Replacing a node's pins carries its links and defaults over, and nothing else changes. -/
theorem carried_replacePins (hc : g.Consistent) (hg : g.Wired) (hnode : g.node? id = some n)
    (hspecs : n.kind.expectedPins g.signature c = .ok specs)
    (hn : (Edit.replacePins id n (g.pinsOf n) specs g).Numbered) :
    Carried g (Edit.replacePins id n (g.pinsOf n) specs g) c id := by
  have hc' := (Change.replacePins hnode specs).follows.consistent hn hc
  have hpins : g.nodePins id = g.pinsOf n := by rw [nodePins, hnode]
  have hnode' : (Edit.replacePins id n (g.pinsOf n) specs g).node? id =
      some { n with firstPin := ⟨g.pins.size + 1⟩, pinCount := specs.length } :=
    (node?_replacePins hnode id).trans (if_pos rfl)
  have hheading := heading_replacePins id n (g.pinsOf n) specs g
  have hgoes := fun k l old (hl : g.link? k = some l) (hold : old ∈ g.nodePins id)
      (htouches : l.touches old.id = true) =>
    link?_replacePins_of_touches hc hg hnode hn hl hold htouches
  refine
    { heading := ⟨congrArg Prod.fst hheading, congrArg Prod.snd hheading⟩
      node := ⟨n, _, hnode, hnode', rfl⟩
      others := fun other hne => (node?_replacePins hnode other).trans (if_neg hne)
      foreign := fun q p hne => pin?_replacePins_of_foreign hc hg hnode hn hne
      gone := fun old hold => ?_
      fresh := fun q p hp he => ?_
      asked := (suits_replacePins hc hnode hspecs hn).1
      inherits := fun old new hlast => ?_
      plain := fun new hnew hnone => ?_
      stays := fun k l old hl hold htouches => ?_
      goes := hgoes
      elsewhere := fun k l hl hout => link?_replacePins_of_not_touches hc hl (hpins ▸ hout)
      links := fun k hk => ?_ }
  · rw [hpins] at hold
    rw [pin?_replacePins_of_le (le_of_mem_pinsOf hc hold), if_pos (List.mem_map_of_mem hold)]
  · obtain ⟨m, hm, hrange⟩ := hc'.pin_node q p hp
    rw [he] at hm
    refine ⟨?_, ?_⟩
    · rw [nodePins, hm]
      refine (mem_pinsOf_iff hn hc' (hc'.range id m hm).2).mpr ?_
      rw [hc'.pin_id q p hp]
      exact ⟨hp, hrange⟩
    · obtain rfl := Option.some.inj (hnode'.symm.trans hm)
      exact Nat.lt_of_succ_le hrange.1
  · have hnew : new ∈ _ := hlast.choose_spec.choose_spec.2.1.mem
    rw [default_of_mem_nodePins hc hnode hn hnew,
      predecessor?_of_lastLeading (fun _ hp _ hq => eq_of_mem_nodePins hc' hp hq) (hpins ▸ hlast)]
    rfl
  · rw [default_of_mem_nodePins hc hnode hn hnew, predecessor?_eq_none
      (fun _ hp _ hq => eq_of_mem_nodePins hc' hp hq) hnew (hpins ▸ hnone)]
    rfl
  · rw [← exists_firstAlike_iff, Option.isSome_iff_exists]
    simp only [hgoes k l old hl hold htouches]
    constructor
    · rintro ⟨-, new, hnew, -⟩
      exact ⟨new, hnew⟩
    · rintro ⟨new, hnew⟩
      exact ⟨_, new, hnew, rfl⟩
  · obtain ⟨l', hl'⟩ := Option.isSome_iff_exists.mp hk
    obtain ⟨l, hl, -⟩ := (link?_replacePins (nodup_pinsOf hc.pin_id n) fun _ => le_of_mem_pinsOf hc).mp hl'
    rw [hl]
    rfl

end Replace

/-- A refresh that changes the graph carries over the links of the node and the defaults of its pins
and changes nothing else. -/
theorem Edited.refresh_carries {g : Graph} (h : g.Edited) {c : Catalogue} {id : NodeId}
    {notes : List Trace} {e : Editing}
    (hok : Edit.refreshNode c id { graph := g, notes } = .ok () e) (hn : e.graph.Numbered)
    (hchanges : e.graph ≠ g) : Carried g e.graph c id := by
  obtain ⟨hgraph, n, specs, hnode, hspecs⟩ := Edit.refreshNode_ok hok
  have hgraph : e.graph = if g.upToDate n specs then g
      else Edit.replacePins id n (g.pinsOf n) specs g := by
    rw [hgraph]
    simp only [refresh, hnode, hspecs]
  split at hgraph
  · exact absurd hgraph hchanges
  · rw [hgraph] at hn ⊢
    exact carried_replacePins h.consistent h.wired hnode hspecs hn

/-- A branch that was given three outputs, two of them of one name, all linked and with defaults. -/
def overgrown : Graph :=
  let g : Graph := { name := "Overgrown" }
  let g := (EditOp.addNodeWithPins .branch [.flowOut "True", .flowOut "True", .flowOut "Maybe"]).apply
    {} g
  let g := (EditOp.addNodeWithPins (.reroute .flow) [.flowIn "In", .flowOut "Out"]).apply {} g
  let g := (EditOp.addLink ⟨1⟩ ⟨4⟩).apply {} g
  let g := (EditOp.addLink ⟨2⟩ ⟨4⟩).apply {} g
  let g := (EditOp.addLink ⟨3⟩ ⟨4⟩).apply {} g
  let g := (EditOp.setDefault ⟨1⟩ (some (.str "first"))).apply {} g
  (EditOp.setDefault ⟨2⟩ (some (.str "last"))).apply {} g

theorem edited_overgrown : overgrown.Edited := by
  unfold overgrown
  refine .edit (.edit (.edit (.edit (.edit (.edit (.edit (.new "Overgrown" {}) _ _ ?_) _ _ ?_) _ _ ?_)
    _ _ ?_) _ _ ?_) _ _ ?_) _ _ ?_ <;>
    · unfold Numbered
      decide +kernel

/-- The links of the two outputs of one name go to the new output of that name, which has the default
of the second; the third link is lost. -/
theorem overgrown_carried : ∃ e, Edit.refreshNode {} ⟨1⟩ { graph := overgrown } = .ok () e ∧
    Carried overgrown e.graph {} ⟨1⟩ ∧
    e.graph.liveLinks = [⟨⟨1⟩, ⟨4⟩, ⟨8⟩⟩, ⟨⟨2⟩, ⟨4⟩, ⟨8⟩⟩] ∧
    ((e.graph.pin? ⟨8⟩).bind (·.default)).bind Json.str? = some "last" := by
  obtain ⟨e, hok, hsize, hlinks, hdefault⟩ : ∃ e,
      Edit.refreshNode {} ⟨1⟩ { graph := overgrown } = .ok () e ∧ e.graph.pins.size = 9 ∧
      e.graph.liveLinks = [⟨⟨1⟩, ⟨4⟩, ⟨8⟩⟩, ⟨⟨2⟩, ⟨4⟩, ⟨8⟩⟩] ∧
      ((e.graph.pin? ⟨8⟩).bind (·.default)).bind Json.str? = some "last" :=
    ⟨_, rfl, by decide +kernel, by decide +kernel, by decide +kernel⟩
  have hchanges : e.graph ≠ overgrown := by
    intro he
    have hold : overgrown.pins.size = 5 := rfl
    rw [he, hold] at hsize
    cases hsize
  have hn : e.graph.Numbered := by
    unfold Numbered
    omega
  exact ⟨e, hok, edited_overgrown.refresh_carries hok hn hchanges, hlinks, hdefault⟩

end Graph

end Flowscript
