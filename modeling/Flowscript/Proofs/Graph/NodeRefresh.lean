import Flowscript.Proofs.Graph.CheckFindings
import Flowscript.Proofs.Graph.InheritedPins
import Flowscript.Proofs.Graph.PersistentNumbers

/-! # Refreshed nodes

Refreshing a node and checking it ask different questions. Refreshing looks at the pins that are left
in the node's range, checking at the range as a whole. They disagree about nodes that lost pins of
which the rest are those asked for: refreshing leaves these alone, and the checks go on reporting them.
All other nodes are repaired, and a second refresh never changes anything.
-/
namespace Flowscript

namespace Graph

/-- The errors of a graph say that a node is out of date. -/
def ReportsOutdated (g : Graph) (c : Catalogue) (script : Option String) (id : NodeId) : Prop :=
  ∃ e ∈ g.errors c script, e.kind = .nodeOutOfDate ∧ e.location.node = some id

def Suits (g : Graph) (c : Catalogue) (id : NodeId) : Prop :=
  ∃ n specs, g.node? id = some n ∧ n.kind.expectedPins g.signature c = .ok specs ∧
    List.Forall₂ (fun s p => s.fits p = true) specs (g.nodePins id)

/-- A node lost pins of its range, and those that are left are those asked for. -/
def Depleted (g : Graph) (c : Catalogue) (id : NodeId) : Prop :=
  g.Suits c id ∧ ∃ n, g.node? id = some n ∧ ∃ q, InRange n q ∧ g.pin? q = none

section Findings

variable {g : Graph} {c : Catalogue} {f : Finding}

theorem node_of_mem_checkType {type : String} {form : Form} (h : f ∈ checkType c type form) :
    f.location.node = none := by
  unfold checkType at h
  cases ht : c.lookupName? type with
  | none => simp_all
  | some t =>
    rw [ht] at h
    dsimp only at h
    split at h
    · simp_all
    · split at h <;> simp_all

theorem node_of_mem_checkParams {seen : List String} {params : List ParamDecl}
    (h : f ∈ checkParams c seen params) : f.location.node = none := by
  induction params generalizing seen with
  | nil => cases h
  | cons p params ih =>
    rw [checkParams, List.mem_append, List.mem_append] at h
    rcases h with (h | h) | h
    · split at h <;> simp_all
    · exact node_of_mem_checkType h
    · exact ih h

theorem node_of_mem_checkSignature {s : GraphSignature} (h : f ∈ checkSignature c s) :
    f.location.node = none := by
  rw [checkSignature, List.mem_append, List.mem_append] at h
  rcases h with (h | h) | h
  · exact node_of_mem_checkParams h
  · cases hr : s.result with
    | none => simp [hr] at h
    | some r => exact node_of_mem_checkType (by simpa [hr] using h)
  · unfold checkEvent at h
    split at h
    · cases h
    · split at h
      · simp_all
      · split at h <;> simp_all

theorem kind_of_linkProblem {output input : PinType} {problem : Problem}
    (h : linkProblem c output input = some problem) : problem.kind = .linkNotAllowed := by
  unfold linkProblem at h
  split at h
  · cases h
  · dsimp only at h
    split at h
    · cases h
      rfl
    · split at h <;> cases h
      rfl
  · cases h
    rfl

theorem kind_of_mem_checkFans {seen : List (Bool × PinId)} {links : List Link}
    (h : f ∈ g.checkFans seen links) : f.problem.kind = .linkNotAllowed := by
  induction links generalizing seen with
  | nil => cases h
  | cons l links ih =>
    rw [checkFans] at h
    split at h
    · exact ih h
    · rcases List.mem_append.mp h with h | h
      · split at h
        · rw [List.mem_singleton.mp h]
          rfl
        · cases h
      · exact ih h

theorem kind_of_mem_checkLinks (h : f ∈ g.checkLinks c) : f.problem.kind ≠ .nodeOutOfDate := by
  rcases List.mem_append.mp h with h | h
  · obtain ⟨l, -, h⟩ := List.mem_flatMap.mp h
    unfold checkLink at h
    split at h
    · split at h
      · rw [List.mem_singleton.mp h]
        nofun
      · split at h
        · next hproblem =>
          rw [List.mem_singleton.mp h, kind_of_linkProblem hproblem]
          nofun
        · cases h
    · rw [List.mem_singleton.mp h]
      nofun
  · rw [kind_of_mem_checkFans h]
    nofun

theorem kind_of_mem_checkStructure (h : f ∈ g.checkStructure) : f.problem.kind ≠ .nodeOutOfDate := by
  rw [checkStructure, List.mem_append, List.mem_append, List.mem_append] at h
  rcases h with ((h | h) | h) | h
  · split at h
    · cases h
    · rw [List.mem_singleton.mp h]
      nofun
  · unfold checkPure at h
    split at h
    · rcases List.mem_append.mp h with h | h
      · split at h
        · cases h
        · rw [List.mem_singleton.mp h]
          nofun
      · obtain ⟨n, -, rfl⟩ := List.mem_map.mp h
        nofun
    · cases h
  · obtain ⟨id, -, rfl⟩ := List.mem_map.mp h
    nofun
  · obtain ⟨l, -, h⟩ := List.mem_filterMap.mp h
    split at h
    · cases h
    · split at h
      · cases h
      · cases h
        nofun

theorem node_of_mem_checkNode {n : Node} (h : f ∈ g.checkNode c n) :
    f.location.node = some n.id := by
  unfold checkNode at h
  split at h
  · rw [List.mem_singleton.mp h]
  · dsimp only at h
    split at h
    · rw [List.mem_singleton.mp h]
    · split at h
      · rw [List.mem_singleton.mp h]
      · rcases List.mem_append.mp h with h | h
        · split at h
          · cases h
          · rw [List.mem_singleton.mp h]
        · split at h
          · cases h
          · obtain ⟨p, -, h⟩ := List.mem_filterMap.mp h
            obtain ⟨type, -, h⟩ := Option.bind_eq_some_iff.mp h
            split at h
            · cases h
            · cases h
              rfl

/-- A node whose reference leads somewhere is reported exactly when its pins are not, in full, those
asked for. -/
theorem exists_outdated_iff {n : Node} {specs : List PinSpec}
    (hrange : 0 < n.firstPin.val ∧ n.firstPin.val + n.pinCount ≤ g.pins.size + 1)
    (hown : ∀ p ∈ g.nodePins n.id, p.node = n.id)
    (hspecs : n.kind.expectedPins g.signature c = .ok specs) :
    (∃ f ∈ g.checkNode c n, f.problem.kind = .nodeOutOfDate) ↔
      ¬ ((g.nodePins n.id).length = n.pinCount ∧
        List.Forall₂ (fun s p => s.fits p = true) specs (g.nodePins n.id)) := by
  have hleaves : g.rangeLeaves n = false := rangeLeaves_eq_false_iff.mpr (by omega)
  have hstray : (g.nodePins n.id).find? (·.node != n.id) = none := by
    simpa [List.find?_eq_none] using hown
  unfold checkNode
  simp only [hleaves, Bool.false_eq_true, if_false, hstray, hspecs]
  rw [← fitting_iff]
  constructor
  · rintro ⟨f, hf, hkind⟩ hfits
    rw [if_pos hfits, List.nil_append] at hf
    split at hf
    · cases hf
    · obtain ⟨p, -, hf⟩ := List.mem_filterMap.mp hf
      obtain ⟨type, -, hf⟩ := Option.bind_eq_some_iff.mp hf
      split at hf
      · cases hf
      · cases hf
        cases hkind
  · intro hfits
    exact ⟨_, List.mem_append_left _ (by rw [if_neg hfits]; exact List.mem_singleton_self _), rfl⟩

theorem length_nodePins_eq_iff (hn : g.Numbered) (hc : g.Consistent) {id : NodeId} {n : Node}
    (hnode : g.node? id = some n) :
    (g.nodePins id).length = n.pinCount ↔ ∀ q, InRange n q → g.pin? q ≠ none := by
  have hrange := (hc.range id n hnode).2
  have hcount : (g.pinRange n).length = n.pinCount := by
    rw [pinRange, pinStop_eq hn hrange, List.length_map, List.length_range']
    omega
  rw [nodePins, hnode]
  dsimp only
  rw [pinsOf, ← hcount, List.filterMap_length_eq_length]
  simp only [mem_pinRange_iff hn hrange, Option.isSome_iff_ne_none]

/-- The errors say that a node is out of date exactly when its own check does. -/
theorem reportsOutdated_iff (hc : g.Consistent) {id : NodeId} {n : Node}
    (hnode : g.node? id = some n) (script : Option String) :
    g.ReportsOutdated c script id ↔ ∃ f ∈ g.checkNode c n, f.problem.kind = .nodeOutOfDate := by
  constructor
  · rintro ⟨e, he, hkind, hlocation⟩
    obtain ⟨f, hf, rfl⟩ := List.mem_map.mp he
    have hkind : f.problem.kind = .nodeOutOfDate := hkind
    have hlocation : f.location.node = some id := hlocation
    rw [findings, List.mem_append, List.mem_append, List.mem_append] at hf
    rcases hf with ((hf | hf) | hf) | hf
    · rw [node_of_mem_checkSignature hf] at hlocation
      cases hlocation
    · obtain ⟨m, hm, hf⟩ := List.mem_flatMap.mp hf
      obtain ⟨number, hm⟩ := mem_live_iff.mp hm
      have hm : g.node? ⟨number⟩ = some m := hm
      have hid := hc.node_id _ m hm
      rw [node_of_mem_checkNode hf, hid] at hlocation
      rw [Option.some.inj hlocation, hnode] at hm
      exact ⟨f, Option.some.inj hm ▸ hf, hkind⟩
    · exact absurd hkind (kind_of_mem_checkLinks hf)
    · exact absurd hkind (kind_of_mem_checkStructure hf)
  · rintro ⟨f, hf, hkind⟩
    have hlive : n ∈ g.liveNodes := mem_live_iff.mpr ⟨_, hnode⟩
    have hmem : f ∈ g.findings c := by
      refine List.mem_append_left _ (List.mem_append_left _ (List.mem_append_right _ ?_))
      exact List.mem_flatMap.mpr ⟨n, hlive, hf⟩
    refine ⟨_, List.mem_map.mpr ⟨f, hmem, rfl⟩, hkind, ?_⟩
    rw [← hc.node_id id n hnode]
    exact node_of_mem_checkNode hf

/-- A node whose pins are those asked for is reported exactly when it lost others. -/
theorem Suits.reportsOutdated_iff_depleted (hn : g.Numbered) (hc : g.Consistent) (hg : g.Wired)
    {id : NodeId} (h : g.Suits c id) (script : Option String) :
    g.ReportsOutdated c script id ↔ g.Depleted c id := by
  have hsuits := h
  obtain ⟨n, specs, hnode, hspecs, hfits⟩ := h
  have hid := hc.node_id id n hnode
  have hown : ∀ p ∈ g.nodePins n.id, p.node = n.id := by
    intro p hp
    rw [hid, nodePins, hnode] at hp
    rw [hid]
    exact node_of_mem_pinsOf hn hc hg hnode hp
  have hcheck := exists_outdated_iff (hc.range id n hnode) hown hspecs
  rw [hid, length_nodePins_eq_iff hn hc hnode] at hcheck
  rw [reportsOutdated_iff hc hnode, hcheck, Depleted]
  simp only [hnode, Option.some.injEq, exists_eq_left', hfits, hsuits, and_true, true_and, not_forall,
    not_not, exists_prop]

end Findings

theorem upToDate_iff {g : Graph} {n : Node} {specs : List PinSpec} :
    g.upToDate n specs = true ↔ List.Forall₂ (fun s p => s.fits p = true) specs (g.pinsOf n) := by
  rw [upToDate, Bool.and_eq_true, beq_iff_eq, List.forall₂_iff_zip, List.all_eq_true]
  exact and_congr eq_comm Prod.forall

theorem forall₂_fresh (g : Graph) (id : NodeId) (olds news : List Pin) (specs : List PinSpec) :
    List.Forall₂ (fun s p => s.fits p = true) specs ((g.fresh id specs).map (inherit olds news)) := by
  refine List.forall₂_iff_get.mpr ⟨by simp, fun i hi hi' => ?_⟩
  simp [fresh, inherit, PinSpec.fits]

section Refresh

variable {g : Graph} {c : Catalogue} {id other : NodeId} {n : Node} {specs : List PinSpec}

theorem suits_replacePins (hc : g.Consistent) (hnode : g.node? id = some n)
    (hspecs : n.kind.expectedPins g.signature c = .ok specs)
    (hn : (Edit.replacePins id n (g.pinsOf n) specs g).Numbered) :
    (Edit.replacePins id n (g.pinsOf n) specs g).Suits c id ∧
      ¬ (Edit.replacePins id n (g.pinsOf n) specs g).Depleted c id := by
  have hchange : Change g true _ := .replacePins hnode specs
  have hc' := hchange.follows.consistent hn hc
  have hpins := nodePins_replacePins hnode (fun _ => le_of_mem_pinsOf hc) hn
  have hnode' : (Edit.replacePins id n (g.pinsOf n) specs g).node? id =
      some { n with firstPin := ⟨g.pins.size + 1⟩, pinCount := specs.length } :=
    (node?_replacePins hnode id).trans (if_pos rfl)
  refine ⟨⟨_, specs, hnode', ?_, ?_⟩, ?_⟩
  · rw [show (Edit.replacePins id n (g.pinsOf n) specs g).signature = g.signature from
      congrArg Prod.snd (heading_replacePins id n (g.pinsOf n) specs g)]
    exact hspecs
  · rw [hpins]
    exact forall₂_fresh _ _ _ _ _
  · rintro ⟨-, m, hm, q, hq, hnone⟩
    refine (length_nodePins_eq_iff hn hc' hm).mp ?_ q hq hnone
    obtain rfl := Option.some.inj (hnode'.symm.trans hm)
    rw [hpins, List.length_map, length_fresh]

theorem suits_replacePins_of_ne (hc : g.Consistent) (hg : g.Wired) (hnode : g.node? id = some n)
    (hn : (Edit.replacePins id n (g.pinsOf n) specs g).Numbered) (hne : other ≠ id) :
    ((Edit.replacePins id n (g.pinsOf n) specs g).Suits c other ↔ g.Suits c other) ∧
      ((Edit.replacePins id n (g.pinsOf n) specs g).Depleted c other ↔ g.Depleted c other) := by
  have hold : g.Numbered := (Change.replacePins hnode specs).follows.numbered hn
  have hnode' : (Edit.replacePins id n (g.pinsOf n) specs g).node? other = g.node? other :=
    (node?_replacePins hnode other).trans (if_neg hne)
  have hsuits : (Edit.replacePins id n (g.pinsOf n) specs g).Suits c other ↔ g.Suits c other := by
    rw [Suits, Suits, hnode', nodePins_replacePins_of_ne hn hc hg hnode hne,
      show (Edit.replacePins id n (g.pinsOf n) specs g).signature = g.signature from
        congrArg Prod.snd (heading_replacePins id n (g.pinsOf n) specs g)]
  refine ⟨hsuits, ?_⟩
  rw [Depleted, Depleted, hsuits, hnode']
  refine and_congr_right fun _ => exists_congr fun m => and_congr_right fun hm => ?_
  exact exists_congr fun q => and_congr_right fun hq => by
    rw [pin?_replacePins_of_inRange hold hc hg hnode hm hne hq]

theorem suits_refresh (hc : g.Consistent) (hnode : g.node? id = some n)
    (hspecs : n.kind.expectedPins g.signature c = .ok specs) (hn : (g.refresh c id).Numbered) :
    (g.refresh c id).Suits c id := by
  have hrefresh : g.refresh c id = if g.upToDate n specs then g
      else Edit.replacePins id n (g.pinsOf n) specs g := by
    simp only [refresh, hnode, hspecs]
  rw [hrefresh] at hn ⊢
  split
  · next hdate =>
    refine ⟨n, specs, hnode, hspecs, ?_⟩
    rw [nodePins, hnode]
    exact upToDate_iff.mp hdate
  · next hdate =>
    rw [if_neg hdate] at hn
    exact (suits_replacePins hc hnode hspecs hn).1

/-- Refreshing any node keeps those that have the pins asked for, and neither depletes a node nor
completes a depleted one. -/
theorem refresh_keeps (hc : g.Consistent) (hg : g.Wired) (hn : (g.refresh c id).Numbered)
    (other : NodeId) : (g.Suits c other → (g.refresh c id).Suits c other) ∧
      ((g.refresh c id).Depleted c other ↔ g.Depleted c other) := by
  cases hnode : g.node? id with
  | none => simp [refresh, hnode]
  | some n =>
    cases hspecs : n.kind.expectedPins g.signature c with
    | error e => simp [refresh, hnode, hspecs]
    | ok specs =>
      cases hdate : g.upToDate n specs with
      | true => simp [refresh, hnode, hspecs, hdate]
      | false =>
        have hrefresh : g.refresh c id = Edit.replacePins id n (g.pinsOf n) specs g := by
          simp [refresh, hnode, hspecs, hdate]
        rw [hrefresh] at hn ⊢
        by_cases hne : other = id
        · subst hne
          obtain ⟨hsuits, hdepleted⟩ := suits_replacePins hc hnode hspecs hn
          refine ⟨fun _ => hsuits, iff_of_false hdepleted ?_⟩
          rintro ⟨⟨m, specs', hm, hspecs', hfits⟩, -⟩
          rw [nodePins, hnode] at hfits
          rw [hnode] at hm
          obtain rfl := Option.some.inj hm
          rw [hspecs] at hspecs'
          obtain rfl := Except.ok.inj hspecs'
          rw [upToDate_iff.mpr hfits] at hdate
          cases hdate
        · obtain ⟨hsuits, hdepleted⟩ := suits_replacePins_of_ne (c := c) hc hg hnode hn hne
          exact ⟨hsuits.mpr, hdepleted⟩

theorem refreshes_keep {ids : List NodeId} (hc : g.Consistent) (hg : g.Wired)
    (hn : (ids.foldl (refresh c) g).Numbered) (other : NodeId) :
    (g.Suits c other → (ids.foldl (refresh c) g).Suits c other) ∧
      ((ids.foldl (refresh c) g).Depleted c other ↔ g.Depleted c other) := by
  induction ids generalizing g with
  | nil => exact ⟨fun h => h, Iff.rfl⟩
  | cons id ids ih =>
    have hmid : (g.refresh c id).Numbered := (changes_refreshes c _ ids).follows.numbered hn
    obtain ⟨hc', hg'⟩ := (changes_refresh c g id).keep
      (fun _ _ hn hc hchange hg => hchange.wired hn hc hg) hmid hc hg
    obtain ⟨hsuits, hdepleted⟩ := refresh_keeps hc hg hmid other
    obtain ⟨hsuits', hdepleted'⟩ := ih hc' hg' hn
    exact ⟨fun h => hsuits' (hsuits h), hdepleted'.trans hdepleted⟩

/-- Refreshing the nodes that show the signature gives each of them the pins asked for. -/
theorem suits_refreshes {ids : List NodeId} (hc : g.Consistent) (hg : g.Wired)
    (hn : (ids.foldl (refresh c) g).Numbered) (hid : id ∈ ids)
    (hkind : (g.node? id).map (·.kind) = some .entry ∨ (g.node? id).map (·.kind) = some .ret) :
    (ids.foldl (refresh c) g).Suits c id := by
  induction ids generalizing g with
  | nil => cases hid
  | cons first ids ih =>
    have hmid : (g.refresh c first).Numbered := (changes_refreshes c _ ids).follows.numbered hn
    obtain ⟨hc', hg'⟩ := (changes_refresh c g first).keep
      (fun _ _ hn hc hchange hg => hchange.wired hn hc hg) hmid hc hg
    rcases List.mem_cons.mp hid with rfl | hid
    · -- The pins of such a node follow from the signature, so there are some to ask for.
      have hspecs : ∃ n specs, g.node? id = some n ∧
          n.kind.expectedPins g.signature c = .ok specs := by
        rcases hkind with hkind | hkind
        all_goals
          obtain ⟨n, hnode, hkind⟩ := Option.map_eq_some_iff.mp hkind
          exact ⟨n, _, hnode, by rw [hkind]; rfl⟩
      obtain ⟨n, specs, hnode, hspecs⟩ := hspecs
      exact (refreshes_keep hc' hg' hn id).1 (suits_refresh hc hnode hspecs hmid)
    · refine ih hc' hg' hn hid ?_
      rwa [kind_refresh]

end Refresh

end Graph

namespace Edit

variable {c : Catalogue} {id : NodeId} {e e' : Editing}

theorem refreshNode_ok (h : refreshNode c id e = .ok () e') :
    e'.graph = e.graph.refresh c id ∧ ∃ n specs, e.graph.node? id = some n ∧
      n.kind.expectedPins e.graph.signature c = .ok specs := by
  have hgraph : Leads (refreshNode c id) e (fun _ e' => e'.graph = e.graph.refresh c id) fun _ => True :=
    leads_refreshNode.mono (fun _ _ h => h) fun _ _ => trivial
  have hsome : Leads (refreshNode c id) e (fun _ _ => ∃ n specs, e.graph.node? id = some n ∧
      n.kind.expectedPins e.graph.signature c = .ok specs) fun _ => True := by
    simp only [refreshNode, leads_bind, leads_graph, leads_node_iff, leads_expectedPins_iff]
    cases hnode : e.graph.node? id with
    | none => exact trivial
    | some n =>
      dsimp only
      cases hspecs : n.kind.expectedPins e.graph.signature c with
      | error _ => exact trivial
      | ok specs =>
        dsimp only
        split
        · exact ⟨n, specs, rfl, hspecs⟩
        · simp only [leads_bind, leads_modifyGraph]
          exact leads_note fun _ => ⟨n, specs, rfl, hspecs⟩
  rw [Leads, h] at hgraph hsome
  exact ⟨hgraph, hsome⟩

theorem refreshNode_of_suits (h : e.graph.Suits c id) : refreshNode c id e = .ok () e := by
  obtain ⟨n, specs, hnode, hspecs, hfits⟩ := h
  rw [Graph.nodePins, hnode] at hfits
  have hdate := Graph.upToDate_iff.mpr hfits
  have hsame : Leads (refreshNode c id) e (fun _ e' => e' = e) fun _ => False := by
    simp only [refreshNode, leads_bind, leads_graph, leads_node_iff, leads_expectedPins_iff, hnode,
      hspecs]
    rw [Graph.upToDate] at hdate
    rw [if_pos hdate]
    exact rfl
  unfold Leads at hsame
  cases hx : refreshNode c id e with
  | ok u e' =>
    rw [hx] at hsame
    rw [hsame]
  | error _ _ =>
    rw [hx] at hsame
    exact hsame.elim

end Edit

namespace Graph

theorem kind_refreshes (c : Catalogue) (g : Graph) (ids : List NodeId) (id : NodeId) :
    ((ids.foldl (refresh c) g).node? id).map (·.kind) = (g.node? id).map (·.kind) := by
  induction ids generalizing g with
  | nil => rfl
  | cons first ids ih => exact (ih _).trans (kind_refresh c g first id)

/-- After a refresh the errors still say that the node is out of date exactly when it had lost pins
and those left were the ones asked for, and the same holds after a new signature of all the nodes that
show it. A second refresh changes nothing. -/
theorem Edited.refresh_repairs_iff {g : Graph} (h : g.Edited) (c : Catalogue)
    (script : Option String) :
    (∀ id notes e, Edit.refreshNode c id { graph := g, notes } = .ok () e → e.graph.Numbered →
      (e.graph.ReportsOutdated c script id ↔ g.Depleted c id) ∧
        Edit.refreshNode c id e = .ok () e) ∧
    ∀ signature notes e, Edit.setSignature c signature { graph := g, notes } = .ok () e →
      e.graph.Numbered → ∀ n ∈ e.graph.liveNodes, n.kind = .entry ∨ n.kind = .ret →
        (e.graph.ReportsOutdated c script n.id ↔ { g with signature }.Depleted c n.id) := by
  have hwired : ∀ {k k' : Graph}, Changes true k k' → k'.Numbered → k.Consistent → k.Wired →
      k'.Consistent ∧ k'.Wired := fun hchanges hn hc hg =>
    hchanges.keep (fun _ _ hn hc hchange hg => hchange.wired hn hc hg) hn hc hg
  refine ⟨fun id notes e hok hn => ?_, fun signature notes e hok hn n hn' hkind => ?_⟩
  · obtain ⟨hgraph, n, specs, hnode, hspecs⟩ := Edit.refreshNode_ok hok
    have hgraph : e.graph = g.refresh c id := hgraph
    obtain ⟨hc, hg⟩ := hwired (changes_refresh c g id) (hgraph ▸ hn) h.consistent h.wired
    have hsuits := suits_refresh h.consistent hnode hspecs (hgraph ▸ hn)
    have hdepleted := (refresh_keeps h.consistent h.wired (hgraph ▸ hn) id).2
    rw [← hgraph] at hc hg hsuits hdepleted
    exact ⟨(hsuits.reportsOutdated_iff_depleted hn hc hg script).trans hdepleted,
      Edit.refreshNode_of_suits hsuits⟩
  · have hleads := Edit.leads_setSignature (c := c) (e := { graph := g, notes }) h.consistent signature
    rw [Edit.Leads, hok] at hleads
    have hgraph : e.graph = g.ends.foldl (refresh c) { g with signature } := hleads
    have hset : Changes true g { g with signature } := .single (.setSignature signature)
    have hrefreshes := changes_refreshes c { g with signature } g.ends
    rw [← hgraph] at hrefreshes
    obtain ⟨hc, hg⟩ := hwired hset h.numbered h.consistent h.wired
    obtain ⟨hc', hg'⟩ := hwired hrefreshes hn hc hg
    obtain ⟨number, hnumber⟩ := mem_live_iff.mp hn'
    have hnode : e.graph.node? n.id = some n := by
      rw [hc'.node_id ⟨number⟩ n hnumber]
      exact hnumber
    have hold : ((({ g with signature } : Graph).node? n.id).map (·.kind)) = some n.kind := by
      rw [← kind_refreshes c _ g.ends, ← hgraph, hnode, Option.map_some]
    obtain ⟨m, hm, hmkind⟩ := Option.map_eq_some_iff.mp hold
    have hend : n.id ∈ g.ends := by
      refine List.mem_map.mpr ⟨m, List.mem_filter.mpr ⟨mem_live_iff.mpr ⟨_, hm⟩, ?_⟩,
        h.consistent.node_id _ m hm⟩
      rw [hmkind, Bool.or_eq_true, beq_iff_eq, beq_iff_eq]
      exact hkind
    have hsuits := suits_refreshes hc hg (hgraph ▸ hn) hend (c := c) (by
      rw [hold]
      exact hkind.imp (congrArg some) (congrArg some))
    have hdepleted := (refreshes_keep hc hg (hgraph ▸ hn) n.id (c := c)).2
    rw [← hgraph] at hsuits hdepleted
    exact (hsuits.reportsOutdated_iff_depleted hn hc' hg' script).trans hdepleted

/-- An entry that showed one parameter, after the pin of the parameter was removed. -/
def narrowing : Graph :=
  let g : Graph := { name := "Narrowed", signature := { params := [⟨"a", "i32", .value⟩] } }
  let g := EditOp.addEnds.apply {} g
  (EditOp.removePin ⟨2⟩).apply {} g

/-- The same after the parameter was removed from the signature too. -/
def narrowed : Graph := (EditOp.setSignature {}).apply {} narrowing

theorem edited_narrowing : narrowing.Edited := by
  unfold narrowing
  refine .edit (.edit (.new "Narrowed" _) _ _ ?_) _ _ ?_ <;>
    · unfold Numbered
      decide +kernel

theorem edited_narrowed : narrowed.Edited :=
  .edit edited_narrowing (.setSignature {}) {} (by unfold Numbered; decide +kernel)

theorem depleted_narrowed : narrowed.Depleted {} ⟨1⟩ :=
  ⟨⟨_, _, rfl, rfl, .cons rfl .nil⟩, _, rfl, ⟨2⟩, by unfold InRange; decide, rfl⟩

/-- The entry has the one pin that is asked for, so neither the new signature nor a refresh changes it,
and the errors go on saying that it is out of date. -/
theorem narrowed_stays_outdated :
    (∃ e, Edit.setSignature {} {} { graph := narrowing } = .ok () e ∧ e.graph = narrowed ∧
      e.graph.ReportsOutdated {} none ⟨1⟩) ∧
    ∃ e, Edit.refreshNode {} ⟨1⟩ { graph := narrowed } = .ok () e ∧ e.graph = narrowed ∧
      e.graph.ReportsOutdated {} none ⟨1⟩ := by
  have hset : Edit.setSignature {} {} { graph := narrowing } = .ok () { graph := narrowed } := rfl
  have hrefresh : Edit.refreshNode {} ⟨1⟩ { graph := narrowed } = .ok () { graph := narrowed } := rfl
  have hn : narrowed.Numbered := edited_narrowed.numbered
  obtain ⟨n, hnode, hid, hkind⟩ : ∃ n, narrowed.node? ⟨1⟩ = some n ∧ n.id = ⟨1⟩ ∧ n.kind = .entry :=
    ⟨_, rfl, rfl, rfl⟩
  have hafterSet := (edited_narrowing.refresh_repairs_iff {} none).2 {} [] _ hset hn n
    (mem_live_iff.mpr ⟨1, hnode⟩) (.inl hkind)
  have hafterRefresh := ((edited_narrowed.refresh_repairs_iff {} none).1 ⟨1⟩ [] _ hrefresh hn).1
  rw [hid] at hafterSet
  have hdepleted : Depleted { narrowing with signature := {} } {} ⟨1⟩ := depleted_narrowed
  exact ⟨⟨_, hset, rfl, hafterSet.mpr hdepleted⟩, _, hrefresh, rfl,
    hafterRefresh.mpr depleted_narrowed⟩

end Graph

end Flowscript
