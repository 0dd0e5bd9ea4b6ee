import Flowscript.Proofs.Graph.InheritedPins

/-! # Persistence

Numbers are given once. However a graph is edited, a number that was handed out names the element it
was handed out for, until that is removed, and nothing afterwards: nodes keep their kinds, pins their
node, direction, name and type, links the nodes they join. An edit that fails leaves the graph as it
was, and elements that are added get numbers that none had before.
-/
namespace Flowscript

namespace Graph

def joined? (g : Graph) (l : Link) : Option (NodeId × NodeId) := do
  let source ← g.pin? l.output
  let target ← g.pin? l.input
  return (source.node, target.node)

/-- What a later state of a graph keeps: no array shrinks, and what an old number names there is what
it named before. -/
structure Persists (g g' : Graph) : Prop where
  nodes_size : g.nodes.size ≤ g'.nodes.size
  pins_size : g.pins.size ≤ g'.pins.size
  links_size : g.links.size ≤ g'.links.size
  node : ∀ id n', id.val ≤ g.nodes.size → g'.node? id = some n' →
    ∃ n, g.node? id = some n ∧ n'.id = n.id ∧ n'.kind = n.kind
  pin : ∀ id p', id.val ≤ g.pins.size → g'.pin? id = some p' →
    ∃ p, g.pin? id = some p ∧ p'.id = p.id ∧ p'.node = p.node ∧ p'.direction = p.direction ∧
      p'.name = p.name ∧ p'.type = p.type
  link : ∀ id l', id.val ≤ g.links.size → g'.link? id = some l' →
    ∃ l, g.link? id = some l ∧ l'.id = l.id ∧ (g.joined? l).isSome ∧ g'.joined? l' = g.joined? l

section Links

variable {g g' : Graph}

/-- Which nodes a link joins depends on the roles of its ends only. -/
theorem joined?_of_role {l l' : Link} (hout : g'.role? l'.output = g.role? l.output)
    (hin : g'.role? l'.input = g.role? l.input) : g'.joined? l' = g.joined? l := by
  have hroles : ∀ (g : Graph) (l : Link), g.joined? l =
      (g.role? l.output).bind fun source => (g.role? l.input).map fun target =>
        (source.1, target.1) := by
    intro g l
    simp only [joined?, role?]
    cases g.pin? l.output with
    | none => rfl
    | some source => cases g.pin? l.input <;> rfl
  rw [hroles, hroles, hout, hin]

theorem Joined.isSome_joined? {l : Link} (h : g.Joined l) : (g.joined? l).isSome := by
  obtain ⟨source, target, hs, ht, -⟩ := h
  simp [joined?, hs, ht]

theorem Change.link?_of_le (h : Change g false g') {k : LinkId} {l : Link}
    (hle : k.val ≤ g.links.size) (hl : g'.link? k = some l) : g.link? k = some l := by
  cases h with
  | addNode kind specs => exact hl
  | @removeNode _ _ n hn =>
    have hkept : (g.dropLinks fun l => n.owns l.input || n.owns l.output).link? k = some l := by
      rw [← hl]
      exact congrArg (slot? · k.val) (links_removeAll _ _).symm
    exact (link?_dropLinks.mp hkept).1
  | removePin id => exact (link?_dropLinks.mp hl).1
  | setDefault hp value => exact hl
  | setPosition hn position => exact hl
  | addLink hs ht hfree => exact (slot?_push_of_ne _ (by omega)).symm.trans hl
  | removeLink id =>
    rcases slot?_setSlot hl with ⟨-, hnone⟩ | ⟨-, hold⟩
    · cases hnone
    · exact hold
  | setSignature signature => exact hl

theorem linkObstacle_ne_none {k : LinkId} {l : Link} (hl : g.link? k = some l) {source target : Pin} :
    Edit.linkObstacle g l.output l.input source target ≠ none := by
  intro hfree
  obtain ⟨-, -, -, hkind, hflow, hdata⟩ := linkObstacle_eq_none hfree
  have hlive : l ∈ g.liveLinks := mem_liveLinks_iff.mpr ⟨k, hl⟩
  cases hs : source.isFlow with
  | true => exact hflow hs l hlive rfl
  | false => exact hdata (hkind.symm.trans hs) l hlive rfl

theorem Change.link_persists (hn : g'.Numbered) (hc : g.Consistent) (hg : g.Wired)
    (h : Change g true g') {k : LinkId} {l' : Link} (hle : k.val ≤ g.links.size)
    (hl' : g'.link? k = some l') :
    ∃ l, g.link? k = some l ∧ l'.id = l.id ∧ (g.joined? l).isSome ∧ g'.joined? l' = g.joined? l := by
  rcases h.plain_or_renewal with hplain | ⟨id, n, specs, hnode, rfl⟩
  · have hl := hplain.link?_of_le hle hl'
    refine ⟨l', hl, rfl, (hg.joined k l' hl).isSome_joined?, ?_⟩
    rcases hplain.link_cases hg.joined hl' with ⟨-, hout, hin⟩ | ⟨-, -, -, _, _, -, -, hfree⟩
    · exact joined?_of_role hout hin
    · exact absurd hfree (linkObstacle_ne_none hl)
  · obtain ⟨l, hl, hrenewed⟩ :=
      (link?_replacePins (nodup_pinsOf hc.pin_id n) fun _ => le_of_mem_pinsOf hc).mp hl'
    obtain ⟨hid, hin, hout⟩ := renewedLink_eq_some_iff.mp hrenewed
    have hjoined := hg.joined k l hl
    have hn := h.follows.numbered hn
    refine ⟨l, hl, hid, hjoined.isSome_joined?, joined?_of_role ?_ ?_⟩
    · exact role?_renewed hn hc hg hnode specs hjoined.bound.1 hout
    · exact role?_renewed hn hc hg hnode specs hjoined.bound.2 hin

end Links

section Changes

variable {g g' : Graph} {renewing : Bool}

theorem Change.node_persists (h : Change g renewing g') {id : NodeId} {n' : Node}
    (hle : id.val ≤ g.nodes.size) (hn' : g'.node? id = some n') :
    ∃ n, g.node? id = some n ∧ n'.id = n.id ∧ n'.kind = n.kind := by
  cases h with
  | addNode kind specs => exact ⟨n', (slot?_push_of_ne _ (by omega)).symm.trans hn', rfl, rfl⟩
  | removeNode hn =>
    rcases slot?_setSlot hn' with ⟨-, hnone⟩ | ⟨-, hold⟩
    · cases hnone
    · rw [nodes_removeAll] at hold
      exact ⟨n', hold, rfl, rfl⟩
  | @setPosition _ _ n hn position =>
    rcases slot?_setSlot hn' with ⟨he, hs⟩ | ⟨-, hold⟩
    · cases hs
      exact ⟨n, NodeId.ext he ▸ hn, rfl, rfl⟩
    · exact ⟨n', hold, rfl, rfl⟩
  | @replacePins id' n hn specs =>
    rw [node?_replacePins hn] at hn'
    split at hn'
    · next he =>
      cases hn'
      exact ⟨n, he ▸ hn, rfl, rfl⟩
    · exact ⟨n', hn', rfl, rfl⟩
  | removePin id => exact ⟨n', hn', rfl, rfl⟩
  | setDefault hp value => exact ⟨n', hn', rfl, rfl⟩
  | addLink hs ht hfree => exact ⟨n', hn', rfl, rfl⟩
  | removeLink id => exact ⟨n', hn', rfl, rfl⟩
  | setSignature signature => exact ⟨n', hn', rfl, rfl⟩

theorem pin?_of_removeAll {ids : List PinId} {q : PinId} {p : Pin}
    (h : (ids.foldl (fun g id => g.setPin id none) g).pin? q = some p) : g.pin? q = some p := by
  induction ids generalizing g with
  | nil => exact h
  | cons id ids ih =>
    have hrest := ih h
    rw [pin?_setPin_none] at hrest
    split at hrest
    · cases hrest
    · exact hrest

theorem Change.pin_persists (h : Change g renewing g') {id : PinId} {p' : Pin}
    (hle : id.val ≤ g.pins.size) (hp' : g'.pin? id = some p') :
    ∃ p, g.pin? id = some p ∧ p'.id = p.id ∧ p'.node = p.node ∧ p'.direction = p.direction ∧
      p'.name = p.name ∧ p'.type = p.type := by
  have hsame : g.pin? id = some p' → ∃ p, g.pin? id = some p ∧ p'.id = p.id ∧ p'.node = p.node ∧
      p'.direction = p.direction ∧ p'.name = p.name ∧ p'.type = p.type := fun h =>
    ⟨p', h, rfl, rfl, rfl, rfl, rfl⟩
  cases h with
  | addNode kind specs => exact hsame ((pin?_pushPins_of_le hle).symm.trans hp')
  | @removeNode _ _ n hn =>
    have hkept : (g.dropLinks fun l => n.owns l.input || n.owns l.output).pin? id = some p' :=
      pin?_of_removeAll hp'
    exact hsame hkept
  | removePin other =>
    refine hsame ?_
    have hremoved := (pin?_setPin_none _ other id).symm.trans hp'
    split at hremoved
    · cases hremoved
    · exact hremoved
  | @setDefault _ _ p hp value =>
    rcases slot?_setSlot hp' with ⟨he, hs⟩ | ⟨-, hold⟩
    · cases hs
      exact ⟨p, PinId.ext he ▸ hp, rfl, rfl, rfl, rfl, rfl⟩
    · exact hsame hold
  | replacePins hn specs =>
    refine hsame ?_
    rw [pin?_replacePins_of_le hle] at hp'
    split at hp'
    · cases hp'
    · exact hp'
  | setPosition hn position => exact hsame hp'
  | addLink hs ht hfree => exact hsame hp'
  | removeLink id => exact hsame hp'
  | setSignature signature => exact hsame hp'

theorem nodes_size_replacePins (id : NodeId) (n : Node) (olds : List Pin) (specs : List PinSpec)
    (g : Graph) : (Edit.replacePins id n olds specs g).nodes.size = g.nodes.size := by
  obtain ⟨g', hpins, heq⟩ := replacePins_eq id n olds specs g
  have hsize : g'.nodes.size = g.nodes.size := congrArg Array.size hpins.nodes
  rw [heq]
  split
  · exact (size_setSlot _ _ _).trans hsize
  · exact hsize

theorem links_size_retirePins (ends : List (PinId × PinId)) (olds : List Pin) (g : Graph) :
    (Edit.retirePins ends olds g).links.size = g.links.size := by
  induction olds generalizing g with
  | nil => rfl
  | cons old olds ih =>
    refine (ih _).trans ?_
    dsimp only
    split
    · rfl
    · exact Array.size_map

theorem links_size_replacePins (id : NodeId) (n : Node) (olds : List Pin) (specs : List PinSpec)
    (g : Graph) : (Edit.replacePins id n olds specs g).links.size = g.links.size := by
  rw [(replacePins_retires id n olds specs g).1, links_size_retirePins]
  exact Array.size_map

theorem Change.persists (hn : g'.Numbered) (hc : g.Consistent) (hg : g.Wired)
    (h : Change g true g') : Persists g g' := by
  refine ⟨?_, h.follows.size, ?_, fun _ _ => h.node_persists, fun _ _ => h.pin_persists,
    fun _ _ => h.link_persists hn hc hg⟩
  · cases h with
    | addNode kind specs => exact (Array.size_push _).symm ▸ Nat.le_succ _
    | removeNode hn =>
      refine Nat.le_of_eq (Eq.symm ((size_setSlot _ _ _).trans ?_))
      exact congrArg Array.size (nodes_removeAll _ _)
    | setPosition hn position => exact Nat.le_of_eq (size_setSlot _ _ _).symm
    | replacePins hn specs => exact Nat.le_of_eq (nodes_size_replacePins _ _ _ _ _).symm
    | removePin id => exact Nat.le_refl _
    | setDefault hp value => exact Nat.le_refl _
    | addLink hs ht hfree => exact Nat.le_refl _
    | removeLink id => exact Nat.le_refl _
    | setSignature signature => exact Nat.le_refl _
  · cases h with
    | addLink hs ht hfree => exact (Array.size_push _).symm ▸ Nat.le_succ _
    | removeNode hn =>
      refine Nat.le_of_eq (Eq.trans ?_ (congrArg Array.size (links_removeAll _ _)).symm)
      exact Array.size_map.symm
    | removePin id => exact Nat.le_of_eq Array.size_map.symm
    | removeLink id => exact Nat.le_of_eq (size_setSlot _ _ _).symm
    | replacePins hn specs => exact Nat.le_of_eq (links_size_replacePins _ _ _ _ _).symm
    | addNode kind specs => exact Nat.le_refl _
    | setDefault hp value => exact Nat.le_refl _
    | setPosition hn position => exact Nat.le_refl _
    | setSignature signature => exact Nat.le_refl _

end Changes

namespace Persists

variable {g g' g'' : Graph}

theorem refl (h : g.Wired) : Persists g g :=
  ⟨Nat.le_refl _, Nat.le_refl _, Nat.le_refl _, fun _ n _ hn => ⟨n, hn, rfl, rfl⟩,
    fun _ p _ hp => ⟨p, hp, rfl, rfl, rfl, rfl, rfl⟩,
    fun k l _ hl => ⟨l, hl, rfl, (h.joined k l hl).isSome_joined?, rfl⟩⟩

theorem trans (h : Persists g g') (h' : Persists g' g'') : Persists g g'' := by
  refine ⟨Nat.le_trans h.nodes_size h'.nodes_size, Nat.le_trans h.pins_size h'.pins_size,
    Nat.le_trans h.links_size h'.links_size, fun id n'' hle hn'' => ?_, fun id p'' hle hp'' => ?_,
    fun id l'' hle hl'' => ?_⟩
  · obtain ⟨n', hn', hid', hkind'⟩ := h'.node id n'' (Nat.le_trans hle h.nodes_size) hn''
    obtain ⟨n, hn, hid, hkind⟩ := h.node id n' hle hn'
    exact ⟨n, hn, hid'.trans hid, hkind'.trans hkind⟩
  · obtain ⟨p', hp', hid', hnode', hdirection', hname', htype'⟩ :=
      h'.pin id p'' (Nat.le_trans hle h.pins_size) hp''
    obtain ⟨p, hp, hid, hnode, hdirection, hname, htype⟩ := h.pin id p' hle hp'
    exact ⟨p, hp, hid'.trans hid, hnode'.trans hnode, hdirection'.trans hdirection,
      hname'.trans hname, htype'.trans htype⟩
  · obtain ⟨l', hl', hid', -, hjoined'⟩ := h'.link id l'' (Nat.le_trans hle h.links_size) hl''
    obtain ⟨l, hl, hid, hsome, hjoined⟩ := h.link id l' hle hl'
    exact ⟨l, hl, hid'.trans hid, hsome, hjoined'.trans hjoined⟩

end Persists

theorem Changes.persists {g g' : Graph} (h : Changes true g g') (hn : g'.Numbered)
    (hc : g.Consistent) (hg : g.Wired) : Persists g g' :=
  (h.keep (P := fun k => k.Wired ∧ Persists g k)
    (fun _ _ hn hc hchange hk =>
      ⟨hchange.wired hn hc hk.1, hk.2.trans (hchange.persists hn hc hk.1)⟩)
    hn hc ⟨hg, .refl hg⟩).2.2

/-- Any number of edits, each against the catalogue of its time, successful or not. -/
def Edits : Graph → Graph → Prop :=
  Relation.ReflTransGen fun g g' => ∃ (op : EditOp) (c : Catalogue), g' = op.apply c g ∧ g'.Numbered

namespace Edits

variable {g g' : Graph}

theorem edited (h : g.Edits g') (hg : g.Edited) : g'.Edited := by
  induction h with
  | refl => exact hg
  | tail _ hlast ih =>
    obtain ⟨op, c, rfl, hn⟩ := hlast
    exact .edit ih op c hn

theorem changes (h : g.Edits g') : Changes true g g' := by
  induction h with
  | refl => exact .refl
  | tail _ hlast ih =>
    obtain ⟨op, c, rfl, -⟩ := hlast
    exact ih.trans (op.changes_apply c _).mono

end Edits

end Graph

namespace Edit

variable {e : Editing} {c : Catalogue}

def Atomic {α : Type} (x : Edit α) (e : Editing) : Prop :=
  Leads x e (fun _ _ => True) (· = e.graph)

theorem Atomic.graph_eq {α : Type} {x : Edit α} (h : Atomic x e) {error : EditError} {e' : Editing}
    (hx : x e = .error error e') : e'.graph = e.graph := by
  unfold Atomic Leads at h
  rw [hx] at h
  exact h

theorem leads_addNodeWithPins (kind : NodeKind) (specs : List PinSpec) :
    Leads (addNodeWithPins kind specs) e (fun id e' => id = ⟨e.graph.nodes.size + 1⟩ ∧
      e'.graph.node? id = some { id, kind, firstPin := ⟨e.graph.pins.size + 1⟩
                                 pinCount := specs.length }) fun _ => False := by
  simp only [addNodeWithPins, leads_bind, leads_graph, leads_setGraph, leads_pure]
  exact leads_note fun _ => ⟨trivial, slot?_push_self _⟩

theorem leads_addNode (kind : NodeKind) :
    Leads (addNode c kind) e (fun id e' => id = ⟨e.graph.nodes.size + 1⟩ ∧
      ∃ pinCount, e'.graph.node? id = some { id, kind, firstPin := ⟨e.graph.pins.size + 1⟩, pinCount })
      (· = e.graph) := by
  simp only [addNode, leads_bind]
  refine leads_expectedPins rfl fun specs => ?_
  exact (leads_addNodeWithPins kind specs).mono (fun _ _ h => ⟨h.1, _, h.2⟩) fun _ => False.elim

theorem leads_addLink (output input : PinId) :
    Leads (addLink output input) e (fun id e' => id = ⟨e.graph.links.size + 1⟩ ∧
      e'.graph.link? id = some ⟨id, input, output⟩) (· = e.graph) := by
  simp only [addLink, leads_bind, leads_graph]
  refine leads_pin rfl fun source hs => leads_pin rfl fun target ht => ?_
  cases linkObstacle e.graph output input source target with
  | some reason => exact rfl
  | none => exact ⟨rfl, slot?_push_self _⟩

theorem leads_addEnds : Leads (addEnds c) e (fun _ _ => True) fun _ => False := by
  have hend : ∀ {e : Editing} {kind : NodeKind}, kind = .entry ∨ kind = .ret →
      Leads (addNode c kind) e (fun _ _ => True) fun _ => False := by
    intro e kind hkind
    simp only [addNode, leads_bind, leads_expectedPins_iff]
    rcases hkind with rfl | rfl
    · exact (leads_addNodeWithPins _ _).mono (fun _ _ _ => trivial) fun _ => False.elim
    · exact (leads_addNodeWithPins _ _).mono (fun _ _ _ => trivial) fun _ => False.elim
  unfold addEnds
  rw [leads_bind]
  refine (hend (.inl rfl)).mono (fun _ e' _ => ?_) fun _ => False.elim
  rw [leads_bind, leads_graph]
  dsimp only
  split
  · exact leads_bind.mpr ((hend (.inr rfl)).mono (fun _ _ _ => trivial) fun _ => False.elim)
  · exact trivial

/-- Setting the signature never fails: it is set, and then the nodes that show it are refreshed. -/
theorem leads_setSignature (hc : e.graph.Consistent) (signature : GraphSignature) :
    Leads (setSignature c signature) e (fun _ e' => e'.graph =
      e.graph.ends.foldl (Graph.refresh c) { e.graph with signature }) fun _ => False := by
  simp only [setSignature, leads_bind, leads_modifyGraph, leads_graph]
  refine (leads_refreshEnds _ fun n hn => ?_).mono (fun _ _ h => h) fun _ => False.elim
  obtain ⟨id, hid⟩ := mem_live_iff.mp hn
  have hnode : e.graph.node? ⟨id⟩ = some n := hid
  rw [hc.node_id ⟨id⟩ n hnode]
  exact congrArg (Option.map (·.kind)) hnode

end Edit

/-- No edit has changed anything when it fails: where several steps follow the first change, none of
them can fail any more. -/
theorem EditOp.atomic (op : EditOp) (c : Catalogue) {e : Editing} (hc : e.graph.Consistent) :
    Edit.Atomic (op.edit c) e := by
  unfold Edit.Atomic
  cases op with
  | addNode kind => exact
    Edit.leads_map.mpr ((Edit.leads_addNode kind).mono (fun _ _ _ => trivial) fun _ h => h)
  | addNodeWithPins kind specs =>
    exact Edit.leads_map.mpr
      ((Edit.leads_addNodeWithPins kind specs).mono (fun _ _ _ => trivial) fun _ => False.elim)
  | removeNode id =>
    simp only [edit, Edit.removeNode, Edit.leads_bind, Edit.leads_modifyGraph]
    exact Edit.leads_node rfl fun n hn => Edit.leads_note fun _ => trivial
  | removePin id =>
    simp only [edit, Edit.removePin, Edit.leads_bind, Edit.leads_modifyGraph]
    exact Edit.leads_pin rfl fun _ _ => trivial
  | setDefault id value =>
    simp only [edit, Edit.setDefault, Edit.leads_bind, Edit.leads_modifyGraph]
    exact Edit.leads_pin rfl fun _ _ => trivial
  | setPosition id position =>
    simp only [edit, Edit.setPosition, Edit.leads_bind, Edit.leads_modifyGraph]
    exact Edit.leads_node rfl fun _ _ => trivial
  | addLink output input =>
    exact Edit.leads_map.mpr ((Edit.leads_addLink output input).mono (fun _ _ _ => trivial) fun _ h => h)
  | removeLink id => exact trivial
  | refreshNode id =>
    -- What can fail comes before the pins are replaced.
    simp only [edit, Edit.refreshNode, Edit.leads_bind, Edit.leads_graph]
    refine Edit.leads_node rfl fun n hn => Edit.leads_expectedPins rfl fun specs => ?_
    split
    · exact trivial
    · simp only [Edit.leads_bind, Edit.leads_modifyGraph]
      exact Edit.leads_note fun _ => trivial
  | setSignature signature =>
    exact (Edit.leads_setSignature hc signature).mono (fun _ _ _ => trivial) fun _ => False.elim
  | addEnds => exact Edit.leads_addEnds.mono (fun _ _ h => h) fun _ => False.elim

namespace Graph

/-- What is added to a graph gets numbers that nothing in it had, pins included. -/
structure Allots (g : Graph) : Prop where
  addNode : ∀ c kind notes id e, Edit.addNode c kind { graph := g, notes } = .ok id e →
    g.nodes.size < id.val ∧
      ∃ n, e.graph.node? id = some n ∧ n.kind = kind ∧ g.pins.size < n.firstPin.val
  addNodeWithPins : ∀ kind specs notes id e,
    Edit.addNodeWithPins kind specs { graph := g, notes } = .ok id e →
    g.nodes.size < id.val ∧
      ∃ n, e.graph.node? id = some n ∧ n.kind = kind ∧ g.pins.size < n.firstPin.val
  addLink : ∀ output input notes id e,
    Edit.addLink output input { graph := g, notes } = .ok id e →
    g.links.size < id.val ∧ e.graph.link? id = some ⟨id, input, output⟩

theorem allots (g : Graph) : g.Allots := by
  refine ⟨fun c kind notes id e h => ?_, fun kind specs notes id e h => ?_,
    fun output input notes id e h => ?_⟩
  · have hleads := Edit.leads_addNode (c := c) (e := { graph := g, notes }) kind
    rw [Edit.Leads, h] at hleads
    obtain ⟨rfl, _, hnode⟩ := hleads
    exact ⟨Nat.lt_succ_self _, _, hnode, rfl, Nat.lt_succ_self _⟩
  · have hleads := Edit.leads_addNodeWithPins (e := { graph := g, notes }) kind specs
    rw [Edit.Leads, h] at hleads
    obtain ⟨rfl, hnode⟩ := hleads
    exact ⟨Nat.lt_succ_self _, _, hnode, rfl, Nat.lt_succ_self _⟩
  · have hleads := Edit.leads_addLink (e := { graph := g, notes }) output input
    rw [Edit.Leads, h] at hleads
    obtain ⟨rfl, hlink⟩ := hleads
    exact ⟨Nat.lt_succ_self _, hlink⟩

/-- From any point of a graph's history to any later one numbers name what they named, what is added
then gets new ones, and edits that fail there change nothing. -/
theorem Edited.numbers_persist {g g' : Graph} (h : g.Edited) (hedits : g.Edits g') :
    g.Persists g' ∧ g'.Allots ∧ ∀ (op : EditOp) c notes error e,
      op.edit c { graph := g', notes } = .error error e → e.graph = g' := by
  have hedited := hedits.edited h
  refine ⟨hedits.changes.persists hedited.numbered h.consistent h.wired, g'.allots,
    fun op c notes error e hfails => ?_⟩
  exact (op.atomic c (e := { graph := g', notes }) hedited.consistent).graph_eq hfails

/-- The branch with two outputs of one name after one of them, its link and the reroute were removed,
another reroute was added and the branch was refreshed. -/
def replanted : Graph :=
  let g := (EditOp.removePin ⟨1⟩).apply {} doubled
  let g := (EditOp.removeNode ⟨2⟩).apply {} g
  let g := (EditOp.addNodeWithPins (.reroute .flow) [.flowIn "In", .flowOut "Out"]).apply {} g
  (EditOp.refreshNode ⟨1⟩).apply {} g

theorem edits_replanted : doubled.Edits replanted := by
  have hstep : ∀ {g : Graph} (op : EditOp), doubled.Edits g → (op.apply {} g).Numbered →
      doubled.Edits (op.apply {} g) := fun op h hn => h.tail ⟨op, {}, rfl, hn⟩
  unfold replanted
  refine hstep _ (hstep _ (hstep _ (hstep _ .refl ?_) ?_) ?_) ?_ <;>
    · unfold Numbered
      decide +kernel

/-- What was removed stays so, and refreshing the removed reroute fails. -/
theorem numbers_persist_replanted : doubled.Persists replanted ∧
    replanted.liveNodes.map (fun n => (n.id.val, n.kind)) =
      [(1, .branch), (3, .reroute .flow)] ∧
    replanted.pins.size = 10 ∧ replanted.livePins.map (·.id.val) = [5, 6, 7, 8, 9, 10] ∧
    replanted.links.size = 2 ∧ replanted.liveLinks = [] ∧
    (EditOp.refreshNode ⟨2⟩).apply {} replanted = replanted := by
  obtain ⟨hpersists, -, hfails⟩ := unmerged_doubled.edited.numbers_persist edits_replanted
  refine ⟨hpersists, by decide +kernel, by decide +kernel, by decide +kernel, by decide +kernel,
    by decide +kernel, ?_⟩
  have hmissing : (EditOp.refreshNode ⟨2⟩).edit {} { graph := replanted } =
      .error (.nodeNotFound ⟨2⟩) { graph := replanted } := rfl
  unfold EditOp.apply
  rw [hmissing]

end Graph

end Flowscript
