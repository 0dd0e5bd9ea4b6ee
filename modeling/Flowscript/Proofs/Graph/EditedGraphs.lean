import Mathlib.Logic.Relation
import Flowscript.Graph.Edit
import Flowscript.Proofs.Graph.SlotArrays

/-! # Edited graphs

Graphs come from edits: from an empty one, by any number of edits, each against the catalogue of its
time, successful or not. `Change` lists what an edit can do to a graph; whatever every change keeps
holds of all edited graphs. Every change keeps a graph consistent: elements carry the numbers of their
slots, pin ranges lie within the pins, and every pin lies in the range of the node it names.
-/
namespace Flowscript

/-- The edits of a graph. -/
inductive EditOp where
  | addNode (kind : NodeKind)
  | addNodeWithPins (kind : NodeKind) (specs : List PinSpec)
  | removeNode (id : NodeId)
  | removePin (id : PinId)
  | setDefault (id : PinId) (value : Option Json)
  | setPosition (id : NodeId) (position : Position)
  | addLink (output input : PinId)
  | removeLink (id : LinkId)
  | refreshNode (id : NodeId)
  | setSignature (signature : GraphSignature)
  | addEnds

namespace EditOp

def edit (c : Catalogue) : EditOp → Edit Unit
  | addNode kind => discard (Edit.addNode c kind)
  | addNodeWithPins kind specs => discard (Edit.addNodeWithPins kind specs)
  | removeNode id => Edit.removeNode id
  | removePin id => Edit.removePin id
  | setDefault id value => Edit.setDefault id value
  | setPosition id position => Edit.setPosition id position
  | addLink output input => discard (Edit.addLink output input)
  | removeLink id => discard (Edit.removeLink id)
  | refreshNode id => Edit.refreshNode c id
  | setSignature signature => Edit.setSignature c signature
  | addEnds => Edit.addEnds c

/-- The graph after an edit; one that failed midway keeps what it did until then. -/
def apply (op : EditOp) (c : Catalogue) (g : Graph) : Graph :=
  match op.edit c { graph := g } with
  | .ok _ e => e.graph
  | .error _ e => e.graph

end EditOp

namespace Graph

/-- Pin numbers, and the number after the last one, have 32 bits: the pins of a node are found by adding numbers up.
Numbers of nodes and links are only compared, so they need no bound, and those with 32 bits are among them. -/
def Numbered (g : Graph) : Prop := g.pins.size + 1 < 0x100000000

/-- Graphs that come from edits. -/
inductive Edited : Graph → Prop
  | new (name : String) (signature : GraphSignature) : Edited { name, signature }
  | edit {g : Graph} (h : Edited g) (op : EditOp) (c : Catalogue) (hn : (op.apply c g).Numbered) :
      Edited (op.apply c g)

theorem Edited.foldl_apply (c : Catalogue) (ops : List EditOp) {g : Graph} (hg : g.Edited)
    (hn : ∀ k ≤ ops.length, ((ops.take k).foldl (fun g op => op.apply c g) g).Numbered) :
    (ops.foldl (fun g op => op.apply c g) g).Edited := by
  induction ops generalizing g with
  | nil => exact hg
  | cons op ops ih =>
    refine ih (.edit hg op c (hn 1 (Nat.le_add_left _ _))) fun k hk => ?_
    exact hn (k + 1) (Nat.succ_le_succ hk)

def InRange (n : Node) (id : PinId) : Prop :=
  n.firstPin.val ≤ id.val ∧ id.val < n.firstPin.val + n.pinCount

/-- Elements carry the numbers of their slots, ranges lie within the pins, and every pin lies in the
range of the node it names. -/
structure Consistent (g : Graph) : Prop where
  node_id : ∀ id n, g.node? id = some n → n.id = id
  range : ∀ id n, g.node? id = some n →
    0 < n.firstPin.val ∧ n.firstPin.val + n.pinCount ≤ g.pins.size + 1
  pin_id : ∀ id p, g.pin? id = some p → p.id = id
  pin_node : ∀ id p, g.pin? id = some p → ∃ n, g.node? p.node = some n ∧ InRange n id

theorem pinStop_eq {g : Graph} {n : Node} (hg : g.Numbered)
    (hn : n.firstPin.val + n.pinCount ≤ g.pins.size + 1) :
    n.pinStop = n.firstPin.val + n.pinCount := by
  unfold Numbered at hg
  exact Nat.mod_eq_of_lt (by omega)

theorem mem_pinRange_iff {g : Graph} {n : Node} (hg : g.Numbered)
    (hn : n.firstPin.val + n.pinCount ≤ g.pins.size + 1) {id : PinId} :
    id ∈ g.pinRange n ↔ InRange n id := by
  obtain ⟨number⟩ := id
  simp only [pinRange, pinStop_eq hg hn, InRange, List.mem_map, List.mem_range'_1, PinId.mk.injEq,
    exists_eq_right]
  omega

theorem mem_pinsOf_iff {g : Graph} {n : Node} (hg : g.Numbered) (h : g.Consistent)
    (hn : n.firstPin.val + n.pinCount ≤ g.pins.size + 1) {p : Pin} :
    p ∈ g.pinsOf n ↔ g.pin? p.id = some p ∧ InRange n p.id := by
  simp only [pinsOf, List.mem_filterMap, mem_pinRange_iff hg hn]
  constructor
  · rintro ⟨id, hid, hp⟩
    have he := h.pin_id id p hp
    rw [he]
    exact ⟨hp, hid⟩
  · rintro ⟨hp, hid⟩
    exact ⟨p.id, hid, hp⟩

/-- What an edit does to a graph: pins are only added, and a consistent graph stays consistent as long
as its numbers last. -/
structure Follows (g g' : Graph) : Prop where
  size : g.pins.size ≤ g'.pins.size
  consistent : g'.Numbered → g.Consistent → g'.Consistent

namespace Follows

theorem refl (g : Graph) : Follows g g := ⟨Nat.le_refl _, fun _ h => h⟩

theorem numbered {g g' : Graph} (h : Follows g g') (hn : g'.Numbered) : g.Numbered := by
  have hsize := h.size
  unfold Numbered at hn ⊢
  omega

theorem trans {g g' g'' : Graph} (h : Follows g g') (h' : Follows g' g'') : Follows g g'' :=
  ⟨Nat.le_trans h.size h'.size, fun hn hg => h'.consistent hn (h.consistent (h'.numbered hn) hg)⟩

theorem of_eq {g g' : Graph} (hn : g'.nodes = g.nodes) (hp : g'.pins = g.pins) : Follows g g' := by
  refine ⟨Nat.le_of_eq (by rw [hp]), fun _ h => ?_⟩
  have hnode : ∀ id, g'.node? id = g.node? id := fun id => by rw [node?, node?, hn]
  have hpin : ∀ id, g'.pin? id = g.pin? id := fun id => by rw [pin?, pin?, hp]
  refine ⟨fun id n h' => h.node_id id n (hnode id ▸ h'), fun id n h' => ?_,
    fun id p h' => h.pin_id id p (hpin id ▸ h'), fun id p h' => ?_⟩
  · rw [hp]
    exact h.range id n (hnode id ▸ h')
  · rw [hnode]
    exact h.pin_node id p (hpin id ▸ h')

end Follows

/-- Pins carry the numbers of their slots, and a relation holds of the node they name and their
number. -/
def PinsIn (g : Graph) (R : NodeId → PinId → Prop) : Prop :=
  ∀ id p, g.pin? id = some p → p.id = id ∧ R p.node id

namespace PinsIn

variable {g : Graph} {R R' : NodeId → PinId → Prop}

theorem mono (h : g.PinsIn R) (hR : ∀ node id, R node id → R' node id) : g.PinsIn R' :=
  fun id p hp => ⟨(h id p hp).1, hR _ _ (h id p hp).2⟩

theorem of_pins {g' : Graph} (h : g.PinsIn R) (hp : g'.pins = g.pins) : g'.PinsIn R := by
  intro id p hp'
  rw [pin?, hp] at hp'
  exact h id p hp'

theorem remove (h : g.PinsIn R) (id : PinId) :
    (g.setPin id none).PinsIn fun node other => R node other ∧ other ≠ id := by
  intro other p hp
  rcases slot?_setSlot hp with ⟨-, hnone⟩ | ⟨hne, hp⟩
  · cases hnone
  · have hother := h other p hp
    refine ⟨hother.1, hother.2, fun he => hne ?_⟩
    rw [he]

theorem removeAll (h : g.PinsIn R) (ids : List PinId) :
    (ids.foldl (fun g id => g.setPin id none) g).PinsIn fun node other =>
      R node other ∧ other ∉ ids := by
  induction ids generalizing g R with
  | nil => exact h.mono fun _ _ hr => ⟨hr, List.not_mem_nil⟩
  | cons id ids ih =>
    refine (ih (h.remove id)).mono fun _ _ hr => ⟨hr.1.1, ?_⟩
    rw [List.mem_cons, not_or]
    exact ⟨hr.1.2, hr.2⟩

theorem update (h : g.PinsIn R) {id : PinId} {p q : Pin} (hp : g.pin? id = some p)
    (hid : q.id = p.id) (hnode : q.node = p.node) : (g.setPin id (some q)).PinsIn R := by
  intro other r hr
  rcases slot?_setSlot hr with ⟨he, hq⟩ | ⟨-, hr⟩
  · cases hq
    have hother : other = id := by
      cases other
      cases id
      exact congrArg PinId.mk he
    rw [hother, hid, hnode]
    exact h id p hp
  · exact h other r hr

theorem push (h : g.PinsIn R) (node : NodeId) (specs : List PinSpec) :
    (g.pushPins node specs).2.PinsIn fun m id =>
      R m id ∨ m = node ∧ g.pins.size + 1 ≤ id.val ∧ id.val < g.pins.size + 1 + specs.length := by
  intro id p hp
  by_cases hle : id.val ≤ g.pins.size
  · have hold : g.pin? id = some p := by
      rw [← hp]
      exact (slot?_append_of_le _ hle).symm
    exact ⟨(h id p hold).1, .inl (h id p hold).2⟩
  · have hnew : slot? (g.pushPins node specs).2.pins id.val = some p := hp
    simp only [pushPins] at hnew
    rw [slot?_append_of_lt _ (by omega)] at hnew
    simp only [List.getElem?_toArray, List.getElem?_map, List.getElem?_zipIdx, Option.map_map,
      Option.join_eq_some_iff, Option.map_eq_some_iff, Function.comp_apply, Option.some.injEq] at hnew
    obtain ⟨s, hs, hp⟩ := hnew
    have hlt := (List.getElem?_eq_some_iff.mp hs).choose
    rw [← hp]
    refine ⟨?_, .inr ⟨rfl, by omega, by omega⟩⟩
    cases id
    simp only [PinId.mk.injEq]
    simp only at hle
    omega

end PinsIn

theorem Consistent.pinsIn {g : Graph} (h : g.Consistent) :
    g.PinsIn fun node id => ∃ n, g.node? node = some n ∧ InRange n id ∧ (g.pin? id).isSome :=
  fun id p hp => ⟨h.pin_id id p hp, (h.pin_node id p hp).imp fun _ hn => ⟨hn.1, hn.2, by simp [hp]⟩⟩

theorem consistent_of_pinsIn {g : Graph} (hid : ∀ id n, g.node? id = some n → n.id = id)
    (hrange : ∀ id n, g.node? id = some n →
      0 < n.firstPin.val ∧ n.firstPin.val + n.pinCount ≤ g.pins.size + 1)
    (hpins : g.PinsIn fun node id => ∃ n, g.node? node = some n ∧ InRange n id) : g.Consistent :=
  ⟨hid, hrange, fun id p hp => (hpins id p hp).1, fun id p hp => (hpins id p hp).2⟩

@[simp] theorem size_pushPins (g : Graph) (node : NodeId) (specs : List PinSpec) :
    (g.pushPins node specs).2.pins.size = g.pins.size + specs.length := by
  simp [pushPins]

@[simp] theorem size_setPin (g : Graph) (id : PinId) (p : Option Pin) :
    (g.setPin id p).pins.size = g.pins.size := size_setSlot _ _ _

theorem size_removeAll (g : Graph) (ids : List PinId) :
    (ids.foldl (fun g id => g.setPin id none) g).pins.size = g.pins.size := by
  induction ids generalizing g with
  | nil => rfl
  | cons id ids ih => exact (ih _).trans (size_setPin g id none)

theorem nodes_removeAll (g : Graph) (ids : List PinId) :
    (ids.foldl (fun g id => g.setPin id none) g).nodes = g.nodes := by
  induction ids generalizing g with
  | nil => rfl
  | cons id ids ih => exact ih _

theorem follows_addNode (g : Graph) (kind : NodeKind) (specs : List PinSpec) :
    Follows g { (g.pushPins ⟨g.nodes.size + 1⟩ specs).2 with
      nodes := g.nodes.push (some
        { id := ⟨g.nodes.size + 1⟩, kind, firstPin := ⟨g.pins.size + 1⟩
          pinCount := specs.length }) } := by
  refine ⟨?_, fun _ h => ?_⟩
  · exact Nat.le_trans (Nat.le_add_right _ _) (Nat.le_of_eq (size_pushPins _ _ _).symm)
  have hsize := size_pushPins g ⟨g.nodes.size + 1⟩ specs
  have hnode : ∀ id n, slot? (g.nodes.push (some
      { id := ⟨g.nodes.size + 1⟩, kind, firstPin := ⟨g.pins.size + 1⟩, pinCount := specs.length :
        Node })) id = some n →
      id = g.nodes.size + 1 ∧ n = { id := ⟨g.nodes.size + 1⟩, kind, firstPin := ⟨g.pins.size + 1⟩
                                    pinCount := specs.length } ∨
      slot? g.nodes id = some n := by
    intro id n hn
    by_cases hid : id = g.nodes.size + 1
    · rw [hid, slot?_push_self] at hn
      cases hn
      exact .inl ⟨hid, rfl⟩
    · rw [slot?_push_of_ne _ hid] at hn
      exact .inr hn
  refine consistent_of_pinsIn (fun id n hn => ?_) (fun id n hn => ?_) ?_
  · rcases hnode id.val n hn with ⟨hid, rfl⟩ | hn
    · exact NodeId.ext hid.symm
    · exact h.node_id id n hn
  · rcases hnode id.val n hn with ⟨hid, rfl⟩ | hn
    · refine ⟨Nat.succ_pos _, ?_⟩
      dsimp only
      omega
    · have hr := h.range id n hn
      dsimp only
      omega
  · refine ((h.pinsIn.push ⟨g.nodes.size + 1⟩ specs).mono fun node id hr => ?_).of_pins rfl
    rcases hr with ⟨n, hn, hr, -⟩ | ⟨rfl, hlow, hhigh⟩
    · refine ⟨n, ?_, hr⟩
      have hb := slot?_bound hn
      exact (slot?_push_of_ne _ (by omega)).trans hn
    · exact ⟨_, slot?_push_self _, hlow, hhigh⟩

theorem follows_removeNode {g : Graph} {id : NodeId} {n : Node} (hn : g.node? id = some n)
    (condition : Link → Bool) :
    Follows g (((g.pinRange n).foldl (fun g p => g.setPin p none) (g.dropLinks condition)).setNode
      id none) := by
  have hsize : (((g.pinRange n).foldl (fun g p => g.setPin p none)
      (g.dropLinks condition)).setNode id none).pins.size = g.pins.size := size_removeAll _ _
  refine ⟨Nat.le_of_eq hsize.symm, fun hnum h => ?_⟩
  have hg : g.Numbered := by
    unfold Numbered at hnum ⊢
    rwa [hsize] at hnum
  have hold : ∀ m k, slot? (setSlot ((g.pinRange n).foldl (fun g p => g.setPin p none)
      (g.dropLinks condition)).nodes id.val none) m = some k → m ≠ id.val ∧ slot? g.nodes m = some k := by
    intro m k hk
    rcases slot?_setSlot hk with ⟨-, hnone⟩ | ⟨hne, hk⟩
    · cases hnone
    · rw [nodes_removeAll] at hk
      exact ⟨hne, hk⟩
  refine consistent_of_pinsIn (fun m k hk => h.node_id m k (hold m.val k hk).2) (fun m k hk => ?_) ?_
  · rw [hsize]
    exact h.range m k (hold m.val k hk).2
  · have hlinks : (g.dropLinks condition).PinsIn fun node p =>
        ∃ k, g.node? node = some k ∧ InRange k p ∧ (g.pin? p).isSome := h.pinsIn
    refine ((hlinks.removeAll (g.pinRange n)).mono fun node p hr => ?_).of_pins rfl
    obtain ⟨⟨k, hk, hr, -⟩, hout⟩ := hr
    refine ⟨k, ?_, hr⟩
    have hne : node.val ≠ id.val := by
      intro he
      obtain rfl := NodeId.ext he
      rw [hn] at hk
      cases hk
      exact hout ((mem_pinRange_iff hg (h.range _ _ hn).2).mpr hr)
    refine (slot?_setSlot_of_ne _ hne).trans ?_
    rw [nodes_removeAll]
    exact hk

theorem follows_removePin (g : Graph) (id : PinId) (condition : Link → Bool) :
    Follows g ((g.dropLinks condition).setPin id none) := by
  have hsize : ((g.dropLinks condition).setPin id none).pins.size = g.pins.size := size_setPin _ _ _
  refine ⟨Nat.le_of_eq hsize.symm, fun _ h => ?_⟩
  have hlinks : (g.dropLinks condition).PinsIn fun node p =>
      ∃ n, g.node? node = some n ∧ InRange n p ∧ (g.pin? p).isSome := h.pinsIn
  refine consistent_of_pinsIn h.node_id (fun m k hk => ?_) ((hlinks.remove id).mono ?_)
  · rw [hsize]
    exact h.range m k hk
  · rintro node p ⟨⟨n, hn, hr, -⟩, -⟩
    exact ⟨n, hn, hr⟩

theorem follows_updatePin {g : Graph} {id : PinId} {p q : Pin} (hp : g.pin? id = some p)
    (hid : q.id = p.id) (hnode : q.node = p.node) : Follows g (g.setPin id (some q)) := by
  have hsize : (g.setPin id (some q)).pins.size = g.pins.size := size_setPin _ _ _
  refine ⟨Nat.le_of_eq hsize.symm, fun _ h => ?_⟩
  refine consistent_of_pinsIn h.node_id (fun m k hk => ?_) ((h.pinsIn.update hp hid hnode).mono ?_)
  · rw [hsize]
    exact h.range m k hk
  · rintro node p ⟨n, hn, hr, -⟩
    exact ⟨n, hn, hr⟩

theorem follows_updateNode {g : Graph} {id : NodeId} {n k : Node} (hn : g.node? id = some n)
    (hid : k.id = n.id) (hfirst : k.firstPin = n.firstPin) (hcount : k.pinCount = n.pinCount) :
    Follows g (g.setNode id (some k)) := by
  refine ⟨Nat.le_refl _, fun _ h => ?_⟩
  have hold : ∀ m k', slot? (setSlot g.nodes id.val (some k)) m = some k' →
      ∃ n', slot? g.nodes m = some n' ∧ k'.id = n'.id ∧ k'.firstPin = n'.firstPin ∧
        k'.pinCount = n'.pinCount := by
    intro m k' hk
    rcases slot?_setSlot hk with ⟨rfl, hs⟩ | ⟨-, hk⟩
    · cases hs
      exact ⟨n, hn, hid, hfirst, hcount⟩
    · exact ⟨k', hk, rfl, rfl, rfl⟩
  refine ⟨fun m k' hk => ?_, fun m k' hk => ?_, h.pin_id, fun p q hq => ?_⟩
  · obtain ⟨n', hn', he, -, -⟩ := hold m.val k' hk
    rw [he]
    exact h.node_id m n' hn'
  · obtain ⟨n', hn', -, hf, hc⟩ := hold m.val k' hk
    rw [hf, hc]
    exact h.range m n' hn'
  · obtain ⟨n', hn', hr⟩ := h.pin_node p q hq
    by_cases he : q.node.val = id.val
    · obtain rfl := NodeId.ext he
      rw [hn] at hn'
      cases hn'
      have hb := slot?_bound hn
      refine ⟨k, slot?_setSlot_self _ hb.1 hb.2, ?_⟩
      rw [InRange, hfirst, hcount]
      exact hr
    · exact ⟨n', (slot?_setSlot_of_ne _ he).trans hn', hr⟩

/-- What a step does to pins when it leaves nodes and the number of pins alone. -/
structure Repins (g g' : Graph) (lost : List PinId) : Prop where
  nodes : g'.nodes = g.nodes
  size : g'.pins.size = g.pins.size
  pins : ∀ R, g.PinsIn R → g'.PinsIn fun node id => R node id ∧ id ∉ lost

namespace Repins

theorem refl (g : Graph) : Repins g g [] :=
  ⟨rfl, rfl, fun _ h => h.mono fun _ _ hr => ⟨hr, List.not_mem_nil⟩⟩

theorem trans {g g' g'' : Graph} {lost lost' : List PinId} (h : Repins g g' lost)
    (h' : Repins g' g'' lost') : Repins g g'' (lost ++ lost') := by
  refine ⟨h'.nodes.trans h.nodes, h'.size.trans h.size, fun R hR => ?_⟩
  refine (h'.pins _ (h.pins R hR)).mono fun _ _ hr => ⟨hr.1.1, ?_⟩
  rw [List.mem_append, not_or]
  exact ⟨hr.1.2, hr.2⟩

theorem foldl {α : Type} {f : Graph → α → Graph} {lost : α → List PinId}
    (h : ∀ g a, Repins g (f g a) (lost a)) (as : List α) (g : Graph) :
    Repins g (as.foldl f g) (as.flatMap lost) := by
  induction as generalizing g with
  | nil => exact .refl g
  | cons a as ih => exact (h g a).trans (ih _)

end Repins

theorem repins_moveDefault (g : Graph) (move : Pin × PinId) :
    Repins g (Edit.moveDefault g move) [] := by
  unfold Edit.moveDefault
  cases hp : g.pin? move.2 with
  | none => exact .refl g
  | some p =>
    refine ⟨rfl, size_setPin _ _ _, fun R hR => ?_⟩
    have hupdate : (g.setPin move.2 (some { p with default := move.1.default })).PinsIn R :=
      hR.update hp rfl rfl
    exact hupdate.mono fun _ _ hr => ⟨hr, List.not_mem_nil⟩

theorem repins_moveDefaults (moves : List (Pin × PinId)) (g : Graph) :
    Repins g (Edit.moveDefaults moves g) [] := by
  have hall := Repins.foldl repins_moveDefault moves g
  rwa [List.flatMap_eq_nil_iff.mpr fun _ _ => rfl] at hall

theorem repins_retirePins (ends : List (PinId × PinId)) (olds : List Pin) (g : Graph) :
    Repins g (Edit.retirePins ends olds g) (olds.map (·.id)) := by
  unfold Edit.retirePins
  have hstep : ∀ (g : Graph) (old : Pin), Repins g
      ((if ends.any (·.1 == old.id) then g else g.dropLinks (·.touches old.id)).setPin old.id none)
      [old.id] := by
    intro g old
    refine ⟨by split <;> rfl, by split <;> exact size_setPin _ _ _, fun R hR => ?_⟩
    have hlinks : (if ends.any (·.1 == old.id) then g
        else g.dropLinks (·.touches old.id)).PinsIn R := by
      split
      · exact hR
      · exact hR.of_pins rfl
    refine (hlinks.remove old.id).mono fun _ _ hr => ⟨hr.1, ?_⟩
    rw [List.mem_singleton]
    exact hr.2
  have hall := Repins.foldl hstep olds g
  rwa [← List.map_eq_flatMap] at hall

theorem repins_links (g : Graph) (links : Array (Option Link)) : Repins g { g with links } [] :=
  ⟨rfl, rfl, fun _ hR => (hR.mono fun _ _ hr => ⟨hr, List.not_mem_nil⟩).of_pins rfl⟩

/-- New pins are added, the old ones are lost, and then the node gets its new range. -/
theorem replacePins_eq (id : NodeId) (n : Node) (olds : List Pin) (specs : List PinSpec) (g : Graph) :
    ∃ g', Repins (g.pushPins id specs).2 g' (olds.map (·.id)) ∧
      Edit.replacePins id n olds specs g = match g'.node? id with
        | some _ => g'.setNode id
          (some { n with firstPin := ⟨g.pins.size + 1⟩, pinCount := specs.length })
        | none => g' :=
  ⟨_, (repins_moveDefaults _ _).trans ((repins_links _ _).trans (repins_retirePins _ _ _)), rfl⟩

theorem follows_replacePins {g : Graph} {id : NodeId} {n : Node} (hn : g.node? id = some n)
    (specs : List PinSpec) : Follows g (Edit.replacePins id n (g.pinsOf n) specs g) := by
  obtain ⟨g', hpins, heq⟩ := replacePins_eq id n (g.pinsOf n) specs g
  have hnodes : g'.nodes = g.nodes := hpins.nodes
  have hsize : g'.pins.size = g.pins.size + specs.length := hpins.size.trans (size_pushPins _ _ _)
  have hnode : g'.node? id = some n := by rw [node?, hnodes]; exact hn
  rw [heq, hnode]
  refine ⟨?_, fun hnum h => ?_⟩
  · exact Nat.le_trans (Nat.le_add_right _ _) (Nat.le_of_eq hsize.symm)
  have hg : g.Numbered := by
    have hnum : g'.pins.size + 1 < 0x100000000 := hnum
    unfold Numbered
    omega
  have hold : ∀ m k, slot? (setSlot g'.nodes id.val (some
      { n with firstPin := ⟨g.pins.size + 1⟩, pinCount := specs.length })) m = some k →
      m = id.val ∧ k = { n with firstPin := ⟨g.pins.size + 1⟩, pinCount := specs.length } ∨
        slot? g.nodes m = some k := by
    intro m k hk
    rcases slot?_setSlot hk with ⟨he, hs⟩ | ⟨-, hk⟩
    · cases hs
      exact .inl ⟨he, rfl⟩
    · rw [hnodes] at hk
      exact .inr hk
  refine consistent_of_pinsIn (fun m k hk => ?_) (fun m k hk => ?_) ?_
  · rcases hold m.val k hk with ⟨he, rfl⟩ | hk
    · exact (h.node_id id n hn).trans (NodeId.ext he.symm)
    · exact h.node_id m k hk
  · show 0 < k.firstPin.val ∧ k.firstPin.val + k.pinCount ≤ g'.pins.size + 1
    rcases hold m.val k hk with ⟨he, rfl⟩ | hk
    · exact ⟨Nat.succ_pos _, by dsimp only; omega⟩
    · have hr := h.range m k hk
      omega
  · refine ((hpins.pins _ (h.pinsIn.push id specs)).mono fun node p hr => ?_).of_pins rfl
    obtain ⟨hr, hkept⟩ := hr
    by_cases he : node.val = id.val
    · obtain rfl := NodeId.ext he
      have hb := slot?_bound hnode
      refine ⟨_, slot?_setSlot_self _ hb.1 hb.2, ?_⟩
      rcases hr with ⟨k, hk, hr, hlive⟩ | ⟨-, hlow, hhigh⟩
      · -- An old pin of the node was in its range, so it is gone.
        rw [hn] at hk
        cases hk
        obtain ⟨q, hq⟩ := Option.isSome_iff_exists.mp hlive
        have hid := h.pin_id p q hq
        refine absurd (List.mem_map.mpr ⟨q, ?_, hid⟩) hkept
        refine (mem_pinsOf_iff hg h (h.range _ n hn).2).mpr ?_
        rw [hid]
        exact ⟨hq, hr⟩
      · exact ⟨hlow, hhigh⟩
    · rcases hr with ⟨k, hk, hr, -⟩ | ⟨rfl, -, -⟩
      · refine ⟨k, (slot?_setSlot_of_ne _ he).trans ?_, hr⟩
        rw [hnodes]
        exact hk
      · exact absurd rfl he

/-- What a step of an edit does to a graph. The flag tells whether a node may get new pins. -/
inductive Change (g : Graph) : Bool → Graph → Prop
  | addNode {renewing : Bool} (kind : NodeKind) (specs : List PinSpec) : Change g renewing
      { (g.pushPins ⟨g.nodes.size + 1⟩ specs).2 with
        nodes := g.nodes.push (some
          { id := ⟨g.nodes.size + 1⟩, kind, firstPin := ⟨g.pins.size + 1⟩
            pinCount := specs.length }) }
  | removeNode {renewing : Bool} {id : NodeId} {n : Node} (hn : g.node? id = some n) :
      Change g renewing (((g.pinRange n).foldl (fun g p => g.setPin p none)
        (g.dropLinks fun l => n.owns l.input || n.owns l.output)).setNode id none)
  | removePin {renewing : Bool} (id : PinId) :
      Change g renewing ((g.dropLinks (·.touches id)).setPin id none)
  | setDefault {renewing : Bool} {id : PinId} {p : Pin} (hp : g.pin? id = some p)
      (value : Option Json) : Change g renewing (g.setPin id (some { p with default := value }))
  | setPosition {renewing : Bool} {id : NodeId} {n : Node} (hn : g.node? id = some n)
      (position : Position) : Change g renewing (g.setNode id (some { n with position }))
  | addLink {renewing : Bool} {output input : PinId} {source target : Pin}
      (hs : g.pin? output = some source) (ht : g.pin? input = some target)
      (hfree : Edit.linkObstacle g output input source target = none) : Change g renewing
      { g with links := g.links.push (some ⟨⟨g.links.size + 1⟩, input, output⟩) }
  | removeLink {renewing : Bool} (id : LinkId) :
      Change g renewing { g with links := setSlot g.links id.val none }
  | setSignature {renewing : Bool} (signature : GraphSignature) :
      Change g renewing { g with signature }
  | replacePins {id : NodeId} {n : Node} (hn : g.node? id = some n) (specs : List PinSpec) :
      Change g true (Edit.replacePins id n (g.pinsOf n) specs g)

theorem Change.mono {g g' : Graph} {renewing : Bool} (h : Change g renewing g') :
    Change g true g' := by
  cases h with
  | addNode kind specs => exact .addNode kind specs
  | removeNode hn => exact .removeNode hn
  | removePin id => exact .removePin id
  | setDefault hp value => exact .setDefault hp value
  | setPosition hn position => exact .setPosition hn position
  | addLink hs ht hfree => exact .addLink hs ht hfree
  | removeLink id => exact .removeLink id
  | setSignature signature => exact .setSignature signature
  | replacePins hn specs => exact .replacePins hn specs

theorem Change.plain_or_renewal {g g' : Graph} (h : Change g true g') :
    Change g false g' ∨ ∃ id n specs, g.node? id = some n ∧
      g' = Edit.replacePins id n (g.pinsOf n) specs g := by
  cases h with
  | addNode kind specs => exact .inl (.addNode kind specs)
  | removeNode hn => exact .inl (.removeNode hn)
  | removePin id => exact .inl (.removePin id)
  | setDefault hp value => exact .inl (.setDefault hp value)
  | setPosition hn position => exact .inl (.setPosition hn position)
  | addLink hs ht hfree => exact .inl (.addLink hs ht hfree)
  | removeLink id => exact .inl (.removeLink id)
  | setSignature signature => exact .inl (.setSignature signature)
  | @replacePins id n hn specs => exact .inr ⟨id, n, specs, hn, rfl⟩

def Changes (renewing : Bool) : Graph → Graph → Prop :=
  Relation.ReflTransGen fun g g' => Change g renewing g'

theorem Change.follows {g g' : Graph} {renewing : Bool} (h : Change g renewing g') :
    Follows g g' := by
  cases h with
  | addNode kind specs => exact follows_addNode g kind specs
  | removeNode hn => exact follows_removeNode hn _
  | removePin id => exact follows_removePin g id _
  | setDefault hp value => exact follows_updatePin hp rfl rfl
  | setPosition hn position => exact follows_updateNode hn rfl rfl rfl
  | addLink hs ht hfree => exact .of_eq rfl rfl
  | removeLink id => exact .of_eq rfl rfl
  | setSignature signature => exact .of_eq rfl rfl
  | replacePins hn specs => exact follows_replacePins hn specs

theorem Changes.mono {g g' : Graph} {renewing : Bool} (h : Changes renewing g g') :
    Changes true g g' := by
  induction h with
  | refl => exact .refl
  | tail _ hchange ih => exact ih.tail hchange.mono

theorem Changes.follows {g g' : Graph} {renewing : Bool} (h : Changes renewing g g') :
    Follows g g' := by
  induction h with
  | refl => exact .refl g
  | tail _ hchange ih => exact ih.trans hchange.follows

theorem Changes.keep {renewing : Bool} {P : Graph → Prop}
    (hstep : ∀ g g', g'.Numbered → g.Consistent → Change g renewing g' → P g → P g')
    {g g' : Graph} (h : Changes renewing g g') (hn : g'.Numbered) (hc : g.Consistent) (hP : P g) :
    g'.Consistent ∧ P g' := by
  induction h with
  | refl => exact ⟨hc, hP⟩
  | @tail k k' _ hk ih =>
    obtain ⟨hkc, hkP⟩ := ih (hk.follows.numbered hn)
    exact ⟨hk.follows.consistent hn hkc, hstep k k' hn hkc hk hkP⟩

end Graph

namespace Edit

variable {α β : Type}

/-- What an edit leads to: a property of its result and of the graph after it, and of the graph after
it failed. -/
def Leads (x : Edit α) (e : Editing) (Q : α → Editing → Prop) (E : Graph → Prop) : Prop :=
  match x e with
  | .ok a e => Q a e
  | .error _ e => E e.graph

variable {e : Editing} {Q : α → Editing → Prop} {E : Graph → Prop}

@[simp] theorem leads_pure {a : α} : Leads (pure a) e Q E ↔ Q a e := Iff.rfl

@[simp] theorem leads_throw {error : EditError} : Leads (throw error) e Q E ↔ E e.graph := Iff.rfl

@[simp] theorem leads_bind {x : Edit β} {f : β → Edit α} :
    Leads (x >>= f) e Q E ↔ Leads x e (fun b e => Leads (f b) e Q E) E := by
  simp only [Leads, bind, EStateM.bind]
  cases x e <;> rfl

@[simp] theorem leads_map {x : Edit β} {f : β → α} :
    Leads (f <$> x) e Q E ↔ Leads x e (fun b e => Q (f b) e) E := by
  rw [map_eq_pure_bind, leads_bind]
  rfl

theorem Leads.mono {x : Edit α} {Q' : α → Editing → Prop} {E' : Graph → Prop} (h : Leads x e Q E)
    (hQ : ∀ a e, Q a e → Q' a e) (hE : ∀ g, E g → E' g) : Leads x e Q' E' := by
  unfold Leads at h ⊢
  cases hx : x e with
  | ok a e' => rw [hx] at h; exact hQ a e' h
  | error error e' => rw [hx] at h; exact hE _ h

@[simp] theorem leads_graph {Q : Graph → Editing → Prop} : Leads graph e Q E ↔ Q e.graph e := Iff.rfl

@[simp] theorem leads_setGraph {g : Graph} {Q : Unit → Editing → Prop} :
    Leads (setGraph g) e Q E ↔ Q () { e with graph := g } := Iff.rfl

@[simp] theorem leads_modifyGraph {f : Graph → Graph} {Q : Unit → Editing → Prop} :
    Leads (modifyGraph f) e Q E ↔ Q () { e with graph := f e.graph } := Iff.rfl

theorem leads_note {message : String} {id : NodeId} {more : List (String × Json)}
    {Q : Unit → Editing → Prop} (h : ∀ notes, Q () { e with notes }) :
    Leads (note message id more) e Q E := h _

theorem leads_node_iff {id : NodeId} {Q : Node → Editing → Prop} :
    Leads (node id) e Q E ↔ match e.graph.node? id with
      | some n => Q n e
      | none => E e.graph := by
  simp only [node, leads_bind, leads_graph]
  cases e.graph.node? id <;> rfl

theorem leads_node {id : NodeId} {Q : Node → Editing → Prop} (hE : E e.graph)
    (hQ : ∀ n, e.graph.node? id = some n → Q n e) : Leads (node id) e Q E := by
  rw [leads_node_iff]
  cases h : e.graph.node? id with
  | none => exact hE
  | some n => exact hQ n h

theorem leads_pin {id : PinId} {Q : Pin → Editing → Prop} (hE : E e.graph)
    (hQ : ∀ p, e.graph.pin? id = some p → Q p e) : Leads (pin id) e Q E := by
  simp only [pin, leads_bind, leads_graph]
  cases h : e.graph.pin? id with
  | none => exact hE
  | some p => exact hQ p h

theorem leads_expectedPins_iff {c : Catalogue} {kind : NodeKind}
    {Q : List PinSpec → Editing → Prop} :
    Leads (expectedPins c kind) e Q E ↔ match kind.expectedPins e.graph.signature c with
      | .ok specs => Q specs e
      | .error _ => E e.graph := by
  simp only [expectedPins, leads_bind, leads_graph]
  cases kind.expectedPins e.graph.signature c <;> rfl

theorem leads_expectedPins {c : Catalogue} {kind : NodeKind} {Q : List PinSpec → Editing → Prop}
    (hE : E e.graph) (hQ : ∀ specs, Q specs e) : Leads (expectedPins c kind) e Q E := by
  rw [leads_expectedPins_iff]
  cases kind.expectedPins e.graph.signature c with
  | error _ => exact hE
  | ok specs => exact hQ specs

/-- An edit that does nothing but changes, whether it succeeds or not. -/
def Sound (renewing : Bool) (x : Edit α) : Prop :=
  ∀ e, Leads x e (fun _ e' => Graph.Changes renewing e.graph e'.graph)
    fun g => Graph.Changes renewing e.graph g

variable {renewing : Bool}

theorem Sound.bind {x : Edit β} {f : β → Edit α} (hx : Sound renewing x)
    (hf : ∀ b, Sound renewing (f b)) : Sound renewing (x >>= f) := fun e => leads_bind.mpr <|
  (hx e).mono (fun b e' h => (hf b e').mono (fun _ _ => h.trans) fun _ => h.trans) fun _ h => h

theorem Sound.pure (a : α) : Sound renewing (Pure.pure a) := fun _ => .refl

theorem Sound.discard {x : Edit α} (hx : Sound renewing x) : Sound renewing (discard x) := fun e =>
  leads_map.mpr (hx e)

theorem sound_addNodeWithPins (kind : NodeKind) (specs : List PinSpec) :
    Sound renewing (addNodeWithPins kind specs) := by
  intro e
  simp only [addNodeWithPins, leads_bind, leads_graph, leads_setGraph, leads_pure]
  exact leads_note fun _ => .single (.addNode kind specs)

theorem sound_addNode (c : Catalogue) (kind : NodeKind) : Sound renewing (addNode c kind) := by
  intro e
  simp only [addNode, leads_bind]
  exact leads_expectedPins .refl fun specs => sound_addNodeWithPins kind specs e

theorem sound_removeNode (id : NodeId) : Sound renewing (removeNode id) := by
  intro e
  simp only [removeNode, leads_bind, leads_modifyGraph]
  exact leads_node .refl fun n hn => leads_note fun _ => .single (.removeNode hn)

theorem sound_removePin (id : PinId) : Sound renewing (removePin id) := by
  intro e
  simp only [removePin, leads_bind, leads_modifyGraph]
  exact leads_pin .refl fun _ _ => .single (.removePin id)

theorem sound_setDefault (id : PinId) (value : Option Json) :
    Sound renewing (setDefault id value) := by
  intro e
  simp only [setDefault, leads_bind, leads_modifyGraph]
  exact leads_pin .refl fun _ hp => .single (.setDefault hp value)

theorem sound_setPosition (id : NodeId) (position : Position) :
    Sound renewing (setPosition id position) := by
  intro e
  simp only [setPosition, leads_bind, leads_modifyGraph]
  exact leads_node .refl fun _ hn => .single (.setPosition hn position)

theorem sound_addLink (output input : PinId) : Sound renewing (addLink output input) := by
  intro e
  simp only [addLink, leads_bind, leads_graph]
  refine leads_pin .refl fun source hs => leads_pin .refl fun target ht => ?_
  cases hfree : linkObstacle e.graph output input source target with
  | some reason => exact .refl
  | none => exact .single (.addLink hs ht hfree)

theorem sound_removeLink (id : LinkId) : Sound renewing (removeLink id) := by
  intro e
  simp only [removeLink, leads_bind, leads_graph, leads_setGraph, leads_pure]
  exact .single (.removeLink id)

theorem sound_refreshNode (c : Catalogue) (id : NodeId) : Sound true (refreshNode c id) := by
  intro e
  simp only [refreshNode, leads_bind, leads_graph]
  refine leads_node .refl fun n hn => leads_expectedPins .refl fun specs => ?_
  split
  · exact .refl
  · simp only [leads_bind, leads_modifyGraph]
    exact leads_note fun _ => .single (.replacePins hn specs)

theorem sound_graph : Sound renewing graph := fun _ => .refl

theorem sound_setSignature (c : Catalogue) (signature : GraphSignature) :
    Sound true (setSignature c signature) := by
  have hnodes : ∀ nodes : List Node, Sound true (forIn nodes PUnit.unit fun n _ =>
      if n.kind == .entry || n.kind == .ret then do
        refreshNode c n.id
        Pure.pure (ForInStep.yield PUnit.unit)
      else Pure.pure (ForInStep.yield PUnit.unit)) := by
    intro nodes
    induction nodes with
    | nil => exact .pure _
    | cons n nodes ih =>
      rw [List.forIn_cons]
      refine Sound.bind ?_ fun step => ?_
      · split
        · exact (sound_refreshNode c n.id).bind fun _ => .pure _
        · exact .pure _
      · cases step with
        | done u => exact .pure _
        | yield u => exact ih
  have hset : Sound true (modifyGraph fun g => { g with signature }) := fun e =>
    .single (.setSignature signature)
  exact hset.bind fun _ => sound_graph.bind fun g => (hnodes g.liveNodes).bind fun _ => .pure _

theorem sound_addEnds (c : Catalogue) : Sound renewing (addEnds c) := by
  refine (sound_addNode c .entry).bind fun _ => sound_graph.bind fun g => ?_
  dsimp only
  split
  · exact (sound_addNode c .ret).bind fun _ => .pure _
  · exact .pure _

end Edit

namespace EditOp

/-- Whether an edit may give nodes new pins. -/
def renews : EditOp → Bool
  | refreshNode _ | setSignature _ => true
  | _ => false

theorem changes_apply (op : EditOp) (c : Catalogue) (g : Graph) :
    Graph.Changes op.renews g (op.apply c g) := by
  have hsound : Edit.Sound op.renews (op.edit c) := by
    cases op with
    | addNode kind => exact (Edit.sound_addNode c kind).discard
    | addNodeWithPins kind specs => exact (Edit.sound_addNodeWithPins kind specs).discard
    | removeNode id => exact Edit.sound_removeNode id
    | removePin id => exact Edit.sound_removePin id
    | setDefault id value => exact Edit.sound_setDefault id value
    | setPosition id position => exact Edit.sound_setPosition id position
    | addLink output input => exact (Edit.sound_addLink output input).discard
    | removeLink id => exact (Edit.sound_removeLink id).discard
    | refreshNode id => exact Edit.sound_refreshNode c id
    | setSignature signature => exact Edit.sound_setSignature c signature
    | addEnds => exact Edit.sound_addEnds c
  have h := hsound { graph := g }
  unfold Edit.Leads at h
  unfold apply
  cases hx : op.edit c { graph := g } with
  | ok u e => rw [hx] at h; exact h
  | error u e => rw [hx] at h; exact h

end EditOp

namespace Graph

theorem Edited.numbered {g : Graph} (h : g.Edited) : g.Numbered := by
  cases h with
  | new name signature => exact (by decide : 0 + 1 < 0x100000000)
  | edit h op c hn => exact hn

theorem consistent_new (name : String) (signature : GraphSignature) :
    Consistent { name, signature } := by
  refine ⟨fun id n hn => ?_, fun id n hn => ?_, fun id p hp => ?_, fun id p hp => ?_⟩
  · cases (slot?_empty id.val).symm.trans hn
  · cases (slot?_empty id.val).symm.trans hn
  · cases (slot?_empty id.val).symm.trans hp
  · cases (slot?_empty id.val).symm.trans hp

theorem Edited.keep {P : Graph → Prop} (hnew : ∀ name signature, P { name, signature })
    (hstep : ∀ g g', g'.Numbered → g.Consistent → Change g true g' → P g → P g') {g : Graph}
    (h : g.Edited) : g.Consistent ∧ P g := by
  induction h with
  | new name signature => exact ⟨consistent_new name signature, hnew name signature⟩
  | edit h op c hn ih =>
    exact (op.changes_apply c _).keep (fun g g' hn hc hg => hstep g g' hn hc hg.mono) hn ih.1 ih.2

theorem Edited.consistent {g : Graph} (h : g.Edited) : g.Consistent :=
  (h.keep (P := fun _ => True) (fun _ _ => trivial) fun _ _ _ _ _ _ => trivial).1

end Graph

end Flowscript
