import Flowscript.Proofs.Graph.PinRenewal

/-! # Wiring

Every link of an edited graph joins an output pin to an input pin of another node, both flow or both
data, and no two nodes share a pin number. Edits that give no node new pins leave the ends of the
links that stay as they were; an edit that does moves every end to a pin of the same role.
-/
namespace Flowscript

namespace Graph

/-- A link leads from an output pin to an input pin of another node, both flow or both data. -/
def Joined (g : Graph) (l : Link) : Prop :=
  ∃ source target : Pin, g.pin? l.output = some source ∧ g.pin? l.input = some target ∧
    source.direction = .output ∧ target.direction = .input ∧ source.node ≠ target.node ∧
    source.isFlow = target.isFlow

theorem joined_iff_role {g : Graph} {l : Link} :
    g.Joined l ↔ ∃ a b flow, a ≠ b ∧ g.role? l.output = some (a, .output, flow) ∧
      g.role? l.input = some (b, .input, flow) := by
  simp only [role?, Option.map_eq_some_iff, Pin.role, Prod.mk.injEq]
  constructor
  · rintro ⟨source, target, hs, ht, hout, hin, hne, hflow⟩
    exact ⟨_, _, _, hne, ⟨source, hs, rfl, hout, rfl⟩, target, ht, rfl, hin, hflow.symm⟩
  · rintro ⟨a, b, flow, hne, ⟨source, hs, rfl, hout, rfl⟩, target, ht, rfl, hin, hflow⟩
    exact ⟨source, target, hs, ht, hout, hin, hne, hflow.symm⟩

theorem Joined.of_role {g g' : Graph} {l l' : Link} (h : g.Joined l)
    (hout : g'.role? l'.output = g.role? l.output) (hin : g'.role? l'.input = g.role? l.input) :
    g'.Joined l' := by
  rw [joined_iff_role] at h ⊢
  rwa [hout, hin]

def Directed (g : Graph) (l : Link) : Prop :=
  ∃ source target : Pin, g.pin? l.output = some source ∧ g.pin? l.input = some target ∧
    source.direction = .output ∧ target.direction = .input

theorem Joined.directed {g : Graph} {l : Link} (h : g.Joined l) : g.Directed l := by
  obtain ⟨source, target, hs, ht, hout, hin, -, -⟩ := h
  exact ⟨source, target, hs, ht, hout, hin⟩

theorem Joined.bound {g : Graph} {l : Link} (h : g.Joined l) :
    l.output.val ≤ g.pins.size ∧ l.input.val ≤ g.pins.size := by
  obtain ⟨_, _, hs, ht, -⟩ := h
  exact ⟨(slot?_bound hs).2, (slot?_bound ht).2⟩

/-- Links carry the numbers of their slots and join what they should, and the ranges of different
nodes have no pin number in common. -/
structure Wired (g : Graph) : Prop where
  link_id : ∀ id l, g.link? id = some l → l.id = id
  joined : ∀ id l, g.link? id = some l → g.Joined l
  apart : ∀ a b n m, g.node? a = some n → g.node? b = some m → a ≠ b →
    ∀ p, InRange n p → ¬ InRange m p

/-- A link that may be added is joined, and where only one link may be there it is the first. -/
theorem linkObstacle_eq_none {g : Graph} {output input : PinId} {source target : Pin}
    (h : Edit.linkObstacle g output input source target = none) :
    source.direction = .output ∧ target.direction = .input ∧ source.node ≠ target.node ∧
      source.isFlow = target.isFlow ∧
      (source.isFlow = true → ∀ l ∈ g.liveLinks, l.output ≠ output) ∧
      (target.isFlow = false → ∀ l ∈ g.liveLinks, l.input ≠ input) := by
  unfold Edit.linkObstacle at h
  split at h
  · cases h
  next hdirection =>
  split at h
  · cases h
  next hnode =>
  split at h
  · cases h
  next hkind =>
  split at h
  · cases h
  next hflow =>
  split at h
  · cases h
  next hdata =>
  simp only [Pin.isOutput, Pin.isInput, Bool.or_eq_true, Bool.not_eq_true', beq_eq_false_iff_ne,
    not_or, not_not] at hdirection
  simp only [bne_iff_ne, not_not] at hkind
  refine ⟨hdirection.1, hdirection.2, hnode, hkind, fun hs l hl he => hflow ?_,
    fun ht l hl he => hdata ?_⟩
  · simp only [hs, Bool.true_and, List.any_eq_true, beq_iff_eq]
    exact ⟨l, hl, he⟩
  · simp only [ht, Bool.not_false, Bool.true_and, List.any_eq_true, beq_iff_eq]
    exact ⟨l, hl, he⟩

theorem links_removeAll (g : Graph) (ids : List PinId) :
    (ids.foldl (fun g id => g.setPin id none) g).links = g.links := by
  induction ids generalizing g with
  | nil => rfl
  | cons id ids ih => exact ih _

theorem owns_of_mem_pinRange {g : Graph} {n : Node} {id : PinId} (h : id ∈ g.pinRange n) :
    n.owns id = true := by
  obtain ⟨i, hi, rfl⟩ := List.mem_map.mp h
  rw [List.mem_range'_1] at hi
  simp only [Node.owns, Bool.and_eq_true, decide_eq_true_eq]
  omega

/-- A link after a change that renews no pins was there before, with ends of the same roles, or it
is the one that was added. -/
theorem Change.link_cases {g g' : Graph} (hjoined : ∀ id l, g.link? id = some l → g.Joined l)
    (h : Change g false g') {k : LinkId} {l : Link} (hl : g'.link? k = some l) :
    g.link? k = some l ∧ g'.role? l.output = g.role? l.output ∧ g'.role? l.input = g.role? l.input ∨
      l.id = k ∧ g'.pins = g.pins ∧
        (∀ k' l', g'.link? k' = some l' → k' ≠ k → g.link? k' = some l') ∧
        ∃ source target, g.pin? l.output = some source ∧ g.pin? l.input = some target ∧
          Edit.linkObstacle g l.output l.input source target = none := by
  cases h with
  | addNode kind specs =>
    have hold : g.link? k = some l := hl
    have hb := (hjoined k l hold).bound
    refine .inl ⟨hold, ?_, ?_⟩
    · exact congrArg (Option.map Pin.role) (pin?_pushPins_of_le hb.1)
    · exact congrArg (Option.map Pin.role) (pin?_pushPins_of_le hb.2)
  | @removeNode _ id n hnode =>
    have hlinks : (g.dropLinks fun l => n.owns l.input || n.owns l.output).link? k = some l := by
      rw [← hl]
      exact congrArg (slot? · k.val) (links_removeAll _ _).symm
    obtain ⟨hold, hout⟩ := link?_dropLinks.mp hlinks
    rw [Bool.or_eq_false_iff] at hout
    -- The ends of a link that stays are outside of the range.
    have hstays : ∀ id, n.owns id = false → id ∉ g.pinRange n := by
      intro id hid hmem
      rw [owns_of_mem_pinRange hmem] at hid
      cases hid
    exact .inl ⟨hold, role?_removeAll (hstays _ hout.2), role?_removeAll (hstays _ hout.1)⟩
  | removePin id =>
    obtain ⟨hold, hout⟩ := link?_dropLinks.mp hl
    simp only [Link.touches, Bool.or_eq_false_iff, beq_eq_false_iff_ne] at hout
    exact .inl ⟨hold, role?_setPin_of_ne _ hout.2, role?_setPin_of_ne _ hout.1⟩
  | @setDefault _ id p hp value =>
    have hrole := role?_setPin (q := { p with default := value }) hp rfl
    exact .inl ⟨hl, hrole _, hrole _⟩
  | setPosition hnode position => exact .inl ⟨hl, rfl, rfl⟩
  | @addLink _ output input source target hs ht hfree =>
    have hold : ∀ k' l', slot? (g.links.push (some ⟨⟨g.links.size + 1⟩, input, output⟩)) k' = some l' →
        k' ≠ g.links.size + 1 → slot? g.links k' = some l' := fun k' l' hl' hk' =>
      (slot?_push_of_ne _ hk').symm.trans hl'
    by_cases hk : k.val = g.links.size + 1
    · have hnew : slot? (g.links.push (some ⟨⟨g.links.size + 1⟩, input, output⟩)) k.val = some l := hl
      rw [hk, slot?_push_self] at hnew
      cases hnew
      refine .inr ⟨LinkId.ext hk.symm, rfl, fun k' l' hl' hne => ?_, source, target, hs, ht,
        hfree⟩
      exact hold k'.val l' hl' fun he => hne (LinkId.ext (he.trans hk.symm))
    · exact .inl ⟨hold k.val l hl hk, rfl, rfl⟩
  | removeLink id =>
    rcases slot?_setSlot hl with ⟨-, hnone⟩ | ⟨-, hold⟩
    · cases hnone
    · exact .inl ⟨hold, rfl, rfl⟩
  | setSignature signature => exact .inl ⟨hl, rfl, rfl⟩

theorem Change.node_cases {g g' : Graph} {renewing : Bool} (h : Change g renewing g') :
    ∃ new : NodeId, ∀ m k, g'.node? m = some k →
      (∃ n, g.node? m = some n ∧ ∀ p, InRange k p → InRange n p) ∨
        m = new ∧ ∀ p, InRange k p → g.pins.size < p.val := by
  have hsame : ∀ k : Node, ∀ p, InRange k p → InRange k p := fun _ _ hp => hp
  cases h with
  | addNode kind specs =>
    refine ⟨⟨g.nodes.size + 1⟩, fun m k hk => ?_⟩
    by_cases hm : m.val = g.nodes.size + 1
    · obtain rfl : m = ⟨g.nodes.size + 1⟩ := NodeId.ext hm
      cases (slot?_push_self _).symm.trans hk
      exact .inr ⟨rfl, fun p hp => Nat.lt_of_succ_le hp.1⟩
    · exact .inl ⟨k, (slot?_push_of_ne _ hm).symm.trans hk, hsame k⟩
  | @removeNode _ id n hnode =>
    refine ⟨id, fun m k hk => .inl ⟨k, ?_, hsame k⟩⟩
    rcases slot?_setSlot hk with ⟨-, hnone⟩ | ⟨-, hk⟩
    · cases hnone
    · rw [nodes_removeAll] at hk
      exact hk
  | @setPosition _ id n hnode position =>
    refine ⟨id, fun m k hk => .inl ?_⟩
    rcases slot?_setSlot hk with ⟨he, hs⟩ | ⟨-, hk⟩
    · cases hs
      exact ⟨n, NodeId.ext he ▸ hnode, fun p hp => hp⟩
    · exact ⟨k, hk, hsame k⟩
  | @replacePins id n hnode specs =>
    refine ⟨id, fun m k hk => ?_⟩
    rw [node?_replacePins hnode] at hk
    split at hk
    · next hm =>
      cases hk
      exact .inr ⟨hm, fun p hp => Nat.lt_of_succ_le hp.1⟩
    · exact .inl ⟨k, hk, hsame k⟩
  | removePin id => exact ⟨⟨0⟩, fun m k hk => .inl ⟨k, hk, hsame k⟩⟩
  | setDefault hp value => exact ⟨⟨0⟩, fun m k hk => .inl ⟨k, hk, hsame k⟩⟩
  | addLink hs ht hfree => exact ⟨⟨0⟩, fun m k hk => .inl ⟨k, hk, hsame k⟩⟩
  | removeLink id => exact ⟨⟨0⟩, fun m k hk => .inl ⟨k, hk, hsame k⟩⟩
  | setSignature signature => exact ⟨⟨0⟩, fun m k hk => .inl ⟨k, hk, hsame k⟩⟩

/-- Ranges stay apart: those that were there do not change, and a new one lies after them. -/
theorem Change.apart {g g' : Graph} {renewing : Bool} (hc : g.Consistent) (hg : g.Wired)
    (h : Change g renewing g') {a b : NodeId} {n m : Node} (hn : g'.node? a = some n)
    (hm : g'.node? b = some m) (hne : a ≠ b) (p : PinId) (hp : InRange n p) : ¬ InRange m p := by
  intro hp'
  obtain ⟨new, hcases⟩ := h.node_cases
  -- A number of a range that was there is one of the pins that were there.
  have hbound : ∀ id k, g.node? id = some k → InRange k p → p.val ≤ g.pins.size := by
    intro id k hk hr
    have hrange := hc.range id k hk
    unfold InRange at hr
    omega
  rcases hcases a n hn with ⟨n', hn', hold⟩ | ⟨ha, hnew⟩
  · rcases hcases b m hm with ⟨m', hm', hold'⟩ | ⟨hb, hnew'⟩
    · exact hg.apart a b n' m' hn' hm' hne p (hold p hp) (hold' p hp')
    · have hle := hbound a n' hn' (hold p hp)
      have hlt := hnew' p hp'
      omega
  · rcases hcases b m hm with ⟨m', hm', hold'⟩ | ⟨hb, hnew'⟩
    · have hle := hbound b m' hm' (hold' p hp')
      have hlt := hnew p hp
      omega
    · exact hne (ha.trans hb.symm)

theorem node_of_mem_pinsOf {g : Graph} (hn : g.Numbered) (hc : g.Consistent) (hg : g.Wired)
    {id : NodeId} {n : Node} (hnode : g.node? id = some n) {p : Pin} (hp : p ∈ g.pinsOf n) :
    p.node = id := by
  obtain ⟨hlive, hrange⟩ := (mem_pinsOf_iff hn hc (hc.range id n hnode).2).mp hp
  obtain ⟨m, hm, hrange'⟩ := hc.pin_node p.id p hlive
  by_contra hne
  exact hg.apart p.node id m n hm hnode hne p.id hrange' hrange

theorem role?_renewed {g : Graph} (hn : g.Numbered) (hc : g.Consistent) (hg : g.Wired) {id : NodeId}
    {n : Node} (hnode : g.node? id = some n) (specs : List PinSpec) {q q' : PinId}
    (hq : q.val ≤ g.pins.size) (h : renewed (g.pinsOf n) (g.fresh id specs) q = some q') :
    (Edit.replacePins id n (g.pinsOf n) specs g).role? q' = g.role? q := by
  unfold renewed at h
  cases hfind : (g.pinsOf n).find? (·.id == q) with
  | none =>
    rw [hfind] at h
    cases h
    refine role?_replacePins_of_le hq fun old hold he => ?_
    rw [he] at hfind
    exact List.find?_eq_none.mp hfind old hold BEq.rfl
  | some old =>
    rw [hfind] at h
    have hold := List.mem_of_find?_eq_some hfind
    have hid : old.id = q := by simpa using List.find?_some hfind
    have hlive := ((mem_pinsOf_iff hn hc (hc.range id n hnode).2).mp hold).1
    rw [role?_successor (fun old => le_of_mem_pinsOf hc) h, role?, ← hid, hlive, Option.map_some,
      Pin.role, node_of_mem_pinsOf hn hc hg hnode hold]

theorem Change.wired_of_plain {g g' : Graph} (hc : g.Consistent) (h : Change g false g')
    (hg : g.Wired) : g'.Wired := by
  refine ⟨fun k l hl => ?_, fun k l hl => ?_, fun a b n m hn hm hne => h.apart hc hg hn hm hne⟩
  · rcases h.link_cases hg.joined hl with ⟨hold, -⟩ | ⟨hid, -⟩
    · exact hg.link_id k l hold
    · exact hid
  · rcases h.link_cases hg.joined hl with ⟨hold, hout, hin⟩ |
      ⟨-, hpins, -, source, target, hs, ht, hfree⟩
    · exact (hg.joined k l hold).of_role hout hin
    · obtain ⟨hout, hin, hne, hflow, -⟩ := linkObstacle_eq_none hfree
      refine ⟨source, target, ?_, ?_, hout, hin, hne, hflow⟩
      · rw [pin?, hpins]
        exact hs
      · rw [pin?, hpins]
        exact ht

theorem wired_replacePins {g : Graph} (hn : g.Numbered) (hc : g.Consistent) (hg : g.Wired)
    {id : NodeId} {n : Node} (hnode : g.node? id = some n) (specs : List PinSpec) :
    (Edit.replacePins id n (g.pinsOf n) specs g).Wired := by
  have hrenewed : ∀ k l', (Edit.replacePins id n (g.pinsOf n) specs g).link? k = some l' →
      ∃ l, g.link? k = some l ∧ l'.id = l.id ∧
        renewed (g.pinsOf n) (g.fresh id specs) l.input = some l'.input ∧
        renewed (g.pinsOf n) (g.fresh id specs) l.output = some l'.output := by
    intro k l' hl'
    obtain ⟨l, hl, hrenewed⟩ :=
      (link?_replacePins (nodup_pinsOf hc.pin_id n) fun _ => le_of_mem_pinsOf hc).mp hl'
    exact ⟨l, hl, renewedLink_eq_some_iff.mp hrenewed⟩
  refine ⟨fun k l' hl' => ?_, fun k l' hl' => ?_, fun a b n' m hn' hm hne =>
    (Change.replacePins hnode specs).apart hc hg hn' hm hne⟩
  · obtain ⟨l, hl, hid, -, -⟩ := hrenewed k l' hl'
    rw [hid]
    exact hg.link_id k l hl
  · obtain ⟨l, hl, -, hin, hout⟩ := hrenewed k l' hl'
    have hjoined := hg.joined k l hl
    exact hjoined.of_role (role?_renewed hn hc hg hnode specs hjoined.bound.1 hout)
      (role?_renewed hn hc hg hnode specs hjoined.bound.2 hin)

theorem Change.wired {g g' : Graph} (hn : g'.Numbered) (hc : g.Consistent) (h : Change g true g')
    (hg : g.Wired) : g'.Wired := by
  rcases h.plain_or_renewal with hplain | ⟨id, n, specs, hnode, rfl⟩
  · exact hplain.wired_of_plain hc hg
  · exact wired_replacePins (h.follows.numbered hn) hc hg hnode specs

theorem wired_new (name : String) (signature : GraphSignature) : Wired { name, signature } := by
  refine ⟨fun id l hl => ?_, fun id l hl => ?_, fun a b n m hn => ?_⟩
  · cases (slot?_empty id.val).symm.trans hl
  · cases (slot?_empty id.val).symm.trans hl
  · cases (slot?_empty a.val).symm.trans hn

/-- Every slot is empty or holds the element whose number is one above its index. -/
structure Slotted (g : Graph) : Prop where
  node : ∀ i n, g.nodes[i]? = some (some n) → n.id.val = i + 1
  pin : ∀ i p, g.pins[i]? = some (some p) → p.id.val = i + 1
  link : ∀ i l, g.links[i]? = some (some l) → l.id.val = i + 1

/-- Every node and every pin is found under its own number. -/
structure Filed (g : Graph) : Prop where
  node : ∀ id n, g.node? id = some n → n.id = id
  pin : ∀ id p, g.pin? id = some p → p.id = id

namespace Slotted

variable {g : Graph}

theorem node_id (h : g.Slotted) (id : NodeId) (n : Node) (hn : g.node? id = some n) : n.id = id := by
  have hb := slot?_bound hn
  have hid := h.node (id.val - 1) n (slot?_eq_some_iff.mp hn).2
  exact NodeId.ext (by omega)

theorem pin_id (h : g.Slotted) (id : PinId) (p : Pin) (hp : g.pin? id = some p) : p.id = id := by
  have hb := slot?_bound hp
  have hid := h.pin (id.val - 1) p (slot?_eq_some_iff.mp hp).2
  exact PinId.ext (by omega)

theorem link_id (h : g.Slotted) (id : LinkId) (l : Link) (hl : g.link? id = some l) : l.id = id := by
  have hb := slot?_bound hl
  have hid := h.link (id.val - 1) l (slot?_eq_some_iff.mp hl).2
  exact LinkId.ext (by omega)

theorem filed (h : g.Slotted) : g.Filed := ⟨h.node_id, h.pin_id⟩

end Slotted

/-- What holds of the arrays of an edited graph. -/
structure Structured (g : Graph) : Prop extends Slotted g where
  /-- The range of every node lies within the pins. -/
  range : ∀ n ∈ g.liveNodes, 0 < n.firstPin.val ∧ n.firstPin.val + n.pinCount ≤ g.pins.size + 1
  /-- The ranges of different nodes have no number in common. -/
  apart : ∀ n ∈ g.liveNodes, ∀ m ∈ g.liveNodes, n.id ≠ m.id → ∀ p, InRange n p → ¬ InRange m p
  /-- Every pin lies in the range of the node it names. -/
  pin_node : ∀ p ∈ g.livePins, ∃ n ∈ g.liveNodes, n.id = p.node ∧ InRange n p.id
  /-- Every link leads from an output pin to an input pin of another node, both flow or both data.
  -/
  joined : ∀ l ∈ g.liveLinks, ∃ source ∈ g.livePins, ∃ target ∈ g.livePins,
    source.id = l.output ∧ target.id = l.input ∧ source.direction = .output ∧
      target.direction = .input ∧ source.node ≠ target.node ∧ source.isFlow = target.isFlow

theorem Consistent.structured_of_wired {g : Graph} (hc : g.Consistent) (hg : g.Wired) : g.Structured := by
  have hnode : ∀ n ∈ g.liveNodes, g.node? n.id = some n := by
    intro n hn
    obtain ⟨id, hid⟩ := mem_live_iff.mp hn
    rw [hc.node_id ⟨id⟩ n hid]
    exact hid
  have hpin : ∀ id p, g.pin? id = some p → p ∈ g.livePins := fun id p hp => mem_live_iff.mpr ⟨_, hp⟩
  refine ⟨⟨fun i n hn => ?_, fun i p hp => ?_, fun i l hl => ?_⟩, fun n hn => ?_,
    fun n hn m hm => ?_, fun p hp => ?_, fun l hl => ?_⟩
  · rw [hc.node_id ⟨i + 1⟩ n (slot?_succ.mpr hn)]
  · rw [hc.pin_id ⟨i + 1⟩ p (slot?_succ.mpr hp)]
  · rw [hg.link_id ⟨i + 1⟩ l (slot?_succ.mpr hl)]
  · exact hc.range n.id n (hnode n hn)
  · exact hg.apart n.id m.id n m (hnode n hn) (hnode m hm)
  · obtain ⟨id, hid⟩ := mem_live_iff.mp hp
    obtain ⟨n, hn, hrange⟩ := hc.pin_node ⟨id⟩ p hid
    rw [hc.pin_id ⟨id⟩ p hid]
    exact ⟨n, mem_live_iff.mpr ⟨_, hn⟩, hc.node_id p.node n hn, hrange⟩
  · obtain ⟨id, hid⟩ := mem_live_iff.mp hl
    obtain ⟨source, target, hs, ht, hjoined⟩ := hg.joined ⟨id⟩ l hid
    exact ⟨source, hpin _ _ hs, target, hpin _ _ ht, hc.pin_id _ _ hs, hc.pin_id _ _ ht, hjoined⟩

theorem Edited.wired {g : Graph} (h : g.Edited) : g.Wired :=
  (h.keep wired_new fun _ _ hn hc hchange hg => hchange.wired hn hc hg).2

/-- Edited graphs are structured, whatever edits they went through and whether these succeeded. -/
theorem Edited.structured {g : Graph} (h : g.Edited) : g.Structured :=
  h.consistent.structured_of_wired h.wired

/-- A branch that had one output only, linked to a reroute, after its pins were renewed. -/
def mended : Graph :=
  let g : Graph := { name := "Mended" }
  let g := (EditOp.addNodeWithPins .branch [.flowOut "True"]).apply {} g
  let g := (EditOp.addNodeWithPins (.reroute .flow) [.flowIn "In", .flowOut "Out"]).apply {} g
  let g := (EditOp.addLink ⟨1⟩ ⟨2⟩).apply {} g
  (EditOp.refreshNode ⟨1⟩).apply {} g

theorem edited_mended : mended.Edited := by
  unfold mended
  refine .edit (.edit (.edit (.edit (.new "Mended" {}) _ _ ?_) _ _ ?_) _ _ ?_) _ _ ?_ <;>
    · unfold Numbered
      decide +kernel

/-- The link of the renewed branch leads from its new output. -/
theorem structured_mended : mended.liveLinks = [⟨⟨1⟩, ⟨2⟩, ⟨6⟩⟩] ∧ mended.Structured :=
  ⟨by decide +kernel, edited_mended.structured⟩

end Graph

end Flowscript
