import Flowscript.Proofs.Graph.LinkLimits

/-! # Inherited pins

The pins of a graph after new ones took the place of a node's old ones: the old ones are gone, pins
that were none of them are what they were, and each new pin has the default of the last old pin whose
place it takes.
-/
namespace Flowscript

namespace Graph

def predecessor? (olds news : List Pin) (id : PinId) : Option Pin :=
  (olds.filter fun old => Edit.successor? news old == some id).getLast?

def inherit (olds news : List Pin) (p : Pin) : Pin :=
  { p with default := (predecessor? olds news p.id).bind (·.default) }

theorem pin?_setPin_none (g : Graph) (id q : PinId) :
    (g.setPin id none).pin? q = if q = id then none else g.pin? q := by
  by_cases he : q = id
  · rw [if_pos he, he]
    refine Option.eq_none_iff_forall_ne_some.mpr fun p hp => ?_
    rcases slot?_setSlot hp with ⟨-, hnone⟩ | ⟨hne, -⟩
    · cases hnone
    · exact hne rfl
  · rw [if_neg he]
    exact slot?_setSlot_of_ne none fun h => he (PinId.ext h)

theorem pin?_retirePins (ends : List (PinId × PinId)) (olds : List Pin) (g : Graph) (q : PinId) :
    (Edit.retirePins ends olds g).pin? q = if q ∈ olds.map (·.id) then none else g.pin? q := by
  induction olds generalizing g with
  | nil => rfl
  | cons old olds ih =>
    refine (ih _).trans ?_
    have hlinks : (if ends.any (·.1 == old.id) then g
        else g.dropLinks (·.touches old.id)).pin? q = g.pin? q := by split <;> rfl
    rw [pin?_setPin_none, hlinks, List.map_cons]
    by_cases hq : q = old.id <;> simp [hq]

def movedDefault (moves : List (Pin × PinId)) (q : PinId) (d : Option Json) : Option Json :=
  moves.foldl (fun d move => if move.2 = q then move.1.default else d) d

theorem pin?_moveDefaults (moves : List (Pin × PinId)) (g : Graph) (q : PinId) :
    (Edit.moveDefaults moves g).pin? q = (g.pin? q).map fun p =>
      { p with default := movedDefault moves q p.default } := by
  induction moves generalizing g with
  | nil => exact Option.map_id'.symm
  | cons move moves ih =>
    refine (ih _).trans ?_
    have hfirst : ∀ d, movedDefault (move :: moves) q d =
        movedDefault moves q (if move.2 = q then move.1.default else d) := fun _ => rfl
    simp only [hfirst]
    unfold Edit.moveDefault
    by_cases hq : move.2 = q
    · subst hq
      cases hp : g.pin? move.2 with
      | none => simp [hp]
      | some p =>
        have hb := slot?_bound hp
        have hset : (g.setPin move.2 (some { p with default := move.1.default })).pin? move.2 =
            some { p with default := move.1.default } := slot?_setSlot_self _ hb.1 hb.2
        simp [hset]
    · cases hp : g.pin? move.2 with
      | none => simp [hq]
      | some p =>
        have hset : (g.setPin move.2 (some { p with default := move.1.default })).pin? q = g.pin? q :=
          slot?_setSlot_of_ne _ fun he => hq (PinId.ext he.symm)
        simp [hset, hq]

theorem movedDefault_eq (olds news : List Pin) (q : PinId) (d : Option Json) :
    movedDefault (olds.filterMap fun old => (Edit.successor? news old).map (old, ·)) q d =
      ((predecessor? olds news q).map (·.default)).getD d := by
  unfold movedDefault
  induction olds using List.reverseRecOn with
  | nil => rfl
  | append_singleton olds old ih =>
    rw [List.filterMap_append, List.foldl_append, ih, predecessor?, predecessor?, List.filter_append,
      List.getLast?_append]
    cases hnew : Edit.successor? news old with
    | none => simp [hnew]
    | some new =>
      by_cases hq : new = q <;> simp [hnew, hq]

section Replace

variable {g : Graph} {id : NodeId} {n : Node} {olds : List Pin} {specs : List PinSpec}

theorem pin?_replacePins (id : NodeId) (n : Node) (olds : List Pin) (specs : List PinSpec) (g : Graph)
    (q : PinId) : (Edit.replacePins id n olds specs g).pin? q =
      if q ∈ olds.map (·.id) then none else ((g.pushPins id specs).2.pin? q).map fun p =>
        let inherited := (predecessor? olds (g.fresh id specs) q).map (·.default)
        { p with default := inherited.getD p.default } := by
  have hpins : (Edit.replacePins id n olds specs g).pin? q = (Edit.retirePins
      (moves olds (g.fresh id specs)) olds (g.moved id olds specs)).pin? q :=
    congrArg (slot? · q.val) (replacePins_retires id n olds specs g).2
  rw [hpins, pin?_retirePins]
  refine if_congr Iff.rfl rfl ?_
  refine (pin?_moveDefaults _ _ q).trans ?_
  simp only [movedDefault_eq]

theorem predecessor?_eq_some {news : List Pin} {q : PinId} {old : Pin}
    (h : predecessor? olds news q = some old) :
    old ∈ olds ∧ Edit.successor? news old = some q := by
  have hmem := List.mem_filter.mp (List.mem_of_getLast? h)
  exact ⟨hmem.1, beq_iff_eq.mp hmem.2⟩

theorem pin?_replacePins_of_le {q : PinId} (hle : q.val ≤ g.pins.size) :
    (Edit.replacePins id n olds specs g).pin? q =
      if q ∈ olds.map (·.id) then none else g.pin? q := by
  rw [pin?_replacePins, pin?_pushPins_of_le hle]
  have hnone : predecessor? olds (g.fresh id specs) q = none := by
    refine Option.eq_none_iff_forall_ne_some.mpr fun old hold => ?_
    have hlt := lt_successor? (predecessor?_eq_some hold).2
    omega
  rw [hnone]
  simp

theorem pin?_replacePins_fresh (hle : ∀ old ∈ olds, old.id.val ≤ g.pins.size) (i : Nat) :
    (Edit.replacePins id n olds specs g).pin? ⟨g.pins.size + 1 + i⟩ =
      ((g.fresh id specs).map (inherit olds (g.fresh id specs)))[i]? := by
  have hout : (⟨g.pins.size + 1 + i⟩ : PinId) ∉ olds.map (·.id) := by
    intro hmem
    obtain ⟨old, hold, he⟩ := List.mem_map.mp hmem
    have hb := hle old hold
    rw [he] at hb
    dsimp only at hb
    omega
  rw [pin?_replacePins, if_neg hout, pin?_pushPins_of_lt, List.getElem?_map]
  cases hp : (g.fresh id specs)[i]? with
  | none => rfl
  | some p =>
    obtain ⟨s, hs, rfl⟩ : ∃ s, specs[i]? = some s ∧ { id := ⟨g.pins.size + 1 + i⟩, node := id
                                                      direction := s.direction, name := s.name
                                                      type := s.type : Pin } = p := by
      simpa [fresh, List.getElem?_zipIdx, Option.map_eq_some_iff] using hp
    rw [Option.map_some, Option.map_some, inherit]
    cases predecessor? olds (g.fresh id specs) ⟨g.pins.size + 1 + i⟩ <;> rfl

def heading (g : Graph) : String × GraphSignature := (g.name, g.signature)

theorem heading_moveDefaults (moves : List (Pin × PinId)) (g : Graph) :
    (Edit.moveDefaults moves g).heading = g.heading := by
  induction moves generalizing g with
  | nil => rfl
  | cons move moves ih =>
    refine (ih _).trans ?_
    unfold Edit.moveDefault
    cases g.pin? move.2 <;> rfl

theorem heading_retirePins (ends : List (PinId × PinId)) (olds : List Pin) (g : Graph) :
    (Edit.retirePins ends olds g).heading = g.heading := by
  induction olds generalizing g with
  | nil => rfl
  | cons old olds ih =>
    refine (ih _).trans ?_
    dsimp only
    split <;> rfl

theorem heading_replacePins (id : NodeId) (n : Node) (olds : List Pin) (specs : List PinSpec)
    (g : Graph) : (Edit.replacePins id n olds specs g).heading = g.heading := by
  have hrest : ∀ moves ends links g', (Edit.retirePins ends olds
      { Edit.moveDefaults moves g' with links }).heading = g'.heading := fun moves _ _ g' =>
    (heading_retirePins _ _ _).trans (heading_moveDefaults moves g')
  unfold Edit.replacePins
  dsimp only
  split
  · exact hrest _ _ _ (g.pushPins id specs).2
  · exact hrest _ _ _ (g.pushPins id specs).2

theorem size_replacePins (id : NodeId) (n : Node) (olds : List Pin) (specs : List PinSpec)
    (g : Graph) : (Edit.replacePins id n olds specs g).pins.size = g.pins.size + specs.length := by
  obtain ⟨g', hpins, heq⟩ := replacePins_eq id n olds specs g
  have hsize : g'.pins.size = g.pins.size + specs.length := hpins.size.trans (size_pushPins _ _ _)
  rw [heq]
  split
  · exact hsize
  · exact hsize

theorem nodePins_replacePins (hnode : g.node? id = some n)
    (hle : ∀ old ∈ olds, old.id.val ≤ g.pins.size)
    (hn : (Edit.replacePins id n olds specs g).Numbered) :
    (Edit.replacePins id n olds specs g).nodePins id =
      (g.fresh id specs).map (inherit olds (g.fresh id specs)) := by
  rw [nodePins, node?_replacePins hnode, if_pos rfl]
  have hrange : (Edit.replacePins id n olds specs g).pinRange
      { n with firstPin := ⟨g.pins.size + 1⟩, pinCount := specs.length } =
        (List.range' (g.pins.size + 1) specs.length).map PinId.mk := by
    have hsize := size_replacePins id n olds specs g
    rw [pinRange, pinStop_eq hn (by dsimp only; omega)]
    dsimp only
    congr 2
    omega
  dsimp only
  rw [pinsOf, hrange, List.filterMap_map]
  exact filterMap_range' (by simp) (pin?_replacePins_fresh hle)

theorem pin?_replacePins_of_node_ne (hn : g.Numbered) (hc : g.Consistent) (hg : g.Wired)
    (hnode : g.node? id = some n) {q : PinId} {p : Pin} (hp : g.pin? q = some p) (hne : p.node ≠ id) :
    (Edit.replacePins id n (g.pinsOf n) specs g).pin? q = some p := by
  rw [pin?_replacePins_of_le (slot?_bound hp).2, if_neg, hp]
  intro hmem
  obtain ⟨old, hold, rfl⟩ := List.mem_map.mp hmem
  have hlive := ((mem_pinsOf_iff hn hc (hc.range id n hnode).2).mp hold).1
  rw [hp] at hlive
  rw [Option.some.inj hlive] at hne
  exact hne (node_of_mem_pinsOf hn hc hg hnode hold)

theorem pin?_replacePins_of_inRange (hn : g.Numbered) (hc : g.Consistent) (hg : g.Wired)
    (hnode : g.node? id = some n) {other : NodeId} {m : Node} (hm : g.node? other = some m)
    (hne : other ≠ id) {q : PinId} (hq : InRange m q) :
    (Edit.replacePins id n (g.pinsOf n) specs g).pin? q = g.pin? q := by
  have hrange := hc.range other m hm
  have hle : q.val ≤ g.pins.size := by
    unfold InRange at hq
    omega
  rw [pin?_replacePins_of_le hle, if_neg]
  intro hmem
  obtain ⟨old, hold, rfl⟩ := List.mem_map.mp hmem
  have hold := ((mem_pinsOf_iff hn hc (hc.range id n hnode).2).mp hold).2
  exact hg.apart other id m n hm hnode hne old.id hq hold

theorem nodePins_replacePins_of_ne (hn : (Edit.replacePins id n (g.pinsOf n) specs g).Numbered)
    (hc : g.Consistent) (hg : g.Wired) (hnode : g.node? id = some n) {other : NodeId}
    (hne : other ≠ id) :
    (Edit.replacePins id n (g.pinsOf n) specs g).nodePins other = g.nodePins other := by
  have hold : g.Numbered := (Change.replacePins hnode specs).follows.numbered hn
  rw [nodePins, nodePins, node?_replacePins hnode, if_neg hne]
  cases hm : g.node? other with
  | none => rfl
  | some m =>
    have hrange := (hc.range other m hm).2
    have hsize := size_replacePins id n (g.pinsOf n) specs g
    have hsame : (Edit.replacePins id n (g.pinsOf n) specs g).pinRange m = g.pinRange m := by
      rw [pinRange, pinRange, pinStop_eq hold hrange, Nat.min_eq_left hrange,
        Nat.min_eq_left (by omega)]
    refine (congrArg (List.filterMap _) hsame).trans (List.filterMap_congr fun q hq => ?_)
    exact pin?_replacePins_of_inRange hold hc hg hnode hm hne ((mem_pinRange_iff hold hrange).mp hq)

end Replace

end Graph

end Flowscript
