import Mathlib.Data.List.Nodup
import Flowscript.Proofs.CollectionLemmas
import Flowscript.Proofs.Graph.EditedGraphs

/-! # Renewed pins

What replacing a node's pins does to the rest of its graph. Every old pin is gone, every new one
lies after the pins that were there, and every link end that named an old pin names its successor
instead; a link that had an end at an old pin without a successor is gone.
-/
namespace Flowscript

/-- What wiring asks of a pin: its node, its direction and whether it carries flow. -/
def Pin.role (p : Pin) : NodeId × Direction × Bool := (p.node, p.direction, p.isFlow)

namespace Graph

def role? (g : Graph) (id : PinId) : Option (NodeId × Direction × Bool) := (g.pin? id).map Pin.role

def fresh (g : Graph) (node : NodeId) (specs : List PinSpec) : List Pin :=
  specs.zipIdx.map fun (s, i) =>
    { id := ⟨g.pins.size + 1 + i⟩, node, direction := s.direction, name := s.name, type := s.type }

section Fresh

variable {g : Graph} {node : NodeId} {specs : List PinSpec}

theorem pins_pushPins :
    (g.pushPins node specs).2.pins = g.pins ++ ((g.fresh node specs).map some).toArray := by
  simp [pushPins, fresh, Function.comp_def]

@[simp] theorem length_fresh : (g.fresh node specs).length = specs.length := by simp [fresh]

theorem pin?_pushPins_of_le {id : PinId} (h : id.val ≤ g.pins.size) :
    (g.pushPins node specs).2.pin? id = g.pin? id := slot?_append_of_le _ h

theorem pin?_pushPins_of_lt (i : Nat) :
    (g.pushPins node specs).2.pin? ⟨g.pins.size + 1 + i⟩ = (g.fresh node specs)[i]? := by
  rw [pin?, pins_pushPins, slot?_append_of_lt _ (by dsimp only; omega)]
  have hi : g.pins.size + 1 + i - g.pins.size - 1 = i := by omega
  rw [hi, List.getElem?_toArray, List.getElem?_map]
  cases (g.fresh node specs)[i]? <;> rfl

theorem filterMap_pushPins :
    ((List.range' (g.pins.size + 1) specs.length).filterMap fun i =>
      (g.pushPins node specs).2.pin? ⟨i⟩) = g.fresh node specs :=
  filterMap_range' length_fresh.symm pin?_pushPins_of_lt

theorem exists_mem_fresh {s : PinSpec} (h : s ∈ specs) :
    ∃ p ∈ g.fresh node specs, p.direction = s.direction ∧ p.name = s.name ∧ p.type = s.type := by
  obtain ⟨i, hi⟩ := List.mem_iff_getElem?.mp h
  have hs : (s, i) ∈ specs.zipIdx := List.mk_mem_zipIdx_iff_getElem?.mpr hi
  exact ⟨_, List.mem_map.mpr ⟨_, hs, rfl⟩, rfl, rfl, rfl⟩

theorem exists_spec_of_mem_fresh {p : Pin} (h : p ∈ g.fresh node specs) :
    ∃ s ∈ specs, p.direction = s.direction ∧ p.name = s.name ∧ p.type = s.type := by
  obtain ⟨⟨s, i⟩, hs, rfl⟩ := List.mem_map.mp h
  exact ⟨s, List.mem_of_getElem? (List.mk_mem_zipIdx_iff_getElem?.mp hs), rfl, rfl, rfl⟩

theorem mem_fresh {p : Pin} (h : p ∈ g.fresh node specs) :
    p.node = node ∧ g.pins.size < p.id.val ∧ (g.pushPins node specs).2.pin? p.id = some p := by
  obtain ⟨i, hi⟩ := List.mem_iff_getElem?.mp h
  have hp : p.id = ⟨g.pins.size + 1 + i⟩ ∧ p.node = node := by
    simp only [fresh, List.getElem?_map, List.getElem?_zipIdx, Option.map_map,
      Option.map_eq_some_iff, Function.comp_apply] at hi
    obtain ⟨s, -, rfl⟩ := hi
    exact ⟨by dsimp only; rw [Nat.zero_add], rfl⟩
  refine ⟨hp.2, ?_, ?_⟩
  · rw [hp.1]
    dsimp only
    omega
  · rw [hp.1, pin?_pushPins_of_lt, hi]

end Fresh

theorem successor?_spec {news : List Pin} {old : Pin} {id : PinId}
    (h : Edit.successor? news old = some id) :
    ∃ p ∈ news, p.id = id ∧ p.direction = old.direction ∧ p.name = old.name ∧
      p.isFlow = old.isFlow := by
  obtain ⟨p, hp, hid⟩ := Option.map_eq_some_iff.mp h
  have hkey := List.find?_some hp
  simp only [Bool.and_eq_true, beq_iff_eq] at hkey
  exact ⟨p, List.mem_of_find?_eq_some hp, hid, hkey.1.1, hkey.1.2, hkey.2⟩

theorem successor?_eq_none_iff {news : List Pin} {old : Pin} :
    Edit.successor? news old = none ↔ ∀ p ∈ news,
      ¬ (p.direction = old.direction ∧ p.name = old.name ∧ p.isFlow = old.isFlow) := by
  simp only [Edit.successor?, Option.map_eq_none_iff, List.find?_eq_none, Bool.and_eq_true, beq_iff_eq,
    and_assoc]

/-- Where a link end goes when new pins take the place of old ones. -/
def renewed (olds news : List Pin) (id : PinId) : Option PinId :=
  match olds.find? (·.id == id) with
  | some old => Edit.successor? news old
  | none => some id

theorem renewed_of_ne {olds news : List Pin} {id : PinId} (h : ∀ old ∈ olds, old.id ≠ id) :
    renewed olds news id = some id := by
  have hfind : olds.find? (·.id == id) = none :=
    List.find?_eq_none.mpr fun old hold he => h old hold (beq_iff_eq.mp he)
  rw [renewed, hfind]

theorem renewed_of_mem {olds news : List Pin} (hids : (olds.map (·.id)).Nodup) {old : Pin}
    (hold : old ∈ olds) : renewed olds news old.id = Edit.successor? news old := by
  have hsome : (olds.find? (·.id == old.id)).isSome :=
    List.find?_isSome.mpr ⟨old, hold, BEq.rfl⟩
  obtain ⟨other, hother⟩ := Option.isSome_iff_exists.mp hsome
  have hid : other.id = old.id := by simpa using List.find?_some hother
  have hsame : other = old :=
    List.inj_on_of_nodup_map hids (List.mem_of_find?_eq_some hother) hold hid
  rw [renewed, hother, hsame]

theorem renewed_cases {olds news : List Pin} {q r : PinId} (h : renewed olds news q = some r) :
    q = r ∨ ∃ old ∈ olds, old.id = q ∧ Edit.successor? news old = some r := by
  unfold renewed at h
  cases hfind : olds.find? (·.id == q) with
  | none =>
    rw [hfind] at h
    exact .inl (Option.some.inj h)
  | some old =>
    rw [hfind] at h
    refine .inr ⟨old, List.mem_of_find?_eq_some hfind, ?_, h⟩
    simpa using List.find?_some hfind

/-- A link after new pins took the place of old ones. -/
def renewedLink (olds news : List Pin) (l : Link) : Option Link :=
  match renewed olds news l.input, renewed olds news l.output with
  | some input, some output => some { l with input, output }
  | _, _ => none

theorem renewedLink_eq_some_iff {olds news : List Pin} {l l' : Link} :
    renewedLink olds news l = some l' ↔ l'.id = l.id ∧
      renewed olds news l.input = some l'.input ∧ renewed olds news l.output = some l'.output := by
  unfold renewedLink
  obtain ⟨id, input, output⟩ := l'
  cases renewed olds news l.input with
  | none => simp
  | some newInput =>
    cases renewed olds news l.output with
    | none => simp
    | some newOutput => simp [eq_comm (a := id)]

def moves (olds news : List Pin) : List (PinId × PinId) :=
  olds.filterMap fun old => (Edit.successor? news old).map (old.id, ·)

section Moves

variable {ends : List (PinId × PinId)} {olds news : List Pin}

def moveEnd (ends : List (PinId × PinId)) (id : PinId) : PinId :=
  ends.foldl (fun id move => if id = move.1 then move.2 else id) id

theorem moveEnds_eq (ends : List (PinId × PinId)) (l : Link) :
    Edit.moveEnds ends l = { l with input := moveEnd ends l.input, output := moveEnd ends l.output } := by
  induction ends generalizing l with
  | nil => rfl
  | cons move ends ih =>
    refine (ih _).trans ?_
    by_cases hi : l.input = move.1 <;> by_cases ho : l.output = move.1 <;>
      simp [moveEnd, hi, ho]

theorem moveEnd_of_ne {id : PinId} (h : ∀ move ∈ ends, id ≠ move.1) : moveEnd ends id = id := by
  induction ends with
  | nil => rfl
  | cons move ends ih =>
    rw [List.forall_mem_cons] at h
    exact (congrArg (moveEnd ends) (if_neg h.1)).trans (ih h.2)

theorem moveEnd_eq (hfresh : ∀ move ∈ ends, ∀ other ∈ ends, move.2 ≠ other.1) (id : PinId) :
    moveEnd ends id = (ends.lookup id).getD id := by
  induction ends with
  | nil => rfl
  | cons move ends ih =>
    have hrest : ∀ m ∈ ends, ∀ other ∈ ends, m.2 ≠ other.1 := fun m hm other ho =>
      hfresh m (List.mem_cons_of_mem _ hm) other (List.mem_cons_of_mem _ ho)
    by_cases hid : id = move.1
    · have hstay : moveEnd ends move.2 = move.2 := moveEnd_of_ne fun other ho =>
        hfresh move List.mem_cons_self other (List.mem_cons_of_mem _ ho)
      have hlookup : (move :: ends).lookup id = some move.2 := by
        rw [List.lookup_cons, hid, BEq.rfl]
      rw [hlookup]
      exact (congrArg (moveEnd ends) (if_pos hid)).trans hstay
    · have hlookup : (move :: ends).lookup id = ends.lookup id := by
        rw [List.lookup_cons, beq_false_of_ne hid]
      rw [hlookup, ← ih hrest]
      exact congrArg (moveEnd ends) (if_neg hid)

theorem mem_moves {move : PinId × PinId} (h : move ∈ moves olds news) :
    ∃ old ∈ olds, old.id = move.1 ∧ Edit.successor? news old = some move.2 := by
  obtain ⟨old, hold, hmove⟩ := List.mem_filterMap.mp h
  obtain ⟨new, hnew, rfl⟩ := Option.map_eq_some_iff.mp hmove
  exact ⟨old, hold, rfl, hnew⟩

theorem lookup_moves (hids : (olds.map (·.id)).Nodup) (id : PinId) :
    (moves olds news).lookup id = (olds.find? (·.id == id)).bind (Edit.successor? news) := by
  induction olds with
  | nil => rfl
  | cons old olds ih =>
    rw [List.map_cons, List.nodup_cons] at hids
    have hrest := ih hids.2
    by_cases hid : old.id = id
    · -- The numbers differ, so the rest has no move for this one.
      have hnone : (moves olds news).lookup id = none := by
        rw [hrest, List.find?_eq_none.mpr]
        · rfl
        · intro other ho he
          rw [beq_iff_eq] at he
          exact hids.1 (List.mem_map.mpr ⟨other, ho, he.trans hid.symm⟩)
      rw [List.find?_cons_of_pos (by simpa using hid)]
      cases hnew : Edit.successor? news old with
      | none => simpa [moves, hnew] using hnone
      | some new => simp [moves, hnew, hid]
    · rw [List.find?_cons_of_neg (by simpa using hid), ← hrest]
      cases hnew : Edit.successor? news old with
      | none => simp [moves, hnew]
      | some new =>
        have hne : (id == old.id) = false := beq_false_of_ne fun he => hid he.symm
        simp [moves, hnew, List.lookup_cons, hne]

end Moves

theorem link?_dropLinks {g : Graph} {condition : Link → Bool} {k : LinkId} {l : Link} :
    (g.dropLinks condition).link? k = some l ↔ g.link? k = some l ∧ condition l = false := by
  have hmap : (g.dropLinks condition).link? k = (g.link? k).filter fun l => !condition l :=
    slot?_map rfl
  rw [hmap, Option.filter_eq_some_iff, Bool.not_eq_true']

theorem link?_retirePins {ends : List (PinId × PinId)} {olds : List Pin} {g : Graph} {k : LinkId}
    {l : Link} : (Edit.retirePins ends olds g).link? k = some l ↔ g.link? k = some l ∧
      ∀ old ∈ olds, ends.any (·.1 == old.id) = false → l.touches old.id = false := by
  induction olds generalizing g with
  | nil => simp [Edit.retirePins]
  | cons old olds ih =>
    refine ih.trans ?_
    rw [List.forall_mem_cons, ← and_assoc]
    refine and_congr_left' ?_
    cases hmoved : ends.any (·.1 == old.id) with
    | true => simp only [hmoved, if_true, Bool.true_eq_false, false_implies, and_true]; rfl
    | false =>
      simp only [hmoved, Bool.false_eq_true, if_false, true_implies]
      exact link?_dropLinks

theorem links_moveDefaults (moves : List (Pin × PinId)) (g : Graph) :
    (Edit.moveDefaults moves g).links = g.links := by
  induction moves generalizing g with
  | nil => rfl
  | cons move moves ih =>
    refine (ih _).trans ?_
    unfold Edit.moveDefault
    cases g.pin? move.2 <;> rfl

theorem role?_setPin_of_ne {g : Graph} {id other : PinId} (p : Option Pin) (h : other ≠ id) :
    (g.setPin id p).role? other = g.role? other :=
  congrArg (Option.map Pin.role) (slot?_setSlot_of_ne p fun he => h (PinId.ext he))

theorem role?_setPin {g : Graph} {id : PinId} {p q : Pin} (hp : g.pin? id = some p)
    (hrole : q.role = p.role) (other : PinId) :
    (g.setPin id (some q)).role? other = g.role? other := by
  by_cases he : other = id
  · have hb := slot?_bound hp
    have hq : (g.setPin id (some q)).pin? id = some q := slot?_setSlot_self _ hb.1 hb.2
    rw [he, role?, role?, hq, hp, Option.map_some, Option.map_some, hrole]
  · exact role?_setPin_of_ne _ he

theorem role?_removeAll {g : Graph} {ids : List PinId} {id : PinId} (h : id ∉ ids) :
    (ids.foldl (fun g id => g.setPin id none) g).role? id = g.role? id := by
  induction ids generalizing g with
  | nil => rfl
  | cons other ids ih =>
    rw [List.mem_cons, not_or] at h
    exact (ih h.2).trans (role?_setPin_of_ne none h.1)

theorem role?_moveDefaults (moves : List (Pin × PinId)) (g : Graph) (id : PinId) :
    (Edit.moveDefaults moves g).role? id = g.role? id := by
  induction moves generalizing g with
  | nil => rfl
  | cons move moves ih =>
    refine (ih _).trans ?_
    unfold Edit.moveDefault
    cases hp : g.pin? move.2 with
    | none => rfl
    | some p => exact role?_setPin (q := { p with default := move.1.default }) hp rfl id

theorem role?_retirePins {ends : List (PinId × PinId)} {olds : List Pin} {g : Graph} {id : PinId}
    (h : ∀ old ∈ olds, id ≠ old.id) : (Edit.retirePins ends olds g).role? id = g.role? id := by
  induction olds generalizing g with
  | nil => rfl
  | cons old olds ih =>
    rw [List.forall_mem_cons] at h
    refine (ih h.2).trans ((role?_setPin_of_ne none h.1).trans ?_)
    split <;> rfl

section Replace

variable {g : Graph} {id : NodeId} {n : Node} {olds : List Pin} {specs : List PinSpec}

/-- The graph with new pins and the link ends moved to them, before the old pins are retired. -/
def moved (g : Graph) (id : NodeId) (olds : List Pin) (specs : List PinSpec) : Graph :=
  let defaults := olds.filterMap fun old => (Edit.successor? (g.fresh id specs) old).map (old, ·)
  { Edit.moveDefaults defaults (g.pushPins id specs).2 with
    links := g.links.map (Option.map (Edit.moveEnds (moves olds (g.fresh id specs)))) }

theorem replacePins_retires (id : NodeId) (n : Node) (olds : List Pin) (specs : List PinSpec)
    (g : Graph) :
    let retired := Edit.retirePins (moves olds (g.fresh id specs)) olds (g.moved id olds specs)
    (Edit.replacePins id n olds specs g).links = retired.links ∧
      (Edit.replacePins id n olds specs g).pins = retired.pins := by
  have hends : ∀ f : Pin × PinId → PinId × PinId, (∀ old new, f (old, new) = (old.id, new)) →
      (olds.filterMap fun old => (Edit.successor? (g.fresh id specs) old).map (old, ·)).map f =
        moves olds (g.fresh id specs) := by
    intro f hf
    rw [moves, List.map_filterMap]
    simp only [Option.map_map, Function.comp_def, hf]
  unfold Edit.replacePins
  dsimp only
  rw [show (g.pushPins id specs).1.val = g.pins.size + 1 from rfl, filterMap_pushPins,
    hends _ fun _ _ => rfl, links_moveDefaults]
  split
  · exact ⟨rfl, rfl⟩
  · exact ⟨rfl, rfl⟩

theorem lt_successor? {old : Pin} {q : PinId}
    (h : Edit.successor? (g.fresh id specs) old = some q) : g.pins.size < q.val := by
  obtain ⟨p, hp, hpid, -⟩ := successor?_spec h
  rw [← hpid]
  exact (mem_fresh hp).2.1

theorem moveEnd_moves (hids : (olds.map (·.id)).Nodup)
    (hle : ∀ old ∈ olds, old.id.val ≤ g.pins.size) (q : PinId) : moveEnd (moves olds (g.fresh id specs)) q =
      ((olds.find? (·.id == q)).bind (Edit.successor? (g.fresh id specs))).getD q := by
  rw [moveEnd_eq, lookup_moves hids]
  -- Moves lead to new pins, which lie after all old ones: no end is moved twice.
  intro move hm other ho he
  obtain ⟨_, -, -, hnew⟩ := mem_moves hm
  obtain ⟨old, hold, hid, -⟩ := mem_moves ho
  have hlt := lt_successor? hnew
  have hb := hle old hold
  rw [he, ← hid] at hlt
  omega

theorem any_moves_eq_false_iff {news : List Pin} (hids : (olds.map (·.id)).Nodup) {old : Pin}
    (hold : old ∈ olds) :
    (moves olds news).any (·.1 == old.id) = false ↔ Edit.successor? news old = none := by
  rw [List.any_eq_false]
  constructor
  · intro h
    cases hnew : Edit.successor? news old with
    | none => rfl
    | some new =>
      have hmove : (old.id, new) ∈ moves olds news :=
        List.mem_filterMap.mpr ⟨old, hold, congrArg (Option.map (old.id, ·)) hnew⟩
      exact absurd BEq.rfl (h _ hmove)
  · intro h move hm he
    obtain ⟨other, hother, hid, hnew⟩ := mem_moves hm
    have hsame : other = old :=
      List.inj_on_of_nodup_map hids hother hold (hid.trans (beq_iff_eq.mp he))
    rw [hsame, h] at hnew
    cases hnew

theorem renewed_eq_some_iff (hids : (olds.map (·.id)).Nodup)
    (hle : ∀ old ∈ olds, old.id.val ≤ g.pins.size) {q q' : PinId} :
    renewed olds (g.fresh id specs) q = some q' ↔
      moveEnd (moves olds (g.fresh id specs)) q = q' ∧ ∀ old ∈ olds,
        Edit.successor? (g.fresh id specs) old = none → q' ≠ old.id := by
  rw [moveEnd_moves hids hle, renewed]
  cases hfind : olds.find? (·.id == q) with
  | none =>
    refine ⟨fun h => ⟨Option.some.inj h, fun old hold _ he => ?_⟩, fun h => congrArg some h.1⟩
    have hne := List.find?_eq_none.mp hfind old hold
    rw [Option.some.inj h, he] at hne
    exact hne BEq.rfl
  | some old =>
    have hold := List.mem_of_find?_eq_some hfind
    have hid : old.id = q := by simpa using List.find?_some hfind
    dsimp only [Option.bind_some]
    cases hnew : Edit.successor? (g.fresh id specs) old with
    | none =>
      refine ⟨nofun, fun h => ?_⟩
      exact absurd (h.1.symm.trans hid.symm) (h.2 old hold hnew)
    | some new =>
      refine ⟨fun h => ⟨Option.some.inj h, fun other hother _ he => ?_⟩, fun h => congrArg some h.1⟩
      have hlt := lt_successor? hnew
      have hb := hle other hother
      rw [Option.some.inj h, he] at hlt
      omega

theorem link?_replacePins (hids : (olds.map (·.id)).Nodup)
    (hle : ∀ old ∈ olds, old.id.val ≤ g.pins.size) {k : LinkId} {l' : Link} :
    (Edit.replacePins id n olds specs g).link? k = some l' ↔
      ∃ l, g.link? k = some l ∧ renewedLink olds (g.fresh id specs) l = some l' := by
  have hlinks : (Edit.replacePins id n olds specs g).link? k = (Edit.retirePins
      (moves olds (g.fresh id specs)) olds (g.moved id olds specs)).link? k :=
    congrArg (slot? · k.val) (replacePins_retires id n olds specs g).1
  have hmoved : (g.moved id olds specs).link? k =
      (g.link? k).map (Edit.moveEnds (moves olds (g.fresh id specs))) := slot?_map rfl
  rw [hlinks, link?_retirePins, hmoved, Option.map_eq_some_iff, ← exists_and_right]
  refine exists_congr fun l => ?_
  rw [and_assoc, and_congr_right_iff]
  intro _
  rw [moveEnds_eq, renewedLink_eq_some_iff, renewed_eq_some_iff hids hle,
    renewed_eq_some_iff hids hle]
  have hretired : (∀ old ∈ olds, (moves olds (g.fresh id specs)).any (·.1 == old.id) = false →
      l'.touches old.id = false) ↔
      (∀ old ∈ olds, Edit.successor? (g.fresh id specs) old = none → l'.input ≠ old.id) ∧
      ∀ old ∈ olds, Edit.successor? (g.fresh id specs) old = none → l'.output ≠ old.id := by
    simp only [Link.touches, Bool.or_eq_false_iff, beq_eq_false_iff_ne, ← forall_and]
    exact forall₂_congr fun old hold => by rw [any_moves_eq_false_iff hids hold]
  rw [hretired]
  obtain ⟨_, input, output⟩ := l'
  rw [Link.mk.injEq]
  tauto

theorem role?_replacePins_eq {q : PinId} (hout : ∀ old ∈ olds, q ≠ old.id) :
    (Edit.replacePins id n olds specs g).role? q = (g.pushPins id specs).2.role? q := by
  have hpins : (Edit.replacePins id n olds specs g).role? q = (Edit.retirePins
      (moves olds (g.fresh id specs)) olds (g.moved id olds specs)).role? q :=
    congrArg (fun pins => (slot? pins q.val).map Pin.role) (replacePins_retires id n olds specs g).2
  rw [hpins, role?_retirePins hout]
  exact role?_moveDefaults _ _ q

theorem role?_replacePins_of_le {q : PinId} (hle : q.val ≤ g.pins.size)
    (hout : ∀ old ∈ olds, q ≠ old.id) :
    (Edit.replacePins id n olds specs g).role? q = g.role? q := by
  rw [role?_replacePins_eq hout, role?, pin?_pushPins_of_le hle, role?]

theorem role?_successor {old : Pin} {q : PinId} (hle : ∀ old ∈ olds, old.id.val ≤ g.pins.size)
    (h : Edit.successor? (g.fresh id specs) old = some q) :
    (Edit.replacePins id n olds specs g).role? q = some (id, old.direction, old.isFlow) := by
  have hlt := lt_successor? h
  obtain ⟨p, hp, hpid, hdirection, -, hflow⟩ := successor?_spec h
  obtain ⟨hnode, -, hpush⟩ := mem_fresh hp
  have hout : ∀ old ∈ olds, q ≠ old.id := by
    intro old hold he
    have hb := hle old hold
    rw [he] at hlt
    omega
  rw [role?_replacePins_eq hout, role?, ← hpid, hpush, Option.map_some, Pin.role, hnode, hdirection,
    hflow]

theorem node?_replacePins (hn : g.node? id = some n) (m : NodeId) :
    (Edit.replacePins id n olds specs g).node? m = if m = id then
      some { n with firstPin := ⟨g.pins.size + 1⟩, pinCount := specs.length } else g.node? m := by
  obtain ⟨g', hpins, heq⟩ := replacePins_eq id n olds specs g
  have hnodes : ∀ other, g'.node? other = g.node? other := fun other =>
    congrArg (slot? · other.val) hpins.nodes
  have hb := slot?_bound ((hnodes id).trans hn)
  rw [heq, hnodes, hn]
  by_cases hm : m = id
  · rw [if_pos hm, hm]
    exact slot?_setSlot_self _ hb.1 hb.2
  · rw [if_neg hm, ← hnodes]
    exact slot?_setSlot_of_ne _ fun he => hm (NodeId.ext he)

end Replace

theorem le_of_mem_pinsOf {g : Graph} (h : g.Consistent) {n : Node} {p : Pin} (hp : p ∈ g.pinsOf n) :
    p.id.val ≤ g.pins.size := by
  obtain ⟨id, -, hid⟩ := List.mem_filterMap.mp hp
  rw [h.pin_id id p hid]
  exact (slot?_bound hid).2

theorem nodup_pinsOf {g : Graph} (h : ∀ id p, g.pin? id = some p → p.id = id) (n : Node) :
    ((g.pinsOf n).map (·.id)).Nodup := by
  have hrange : (g.pinRange n).Nodup := by
    refine List.Nodup.map (fun i j hij => ?_) List.nodup_range'
    exact congrArg PinId.val hij
  rw [pinsOf, List.map_filterMap]
  refine hrange.filterMap fun a a' b hb hb' => ?_
  simp only [Option.mem_def, Option.map_eq_some_iff] at hb hb'
  obtain ⟨p, hp, rfl⟩ := hb
  obtain ⟨q, hq, hid⟩ := hb'
  rw [← h a p hp, ← h a' q hq, hid]

end Graph

end Flowscript
