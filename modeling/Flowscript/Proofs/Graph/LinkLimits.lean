import Mathlib.Data.List.Induction
import Flowscript.Proofs.Graph.LinkWiring

/-! # Fans

A flow output and a data input take at most one link. Adding links respects that, and so do all
edits that renew no pins. Renewing a node's pins does not: two old pins of one direction, name and
kind have the same successor, and the links of both end there. So the limits hold up to the first
such merge, and break with it.
-/
namespace Flowscript

def Link.endAt (l : Link) : Direction → PinId
  | .input => l.input
  | .output => l.output

def Link.withEnd (l : Link) : Direction → PinId → Link
  | .input, id => { l with input := id }
  | .output, id => { l with output := id }

@[simp] theorem Link.endAt_withEnd (l : Link) (direction : Direction) (id : PinId) :
    (l.withEnd direction id).endAt direction = id := by
  cases direction <;> rfl

/-- Whether a pin takes one link at most: a flow output or a data input. -/
def Pin.takesOne (p : Pin) : Bool := p.isFlow == p.isOutput

namespace Graph

/-- A flow output and a data input have at most one link. -/
def Fanned (g : Graph) : Prop :=
  ∀ p ∈ g.livePins, p.takesOne = true → (g.linksOf p.id).length ≤ 1

/-- Links at the same pin, of one that takes one link at most, are in the same slot. -/
def Sparse (g : Graph) : Prop :=
  ∀ q node direction flow, g.role? q = some (node, direction, flow) →
    flow = (direction == .output) → ∀ k k' l l', g.link? k = some l → g.link? k' = some l' →
      l.endAt direction = q → l'.endAt direction = q → k = k'

theorem Directed.touches_iff {g : Graph} {l : Link} (h : g.Directed l) {q : PinId} {node : NodeId}
    {direction : Direction} {flow : Bool} (hq : g.role? q = some (node, direction, flow)) :
    l.touches q = true ↔ l.endAt direction = q := by
  obtain ⟨source, target, hs, ht, hout, hin⟩ := h
  obtain ⟨p, hp, hrole⟩ := Option.map_eq_some_iff.mp hq
  simp only [Pin.role, Prod.mk.injEq] at hrole
  simp only [Link.touches, Bool.or_eq_true, beq_iff_eq]
  cases direction with
  | input =>
    refine ⟨fun htouch => htouch.resolve_right fun he => ?_, .inl⟩
    rw [he, hp] at hs
    rw [← Option.some.inj hs, hrole.2.1] at hout
    cases hout
  | output =>
    refine ⟨fun htouch => htouch.resolve_left fun he => ?_, .inr⟩
    rw [he, hp] at ht
    rw [← Option.some.inj ht, hrole.2.1] at hin
    cases hin

theorem Joined.bound_endAt {g : Graph} {l : Link} (h : g.Joined l) (direction : Direction) :
    (l.endAt direction).val ≤ g.pins.size := by
  cases direction with
  | input => exact h.bound.2
  | output => exact h.bound.1

theorem nodup_liveLinks {g : Graph} (hid : ∀ k l, g.link? k = some l → l.id = k) :
    g.liveLinks.Nodup := by
  rw [liveLinks, live, List.Nodup, List.pairwise_filterMap, List.pairwise_iff_getElem]
  rintro i j hi hj hlt l hl l' hl' rfl
  have hat : ∀ i (hi : i < g.links.toList.length), id g.links.toList[i] = some l →
      l.id = ⟨i + 1⟩ := by
    intro i hi hl
    refine hid _ _ (slot?_succ.mpr ?_)
    rw [← Array.getElem?_toList, List.getElem?_eq_getElem hi]
    exact congrArg some hl
  have hsame := congrArg LinkId.val ((hat i hi hl).symm.trans (hat j hj hl'))
  dsimp only at hsame
  omega

theorem mem_liveLinks_iff {g : Graph} {l : Link} : l ∈ g.liveLinks ↔ ∃ k, g.link? k = some l :=
  mem_live_iff.trans ⟨fun ⟨k, h⟩ => ⟨⟨k⟩, h⟩, fun ⟨k, h⟩ => ⟨k.val, h⟩⟩

theorem length_linksOf_le_one_iff {g : Graph} (hid : ∀ k l, g.link? k = some l → l.id = k)
    (q : PinId) : (g.linksOf q).length ≤ 1 ↔ ∀ l ∈ g.linksOf q, ∀ l' ∈ g.linksOf q, l = l' := by
  have hnodup : (g.linksOf q).Nodup := (nodup_liveLinks hid).filter _
  match g.linksOf q, hnodup with
  | [], _ => simp
  | [l], _ => simp
  | l :: l' :: ls, hnodup =>
    refine ⟨fun h => absurd h (by simp), fun h => ?_⟩
    have hsame := h l List.mem_cons_self l' (List.mem_cons_of_mem _ List.mem_cons_self)
    rw [List.nodup_cons, hsame] at hnodup
    exact absurd List.mem_cons_self hnodup.1

theorem fanned_iff_sparse {g : Graph} (hpin : ∀ id p, g.pin? id = some p → p.id = id)
    (hid : ∀ k l, g.link? k = some l → l.id = k)
    (hlinks : ∀ k l, g.link? k = some l → g.Directed l) : g.Fanned ↔ g.Sparse := by
  have hmem : ∀ q l, l ∈ g.linksOf q ↔ ∃ k, g.link? k = some l ∧ l.touches q = true := by
    intro q l
    rw [linksOf, List.mem_filter, mem_liveLinks_iff, ← exists_and_right]
  constructor
  · intro h q node direction flow hq htakes k k' l l' hl hl' he he'
    obtain ⟨p, hp, hrole⟩ := Option.map_eq_some_iff.mp hq
    have htakes : p.takesOne = true := by
      simp only [Pin.role, Prod.mk.injEq] at hrole
      rw [Pin.takesOne, Pin.isOutput, hrole.2.1, hrole.2.2, htakes, BEq.rfl]
    have hone := (length_linksOf_le_one_iff hid p.id).mp (h p (mem_live_iff.mpr ⟨_, hp⟩) htakes)
    rw [hpin q p hp] at hone
    have hsame := hone l ((hmem q l).mpr ⟨k, hl, ((hlinks k l hl).touches_iff hq).mpr he⟩) l'
      ((hmem q l').mpr ⟨k', hl', ((hlinks k' l' hl').touches_iff hq).mpr he'⟩)
    rw [← hid k l hl, ← hid k' l' hl', hsame]
  · intro h p hp htakes
    obtain ⟨id, hid'⟩ := mem_live_iff.mp hp
    have hlive : g.pin? p.id = some p := by
      rw [hpin ⟨id⟩ p hid']
      exact hid'
    have hq : g.role? p.id = some p.role := congrArg (Option.map Pin.role) hlive
    refine (length_linksOf_le_one_iff hid p.id).mpr fun l hl l' hl' => ?_
    obtain ⟨k, hk, ht⟩ := (hmem p.id l).mp hl
    obtain ⟨k', hk', ht'⟩ := (hmem p.id l').mp hl'
    have hsame : k = k' := h p.id _ _ _ hq (beq_iff_eq.mp htakes) k k' l l' hk hk'
      (((hlinks k l hk).touches_iff hq).mp ht) (((hlinks k' l' hk').touches_iff hq).mp ht')
    rw [hsame, hk'] at hk
    exact (Option.some.inj hk).symm

theorem endAt_ne_of_linkObstacle {g : Graph} {new : Link} {source target : Pin}
    (hsource : g.pin? new.output = some source) (htarget : g.pin? new.input = some target)
    (hfree : Edit.linkObstacle g new.output new.input source target = none) {node : NodeId}
    {direction : Direction} {flow : Bool}
    (hrole : g.role? (new.endAt direction) = some (node, direction, flow))
    (htakes : flow = (direction == .output)) {k : LinkId} {l : Link} (hl : g.link? k = some l) :
    l.endAt direction ≠ new.endAt direction := by
  obtain ⟨-, -, -, -, hflow, hdata⟩ := linkObstacle_eq_none hfree
  have hlive : l ∈ g.liveLinks := mem_live_iff.mpr ⟨_, hl⟩
  cases direction with
  | input =>
    refine hdata ?_ l hlive
    rw [role?, Link.endAt, htarget] at hrole
    simp only [Option.map_some, Pin.role, Option.some.injEq, Prod.mk.injEq] at hrole
    rw [hrole.2.2, htakes]
    rfl
  | output =>
    refine hflow ?_ l hlive
    rw [role?, Link.endAt, hsource] at hrole
    simp only [Option.map_some, Pin.role, Option.some.injEq, Prod.mk.injEq] at hrole
    rw [hrole.2.2, htakes]
    rfl

/-- Changes that renew no pins keep the limits: a link that is added was free to be. -/
theorem Change.sparse_of_plain {g g' : Graph} (hg : g.Wired) (h : Change g false g')
    (hs : g.Sparse) : g'.Sparse := by
  intro q node direction flow hq htakes k k' l l' hl hl' he he'
  by_contra hne
  -- Two different links cannot share such a pin, whichever of them was there before.
  have hnew : ∀ k k' l l', g'.link? k = some l → g'.link? k' = some l' → k ≠ k' →
      l.endAt direction = q → l'.endAt direction = q →
      g.link? k = some l ∧ g.role? q = some (node, direction, flow) := by
    intro k k' l l' hl hl' hne he he'
    rcases h.link_cases hg.joined hl with ⟨hold, hout, hin⟩ | ⟨-, hpins, hothers, source, target,
      hsource, htarget, hfree⟩
    · refine ⟨hold, ?_⟩
      rw [← hq, ← he]
      cases direction with
      | input => exact hin.symm
      | output => exact hout.symm
    · have hrole : g.role? (l.endAt direction) = some (node, direction, flow) := by
        rw [he, ← hq, role?, role?, pin?, pin?, hpins]
      exact absurd (he'.trans he.symm)
        (endAt_ne_of_linkObstacle hsource htarget hfree hrole htakes (hothers k' l' hl' hne.symm))
  obtain ⟨hold, hrole⟩ := hnew k k' l l' hl hl' hne he he'
  obtain ⟨hold', -⟩ := hnew k' k l' l hl' hl (Ne.symm hne) he' he
  exact hne (hs q node direction flow hrole htakes k k' l l' hold hold' he he')

def Alike (p q : Pin) : Prop := p.direction = q.direction ∧ p.name = q.name ∧ p.isFlow = q.isFlow

/-- Renewing a node's pins for given ones makes the links of two old pins end at one new pin that
takes one link at most. -/
def MergesTo (g : Graph) (n : Node) (specs : List PinSpec) : Prop :=
  ∃ p ∈ g.pinsOf n, ∃ q ∈ g.pinsOf n, p.id ≠ q.id ∧ p.takesOne = true ∧ Alike p q ∧
    (∃ s ∈ specs, s.direction = p.direction ∧ s.name = p.name ∧ s.type.isFlow = p.isFlow) ∧
    g.linksOf p.id ≠ [] ∧ g.linksOf q.id ≠ []

section Renewal

variable {g : Graph} {id : NodeId} {n : Node} {specs : List PinSpec}

theorem Alike.successor? {p q : Pin} (h : Alike p q) (news : List Pin) :
    Edit.successor? news p = Edit.successor? news q := by
  rw [Edit.successor?, Edit.successor?, h.1, h.2.1, h.2.2]

theorem alike_of_successor? {p q : Pin} {r : PinId}
    (hp : Edit.successor? (g.fresh id specs) p = some r)
    (hq : Edit.successor? (g.fresh id specs) q = some r) : Alike p q ∧
      ∃ s ∈ specs, s.direction = p.direction ∧ s.name = p.name ∧ s.type.isFlow = p.isFlow := by
  obtain ⟨p', hp', hpid, hdirection, hname, hflow⟩ := successor?_spec hp
  obtain ⟨q', hq', hqid, hdirection', hname', hflow'⟩ := successor?_spec hq
  have hpin := (mem_fresh hp').2.2
  have hpin' := (mem_fresh hq').2.2
  rw [hpid] at hpin
  rw [hqid, hpin] at hpin'
  obtain rfl := Option.some.inj hpin'
  obtain ⟨s, hs, hsd, hsn, hst⟩ := exists_spec_of_mem_fresh hp'
  refine ⟨⟨hdirection.symm.trans hdirection', hname.symm.trans hname', hflow.symm.trans hflow'⟩,
    s, hs, hsd.symm.trans hdirection, hsn.symm.trans hname, ?_⟩
  rw [← hst]
  exact hflow

theorem exists_successor? {p : Pin}
    (h : ∃ s ∈ specs, s.direction = p.direction ∧ s.name = p.name ∧ s.type.isFlow = p.isFlow) :
    ∃ r, Edit.successor? (g.fresh id specs) p = some r := by
  obtain ⟨s, hs, hdirection, hname, hflow⟩ := h
  obtain ⟨p', hp', hpd, hpn, hpt⟩ : ∃ p' ∈ g.fresh id specs, p'.direction = s.direction ∧
      p'.name = s.name ∧ p'.type = s.type := exists_mem_fresh hs
  refine Option.ne_none_iff_exists'.mp fun hnone => ?_
  refine successor?_eq_none_iff.mp hnone p' hp' ⟨hpd.trans hdirection, hpn.trans hname, ?_⟩
  rw [Pin.isFlow, hpt]
  exact hflow

theorem renewed_endAt {olds news : List Pin} {l l' : Link} (h : renewedLink olds news l = some l')
    (direction : Direction) :
    renewed olds news (l.endAt direction) = some (l'.endAt direction) := by
  obtain ⟨-, hin, hout⟩ := renewedLink_eq_some_iff.mp h
  cases direction with
  | input => exact hin
  | output => exact hout

theorem renewed_of_node_ne (hn : g.Numbered) (hc : g.Consistent) (hg : g.Wired)
    (hnode : g.node? id = some n) (news : List Pin) {q : PinId} {p : Pin} (hq : g.pin? q = some p)
    (hp : p.node ≠ id) : renewed (g.pinsOf n) news q = some q := by
  refine renewed_of_ne fun old hold hid => hp ?_
  have hlive := ((mem_pinsOf_iff hn hc (hc.range id n hnode).2).mp hold).1
  rw [hid, hq] at hlive
  rw [Option.some.inj hlive]
  exact node_of_mem_pinsOf hn hc hg hnode hold

theorem link?_replacePins_at_old (hn : g.Numbered) (hc : g.Consistent) (hg : g.Wired)
    (hnode : g.node? id = some n) {p : Pin} (hp : p ∈ g.pinsOf n) {k : LinkId} {l l' : Link}
    (hl : g.link? k = some l) (he : l.endAt p.direction = p.id) :
    (Edit.replacePins id n (g.pinsOf n) specs g).link? k = some l' ↔
      ∃ r, Edit.successor? (g.fresh id specs) p = some r ∧ l' = l.withEnd p.direction r := by
  have hids := nodup_pinsOf hc.pin_id n
  have hlive := ((mem_pinsOf_iff hn hc (hc.range id n hnode).2).mp hp).1
  have hpnode := node_of_mem_pinsOf hn hc hg hnode hp
  obtain ⟨source, target, hs, ht, -, -, hne, -⟩ := hg.joined k l hl
  have hend : renewed (g.pinsOf n) (g.fresh id specs) (l.endAt p.direction) =
      Edit.successor? (g.fresh id specs) p := by
    rw [he, renewed_of_mem hids hp]
  rw [link?_replacePins hids fun _ => le_of_mem_pinsOf hc, hl]
  simp only [Option.some.injEq, exists_eq_left', renewedLink_eq_some_iff]
  obtain ⟨id', input', output'⟩ := l'
  cases hd : p.direction with
  | input =>
    rw [hd] at he hend
    have hsame : target = p := Option.some.inj (ht.symm.trans ((congrArg g.pin? he).trans hlive))
    have hrest := renewed_of_node_ne hn hc hg hnode (g.fresh id specs) hs
      (by rw [← hpnode, ← hsame]; exact hne)
    rw [Link.endAt] at hend
    rw [hend, hrest]
    simp only [Link.withEnd, Link.mk.injEq, Option.some.injEq, eq_comm (a := l.output)]
    grind
  | output =>
    rw [hd] at he hend
    have hsame : source = p := Option.some.inj (hs.symm.trans ((congrArg g.pin? he).trans hlive))
    have hrest := renewed_of_node_ne hn hc hg hnode (g.fresh id specs) ht
      (by rw [← hpnode, ← hsame]; exact hne.symm)
    rw [Link.endAt] at hend
    rw [hend, hrest]
    simp only [Link.withEnd, Link.mk.injEq, Option.some.injEq, eq_comm (a := l.input)]
    grind

theorem exists_link_at_successor (hn : g.Numbered) (hc : g.Consistent) (hg : g.Wired)
    (hnode : g.node? id = some n) {p : Pin} (hp : p ∈ g.pinsOf n) {r : PinId}
    (hr : Edit.successor? (g.fresh id specs) p = some r) {k : LinkId} {l : Link}
    (hl : g.link? k = some l) (he : l.endAt p.direction = p.id) :
    ∃ l', (Edit.replacePins id n (g.pinsOf n) specs g).link? k = some l' ∧
      l'.endAt p.direction = r :=
  ⟨l.withEnd p.direction r,
    (link?_replacePins_at_old hn hc hg hnode hp hl he).mpr ⟨r, hr, rfl⟩, l.endAt_withEnd _ r⟩

theorem exists_endAt_of_linksOf (hg : g.Wired) {p : Pin} (hp : g.pin? p.id = some p) :
    g.linksOf p.id ≠ [] ↔ ∃ k l, g.link? k = some l ∧ l.endAt p.direction = p.id := by
  have hrole : g.role? p.id = some p.role := congrArg (Option.map Pin.role) hp
  constructor
  · intro hlinks
    obtain ⟨l, hl⟩ := List.exists_mem_of_ne_nil _ hlinks
    rw [linksOf, List.mem_filter, liveLinks, mem_live_iff] at hl
    obtain ⟨⟨k, hk⟩, ht⟩ := hl
    exact ⟨⟨k⟩, l, hk, ((hg.joined ⟨k⟩ l hk).directed.touches_iff hrole).mp ht⟩
  · rintro ⟨k, l, hk, he⟩
    refine List.ne_nil_of_mem (List.mem_filter.mpr ⟨mem_live_iff.mpr ⟨k.val, hk⟩, ?_⟩)
    exact ((hg.joined k l hk).directed.touches_iff hrole).mpr he

/-- Renewing a node's pins keeps the limits exactly when it merges no links. -/
theorem sparse_replacePins_iff (hn : g.Numbered) (hc : g.Consistent) (hg : g.Wired) (hs : g.Sparse)
    (hnode : g.node? id = some n) :
    (Edit.replacePins id n (g.pinsOf n) specs g).Sparse ↔ ¬ g.MergesTo n specs := by
  have hids := nodup_pinsOf hc.pin_id n
  have hlive : ∀ p ∈ g.pinsOf n, g.pin? p.id = some p := fun p hp =>
    ((mem_pinsOf_iff hn hc (hc.range id n hnode).2).mp hp).1
  constructor
  · rintro hsparse ⟨p, hp, q, hq, hne, htakes, halike, hspec, hlinks, hlinks'⟩
    obtain ⟨r, hr⟩ : ∃ r, Edit.successor? (g.fresh id specs) p = some r := exists_successor? hspec
    obtain ⟨k, l, hl, he⟩ := (exists_endAt_of_linksOf hg (hlive p hp)).mp hlinks
    obtain ⟨k', l', hl', he'⟩ := (exists_endAt_of_linksOf hg (hlive q hq)).mp hlinks'
    obtain ⟨m, hm, hme⟩ := exists_link_at_successor hn hc hg hnode hp hr hl he
    obtain ⟨m', hm', hme'⟩ := exists_link_at_successor hn hc hg hnode hq
      ((halike.successor? _).symm.trans hr) hl' he'
    have hrole : (Edit.replacePins id n (g.pinsOf n) specs g).role? r =
        some (id, p.direction, p.isFlow) := role?_successor (fun _ => le_of_mem_pinsOf hc) hr
    rw [← halike.1] at hme' he'
    have hsame := hsparse r id p.direction p.isFlow hrole (beq_iff_eq.mp htakes) k k' m m' hm hm'
      hme hme'
    rw [hsame, hl'] at hl
    rw [← Option.some.inj hl] at he
    exact hne (he.symm.trans he')
  · intro hmerges q node direction flow hq htakes k k' m m' hm hm' he he'
    by_contra hne
    obtain ⟨l, hl, hrenewed⟩ := (link?_replacePins hids fun _ => le_of_mem_pinsOf hc).mp hm
    obtain ⟨l', hl', hrenewed'⟩ := (link?_replacePins hids fun _ => le_of_mem_pinsOf hc).mp hm'
    have hend := renewed_endAt hrenewed direction
    have hend' := renewed_endAt hrenewed' direction
    rw [he] at hend
    rw [he'] at hend'
    have hb := (hg.joined k l hl).bound_endAt direction
    have hb' := (hg.joined k' l' hl').bound_endAt direction
    have hrole := (role?_renewed hn hc hg hnode specs hb hend).symm.trans hq
    -- Two links with one end in common were there before, so the ends were different pins.
    have hends : l'.endAt direction ≠ l.endAt direction := fun hsame =>
      hne (hs _ node direction flow hrole htakes k k' l l' hl hl' rfl hsame)
    rcases renewed_cases hend with hstay | ⟨p, hp, hpid, hpr⟩
    · rcases renewed_cases hend' with hstay' | ⟨_, -, -, hr⟩
      · exact hends (hstay'.trans hstay.symm)
      · have hlt := lt_successor? hr
        rw [hstay] at hb
        omega
    · rcases renewed_cases hend' with hstay' | ⟨p', hp', hpid', hpr'⟩
      · have hlt := lt_successor? hpr
        rw [hstay'] at hb'
        omega
      · obtain ⟨halike, hspec⟩ := alike_of_successor? hpr hpr'
        have hprole : p.role = (node, direction, flow) := by
          rw [← hpid, role?, hlive p hp] at hrole
          exact Option.some.inj hrole
        simp only [Pin.role, Prod.mk.injEq] at hprole
        refine hmerges ⟨p, hp, p', hp', ?_, ?_, halike, hspec, ?_, ?_⟩
        · rw [hpid, hpid']
          exact hends.symm
        · rw [Pin.takesOne, Pin.isOutput, hprole.2.1, hprole.2.2, htakes, BEq.rfl]
        · refine (exists_endAt_of_linksOf hg (hlive p hp)).mpr ⟨k, l, hl, ?_⟩
          rw [hpid, hprole.2.1]
        · refine (exists_endAt_of_linksOf hg (hlive p' hp')).mpr ⟨k', l', hl', ?_⟩
          rw [hpid', ← halike.1, hprole.2.1]

end Renewal

def upToDate (g : Graph) (n : Node) (specs : List PinSpec) : Bool :=
  (g.pinsOf n).length == specs.length && (specs.zip (g.pinsOf n)).all fun (s, p) => s.fits p

def refresh (c : Catalogue) (g : Graph) (id : NodeId) : Graph :=
  match g.node? id with
  | none => g
  | some n =>
    match n.kind.expectedPins g.signature c with
    | .error _ => g
    | .ok specs => if g.upToDate n specs then g else Edit.replacePins id n (g.pinsOf n) specs g

def MergesAt (c : Catalogue) (g : Graph) (id : NodeId) : Prop :=
  ∃ n specs, g.node? id = some n ∧ n.kind.expectedPins g.signature c = .ok specs ∧
    g.upToDate n specs = false ∧ g.MergesTo n specs

theorem refresh_cases (c : Catalogue) (g : Graph) (id : NodeId) :
    g.refresh c id = g ∧ ¬ g.MergesAt c id ∨
      ∃ n specs, g.node? id = some n ∧ (g.MergesAt c id ↔ g.MergesTo n specs) ∧
        g.refresh c id = Edit.replacePins id n (g.pinsOf n) specs g := by
  cases hn : g.node? id with
  | none => simp [refresh, MergesAt, hn]
  | some n =>
    cases hspecs : n.kind.expectedPins g.signature c with
    | error error => simp [refresh, MergesAt, hn, hspecs]
    | ok specs =>
      cases hdate : g.upToDate n specs with
      | true => simp [refresh, MergesAt, hn, hspecs, hdate]
      | false => exact .inr ⟨n, specs, rfl, by simp [MergesAt, hn, hspecs, hdate],
          by simp [refresh, hn, hspecs, hdate]⟩

theorem changes_refresh (c : Catalogue) (g : Graph) (id : NodeId) : Changes true g (g.refresh c id) := by
  rcases g.refresh_cases c id with ⟨hsame, -⟩ | ⟨n, specs, hn, -, heq⟩
  · rw [hsame]
    exact .refl
  · rw [heq]
    exact .single (.replacePins hn specs)

theorem sparse_refresh_iff {c : Catalogue} {g : Graph} (hn : g.Numbered) (hc : g.Consistent)
    (hg : g.Wired) (hs : g.Sparse) (id : NodeId) :
    (g.refresh c id).Sparse ↔ ¬ g.MergesAt c id := by
  rcases g.refresh_cases c id with ⟨hsame, hmerges⟩ | ⟨n, specs, hnode, hmerges, heq⟩
  · rw [hsame]
    exact iff_of_true hs hmerges
  · rw [heq, hmerges]
    exact sparse_replacePins_iff hn hc hg hs hnode

theorem kind_refresh (c : Catalogue) (g : Graph) (id m : NodeId) :
    ((g.refresh c id).node? m).map (·.kind) = (g.node? m).map (·.kind) := by
  rcases g.refresh_cases c id with ⟨hsame, -⟩ | ⟨n, specs, hn, -, heq⟩
  · rw [hsame]
  · rw [heq, node?_replacePins hn]
    split
    · next hm => rw [hm, hn]; rfl
    · rfl

def ends (g : Graph) : List NodeId :=
  (g.liveNodes.filter fun n => n.kind == .entry || n.kind == .ret).map (·.id)

end Graph

namespace Edit

theorem leads_refreshNode {c : Catalogue} {id : NodeId} {e : Editing} :
    Leads (refreshNode c id) e (fun _ e' => e'.graph = e.graph.refresh c id) fun g =>
      g = e.graph.refresh c id ∧ ¬ ∃ n specs, e.graph.node? id = some n ∧
        n.kind.expectedPins e.graph.signature c = .ok specs := by
  simp only [refreshNode, leads_bind, leads_graph, leads_node_iff, leads_expectedPins_iff,
    Graph.refresh]
  cases hn : e.graph.node? id with
  | none => simp
  | some n =>
    dsimp only
    cases hspecs : n.kind.expectedPins e.graph.signature c with
    | error error => simp [hspecs]
    | ok specs =>
      dsimp only
      split
      · next h => exact (if_pos h).symm
      · next h =>
        simp only [leads_bind, leads_modifyGraph]
        exact leads_note fun _ => (if_neg h).symm

/-- The pins of the nodes that show the signature follow from it, so none of them fails to be
refreshed. -/
theorem leads_refreshEnds {c : Catalogue} (nodes : List Node) {e : Editing}
    (hnodes : ∀ n ∈ nodes, (e.graph.node? n.id).map (·.kind) = some n.kind) :
    Leads (forIn nodes PUnit.unit fun n _ =>
      if n.kind == .entry || n.kind == .ret then do
        refreshNode c n.id
        pure (ForInStep.yield PUnit.unit)
      else pure (ForInStep.yield PUnit.unit)) e (fun _ e' => e'.graph =
        ((nodes.filter fun n => n.kind == .entry || n.kind == .ret).map (·.id)).foldl
          (Graph.refresh c) e.graph) fun _ => False := by
  induction nodes generalizing e with
  | nil => exact rfl
  | cons n nodes ih =>
    rw [List.forall_mem_cons] at hnodes
    rw [List.forIn_cons, leads_bind]
    split
    · next hend =>
      rw [leads_bind]
      refine leads_refreshNode.mono (fun _ e' he' => ?_) fun g hg => ?_
      · simp only [leads_pure]
        simp only [List.filter_cons, hend, if_true, List.map_cons, List.foldl_cons, ← he']
        refine ih fun m hm => ?_
        rw [he', Graph.kind_refresh]
        exact hnodes.2 m hm
      · obtain ⟨m, hm, hkind⟩ := Option.map_eq_some_iff.mp hnodes.1
        refine hg.2 ?_
        rcases Bool.or_eq_true_iff.mp hend with hentry | hret
        · exact ⟨m, _, hm, by rw [hkind, beq_iff_eq.mp hentry]; rfl⟩
        · exact ⟨m, _, hm, by rw [hkind, beq_iff_eq.mp hret]; rfl⟩
    · next hend =>
      simp only [leads_pure]
      simp only [List.filter_cons, if_neg hend]
      exact ih hnodes.2

end Edit

namespace EditOp

theorem apply_eq_of_leads {op : EditOp} {c : Catalogue} {g g' : Graph}
    (h : (op.edit c).Leads { graph := g } (fun _ e => e.graph = g') (· = g')) : op.apply c g = g' := by
  unfold Edit.Leads at h
  unfold apply
  cases hx : op.edit c { graph := g } with
  | ok u e => rw [hx] at h; exact h
  | error u e => rw [hx] at h; exact h

def start (c : Catalogue) (g : Graph) : EditOp → Graph
  | refreshNode _ => g
  | setSignature signature => { g with signature }
  | op => op.apply c g

def refreshed (g : Graph) : EditOp → List NodeId
  | refreshNode id => [id]
  | setSignature _ => g.ends
  | _ => []

def stage (op : EditOp) (c : Catalogue) (g : Graph) (ids : List NodeId) : Graph :=
  ids.foldl (Graph.refresh c) (op.start c g)

theorem stage_refreshed {c : Catalogue} {g : Graph} (hc : g.Consistent) (op : EditOp) :
    op.stage c g (op.refreshed g) = op.apply c g := by
  cases op with
  | refreshNode id =>
    refine Eq.symm (apply_eq_of_leads ?_ : (refreshNode id).apply c g = _)
    exact Edit.leads_refreshNode.mono (fun _ _ h => h) fun _ h => h.1
  | setSignature signature =>
    refine (apply_eq_of_leads ?_).symm
    simp only [edit, Edit.setSignature, Edit.leads_bind, Edit.leads_modifyGraph, Edit.leads_graph]
    refine (Edit.leads_refreshEnds _ fun n hn => ?_).mono (fun _ e he => ?_) fun _ => False.elim
    · obtain ⟨id, hid⟩ := mem_live_iff.mp hn
      have hnode : g.node? ⟨id⟩ = some n := hid
      rw [hc.node_id ⟨id⟩ n hid]
      exact congrArg (Option.map (·.kind)) hnode
    · exact he
  | addNode kind => rfl
  | addNodeWithPins kind specs => rfl
  | removeNode id => rfl
  | removePin id => rfl
  | setDefault id value => rfl
  | setPosition id position => rfl
  | addLink output input => rfl
  | removeLink id => rfl
  | addEnds => rfl

theorem changes_start (op : EditOp) (c : Catalogue) (g : Graph) :
    Graph.Changes false g (op.start c g) := by
  cases op with
  | refreshNode id => exact .refl
  | setSignature signature => exact .single (.setSignature signature)
  | addNode kind => exact changes_apply (.addNode kind) c g
  | addNodeWithPins kind specs => exact changes_apply (.addNodeWithPins kind specs) c g
  | removeNode id => exact changes_apply (.removeNode id) c g
  | removePin id => exact changes_apply (.removePin id) c g
  | setDefault id value => exact changes_apply (.setDefault id value) c g
  | setPosition id position => exact changes_apply (.setPosition id position) c g
  | addLink output input => exact changes_apply (.addLink output input) c g
  | removeLink id => exact changes_apply (.removeLink id) c g
  | addEnds => exact changes_apply .addEnds c g

/-- An edit merges links when it refreshes one of its nodes. -/
def Merges (op : EditOp) (c : Catalogue) (g : Graph) : Prop :=
  ∃ ids id, ids ++ [id] <+: op.refreshed g ∧ (op.stage c g ids).MergesAt c id

end EditOp

namespace Graph

/-- Graphs that edits lead to without merging links. -/
inductive Unmerged : Graph → Prop
  | new (name : String) (signature : GraphSignature) : Unmerged { name, signature }
  | edit {g : Graph} (h : Unmerged g) (op : EditOp) (c : Catalogue)
      (hn : (op.apply c g).Numbered) (hm : ¬ op.Merges c g) : Unmerged (op.apply c g)

theorem Unmerged.edited {g : Graph} (h : g.Unmerged) : g.Edited := by
  induction h with
  | new name signature => exact .new name signature
  | edit _ op c hn _ ih => exact .edit ih op c hn

theorem changes_refreshes (c : Catalogue) (g : Graph) (ids : List NodeId) :
    Changes true g (ids.foldl (refresh c) g) := by
  induction ids generalizing g with
  | nil => exact .refl
  | cons id ids ih => exact (changes_refresh c g id).trans (ih _)

section Stages

variable {g : Graph} {op : EditOp} {c : Catalogue} {ids : List NodeId}

theorem numbered_stage (h : g.Edited) (hn : (op.apply c g).Numbered) (hids : ids <+: op.refreshed g) :
    (op.stage c g ids).Numbered := by
  obtain ⟨rest, hrest⟩ := hids
  have hlast : op.apply c g = rest.foldl (refresh c) (op.stage c g ids) := by
    rw [← op.stage_refreshed h.consistent, EditOp.stage, EditOp.stage, ← List.foldl_append, hrest]
  rw [hlast] at hn
  exact (changes_refreshes c _ rest).follows.numbered hn

theorem wired_stage (h : g.Edited) (hn : (op.apply c g).Numbered) (hids : ids <+: op.refreshed g) :
    (op.stage c g ids).Consistent ∧ (op.stage c g ids).Wired := by
  have hchanges : Changes true g (op.stage c g ids) :=
    (op.changes_start c g).mono.trans (changes_refreshes c _ ids)
  exact hchanges.keep (fun _ _ hn hc hchange hg => hchange.wired hn hc hg)
    (numbered_stage h hn hids) h.consistent h.wired

theorem sparse_start (h : g.Edited) (hs : g.Sparse) (hn : (op.apply c g).Numbered) :
    (op.start c g).Sparse := by
  have hkeep := (op.changes_start c g).keep (P := fun g => g.Wired ∧ g.Sparse)
    (fun _ _ _ hc hchange hg => ⟨hchange.wired_of_plain hc hg.1, hchange.sparse_of_plain hg.1 hg.2⟩)
    (numbered_stage h hn List.nil_prefix) h.consistent ⟨h.wired, hs⟩
  exact hkeep.2.2

theorem sparse_stage_iff (h : g.Edited) (hs : g.Sparse) (hn : (op.apply c g).Numbered) :
    (∀ ids, ids <+: op.refreshed g → (op.stage c g ids).Sparse) ↔ ¬ op.Merges c g := by
  have hstep : ∀ ids id, ids ++ [id] <+: op.refreshed g → (op.stage c g ids).Sparse →
      ((op.stage c g (ids ++ [id])).Sparse ↔ ¬ (op.stage c g ids).MergesAt c id) := by
    intro ids id hids hsparse
    have hprefix : ids <+: op.refreshed g := (List.prefix_append ids [id]).trans hids
    obtain ⟨hc, hg⟩ := wired_stage h hn hprefix
    rw [EditOp.stage, List.foldl_append]
    exact sparse_refresh_iff (numbered_stage h hn hprefix) hc hg hsparse id
  constructor
  · rintro hall ⟨ids, id, hids, hmerges⟩
    have hsparse := hall ids ((List.prefix_append ids [id]).trans hids)
    exact (hstep ids id hids hsparse).mp (hall _ hids) hmerges
  · intro hmerges ids
    induction ids using List.reverseRecOn with
    | nil => exact fun _ => sparse_start h hs hn
    | append_singleton ids id ih =>
      intro hids
      have hsparse := ih ((List.prefix_append ids [id]).trans hids)
      exact (hstep ids id hids hsparse).mpr fun hm => hmerges ⟨ids, id, hids, hm⟩

end Stages

theorem sparse_new (name : String) (signature : GraphSignature) : Sparse { name, signature } := by
  intro q node direction flow hq
  cases (congrArg (Option.map Pin.role) (slot?_empty q.val)).symm.trans hq

theorem Unmerged.sparse {g : Graph} (h : g.Unmerged) : g.Sparse := by
  induction h with
  | new name signature => exact sparse_new name signature
  | edit h op c hn hm ih =>
    rw [← op.stage_refreshed h.edited.consistent]
    exact (sparse_stage_iff h.edited ih hn).mpr hm _ List.prefix_rfl

/-- As long as edits merge no links the limits hold, and an edit passes through graphs that keep
them exactly when it merges no links either. -/
theorem Unmerged.fanned_stages_iff {g : Graph} (h : g.Unmerged) (op : EditOp) (c : Catalogue)
    (hn : (op.apply c g).Numbered) : g.Fanned ∧ op.stage c g (op.refreshed g) = op.apply c g ∧
      ((∀ ids, ids <+: op.refreshed g → (op.stage c g ids).Fanned) ↔ ¬ op.Merges c g) := by
  have hedited := h.edited
  have hfanned : ∀ {g : Graph}, g.Consistent → g.Wired → (g.Fanned ↔ g.Sparse) := fun hc hg =>
    fanned_iff_sparse hc.pin_id hg.link_id fun k l hl => (hg.joined k l hl).directed
  refine ⟨(hfanned hedited.consistent hedited.wired).mpr h.sparse,
    op.stage_refreshed hedited.consistent, ?_⟩
  rw [← sparse_stage_iff hedited h.sparse hn]
  refine forall₂_congr fun ids hids => ?_
  obtain ⟨hc, hg⟩ := wired_stage hedited hn hids
  exact hfanned hc hg

def doubled : Graph :=
  let g : Graph := { name := "Doubled" }
  let g := (EditOp.addNodeWithPins .branch [.flowOut "True", .flowOut "True"]).apply {} g
  let g := (EditOp.addNodeWithPins (.reroute .flow) [.flowIn "In", .flowOut "Out"]).apply {} g
  let g := (EditOp.addLink ⟨1⟩ ⟨3⟩).apply {} g
  (EditOp.addLink ⟨2⟩ ⟨3⟩).apply {} g

theorem unmerged_doubled : doubled.Unmerged := by
  have hplain : ∀ (op : EditOp) (g : Graph), op.refreshed g = [] → ¬ op.Merges {} g := by
    rintro op g hnone ⟨ids, id, hids, -⟩
    rw [hnone, List.prefix_nil] at hids
    simp at hids
  unfold doubled
  refine .edit (.edit (.edit (.edit (.new "Doubled" {}) _ _ ?_ (hplain _ _ rfl)) _ _ ?_
    (hplain _ _ rfl)) _ _ ?_ (hplain _ _ rfl)) _ _ ?_ (hplain _ _ rfl) <;>
    · unfold Numbered
      decide +kernel

/-- Refreshing the branch leaves one of its new outputs with both links. -/
theorem doubled_merges : doubled.Fanned ∧ (EditOp.refreshNode ⟨1⟩).Merges {} doubled ∧
    ((EditOp.refreshNode ⟨1⟩).apply {} doubled).linksOf ⟨7⟩ =
      [⟨⟨1⟩, ⟨3⟩, ⟨7⟩⟩, ⟨⟨2⟩, ⟨3⟩, ⟨7⟩⟩] := by
  have hlinks : ((EditOp.refreshNode ⟨1⟩).apply {} doubled).linksOf ⟨7⟩ =
      [⟨⟨1⟩, ⟨3⟩, ⟨7⟩⟩, ⟨⟨2⟩, ⟨3⟩, ⟨7⟩⟩] := by decide +kernel
  obtain ⟨hfanned, hlast, hiff⟩ := unmerged_doubled.fanned_stages_iff (.refreshNode ⟨1⟩) {}
    (by unfold Numbered; decide +kernel)
  refine ⟨hfanned, ?_, hlinks⟩
  by_contra hmerges
  have hone := hiff.mpr hmerges _ List.prefix_rfl
  rw [hlast] at hone
  have hpin : (((EditOp.refreshNode ⟨1⟩).apply {} doubled).pin? ⟨7⟩).map
      (fun p => (p.id, p.takesOne)) = some (⟨7⟩, true) := by decide +kernel
  obtain ⟨p, hp, he⟩ := Option.map_eq_some_iff.mp hpin
  obtain ⟨hid, htakes⟩ := Prod.mk.inj he
  have hle := hone p (mem_live_iff.mpr ⟨7, hp⟩) htakes
  rw [hid, hlinks] at hle
  exact absurd hle (by decide)

end Graph

end Flowscript
