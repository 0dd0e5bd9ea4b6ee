import Mathlib.Data.Finset.Card
import Flowscript.Proofs.CollectionLemmas
import Flowscript.Proofs.Graph.CheckFindings
import Flowscript.Proofs.Graph.FlowSearch
import Flowscript.Proofs.Graph.LinkWiring
import Flowscript.Proofs.Run.AssembledPrograms

/-! # Where compiling breaks off

A graph that was read from a document may hold pins and nodes whose numbers have nothing to do with
their slots, and the checks do not ask for them. Compiling stores each live pin and each live node
under its own number: it breaks off at the first number that names no slot, and what is stored under
one number twice is lost. Before that, the checks look up pins by adding up the numbers of ranges: they
break off at the first range that leaves the 32 bits of pin numbers.
-/
namespace Flowscript

def InSlots (size number : Nat) : Prop := 0 < number ∧ number ≤ size

section Filled

variable {α : Type} {slots : Array (Option α)}

/-- When the numbers of some things fill slots, as many slots are filled as there are things exactly if
no number comes twice. -/
theorem length_live_eq_iff {numbers : List Nat}
    (h : ∀ k, (slot? slots k).isSome = true ↔ k ∈ numbers) :
    (live slots).length = numbers.length ↔ numbers.Nodup := by
  let filled := (Finset.range slots.toList.length).filter fun i => slots.toList[i]?.join.isSome
  have hfilled : numbers.toFinset = filled.map ⟨Nat.succ, Nat.succ_injective⟩ := by
    ext k
    simp only [List.mem_toFinset, ← h k, Finset.mem_map, Finset.mem_filter, Finset.mem_range,
      Function.Embedding.coeFn_mk, filled, Array.length_toList, Array.getElem?_toList]
    constructor
    · intro hk
      obtain ⟨a, ha⟩ := Option.isSome_iff_exists.mp hk
      obtain ⟨hpos, hle⟩ := slot?_bound ha
      refine ⟨k - 1, ⟨by omega, ?_⟩, by omega⟩
      rw [(slot?_eq_some_iff.mp ha).2]
      rfl
    · rintro ⟨i, ⟨-, hi⟩, rfl⟩
      rw [slot?, if_neg (Nat.succ_ne_zero i)]
      exact hi
  have hlive : (live slots).length = numbers.toFinset.card := by
    rw [hfilled, Finset.card_map]
    exact length_filterMap_id slots.toList
  rw [hlive, List.card_toFinset]
  refine ⟨fun h => ?_, fun h => by rw [h.dedup]⟩
  rw [← (List.dedup_sublist numbers).eq_of_length h]
  exact List.nodup_dedup numbers

theorem nodup_live {number : α → Nat} (h : ∀ i a, slots[i]? = some (some a) → number a = i + 1) :
    ((live slots).map number).Nodup := by
  rw [List.Nodup, List.pairwise_map, live, List.pairwise_filterMap, List.pairwise_iff_getElem]
  intro i j hi hj hlt a ha b hb
  have hat : ∀ i (hi : i < slots.toList.length) a, id slots.toList[i] = some a →
      number a = i + 1 := by
    intro i hi a ha
    refine h i a ?_
    rw [← Array.getElem?_toList, List.getElem?_eq_getElem hi]
    exact congrArg some ha
  rw [hat i hi a ha, hat j hj b hb]
  omega

theorem isSome_slot?_setSlot_iff {a b : α} {number other : Nat}
    (h : slot? slots number = some b) :
    (slot? (setSlot slots number (some a)) other).isSome = true ↔ (slot? slots other).isSome = true := by
  by_cases he : other = number
  · have hb := slot?_bound h
    rw [he, slot?_setSlot_self _ hb.1 hb.2, h]
    rfl
  · rw [slot?_setSlot_of_ne _ he]

end Filled

namespace Program

variable {g : Graph} {c : Catalogue}

def valueLayouts (c : Catalogue) (ps : List Pin) : List Layout :=
  ps.filterMap fun p => (p.type.type?.bind c.lookupName?).map (·.layout)

/-- The values of pins can be laid out after what is there: their types are known, and nothing
overflows. -/
structure Holds (c : Catalogue) (storage : Layout) (ps : List Pin) : Prop where
  known : ∀ p ∈ ps, ∀ type ∈ p.type.type?, (c.lookupName? type).isSome
  room : (Layout.place?.go storage (valueLayouts c ps)).isSome

theorem Holds.nil (storage : Layout) : Holds c storage [] := ⟨fun _ hp => (nomatch hp), rfl⟩

theorem holds_cons_iff {storage : Layout} {p : Pin} {ps : List Pin} :
    Holds c storage (p :: ps) ↔
      ∃ storage' placed, placePin c storage p = .ok (storage', placed) ∧ Holds c storage' ps := by
  unfold placePin
  cases ht : p.type with
  | flow =>
    have hlayouts : valueLayouts c (p :: ps) = valueLayouts c ps := by
      simp [valueLayouts, ht, PinType.type?]
    constructor
    · intro h
      refine ⟨storage, _, rfl, fun q hq => h.known q (List.mem_cons_of_mem p hq), ?_⟩
      rw [← hlayouts]
      exact h.room
    · rintro ⟨storage', placed, hp, h⟩
      cases hp
      refine ⟨fun q hq type htype => ?_, hlayouts ▸ h.room⟩
      rcases List.mem_cons.mp hq with rfl | hq
      · rw [ht] at htype
        cases htype
      · exact h.known q hq type htype
  | data type form =>
    dsimp only
    cases hh : c.handleNamed? type with
    | none =>
      refine ⟨fun h => ?_, fun ⟨_, _, hp, _⟩ => by cases hp⟩
      have hknown := h.known p List.mem_cons_self type (by rw [ht]; rfl)
      simp [Catalogue.lookupName?, hh] at hknown
    | some handle =>
      have hlookup : c.lookupName? type = some (c.info handle) := by simp [Catalogue.lookupName?, hh]
      have hlayouts : valueLayouts c (p :: ps) = (c.info handle).layout :: valueLayouts c ps := by
        simp [valueLayouts, ht, PinType.type?, hlookup]
      have hknown : (∀ q ∈ p :: ps, ∀ t ∈ q.type.type?, (c.lookupName? t).isSome) ↔
          ∀ q ∈ ps, ∀ t ∈ q.type.type?, (c.lookupName? t).isSome := by
        simp [ht, PinType.type?, hlookup]
      dsimp only
      cases hroom : storage.extend? (c.info handle).layout with
      | none =>
        refine ⟨fun h => ?_, fun ⟨_, _, hp, _⟩ => by cases hp⟩
        have hr := h.room
        simp [hlayouts, Layout.place?.go, hroom] at hr
      | some placed =>
        obtain ⟨storage', offset⟩ := placed
        have hgo : (Layout.place?.go storage (valueLayouts c (p :: ps))).isSome =
            (Layout.place?.go storage' (valueLayouts c ps)).isSome := by
          simp only [hlayouts, Layout.place?.go, hroom, Option.bind_eq_bind, Option.bind_some]
          cases Layout.place?.go storage' (valueLayouts c ps) <;> rfl
        constructor
        · intro h
          exact ⟨storage', _, rfl, hknown.mp h.known, hgo ▸ h.room⟩
        · rintro ⟨storage'', placed, hp, h⟩
          cases hp
          exact ⟨hknown.mpr h.known, hgo ▸ h.room⟩

theorem Holds.of_append {storage : Layout} {ps qs : List Pin} (h : Holds c storage (ps ++ qs)) :
    Holds c storage ps := by
  induction ps generalizing storage with
  | nil => exact .nil storage
  | cons p ps ih =>
    obtain ⟨storage', placed, hp, h⟩ := holds_cons_iff.mp h
    exact holds_cons_iff.mpr ⟨storage', placed, hp, ih h⟩

theorem store_of_inSlots {α : Type} {slots : Array (Option α)} {number : Nat}
    (h : InSlots slots.size number) (a : α) :
    store slots number a = .ok (setSlot slots number (some a)) := if_pos h

theorem store_of_not_inSlots {α : Type} {slots : Array (Option α)} {number : Nat}
    (h : ¬ InSlots slots.size number) (a : α) : store slots number a = .error .overrun := if_neg h

theorem placePins_cons {storage storage' : Layout} {slots : Array (Option ProgramPin)} {p : Pin}
    {placed : ProgramPin} (hp : placePin c storage p = .ok (storage', placed)) (ps : List Pin)
    (hs : InSlots slots.size p.id.val) :
    placePins c storage slots (p :: ps) =
      placePins c storage' (setSlot slots p.id.val (some placed)) ps := by
  rw [placePins, hp]
  simp only [orFail, bind, Except.bind]
  rw [store_of_inSlots hs]

theorem exists_placePins_iff {ps : List Pin} {storage : Layout} {slots : Array (Option ProgramPin)} :
    (∃ r, placePins c storage slots ps = .ok r) ↔
      Holds c storage ps ∧ ∀ p ∈ ps, InSlots slots.size p.id.val := by
  induction ps generalizing storage slots with
  | nil => exact ⟨fun _ => ⟨.nil storage, fun _ hp => by cases hp⟩, fun _ => ⟨_, rfl⟩⟩
  | cons p ps ih =>
    rw [holds_cons_iff]
    constructor
    · rintro ⟨r, h⟩
      obtain ⟨⟨storage', placed⟩, hp, h'⟩ := bind_eq_ok_iff.mp h
      obtain ⟨slots', hs, h'⟩ := bind_eq_ok_iff.mp h'
      obtain ⟨hin, rfl⟩ := store_eq_ok_iff.mp hs
      obtain ⟨hholds, hall⟩ := ih.mp ⟨r, h'⟩
      refine ⟨⟨storage', placed, orFail_eq_ok_iff.mp hp, hholds⟩, fun q hq => ?_⟩
      rcases List.mem_cons.mp hq with rfl | hq
      · exact hin
      · exact size_setSlot slots _ _ ▸ hall q hq
    · rintro ⟨⟨storage', placed, hp, hholds⟩, hall⟩
      rw [placePins_cons hp ps (hall p List.mem_cons_self)]
      refine ih.mpr ⟨hholds, fun q hq => ?_⟩
      rw [size_setSlot]
      exact hall q (List.mem_cons_of_mem p hq)

/-- Placing pins breaks off at the first pin whose number names no slot, unless it fails before. -/
theorem placePins_overrun_iff {ps : List Pin} {storage : Layout} {slots : Array (Option ProgramPin)} :
    placePins c storage slots ps = .error .overrun ↔
      ∃ qs p, qs ++ [p] <+: ps ∧ Holds c storage (qs ++ [p]) ∧ ¬ InSlots slots.size p.id.val := by
  induction ps generalizing storage slots with
  | nil =>
    refine ⟨fun h => (by cases h), fun ⟨qs, p, hstart, _⟩ => ?_⟩
    have hnil := List.prefix_nil.mp hstart
    simp at hnil
  | cons p ps ih =>
    cases hp : placePin c storage p with
    | error e =>
      refine ⟨fun h => ?_, fun ⟨qs, q, hstart, hholds, _⟩ => ?_⟩
      · simp [placePins, hp, orFail, bind, Except.bind] at h
      · -- The first pin of any such list is the one that cannot be placed.
        obtain ⟨rest, hrest⟩ : ∃ rest, qs ++ [q] = p :: rest := by
          obtain ⟨more, hmore⟩ := hstart
          cases qs with
          | nil => exact ⟨[], by simp at hmore; simp [hmore.1]⟩
          | cons q' qs => exact ⟨qs ++ [q], by simp at hmore; simp [hmore.1]⟩
        rw [hrest] at hholds
        obtain ⟨storage', placed, hplaced, -⟩ := holds_cons_iff.mp hholds
        rw [hp] at hplaced
        cases hplaced
    | ok r =>
      obtain ⟨storage', placed⟩ := r
      by_cases hs : InSlots slots.size p.id.val
      · rw [placePins_cons hp ps hs, ih, size_setSlot]
        constructor
        · rintro ⟨qs, q, hstart, hholds, hq⟩
          refine ⟨p :: qs, q, ?_, ?_, hq⟩
          · exact List.prefix_cons_inj p |>.mpr hstart
          · exact holds_cons_iff.mpr ⟨storage', placed, hp, hholds⟩
        · rintro ⟨qs, q, hstart, hholds, hq⟩
          cases qs with
          | nil =>
            obtain ⟨rfl, -⟩ := List.cons_prefix_cons.mp hstart
            exact absurd hs hq
          | cons q' qs =>
            obtain ⟨rfl, hrest⟩ := List.cons_prefix_cons.mp hstart
            obtain ⟨storage'', placed', hp', hholds⟩ := holds_cons_iff.mp hholds
            rw [hp] at hp'
            cases hp'
            exact ⟨qs, q, hrest, hholds, hq⟩
      · refine ⟨fun _ => ⟨[], p, ?_, ?_, hs⟩, fun _ => ?_⟩
        · exact List.cons_prefix_cons.mpr ⟨rfl, List.nil_prefix⟩
        · exact holds_cons_iff.mpr ⟨storage', placed, hp, .nil storage'⟩
        · rw [placePins, hp]
          simp only [orFail, bind, Except.bind]
          rw [store_of_not_inSlots hs]

theorem exists_compileNode {n : Node} (h : g.NodeChecked c n) : ∃ pn, compileNode g c n = .ok pn := by
  obtain ⟨specs, hspecs, -⟩ := h.fitting
  suffices hop : ∃ op, Becomes c n.kind op by
    obtain ⟨op, hop⟩ := hop
    exact ⟨_, by rw [compileNode, opOf_eq_ok_iff.mpr hop]; rfl⟩
  -- The field that the check resolved is one that can be accessed.
  have hfield : ∀ type field rest, (NodeKind.resolveField c type field >>= rest) = .ok specs →
      ∃ offset h, fieldAccess c type field = .ok (offset, h) := by
    intro type field rest hr
    obtain ⟨⟨info, name⟩, hr, -⟩ := bind_eq_ok_iff.mp hr
    obtain ⟨owner, howner, hinfo, hname⟩ := resolveField_eq_ok hr
    cases hh : c.handle? info.type with
    | none => simp [NodeKind.typeName, Catalogue.lookup?, hh] at hname
    | some handle => exact ⟨info.offset, handle, by simp only [fieldAccess, howner, hinfo, hh]⟩
  generalize n.kind = kind at hspecs ⊢
  cases kind with
  | call type function signature =>
    obtain ⟨f, hf, -⟩ := bind_eq_ok_iff.mp hspecs
    exact ⟨_, .call hf⟩
  | fieldGet type field =>
    obtain ⟨offset, handle, haccess⟩ := hfield type field _ hspecs
    exact ⟨_, .fieldGet haccess⟩
  | fieldSet type field =>
    obtain ⟨offset, handle, haccess⟩ := hfield type field _ hspecs
    exact ⟨_, .fieldSet haccess⟩
  | _ => exact ⟨_, by constructor⟩

theorem compileNodes_cons {slots : Array (Option ProgramNode)} {n : Node} {pn : ProgramNode}
    (hn : compileNode g c n = .ok pn) (ns : List Node) (hs : InSlots slots.size n.id.val) :
    compileNodes g c slots (n :: ns) = compileNodes g c (setSlot slots n.id.val (some pn)) ns := by
  rw [compileNodes, hn]
  simp only [orFail, bind, Except.bind]
  rw [store_of_inSlots hs]

theorem compileNodes_cases {ns : List Node} (h : ∀ n ∈ ns, ∃ pn, compileNode g c n = .ok pn)
    (slots : Array (Option ProgramNode)) :
    (∀ n ∈ ns, InSlots slots.size n.id.val) ∧ (∃ r, compileNodes g c slots ns = .ok r) ∨
      (∃ n ∈ ns, ¬ InSlots slots.size n.id.val) ∧ compileNodes g c slots ns = .error .overrun := by
  induction ns generalizing slots with
  | nil => exact .inl ⟨fun _ hn => (by cases hn), slots, rfl⟩
  | cons n ns ih =>
    obtain ⟨pn, hn⟩ := h n List.mem_cons_self
    by_cases hs : InSlots slots.size n.id.val
    · rw [compileNodes_cons hn ns hs]
      have ih := ih (fun m hm => h m (List.mem_cons_of_mem n hm)) (setSlot slots n.id.val (some pn))
      rw [size_setSlot] at ih
      rcases ih with ⟨hall, hr⟩ | ⟨⟨m, hm, hout⟩, hr⟩
      · exact .inl ⟨List.forall_mem_cons.mpr ⟨hs, hall⟩, hr⟩
      · exact .inr ⟨⟨m, List.mem_cons_of_mem n hm, hout⟩, hr⟩
    · refine .inr ⟨⟨n, List.mem_cons_self, hs⟩, ?_⟩
      rw [compileNodes, hn]
      simp only [orFail, bind, Except.bind]
      rw [store_of_not_inSlots hs]

end Program

namespace Graph

variable {g : Graph} {c : Catalogue}

inductive Asks (g : Graph) : Node → Prop
  /-- For every live node with a range within the pins: those of the node in the slot of its number. -/
  | range {n m : Node} (hn : n ∈ g.liveNodes) (hrange : g.rangeLeaves n = false) (hm : g.node? n.id = some m) :
      Asks g m
  /-- In a pure function, where the kinds do not say whether the node may stand there. -/
  | pure {n m : Node} (hpure : g.signature.pure = true) (hn : n ∈ g.liveNodes)
      (hkind : n.kind ≠ .entry ∧ n.kind ≠ .ret ∧ n.kind.isComment = false) (hm : g.node? n.id = some m)
      (hasked : m.kind.isAlwaysImpure = false) : Asks g m
  /-- For the source of data that a link carries. -/
  | source {l : Link} {output : Pin} {m : Node} (hl : l ∈ g.liveLinks) (houtput : g.pin? l.output = some output)
      (hdata : output.isFlow = false) (hm : g.node? output.node = some m)
      (hasked : m.kind.isAlwaysImpure = false) : Asks g m
  /-- For what reads an expression. -/
  | reader {l : Link} {output input : Pin} {m : Node} (hl : l ∈ g.liveLinks)
      (houtput : g.pin? l.output = some output) (hdata : output.isFlow = false)
      (hpure : g.isPure output.node = true) (hinput : g.pin? l.input = some input)
      (hm : g.node? input.node = some m) (hasked : m.kind.isAlwaysImpure = false) : Asks g m
  /-- For what flow links lead to from an entry. -/
  | reached {entry m : Node} {id : NodeId} (hentry : entry ∈ g.entries)
      (hreach : Relation.ReflTransGen g.FlowsTo entry.id id) (hm : g.node? id = some m) : Asks g m

/-- The checks come to a range whose end 32 bits do not hold. -/
def Overflows (g : Graph) : Prop := ∃ n, g.Asks n ∧ 0x100000000 ≤ n.firstPin.val + n.pinCount

theorem Asks.live {n : Node} (h : g.Asks n) : n ∈ g.liveNodes := by
  cases h with
  | range _ _ hm | pure _ _ _ hm | source _ _ _ hm | reader _ _ _ _ _ hm | reached _ _ hm =>
    exact mem_live_iff.mpr ⟨_, hm⟩

theorem pinsOverflow_iff {id : NodeId} :
    g.pinsOverflow id = true ↔ ∃ m, g.node? id = some m ∧ 0x100000000 ≤ m.firstPin.val + m.pinCount := by
  unfold pinsOverflow
  cases g.node? id <;> simp [Node.overflows]

theorem purityOverflows_iff {id : NodeId} : g.purityOverflows id = true ↔
    ∃ m, g.node? id = some m ∧ m.kind.isAlwaysImpure = false ∧ 0x100000000 ≤ m.firstPin.val + m.pinCount := by
  unfold purityOverflows
  cases g.node? id <;> simp [Node.overflows]

theorem linkOverflows_iff {l : Link} : g.linkOverflows l = true ↔
    ∃ output, g.pin? l.output = some output ∧ output.isFlow = false ∧
      (g.purityOverflows output.node = true ∨ g.isPure output.node = true ∧
        ∃ input, g.pin? l.input = some input ∧ g.purityOverflows input.node = true) := by
  unfold linkOverflows
  cases g.pin? l.output <;> cases g.pin? l.input <;> simp

theorem overflows_iff : g.overflows = true ↔ g.Overflows := by
  simp only [overflows, Bool.or_eq_true, Bool.and_eq_true, List.any_eq_true, Bool.not_eq_true', Bool.or_eq_false_iff,
    beq_eq_false_iff_ne, mem_reachable_iff, List.mem_map, pinsOverflow_iff, purityOverflows_iff, linkOverflows_iff]
  constructor
  · rintro (((⟨n, hn, hrange, m, hm, ho⟩ |
      ⟨hpure, n, hn, ⟨⟨hentry, hret⟩, hcomment⟩, m, hm, hasked, ho⟩) |
      ⟨l, hl, output, houtput, hdata, ⟨m, hm, hasked, ho⟩ | ⟨hpure, input, hinput, m, hm, hasked, ho⟩⟩) |
      ⟨id, ⟨-, ⟨entry, hentry, rfl⟩, hreach⟩, m, hm, ho⟩)
    · exact ⟨m, .range hn hrange hm, ho⟩
    · exact ⟨m, .pure hpure hn ⟨hentry, hret, hcomment⟩ hm hasked, ho⟩
    · exact ⟨m, .source hl houtput hdata hm hasked, ho⟩
    · exact ⟨m, .reader hl houtput hdata hpure hinput hm hasked, ho⟩
    · exact ⟨m, .reached hentry hreach hm, ho⟩
  · rintro ⟨m, hasks, ho⟩
    cases hasks with
    | range hn hrange hm => exact .inl (.inl (.inl ⟨_, hn, hrange, m, hm, ho⟩))
    | pure hpure hn hkind hm hasked =>
      exact .inl (.inl (.inr ⟨hpure, _, hn, ⟨⟨hkind.1, hkind.2.1⟩, hkind.2.2⟩, m, hm, hasked, ho⟩))
    | source hl houtput hdata hm hasked =>
      exact .inl (.inr ⟨_, hl, _, houtput, hdata, .inl ⟨m, hm, hasked, ho⟩⟩)
    | reader hl houtput hdata hpure hinput hm hasked =>
      exact .inl (.inr ⟨_, hl, _, houtput, hdata, .inr ⟨hpure, _, hinput, m, hm, hasked, ho⟩⟩)
    | reached hentry hreach hm => exact .inr ⟨_, ⟨_, ⟨_, hentry, rfl⟩, hreach⟩, m, hm, ho⟩

theorem collect?_eq_none_iff {c : Catalogue} {script : Option String} :
    g.collect? c script = none ↔ g.Overflows := by
  rw [← overflows_iff]
  unfold collect?
  cases g.overflows <;> simp

/-- Storing the pins, then the nodes, comes to a number that names no slot. The pins up to there have
known types, and their values fit into a frame. -/
def Overruns (g : Graph) (c : Catalogue) : Prop :=
  (∃ ps p, ps ++ [p] <+: g.livePins ∧ Program.Holds c .empty (ps ++ [p]) ∧
    ¬ InSlots g.pins.size p.id.val) ∨
  Program.Holds c .empty g.livePins ∧ ∃ n ∈ g.liveNodes, ¬ InSlots g.nodes.size n.id.val

end Graph

namespace Program

variable {g : Graph} {c : Catalogue} {s : Setting}

/-- Once pins and nodes are stored, nothing breaks off any more. -/
theorem assemble_overrun_iff : assemble g c s = .error .overrun ↔
    placePins c .empty (Array.replicate g.pins.size none) g.livePins = .error .overrun ∨
      (∃ r, placePins c .empty (Array.replicate g.pins.size none) g.livePins = .ok r) ∧
        compileNodes g c (Array.replicate g.nodes.size none) g.liveNodes = .error .overrun := by
  unfold assemble
  cases placePins c .empty (Array.replicate g.pins.size none) g.livePins with
  | error e => simp [bind, Except.bind]
  | ok r =>
    obtain ⟨storage, slots⟩ := r
    cases compileNodes g c (Array.replicate g.nodes.size none) g.liveNodes with
    | error e => simp [bind, Except.bind]
    | ok nodes =>
      simp only [bind, Except.bind, reduceCtorEq, and_false, or_false, iff_false]
      cases g.entries.head? with
      | none => exact fun h => by cases h
      | some entry =>
        cases g.signature.result with
        | none => exact fun h => by cases h
        | some r => cases hr : c.handleNamed? r.type <;> exact fun h => by simp only [hr] at h; cases h

theorem bind_ne_overflow {α β : Type} {x : Except CompileFailure α} {f : α → Except CompileFailure β}
    (hx : x ≠ .error .overflow) (hf : ∀ a, f a ≠ .error .overflow) : x >>= f ≠ .error .overflow := by
  cases x with
  | error e => exact fun h => hx (by cases h; rfl)
  | ok a => exact hf a

theorem orFail_ne_overflow {α : Type} (x : Except ScriptError α) : orFail x ≠ .error .overflow := by
  cases x <;> simp [orFail]

theorem store_ne_overflow {α : Type} (slots : Array (Option α)) (number : Nat) (a : α) :
    store slots number a ≠ .error .overflow := by
  unfold store
  split <;> simp

theorem placePins_ne_overflow (ps : List Pin) (storage : Layout) (slots : Array (Option ProgramPin)) :
    placePins c storage slots ps ≠ .error .overflow := by
  induction ps generalizing storage slots with
  | nil => simp [placePins]
  | cons p ps ih =>
    exact bind_ne_overflow (orFail_ne_overflow _) fun _ =>
      bind_ne_overflow (store_ne_overflow slots _ _) fun slots => ih _ slots

theorem compileNodes_ne_overflow (ns : List Node) (slots : Array (Option ProgramNode)) :
    compileNodes g c slots ns ≠ .error .overflow := by
  induction ns generalizing slots with
  | nil => simp [compileNodes]
  | cons n ns ih =>
    exact bind_ne_overflow (orFail_ne_overflow _) fun _ =>
      bind_ne_overflow (store_ne_overflow slots _ _) fun slots => ih slots

theorem assemble_ne_overflow : assemble g c s ≠ .error .overflow := by
  refine bind_ne_overflow (placePins_ne_overflow _ _ _) fun _ =>
    bind_ne_overflow (compileNodes_ne_overflow _ _) fun _ => ?_
  cases g.entries.head? with
  | none => exact nofun
  | some entry =>
    cases g.signature.result with
    | none => exact nofun
    | some r => cases hr : c.handleNamed? r.type <;> exact fun h => by simp only [hr] at h; cases h

theorem compile_overflow_iff : compile g c s = .error .overflow ↔ g.Overflows := by
  rw [← @Graph.collect?_eq_none_iff g c s.script]
  unfold compile
  cases g.collect? c s.script with
  | none => simp
  | some es =>
    cases es with
    | cons e es => simp
    | nil =>
      cases hassemble : assemble g c s with
      | ok p => simp
      | error e =>
        cases e with
        | errors es | overrun => simp [CompileFailure.within]
        | overflow => exact absurd hassemble assemble_ne_overflow

theorem compile_overrun_iff : compile g c s = .error .overrun ↔
    ¬ g.Overflows ∧ g.errors c s.script = [] ∧ assemble g c s = .error .overrun := by
  rw [← Graph.overflows_iff, Bool.not_eq_true]
  unfold compile Graph.collect?
  cases g.overflows with
  | true => simp
  | false =>
    cases g.errors c s.script with
    | cons e es => simp
    | nil =>
      cases assemble g c s with
      | ok p => simp
      | error e => cases e <;> simp [CompileFailure.within]

theorem assemble_overruns_iff (h : ∀ n ∈ g.liveNodes, g.NodeChecked c n) :
    assemble g c s = .error .overrun ↔ g.Overruns c := by
  rw [assemble_overrun_iff, placePins_overrun_iff, exists_placePins_iff, Array.size_replicate,
    Graph.Overruns]
  have hnodes := compileNodes_cases (fun n hn => exists_compileNode (h n hn))
    (Array.replicate g.nodes.size none)
  rw [Array.size_replicate] at hnodes
  refine or_congr_right' fun hpins => ?_
  rcases hnodes with ⟨hall, r, hr⟩ | ⟨hout, hr⟩
  · rw [hr]
    refine ⟨fun ⟨_, h⟩ => (by cases h), fun ⟨_, n, hn, hout⟩ => absurd (hall n hn) hout⟩
  · refine ⟨fun ⟨⟨hholds, _⟩, _⟩ => ⟨hholds, hout⟩,
      fun ⟨hholds, _⟩ => ⟨⟨hholds, fun p hp => ?_⟩, hr⟩⟩
    -- A pin with a bad number would have ended the storing of pins.
    by_contra hbad
    obtain ⟨before, after, hlive⟩ := List.append_of_mem hp
    have hsplit : g.livePins = before ++ [p] ++ after := by rw [hlive]; simp
    exact hpins ⟨before, p, ⟨after, hsplit.symm⟩, .of_append (hsplit ▸ hholds), hbad⟩

theorem inSlots_of_compileNodes {ns : List Node} {slots slots' : Array (Option ProgramNode)}
    (h : compileNodes g c slots ns = .ok slots') : ∀ n ∈ ns, InSlots slots.size n.id.val := by
  induction ns generalizing slots with
  | nil => exact fun _ hn => nomatch hn
  | cons n ns ih =>
    obtain ⟨pn, -, h⟩ := bind_eq_ok_iff.mp h
    obtain ⟨slots₁, hs, h⟩ := bind_eq_ok_iff.mp h
    obtain ⟨hin, rfl⟩ := store_eq_ok_iff.mp hs
    exact List.forall_mem_cons.mpr ⟨hin, size_setSlot slots _ _ ▸ ih h⟩

theorem isSome_slot?_connect {slots : Array (Option ProgramPin)} {l : Link} {number : Nat} :
    (slot? (connect g slots l) number).isSome = true ↔ (slot? slots number).isSome = true := by
  unfold connect
  split
  · cases hs : slot? slots l.output.val with
    | none => rfl
    | some p => exact isSome_slot?_setSlot_iff hs
  · cases hs : slot? slots l.input.val with
    | none => rfl
    | some p => exact isSome_slot?_setSlot_iff hs

theorem isSome_slot?_connectAll (ls : List Link) {slots : Array (Option ProgramPin)} {number : Nat} :
    (slot? (ls.foldl (connect g) slots) number).isSome = true ↔
      (slot? slots number).isSome = true := by
  induction ls generalizing slots with
  | nil => rfl
  | cons l ls ih => exact ih.trans isSome_slot?_connect

theorem filled_of_placePins {ps : List Pin} {size : Nat} {storage storage' : Layout}
    {slots : Array (Option ProgramPin)}
    (h : placePins c storage (Array.replicate size none) ps = .ok (storage', slots)) (k : Nat) :
    (slot? slots k).isSome = true ↔ k ∈ ps.map (·.id.val) := by
  obtain ⟨-, hin⟩ := exists_placePins_iff.mp ⟨_, h⟩
  obtain ⟨-, hfrom, hto⟩ := placePins_spec h
  rw [List.mem_map]
  constructor
  · intro hk
    obtain ⟨pp, hpp⟩ := Option.isSome_iff_exists.mp hk
    rcases hfrom k pp hpp with hold | ⟨q, hq, hid, -⟩
    · cases (slot?_replicate size).symm.trans hold
    · exact ⟨q, hq, hid⟩
  · rintro ⟨q, hq, rfl⟩
    exact hto _ (.inr ⟨(hin q hq).1, (hin q hq).2, q, hq, rfl⟩)

theorem filled_of_compileNodes {ns : List Node} {size : Nat} {slots : Array (Option ProgramNode)}
    (h : compileNodes g c (Array.replicate size none) ns = .ok slots) (k : Nat) :
    (slot? slots k).isSome = true ↔ k ∈ ns.map (·.id.val) := by
  have hin := inSlots_of_compileNodes h
  obtain ⟨hfrom, hto⟩ := compileNodes_spec h
  rw [List.mem_map]
  constructor
  · intro hk
    obtain ⟨pn, hpn⟩ := Option.isSome_iff_exists.mp hk
    rcases hfrom k pn hpn with hold | ⟨n, hn, hid, -⟩
    · cases (slot?_replicate size).symm.trans hold
    · exact ⟨n, hn, hid⟩
  · rintro ⟨n, hn, rfl⟩
    exact hto _ (.inr ⟨(hin n hn).1, (hin n hn).2, n, hn, rfl⟩)

theorem filled_of_compile {p : Program} (h : compile g c s = .ok p) :
    (∀ k, (slot? p.pins k).isSome = true ↔ k ∈ g.livePins.map (·.id.val)) ∧
      ∀ k, (slot? p.nodes k).isSome = true ↔ k ∈ g.liveNodes.map (·.id.val) := by
  have hassembles := assembles_of_assemble (assemble_of_compile h)
  obtain ⟨storage, slots, hplace, hpins, -⟩ := hassembles.pins
  rw [hpins]
  exact ⟨fun k => (isSome_slot?_connectAll g.liveLinks).trans (filled_of_placePins hplace k),
    filled_of_compileNodes hassembles.nodes⟩

/-- Where every slot holds its own number, no number leads out of the slots. -/
theorem not_overruns_of_slotted (h : g.Slotted) (c : Catalogue) : ¬ g.Overruns c := by
  rintro (⟨ps, p, hstart, -, hout⟩ | ⟨-, n, hn, hout⟩)
  · have hlive := mem_live_iff.mp (hstart.subset (List.mem_append_right ps List.mem_cons_self))
    obtain ⟨number, hp⟩ := hlive
    have hid := h.pin_id ⟨number⟩ p hp
    exact hout (hid ▸ slot?_bound hp)
  · obtain ⟨number, hn⟩ := mem_live_iff.mp hn
    have hid := h.node_id ⟨number⟩ n hn
    exact hout (hid ▸ slot?_bound hn)

/-- Collecting the errors of any graph, and compiling it, gives an answer or breaks off. Either overflows exactly
when the checks look up the pins of a node whose range leaves 32 bits, and compiling leaves the slots exactly when
there is nothing to report and a number leads out of them. Where nothing is reported, every range lies within the
pins, so only a graph with 2^32 - 1 pins can overflow. A program has a pin and a node for each of the graph's
exactly if no number comes twice. Where every slot holds its own number, all is stored. -/
theorem compile_breaks_off_iff (g : Graph) (c : Catalogue) (s : Setting) :
    (g.collect? c s.script = none ↔ g.Overflows) ∧
    (compile g c s = .error .overflow ↔ g.Overflows) ∧
    (compile g c s = .error .overrun ↔ ¬ g.Overflows ∧ g.errors c s.script = [] ∧ g.Overruns c) ∧
    (g.errors c s.script = [] → (∀ n ∈ g.liveNodes,
      0 < n.firstPin.val ∧ n.firstPin.val + n.pinCount ≤ g.pins.size + 1) ∧ (g.Numbered → ¬ g.Overflows)) ∧
    (∀ p, compile g c s = .ok p →
      ((live p.pins).length = g.livePins.length ↔ (g.livePins.map (·.id.val)).Nodup) ∧
      ((live p.nodes).length = g.liveNodes.length ↔ (g.liveNodes.map (·.id.val)).Nodup)) ∧
    (g.Slotted → ¬ g.Overruns c ∧ (g.livePins.map (·.id.val)).Nodup ∧
      (g.liveNodes.map (·.id.val)).Nodup) := by
  have hchecked : g.errors c s.script = [] → ∀ n ∈ g.liveNodes, g.NodeChecked c n := fun h =>
    (Graph.findings_eq_nil_iff.mp (List.map_eq_nil_iff.mp h)).2.1
  have hrange : g.errors c s.script = [] → ∀ n ∈ g.liveNodes,
      0 < n.firstPin.val ∧ n.firstPin.val + n.pinCount ≤ g.pins.size + 1 := by
    intro h n hn
    have hn := hchecked h n hn
    have hfirst := hn.first
    have hlast := hn.last
    omega
  refine ⟨Graph.collect?_eq_none_iff, compile_overflow_iff, ?_, fun h => ⟨hrange h, ?_⟩, fun p hp => ?_,
    fun h => ⟨?_, nodup_live h.pin, nodup_live h.node⟩⟩
  · rw [compile_overrun_iff]
    exact and_congr_right fun _ => and_congr_right fun h => assemble_overruns_iff (hchecked h)
  · rintro hnumbered ⟨n, hasks, hover⟩
    have hn := (hrange h n hasks.live).2
    unfold Graph.Numbered at hnumbered
    omega
  · obtain ⟨hpins, hnodes⟩ := filled_of_compile hp
    have hp := length_live_eq_iff hpins
    have hn := length_live_eq_iff hnodes
    rw [List.length_map] at hp hn
    exact ⟨hp, hn⟩
  · exact not_overruns_of_slotted h c

end Program

namespace Graph

/-- A function whose only node is its entry, with a second live pin in the second slot that belongs to
no range and has a number of its own choice. -/
def strayGraph (number : Nat) : Graph where
  name := "Stray"
  nodes := #[some { id := ⟨1⟩, kind := .entry, firstPin := ⟨1⟩, pinCount := 1 }]
  pins := #[some { id := ⟨1⟩, node := ⟨1⟩, direction := .output, name := "Then", type := .flow },
    some { id := ⟨number⟩, node := ⟨1⟩, direction := .input, name := "Stray", type := .flow }]

/-- A function whose entry has the last pin number for its one pin. -/
def loftyGraph : Graph where
  name := "Lofty"
  nodes := #[some { id := ⟨1⟩, kind := .entry, firstPin := ⟨4294967295⟩, pinCount := 1 }]

theorem not_overflows_strayGraph (number : Nat) : ¬ (strayGraph number).Overflows := by
  rintro ⟨n, hasks, hover⟩
  cases List.mem_singleton.mp hasks.live
  exact absurd hover (by decide)

theorem overflows_loftyGraph : loftyGraph.Overflows := by
  have hentries : loftyGraph.entries =
      [{ id := ⟨1⟩, kind := .entry, firstPin := ⟨4294967295⟩, pinCount := 1 }] := rfl
  exact ⟨_, .reached (hentries ▸ List.mem_singleton_self _) .refl rfl, by decide⟩

end Graph

/-- Nothing is reported of a stray pin, and compiling breaks off at it. A range that ends at the last pin number
overflows. -/
theorem Program.compile_strayGraph :
    (Graph.strayGraph 1000).errors {} none = [] ∧
      Program.compile (Graph.strayGraph 1000) {} {} = .error .overrun ∧
      Graph.loftyGraph.collect? {} none = none ∧
      Program.compile Graph.loftyGraph {} {} = .error .overflow := by
  have herrors : (Graph.strayGraph 1000).errors {} none = [] := rfl
  obtain ⟨hcollect, hoverflow, -⟩ := Program.compile_breaks_off_iff Graph.loftyGraph {} {}
  refine ⟨herrors, (Program.compile_breaks_off_iff _ {} {}).2.2.1.mpr
    ⟨Graph.not_overflows_strayGraph 1000, herrors, .inl ?_⟩, hcollect.mpr Graph.overflows_loftyGraph,
    hoverflow.mpr Graph.overflows_loftyGraph⟩
  refine ⟨[_], _, List.prefix_refl _, ⟨?_, rfl⟩, ?_⟩
  · intro p hp type htype
    rcases List.mem_cons.mp hp with rfl | hp
    · cases htype
    · cases List.mem_singleton.mp hp
      cases htype
  · exact fun h => absurd h.2 (by decide)

end Flowscript
