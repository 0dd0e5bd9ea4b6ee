import Mathlib.Data.List.Nodup
import Flowscript.Proofs.Graph.SlotArrays
import Flowscript.Proofs.Machine.LookupOperations
import Flowscript.Proofs.Machine.SettledValues

/-! # What a call answers for

The slots of a frame that hold values are charges of the call, each in a block of its own. Besides, a
call has values in hand: copies that it passes on, and the result. `Activation.Holds` accounts for all
of them; this module says how emptying and filling a slot changes the account.
-/
namespace Flowscript

namespace Frame

def ids (f : Frame) : List PinId := (List.range f.slots.size).map fun i => PinId.mk (i + 1)

/-- The value that a slot holds in its own storage. -/
def held (f : Frame) (c : Catalogue) (p : Program) (id : PinId) : Option Charge :=
  if f.state id = .owned then f.charge? c p id else none

def charges (f : Frame) (c : Catalogue) (p : Program) : List Charge := f.ids.filterMap (f.held c p)

variable {c : Catalogue} {p : Program} {f f' : Frame} {id other : PinId} {state : SlotState}
  {v : Charge}

theorem mem_ids : id ∈ f.ids ↔ id.val ≠ 0 ∧ id.val - 1 < f.slots.size := by
  obtain ⟨n⟩ := id
  simp only [ids, List.mem_map, List.mem_range, PinId.mk.injEq]
  constructor
  · rintro ⟨i, hi, rfl⟩
    omega
  · rintro ⟨hn, hlt⟩
    exact ⟨n - 1, hlt, by omega⟩

theorem mem_ids_of_pin? {q : ProgramPin} (hsize : f.slots.size = p.pins.size) (hq : p.pin? id = some q) :
    id ∈ f.ids := by
  obtain ⟨hlow, hhigh⟩ := slot?_bound hq
  refine mem_ids.mpr ⟨by omega, ?_⟩
  rw [hsize]
  omega

theorem nodup_ids (f : Frame) : f.ids.Nodup := by
  refine List.Nodup.map (fun i j h => ?_) List.nodup_range
  simp only [PinId.mk.injEq] at h
  omega

@[simp] theorem firstBlock_set (f : Frame) (id : PinId) (state : SlotState) :
    (f.set id state).firstBlock = f.firstBlock := by
  unfold set
  split <;> rfl

@[simp] theorem size_slots_set (f : Frame) (id : PinId) (state : SlotState) :
    (f.set id state).slots.size = f.slots.size := by
  unfold set
  split
  · rfl
  · exact Array.size_setIfInBounds

@[simp] theorem ids_set (f : Frame) (id : PinId) (state : SlotState) :
    (f.set id state).ids = f.ids := by
  rw [ids, size_slots_set, ids]

@[simp] theorem charge?_set (f : Frame) (id other : PinId) (state : SlotState) :
    (f.set id state).charge? c p other = f.charge? c p other := by
  unfold set
  split <;> rfl

theorem state_set_self (h : id ∈ f.ids) : (f.set id state).state id = state := by
  obtain ⟨hid, hlt⟩ := mem_ids.mp h
  simp [set, Frame.state, hid, hlt]

theorem state_set_of_ne (h : other ≠ id) : (f.set id state).state other = f.state other := by
  have hval : other.val ≠ id.val := fun he => h (PinId.ext he)
  unfold set Frame.state
  by_cases hid : id.val = 0
  · rw [if_pos hid]
  by_cases hother : other.val = 0
  · rw [if_pos hother, if_pos hother]
  · have hne : id.val - 1 ≠ other.val - 1 := by omega
    simp only [if_neg hid, if_neg hother, Array.getElem?_setIfInBounds_ne hne]

/-- A pin without a slot holds nothing. -/
theorem state_of_not_mem (h : id ∉ f.ids) : f.state id = .empty := by
  unfold Frame.state
  split
  · rfl
  · rename_i hid
    have hle : f.slots.size ≤ id.val - 1 := by
      have := mt mem_ids.mpr h
      omega
    rw [Array.getElem?_eq_none hle]

theorem state_replicate (count firstBlock base mark : Nat) (id : PinId) :
    ({ slots := Array.replicate count {}, firstBlock, base, mark } : Frame).state id = .empty := by
  unfold Frame.state
  split
  · rfl
  · rw [Array.getElem?_replicate]
    by_cases h : id.val - 1 < count
    · rw [if_pos h]
    · rw [if_neg h]

theorem state_set_ne_owned (h : f.state other ≠ .owned) (hs : state ≠ .owned) :
    (f.set id state).state other ≠ .owned := by
  by_cases ho : other = id
  · subst ho
    by_cases hmem : other ∈ f.ids
    · rwa [state_set_self hmem]
    · rw [state_of_not_mem (by rwa [ids_set])]
      simp
  · rwa [state_set_of_ne ho]

theorem state_set_self_ne_owned (hs : state ≠ .owned) : (f.set id state).state id ≠ .owned := by
  by_cases hmem : id ∈ f.ids
  · rwa [state_set_self hmem]
  · rw [state_of_not_mem (by rwa [ids_set])]
    simp

/-- The values that pins hold lie in the blocks of the frame, in the order of the pins. -/
theorem block_of_charge? (h : f.charge? c p id = some v) :
    v.place.block = f.firstBlock + (id.val - 1) ∧ id.val ≠ 0 ∧ id.val - 1 < p.pins.size := by
  unfold charge? at h
  split at h
  · rename_i place type hplace htype
    cases h
    unfold storage? at hplace
    cases hpin : p.pin? id with
    | none =>
      rw [hpin] at hplace
      cases hplace
    | some pin =>
      simp only [hpin] at hplace
      split at hplace
      · cases hplace
        unfold Program.pin? slot? at hpin
        split at hpin
        · cases hpin
        · rename_i hid
          refine ⟨rfl, hid, ?_⟩
          by_contra hlt
          rw [Array.getElem?_eq_none (by omega)] at hpin
          cases hpin
      · cases hplace
  · cases h

theorem held_eq_some : f.held c p id = some v ↔ f.state id = .owned ∧ f.charge? c p id = some v := by
  unfold held
  split <;> simp_all

theorem held_eq_none_of_state (h : f.state id ≠ .owned) : f.held c p id = none := if_neg h

theorem mem_ids_of_held (h : f.held c p id = some v) : id ∈ f.ids := by
  by_contra hmem
  have := (held_eq_some.mp h).1
  rw [state_of_not_mem hmem] at this
  cases this

theorem mem_charges : v ∈ f.charges c p ↔ ∃ id, f.held c p id = some v := by
  simp only [charges, List.mem_filterMap]
  constructor
  · rintro ⟨id, -, h⟩
    exact ⟨id, h⟩
  · rintro ⟨id, h⟩
    exact ⟨id, mem_ids_of_held h, h⟩

theorem block_of_mem_charges (h : v ∈ f.charges c p) :
    f.firstBlock ≤ v.place.block ∧ v.place.block < f.firstBlock + p.pins.size := by
  obtain ⟨id, hv⟩ := mem_charges.mp h
  obtain ⟨hblock, -, hlt⟩ := block_of_charge? (held_eq_some.mp hv).2
  omega

def chargesBut (f : Frame) (c : Catalogue) (p : Program) (id : PinId) : List Charge :=
  (f.ids.erase id).filterMap (f.held c p)

theorem charges_perm (h : id ∈ f.ids) :
    (f.charges c p).Perm ((f.held c p id).toList ++ f.chargesBut c p id) := by
  have hperm := (List.perm_cons_erase h).filterMap (f.held c p)
  rw [List.filterMap_cons] at hperm
  unfold charges chargesBut
  cases hv : f.held c p id with
  | none => simpa [hv] using hperm
  | some v => simpa [hv] using hperm

theorem chargesBut_set (f : Frame) (id : PinId) (state : SlotState) :
    (f.set id state).chargesBut c p id = f.chargesBut c p id := by
  unfold chargesBut
  rw [ids_set]
  refine List.filterMap_congr fun other hother => ?_
  have hne : other ≠ id := ((f.nodup_ids.mem_erase_iff).mp hother).1
  unfold held
  rw [state_set_of_ne hne, charge?_set]

/-- Emptying a slot takes its value from those that the slots hold. -/
theorem charges_release (h : f.held c p id = some v) (hs : state ≠ .owned) :
    (f.charges c p).Perm (v :: (f.set id state).charges c p) := by
  have hmem := mem_ids_of_held h
  have hset := charges_perm (c := c) (p := p) (f := f.set id state) (by rwa [ids_set])
  rw [held_eq_none_of_state (state_set_self_ne_owned hs), chargesBut_set] at hset
  have hall := charges_perm (c := c) (p := p) hmem
  rw [h] at hall
  exact hall.trans (hset.symm.cons v)

theorem charges_fill (hmem : id ∈ f.ids) (hstate : f.state id ≠ .owned)
    (h : f.charge? c p id = some v) :
    ((f.set id .owned).charges c p).Perm (v :: f.charges c p) := by
  have hset := charges_perm (c := c) (p := p) (f := f.set id .owned) (by rwa [ids_set])
  rw [held_eq_some.mpr ⟨state_set_self hmem, by rwa [charge?_set]⟩, chargesBut_set] at hset
  have hall := charges_perm (c := c) (p := p) hmem
  rw [held_eq_none_of_state hstate] at hall
  exact hset.trans (hall.symm.cons v)

theorem charges_set (h : f.held c p id = none) (h' : (f.set id state).held c p id = none) :
    (f.set id state).charges c p = f.charges c p := by
  unfold charges
  rw [ids_set]
  refine List.filterMap_congr fun other _ => ?_
  by_cases ho : other = id
  · rw [ho, h, h']
  · unfold held
    rw [state_set_of_ne ho, charge?_set]

theorem charges_eq_nil (h : ∀ id ∈ f.ids, f.state id ≠ .owned) : f.charges c p = [] :=
  List.filterMap_eq_nil_iff.mpr fun id hid => held_eq_none_of_state (h id hid)

/-- A slot that holds no value has room for one that is not among those held. -/
theorem not_mem_charges (hstate : f.state id ≠ .owned) (h : f.charge? c p id = some v) :
    v ∉ f.charges c p := by
  intro hmem
  obtain ⟨other, hother⟩ := mem_charges.mp hmem
  obtain ⟨ho, hv⟩ := held_eq_some.mp hother
  obtain ⟨hb, hne, -⟩ := block_of_charge? h
  obtain ⟨hb', hne', -⟩ := block_of_charge? hv
  obtain rfl : other = id := PinId.ext (by omega)
  exact hstate ho

theorem held_of_owner? {place : Place} (h : f.owner? p place = some id) :
    ∃ v, f.held c p id = some v := by
  have hfound := List.find?_some h
  simp only [Bool.and_eq_true, beq_iff_eq, Option.any_eq_true] at hfound
  obtain ⟨hstate, storage, hstorage, -⟩ := hfound
  have htype : ∃ type, (p.pin? id).bind (·.type) = some type := by
    unfold storage? at hstorage
    cases hpin : p.pin? id with
    | none =>
      rw [hpin] at hstorage
      cases hstorage
    | some pin =>
      simp only [hpin] at hstorage
      split at hstorage
      · rename_i htype
        exact Option.isSome_iff_exists.mp htype
      · cases hstorage
  obtain ⟨type, htype⟩ := htype
  exact ⟨⟨storage, (c.info type).id⟩, held_eq_some.mpr ⟨hstate, by simp only [charge?, hstorage, htype]⟩⟩

end Frame

/-- What a call has in hand, besides what its slots hold: values, and slots known to hold none. -/
structure Hand where
  values : List Charge := []
  vacant : List PinId := []

/-- What is in care during a call: the values in the slots of its frame, in the blocks from the first
one on; those in hand, in later blocks there is room in; and others, in neither. -/
structure Activation.Holds (sc : Scope) (first : Nat) (faults : List Charge) (room : Nat → Prop)
    (others : List Charge) (hand : Hand) (a : Activation) : Prop where
  size_eq : a.frame.slots.size = sc.program.pins.size
  first_eq : a.frame.firstBlock = first
  behind : ∀ k, room k → first + sc.program.pins.size ≤ k
  apart : ∀ v ∈ others, v.place.block < first ∨ first + sc.program.pins.size ≤ v.place.block
  vacant : ∀ id ∈ hand.vacant, a.frame.state id ≠ .owned
  machine : a.machine.Holds faults room
    (a.frame.charges sc.context.catalogue sc.program ++ others) hand.values

namespace Activation.Holds

variable {sc : Scope} {first : Nat} {faults others values : List Charge} {room : Nat → Prop}
  {hand : Hand} {vacant : List PinId} {a b : Activation} {id : PinId} {state : SlotState}
  {v : Charge}

theorem still (h : a.Holds sc first faults room others hand)
    (hslots : b.frame.slots = a.frame.slots) (hfirst : b.frame.firstBlock = a.frame.firstBlock)
    (hbase : b.frame.base = a.frame.base)
    (hm : b.machine.Holds faults room
      (a.frame.charges sc.context.catalogue sc.program ++ others) values) :
    b.Holds sc first faults room others ⟨values, hand.vacant⟩ := by
  obtain ⟨⟨slots, firstBlock, base, mark, loops, statements⟩, m⟩ := a
  obtain ⟨⟨slots', firstBlock', base', mark', loops', statements'⟩, m'⟩ := b
  dsimp only at hslots hfirst hbase
  subst hslots hfirst hbase
  exact ⟨h.size_eq, h.first_eq, h.behind, h.apart, h.vacant, hm⟩

theorem reslot (h : a.Holds sc first faults room others hand)
    (hframe : b.frame = a.frame.set id state) (hvacant : ∀ id ∈ vacant, b.frame.state id ≠ .owned)
    (hm : b.machine.Holds faults room
      (b.frame.charges sc.context.catalogue sc.program ++ others) values) :
    b.Holds sc first faults room others ⟨values, vacant⟩ := by
  refine ⟨?_, ?_, h.behind, h.apart, hvacant, hm⟩
  · rw [hframe, Frame.size_slots_set]
    exact h.size_eq
  · rw [hframe, Frame.firstBlock_set]
    exact h.first_eq

theorem forget (h : a.Holds sc first faults room others ⟨values, vacant⟩) :
    a.Holds sc first faults room others ⟨values, []⟩ := { h with vacant := List.forall_mem_nil _ }

theorem vacant_set (h : a.Holds sc first faults room others hand) (hs : state ≠ .owned)
    (hframe : b.frame = a.frame.set id state) :
    ∀ other ∈ id :: hand.vacant, b.frame.state other ≠ .owned := by
  rw [hframe]
  exact List.forall_mem_cons.mpr ⟨Frame.state_set_self_ne_owned hs, fun other ho =>
    Frame.state_set_ne_owned (h.vacant other ho) hs⟩

theorem release (h : a.Holds sc first faults room others hand)
    (hheld : a.frame.held sc.context.catalogue sc.program id = some v)
    (hframe : b.frame = a.frame.set id .empty) (hcare : b.machine.care = a.machine.care.lose v)
    (hnext : a.machine.memory.next ≤ b.machine.memory.next) :
    b.Holds sc first faults room others ⟨hand.values, id :: hand.vacant⟩ := by
  have hs : SlotState.empty ≠ .owned := by simp
  refine h.reslot hframe (h.vacant_set hs hframe) ?_
  rw [hframe]
  exact (h.machine.perm ((Frame.charges_release hheld hs).append_right others)).lose hcare hnext

theorem set (h : a.Holds sc first faults room others hand)
    (hheld : a.frame.held sc.context.catalogue sc.program id = none) (hs : state ≠ .owned)
    (hframe : b.frame = a.frame.set id state) (hcare : b.machine.care = a.machine.care)
    (hnext : a.machine.memory.next ≤ b.machine.memory.next) :
    b.Holds sc first faults room others ⟨hand.values, id :: hand.vacant⟩ := by
  refine h.reslot hframe (h.vacant_set hs hframe) ?_
  rw [hframe, Frame.charges_set hheld
    (Frame.held_eq_none_of_state (Frame.state_set_self_ne_owned hs))]
  exact h.machine.still hcare hnext

theorem le_next (h : a.Holds sc first faults room others hand) :
    first + sc.program.pins.size ≤ a.machine.memory.next :=
  h.behind _ (h.machine.beyond _ (Nat.le_refl _))

theorem fill (h : a.Holds sc first faults room others hand) (hid : id ∈ hand.vacant)
    (hv : a.frame.charge? sc.context.catalogue sc.program id = some v)
    (hframe : b.frame = a.frame.set id .owned) (hcare : b.machine.care = a.machine.care.take v)
    (hnext : a.machine.memory.next ≤ b.machine.memory.next) :
    b.Holds sc first faults room others ⟨hand.values, []⟩ := by
  obtain ⟨hblock, hpos, hlt⟩ := Frame.block_of_charge? hv
  rw [h.first_eq] at hblock
  have hmem : id ∈ a.frame.ids := Frame.mem_ids.mpr ⟨hpos, h.size_eq ▸ hlt⟩
  have hstate := h.vacant id hid
  -- The slot's block is the frame's, but no other slot's.
  have hnew : v ∉ hand.values ++ (a.frame.charges sc.context.catalogue sc.program ++ others) := by
    simp only [List.mem_append, not_or]
    refine ⟨fun hm => ?_, Frame.not_mem_charges hstate hv, fun hm => ?_⟩
    · have := h.behind _ (h.machine.inside v hm)
      omega
    · have := h.apart v hm
      omega
  have hknown : v.place.block < a.machine.memory.next := by
    have := h.le_next
    omega
  refine h.reslot hframe (List.forall_mem_nil _) ?_
  rw [hframe]
  have hperm := (Frame.charges_fill hmem hstate hv).symm.append_right others
  exact (h.machine.take hnew hknown hcare hnext).perm hperm

theorem fill_none (h : a.Holds sc first faults room others hand)
    (hheld : a.frame.held sc.context.catalogue sc.program id = none)
    (hv : a.frame.charge? sc.context.catalogue sc.program id = none)
    (hframe : b.frame = a.frame.set id state) (hm : b.machine = a.machine) :
    b.Holds sc first faults room others ⟨hand.values, []⟩ := by
  have hset : (a.frame.set id state).held sc.context.catalogue sc.program id = none := by
    unfold Frame.held
    rw [Frame.charge?_set, hv, ite_self]
  refine h.reslot hframe (List.forall_mem_nil _) ?_
  rw [hframe, Frame.charges_set hheld hset, hm]
  exact h.machine

theorem put (h : a.Holds sc first faults room others ⟨v :: values, vacant⟩) :
    a.Holds sc first faults room (v :: others) ⟨values, vacant⟩ := by
  have hv := h.behind _ (h.machine.inside v List.mem_cons_self)
  exact { h with
    apart := List.forall_mem_cons.mpr ⟨.inr hv, h.apart⟩
    machine := h.machine.put.perm List.perm_middle.symm }

theorem lose (h : a.Holds sc first faults room (v :: others) hand) (hframe : b.frame = a.frame)
    (hcare : b.machine.care = a.machine.care.lose v)
    (hnext : a.machine.memory.next ≤ b.machine.memory.next) :
    b.Holds sc first faults room others hand := by
  have hm := (h.machine.perm List.perm_middle).lose hcare hnext
  rw [← hframe] at hm
  exact ⟨hframe ▸ h.size_eq, hframe ▸ h.first_eq, h.behind,
    fun u hu => h.apart u (List.mem_cons_of_mem v hu), hframe ▸ h.vacant, hm⟩

end Activation.Holds

structure Activation.Spoilt (sc : Scope) (first strays low : Nat) (used : Nat → Prop) (hand : Hand)
    (a : Activation) : Prop where
  size_eq : a.frame.slots.size = sc.program.pins.size
  first_eq : a.frame.firstBlock = first
  frame : ∀ k, first ≤ k → k < first + sc.program.pins.size → used k
  machine : a.machine.Spoilt strays low used hand.values

namespace Activation.Spoilt

variable {sc : Scope} {first strays low low' : Nat} {used used' : Nat → Prop} {hand hand' : Hand}
  {a b : Activation} {id : PinId} {v : Charge}

theorem step (h : a.Spoilt sc first strays low used hand)
    (hsize : b.frame.slots.size = a.frame.slots.size)
    (hfirst : b.frame.firstBlock = a.frame.firstBlock)
    (hm : b.machine.Spoilt strays low' used hand'.values) :
    b.Spoilt sc first strays low' used hand' :=
  ⟨hsize.trans h.size_eq, hfirst.trans h.first_eq, h.frame, hm⟩

theorem mono (h : a.Spoilt sc first strays low used hand) (hlow : low' ≤ low)
    (hused : ∀ k, used' k → used k)
    (hframe : ∀ k, first ≤ k → k < first + sc.program.pins.size → used' k) :
    a.Spoilt sc first strays low' used' hand :=
  { h with frame := hframe, machine := h.machine.mono hlow hused }

theorem used_of_charge? (h : a.Spoilt sc first strays low used hand)
    (hv : a.frame.charge? sc.context.catalogue sc.program id = some v) : used v.place.block := by
  obtain ⟨hblock, -, hlt⟩ := Frame.block_of_charge? hv
  rw [h.first_eq] at hblock
  exact h.frame _ (by omega) (by omega)

end Activation.Spoilt

end Flowscript
