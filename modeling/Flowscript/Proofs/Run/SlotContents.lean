import Flowscript.Proofs.Run.SlotStamps
import Flowscript.Proofs.Run.UncachedEvaluation

/-! # What slots hold during a statement

A slot that was filled in this statement holds what its pin is meant to hold: a null pointer, a value
that looks as it is meant to, or a reference to a datum that is anchored. The datum lies outside of the
storage that expressions fill, or in the storage of a slot that was filled in this statement, too. While
a slot is filled anew, nothing is known of it; nor of data in it, which are back as soon as it is filled.
-/
namespace Flowscript

namespace Frame

variable {f : Frame} {id other : PinId} {state : SlotState}

@[simp] theorem base_set (f : Frame) (id : PinId) (state : SlotState) :
    (f.set id state).base = f.base := by
  unfold set
  split <;> rfl

theorem storage?_congr {f' : Frame} {p : Program} (hfirst : f'.firstBlock = f.firstBlock)
    (hbase : f'.base = f.base) : f'.storage? p id = f.storage? p id := by
  unfold storage?
  rw [hfirst, hbase]

end Frame

namespace Juncture

variable (K : Juncture)

abbrev kind (id : PinId) : Option TypeId := K.program.typeOf K.scope.context.catalogue id

noncomputable abbrev holding (id : PinId) : Option Content := K.content K.sense id

/-- A datum lies outside and was there all along, or it lies as data of a type in the storage of a pin
that holds a value of its own and was filled in this statement, or is being filled. -/
def Anchored (f : Frame) (skip : Option PinId) (type : TypeId) (d : Datum) : Prop :=
  K.start.Outside K.scope d.place ∧ d.held = K.memory.block d.place.block ∨
    ∃ r slot root, K.program.Volatile r ∧ (Run.isFresh f r = true ∨ skip = some r) ∧
      K.holding r = some (.own d.held) ∧ K.slot r = some slot ∧ d.place.block = slot.block ∧
        K.kind r = some root ∧ K.notion.lies root d.place.offset type

/-- The storage of a pin holds a value as it is meant to. -/
def Owns (m : Memory) (id : PinId) : Prop :=
  ∃ held slot root, K.holding id = some (.own held) ∧ K.slot id = some slot ∧ K.kind id = some root ∧
    K.notion.data m root slot = K.notion.look root held 0

def Holds (m : Memory) (f : Frame) (skip : Option PinId) (id : PinId) : SlotState → Prop
  | .empty => True
  | .owned => K.Owns m id
  | .borrowed place => ∃ d root, K.holding id = some (.elsewhere d) ∧ d.place = place ∧
      K.kind id = some root ∧ K.Anchored f skip root d
  | .null => K.holding id = some .null

/-- The statement has changed nothing but slots and storage that expressions fill, and slots that it has
filled are current, except for one that is being filled. -/
structure During (skip : Option PinId) (a : Activation) : Prop where
  beside : K.start.machine.Beside (K.start.vol K.scope) a.machine
  firstBlock : a.frame.firstBlock = K.start.frame.firstBlock
  base : a.frame.base = K.start.frame.base
  size : a.frame.slots.size = K.start.frame.slots.size
  settled : ∀ id, K.program.Settled id → a.frame.state id = K.start.frame.state id
  current : ∀ id, K.program.Volatile id → Run.isFresh a.frame id = true → skip ≠ some id →
    K.Holds a.machine.memory a.frame skip id (a.frame.state id)

/-- From one state of a statement to a later one, no slot is emptied except for one that is being filled,
and storage is written only where expressions fill it. -/
structure Onward (skip : Option PinId) (a b : Activation) : Prop where
  beside : a.machine.Beside (K.start.vol K.scope) b.machine
  fresh : ∀ id, K.program.Volatile id → Run.isFresh a.frame id = true →
    Run.isFresh b.frame id = true ∨ skip = some id

/-- What an input is given is what it is meant to be given. -/
def Delivered (f : Frame) (id : PinId) : Option Place → Prop
  | none => K.sense id = some none
  | some place => ∃ d root, K.sense id = some (some d) ∧ d.place = place ∧ K.kind id = some root ∧
      K.Anchored f none root d

variable {K} {f f' : Frame} {skip skip' : Option PinId} {type part : TypeId} {d d' : Datum} {id r : PinId}
  {a b c : Activation} {m : Machine} {slot : Place} {state : SlotState}

namespace Anchored

theorem mono (h : K.Anchored f skip type d)
    (hfresh : ∀ r, K.program.Volatile r → Run.isFresh f r = true ∨ skip = some r →
      Run.isFresh f' r = true ∨ skip' = some r) : K.Anchored f' skip' type d := by
  rcases h with hout | ⟨r, slot, root, hr, hfilled, hrest⟩
  · exact .inl hout
  · exact .inr ⟨r, slot, root, hr, hfresh r hr hfilled, hrest⟩

theorem within (h : K.Anchored f skip type d) {place : Place} {k : Nat}
    (hblock : place.block = d.place.block) (hoffset : place.offset = d.place.offset + k)
    (hpart : ∀ whole start, K.notion.lies whole start type → K.notion.lies whole (start + k) part) :
    K.Anchored f skip part ⟨place, d.held⟩ := by
  rcases h with ⟨hout, hheld⟩ | ⟨r, slot, root, hr, hfilled, hhold, hslot, hin, hkind, hlies⟩
  · refine .inl ⟨?_, ?_⟩
    · rw [Activation.Outside, hblock]
      exact hout
    · rw [hblock]
      exact hheld
  · refine .inr ⟨r, slot, root, hr, hfilled, hhold, hslot, hblock.trans hin, hkind, ?_⟩
    rw [hoffset]
    exact hpart root _ hlies

theorem cast (h : K.Anchored f skip type d) (hcast : Program.Casts K.notion.lies type part) :
    K.Anchored f skip part d :=
  h.within (k := 0) rfl rfl hcast

theorem held_eq (h : K.Anchored f skip type d) (h' : K.Anchored f' skip' part d')
    (hblock : d.place.block = d'.place.block) : d.held = d'.held := by
  rcases h with ⟨hout, hheld⟩ | ⟨r, slot, root, hr, -, hhold, hslot, hin, -⟩
  · rcases h' with ⟨-, hheld'⟩ | ⟨r, slot, root, hr, -, -, hslot, hin, -⟩
    · rw [hheld, hheld', hblock]
    · exact absurd ((hblock.trans hin).symm ▸ Ready.vol_of_slot hr hslot) hout.2
  · rcases h' with ⟨hout, -⟩ | ⟨r', slot', root', -, -, hhold', hslot', hin', -⟩
    · exact absurd ((hblock.symm.trans hin).symm ▸ Ready.vol_of_slot hr hslot) hout.2
    · obtain rfl := slot_inj hslot hslot' (hin.symm.trans (hblock.trans hin'))
      exact Content.own.inj (Option.some.inj (hhold.symm.trans hhold'))

end Anchored

theorem Owns.congr {m m' : Memory} (h : K.Owns m id)
    (hblock : ∀ slot, K.slot id = some slot → m'.block slot.block = m.block slot.block) :
    K.Owns m' id := by
  obtain ⟨held, slot, root, hhold, hslot, hkind, hdata⟩ := h
  refine ⟨held, slot, root, hhold, hslot, hkind, ?_⟩
  rw [← hdata, Notion.data, Notion.data, hblock slot hslot]

theorem Holds.mono {m m' : Memory} (h : K.Holds m f skip id state)
    (hblock : ∀ slot, K.slot id = some slot → m'.block slot.block = m.block slot.block)
    (hfresh : ∀ r, K.program.Volatile r → Run.isFresh f r = true ∨ skip = some r →
      Run.isFresh f' r = true ∨ skip' = some r) : K.Holds m' f' skip' id state := by
  cases state with
  | empty => trivial
  | owned => exact Owns.congr h hblock
  | borrowed place =>
    obtain ⟨d, root, hhold, hplace, hkind, hanchored⟩ := h
    exact ⟨d, root, hhold, hplace, hkind, hanchored.mono hfresh⟩
  | null => exact h

namespace During

theorem storage? (h : K.During skip a) (id : PinId) : a.frame.storage? K.program id = K.slot id :=
  Frame.storage?_congr h.firstBlock h.base

theorem mem_ids (h : K.During skip a) (hK : K.Ready) {q : ProgramPin} (hq : K.program.pin? id = some q) :
    id ∈ a.frame.ids := Frame.mem_ids_of_pin? (h.size.trans hK.size) hq

theorem machine (h : K.During skip a) (hK : K.Ready) {own : Nat → Prop} (hm : a.machine.Beside own m)
    (hown : ∀ b, own b → K.memory.next ≤ b ∨ ∃ r slot, skip = some r ∧ K.program.Volatile r ∧
      K.slot r = some slot ∧ slot.block = b) : K.During skip ⟨a.frame, m⟩ := by
  refine { h with beside := h.beside.trans hm fun b hb ho => ?_, current := fun id hid hfresh hne => ?_ }
  · rcases hown b ho with hnew | ⟨r, slot, -, hr, hslot, rfl⟩
    · exact absurd hb (Nat.not_lt.mpr hnew)
    · exact Ready.vol_of_slot hr hslot
  · refine (h.current id hid hfresh hne).mono (fun slot hslot => ?_) fun _ _ h => h
    have hlt := hK.slot_lt hslot
    refine hm.block _ (hlt.trans_le h.beside.next) fun ho => ?_
    rcases hown _ ho with hnew | ⟨r, slot', hskip, -, hslot', hblock⟩
    · exact absurd hlt (Nat.not_lt.mpr hnew)
    · exact hne (slot_inj hslot' hslot hblock ▸ hskip)

theorem still (h : K.During skip a) (hK : K.Ready) (hm : a.machine.Beside (fun _ => False) m) :
    K.During skip ⟨a.frame, m⟩ := h.machine hK hm fun _ => False.elim

/-- Of a slot that is being filled nothing has to be known. -/
theorem weaken (h : K.During skip a) (hskip : ∀ r, skip = some r → r = id) : K.During (some id) a :=
  { h with
    current := fun _ ho hfresh hne => (h.current _ ho hfresh fun hs => hne (hskip _ hs ▸ rfl)).mono
      (fun _ _ => rfl) fun r _ hr => hr.imp_right fun hs => hskip r hs ▸ rfl }

theorem release (h : K.During skip a) (hid : K.program.Volatile id)
    (hskip : ∀ r, skip = some r → r = id) :
    K.During (some id) ⟨a.frame.set id .empty, a.machine⟩ where
  beside := h.beside
  firstBlock := (Frame.firstBlock_set _ _ _).trans h.firstBlock
  base := (Frame.base_set _ _ _).trans h.base
  size := (Frame.size_slots_set _ _ _).trans h.size
  settled o ho := by
    have hne : o ≠ id := fun he => hid.not_settled (he ▸ ho)
    rw [Frame.state_set_of_ne hne, h.settled o ho]
  current o ho hfresh hne := by
    have hne : o ≠ id := fun he => hne (he ▸ rfl)
    rw [Frame.isFresh_set_of_ne hne] at hfresh
    rw [Frame.state_set_of_ne hne]
    refine (h.current o ho hfresh fun hs => hne (hskip o hs)).mono (fun _ _ => rfl) fun r _ hr => ?_
    by_cases he : r = id
    · exact .inr (he ▸ rfl)
    · rw [Frame.isFresh_set_of_ne he]
      exact hr.imp_right fun hs => absurd (hskip r hs) he

theorem fill (h : K.During (some id) a) (hK : K.Ready) (hid : K.program.Volatile id)
    (hstate : state ≠ .empty)
    (hholds : K.Holds a.machine.memory a.frame (some id) id state) :
    K.During none ⟨a.frame.set id state, a.machine⟩ := by
  have ⟨q, _, hq, _⟩ := hid
  have hself : Run.isFresh (a.frame.set id state) id = true := by
    rw [Frame.isFresh_set_self (h.mem_ids hK hq)]
    exact bne_iff_ne.mpr hstate
  have hfresh : ∀ r, K.program.Volatile r → Run.isFresh a.frame r = true ∨ some id = some r →
      Run.isFresh (a.frame.set id state) r = true ∨ none = some r := by
    intro r _ hr
    left
    by_cases he : r = id
    · exact he ▸ hself
    · rw [Frame.isFresh_set_of_ne he]
      exact hr.resolve_right fun hs => he (Option.some.inj hs).symm
  refine ⟨h.beside, (Frame.firstBlock_set _ _ _).trans h.firstBlock, (Frame.base_set _ _ _).trans h.base,
    (Frame.size_slots_set _ _ _).trans h.size, fun o ho => ?_, fun o ho hfilled _ => ?_⟩
  · have hne : o ≠ id := fun he => hid.not_settled (he ▸ ho)
    rw [Frame.state_set_of_ne hne, h.settled o ho]
  · by_cases he : o = id
    · subst he
      rw [Frame.state_set_self (h.mem_ids hK hq)]
      exact hholds.mono (fun _ _ => rfl) hfresh
    · rw [Frame.isFresh_set_of_ne he] at hfilled
      rw [Frame.state_set_of_ne he]
      exact (h.current o ho hfilled fun hs => he (Option.some.inj hs).symm).mono (fun _ _ => rfl) hfresh

theorem data (h : K.During none a) (hd : K.Anchored a.frame none type d) :
    K.notion.data a.machine.memory type d.place = K.notion.look type d.held d.place.offset := by
  rcases hd with ⟨⟨hlt, hout⟩, hheld⟩ | ⟨r, slot, root, hr, hfresh, hhold, hslot, hin, hkind, hlies⟩
  · rw [Notion.data, h.beside.block _ hlt hout, hheld]
  · have hfresh := hfresh.resolve_right (Option.some_ne_none _).symm
    have hcurrent := h.current r hr hfresh (Option.some_ne_none _).symm
    cases hstate : a.frame.state r with
    | empty =>
      rw [Run.isFresh, Frame.isFilled, hstate] at hfresh
      cases hfresh
    | owned =>
      rw [hstate] at hcurrent
      obtain ⟨held, slot', root', hhold', hslot', hkind', hdata⟩ := hcurrent
      rw [hhold] at hhold'
      cases hhold'
      rw [hslot] at hslot'
      cases hslot'
      rw [hkind] at hkind'
      cases hkind'
      rw [Notion.data, (Frame.block_of_storage? hslot).2.1] at hdata
      rw [Notion.data, hin]
      simpa only [Nat.zero_add] using hlies _ _ _ _ hdata
    | borrowed place =>
      rw [hstate] at hcurrent
      obtain ⟨_, _, hhold', -⟩ := hcurrent
      rw [hhold] at hhold'
      cases hhold'
    | null =>
      rw [hstate] at hcurrent
      cases hhold.symm.trans hcurrent

end During

namespace Onward

theorem refl (a : Activation) : K.Onward none a a := ⟨.refl _ _, fun _ _ h => .inl h⟩

theorem trans (h : K.Onward skip a b) (h' : K.Onward skip' b c)
    (hskip : ∀ r, skip = some r → skip' = some r) : K.Onward skip' a c :=
  ⟨h.beside.trans h'.beside fun _ _ ho => ho, fun id hid hfresh =>
    (h.fresh id hid hfresh).elim (h'.fresh id hid) fun hs => .inr (hskip id hs)⟩

/-- The machine may change new blocks, and storage that expressions fill. -/
theorem machine (h : K.Onward skip a b) {own : Nat → Prop} (hm : b.machine.Beside own m)
    (hown : ∀ k, k < a.machine.memory.next → own k → K.start.vol K.scope k) :
    K.Onward skip a ⟨b.frame, m⟩ :=
  ⟨h.beside.trans hm hown, h.fresh⟩

theorem release (h : K.Onward skip a b) (hskip : ∀ r, skip = some r → r = id) :
    K.Onward (some id) a ⟨b.frame.set id .empty, b.machine⟩ := by
  refine ⟨h.beside, fun r hr hfresh => ?_⟩
  by_cases he : r = id
  · exact .inr (he ▸ rfl)
  · rw [Frame.isFresh_set_of_ne he]
    exact (h.fresh r hr hfresh).imp_right fun hs => absurd (hskip r hs) he

theorem fill (h : K.Onward (some id) a b) (hmem : id ∈ b.frame.ids) (hstate : state ≠ .empty) :
    K.Onward none a ⟨b.frame.set id state, b.machine⟩ := by
  refine ⟨h.beside, fun r hr hfresh => .inl ?_⟩
  by_cases he : r = id
  · rw [he, Frame.isFresh_set_self hmem]
    exact bne_iff_ne.mpr hstate
  · rw [Frame.isFresh_set_of_ne he]
    exact (h.fresh r hr hfresh).resolve_right fun hs => he (Option.some.inj hs).symm

theorem anchored (h : K.Onward none a b) (hd : K.Anchored a.frame none type d) :
    K.Anchored b.frame none type d :=
  hd.mono fun r hr hfresh => hfresh.elim (h.fresh r hr) .inr

end Onward

theorem Delivered.of_holds (h : K.During none a) {o : PinId} {root target : TypeId}
    (hkind : K.kind o = some root) (htarget : K.kind id = some target)
    (hcast : Program.Casts K.notion.lies root target)
    (hsense : K.sense id = (K.holding o).map (·.datum (K.slot o))) (ho : K.program.Volatile o)
    (hfresh : Run.isFresh a.frame o = true) :
    K.Delivered a.frame id (a.frame.value? K.program o) := by
  have hcurrent := h.current o ho hfresh (Option.some_ne_none _).symm
  unfold Frame.value?
  cases hstate : a.frame.state o with
  | empty =>
    rw [Run.isFresh, Frame.isFilled, hstate] at hfresh
    cases hfresh
  | owned =>
    rw [hstate] at hcurrent
    obtain ⟨held, slot, root', hhold, hslot, hkind', -⟩ := hcurrent
    rw [hkind] at hkind'
    cases hkind'
    rw [hhold, Option.map_some, Content.datum, hslot, Option.map_some] at hsense
    rw [h.storage?, hslot]
    refine ⟨_, target, hsense, rfl, htarget, Anchored.cast ?_ hcast⟩
    refine .inr ⟨o, slot, root, ho, .inl hfresh, hhold, hslot, rfl, hkind, ?_⟩
    rw [(Frame.block_of_storage? hslot).2.1]
    exact Notion.lies_self root
  | borrowed place =>
    rw [hstate] at hcurrent
    obtain ⟨d, root', hhold, rfl, hkind', hanchored⟩ := hcurrent
    rw [hkind] at hkind'
    cases hkind'
    rw [hhold] at hsense
    exact ⟨d, target, hsense, rfl, htarget, hanchored.cast hcast⟩
  | null =>
    rw [hstate] at hcurrent
    exact hsense.trans (congrArg _ hcurrent)

end Juncture

end Flowscript
