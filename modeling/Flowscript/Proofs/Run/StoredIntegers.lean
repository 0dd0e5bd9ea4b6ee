import Flowscript.Proofs.CollectionLemmas
import Flowscript.Proofs.Run.InputDelivery
import Flowscript.Proofs.Run.RunMoments
import Flowscript.Proofs.Run.SlotStamps

/-! # Integers in slots

A number that was written into a block is read there again, whatever the block held before. So a pin whose
storage was given an integer holds it as long as neither its slot nor its block changes.
-/
namespace Flowscript

namespace Block

variable {b b' source : Block} {o o' start size d n v i : Nat} {bytes : Array UInt8} {prim : Prim} {a : Atom}

theorem le_size_grow (bytes : Array UInt8) (size : Nat) : size ≤ (grow bytes size).size := by
  unfold grow
  split
  · assumption
  · rw [Array.size_append, Array.size_replicate]
    omega

theorem getD_putNumber_of_lt (h : i < o) : (putNumber o n v bytes).getD i 0 = bytes.getD i 0 := by
  induction n generalizing o v bytes with
  | zero => rfl
  | succ n ih => rw [putNumber, ih (Nat.lt_succ_of_lt h), getD_set_of_ne (Nat.ne_of_lt h)]

theorem getD_copyBytes_of_lt (h : i < o) : (copyBytes source start o n bytes).getD i 0 = bytes.getD i 0 := by
  induction n generalizing start o bytes with
  | zero => rfl
  | succ n ih => rw [copyBytes, ih (Nat.lt_succ_of_lt h), getD_set_of_ne (Nat.ne_of_lt h)]

theorem getD_copyBytes (h : o + n ≤ bytes.size) (hd : d < n) :
    (copyBytes source start o n bytes).getD (o + d) 0 = source.byte (start + d) := by
  induction n generalizing start o d bytes with
  | zero => cases hd
  | succ n ih =>
    rw [copyBytes]
    cases d with
    | zero => exact (getD_copyBytes_of_lt (Nat.lt_succ_self o)).trans (getD_set_self (by omega) _)
    | succ d =>
      have hrest : (copyBytes source (start + 1) (o + 1) n (bytes.setIfInBounds o (source.byte start))).getD
          (o + 1 + d) 0 = source.byte (start + 1 + d) :=
        ih (by rw [Array.size_setIfInBounds]; omega) (by omega)
      rwa [Nat.add_assoc, Nat.add_assoc, Nat.add_comm 1 d] at hrest

theorem number_congr (h : ∀ d < n, b.byte (o + d) = b'.byte (o' + d)) : b.number o n = b'.number o' n := by
  induction n generalizing o o' with
  | zero => rfl
  | succ n ih =>
    have hfirst : b.byte o = b'.byte o' := h 0 (Nat.succ_pos n)
    rw [number, number, hfirst, ih fun d hd => ?_]
    have hd := h (d + 1) (Nat.succ_lt_succ hd)
    rwa [Nat.add_comm d 1, ← Nat.add_assoc, ← Nat.add_assoc] at hd

theorem number_putNumber (texts : List (Nat × String)) (h : o + n ≤ bytes.size) :
    number ⟨putNumber o n v bytes, texts⟩ o n = v % 256 ^ n := by
  induction n generalizing o v bytes with
  | zero => rw [number, Nat.pow_zero, Nat.mod_one]
  | succ n ih =>
    have hbyte : byte ⟨putNumber o (n + 1) v bytes, texts⟩ o = UInt8.ofNat v := by
      rw [byte, putNumber, getD_putNumber_of_lt (Nat.lt_succ_self o), getD_set_self (by omega)]
    have hrest : number ⟨putNumber o (n + 1) v bytes, texts⟩ (o + 1) n = v / 256 % 256 ^ n := by
      rw [putNumber, ih (by rw [Array.size_setIfInBounds]; omega)]
    rw [number, hbyte, hrest, UInt8.toNat_ofNat']
    exact ((congrArg (v % ·) Nat.pow_succ').trans Nat.mod_mul).symm

theorem read_eq_number (hprim : prim ≠ .text) : b.read o prim = prim.ofBits (b.number o prim.layout.size) := by
  unfold read
  split
  · exact absurd rfl hprim
  · rfl

theorem read_write (hprim : prim ≠ .text) (ha : ∀ s, a ≠ .text s) :
    (b.write o prim a).read o prim = prim.ofBits (prim.bits a % 256 ^ prim.layout.size) := by
  rw [read_eq_number hprim]
  unfold write
  split
  · exact absurd rfl (ha _)
  · rw [number_putNumber _ (le_size_grow _ _)]

theorem read_copy (hprim : prim ≠ .text) (h : d + prim.layout.size ≤ size) :
    (b.copy source start o size).read (o + d) prim = source.read (start + d) prim := by
  rw [read_eq_number hprim, read_eq_number hprim]
  refine congrArg prim.ofBits (number_congr fun k hk => ?_)
  rw [copy, byte, Nat.add_assoc, Nat.add_assoc, getD_copyBytes (le_size_grow _ _) (by omega)]

end Block

theorem IntKind.contains_wrap (kind : IntKind) (n : Int) : kind.contains (kind.wrap n) = true := by
  have hpos : 0 < kind.modulus := by cases kind <;> decide
  have heven : 2 * (kind.modulus / 2) = kind.modulus := by cases kind <;> decide
  have hlo := Int.emod_nonneg n hpos.ne'
  have hhi := Int.emod_lt_of_pos n hpos
  rw [contains, Bool.and_eq_true, decide_eq_true_eq, decide_eq_true_eq, least, greatest, wrap]
  cases kind.signed with
  | false =>
    simp only [Bool.false_and, Bool.false_eq_true, if_false]
    omega
  | true =>
    simp only [Bool.true_and, decide_eq_true_eq, if_true]
    split <;> omega

theorem Prim.ofBits_bits_int {kind : IntKind} {k : Int} (h : kind.contains k = true) :
    (Prim.int kind).ofBits ((Prim.int kind).bits (.int k) % 256 ^ (Prim.int kind).layout.size) = .int k := by
  have hsize : (256 ^ (Prim.int kind).layout.size : Nat) = kind.modulus.toNat := by cases kind <;> rfl
  have hpos : 0 < kind.modulus := by cases kind <;> decide
  have hlow : (Prim.int kind).bits (.int k) % kind.modulus.toNat = (k % kind.modulus).toNat := by
    refine Nat.mod_eq_of_lt ((Int.toNat_lt_toNat hpos).mpr ?_)
    exact Int.emod_lt_of_pos k hpos
  rw [hsize, hlow, Prim.ofBits, Int.toNat_of_nonneg (Int.emod_nonneg k hpos.ne')]
  refine congrArg Atom.int ?_
  rw [IntKind.contains, Bool.and_eq_true, decide_eq_true_eq, decide_eq_true_eq] at h
  unfold IntKind.wrap
  cases kind <;> simp [IntKind.least, IntKind.greatest, IntKind.signed, IntKind.modulus] at h ⊢ <;> omega

theorem Place.shift_zero (p : Place) : p.shift 0 = p := by
  obtain ⟨block, offset, address⟩ := p
  cases address <;> rfl

namespace Memory

variable {m : Memory} {place target : Place} {prim : Prim} {a : Atom} {size : Nat}

theorem block_modifyBlock (m : Memory) (b : Nat) (f : Block → Block) :
    (m.modifyBlock b f).block b = f (m.block b) := by
  simp [block, modifyBlock, Std.HashMap.getD_eq_getD_getElem?]

theorem read_write (hprim : prim ≠ .text) (ha : ∀ s, a ≠ .text s) :
    (m.write place prim a).read place prim = prim.ofBits (prim.bits a % 256 ^ prim.layout.size) := by
  rw [read, write, block_modifyBlock]
  exact Block.read_write hprim ha

theorem read_transfer (hprim : prim ≠ .text) (h : prim.layout.size ≤ size) :
    (m.transfer place target size).read target prim = m.read place prim := by
  rw [read, transfer, block_modifyBlock]
  exact Block.read_copy (d := 0) hprim (by omega)

theorem read_write_of_ne (m : Memory) (prim prim' : Prim) (a : Atom) (h : place.block ≠ target.block) :
    (m.write target prim a).read place prim' = m.read place prim' :=
  congrArg (Block.read · place.offset prim') (block_write_of_ne m prim a h.symm)

theorem read_write_int (m : Memory) (place : Place) {kind : IntKind} {k : Int} (h : kind.contains k = true) :
    (m.write place (.int kind) (.int k)).read place (.int kind) = .int k := by
  have hprim : Prim.int kind ≠ .text := fun h => by cases h
  have hatom : ∀ s, Atom.int k ≠ .text s := fun s h => by cases h
  rw [read_write hprim hatom]
  exact Prim.ofBits_bits_int h

end Memory

def Activation.Stores (p : Program) (id : PinId) (k : Int) (a : Activation) : Prop :=
  a.frame.state id = .owned ∧ a.int? p id = some k

namespace Activation.Stores

variable {p : Program} {id other : PinId} {k : Int} {a b : Activation}

theorem mem_ids (h : a.Stores p id k) : id ∈ a.frame.ids := by
  by_contra hmem
  have hstate := h.1
  rw [Frame.state_of_not_mem hmem] at hstate
  cases hstate

theorem congr (h : a.Stores p id k) (hstate : b.frame.state id = a.frame.state id)
    (hstorage : b.frame.storage? p id = a.frame.storage? p id)
    (hblock : ∀ place, a.frame.storage? p id = some place →
      b.machine.memory.block place.block = a.machine.memory.block place.block) : b.Stores p id k := by
  obtain ⟨howned, hint⟩ := h
  refine ⟨hstate.trans howned, ?_⟩
  unfold Activation.int? Frame.value? at hint ⊢
  simp only [howned, hstate, hstorage] at hint ⊢
  cases hplace : a.frame.storage? p id with
  | none =>
    rw [hplace] at hint
    cases hint
  | some place =>
    simp only [hplace, Option.bind_some, Memory.read] at hint ⊢
    rwa [hblock place hplace]

/-- Where neither the frame nor the memory changes, neither does what pins hold. -/
theorem of_eq (h : a.Stores p id k) (hframe : b.frame = a.frame)
    (hmemory : b.machine.memory = a.machine.memory) : b.Stores p id k := by
  refine h.congr (by rw [hframe]) (by rw [hframe]) fun place _ => by rw [hmemory]

theorem of_storage {place : Place} (hmem : id ∈ a.frame.ids) (hplace : a.frame.storage? p id = some place)
    (hframe : b.frame = a.frame.set id .owned)
    (hread : b.machine.memory.read place (.int .i32) = .int k) : b.Stores p id k := by
  have hstate : b.frame.state id = .owned := by rw [hframe, Frame.state_set_self hmem]
  refine ⟨hstate, ?_⟩
  have hvalue : b.frame.value? p id = some place := by
    rw [Frame.value?, hstate, hframe]
    exact (Frame.storage?_set ..).trans hplace
  rw [Activation.int?, hvalue, Option.bind_some, hread]

end Activation.Stores

theorem Frame.block_ne_of_storage? {f : Frame} {p : Program} {id other : PinId} {place place' : Place}
    (hne : id ≠ other) (h : f.storage? p id = some place) (h' : f.storage? p other = some place') :
    place.block ≠ place'.block := by
  have hblock : ∀ {id : PinId} {place : Place}, f.storage? p id = some place →
      0 < id.val ∧ place.block = f.firstBlock + (id.val - 1) := by
    intro id place h
    unfold storage? at h
    split at h
    · rename_i q hq
      split at h
      · cases h
        exact ⟨(slot?_bound hq).1, rfl⟩
      · cases h
    · cases h
  obtain ⟨hpos, hfirst⟩ := hblock h
  obtain ⟨hpos', hfirst'⟩ := hblock h'
  have hval : id.val ≠ other.val := fun he => hne (PinId.ext he)
  omega

theorem Activation.Stores.of_write {p : Program} {id other : PinId} {k : Int} {a b : Activation} {place : Place}
    {prim : Prim} {datum : Atom} {state state' : SlotState} (h : a.Stores p other k) (hne : other ≠ id)
    (hplace : a.frame.storage? p id = some place) (hframe : b.frame = (a.frame.set id state).set id state')
    (hmemory : b.machine.memory = a.machine.memory.write place prim datum) : b.Stores p other k := by
  refine h.congr ?_ ?_ fun place' hplace' => ?_
  · rw [hframe, Frame.state_set_of_ne hne, Frame.state_set_of_ne hne]
  · rw [hframe, Frame.storage?_set, Frame.storage?_set]
  · rw [hmemory, Memory.block_write_of_ne]
    exact Frame.block_ne_of_storage? hne.symm hplace hplace'

theorem Program.IsData.exists_storage? {p : Program} {id : PinId} (h : p.IsData id) (f : Frame) :
    ∃ place, f.storage? p id = some place := by
  obtain ⟨q, type, hq, htype⟩ := h
  rw [Frame.storage?, hq]
  simp [htype]

namespace Run

variable {sc : Scope} {id index : PinId} {k i : Int} {a : Activation}

theorem ensures_clear (id : PinId) (a : Activation) :
    Ensures (clear id) sc a
      (fun _ b => b.frame = a.frame.set id .empty ∧ b.machine.memory = a.machine.memory) fun _ _ => False :=
  clear_ensures (fun _ _ _ _ hm => ⟨rfl, hm⟩) fun _ => ⟨rfl, rfl⟩

theorem ensures_setOwned (id : PinId) (a : Activation) :
    Ensures (setOwned id) sc a
      (fun _ b => b.frame = a.frame.set id .owned ∧ b.machine.memory = a.machine.memory) fun _ _ => False := by
  simp only [setOwned, charge?, Ensures.bind_iff, Ensures.read_iff, Ensures.run_frame_iff, Ensures.pure_iff]
  cases a.frame.charge? sc.context.catalogue sc.program id <;> exact ⟨rfl, rfl⟩

/-- What writing an integer for a pin does: a pin without storage is emptied. -/
theorem writeInt_ensures (id : PinId) (k : Int) (a : Activation) :
    Ensures (writeInt id k) sc a
      (fun _ b => (∀ place, a.frame.storage? sc.program id = some place →
          b.frame = (a.frame.set id .empty).set id .owned ∧
          b.machine.memory = a.machine.memory.write place (.int .i32) (.int k)) ∧
        (a.frame.storage? sc.program id = none →
          b.frame = a.frame.set id .empty ∧ b.machine.memory = a.machine.memory)) fun _ _ => False := by
  refine (ensures_clear id a).bind ?_
  rintro - a₁ ⟨hframe, hmemory⟩
  refine Ensures.bind (P := fun place b => b = a₁ ∧ place = a₁.frame.storage? sc.program id) ⟨rfl, rfl⟩ ?_
  rintro _ a₁ ⟨rfl, rfl⟩
  have hstays : a₁.frame.storage? sc.program id = a.frame.storage? sc.program id := by
    rw [hframe, Frame.storage?_set]
  rw [hstays]
  cases a.frame.storage? sc.program id with
  | none => exact ⟨nofun, fun _ => ⟨hframe, hmemory⟩⟩
  | some place =>
    refine Ensures.bind_iff.mpr (Ensures.run_liftTotal_iff.mpr (Ensures.exec_modifyMemory_iff.mpr ?_))
    refine (ensures_setOwned id _).mono (fun _ b hb => ⟨?_, nofun⟩) fun _ _ h => h
    rintro _ ⟨⟩
    rw [hb.1, hb.2, hframe, hmemory]
    exact ⟨rfl, rfl⟩

theorem ensures_writeInt (hid : sc.program.IsData id) (hmem : id ∈ a.frame.ids)
    (hk : IntKind.i32.contains k = true) :
    Ensures (writeInt id k) sc a (fun _ b => b.Stores sc.program id k) fun _ _ => False := by
  obtain ⟨place, hplace⟩ := hid.exists_storage? a.frame
  refine (writeInt_ensures id k a).mono (fun _ b hb => ?_) fun _ _ h => h
  obtain ⟨hframe, hmemory⟩ := hb.1 place hplace
  have hread : b.machine.memory.read place (.int .i32) = .int k := by
    rw [hmemory]
    exact Memory.read_write_int _ place hk
  have hmem' : id ∈ (a.frame.set id .empty).ids := by rwa [Frame.ids_set]
  exact .of_storage (a := ⟨a.frame.set id .empty, b.machine⟩) hmem' ((Frame.storage?_set ..).trans hplace) hframe
    hread

theorem ensures_writeInt_others (id : PinId) (k : Int) (a : Activation) :
    Ensures (writeInt id k) sc a
      (fun _ b => ∀ o, o ≠ id → ∀ x, a.Stores sc.program o x → b.Stores sc.program o x) fun _ _ => False := by
  refine (writeInt_ensures id k a).mono (fun _ b hb o ho x hx => ?_) fun _ _ h => h
  cases hplace : a.frame.storage? sc.program id with
  | none =>
    obtain ⟨hframe, hmemory⟩ := hb.2 hplace
    refine hx.congr ?_ ?_ fun place _ => by rw [hmemory]
    · rw [hframe, Frame.state_set_of_ne ho]
    · rw [hframe, Frame.storage?_set]
  | some place =>
    obtain ⟨hframe, hmemory⟩ := hb.1 place hplace
    exact hx.of_write ho hplace hframe hmemory

theorem ensures_readInt (h : a.Stores sc.program id k) :
    Ensures (readInt id) sc a (fun i b => i = k ∧ b = a) fun _ _ => False := by
  have hint := h.2
  unfold Activation.int? at hint
  simp only [readInt, Ensures.bind_iff, Ensures.run_frame_iff, Ensures.run_program_iff]
  cases hvalue : a.frame.value? sc.program id with
  | none =>
    rw [hvalue] at hint
    cases hint
  | some place =>
    simp only [hvalue, Option.bind_some] at hint
    simp only [Ensures.bind_iff, Ensures.run_memory_iff]
    cases hread : a.machine.memory.read place (.int .i32) <;> simp only [hread] at hint ⊢ <;> cases hint
    exact ⟨rfl, rfl⟩

end Run

end Flowscript
