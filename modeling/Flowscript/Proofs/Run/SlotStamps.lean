import Mathlib.Algebra.Group.Nat.Defs
import Flowscript.Proofs.Run.FrameCare
import Flowscript.Proofs.Run.FramePreservation
import Flowscript.Proofs.Run.SafeRuns

/-! # Stamps of slots

A slot is fresh if it was filled since the last statement. While a statement runs, that changes only for the
slots that it sets: the count of statements stands still. When it moves on, no slot is fresh any more, unless
the count starts over.
-/
namespace Flowscript

open Run

namespace Frame

variable {f : Frame} {id other : PinId} {state : SlotState}

@[simp] theorem statements_set (f : Frame) (id : PinId) (state : SlotState) :
    (f.set id state).statements = f.statements := by
  unfold set
  split <;> rfl

@[simp] theorem loops_set (f : Frame) (id : PinId) (state : SlotState) :
    (f.set id state).loops = f.loops := by
  unfold set
  split <;> rfl

theorem stamp?_set_self (h : id ∈ f.ids) : (f.set id state).stamp? id = some f.statements := by
  obtain ⟨hid, hlt⟩ := mem_ids.mp h
  simp [set, stamp?, hid, hlt]

theorem stamp?_set_of_ne (h : other ≠ id) : (f.set id state).stamp? other = f.stamp? other := by
  have hval : other.val ≠ id.val := fun he => h (PinId.ext he)
  unfold set stamp?
  by_cases hid : id.val = 0
  · rw [if_pos hid]
  by_cases hother : other.val = 0
  · rw [if_pos hother, if_pos hother]
  · have hne : id.val - 1 ≠ other.val - 1 := by omega
    simp only [if_neg hid, if_neg hother, Array.getElem?_setIfInBounds_ne hne]

theorem stamp?_of_not_mem (h : id ∉ f.ids) : f.stamp? id = none := by
  unfold stamp?
  split
  · rfl
  · rename_i hid
    have hle : f.slots.size ≤ id.val - 1 := by
      have := mt mem_ids.mpr h
      omega
    rw [Array.getElem?_eq_none hle]
    rfl

theorem isFresh_set_of_ne (h : other ≠ id) : isFresh (f.set id state) other = isFresh f other := by
  simp only [isFresh, isFilled, state_set_of_ne h, stamp?_set_of_ne h, statements_set]

theorem isFresh_set_self (h : id ∈ f.ids) : isFresh (f.set id state) id = (state != .empty) := by
  simp only [isFresh, isFilled, state_set_self h, stamp?_set_self h, statements_set, beq_self_eq_true,
    Bool.and_true]

/-- The frame of a program that has run a number of statements, where no slot was filled later. -/
structure Clocked (p : Program) (k : Nat) (f : Frame) : Prop where
  size : f.slots.size = p.pins.size
  count : f.statements.toNat = k
  aged : ∀ id stamp, f.stamp? id = some stamp → stamp ≤ f.statements

namespace Clocked

variable {p : Program} {k : Nat}

theorem set (h : f.Clocked p k) (id : PinId) (state : SlotState) : (f.set id state).Clocked p k := by
  refine ⟨by rw [size_slots_set]; exact h.size, by rw [statements_set]; exact h.count, ?_⟩
  intro other stamp hstamp
  rw [statements_set]
  by_cases hother : other = id
  · subst hother
    by_cases hmem : other ∈ f.ids
    · rw [stamp?_set_self hmem] at hstamp
      cases hstamp
      exact UInt32.le_refl _
    · rw [stamp?_of_not_mem (by rwa [ids_set])] at hstamp
      cases hstamp
  · rw [stamp?_set_of_ne hother] at hstamp
    exact h.aged other stamp hstamp

theorem congr {f' : Frame} (h : f.Clocked p k) (hslots : f'.slots = f.slots)
    (hstatements : f'.statements = f.statements) : f'.Clocked p k := by
  refine ⟨hslots ▸ h.size, hstatements ▸ h.count, fun id stamp hstamp => ?_⟩
  rw [hstatements]
  refine h.aged id stamp ?_
  unfold stamp? at hstamp ⊢
  rwa [← hslots]

theorem mem_ids (h : f.Clocked p k) {q : ProgramPin} (hq : p.pin? id = some q) : id ∈ f.ids :=
  mem_ids_of_pin? h.size hq

/-- After the next statement the frame is in order, and nothing is fresh. -/
theorem step (h : f.Clocked p k) (hk : k + 1 < 2 ^ 32) :
    ({ f with statements := f.statements + 1 } : Frame).Clocked p (k + 1) ∧
      ∀ id, isFresh { f with statements := f.statements + 1 } id = false := by
  have hcount : (f.statements + 1).toNat = k + 1 := by
    rw [UInt32.toNat_add, h.count, UInt32.toNat_one, Nat.mod_eq_of_lt hk]
  have hlater : ∀ id stamp, f.stamp? id = some stamp → stamp.toNat ≤ k := by
    intro id stamp hstamp
    rw [← h.count]
    exact UInt32.le_iff_toNat_le.mp (h.aged id stamp hstamp)
  refine ⟨⟨h.size, hcount, fun id stamp hstamp => ?_⟩, fun id => ?_⟩
  · have := hlater id stamp hstamp
    refine UInt32.le_iff_toNat_le.mpr ?_
    dsimp only
    omega
  · by_contra hfresh
    have hfresh := Bool.eq_true_of_not_eq_false hfresh
    simp only [isFresh, Bool.and_eq_true, beq_iff_eq] at hfresh
    have := hlater id _ hfresh.2
    omega

end Clocked

/-- In a frame with new slots nothing is fresh, and the count begins. -/
theorem clocked_replicate (p : Program) (firstBlock base mark : Nat) :
    Clocked p 0 { slots := Array.replicate p.pins.size {}, firstBlock, base, mark } := by
  refine ⟨Array.size_replicate, rfl, fun id stamp hstamp => ?_⟩
  simp only [stamp?, Array.getElem?_replicate] at hstamp
  split at hstamp
  · cases hstamp
  · split at hstamp <;> cases hstamp
    exact UInt32.le_refl _

theorem isFresh_replicate (count firstBlock base mark : Nat) (id : PinId) :
    isFresh { slots := Array.replicate count {}, firstBlock, base, mark } id = false := by
  simp only [isFresh, isFilled, state_replicate]
  rfl

theorem loopsIn_set {p : Program} (h : f.LoopsIn p) (id : PinId) (state : SlotState) :
    (f.set id state).LoopsIn p := by
  unfold LoopsIn
  rwa [loops_set]

theorem exitLoop_eq (f : Frame) (id : NodeId) : ∃ loops, f.exitLoop id = { f with loops } := by
  unfold exitLoop
  split
  · exact ⟨f.loops, rfl⟩
  · exact ⟨_, rfl⟩

theorem enterLoop_eq (f : Frame) (marker : LoopMarker) : ∃ loops, f.enterLoop marker = { f with loops } := by
  unfold enterLoop
  split
  · exact ⟨f.loops, rfl⟩
  · exact ⟨_, rfl⟩

end Frame

def Fills (id : PinId) (sc : Scope) (x : Run α) : Prop :=
  ∀ a, id ∈ a.frame.ids → Ensures x sc a (fun _ b => isFresh b.frame id = true) fun _ _ => True

namespace Fills

variable {α β : Type} {sc : Scope} {id : PinId}

theorem after {x : Run β} {f : β → Run α} (hx : Lasts (id ∈ ·.ids) sc x) (hf : ∀ b, Fills id sc (f b)) :
    Fills id sc (x >>= f) := by
  intro a ha
  refine Ensures.bind_iff.mpr ((hx a ha).mono (fun b t h => hf b t h.1) fun _ _ _ => trivial)

theorem set {state : SlotState} (hstate : state ≠ .empty) :
    Fills id sc (modifyFrame (·.set id state)) := by
  intro a ha
  refine Ensures.run_modifyFrame_iff.mpr ?_
  rw [Frame.isFresh_set_self ha]
  simpa using hstate

theorem map {x : Run β} {r : α} (hx : Fills id sc x) : Fills id sc (x >>= fun _ => pure r) := by
  intro a ha
  exact Ensures.bind_iff.mpr (hx a ha)

theorem throw (e : ScriptError) : Fills id sc (MonadExcept.throw e : Run α) := fun _ _ => trivial

theorem mapError {x : Run α} (f : ScriptError → ScriptError) (hx : Fills id sc x) :
    Fills id sc (x.mapError f) := fun a ha => Ensures.run_mapError_iff.mpr (hx a ha)

end Fills

namespace Run

variable {sc : Scope} (id : PinId)

theorem spares_ids : Frame.Spares (id ∈ ·.ids) id := by
  intro f state h
  simpa only [Frame.ids_set] using h

theorem fills_setOwned : Fills id sc (setOwned id) := by
  refine .after (.looks (looks_charge? id)) fun charge => ?_
  cases charge with
  | some v => exact .after (Lasts.liftTotal _) fun _ => .set nofun
  | none => exact .set nofun

theorem fills_setBorrowed (place : Place) : Fills id sc (setBorrowed id place) :=
  .after (lasts_clear (spares_ids id)) fun _ => .set nofun

theorem fills_setNull : Fills id sc (setNull id) := .after (lasts_clear (spares_ids id)) fun _ => .set nofun

theorem fills_fillOwned (missing : String) {init : Place → Run Unit}
    (hinit : ∀ place, Lasts (id ∈ ·.ids) sc (init place)) : Fills id sc (fillOwned id missing init) := by
  refine .after (lasts_clear (spares_ids id)) fun _ => .after (.looks (looks_storage id missing)) fun place => ?_
  exact .after (hinit place) fun _ => (fills_setOwned id).map

theorem fills_storeResult (form : Form) (result : Option Value) : Fills id sc (storeResult id form result) := by
  refine .after (.looks (looks_storage? id)) fun place => ?_
  split
  · exact .after (Lasts.liftTotal _) fun _ => .throw _
  · split
    · exact fills_setOwned id
    · exact .throw _
  · split
    · exact .after (lasts_clear (spares_ids id)) fun _ => .after (Lasts.liftTotal _) fun _ => fills_setOwned id
    · refine .after (Lasts.liftTotal _) fun _ => ?_
      split
      · exact fills_setBorrowed id _
      · exact fills_setNull id

theorem fills_settleCall {n : ProgramNode} {f : Function} {r : Param} (hout : n.dataOut = [id])
    (hf : f.result = some r) (outcome : Except CallError (Option Value)) :
    Fills id sc (Told.settleCall n f outcome) := by
  cases outcome with
  | error e => exact .after (lasts_callFailure f e) fun _ => .throw _
  | ok result =>
    unfold Told.settleCall
    rw [hout, hf]
    exact (fills_storeResult id r.form result).mapError _

theorem fills_fillField (invoke : Invoke) {n : ProgramNode} (hout : n.dataOut = [id]) (offset : Nat) (type : Handle)
    (source : Place) : Fills id sc (Told.fillField invoke n offset type source) := by
  intro a ha
  refine Ensures.bind (P := fun out b => out = id ∧ b = a) (by rw [hout]; exact ⟨rfl, rfl⟩) ?_
  rintro out b ⟨rfl, rfl⟩
  refine Ensures.bind (P := fun s b' => s = sc ∧ b' = b) ⟨rfl, rfl⟩ ?_
  rintro s b' ⟨rfl, rfl⟩
  exact (fills_fillOwned out _ fun place => Lasts.lift _ _).map b' ha

end Run

end Flowscript
