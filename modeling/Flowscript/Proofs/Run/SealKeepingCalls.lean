import Flowscript.Proofs.Run.SealedReferences

/-! # Calls that keep a seal

What a call is given and gives back. Its frame is of new blocks, its arguments go to slots that may
refer to where they lie, and its result is constructed elsewhere, or is a reference that the input of
the return node was given. So a call keeps the seal if its body does.
-/
namespace Flowscript

open Activation (Bears)

variable {κ : Seal} {I : Machine → Prop} [hI : Machine.Sealing κ I] {S D : PinId → Prop} {sc : Scope}
  {invoke : Invoke} {ret : Option Place}

namespace Run

/-- A result in the sealed block is what the input of a return node was given, as the program
declares it. -/
def Returns (κ : Seal) (D : PinId → Prop) (p : Program) (n : ProgramNode) (result : Option Value) :
    Prop :=
  ∀ v, result = some v → κ.Only (v.isOwning = false ∧ ∃ id handle form, n.dataIn[0]? = some id ∧
    D id ∧ p.result = some (handle, form) ∧ form.isOwning = false) v.place?

theorem Returns.of_apart {p : Program} {n : ProgramNode} {result : Option Value}
    (h : κ.Apart result) : Returns κ D p n result := fun v hv => (h v hv).only _

include hI

theorem spares_clearAll (count : Nat) :
    Maintains (Bears κ I S) sc (clearAll count) fun _ => True := by
  induction count with
  | zero => exact .pure trivial
  | succ count ih => exact (spares_clear _).andThen fun _ => ih

/-- A result is constructed in the caller's storage or in new storage, neither in the block. -/
theorem spares_produce (t : TypeInfo) (hret : κ.Free ret) {init : Place → Run Unit}
    (hinit : ∀ place, place.block ≠ κ.block → Maintains (Bears κ I S) sc (init place) fun _ => True) :
    Maintains (Bears κ I S) sc (produce t ret init) κ.Apart := by
  cases ret with
  | some place => exact (hinit place (hret place rfl)).andThen fun _ => .pure κ.apart_none
  | none =>
    refine (Maintains.liftTotal (Exec.spares_allocate t.layout)).bind fun place hplace =>
      (hinit place hplace).attempt.bind fun outcome _ => ?_
    cases outcome with
    | ok u =>
      refine (Maintains.liftTotal (Exec.spares_adopt _ place _ _)).bind ?_
      rintro _ rfl
      refine .pure ?_
      rintro v ⟨⟩
      exact Seal.free_some hplace
    | error e => exact (Maintains.liftTotal (Exec.spares_free hplace)).andThen fun _ => .throw e

theorem spares_bindArgument (index : Nat) {id : PinId} {v : Value} (hv : κ.Only (S id) v.place?) :
    Maintains (Bears κ I S) sc (bindArgument index id v) fun _ => True := by
  refine .look_pinType fun handle => ?_
  split
  · exact .throw _
  · cases hplace : v.place? with
    | some place => exact spares_setBorrowed (hv place hplace)
    | none =>
      dsimp only
      split
      · exact spares_setNull id
      · exact .throw _

theorem spares_bindArguments (index : Nat) {ids : List PinId} {args : List Value}
    (hargs : ∀ x ∈ ids.zip args, κ.Only (S x.1) x.2.place?) :
    Maintains (Bears κ I S) sc (bindArguments index ids args) fun _ => True := by
  induction ids generalizing index args with
  | nil => exact .pure trivial
  | cons id ids ih =>
    cases args with
    | nil => exact .pure trivial
    | cons v vs =>
      obtain ⟨hv, hvs⟩ := List.forall_mem_cons.mp hargs
      exact (spares_bindArgument index hv).andThen fun _ => ih (index + 1) hvs

theorem spares_handOver (h : invoke.Builds κ I sc.context) (handle : Handle) (source : Place)
    {target : Place} (htarget : target.block ≠ κ.block) :
    Maintains (Bears κ I S) sc
      (handOver invoke (sc.context.catalogue.info handle) source target) fun _ => True := by
  refine .look_frame fun f _ => .look_program ?_
  cases f.owner? sc.program source with
  | none => exact .lift _ (Invoke.spares_copyAt h htarget handle source)
  | some owner =>
    refine (Maintains.looks (looks_charge? owner)).bind fun released _ => ?_
    refine Maintains.andThen (.liftTotal ?_) fun _ =>
      .setSlot fun _ hplace => nomatch hplace
    exact (Exec.spares_transfer source _ htarget).andThen fun _ => Exec.spares_modifyCare _

theorem spares_finish (h : sc.Custody κ I S D invoke) {n : ProgramNode} (hret : κ.Free ret) :
    Maintains (Bears κ I S) sc (finish invoke n ret) (Returns κ D sc.program n) := by
  refine .look_program ?_
  cases hresult : sc.program.result with
  | none => exact .pure (.of_apart κ.apart_none)
  | some result =>
    obtain ⟨handle, form⟩ := result
    refine .look_read (.look_nth fun id hid => (spares_pullInput h id).bind fun value hdata => ?_)
    split
    · cases value with
      | none => exact .throw _
      | some source =>
        exact (spares_produce _ hret fun place hplace =>
          .mapError _ (spares_handOver h.builds handle source hplace)).mono fun _ => .of_apart
    · rename_i howning
      cases value with
      | none =>
        dsimp only
        split
        · refine .pure ?_
          rintro v ⟨⟩ place hplace
          cases hplace
        · exact .throw _
      | some place =>
        refine .look_interpreter fun m _ => .look_frame fun f _ => ?_
        split
        · exact .throw _
        · refine .pure ?_
          rintro v ⟨⟩ source hsource hblock
          rw [Value.place?_borrowed] at hsource
          exact ⟨Value.isOwning_borrowed _ _ _, id, handle, form, hid, hdata source hsource hblock,
            hresult, Bool.not_eq_true _ ▸ howning⟩

end Run

namespace Program

open Exec

variable {w : Context} {m : Machine} {p : Program} {seat : Seat} {args : List Value}
  {R : Option Value → Prop}
include hI

theorem spares_takeFrame (hm : I m) :
    Ensures (p.takeFrame seat) w m (fun f m' => Bears κ I S ⟨f, m'⟩) fun _ m' => I m' := by
  have hstack : ∀ stack, I (m.modifyInterpreter seat fun i => { i with stack }) :=
    fun stack => Machine.Sealing.modifyInterpreter hm seat fun _ => rfl
  simp only [takeFrame, Ensures.bind_iff, Ensures.get_iff]
  cases Frame.take? p (m.interpreter seat).stack with
  | mk base stack =>
    cases base with
    | none => exact hstack stack
    | some base =>
      refine ⟨Machine.Sealing.congr (hstack stack) rfl (Nat.le_add_right _ _) fun _ => rfl,
        Machine.Sealing.known (hstack stack), fun id place hplace => ?_⟩
      rw [Frame.state_replicate] at hplace
      cases hplace

theorem spares_giveFrame {a : Activation} (ha : a.Bears κ I S) :
    I (giveFrame sc.seat a.frame a.machine) := by
  have hstack := Machine.Sealing.modifyInterpreter ha.machine sc.seat (f := fun i =>
    { i with stack := i.stack.rewind a.frame.mark }) fun _ => rfl
  refine Machine.Sealing.congr hstack (Memory.block_foldl_free _ fun hmem => ?_)
    (Nat.le_of_eq (Memory.next_foldl_free _ _).symm) fun _ => rfl
  exact absurd (List.mem_range'_1.mp hmem).1 (Nat.not_le.mpr ha.apart)

theorem spares_closeFrame {a : Activation} (ha : a.Bears κ I S) : I (closeFrame sc a) := by
  have hclear : Ensures (Run.clearAll sc.program.pins.size) sc a _ _ :=
    Run.spares_clearAll sc.program.pins.size a ha
  unfold closeFrame
  cases hr : Run.clearAll sc.program.pins.size sc a with
  | ok u b => exact spares_giveFrame (hclear.ok hr).1
  | error e b => exact spares_giveFrame (hclear.error hr)

theorem spares_recordFailure (p : Program) (seat : Seat) (nested : Bool) (e : ScriptError) :
    Maintains I w (p.recordFailure seat nested e) fun _ => True := by
  unfold recordFailure
  split
  · exact (spares_trace _ _).andThen fun _ =>
      .modify fun _ hm => Machine.Sealing.modifyInterpreter hm seat fun _ => rfl
  · exact spares_trace _ _

theorem maintains_runFramed
    (hbody : Maintains (Bears κ I S) (p.scope seat args w) (Run.body invoke args ret) R) :
    Maintains I w (p.runFramed invoke seat args ret) R := by
  unfold runFramed
  split
  · exact .throw _
  refine fun m hm => Ensures.bind_iff.mpr ((spares_takeFrame hm).mono
    (fun f m₁ (h₁ : Bears κ I S ⟨f, m₁⟩) => ?_) fun _ _ h => h)
  refine runIn_iff.mpr ((hbody _ h₁).mono (fun v a ha => ⟨?_, ha.2⟩) fun _ a ha => spares_closeFrame ha)
  rw [Machine.watchResult_eq]
  exact Machine.Sealing.congr (spares_closeFrame ha.1) rfl (Nat.le_refl _) fun _ => rfl

theorem maintains_execute (henter : ∀ m, I m → I (p.enter seat args m))
    (hleave : ∀ m m', I m → I m' → I (leave seat m.current (m.interpreter seat).world m'))
    (hbody : Maintains (Bears κ I S) (p.scope seat args w) (Run.body invoke args ret) R) :
    Maintains I w (p.execute invoke seat args ret) R := fun m hm =>
  execute_iff.mpr ((maintains_runFramed hbody _ (henter m hm)).mono
    (fun _ m' hv => ⟨hleave m m' hm hv.1, hv.2⟩) fun _ m₁ h₁ =>
      (spares_recordFailure p seat _ _ m₁ h₁).mono (fun _ m' h₂ => hleave m m' hm h₂.1)
        fun _ _ _ => trivial)

end Program

end Flowscript
