import Flowscript.Proofs.Run.FrameCare

/-! # Calls tend the values in care

A call ends the values in its slots when the slots are filled again, and the copies it passes on when
the callee returns. `Tends` says of a computation of a call what it has in hand before and after, and that
everything else in care is as it was. All that a call does is of this kind, up to the point where it
hands over its result.
-/
namespace Flowscript

variable {ε α β : Type} {sc : Scope}

namespace Activation

structure Carries (sc : Scope) (before after : Hand) (a b : Activation) : Prop where
  next : a.machine.memory.next ≤ b.machine.memory.next
  strays : a.machine.care.strays.length ≤ b.machine.care.strays.length
  spoilt : ∀ first strays low used, a.Spoilt sc first strays low used before →
    b.Spoilt sc first strays low used after
  holds : ∀ first faults room others, a.Holds sc first faults room others before →
    b.Spoilt sc first a.machine.care.strays.length a.machine.memory.next
        (· < a.machine.memory.next) after ∨
      b.machine.care.strays = a.machine.care.strays ∧ b.Holds sc first faults room others after

namespace Carries

variable {before after after' : Hand} {values values' : List Charge} {vacant : List PinId}
  {a b c : Activation}

theorem trans (h : a.Carries sc before after b) (h' : b.Carries sc after after' c) :
    a.Carries sc before after' c where
  next := Nat.le_trans h.next h'.next
  strays := Nat.le_trans h.strays h'.strays
  spoilt first strays low used ha :=
    h'.spoilt first strays low used (h.spoilt first strays low used ha)
  holds first faults room others ha := by
    rcases h.holds first faults room others ha with hs | ⟨heq, hb⟩
    · exact .inl (h'.spoilt _ _ _ _ hs)
    · rw [← heq]
      refine (h'.holds first faults room others hb).imp (fun hs => ?_) id
      refine hs.mono h.next (fun k hk => Nat.lt_of_lt_of_le hk h.next) fun k _ hk => ?_
      exact Nat.lt_of_lt_of_le hk ha.le_next

theorem of_holds (hsize : b.frame.slots.size = a.frame.slots.size)
    (hfirst : b.frame.firstBlock = a.frame.firstBlock)
    (hnext : a.machine.memory.next ≤ b.machine.memory.next)
    (hstrays : b.machine.care.strays = a.machine.care.strays)
    (hleaks : ∀ low used,
      (∀ id v, a.frame.charge? sc.context.catalogue sc.program id = some v → used v.place.block) →
      a.machine.Leaks low used before.values → b.machine.Leaks low used after.values)
    (hholds : ∀ first faults room others, a.Holds sc first faults room others before →
      b.Holds sc first faults room others after) : a.Carries sc before after b where
  next := hnext
  strays := Nat.le_of_eq (by rw [hstrays])
  spoilt _ _ low used ha := ha.step hsize hfirst
    (ha.machine.step hstrays (hleaks low used fun _ _ hv => ha.used_of_charge? hv))
  holds first faults room others ha := .inr ⟨hstrays, hholds first faults room others ha⟩

theorem refl : a.Carries sc before before a :=
  of_holds rfl rfl (Nat.le_refl _) rfl (fun _ _ _ h => h) fun _ _ _ _ h => h

theorem of_set {id : PinId} {state : SlotState} (hframe : b.frame = a.frame.set id state)
    (hnext : a.machine.memory.next ≤ b.machine.memory.next)
    (hstrays : b.machine.care.strays = a.machine.care.strays)
    (hleaks : ∀ low used,
      (∀ id v, a.frame.charge? sc.context.catalogue sc.program id = some v → used v.place.block) →
      a.machine.Leaks low used before.values → b.machine.Leaks low used after.values)
    (hholds : ∀ first faults room others, a.Holds sc first faults room others before →
      b.Holds sc first faults room others after) : a.Carries sc before after b :=
  of_holds (by rw [hframe, Frame.size_slots_set]) (by rw [hframe, Frame.firstBlock_set]) hnext hstrays
    hleaks hholds

theorem of_machine (hslots : b.frame.slots = a.frame.slots)
    (hfirst : b.frame.firstBlock = a.frame.firstBlock) (hbase : b.frame.base = a.frame.base)
    (h : a.machine.Carries values values' b.machine) :
    a.Carries sc ⟨values, vacant⟩ ⟨values', vacant⟩ b where
  next := h.next
  strays := h.strays
  spoilt _ strays low used ha := ha.step (by rw [hslots]) hfirst (h.spoilt strays low used ha.machine)
  holds first faults room others ha := by
    refine (h.holds _ _ _ ha.machine).imp (fun hs => ?_) fun ⟨heq, hm⟩ =>
      ⟨heq, ha.still hslots hfirst hbase hm⟩
    exact ⟨by rw [hslots]; exact ha.size_eq, hfirst.trans ha.first_eq,
      fun k _ hk => Nat.lt_of_lt_of_le hk ha.le_next, hs⟩

theorem forget : a.Carries sc ⟨values, vacant⟩ ⟨values, []⟩ a :=
  of_holds rfl rfl (Nat.le_refl _) rfl (fun _ _ _ h => h) fun _ _ _ _ h => h.forget

end Carries

end Activation

open Activation (Carries)

/-- A computation of a call that comes with some things in hand and leaves with others, or with
nothing if it fails. -/
def Tends (sc : Scope) (before : Hand) (x : Run α) (after : α → Hand) : Prop :=
  ∀ a, Ensures x sc a (fun r b => a.Carries sc before (after r) b)
    fun _ b => a.Carries sc before {} b

namespace Tends

variable {before : Hand} {after : α → Hand} {values : List Charge} {vacant : List PinId}

theorem bind {x : Run β} {f : β → Run α} {k : β → Hand} (hx : Tends sc before x k)
    (hf : ∀ b, Tends sc (k b) (f b) after) :
    Tends sc before (x >>= f) after := fun a =>
  Ensures.bind_iff.mpr ((hx a).mono
    (fun b t ht => (hf b t).mono (fun _ _ h => ht.trans h) fun _ _ h => ht.trans h) fun _ _ h => h)

theorem pure {r : α} (h : before = after r) : Tends sc before (Pure.pure r : Run α) after := by
  intro a
  rw [h]
  exact Carries.refl

theorem throw (e : ScriptError) :
    Tends sc ⟨[], vacant⟩ (MonadExcept.throw e : Run α) after := fun _ => Carries.forget

theorem looks {x : Run α} (hx : Looks x) :
    Tends sc ⟨[], vacant⟩ x fun _ => ⟨[], vacant⟩ := fun a =>
  (hx sc a).mono (fun _ _ h => by rw [h]; exact Carries.refl) fun _ _ h => by
    rw [h]; exact Carries.forget

theorem forget {x : Run α} (hx : Tends sc ⟨values, []⟩ x after) :
    Tends sc ⟨values, vacant⟩ x after := fun a =>
  (hx a).mono (fun _ _ h => Carries.forget.trans h) fun _ _ h => Carries.forget.trans h

theorem lift {x : Exec ε α} {values' : α → List Charge} (f : ε → ScriptError)
    (hx : Tidy values x values') :
    Tends sc ⟨values, vacant⟩ (Run.lift f x) fun r => ⟨values' r, vacant⟩ := by
  intro a
  refine Ensures.run_lift_iff.mpr ((hx sc.context a.machine).mono
    (fun _ _ h => .of_machine rfl rfl rfl h) fun _ m h => ?_)
  have hm : a.Carries sc ⟨values, vacant⟩ ⟨[], vacant⟩ ⟨a.frame, m⟩ :=
    .of_machine rfl rfl rfl h
  exact hm.trans .forget

theorem liftTotal {x : Exec Empty α} {values' : α → List Charge} (hx : Tidy values x values') :
    Tends sc ⟨values, vacant⟩ (Run.liftTotal x) fun r => ⟨values' r, vacant⟩ := fun a =>
  Ensures.run_liftTotal_iff.mpr ((hx sc.context a.machine).mono
    (fun _ _ h => .of_machine rfl rfl rfl h) fun _ _ _ => trivial)

theorem mapError {x : Run α} (f : ScriptError → ScriptError) (hx : Tends sc before x after) :
    Tends sc before (x.mapError f) after := fun a => Ensures.run_mapError_iff.mpr (hx a)

theorem modifyFrame {f : Frame → Frame} (hf : ∀ fr, (f fr).slots = fr.slots ∧
      (f fr).firstBlock = fr.firstBlock ∧ (f fr).base = fr.base) :
    Tends sc before (Run.modifyFrame f) fun _ => before := fun a =>
  .of_machine (hf a.frame).1 (hf a.frame).2.1 (hf a.frame).2.2 .refl

theorem modifyInterpreter (f : Interpreter → Interpreter) :
    Tends sc before (Run.modifyInterpreter f) fun _ => before := fun a =>
  .of_machine rfl rfl rfl (.still (a.machine.care_modifyInterpreter sc.seat f)
    (Nat.le_of_eq (congrArg Memory.next (a.machine.memory_modifyInterpreter sc.seat f).symm)))

end Tends

namespace Run

variable {values : List Charge} {vacant : List PinId} {hand : Hand}

theorem tends_noteNode (message : String) (n : ProgramNode) :
    Tends sc {} (noteNode message n) fun _ => {} := by
  refine (Tends.looks .read).bind fun s => ?_
  cases s.context.traceLimit with
  | none => exact .pure rfl
  | some limit => exact .liftTotal (.idle (Exec.idle_trace _ _))

theorem tends_tick : Tends sc {} tick fun _ => {} := by
  refine (Tends.looks looks_interpreter).bind fun i => ?_
  dsimp only
  split
  · exact (Tends.modifyInterpreter _).bind fun _ => .throw _
  · exact .modifyInterpreter _

/-- Emptying a slot ends the value that it holds in its own storage. -/
theorem clear_ensures {a : Activation} {id : PinId} {Q : Unit → Activation → Prop}
    {E : ScriptError → Activation → Prop}
    (hrelease : ∀ v m, a.frame.held sc.context.catalogue sc.program id = some v →
      m.care = a.machine.care.lose v → m.memory = a.machine.memory →
      Q () ⟨a.frame.set id .empty, m⟩)
    (hset : a.frame.held sc.context.catalogue sc.program id = none →
      Q () ⟨a.frame.set id .empty, a.machine⟩) : Ensures (clear id) sc a Q E := by
  simp only [clear, Ensures.bind_iff, Ensures.run_program_iff, Ensures.run_frame_iff]
  split
  · rename_i hstate
    cases hplace : a.frame.storage? sc.program id with
    | none =>
      refine hset ?_
      simp only [Frame.held, Frame.charge?, hplace, ite_self]
    | some place =>
      cases htype : (sc.program.pin? id).bind (·.type) with
      | none =>
        refine hset ?_
        simp only [Frame.held, Frame.charge?, hplace, htype, ite_self]
      | some type =>
        simp only [Ensures.bind_iff, Ensures.read_iff, Ensures.run_liftTotal_iff]
        refine (Exec.endCharge_ensures _ _).mono (fun _ m hm => ?_) fun _ _ _ => trivial
        refine hrelease _ m (Frame.held_eq_some.mpr ⟨hstate, ?_⟩) hm.1 hm.2
        simp only [Frame.charge?, hplace, htype]
  · rename_i hstate
    exact hset (Frame.held_eq_none_of_state hstate)

theorem tends_clear (id : PinId) :
    Tends sc hand (clear id) fun _ => ⟨hand.values, id :: hand.vacant⟩ := by
  intro a
  refine clear_ensures (fun v m hheld hcare hmemory => ?_) fun hheld => ?_
  · have hnext : a.machine.memory.next ≤ m.memory.next := Nat.le_of_eq (by rw [hmemory])
    refine .of_set rfl hnext (by rw [hcare, Care.strays_lose]) (fun _ _ hused h => ?_)
      fun _ _ _ _ h => h.release hheld rfl hcare hnext
    exact h.lose hcare hnext (.inl (hused id v (Frame.held_eq_some.mp hheld).2))
  · exact .of_set rfl (Nat.le_refl _) rfl (fun _ _ _ h => h) fun _ _ _ _ h =>
      h.set hheld (by simp) rfl rfl (Nat.le_refl _)

/-- Only a slot that holds no value may be filled. -/
theorem tends_setOwned (id : PinId) :
    Tends sc ⟨values, id :: vacant⟩ (setOwned id) fun _ => ⟨values, []⟩ := by
  intro a
  simp only [setOwned, charge?, Ensures.bind_iff, Ensures.read_iff, Ensures.run_frame_iff,
    Ensures.pure_iff]
  cases hv : a.frame.charge? sc.context.catalogue sc.program id with
  | some v =>
    refine .of_set rfl (Nat.le_refl _) (Care.strays_take _ _) (fun _ _ hused h => ?_)
      fun _ _ _ _ h => h.fill List.mem_cons_self hv rfl rfl (Nat.le_refl _)
    exact h.take rfl (Nat.le_refl _) (hused id v hv)
  | none =>
    refine .of_set rfl (Nat.le_refl _) rfl (fun _ _ _ h => h) fun _ _ _ _ h => ?_
    exact h.fill_none (Frame.held_eq_none_of_state (h.vacant id List.mem_cons_self)) hv rfl rfl

theorem tends_set (id : PinId) {state : SlotState} (hs : state ≠ .owned) :
    Tends sc ⟨values, id :: vacant⟩ (modifyFrame (·.set id state)) fun _ => ⟨values, []⟩ := by
  intro a
  refine .of_set rfl (Nat.le_refl _) rfl (fun _ _ _ h => h) fun _ _ _ _ h => ?_
  have hstate := h.vacant id List.mem_cons_self
  exact (h.set (b := ⟨a.frame.set id state, a.machine⟩) (Frame.held_eq_none_of_state hstate) hs rfl
    rfl (Nat.le_refl _)).forget

theorem tends_setBorrowed (id : PinId) (place : Place) :
    Tends sc hand (setBorrowed id place) fun _ => ⟨hand.values, []⟩ :=
  (tends_clear id).bind fun _ => tends_set id (by simp)

theorem tends_setNull (id : PinId) :
    Tends sc hand (setNull id) fun _ => ⟨hand.values, []⟩ :=
  (tends_clear id).bind fun _ => tends_set id (by simp)

theorem tends_writeInt (id : PinId) (n : Int) : Tends sc {} (writeInt id n) fun _ => {} := by
  refine (tends_clear id).bind fun _ => (Tends.looks (looks_storage? id)).bind fun place => ?_
  cases place with
  | none => exact .forget (.pure rfl)
  | some place =>
    have hwrite := Exec.idle_modifyMemory (ε := Empty) fun m => m.next_write place (.int .i32) (.int n)
    exact (Tends.liftTotal (.idle hwrite)).bind fun _ => tends_setOwned id

theorem tends_withStack {x : Run α} {after : α → Hand} (hx : Tends sc hand x after) :
    Tends sc hand (withStack x) after := by
  -- Rewinding the stack leaves the values in care alone.
  have hend : ∀ (after : Hand) (a b : Activation) f, a.Carries sc hand after b →
      a.Carries sc hand after ⟨b.frame, b.machine.modifyInterpreter sc.seat f⟩ := by
    intro after a b f h
    have hrewind : Tends sc after (modifyInterpreter f) fun _ => after := .modifyInterpreter f
    exact h.trans (hrewind b)
  intro a
  simp only [withStack, Ensures.bind_iff, Ensures.run_interpreter_iff, Ensures.read_iff,
    Ensures.run_andFinally_iff, Ensures.modify_iff]
  exact (hx a).mono (fun r b h => hend _ a b _ h) fun _ b h => hend _ a b _ h

theorem tends_fillOwned (id : PinId) (missing : String) {init : Place → Exec ε Unit}
    (f : Place → ε → ScriptError) (hi : ∀ place, Tidy [] (init place) fun _ => []) :
    Tends sc {} (fillOwned id missing fun place => lift (f place) (init place)) fun _ => {} :=
  (tends_clear id).bind fun _ => (Tends.looks (looks_storage id missing)).bind fun place =>
    (Tends.lift (f place) (hi place)).bind fun _ => (tends_setOwned id).bind fun _ => .pure rfl

theorem tends_callFailure (f : Function) (e : CallError) :
    Tends sc {} (callFailure f e) fun _ => {} := by
  refine (Tends.looks looks_interpreter).bind fun i => ?_
  refine (Tends.modifyInterpreter _).bind fun _ => ?_
  split
  · split <;> exact .pure rfl
  · exact .pure rfl

def resultSlot (id : PinId) (form : Form) : List PinId := if form.isOwning then [id] else []

theorem tends_storeResult (id : PinId) (form : Form) (result : Option Value) :
    Tends sc ⟨resultCharges result, resultSlot id form⟩ (storeResult id form result)
      fun _ => {} := by
  have hplace : Tends sc ⟨resultCharges result, resultSlot id form⟩ (storage? id)
      fun _ => ⟨resultCharges result, resultSlot id form⟩ := fun a => Carries.refl
  refine hplace.bind fun place => ?_
  cases place with
  | none => exact (Tends.liftTotal (Exec.tidy_dropResult result)).bind fun _ => .throw _
  | some place =>
    cases result with
    | none =>
      dsimp only
      split
      · rename_i hform
        rw [resultSlot, if_pos hform]
        exact tends_setOwned id
      · exact .throw _
    | some v =>
      dsimp only
      split
      · exact (tends_clear id).bind fun _ =>
          (Tends.liftTotal (Exec.tidy_relocate v place)).bind fun _ => tends_setOwned id
      · rename_i hv
        have hnone : resultCharges (some v) = [] := by
          obtain ⟨type, form, held⟩ := v
          cases held with
          | owned place size destructor => exact absurd rfl hv
          | borrowed place => rfl
          | pointer place => rfl
        rw [hnone]
        refine (Tends.liftTotal (.idle (.modify fun m => ?_))).bind fun _ => ?_
        · rw [Machine.care_watchResult, Machine.memory_watchResult]
          exact ⟨rfl, rfl⟩
        cases v.place? with
        | some source => exact tends_setBorrowed id source
        | none => exact tends_setNull id

/-- The slot that the result of a node's call goes to, if it is constructed there. -/
def resultSlot? (out : Option PinId) (form : Option Form) : List PinId :=
  match out, form with
  | some id, some form => resultSlot id form
  | _, _ => []

theorem tends_resultStorage (out : Option PinId) (form : Option Form) :
    Tends sc {} (resultStorage out form) fun _ => ⟨[], resultSlot? out form⟩ := by
  unfold resultStorage
  split
  · rename_i id form
    dsimp only [resultSlot?, resultSlot]
    split
    · exact (tends_clear id).bind fun _ => .looks (looks_storage? id)
    · exact .pure rfl
  · rename_i hnone
    refine .pure ?_
    unfold resultSlot?
    split
    · exact absurd rfl (hnone _ _ rfl)
    · rfl

theorem tends_complete (n : ProgramNode) (completed : PinId) :
    Tends sc {} (complete n completed) fun _ => {} := by
  refine Tends.bind (.modifyFrame fun fr => ?_) fun _ => .looks (looks_target completed)
  unfold Frame.exitLoop
  split <;> exact ⟨rfl, rfl, rfl⟩

theorem tends_enterLoop (marker : LoopMarker) :
    Tends sc {} (modifyFrame (·.enterLoop marker)) fun _ => {} := by
  refine .modifyFrame fun fr => ?_
  unfold Frame.enterLoop
  split <;> exact ⟨rfl, rfl, rfl⟩

theorem tends_bindArgument (index : Nat) (id : PinId) (v : Value) :
    Tends sc {} (bindArgument index id v) fun _ => {} := by
  refine (Tends.looks (looks_pinType id)).bind fun t => ?_
  split
  · exact .throw _
  · cases v.place? with
    | some place => exact tends_setBorrowed id place
    | none =>
      dsimp only
      split
      · exact tends_setNull id
      · exact .throw _

theorem tends_bindArguments (index : Nat) (ids : List PinId) (args : List Value) :
    Tends sc {} (bindArguments index ids args) fun _ => {} := by
  induction ids generalizing index args with
  | nil => exact .pure rfl
  | cons id ids ih =>
    cases args with
    | nil => exact .pure rfl
    | cons v vs => exact (tends_bindArgument index id v).bind fun _ => ih _ _

/-- A copy that is passed on ends when the rest is done, whether that failed or not. -/
theorem tends_andEnd {x : Run α} {after : α → Hand} (destructor : Option Destructor) (v : Charge)
    (hx : Tends sc {} x after) :
    Tends sc ⟨[v], []⟩ (x.andFinally do
      Exec.endCharge destructor v
      Exec.free v.place) after := by
  intro a
  -- While the rest is done, the copy is nobody's business.
  have hend : ∀ (hand : Hand) (b : Activation) (m : Machine), a.Carries sc {} hand b →
      m.care = b.machine.care.lose v → m.memory = b.machine.memory →
      a.Carries sc ⟨[v], []⟩ hand ⟨b.frame, { m with memory := m.memory.free v.place.block }⟩ := by
    intro hand b m h hcare hmemory
    have hstrays : m.care.strays = b.machine.care.strays := by rw [hcare, Care.strays_lose]
    have hle : b.machine.memory.next ≤ m.memory.next := Nat.le_of_eq (by rw [hmemory])
    -- What is forgotten lies in another block than the copy.
    have hlose : ∀ first strays low used, used v.place.block →
        b.Spoilt sc first strays low used hand →
        Activation.Spoilt sc first strays low used hand
          ⟨b.frame, { m with memory := m.memory.free v.place.block }⟩ :=
      fun first strays low used hv hb => hb.step rfl rfl
        (hb.machine.step hstrays fun hl => hl.lose hcare hle (.inl hv))
    refine ⟨Nat.le_trans h.next hle, by rw [hstrays]; exact h.strays,
      fun first strays low used ha => ?_, fun first faults room others ha => ?_⟩
    · have hput : a.Spoilt sc first strays low (fun k => used k ∨ k = v.place.block) {} :=
        ⟨ha.size_eq, ha.first_eq, fun k hk hlt => .inl (ha.frame k hk hlt),
          ha.machine.step rfl fun hl => hl.put⟩
      have hb := hlose _ _ _ _ (.inr rfl) (h.spoilt _ _ _ _ hput)
      exact hb.mono (Nat.le_refl low) (fun _ => .inl) ha.frame
    · rw [hstrays]
      refine (h.holds first faults room (v :: others) ha.put).imp (fun hs => ?_) fun ⟨heq, hb⟩ =>
        ⟨heq, hb.lose rfl hcare hle⟩
      exact hlose _ _ _ _ (ha.machine.known v List.mem_cons_self) hs
  refine Ensures.run_andFinally_iff.mpr ((hx a).mono (fun r b h => ?_) fun e b h => ?_)
  all_goals
    refine Ensures.bind_iff.mpr ((Exec.endCharge_ensures destructor v).mono (fun _ m hm => ?_)
      fun _ _ h => h.elim)
    exact hend _ b m h hm.1 hm.2

section Calls

variable {invoke : Invoke} (h : invoke.Settles)
include h

theorem tends_copyTemp (t : TypeInfo) (source : Place) :
    Tends sc {} (copyTemp invoke t source) fun temp => ⟨[⟨temp, t.id⟩], []⟩ := by
  intro a
  refine Ensures.bind_iff.mpr (allocTemp_ensures (fun _ => Carries.refl) fun start stack _ => ?_)
  simp only [Ensures.bind_iff, Ensures.run_lift_iff, Ensures.run_liftTotal_iff]
  have hcare := a.machine.care_modifyInterpreter sc.seat fun i => { i with stack }
  refine (Invoke.tidy_copyAt h t _ source sc.context _).mono (fun _ m hm => ?_) fun _ m hm => ?_
  · exact .of_machine rfl rfl rfl (hm.take_fresh hcare rfl rfl rfl (Nat.le_refl _))
  · refine .of_machine rfl rfl rfl (Machine.Carries.trans ?_ hm)
    exact .still hcare (Nat.le_succ a.machine.memory.next)

theorem tends_fallback (id : PinId) : Tends sc {} (fallback invoke id) fun _ => {} := by
  have hconstructed : ∀ info t active,
      Tends sc {} (fallback.constructed invoke id info t active) fun _ => {} := by
    intro info t active
    unfold fallback.constructed
    cases active.filter (·.1 == t.id) with
    | some found => exact .pure rfl
    | none =>
      dsimp only
      split
      · exact tends_fillOwned id _ _ fun place => Invoke.tidy_defaultAt h t place
      · split
        · exact (tends_setNull id).bind fun _ => .pure rfl
        · exact .throw _
  refine (Tends.looks (looks_pin id)).bind fun info =>
    (Tends.looks (looks_pinType id)).bind fun t => (Tends.looks .read).bind fun s => ?_
  cases info.default with
  | some j => exact tends_fillOwned id _ _ fun place => Invoke.tidy_decodeAt h t j place
  | none =>
    refine (Tends.looks looks_interpreter).bind fun i => ?_
    cases s.this with
    | none => exact hconstructed info t i.world
    | some this =>
      dsimp only
      split
      · exact .pure rfl
      · exact hconstructed info t i.world

variable {pull : Pull} (hpull : ∀ id, Tends sc {} (pull id) fun _ => {})
include hpull

theorem tends_withArguments (n : ProgramNode) (f : Function) (pins : List (Param × PinId))
    {k : List Value → Run α} {after : α → Hand} (hk : ∀ args, Tends sc {} (k args) after) :
    Tends sc {} (withArguments invoke pull n f pins k) after := by
  induction pins generalizing k with
  | nil => exact hk []
  | cons first rest ih =>
    obtain ⟨p, id⟩ := first
    refine (hpull id).bind fun source => (Tends.looks (looks_pinType id)).bind fun t => ?_
    cases source with
    | none =>
      dsimp only
      split
      · exact ih fun args => hk _
      · exact .throw _
    | some source =>
      dsimp only
      split
      · refine ((tends_copyTemp h t source).mapError _).bind fun temp => ?_
        exact tends_andEnd t.destructor ⟨temp, t.id⟩ (ih fun args => hk _)
      · exact ih fun args => hk _

theorem tends_callNode (n : ProgramNode) (f : Function) :
    Tends sc {} (callNode invoke pull n f) fun _ => {} := by
  refine Tends.bind (k := fun outcome => ⟨outcomeCharges resultCharges outcome,
    resultSlot? n.dataOut.head? (f.result.map (·.form))⟩) ?_ fun outcome => ?_
  · refine tends_withStack (tends_withArguments h hpull n f _ fun args => ?_)
    refine (tends_resultStorage _ _).bind fun buffer => ?_
    refine (Tends.modifyInterpreter _).bind fun _ => ?_
    exact .liftTotal (Invoke.settles_iff.mp h f args buffer).attempt
  · cases outcome with
    | error e => exact .forget ((tends_callFailure f e).bind fun _ => .throw _)
    | ok result =>
      dsimp only
      split
      · rename_i id form hout hform
        rw [hout, hform]
        exact (tends_storeResult id form result).mapError _
      · exact .forget (.liftTotal (Exec.tidy_dropResult result))

omit h in
theorem tends_pullTarget (n : ProgramNode) : Tends sc {} (pullTarget pull n) fun _ => {} := by
  refine (Tends.looks (looks_nth _ _)).bind fun id => (hpull id).bind fun place => ?_
  cases place with
  | some place => exact .pure rfl
  | none => exact .throw _

theorem tends_getField (n : ProgramNode) (offset : Nat) (type : Handle) :
    Tends sc {} (getField invoke pull n offset type) fun _ => {} :=
  (tends_pullTarget hpull n).bind fun _ => (Tends.looks (looks_nth _ _)).bind fun out =>
    (Tends.looks .read).bind fun _ =>
      (tends_fillOwned out _ _ fun _ => Invoke.tidy_copyAt h _ _ _).bind fun _ => .pure rfl

theorem tends_evaluate (n : ProgramNode) :
    Tends sc {} (evaluate invoke pull n) fun _ => {} := by
  refine tends_tick.bind fun _ => (tends_noteNode _ _).bind fun _ => ?_
  cases n.op with
  | call f => exact tends_callNode h hpull n f
  | fieldGet offset type => exact tends_getField h hpull n offset type
  | _ => exact .throw _

theorem tends_pullOutput (output : PinId) :
    Tends sc {} (pullOutput invoke pull output) fun _ => {} := by
  have hvalue : Tends sc {}
      (frame >>= fun f => program >>= fun p => Pure.pure (f.value? p output)) fun _ => {} :=
    (Tends.looks looks_frame).bind fun _ => (Tends.looks looks_program).bind fun _ => .pure rfl
  refine (Tends.looks (looks_pin output)).bind fun p =>
    (Tends.looks (looks_node p.node)).bind fun n => ?_
  split
  · exact (Tends.looks (looks_nth _ _)).bind fun id => hpull id
  · dsimp only
    split
    · refine (Tends.looks looks_frame).bind fun f => ?_
      split
      · exact (tends_evaluate h hpull n).bind fun _ => hvalue
      · exact hvalue
    · refine (Tends.looks looks_frame).bind fun f => ?_
      split
      · exact (Tends.looks (.throw _)).bind fun _ => hvalue
      · exact hvalue

theorem tends_supply (id : PinId) : Tends sc {} (supply invoke pull id) fun _ => {} := by
  refine (Tends.looks (looks_pin id)).bind fun p => ?_
  cases p.source with
  | some output => exact tends_pullOutput h hpull output
  | none => exact tends_fallback h id

omit h hpull in
theorem tends_watchInput (id : PinId) (data : Option Place) :
    Tends sc {} (watchInput id data) fun _ => {} := by
  refine (Tends.looks .read).bind fun s => ?_
  split
  · exact .liftTotal (.idle (.modify fun _ => ⟨rfl, rfl⟩))
  · exact .pure rfl

theorem tends_pullStep (id : PinId) : Tends sc {} (pullStep invoke pull id) fun _ => {} :=
  (tends_supply h hpull id).bind fun data => (tends_watchInput id data).bind fun _ => .pure rfl

omit hpull

theorem tends_pullWithin (count : Nat) (id : PinId) :
    Tends sc {} (pullWithin invoke count id) fun _ => {} := by
  induction count generalizing id with
  | zero => exact .throw _
  | succ count ih => exact tends_pullStep h ih id

theorem tends_pullInput (id : PinId) : Tends sc {} (pullInput invoke id) fun _ => {} :=
  (Tends.looks looks_program).bind fun _ => tends_pullWithin h _ id

theorem tends_pullAtom (id : PinId) (name : String) (prim : Prim) :
    Tends sc {} (pullAtom invoke id name prim) fun _ => {} := by
  refine (tends_pullInput h id).bind fun place => ?_
  cases place with
  | none => exact .throw _
  | some place =>
    exact (Tends.looks (looks_expectType id name)).bind fun _ =>
      (Tends.looks looks_memory).bind fun _ => .pure rfl

theorem tends_pullBool (id : PinId) : Tends sc {} (pullBool invoke id) fun _ => {} :=
  (tends_pullAtom h id _ _).bind fun _ => .pure rfl

theorem tends_pullInt (id : PinId) : Tends sc {} (pullInt invoke id) fun _ => {} := by
  refine (tends_pullAtom h id _ _).bind fun atom => ?_
  cases atom <;> exact .pure rfl

/-- The index of a counting loop is written anew on every visit, after the old one has ended. -/
theorem tends_visitFor (n : ProgramNode) (via : Option PinId) :
    Tends sc {} (visitFor invoke n via) fun _ => {} := by
  refine (Tends.looks (looks_nth _ _)).bind fun break' =>
    (Tends.looks (looks_nth _ _)).bind fun index => (Tends.looks (looks_nth _ _)).bind fun body =>
      (Tends.looks (looks_nth _ _)).bind fun completed => ?_
  have hend : Tends sc {}
      (nth n.dataIn 1 >>= fun id => pullInt invoke id >>= fun stop => readInt index >>= fun i =>
        if i ≥ stop then complete n completed else target body) fun _ => {} := by
    refine (Tends.looks (looks_nth _ _)).bind fun id => (tends_pullInt h id).bind fun stop =>
      (Tends.looks (looks_readInt index)).bind fun i => ?_
    split
    · exact tends_complete n completed
    · exact .looks (looks_target body)
  split
  · exact tends_complete n completed
  · cases via with
    | some pin =>
      exact (Tends.looks (looks_nth _ _)).bind fun id => (tends_pullInt h id).bind fun start =>
        (tends_writeInt index start).bind fun _ => (tends_enterLoop _).bind fun _ => hend
    | none =>
      exact (Tends.looks (looks_readInt index)).bind fun _ =>
        (tends_writeInt index _).bind fun _ => hend

theorem tends_visitWhile (n : ProgramNode) (via : Option PinId) :
    Tends sc {} (visitWhile invoke n via) fun _ => {} := by
  refine (Tends.looks (looks_nth _ _)).bind fun break' =>
    (Tends.looks (looks_nth _ _)).bind fun body =>
      (Tends.looks (looks_nth _ _)).bind fun completed => ?_
  have hend : Tends sc {}
      (nth n.dataIn 0 >>= fun id => pullBool invoke id >>= fun condition =>
        if condition then target body else complete n completed) fun _ => {} := by
    refine (Tends.looks (looks_nth _ _)).bind fun id => (tends_pullBool h id).bind fun condition => ?_
    split
    · exact .looks (looks_target body)
    · exact tends_complete n completed
  split
  · exact tends_complete n completed
  · split
    · exact (tends_enterLoop _).bind fun _ => hend
    · exact hend

/-- The copy that is written to a field is moved there, so that it does not end with the call. -/
theorem tends_setField (n : ProgramNode) (offset : Nat) (type : Handle) :
    Tends sc {} (setField invoke n offset type) fun _ => {} := by
  refine (tends_pullTarget (tends_pullInput h) n).bind fun owner =>
    (Tends.looks (looks_nth _ _)).bind fun id => (tends_pullInput h id).bind fun source => ?_
  cases source with
  | none => exact .throw _
  | some source =>
    refine (Tends.looks .read).bind fun s => tends_withStack ?_
    exact ((tends_copyTemp h _ source).mapError _).bind fun temp => .liftTotal
      (Exec.tidy_moveAway _ _ _ fun m => m.next_transfer _ _ _)

end Calls

end Run

end Flowscript
