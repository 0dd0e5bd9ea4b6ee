import Flowscript.Proofs.Run.FaithfulFunctions

/-! # What running calls rely on

`Upholds` says what holds of a running call before and after a computation, as long as no value goes
astray and no reference is left dangling; and that all inputs are given sound data meanwhile. It has
the laws of a logic of programs. What a call relies on is `Activation.Upright`: what was lent to it and
what it left aside is in care, the worlds were lent, and the slots of its frame are as they should be.
-/
namespace Flowscript

variable {ε α β : Type}

structure Terms where
  lies : Layouts
  /-- The values of the host. -/
  hosts : List Charge
  /-- The values that were lent to the call. -/
  lent : List Charge
  /-- The values that were in care before the call. -/
  others : List Charge
  /-- What inputs were given before. -/
  start : List Use
  /-- The first block of the frame. -/
  first : Nat

/-- What holds of a call before and after a computation, if nothing is marred meanwhile. Inputs are
given sound data even by a computation that fails. -/
def UpholdsAt (T : Terms) (sc : Scope) (P : Activation → Prop) (x : Run α)
    (Q : α → Activation → Prop) (a : Activation) : Prop :=
  Ensures x sc a
    (fun r b => a.machine.Onward b.machine ∧ (a.machine.Unmarred b.machine →
      a.machine.Watched T.lies T.start → P a → b.machine.Watched T.lies T.start ∧ Q r b))
    fun _ b => a.machine.Onward b.machine ∧ (a.machine.Unmarred b.machine →
      a.machine.Watched T.lies T.start → P a → b.machine.Watched T.lies T.start)

def Upholds (T : Terms) (sc : Scope) (P : Activation → Prop) (x : Run α) (Q : α → Activation → Prop) :
    Prop := ∀ a, UpholdsAt T sc P x Q a

/-- A computation of a call that remembers nothing and lets nothing go astray. -/
def Modest (sc : Scope) (x : Run α) : Prop :=
  ∀ a, Ensures x sc a
    (fun _ b => b.machine.watch = a.machine.watch ∧ b.machine.care.strays = a.machine.care.strays)
    fun _ b => b.machine.watch = a.machine.watch ∧ b.machine.care.strays = a.machine.care.strays

variable {T : Terms} {sc : Scope}

namespace Modest

theorem bind {x : Run β} {f : β → Run α} (hx : Modest sc x) (hf : ∀ b, Modest sc (f b)) :
    Modest sc (x >>= f) := fun a =>
  Ensures.bind_iff.mpr ((hx a).mono (fun b t ht => (hf b t).mono
    (fun _ _ h => ⟨h.1.trans ht.1, h.2.trans ht.2⟩) fun _ _ h => ⟨h.1.trans ht.1, h.2.trans ht.2⟩)
    fun _ _ h => h)

theorem looks {x : Run α} (hx : Looks x) : Modest sc x := fun a =>
  (hx sc a).mono (fun _ _ h => by rw [h]; exact ⟨rfl, rfl⟩) fun _ _ h => by rw [h]; exact ⟨rfl, rfl⟩

theorem pure (r : α) : Modest sc (Pure.pure r : Run α) := looks (.pure r)

theorem throw (e : ScriptError) : Modest sc (MonadExcept.throw e : Run α) := looks (.throw e)

theorem modifyFrame (f : Frame → Frame) : Modest sc (Run.modifyFrame f) := fun _ => ⟨rfl, rfl⟩

theorem modifyInterpreter (f : Interpreter → Interpreter) : Modest sc (Run.modifyInterpreter f) :=
  fun a => ⟨a.machine.watch_modifyInterpreter sc.seat f,
    congrArg Care.strays (a.machine.care_modifyInterpreter sc.seat f)⟩

theorem liftTotal {x : Exec Empty α}
    (hx : ∀ m, Ensures x sc.context m
      (fun _ m' => m'.watch = m.watch ∧ m'.care.strays = m.care.strays) fun _ _ => True) :
    Modest sc (Run.liftTotal x) := fun a => Ensures.run_liftTotal_iff.mpr (hx a.machine)

end Modest

theorem UpholdsAt.bind {P : Activation → Prop} {Q : α → Activation → Prop} {x : Run β}
    {f : β → Run α} {R S : β → Activation → Prop} {a : Activation} (hx : UpholdsAt T sc P x R a)
    (hS : Ensures x sc a S fun _ _ => True)
    (hf : ∀ r b, S r b → UpholdsAt T sc (R r) (f r) Q b) : UpholdsAt T sc P (x >>= f) Q a := by
  refine Ensures.bind_iff.mpr ((Ensures.and hx hS).mono (fun r b hb => ?_) fun _ _ h => h.1)
  obtain ⟨hb, hr⟩ := hb
  refine (hf r b hr).mono (fun r' c hc => ⟨hb.1.trans hc.1, fun hu hw hP => ?_⟩)
    fun _ c hc => ⟨hb.1.trans hc.1, fun hu hw hP => ?_⟩
  · obtain ⟨hu₁, hu₂⟩ := hu.split hb.1 hc.1
    obtain ⟨hw', hR⟩ := hb.2 hu₁ hw hP
    exact hc.2 hu₂ hw' hR
  · obtain ⟨hu₁, hu₂⟩ := hu.split hb.1 hc.1
    obtain ⟨hw', hR⟩ := hb.2 hu₁ hw hP
    exact hc.2 hu₂ hw' hR

namespace Upholds

variable {P P' : Activation → Prop} {Q Q' : α → Activation → Prop}

theorem bind {x : Run β} {f : β → Run α} {R : β → Activation → Prop} (hx : Upholds T sc P x R)
    (hf : ∀ r, Upholds T sc (R r) (f r) Q) : Upholds T sc P (x >>= f) Q := fun a =>
  (hx a).bind (S := fun _ _ => True) ((hx a).mono (fun _ _ _ => trivial) fun _ _ _ => trivial)
    fun r b _ => hf r b

theorem mono {x : Run α} (hx : Upholds T sc P x Q) (hP : ∀ a, P' a → P a)
    (hQ : ∀ r b, Q r b → Q' r b) : Upholds T sc P' x Q' := fun a =>
  (hx a).mono (fun r b h => ⟨h.1, fun hu hw hP' => (h.2 hu hw (hP a hP')).imp_right (hQ r b)⟩)
    fun _ _ h => ⟨h.1, fun hu hw hP' => h.2 hu hw (hP a hP')⟩

theorem of_exists {ι : Type} [Nonempty ι] {P : ι → Activation → Prop} {x : Run α}
    (hx : ∀ i, Upholds T sc (P i) x Q) : Upholds T sc (fun a => ∃ i, P i a) x Q := by
  intro a
  -- Of all choices at once, so that what happens without any is known too.
  have hall : Ensures x sc a
      (fun r b => ∀ i, a.machine.Onward b.machine ∧ (a.machine.Unmarred b.machine →
        a.machine.Watched T.lies T.start → P i a → b.machine.Watched T.lies T.start ∧ Q r b))
      fun _ b => ∀ i, a.machine.Onward b.machine ∧ (a.machine.Unmarred b.machine →
        a.machine.Watched T.lies T.start → P i a → b.machine.Watched T.lies T.start) := by
    unfold Ensures
    cases hr : x sc a with
    | ok r b => exact fun i => (hx i a).ok hr
    | error e b => exact fun i => (hx i a).error hr
  obtain ⟨i₀⟩ := ‹Nonempty ι›
  exact hall.mono (fun r b h => ⟨(h i₀).1, fun hu hw ⟨i, hP⟩ => (h i).2 hu hw hP⟩)
    fun _ b h => ⟨(h i₀).1, fun hu hw ⟨i, hP⟩ => (h i).2 hu hw hP⟩

theorem and_pure {x : Run α} (hx : Upholds T sc P x Q) (S : Prop) :
    Upholds T sc (fun a => S ∧ P a) x fun r b => S ∧ Q r b := fun a =>
  (hx a).mono (fun _ _ h => ⟨h.1, fun hu hw hP => (h.2 hu hw hP.2).imp_right (⟨hP.1, ·⟩)⟩)
    fun _ _ h => ⟨h.1, fun hu hw hP => h.2 hu hw hP.2⟩

theorem and {x : Run α} (hx : Upholds T sc P x Q) (hx' : Upholds T sc P x Q') :
    Upholds T sc P x fun r b => Q r b ∧ Q' r b := fun a =>
  ((hx a).and (hx' a)).mono
    (fun _ _ h => ⟨h.1.1, fun hu hw hP =>
      ⟨(h.1.2 hu hw hP).1, (h.1.2 hu hw hP).2, (h.2.2 hu hw hP).2⟩⟩) fun _ _ h => h.1

theorem pure {r : α} (h : ∀ a, P a → Q r a) : Upholds T sc P (Pure.pure r : Run α) Q := fun a =>
  ⟨.refl _, fun _ hw hP => ⟨hw, h a hP⟩⟩

theorem throw (e : ScriptError) : Upholds T sc P (MonadExcept.throw e : Run α) Q := fun _ =>
  ⟨.refl _, fun _ hw _ => hw⟩

theorem mapError {x : Run α} (f : ScriptError → ScriptError) (hx : Upholds T sc P x Q) :
    Upholds T sc P (x.mapError f) Q := fun a => Ensures.run_mapError_iff.mpr (hx a)

theorem attempt {x : Run α} (hx : Upholds T sc P x Q) :
    Upholds T sc P x.attempt fun outcome b => ∀ r, outcome = .ok r → Q r b := fun a =>
  Ensures.run_attempt_iff.mpr ((hx a).mono
    (fun r b h => ⟨h.1, fun hu hw hP => (h.2 hu hw hP).imp_right fun hQ r' hr' => by
      cases hr'
      exact hQ⟩)
    fun e b h => ⟨h.1, fun hu hw hP => ⟨h.2 hu hw hP, fun _ hok => nomatch hok⟩⟩)

/-- What is known otherwise of a computation holds besides. -/
theorem along {x : Run α} (hx : Upholds T sc P x Q) {S : α → Activation → Prop}
    (hS : ∀ a, P a → Ensures x sc a S fun _ _ => True) :
    Upholds T sc P x fun r b => Q r b ∧ S r b := by
  intro a
  have hboth : Ensures x sc a (fun r b => P a → S r b) fun _ _ => True := by
    by_cases hP : P a
    · exact (hS a hP).mono (fun _ _ h _ => h) fun _ _ _ => trivial
    · exact (hx a).mono (fun _ _ _ h => absurd h hP) fun _ _ _ => trivial
  exact ((hx a).and hboth).mono
    (fun r b h => ⟨h.1.1, fun hu hw hP => (h.1.2 hu hw hP).imp_right (⟨·, h.2 hP⟩)⟩) fun _ _ h => h.1

theorem modest {x : Run α} (hm : Modest sc x)
    (hx : ∀ a, P a → Ensures x sc a Q fun _ _ => True) : Upholds T sc P x Q := by
  have hkeeps : Upholds T sc P x fun _ _ => True := fun a => (hm a).mono
    (fun r b h => ⟨.of_eq h.1 h.2, fun _ hw _ => ⟨hw.of_watch h.1, trivial⟩⟩)
    fun _ b h => ⟨.of_eq h.1 h.2, fun _ hw _ => hw.of_watch h.1⟩
  exact (hkeeps.along hx).mono (fun _ hP => hP) fun _ _ h => h.2

theorem looks {x : Run α} (hl : Looks x) : Upholds T sc P x fun _ => P := fun a =>
  (hl sc a).mono (fun _ _ h => by rw [h]; exact ⟨.refl _, fun _ hw hP => ⟨hw, hP⟩⟩)
    fun _ _ h => by rw [h]; exact ⟨.refl _, fun _ hw _ => hw⟩

theorem look {x : Run β} {f : β → Run α} {S : β → Prop} (hl : Looks x)
    (hx : ∀ a, Ensures x sc a (fun r _ => S r) fun _ _ => True)
    (hf : ∀ r, S r → Upholds T sc P (f r) Q) : Upholds T sc P (x >>= f) Q := by
  intro a
  refine Ensures.bind_iff.mpr (((hl sc a).and (hx a)).mono ?_ ?_)
  · rintro r b ⟨rfl, hr⟩
    exact hf r hr b
  · rintro _ b ⟨rfl, -⟩
    exact ⟨.refl _, fun _ hw _ => hw⟩

theorem look_pin {id : PinId} {f : ProgramPin → Run α}
    (hf : ∀ q, sc.program.pin? id = some q → Upholds T sc P (f q) Q) :
    Upholds T sc P (Run.pin id >>= f) Q := by
  refine look (Run.looks_pin id) (fun a => ?_) hf
  simp only [Run.pin, Ensures.bind_iff, Ensures.run_program_iff]
  cases h : sc.program.pin? id with
  | some q => exact rfl
  | none => trivial

theorem look_node {id : NodeId} {f : ProgramNode → Run α}
    (hf : ∀ n, sc.program.node? id = some n → Upholds T sc P (f n) Q) :
    Upholds T sc P (Run.node id >>= f) Q := by
  refine look (Run.looks_node id) (fun a => ?_) hf
  simp only [Run.node, Ensures.bind_iff, Ensures.run_program_iff]
  cases h : sc.program.node? id with
  | some n => exact rfl
  | none => trivial

theorem look_nth {pins : List PinId} {index : Nat} {f : PinId → Run α}
    (hf : ∀ id, pins[index]? = some id → Upholds T sc P (f id) Q) :
    Upholds T sc P (Run.nth pins index >>= f) Q := by
  refine look (Run.looks_nth pins index) (fun a => ?_) hf
  unfold Run.nth
  cases h : pins[index]? with
  | some id => exact rfl
  | none => trivial

theorem look_pinType {id : PinId} {f : TypeInfo → Run α}
    (hf : ∀ q h, sc.program.pin? id = some q → q.type = some h →
      Upholds T sc P (f (sc.context.catalogue.info h)) Q) :
    Upholds T sc P (Run.pinType id >>= f) Q := by
  refine look (S := fun t => ∃ q h, sc.program.pin? id = some q ∧ q.type = some h ∧
    t = sc.context.catalogue.info h) (Run.looks_pinType id) (fun a => ?_) ?_
  · simp only [Run.pinType, Run.pin, Ensures.bind_iff, Ensures.run_program_iff]
    cases hq : sc.program.pin? id with
    | none => trivial
    | some q =>
      simp only [Ensures.pure_iff]
      cases hh : q.type with
      | none => trivial
      | some h => exact ⟨q, h, rfl, hh, rfl⟩
  · rintro t ⟨q, h, hq, hh, rfl⟩
    exact hf q h hq hh

theorem look_read {f : Scope → Run α} (hf : Upholds T sc P (f sc) Q) :
    Upholds T sc P (read >>= f) Q :=
  look (S := (· = sc)) .read (fun _ => rfl) fun _ hr => by rw [hr]; exact hf

theorem look_program {f : Program → Run α} (hf : Upholds T sc P (f sc.program) Q) :
    Upholds T sc P (Run.program >>= f) Q :=
  look (S := (· = sc.program)) Run.looks_program (fun _ => rfl) fun _ hr => by rw [hr]; exact hf

theorem look_frame {f : Frame → Run α}
    (hf : ∀ fr, Upholds T sc (fun a => P a ∧ a.frame = fr) (f fr) Q) :
    Upholds T sc P (Run.frame >>= f) Q := fun a =>
  (hf a.frame a).mono (fun _ _ h => ⟨h.1, fun hu hw hP => h.2 hu hw ⟨hP, rfl⟩⟩)
    fun _ _ h => ⟨h.1, fun hu hw hP => h.2 hu hw ⟨hP, rfl⟩⟩

theorem look_interpreter {f : Interpreter → Run α}
    (hf : ∀ i, Upholds T sc (fun a => P a ∧ a.machine.interpreter sc.seat = i) (f i) Q) :
    Upholds T sc P (Run.interpreter >>= f) Q := fun a =>
  (hf _ a).mono (fun _ _ h => ⟨h.1, fun hu hw hP => h.2 hu hw ⟨hP, rfl⟩⟩)
    fun _ _ h => ⟨h.1, fun hu hw hP => h.2 hu hw ⟨hP, rfl⟩⟩

/-- Something modest is done afterwards, whether the computation failed or not. -/
theorem andFinally {x : Run α} {after : Exec Empty Unit} (hx : Upholds T sc P x Q)
    (ha : ∀ m, Ensures after sc.context m
      (fun _ m' => m'.watch = m.watch ∧ m'.care.strays = m.care.strays) fun _ _ => True)
    (hQ : ∀ r b, Q r b → Ensures after sc.context b.machine (fun _ m => Q' r ⟨b.frame, m⟩)
      fun _ _ => True) : Upholds T sc P (x.andFinally after) Q' := by
  intro a
  refine Ensures.run_andFinally_iff.mpr ((hx a).mono (fun r b hb => ?_) fun e b hb => ?_)
  · have hpost : Ensures after sc.context b.machine (fun _ m => Q r b → Q' r ⟨b.frame, m⟩)
        fun _ _ => True := by
      by_cases hr : Q r b
      · exact (hQ r b hr).mono (fun _ _ h _ => h) fun _ _ _ => trivial
      · exact (ha b.machine).mono (fun _ _ _ h => absurd h hr) fun _ _ _ => trivial
    refine ((ha b.machine).and hpost).mono (fun _ m hm => ?_) fun _ _ _ => trivial
    have honward : b.machine.Onward m := .of_eq hm.1.1 hm.1.2
    refine ⟨hb.1.trans honward, fun hu hw hP => ?_⟩
    obtain ⟨hw', hr⟩ := hb.2 (hu.split hb.1 honward).1 hw hP
    exact ⟨hw'.of_watch hm.1.1, hm.2 hr⟩
  · refine (ha b.machine).mono (fun _ m hm => ?_) fun _ _ _ => trivial
    have honward : b.machine.Onward m := .of_eq hm.1 hm.2
    refine ⟨hb.1.trans honward, fun hu hw hP => ?_⟩
    exact (hb.2 (hu.split hb.1 honward).1 hw hP).of_watch hm.1

end Upholds

namespace Activation

/-- What a call relies on: what was in care before and what is left aside still is, the owner of the
function and the worlds were lent, and the frame is as described. -/
structure Upright (T : Terms) (sc : Scope) (room : Nat → Prop) (aside : List Charge) (hand : Hand)
    (F : Frame → Prop) (a : Activation) : Prop where
  holds : ∃ faults, a.Holds sc T.first faults room (aside ++ T.others) hand
  lent : ∀ v ∈ T.lent, v ∈ T.others
  hosts : ∀ v ∈ T.hosts, v ∈ T.lent
  this : ∀ place type, sc.this = some place → sc.program.thisType = some type →
    Lent T.lies T.lent place type
  world : a.machine.Worldly T.lies T.lent
  frame : F a.frame

namespace Upright

variable {room : Nat → Prop} {aside : List Charge} {hand hand' : Hand} {F G : Frame → Prop}
  {a b : Activation}

theorem imp (h : a.Upright T sc room aside hand F) (hF : F a.frame → G a.frame) :
    a.Upright T sc room aside hand G := { h with frame := hF h.frame }

theorem alive (h : a.Upright T sc room aside hand F) :
    ∀ v ∈ a.frame.charges sc.context.catalogue sc.program ++ (aside ++ T.others),
      v ∈ a.machine.care.alive := by
  obtain ⟨faults, hholds⟩ := h.holds
  exact fun v hv => hholds.machine.alive.mem_iff.mpr (List.mem_append_right _ hv)

theorem ordered (h : a.Upright T sc room aside hand F) : a.machine.Ordered := by
  obtain ⟨faults, hholds⟩ := h.holds
  exact fun v hv => hholds.machine.known v (hholds.machine.alive.mem_iff.mp hv)

/-- A call may lend whatever is in care besides what is in hand, and what was lent to it. -/
theorem fair {lent : List Charge} (h : a.Upright T sc room aside hand F)
    (hw : a.machine.Watched T.lies T.start) (hlent : ∀ v ∈ T.lent, v ∈ lent)
    (halive : ∀ v ∈ lent,
      v ∈ a.frame.charges sc.context.catalogue sc.program ++ (aside ++ T.others)) :
    a.machine.Fair T.lies T.hosts lent T.start :=
  ⟨h.ordered, fun v hv => h.alive v (halive v hv), fun v hv => hlent v (h.hosts v hv),
    fun seat type place hworld => (h.world seat type place hworld).mono hlent, hw⟩

/-- What a computation does to the values in care and to the stack, if nothing goes astray. -/
theorem carry (h : a.Upright T sc room aside hand F) (hc : a.Carries sc hand hand' b)
    (hs : b.machine.care.strays.length = a.machine.care.strays.length)
    (hg : a.Grows .any sc.seat b) (hG : G b.frame) : b.Upright T sc room aside hand' G := by
  obtain ⟨faults, hholds⟩ := h.holds
  refine ⟨⟨faults, ?_⟩, h.lent, h.hosts, h.this, fun seat type place hworld => ?_, hG⟩
  · refine ((hc.holds _ _ _ _ hholds).resolve_left fun hspoilt => ?_).2
    have := hspoilt.machine.grew
    omega
  · refine h.world seat type place ?_
    by_cases hseat : seat = sc.seat
    · rw [hseat] at hworld ⊢
      exact hg.machine.world.symm.trans hworld
    · exact (congrArg Stance.world (hg.machine.others seat hseat)).symm.trans hworld

end Upright

end Activation

open Activation (Upright)

namespace Upholds

variable {room : Nat → Prop} {aside : List Charge} {hand : Hand} {after : α → Hand}
  {F : Frame → Prop} {G : α → Frame → Prop}

/-- What a computation does to the values in care and to the stack is known of it as a whole. -/
theorem whole {x : Run α} (ht : Tends sc hand x after)
    (hs : Steady sc (.free .any sc.seat) .growing fun _ => x)
    (hx : Upholds T sc (Upright T sc room aside hand F) x fun r b => G r b.frame) :
    Upholds T sc (Upright T sc room aside hand F) x fun r =>
      Upright T sc room aside (after r) (G r) := by
  intro a
  refine (((ht a).and (hs.ensures trivial)).and (hx a)).mono
    (fun r b h => ⟨h.2.1, fun hu hw ha => ?_⟩) fun _ _ h => h.2
  obtain ⟨hw', hG⟩ := h.2.2 hu hw ha
  exact ⟨hw', ha.carry h.1.1 hu.strays h.1.2 hG⟩

theorem tended {x : Run α} (hm : Modest sc x) (ht : Tends sc hand x after)
    (hs : Steady sc (.free .any sc.seat) .growing fun _ => x)
    (hF : ∀ a, F a.frame → Ensures x sc a (fun r b => G r b.frame) fun _ _ => True) :
    Upholds T sc (Upright T sc room aside hand F) x fun r =>
      Upright T sc room aside (after r) (G r) :=
  whole ht hs (modest hm fun a ha => hF a ha.frame)

end Upholds

end Flowscript
