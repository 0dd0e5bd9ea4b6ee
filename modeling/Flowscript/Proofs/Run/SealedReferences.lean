import Flowscript.Proofs.Machine.SealedBlocks

/-! # References into a sealed block

Slots may refer into a sealed block, and so may what is pulled from them. `Scope.Custody` says how far
such references get in a call: to which outputs, from there to which inputs, and that the functions that
are called with them keep the seal. Then all that is pulled keeps it, too.
-/
namespace Flowscript

variable {ε α : Type} {κ : Seal} {I : Machine → Prop} {S D : PinId → Prop} {sc : Scope}
  {invoke : Invoke} {R : α → Prop}

/-- The machine keeps the seal; the frame has other blocks, and refers into this one from slots that
may. -/
structure Activation.Bears (κ : Seal) (I : Machine → Prop) (S : PinId → Prop) (a : Activation) :
    Prop where
  machine : I a.machine
  apart : κ.block < a.frame.firstBlock
  slots : ∀ id place, a.frame.state id = .borrowed place → place.block = κ.block → S id

namespace Frame

theorem state_set_cases (f : Frame) (id other : PinId) (state : SlotState) :
    (f.set id state).state other = f.state other ∨
      other = id ∧ (f.set id state).state other = state := by
  by_cases hother : other = id
  · by_cases hmem : other ∈ f.ids
    · exact .inr ⟨hother, hother ▸ state_set_self (hother ▸ hmem)⟩
    · left
      rw [state_of_not_mem hmem, state_of_not_mem (by rwa [ids_set])]
  · exact .inl (state_set_of_ne hother)

theorem firstBlock_le_of_storage? {f : Frame} {p : Program} {id : PinId} {place : Place}
    (h : f.storage? p id = some place) : f.firstBlock ≤ place.block := by
  unfold storage? at h
  split at h
  · split at h
    · cases h
      exact Nat.le_add_right _ _
    · cases h
  · cases h

end Frame

namespace Activation.Bears

variable {a : Activation} {p : Program}

theorem storage (h : a.Bears κ I S) {id : PinId} {place : Place}
    (hplace : a.frame.storage? p id = some place) : place.block ≠ κ.block :=
  Nat.ne_of_gt (h.apart.trans_le (Frame.firstBlock_le_of_storage? hplace))

/-- What a slot holds lies in the block only if the slot may refer there. -/
theorem value (h : a.Bears κ I S) (id : PinId) : κ.Only (S id) (a.frame.value? p id) := by
  intro place hplace hblock
  unfold Frame.value? at hplace
  cases hstate : a.frame.state id with
  | owned =>
    rw [hstate] at hplace
    exact absurd hblock (h.storage hplace)
  | borrowed source =>
    rw [hstate] at hplace
    cases hplace
    exact h.slots id _ hstate hblock
  | empty => rw [hstate] at hplace; cases hplace
  | null => rw [hstate] at hplace; cases hplace

theorem congr {m : Machine} {f : Frame} (h : a.Bears κ I S) (hm : I m)
    (hfirst : f.firstBlock = a.frame.firstBlock)
    (hstate : ∀ id place, f.state id = .borrowed place → place.block = κ.block →
      a.frame.state id = .borrowed place ∨ S id) :
    Activation.Bears κ I S ⟨f, m⟩ :=
  ⟨hm, hfirst ▸ h.apart, fun id place hplace hblock =>
    (hstate id place hplace hblock).elim (h.slots id place · hblock) fun hmay => hmay⟩

end Activation.Bears

open Activation (Bears)

namespace Maintains

section Any

variable {J : Activation → Prop}

theorem mapError {x : Run α} (f : ScriptError → ScriptError) (hx : Maintains J sc x R) :
    Maintains J sc (x.mapError f) R := fun a ha =>
  Ensures.run_mapError_iff.mpr (hx a ha)

theorem attempt {x : Run α} (hx : Maintains J sc x R) :
    Maintains J sc x.attempt fun outcome => ∀ r, outcome = .ok r → R r := fun a ha =>
  Ensures.run_attempt_iff.mpr ((hx a ha).mono
    (fun r _ h => ⟨h.1, fun r' hr => by cases hr; exact h.2⟩)
    fun _ _ h => ⟨h, fun _ hr => nomatch hr⟩)

theorem look_pin {id : PinId} {f : ProgramPin → Run α}
    (hf : ∀ q, sc.program.pin? id = some q → Maintains J sc (f q) R) :
    Maintains J sc (Run.pin id >>= f) R := by
  refine look (Run.looks_pin id) (fun _ _ => ?_) hf
  simp only [Run.pin, Ensures.bind_iff, Ensures.run_program_iff]
  cases h : sc.program.pin? id with
  | some q => exact rfl
  | none => trivial

theorem look_node {id : NodeId} {f : ProgramNode → Run α}
    (hf : ∀ n, sc.program.node? id = some n → Maintains J sc (f n) R) :
    Maintains J sc (Run.node id >>= f) R := by
  refine look (Run.looks_node id) (fun _ _ => ?_) hf
  simp only [Run.node, Ensures.bind_iff, Ensures.run_program_iff]
  cases h : sc.program.node? id with
  | some n => exact rfl
  | none => trivial

theorem look_nth {pins : List PinId} {index : Nat} {f : PinId → Run α}
    (hf : ∀ id, pins[index]? = some id → Maintains J sc (f id) R) :
    Maintains J sc (Run.nth pins index >>= f) R := by
  refine look (Run.looks_nth pins index) (fun _ _ => ?_) hf
  unfold Run.nth
  cases h : pins[index]? with
  | some id => exact rfl
  | none => trivial

theorem look_pinType {id : PinId} {f : TypeInfo → Run α}
    (hf : ∀ h, Maintains J sc (f (sc.context.catalogue.info h)) R) :
    Maintains J sc (Run.pinType id >>= f) R := by
  refine look (S := fun t => ∃ h, t = sc.context.catalogue.info h) (Run.looks_pinType id)
    (fun _ _ => ?_) ?_
  · simp only [Run.pinType, Run.pin, Ensures.bind_iff, Ensures.run_program_iff]
    cases hq : sc.program.pin? id with
    | none => trivial
    | some q =>
      simp only [Ensures.pure_iff]
      cases hh : q.type with
      | none => trivial
      | some h => exact ⟨h, rfl⟩
  · rintro t ⟨h, rfl⟩
    exact hf h

theorem look_read {f : Scope → Run α} (hf : Maintains J sc (f sc) R) :
    Maintains J sc (read >>= f) R :=
  look (S := (· = sc)) .read (fun _ _ => rfl) fun _ hr => by rw [hr]; exact hf

theorem look_program {f : Program → Run α} (hf : Maintains J sc (f sc.program) R) :
    Maintains J sc (Run.program >>= f) R :=
  look (S := (· = sc.program)) Run.looks_program (fun _ _ => rfl) fun _ hr => by rw [hr]; exact hf

end Any

theorem lift {x : Exec ε α} (f : ε → ScriptError) (hx : Maintains I sc.context x R) :
    Maintains (Bears κ I S) sc (Run.lift f x) R := fun a ha =>
  Ensures.run_lift_iff.mpr ((hx a.machine ha.machine).mono
    (fun _ _ h => ⟨{ ha with machine := h.1 }, h.2⟩) fun _ _ h => { ha with machine := h })

theorem liftTotal {x : Exec Empty α} (hx : Maintains I sc.context x R) :
    Maintains (Bears κ I S) sc (Run.liftTotal x) R := fun a ha =>
  Ensures.run_liftTotal_iff.mpr ((hx a.machine ha.machine).mono
    (fun _ _ h => ⟨{ ha with machine := h.1 }, h.2⟩) fun _ _ _ => trivial)

theorem andFinally {x : Run α} {after : Exec Empty Unit} (hx : Maintains (Bears κ I S) sc x R)
    (hafter : Maintains I sc.context after fun _ => True) :
    Maintains (Bears κ I S) sc (x.andFinally after) R := fun a ha =>
  Ensures.run_andFinally_iff.mpr ((hx a ha).mono
    (fun _ b h => (hafter b.machine h.1.machine).mono
      (fun _ _ h' => ⟨{ h.1 with machine := h'.1 }, h.2⟩) fun _ _ _ => trivial)
    fun _ b h => (hafter b.machine h.machine).mono
      (fun _ _ h' => { h with machine := h'.1 }) fun _ _ _ => trivial)

theorem modifyInterpreter [Machine.Sealing κ I] {f : Interpreter → Interpreter}
    (hf : ∀ i, (f i).world = i.world) :
    Maintains (Bears κ I S) sc (Run.modifyInterpreter f) fun _ => True := fun _ ha =>
  ⟨{ ha with machine := Machine.Sealing.modifyInterpreter ha.machine sc.seat hf }, trivial⟩

theorem modifyFrame {f : Frame → Frame}
    (hf : ∀ g, (f g).firstBlock = g.firstBlock ∧ (f g).state = g.state) :
    Maintains (Bears κ I S) sc (Run.modifyFrame f) fun _ => True := fun a ha =>
  ⟨ha.congr ha.machine (hf a.frame).1 fun id place hplace _ => .inl (by rwa [(hf a.frame).2] at hplace),
    trivial⟩

theorem setSlot {id : PinId} {state : SlotState}
    (hstate : ∀ place, state = .borrowed place → place.block = κ.block → S id) :
    Maintains (Bears κ I S) sc (Run.modifyFrame (·.set id state)) fun _ => True := by
  refine fun a ha => ⟨ha.congr ha.machine (Frame.firstBlock_set _ _ _) ?_, trivial⟩
  intro other place hplace hblock
  rcases a.frame.state_set_cases id other state with hsame | ⟨rfl, hset⟩
  · exact .inl (hsame ▸ hplace)
  · exact .inr (hstate place (hset ▸ hplace) hblock)

theorem look_frame {f : Frame → Run α}
    (hf : ∀ g : Frame, (∀ id, κ.Only (S id) (g.value? sc.program id)) →
      Maintains (Bears κ I S) sc (f g) R) :
    Maintains (Bears κ I S) sc (Run.frame >>= f) R :=
  look (S := fun g : Frame => ∀ id, κ.Only (S id) (g.value? sc.program id)) Run.looks_frame
    (fun _ ha => ha.value) hf

theorem look_interpreter {f : Interpreter → Run α}
    (hf : ∀ m, I m → Maintains (Bears κ I S) sc (f (m.interpreter sc.seat)) R) :
    Maintains (Bears κ I S) sc (Run.interpreter >>= f) R := by
  refine look (S := fun i : Interpreter => ∃ m, I m ∧ m.interpreter sc.seat = i) Run.looks_interpreter
    (fun a ha => ⟨a.machine, ha.machine, rfl⟩) ?_
  rintro _ ⟨m, hm, rfl⟩
  exact hf m hm

theorem look_storage? {id : PinId} {f : Option Place → Run α}
    (hf : ∀ place, κ.Free place → Maintains (Bears κ I S) sc (f place) R) :
    Maintains (Bears κ I S) sc (Run.storage? id >>= f) R :=
  look (S := κ.Free) (Run.looks_storage? id) (fun _ ha _ hplace => ha.storage hplace) hf

theorem look_storage {id : PinId} {missing : String} {f : Place → Run α}
    (hf : ∀ place, place.block ≠ κ.block → Maintains (Bears κ I S) sc (f place) R) :
    Maintains (Bears κ I S) sc (Run.storage id missing >>= f) R := by
  refine look (Run.looks_storage id missing) (fun a ha => ?_) hf
  simp only [Run.storage, Run.storage?, Ensures.bind_iff, Ensures.run_frame_iff,
    Ensures.run_program_iff, Ensures.pure_iff]
  cases hplace : a.frame.storage? sc.program id with
  | some place => exact ha.storage hplace
  | none => trivial

end Maintains

namespace Run

variable {id : PinId}

/-- Arguments that lie in the sealed block are what inputs were given, in the form of the parameters,
and none is handed over. -/
def Lent (κ : Seal) (D : PinId → Prop) (pins : List (Param × PinId)) (args : List Value) : Prop :=
  List.Forall₂ (fun x v => κ.Only (v.form = x.1.form ∧ x.1.form.isOwning = false ∧ D x.2) v.place?)
    pins args

/-- A result in the sealed block does not own the data, and may go to the slot of the output. -/
def HandsOut (κ : Seal) (S : PinId → Prop) (out : Option PinId) (result : Option Value) : Prop :=
  ∀ v, result = some v → κ.Only (v.isOwning = false ∧ ∀ id, out = some id → S id) v.place?

theorem HandsOut.unowned {out : Option PinId} {result : Option Value} (h : HandsOut κ S out result) :
    κ.Unowned result := fun v hv place hplace hblock => (h v hv place hplace hblock).1

end Run

/-- The function that a node calls keeps the seal if it is lent what inputs were given, and hands out
references into the block only where they may go. -/
def Scope.Answers (κ : Seal) (I : Machine → Prop) (S D : PinId → Prop) (sc : Scope) (invoke : Invoke)
    (n : ProgramNode) (f : Function) : Prop :=
  ∀ args ret, Run.Lent κ D (f.params.zip n.dataIn) args → κ.Free ret →
    Maintains I sc.context (invoke f args ret) (Run.HandsOut κ S n.dataOut.head?)

/-- How far references into the sealed block get in a call: `S` says in which slots they may be, and `D`
which inputs may be given them. -/
structure Scope.Custody (κ : Seal) (I : Machine → Prop) (S D : PinId → Prop) (sc : Scope)
    (invoke : Invoke) : Prop where
  builds : invoke.Builds κ I sc.context
  this : ∀ id, κ.Only (D id) sc.this
  world : ∀ m, I m → ∀ id, κ.Only (D id) ((m.interpreter sc.seat).world.map (·.2))
  output : ∀ id o, sc.program.Source id o → S o → D id
  reroute : ∀ id j, (∀ o, sc.program.Source j o → sc.program.Source id o) → D j → D id
  answers : ∀ id n f, sc.program.node? id = some n → n.pure = true → n.op = .call f →
    sc.Answers κ I S D invoke n f

namespace Run

section Slots

variable {id : PinId} [hI : Machine.Sealing κ I]
include hI

theorem spares_noteNode (message : String) (n : ProgramNode) :
    Maintains (Bears κ I S) sc (noteNode message n) fun _ => True := by
  refine .look_read ?_
  split
  · exact .pure trivial
  · exact .liftTotal (Exec.spares_trace _ _)

theorem spares_tick : Maintains (Bears κ I S) sc tick fun _ => True := by
  refine .look_interpreter fun m _ => ?_
  dsimp only
  split
  · refine Maintains.andThen ?_ fun _ => .throw _
    exact .modifyInterpreter fun _ => rfl
  · exact .modifyInterpreter fun _ => rfl

theorem spares_clear (id : PinId) : Maintains (Bears κ I S) sc (clear id) fun _ => True := by
  have hempty : Maintains (Bears κ I S) sc (modifyFrame (·.set id .empty)) fun _ => True :=
    .setSlot fun _ h => nomatch h
  refine .look_program (.look_frame fun g _ => ?_)
  dsimp only
  split
  · split
    · exact .look_read ((Maintains.liftTotal (Exec.spares_endCharge _ _)).andThen fun _ => hempty)
    · exact hempty
  · exact hempty

theorem spares_setOwned (id : PinId) : Maintains (Bears κ I S) sc (setOwned id) fun _ => True := by
  have howned : Maintains (Bears κ I S) sc (modifyFrame (·.set id .owned)) fun _ => True :=
    .setSlot fun _ h => nomatch h
  refine (Maintains.looks (looks_charge? id)).bind fun charge _ => ?_
  cases charge with
  | none => exact howned
  | some v => exact (Maintains.liftTotal (Exec.spares_modifyCare _)).andThen fun _ => howned

theorem spares_setBorrowed {place : Place} (h : place.block = κ.block → S id) :
    Maintains (Bears κ I S) sc (setBorrowed id place) fun _ => True :=
  (spares_clear id).andThen fun _ => .setSlot fun _ hplace hblock => by cases hplace; exact h hblock

theorem spares_setNull (id : PinId) : Maintains (Bears κ I S) sc (setNull id) fun _ => True :=
  (spares_clear id).andThen fun _ => .setSlot fun _ h => nomatch h

theorem spares_writeInt (id : PinId) (n : Int) :
    Maintains (Bears κ I S) sc (writeInt id n) fun _ => True := by
  refine (spares_clear id).andThen fun _ => .look_storage? fun place hplace => ?_
  cases place with
  | none => exact .pure trivial
  | some place =>
    refine Maintains.bind (.liftTotal (.modifyMemory fun m => ⟨?_, Nat.le_refl m.next⟩)) fun _ _ =>
      spares_setOwned id
    exact m.block_write_of_ne _ _ (hplace place rfl)

theorem spares_allocTemp (l : Layout) : Maintains (Bears κ I S) sc (allocTemp l) κ.Free := by
  refine fun a ha => allocTemp_ensures (fun _ => ⟨ha, κ.free_none⟩) fun start stack _ => ⟨?_, ?_⟩
  · have hm := Machine.Sealing.modifyInterpreter ha.machine sc.seat (f := fun i => { i with stack })
      fun _ => rfl
    refine { ha with machine := Machine.Sealing.congr hm ?_ ?_ fun _ => rfl }
    · rw [Machine.memory_modifyInterpreter]
      rfl
    · rw [Machine.memory_modifyInterpreter]
      exact Nat.le_succ _
  · exact Seal.free_some (Nat.ne_of_gt (Machine.Sealing.known ha.machine))

theorem spares_withStack {x : Run α} (hx : Maintains (Bears κ I S) sc x R) :
    Maintains (Bears κ I S) sc (withStack x) R := by
  refine .look_interpreter fun m _ => .look_read ?_
  exact hx.andFinally (.modify fun m hm => Machine.Sealing.modifyInterpreter hm _ fun _ => rfl)

theorem spares_fillOwned (missing : String) {init : Place → Run Unit}
    (hinit : ∀ place, place.block ≠ κ.block →
      Maintains (Bears κ I S) sc (init place) fun _ => True) :
    Maintains (Bears κ I S) sc (fillOwned id missing init) κ.Free :=
  (spares_clear id).andThen fun _ => .look_storage fun place hplace =>
    (hinit place hplace).andThen fun _ => (spares_setOwned id).andThen fun _ =>
      .pure (Seal.free_some hplace)

theorem spares_resultStorage (out : Option PinId) (form : Option Form) :
    Maintains (Bears κ I S) sc (resultStorage out form) κ.Free := by
  unfold resultStorage
  split
  · split
    · refine (spares_clear _).andThen fun _ => ?_
      exact fun a ha => ⟨ha, fun place hplace => ha.storage hplace⟩
    · exact .pure κ.free_none
  · exact .pure κ.free_none

/-- A result in the sealed block is a reference, which goes to a slot that may refer there. -/
theorem spares_storeResult {form : Form} {result : Option Value}
    (hresult : HandsOut κ S (some id) result) :
    Maintains (Bears κ I S) sc (storeResult id form result) fun _ => True := by
  refine .look_storage? fun place hplace => ?_
  cases place with
  | none =>
    refine Maintains.andThen (.liftTotal ?_) fun _ => .throw _
    cases result with
    | none => exact .pure trivial
    | some v => exact Exec.spares_drop (hresult.unowned v rfl)
  | some place =>
    cases result with
    | none =>
      dsimp only
      split
      · exact spares_setOwned id
      · exact .throw _
    | some v =>
      dsimp only
      split
      · refine (spares_clear id).andThen fun _ => ?_
        exact Maintains.andThen (.liftTotal (Exec.spares_relocate (hresult.unowned v rfl)
          (hplace place rfl))) fun _ => spares_setOwned id
      · refine Maintains.andThen (.liftTotal (.modify fun m hm => ?_)) fun _ => ?_
        · rw [Machine.watchResult_eq]
          exact Machine.Sealing.congr hm rfl (Nat.le_refl _) fun _ => rfl
        · cases hsource : v.place? with
          | some source =>
            exact spares_setBorrowed fun hblock => (hresult v rfl source hsource hblock).2 id rfl
          | none => exact spares_setNull id

theorem spares_callFailure (f : Function) (e : CallError) :
    Maintains (Bears κ I S) sc (callFailure f e) fun _ => True := by
  refine .look_interpreter fun m _ => Maintains.andThen ?_ fun _ => ?_
  · exact .modifyInterpreter fun _ => rfl
  · split
    · split <;> exact .pure trivial
    · exact .pure trivial

theorem spares_watchInput (id : PinId) (data : Option Place) :
    Maintains (Bears κ I S) sc (watchInput id data) fun _ => True := by
  refine .look_read ?_
  split
  · exact .liftTotal (.modify fun _ hm => Machine.Sealing.congr hm rfl (Nat.le_refl _) fun _ => rfl)
  · exact .pure trivial

end Slots

/-- Inputs are given references into the block only if they may be. -/
def Supplies (κ : Seal) (I : Machine → Prop) (S D : PinId → Prop) (sc : Scope) (pull : Pull) : Prop :=
  ∀ id, Maintains (Bears κ I S) sc (pull id) (κ.Only (D id))

section Pulls

variable {pull : Pull} {n : ProgramNode} {nid : NodeId} {id : PinId}

/-- The data that a field is read from or written to is that of the first input. -/
theorem spares_pullTarget (hpull : Supplies κ I S D sc pull) :
    Maintains (Bears κ I S) sc (pullTarget pull n) fun place =>
      ∃ id, n.dataIn[0]? = some id ∧ κ.Only (D id) (some place) := by
  refine .look_nth fun id hid => (hpull id).bind fun data hdata => ?_
  cases data with
  | some place => exact .pure ⟨id, hid, hdata⟩
  | none => exact .throw _

variable [hI : Machine.Sealing κ I]
include hI

section Builds

variable (h : invoke.Builds κ I sc.context)
include h

theorem spares_copyTemp (handle : Handle) (source : Place) :
    Maintains (Bears κ I S) sc (copyTemp invoke (sc.context.catalogue.info handle) source)
      fun temp => temp.block ≠ κ.block := by
  refine (spares_allocTemp _).bind fun temp htemp => ?_
  cases temp with
  | none => exact .throw _
  | some temp =>
    have hfree := htemp temp rfl
    exact (Maintains.lift _ (Invoke.spares_copyAt h hfree handle source)).bind
      fun _ _ => (Maintains.liftTotal (Exec.spares_modifyCare _)).andThen fun _ => .pure hfree

theorem spares_constructed (id : PinId) (info : ProgramPin) (handle : Handle) {P : Prop}
    {world : Option (TypeId × Place)} (hworld : κ.Only P (world.map (·.2))) :
    Maintains (Bears κ I S) sc
      (fallback.constructed invoke id info (sc.context.catalogue.info handle) world) (κ.Only P) := by
  unfold fallback.constructed
  cases hfilter : world.filter (·.1 == (sc.context.catalogue.info handle).id) with
  | some found =>
    obtain ⟨rfl, -⟩ := Option.filter_eq_some_iff.mp hfilter
    exact .pure hworld
  | none =>
    dsimp only
    split
    · exact (spares_fillOwned _ fun place hplace =>
        .lift _ (Invoke.spares_defaultAt h hplace handle)).mono fun _ hfree => hfree.only P
    · split
      · exact (spares_setNull id).andThen fun _ => .pure (κ.free_none.only P)
      · exact .throw _

theorem spares_getField (hpull : Supplies κ I S D sc pull) (offset : Nat) (type : Handle) :
    Maintains (Bears κ I S) sc (getField invoke pull n offset type) fun _ => True := by
  refine (spares_pullTarget hpull).bind fun source _ => .look_nth fun out _ => .look_read ?_
  refine (spares_fillOwned _ fun place hplace => ?_).bind fun _ _ => .pure trivial
  exact .lift _ (Invoke.spares_copyAt h hplace type (source.shift offset))

theorem spares_withArguments (hpull : Supplies κ I S D sc pull) (f : Function)
    {pins : List (Param × PinId)} {k : List Value → Run α}
    (hk : ∀ args, Lent κ D pins args → Maintains (Bears κ I S) sc (k args) R) :
    Maintains (Bears κ I S) sc (withArguments invoke pull n f pins k) R := by
  induction pins generalizing k with
  | nil => exact hk [] .nil
  | cons first rest ih =>
    obtain ⟨p, id⟩ := first
    have hstep : ∀ v : Value,
        κ.Only (v.form = p.form ∧ p.form.isOwning = false ∧ D id) v.place? →
        Maintains (Bears κ I S) sc
          (withArguments invoke pull n f rest fun args => k (v :: args)) R :=
      fun v hv => ih fun args hargs => hk (v :: args) (.cons hv hargs)
    refine (hpull id).bind fun data hdata => .look_pinType fun handle => ?_
    cases data with
    | none =>
      dsimp only
      split
      · exact hstep _ fun _ hplace => nomatch hplace
      · exact .throw _
    | some source =>
      dsimp only
      split
      · refine ((spares_copyTemp h handle source).mapError _).bind fun temp htemp => ?_
        refine (hstep (.borrowed p.type p.form temp) ?_).andFinally
          ((Exec.spares_endCharge _ _).andThen fun _ => Exec.spares_free htemp)
        rw [Value.place?_borrowed]
        exact (Seal.free_some htemp).only _
      · rename_i howning
        refine hstep (.borrowed p.type p.form source) fun place hplace hblock => ?_
        rw [Value.place?_borrowed] at hplace
        exact ⟨rfl, Bool.not_eq_true _ ▸ howning, hdata place hplace hblock⟩

theorem spares_callNode (hpull : Supplies κ I S D sc pull) {f : Function}
    (hanswers : sc.Answers κ I S D invoke n f) :
    Maintains (Bears κ I S) sc (callNode invoke pull n f) fun _ => True := by
  have hcall : Maintains (Bears κ I S) sc
      (withStack <| withArguments invoke pull n f (f.params.zip n.dataIn) fun args => do
        let buffer ← resultStorage n.dataOut.head? (f.result.map (·.form))
        modifyInterpreter fun i => { i with nestedFailure := none }
        liftTotal (Exec.attempt (invoke f args buffer)))
      fun outcome => ∀ result, outcome = .ok result → HandsOut κ S n.dataOut.head? result := by
    refine spares_withStack (spares_withArguments h hpull f fun args hargs => ?_)
    refine (spares_resultStorage _ _).bind fun buffer hbuffer => ?_
    refine Maintains.andThen (.modifyInterpreter fun _ => rfl) fun _ => .liftTotal ?_
    exact (hanswers args buffer hargs hbuffer).exec_attempt
  refine hcall.bind fun outcome houtcome => ?_
  cases outcome with
  | error e => exact (spares_callFailure f e).andThen fun _ => .throw _
  | ok result =>
    have hhands := houtcome result rfl
    dsimp only
    split
    · rename_i out form hout hform
      rw [hout] at hhands
      exact .mapError _ (spares_storeResult hhands)

    · refine .liftTotal ?_
      cases result with
      | none => exact .pure trivial
      | some v => exact Exec.spares_drop (hhands.unowned v rfl)

end Builds

variable (h : sc.Custody κ I S D invoke)
include h

/-- An input that is not linked is given the owner of the function or the world only if it may be. -/
theorem spares_fallback : Maintains (Bears κ I S) sc (fallback invoke id) (κ.Only (D id)) := by
  refine .look_pin fun info _ => .look_pinType fun handle => .look_read ?_
  cases info.default with
  | some j =>
    exact (spares_fillOwned _ fun place hplace =>
      .lift _ (Invoke.spares_decodeAt h.builds _ j hplace)).mono fun _ hfree => hfree.only _
  | none =>
    refine .look_interpreter fun m hm => ?_
    have hconstructed := spares_constructed (S := S) h.builds id info handle (h.world m hm id)
    have hthis := h.this id
    cases hof : sc.this with
    | none => exact hconstructed
    | some this =>
      rw [hof] at hthis
      dsimp only
      split
      · exact .pure hthis
      · exact hconstructed

theorem spares_evaluate (hpull : Supplies κ I S D sc pull) (hn : sc.program.node? nid = some n)
    (hpure : n.pure = true) :
    Maintains (Bears κ I S) sc (evaluate invoke pull n) fun _ => True := by
  refine spares_tick.andThen fun _ => (spares_noteNode _ n).andThen fun _ => ?_
  cases hop : n.op with
  | call f => exact spares_callNode h.builds hpull (h.answers nid n f hn hpure hop)
  | fieldGet offset type => exact spares_getField h.builds hpull offset type
  | _ => exact .throw _

theorem spares_pullOutput (hpull : Supplies κ I S D sc pull) {output : PinId} {q : ProgramPin}
    (hq : sc.program.pin? id = some q) (hsource : q.source = some output) :
    Maintains (Bears κ I S) sc (pullOutput invoke pull output) (κ.Only (D id)) := by
  refine .look_pin fun r hr => .look_node fun n hn => ?_
  have hvalue : n.op ≠ .reroute → Maintains (Bears κ I S) sc
      (frame >>= fun f => program >>= fun p => Pure.pure (f.value? p output)) (κ.Only (D id)) :=
    fun hop => .look_frame fun f hf => .look_program (.pure fun place hplace hblock =>
      h.output id output (.output hq hsource hr hn hop) (hf output place hplace hblock))
  split
  · rename_i hop
    refine .look_nth fun j hj => (hpull j).mono fun data hdata place hplace hblock => ?_
    exact h.reroute id j (fun o ho => .reroute hq hsource hr hn hop hj ho) (hdata place hplace hblock)
  · rename_i hop
    have hvalue := hvalue hop
    split
    · rename_i hpure
      refine .look_frame fun f _ => ?_
      split
      · exact (spares_evaluate h hpull hn hpure).andThen fun _ => hvalue
      · exact hvalue
    · refine .look_frame fun f _ => ?_
      split
      · exact .throw _
      · exact hvalue

theorem spares_supply (hpull : Supplies κ I S D sc pull) (id : PinId) :
    Maintains (Bears κ I S) sc (supply invoke pull id) (κ.Only (D id)) := by
  refine .look_pin fun q hq => ?_
  cases hsource : q.source with
  | some output => exact spares_pullOutput h hpull hq hsource
  | none => exact spares_fallback h

theorem spares_pullStep (hpull : Supplies κ I S D sc pull) :
    Supplies κ I S D sc (pullStep invoke pull) := fun id =>
  (spares_supply h hpull id).bind fun data hdata =>
    (spares_watchInput id data).andThen fun _ => .pure hdata

theorem spares_pullWithin (depth : Nat) : Supplies κ I S D sc (pullWithin invoke depth) := by
  induction depth with
  | zero => exact fun id => .throw _
  | succ depth ih => exact spares_pullStep h ih

theorem spares_pullInput : Supplies κ I S D sc (pullInput invoke) := fun id =>
  .look_program (spares_pullWithin h _ id)

end Pulls

end Run

end Flowscript
