import Flowscript.Proofs.Run.CallStanding
import Flowscript.Proofs.Run.ReturnStatements

/-! # References that outlive a call

A call does not give back a reference to a value that ends with it: the value lies in the storage of its frame, which
is what was taken of the stack since the call began. One address is not among those that are checked, that of the end
of the storage. It is that of values without a size, if nothing comes behind them.
-/
namespace Flowscript

open Run

theorem BumpStack.used_of_alloc? {s s' : BumpStack} {l : Layout} {start : Nat} (h : s.alloc? l = some (start, s')) :
    s.used ≤ start ∧ s'.used = start + l.size := by
  simp only [alloc?] at h
  split at h
  · cases h
    exact ⟨le_roundUp _ _, rfl⟩
  · cases h

/-- The value of a pin lies within storage of a size. -/
def ProgramPin.Fits (c : Catalogue) (size : Nat) (q : ProgramPin) : Prop :=
  ∀ h, q.type = some h → q.storage + (c.info h).layout.size ≤ size

theorem ProgramPin.Fits.mono {c : Catalogue} {size size' : Nat} {q : ProgramPin} (h : q.Fits c size)
    (hle : size ≤ size') : q.Fits c size' := fun t ht => (h t ht).trans hle

namespace Program

variable {g : Graph} {c : Catalogue} {s : Setting} {p : Program}

theorem fits_of_placePin {storage storage' : Layout} {q : Pin} {pp : ProgramPin}
    (h : placePin c storage q = .ok (storage', pp)) : storage.size ≤ storage'.size ∧ pp.Fits c storage'.size := by
  rcases placePin_cases h with ⟨-, rfl, rfl⟩ | ⟨type, form, handle, offset, -, -, hextend, rfl⟩
  · exact ⟨Nat.le_refl _, fun _ hflow => by cases hflow⟩
  · obtain ⟨rfl, rfl, -⟩ := Layout.extend?_eq_some_iff.mp hextend
    refine ⟨(le_roundUp _ _).trans (Nat.le_add_right _ _), fun t ht => ?_⟩
    cases ht
    exact Nat.le_refl _

theorem fits_of_placePins {ps : List Pin} {storage storage' : Layout} {slots slots' : Array (Option ProgramPin)}
    (h : placePins c storage slots ps = .ok (storage', slots'))
    (hfits : ∀ number q, slot? slots number = some q → q.Fits c storage.size) :
    storage.size ≤ storage'.size ∧ ∀ number q, slot? slots' number = some q → q.Fits c storage'.size := by
  induction ps generalizing storage slots with
  | nil =>
    cases h
    exact ⟨Nat.le_refl _, hfits⟩
  | cons first ps ih =>
    obtain ⟨⟨storage₁, pp⟩, hplace, h⟩ := bind_eq_ok_iff.mp h
    obtain ⟨slots₁, hstore, h⟩ := bind_eq_ok_iff.mp h
    obtain ⟨-, rfl⟩ := store_eq_ok_iff.mp hstore
    obtain ⟨hle, hpp⟩ := fits_of_placePin (orFail_eq_ok_iff.mp hplace)
    obtain ⟨hle', hfits'⟩ := ih h fun number q hq => by
      rcases slot?_setSlot hq with ⟨-, heq⟩ | ⟨-, hq⟩
      · cases heq
        exact hpp
      · exact (hfits number q hq).mono hle
    exact ⟨hle.trans hle', hfits'⟩

/-- What does not depend on where the links of a pin lead holds of it however pins are connected. -/
theorem forall_connect {P : Nat → ProgramPin → Prop}
    (hP : ∀ number q source target, P number q → P number { q with source, target })
    {slots : Array (Option ProgramPin)} (l : Link) (h : ∀ number q, slot? slots number = some q → P number q) :
    ∀ number q, slot? (connect g slots l) number = some q → P number q := by
  intro number q hq
  unfold connect at hq
  split at hq
  all_goals
    split at hq
    · next pp hpp =>
      rcases slot?_setSlot hq with ⟨rfl, heq⟩ | ⟨-, hq⟩
      · cases heq
        exact hP _ pp _ _ (h _ pp hpp)
      · exact h number q hq
    · exact h number q hq

theorem forall_connectAll {P : Nat → ProgramPin → Prop}
    (hP : ∀ number q source target, P number q → P number { q with source, target }) (links : List Link)
    {slots : Array (Option ProgramPin)} (h : ∀ number q, slot? slots number = some q → P number q) :
    ∀ number q, slot? (links.foldl (connect g) slots) number = some q → P number q := by
  induction links generalizing slots with
  | nil => exact h
  | cons l links ih => exact ih (forall_connect hP l h)

theorem fits_of_compile (h : compile g c s = .ok p) {id : PinId} {q : ProgramPin} (hq : p.pin? id = some q) :
    q.Fits c p.storage.size := by
  obtain ⟨storage, slots, hplace, hpins, hstorage⟩ := (assembles_of_assemble (assemble_of_compile h)).pins
  obtain ⟨-, hfits⟩ := fits_of_placePins hplace fun number q hq => by
    rw [slot?_replicate] at hq
    cases hq
  rw [pin?, hpins] at hq
  rw [hstorage]
  exact (forall_connectAll (fun _ _ _ _ hfit => hfit) g.liveLinks hfits id.val q hq).mono (le_roundUp _ _)

end Program

/-- A place lies in the value that a slot of a frame holds, or at the end of that value. -/
structure Frame.Houses (f : Frame) (c : Catalogue) (p : Program) (o : PinId) (place : Place) : Prop where
  owned : f.state o = .owned
  lies : ∃ here q h k, f.storage? p o = some here ∧ p.pin? o = some q ∧ q.type = some h ∧
    k ≤ (c.info h).layout.size ∧ place = here.shift k

/-- A place is where the storage of a frame ends. -/
def Frame.EndsAt (f : Frame) (p : Program) (place : Place) : Prop :=
  place.address = .stack (f.base + p.storage.size)

instance (f : Frame) (p : Program) (place : Place) : Decidable (f.EndsAt p place) :=
  inferInstanceAs (Decidable (_ = _))

namespace Frame

variable {g : Graph} {c : Catalogue} {s : Setting} {p : Program} {f : Frame} {o : PinId} {place : Place}

theorem address_of_storage? {q : ProgramPin} (hq : p.pin? o = some q) (h : f.storage? p o = some place) :
    place.address = .stack (f.base + q.storage) := by
  rw [storage?, hq] at h
  dsimp only at h
  split at h
  · cases h
    rfl
  · cases h

theorem Houses.exists_address (hp : Program.compile g c s = .ok p) (h : f.Houses c p o place) :
    ∃ k ≤ p.storage.size, place.address = .stack (f.base + k) := by
  obtain ⟨here, q, t, k, hhere, hq, ht, hk, rfl⟩ := h.lies
  have hfits := Program.fits_of_compile hp hq t ht
  refine ⟨q.storage + k, by omega, ?_⟩
  rw [Place.shift, address_of_storage? hq hhere, Address.shift, Nat.add_assoc]

theorem size_eq_zero_of_endsAt (hp : Program.compile g c s = .ok p) (hplace : f.storage? p o = some place)
    {q : ProgramPin} {t : Handle} (hq : p.pin? o = some q) (ht : q.type = some t) (hends : f.EndsAt p place) :
    (c.info t).layout.size = 0 := by
  have hfits := Program.fits_of_compile hp hq t ht
  rw [EndsAt, address_of_storage? hq hplace] at hends
  have heq := Address.stack.inj hends
  omega

end Frame

theorem Program.takeFrame_room {p : Program} {seat : Seat} {w : Context} {m : Machine} :
    Ensures (p.takeFrame seat) w m
      (fun f m' => f.mark ≤ f.base ∧ (m'.interpreter seat).stack.used = f.base + p.storage.size)
      fun _ _ => True := by
  simp only [takeFrame, Ensures.bind_iff, Ensures.get_iff, Frame.take?]
  cases hslots : (m.interpreter seat).stack.alloc?
      ⟨Frame.slotLayout.size * p.pins.size, Frame.slotLayout.align⟩ with
  | none => trivial
  | some taken =>
    obtain ⟨start, s'⟩ := taken
    obtain ⟨hstart, hused⟩ := BumpStack.used_of_alloc? hslots
    dsimp only
    cases hstorage : s'.alloc? p.storage with
    | none => trivial
    | some taken =>
      obtain ⟨base, s''⟩ := taken
      obtain ⟨hbase, hused'⟩ := BumpStack.used_of_alloc? hstorage
      refine ⟨by dsimp only; omega, ?_⟩
      show ((m.modifyInterpreter seat _).interpreter seat).stack.used = _
      rw [Machine.interpreter_modifyInterpreter]
      exact hused'

/-- The error of a call that would give back a reference to a value that ends with it. -/
def outlived : ScriptError :=
  { kind := .linkNotAllowed, message := "returns a reference to a value that ends with the call" }

/-- A call has given back what it took of the stack, and its frame is where it was. -/
def Activation.Level (seat : Seat) (a b : Activation) : Prop := (Gait.level : Gait .any seat).rel a b

namespace Course

variable {r : Course} {args : List Value} {frame : Frame} {machine : Machine} {n : ProgramNode} {a b : Activation}

section Level

variable (hcalls : (Conduct.free .any r.scope.seat).pact.Calls fun _ => r.invoke)
include hcalls

theorem level_step {m m' : Moment} (h : r.step? m = some m') : m.act.Level r.scope.seat m'.act := by
  obtain ⟨b, houtcome, hact⟩ := exists_outcome h
  obtain ⟨arrival, -, hrun⟩ := Option.map_eq_some_iff.mp houtcome
  have hsteady : Steady r.scope (.free .any r.scope.seat) .level fun _ =>
      (do tick; statement r.invoke r.ret arrival : Run Outcome) :=
    steady_tick.bind fun _ => steady_statement hcalls r.ret arrival
  have hlevel : m.act.Level r.scope.seat b := (hsteady.ensures trivial).ok hrun
  rw [hact]
  exact Gait.level.trans hlevel (Gait.level.of_kept rfl rfl (.refl _))

theorem AtReturn.level (h : r.AtReturn args frame machine n a) :
    Activation.Level r.scope.seat ⟨frame, machine⟩ a := by
  have hbinds : ∀ entry : ProgramNode, Steady r.scope (.free .any r.scope.seat) .level fun _ =>
      bindArguments 0 entry.dataOut (args.drop r.scope.program.implicitArgs) := fun _ => steady_bindArguments _ _ _
  have hticks : Steady r.scope (.free .any r.scope.seat) .level fun _ => tick := steady_tick
  cases h with
  | expression _ _ hbind htick =>
    exact Gait.level.trans (((hbinds _).ensures trivial).ok hbind) ((hticks.ensures trivial).ok htick)
  | @statement m v ms t q b hopens hruns _ _ htick _ _ _ hnote =>
    obtain ⟨entry, -, hbind, -⟩ := hopens.bound
    have hnotes : Steady r.scope (.free .any r.scope.seat) .level fun _ => noteNode "Executing node" n :=
      steady_noteNode _ _
    have hrun : Activation.Level r.scope.seat ⟨frame, machine⟩ v.act :=
      hruns.induct (P := fun u => Activation.Level r.scope.seat ⟨frame, machine⟩ u.act) (G := fun _ => True)
        (((hbinds entry).ensures trivial).ok hbind) (fun _ _ => trivial)
        fun _ _ hlevel _ hstep => Gait.level.trans hlevel (level_step hcalls hstep)
    exact Gait.level.trans hrun (Gait.level.trans ((hticks.ensures trivial).ok htick)
      ((hnotes.ensures trivial).ok hnote))

end Level

section Finish

variable {handle : Handle} {form : Form} (hresult : r.scope.program.result = some (handle, form))
include hresult

theorem finish_pull : finish r.invoke n r.ret r.scope a =
    (nth n.dataIn 0 >>= fun i => pullInput r.invoke i >>= fun value =>
      Told.giveBack r.invoke n r.ret (r.scope.context.catalogue.info handle) form i value) r.scope a := by
  have hprogram : (program : Run Program) r.scope a = .ok r.scope.program a := rfl
  rw [finish, bind_of_ok hprogram, hresult]
  rfl

variable (hform : form.isOwning = false) {place : Place} {i : PinId}
include hform

omit hresult in
theorem giveBack_eq (t : TypeInfo) : Told.giveBack r.invoke n r.ret t form i (some place) r.scope b =
    if finish.endsWithCall (b.machine.interpreter r.scope.seat).stack b.frame.mark place then
      .error ((outlived.atNode n.id).atPin i) b
    else .ok (some (.borrowed t.id form place)) b := by
  have hinterpreter : (interpreter : Run Interpreter) r.scope b = .ok (b.machine.interpreter r.scope.seat) b := rfl
  have hframe : (Run.frame : Run Frame) r.scope b = .ok b.frame b := rfl
  rw [Told.giveBack, hform, if_neg Bool.false_ne_true, bind_of_ok hinterpreter, bind_of_ok hframe]
  split <;> rfl

/-- A reference is given back, unless it is one to something that ends with the call. -/
theorem finish_eq (hi : n.dataIn[0]? = some i) (hpull : pullInput r.invoke i r.scope a = .ok (some place) b) :
    finish r.invoke n r.ret r.scope a =
      if finish.endsWithCall (b.machine.interpreter r.scope.seat).stack b.frame.mark place then
        .error ((outlived.atNode n.id).atPin i) b
      else .ok (some (.borrowed (r.scope.context.catalogue.info handle).id form place)) b := by
  rw [finish_pull hresult, nth_of_getElem? hi, pure_bind, bind_of_ok hpull, giveBack_eq hform]

theorem exists_pull_of_finish {u : Value} (hu : u.place? = some place)
    (h : finish r.invoke n r.ret r.scope a = .ok (some u) b) :
    ∃ i, n.dataIn[0]? = some i ∧ pullInput r.invoke i r.scope a = .ok (some place) b := by
  have hnth : Maintains (fun c => c = a) r.scope (nth n.dataIn 0) fun i => n.dataIn[0]? = some i := maintains_nth _ _
  rw [finish_pull hresult] at h
  obtain ⟨i, c, hinput, hpulls⟩ := exists_of_bind_ok h
  obtain ⟨rfl, hi⟩ := (hnth a rfl).ok hinput
  obtain ⟨value, d, hpull, hgives⟩ := exists_of_bind_ok hpulls
  cases value with
  | none =>
    rw [Told.giveBack, hform, if_neg Bool.false_ne_true] at hgives
    split at hgives
    · cases hgives
      cases hu
    · cases hgives
  | some source =>
    rw [giveBack_eq hform] at hgives
    split at hgives
    · cases hgives
    · cases hgives
      rw [Value.place?_borrowed] at hu
      cases hu
      exact ⟨i, hi, hpull⟩

end Finish

end Course

namespace Program

open Course

variable {invoke : Invoke} {p : Program} {seat : Seat} {args : List Value} {ret : Option Place} {w : Context}
  {m m' : Machine} {frame : Frame} {machine : Machine} {b : Activation}

def course (p : Program) (invoke : Invoke) (seat : Seat) (args : List Value) (ret : Option Place) (w : Context) :
    Course := ⟨invoke, ret, p.scope seat args w⟩

theorem runFramed_eq (hargs : args.length = p.arity) (htake : p.takeFrame seat w m = .ok frame machine) :
    p.runFramed invoke seat args ret w m = p.runIn invoke seat args ret frame w machine := by
  rw [runFramed, if_neg (not_not.mpr hargs), bind_of_ok htake]

theorem execute_of_body_ok (hargs : args.length = p.arity)
    (htake : p.takeFrame seat w (p.enter seat args m) = .ok frame machine) {v : Option Value}
    (hbody : Run.body invoke args ret (p.scope seat args w) ⟨frame, machine⟩ = .ok v b) :
    ∃ m', p.execute invoke seat args ret w m = .ok v m' := by
  rw [execute_eq, runFramed_eq hargs htake, runIn, hbody]
  exact ⟨_, rfl⟩

theorem execute_of_body_error (hargs : args.length = p.arity)
    (htake : p.takeFrame seat w (p.enter seat args m) = .ok frame machine) {e : ScriptError}
    (hbody : Run.body invoke args ret (p.scope seat args w) ⟨frame, machine⟩ = .error e b) :
    ∃ m', p.execute invoke seat args ret w m = .error (e.within p.script p.name) m' := by
  rw [execute_eq, runFramed_eq hargs htake, runIn, hbody]
  dsimp only
  cases p.recordFailure seat ((m.interpreter seat).depth > 0) (e.within p.script p.name) w
      (closeFrame (p.scope seat args w) b) with
  | ok u m' => exact ⟨_, rfl⟩
  | error e => cases e

theorem exists_body_of_execute {v : Option Value} (h : p.execute invoke seat args ret w m = .ok v m') :
    ∃ frame machine b, p.takeFrame seat w (p.enter seat args m) = .ok frame machine ∧
      Run.body invoke args ret (p.scope seat args w) ⟨frame, machine⟩ = .ok v b := by
  rw [execute_eq] at h
  cases hrun : p.runFramed invoke seat args ret w (p.enter seat args m) with
  | error e m'' =>
    rw [hrun] at h
    dsimp only at h
    split at h
    cases h
  | ok v' m'' =>
    rw [hrun] at h
    cases h
    rw [runFramed] at hrun
    split at hrun
    · cases hrun
    · obtain ⟨frame, machine, htake, hrest⟩ := exists_of_bind_ok hrun
      rw [runIn] at hrest
      cases hbody : Run.body invoke args ret (p.scope seat args w) ⟨frame, machine⟩ with
      | ok v'' b =>
        rw [hbody] at hrest
        cases hrest
        exact ⟨frame, machine, b, htake, hbody⟩
      | error e b =>
        rw [hbody] at hrest
        cases hrest

/-- Of the places in the values of a frame, the checks of a return miss those where its storage ends. -/
theorem endsWithCall_iff {g : Graph} {c : Catalogue} {s : Setting} (hp : compile g c s = .ok p) {o : PinId}
    {place : Place} (htake : p.takeFrame seat w m = .ok frame machine)
    (hlevel : Activation.Level seat ⟨frame, machine⟩ b) (hhouses : b.frame.Houses c p o place) :
    Run.finish.endsWithCall (b.machine.interpreter seat).stack b.frame.mark place = true ↔
      ¬ b.frame.EndsAt p place := by
  obtain ⟨hmark, hused⟩ := takeFrame_room.ok htake
  obtain ⟨hmark', hbase', hkept⟩ := hlevel
  have hstance := congrFun (congrArg Standing.stance hkept.standing) seat
  have hused' : (b.machine.interpreter seat).stack.used = (machine.interpreter seat).stack.used :=
    congrArg Stance.used hstance
  obtain ⟨k, hk, haddress⟩ := hhouses.exists_address hp
  dsimp only at hmark' hbase'
  simp only [Run.finish.endsWithCall, haddress, BumpStack.containsSince, Frame.EndsAt, Bool.and_eq_true,
    decide_eq_true_eq, Address.stack.injEq]
  omega

section Outlives

variable {g : Graph} {c : Catalogue} {s : Setting} {handle : Handle} {form : Form} {n : ProgramNode} {a : Activation}
  {i : PinId} {place : Place} (hg : g.Edited) (hp : compile g c s = .ok p) (hresult : p.result = some (handle, form))
  (hform : form.isOwning = false) (hcalls : (Conduct.free .any seat).pact.Calls fun _ => invoke)

include hcalls in
theorem level_pull {data : Option Place} (hat : (p.course invoke seat args ret w).AtReturn args frame machine n a)
    (hpull : Run.pullInput invoke i (p.scope seat args w) a = .ok data b) :
    Activation.Level seat ⟨frame, machine⟩ b := by
  have hpulls : Steady (p.scope seat args w) (.free .any seat) .level fun _ => Run.pullInput invoke i :=
    Run.steady_pullInput hcalls i
  exact Gait.level.trans (hat.level hcalls) ((hpulls.ensures trivial).ok hpull)

include hresult hform in
/-- A reference that a return holds is the call's result, unless the checks find that it ends with the call. -/
theorem finish_course (ret : Option Place) (hi : n.dataIn[0]? = some i)
    (hpull : Run.pullInput invoke i (p.scope seat args w) a = .ok (some place) b) :
    Run.finish invoke n ret (p.scope seat args w) a =
      if Run.finish.endsWithCall (b.machine.interpreter seat).stack b.frame.mark place then
        .error ((outlived.atNode n.id).atPin i) b
      else .ok (some (.borrowed (w.catalogue.info handle).id form place)) b :=
  Course.finish_eq (r := p.course invoke seat args ret w) hresult hform hi hpull

include hg hp hresult hform hcalls

/-- A reference that a call gives back is one that a return held, and not one into the values of the frame, unless to
where its storage ends. -/
theorem exists_return_of_execute {u : Value} (h : p.execute invoke seat args ret w m = .ok (some u) m')
    (hu : u.place? = some place) : ∃ frame machine n a i b,
      p.takeFrame seat w (p.enter seat args m) = .ok frame machine ∧
      (p.course invoke seat args ret w).AtReturn args frame machine n a ∧ n.dataIn[0]? = some i ∧
      Run.pullInput invoke i (p.scope seat args w) a = .ok (some place) b ∧
      ∀ o, b.frame.Houses c p o place → b.frame.EndsAt p place := by
  have hformed := wellFormed_of_compile hg hp
  obtain ⟨frame, machine, b, htake, hbody⟩ := exists_body_of_execute h
  obtain ⟨n, a, hat, hfinish⟩ := exists_atReturn (r := p.course invoke seat args ret w)
    hresult hform hu hformed ⟨_, htake⟩ hbody
  obtain ⟨i, hi, hpull⟩ := exists_pull_of_finish hresult hform hu hfinish
  refine ⟨frame, machine, n, a, i, b, htake, hat, hi, hpull, fun o hhouses => ?_⟩
  by_contra hends
  have hmissed := (endsWithCall_iff hp htake (level_pull hcalls hat hpull) hhouses).mpr hends
  have herror := (finish_course hresult hform ret hi hpull).trans (if_pos hmissed)
  cases herror.symm.trans hfinish

/-- A call that returns a reference into the values of its frame fails, unless it is one to where the storage ends;
then it gives it back. -/
theorem execute_at_return {o : PinId} (hargs : args.length = p.arity)
    (htake : p.takeFrame seat w (p.enter seat args m) = .ok frame machine)
    (hat : (p.course invoke seat args ret w).AtReturn args frame machine n a) (hi : n.dataIn[0]? = some i)
    (hpull : Run.pullInput invoke i (p.scope seat args w) a = .ok (some place) b)
    (hhouses : b.frame.Houses c p o place) :
    if b.frame.EndsAt p place then
      ∃ m', p.execute invoke seat args ret w m =
        .ok (some (.borrowed (w.catalogue.info handle).id form place)) m'
    else
      ∃ m', p.execute invoke seat args ret w m =
        .error (((outlived.atNode n.id).atPin i).within p.script p.name) m' := by
  have hbody := hat.body_eq (wellFormed_of_compile hg hp)
  have hmissed := endsWithCall_iff hp htake (level_pull hcalls hat hpull) hhouses
  have hfinish := finish_course hresult hform ret hi hpull
  split
  · next hends =>
    exact execute_of_body_ok hargs htake (hbody.trans (hfinish.trans (if_neg fun h => hmissed.mp h hends)))
  · next hends =>
    exact execute_of_body_error hargs htake (hbody.trans (hfinish.trans (if_pos (hmissed.mpr hends))))

end Outlives

/-- A reference that a call gives back comes from a return, and what it refers to is not in a value of the call's
frame, unless it lies where the storage of the frame ends; and then it is given back. A return of any other reference
into the frame fails. Only values without a size begin where the storage ends. -/
theorem execute_outlives_iff {g : Graph} {c : Catalogue} {s : Setting} (hg : g.Edited) (hp : compile g c s = .ok p)
    {handle : Handle} {form : Form} (hresult : p.result = some (handle, form)) (hform : form.isOwning = false)
    {native : List Call → Native} (hn : ∀ calls, (native calls).Confined) (depth : Nat) (calls : List Call)
    (seat : Seat) (args : List Value) (ret : Option Place) (w : Context) (m : Machine) :
    (∀ u m' place, p.execute (invokeUnder native depth calls) seat args ret w m = .ok (some u) m' →
      u.place? = some place → ∃ frame machine n a i b,
        p.takeFrame seat w (p.enter seat args m) = .ok frame machine ∧
        (p.course (invokeUnder native depth calls) seat args ret w).AtReturn args frame machine n a ∧
        n.dataIn[0]? = some i ∧
        Run.pullInput (invokeUnder native depth calls) i (p.scope seat args w) a = .ok (some place) b ∧
        ∀ o, b.frame.Houses c p o place → b.frame.EndsAt p place) ∧
    (∀ frame machine n a i b o place, args.length = p.arity →
      p.takeFrame seat w (p.enter seat args m) = .ok frame machine →
      (p.course (invokeUnder native depth calls) seat args ret w).AtReturn args frame machine n a →
      n.dataIn[0]? = some i →
      Run.pullInput (invokeUnder native depth calls) i (p.scope seat args w) a = .ok (some place) b →
      b.frame.Houses c p o place →
      if b.frame.EndsAt p place then
        ∃ m', p.execute (invokeUnder native depth calls) seat args ret w m =
          .ok (some (.borrowed (w.catalogue.info handle).id form place)) m'
      else
        ∃ m', p.execute (invokeUnder native depth calls) seat args ret w m =
          .error (((outlived.atNode n.id).atPin i).within p.script p.name) m') ∧
    ∀ (f : Frame) o place q t, f.storage? p o = some place → p.pin? o = some q → q.type = some t →
      f.EndsAt p place → (c.info t).layout.size = 0 := by
  have hcalls := (leaves_invokeUnder hn depth calls).calls seat
  refine ⟨fun u m' place hok hu => ?_, fun frame machine n a i b o place hargs htake hat hi hpull hhouses => ?_,
    fun f o place q t hplace hq ht hends => Frame.size_eq_zero_of_endsAt hp hplace hq ht hends⟩
  · exact exists_return_of_execute hg hp hresult hform hcalls hok hu
  · exact execute_at_return hg hp hresult hform hcalls hargs htake hat hi hpull hhouses

/-- A catalogue with one type, whose values take no room. -/
def tagging : Catalogue where
  infos := #[{ TypeInfo.new "Tag" ⟨0, 1⟩ with
    traits := { default := true }
    functions := [(.operator .construct, [doNothing "new" []])] }]
  index := (∅ : Std.HashMap TypeId Handle).insert (.ofName "Tag") 0

theorem handleNamed?_tagging : tagging.handleNamed? "Tag" = some 0 := by
  have hhandle : tagging.handle? (.ofName "Tag") = some 0 := by simp [Catalogue.handle?, tagging]
  rw [Catalogue.handleNamed?, hhandle]
  rfl

theorem lookupName?_tagging : tagging.lookupName? "Tag" = some (tagging.info 0) := by
  rw [Catalogue.lookupName?, handleNamed?_tagging]
  rfl

def leavingEdits : List EditOp := [.addNode .entry, .addNode .ret, .addLink ⟨1⟩ ⟨2⟩]

def leaving : Graph :=
  leavingEdits.foldl (fun g op => op.apply tagging g)
    { name := "Leave", signature := { result := some ⟨"Tag", .constRef⟩ } }

theorem edited_leaving : leaving.Edited := by
  refine .foldl_apply tagging leavingEdits (.new "Leave" { result := some ⟨"Tag", .constRef⟩ }) ?_
  unfold Graph.Numbered
  decide

theorem liveNodes_leaving : leaving.liveNodes =
    [{ id := ⟨1⟩, kind := .entry, firstPin := ⟨1⟩, pinCount := 1 },
      { id := ⟨2⟩, kind := .ret, firstPin := ⟨2⟩, pinCount := 2 }] := rfl

theorem livePins_leaving : leaving.livePins =
    [⟨⟨1⟩, ⟨1⟩, .output, "Then", .flow, none⟩, ⟨⟨2⟩, ⟨2⟩, .input, "Exec", .flow, none⟩,
      ⟨⟨3⟩, ⟨2⟩, .input, "Return Value", .data "Tag" .constRef, none⟩] := rfl

theorem signature_leaving : leaving.signature = { result := some ⟨"Tag", .constRef⟩ } := rfl

def leavingProgram : Program where
  name := "Leave"
  script := none
  nodes := #[some { id := ⟨1⟩, label := "Entry", op := .entry, pure := false, flowOut := [⟨1⟩] },
    some { id := ⟨2⟩, label := "Return", op := .ret, pure := false, flowIn := [⟨2⟩], dataIn := [⟨3⟩] }]
  pins := #[some { node := ⟨1⟩, type := none, form := .value, default := none, target := some ⟨2⟩,
                   storage := 0 },
    some { node := ⟨2⟩, type := none, form := .value, default := none, storage := 0 },
    some { node := ⟨2⟩, type := some 0, form := .constRef, default := none, storage := 0 }]
  entry := ⟨1⟩
  returnNode := some ⟨2⟩
  result := some (0, .constRef)
  pure := false
  params := 0
  hasWorld := false
  thisType := none
  storage := ⟨0, 1⟩

theorem findings_leaving : leaving.findings tagging = [] := by
  have hsignature : Graph.checkSignature tagging leaving.signature = [] := by
    simp only [Graph.checkSignature, signature_leaving, Graph.checkType, lookupName?_tagging]
    rfl
  rw [Graph.findings, hsignature]
  rfl

theorem compile_leaving : compile leaving tagging {} = .ok leavingProgram := by
  have herrors : leaving.errors tagging none = [] := by
    rw [Graph.errors, findings_leaving]
    rfl
  refine compile_eq_ok_iff.mpr ⟨edited_leaving.overflows_eq_false, herrors, ?_⟩
  simp only [assemble, livePins_leaving, liveNodes_leaving, placePins, placePin, handleNamed?_tagging,
    compileNodes, compileNode, opOf, signature_leaving, bind, Except.bind]
  rfl

def leavingReturn : ProgramNode :=
  { id := ⟨2⟩, label := "Return", op := .ret, pure := false, flowIn := [⟨2⟩], dataIn := [⟨3⟩] }

def leavingCourse : Course :=
  leavingProgram.course (invokeUnder (fun _ => Native.builtin) 2 []) .own [] none { catalogue := tagging }

def leavingFrame : Frame := { slots := Array.replicate 3 {}, firstBlock := 0, base := 72, mark := 0 }

def leavingMachine : Machine :=
  let own := Interpreter.new {}
  { memory := { next := 3 }
    own := { own with stack := { own.stack with used := 72, highWater := 72 }, depth := 1 }, current := some .own }

/-- The address where the storage of the frame ends. -/
def leavingPlace : Place := ⟨2, 0, .stack 72⟩

def leavingAct : Activation :=
  ⟨leavingFrame, leavingMachine.modifyInterpreter .own fun i => { i with steps := 1, visits := 1 }⟩

theorem takeFrame_leaving :
    leavingProgram.takeFrame .own { catalogue := tagging } (leavingProgram.enter .own [] {}) =
      .ok leavingFrame leavingMachine := rfl

theorem leaving_outlives :
    leaving.Edited ∧ compile leaving tagging {} = .ok leavingProgram ∧
      ∃ n a i b place m',
        leavingCourse.AtReturn [] leavingFrame leavingMachine n a ∧ n.dataIn[0]? = some i ∧
        Run.pullInput leavingCourse.invoke i leavingCourse.scope a = .ok (some place) b ∧
        b.frame.Houses tagging leavingProgram i place ∧
        leavingProgram.execute leavingCourse.invoke .own [] none { catalogue := tagging } {} =
          .ok (some (.borrowed (tagging.info 0).id .constRef place)) m' := by
  have hat : leavingCourse.AtReturn [] leavingFrame leavingMachine leavingReturn leavingAct :=
    .statement (m := ⟨some ⟨2⟩, leavingFrame, leavingMachine⟩)
      ⟨rfl, ⟨_, takeFrame_leaving⟩, _, rfl, rfl, rfl⟩
      (.refl _) (by decide) rfl rfl rfl rfl rfl rfl
  have hdefault : passes (Run.pullInput leavingCourse.invoke ⟨3⟩ leavingCourse.scope leavingAct) (fun data b =>
      data == some leavingPlace && b.frame.state ⟨3⟩ == .owned &&
        b.frame.storage? leavingProgram ⟨3⟩ == some leavingPlace &&
        decide (b.frame.EndsAt leavingProgram leavingPlace)) = true := by
    decide +kernel
  cases hpull : Run.pullInput leavingCourse.invoke ⟨3⟩ leavingCourse.scope leavingAct with
  | error e b =>
    rw [hpull] at hdefault
    cases hdefault
  | ok data b =>
    rw [hpull] at hdefault
    simp only [passes, Bool.and_eq_true, beq_iff_eq, decide_eq_true_eq] at hdefault
    obtain ⟨⟨⟨rfl, hstate⟩, hplace⟩, hends⟩ := hdefault
    have hhouses : b.frame.Houses tagging leavingProgram ⟨3⟩ leavingPlace :=
      ⟨hstate, leavingPlace, _, _, 0, hplace, rfl, rfl, Nat.zero_le _, rfl⟩
    have hgives := (execute_outlives_iff edited_leaving compile_leaving rfl rfl (fun _ => Native.confined_builtin) 2 []
      .own [] none { catalogue := tagging } {}).2.1 _ _ _ _ _ b _ _ rfl takeFrame_leaving hat rfl hpull hhouses
    rw [if_pos hends] at hgives
    obtain ⟨m', hexecute⟩ := hgives
    exact ⟨edited_leaving, compile_leaving, _, _, _, b, _, m', hat, rfl, hpull, hhouses, hexecute⟩

end Program

end Flowscript
