import Flowscript.Proofs.Run.TendedCalls

/-! # Calls settle the values in care

A call ends every value it constructs exactly once, or hands it to its caller. The one exception is the
value that is handed over as the result. It is looked for by address, and the slot that is then
forgotten may be another one. A value moved away from a slot that was not forgotten is a stray: it ends
once more with the frame, while the value of the forgotten slot never ends. Calls settle exactly if
there is no stray.
-/
namespace Flowscript

variable {ε α β : Type} {sc : Scope}

namespace Activation

/-- A value in a block of the frame is in care, but the slot for it says otherwise. -/
structure Forgets (sc : Scope) (first : Nat) (result : List Charge) (a : Activation) : Prop where
  first_eq : a.frame.firstBlock = first
  ordered : a.machine.Ordered
  le_next : first + sc.program.pins.size ≤ a.machine.memory.next
  behind : ∀ v ∈ result, first + sc.program.pins.size ≤ v.place.block ∧
    v.place.block < a.machine.memory.next
  forgotten : ∃ id v, v ∈ a.machine.care.alive ∧ a.frame.state id ≠ .owned ∧
    a.frame.charge? sc.context.catalogue sc.program id = some v

/-- How a call comes to its end, with the result in hand: as it should be, or after a value went astray
in place of one that is forgotten. -/
structure Concludes (sc : Scope) (result : List Charge) (a b : Activation) : Prop where
  next : a.machine.memory.next ≤ b.machine.memory.next
  strays : a.machine.care.strays.length ≤ b.machine.care.strays.length
  spoilt : ∀ first strays low used, a.Spoilt sc first strays low used {} →
    b.Spoilt sc first strays low used ⟨result, []⟩
  holds : ∀ first faults room others, a.Holds sc first faults room others {} →
    b.Spoilt sc first a.machine.care.strays.length a.machine.memory.next
        (· < a.machine.memory.next) ⟨result, []⟩ ∨
      b.machine.care.strays = a.machine.care.strays ∧
        b.Holds sc first faults room others ⟨result, []⟩ ∨
      b.machine.care.strays.length = a.machine.care.strays.length + 1 ∧ b.Forgets sc first result

variable {result : List Charge} {a b c : Activation}

theorem Carries.concludes (h : a.Carries sc {} ⟨result, []⟩ b) : a.Concludes sc result b :=
  ⟨h.next, h.strays, h.spoilt, fun first faults room others ha =>
    (h.holds first faults room others ha).imp id .inl⟩

theorem Carries.trans_concludes (h : a.Carries sc {} {} b) (h' : b.Concludes sc result c) :
    a.Concludes sc result c where
  next := Nat.le_trans h.next h'.next
  strays := Nat.le_trans h.strays h'.strays
  spoilt first strays low used ha :=
    h'.spoilt first strays low used (h.spoilt first strays low used ha)
  holds first faults room others ha := by
    rcases h.holds first faults room others ha with hs | ⟨heq, hb⟩
    · exact .inl (h'.spoilt _ _ _ _ hs)
    · rw [← heq]
      refine (h'.holds first faults room others hb).imp (fun hs => ?_) id
      refine hs.mono h.next (fun k hk => Nat.lt_of_lt_of_le hk h.next) fun k _ hk => ?_
      exact Nat.lt_of_lt_of_le hk ha.le_next

/-- The result gets storage of its own, in a block handed out before the call came to its end. -/
theorem Concludes.adopt {a' b' : Activation} {v : Charge} (h : a'.Concludes sc [] b')
    (hframe : a'.frame = a.frame) (hcare : a'.machine.care = a.machine.care)
    (hnext : a'.machine.memory.next = a.machine.memory.next + 1)
    (hblock : v.place.block = a.machine.memory.next) (hframe' : b.frame = b'.frame)
    (hcare' : b.machine.care = b'.machine.care.take v)
    (hnext' : b.machine.memory.next = b'.machine.memory.next) : a.Concludes sc [v] b := by
  have hstrays : b.machine.care.strays = b'.machine.care.strays := by rw [hcare', Care.strays_take]
  have hle := h.next
  have hle' := Nat.le_of_eq hnext'.symm
  refine ⟨by omega, ?_, fun first strays low used ha => ?_, fun first faults room others ha => ?_⟩
  · rw [hstrays, ← hcare]
    exact h.strays
  · have ha' : a'.Spoilt sc first strays low (fun k => used k ∨ k = a.machine.memory.next) {} :=
      ⟨hframe ▸ ha.size_eq, hframe ▸ ha.first_eq, fun k hk hlt => .inl (ha.frame k hk hlt),
        ha.machine.reserve hcare hnext⟩
    have hb' := h.spoilt _ _ _ _ ha'
    have hb := hb'.machine.adopt hcare' hle' (.inr hblock)
    exact ⟨hframe' ▸ hb'.size_eq, hframe' ▸ hb'.first_eq, ha.frame,
      hb.mono (Nat.le_refl low) fun _ => .inl⟩
  · have ha' : a'.Holds sc first faults room others {} :=
      ha.still (by rw [hframe]) (by rw [hframe]) (by rw [hframe]) (ha.machine.still hcare (by omega))
    have hroom := ha.machine.beyond _ (Nat.le_refl _)
    rcases h.holds _ _ _ _ ha' with hb' | ⟨heq, hb'⟩ | ⟨hlen, hb'⟩
    · rw [hcare] at hb'
      have hused : v.place.block < a'.machine.memory.next := by omega
      refine .inl ⟨hframe' ▸ hb'.size_eq, hframe' ▸ hb'.first_eq,
        fun k _ hk => Nat.lt_of_lt_of_le hk ha.le_next, ?_⟩
      exact (hb'.machine.adopt hcare' hle' hused).mono (by omega) fun k hk =>
        Nat.lt_of_lt_of_le hk (by omega)
    · have hnew : v ∉ b'.frame.charges sc.context.catalogue sc.program ++ others := by
        intro hv
        rcases List.mem_append.mp hv with hv | hv
        · have hv := (Frame.block_of_mem_charges hv).2
          rw [hb'.first_eq] at hv
          have := ha.le_next
          omega
        · have := ha.machine.known v (List.mem_append_right _ (List.mem_append_right _ hv))
          omega
      have hm := (hb'.machine.take hnew (by omega) hcare' hle').pick (hblock ▸ hroom)
      refine .inr (.inl ⟨hstrays.trans (heq.trans (by rw [hcare])), ?_⟩)
      exact hb'.still (by rw [hframe']) (by rw [hframe']) (by rw [hframe']) hm
    · rw [hcare, ← hstrays] at hlen
      refine .inr (.inr ⟨hlen, hframe' ▸ hb'.first_eq, fun u hu => ?_, ?_, ?_, ?_⟩)
      · rw [hcare'] at hu
        rcases Care.mem_of_mem_alive_take hu with rfl | hu
        · omega
        · have := hb'.ordered u hu
          omega
      · have := hb'.le_next
        omega
      · refine List.forall_mem_singleton.mpr ⟨hblock ▸ ha.behind _ hroom, ?_⟩
        omega
      · obtain ⟨id, u, hu, hstate, hcharge⟩ := hb'.forgotten
        refine ⟨id, u, ?_, hframe' ▸ hstate, hframe' ▸ hcharge⟩
        rw [hcare']
        exact Care.mem_alive_take hu

end Activation

open Activation (Carries)

open Activation (Concludes)

/-- A computation that ends a call: it may lose a value, but not if it fails. -/
def Ends (sc : Scope) (x : Run α) (result : α → List Charge) : Prop :=
  ∀ a, Ensures x sc a (fun r b => a.Concludes sc (result r) b)
    fun _ b => a.Carries sc {} {} b

namespace Ends

variable {result : α → List Charge}

theorem of_tends {x : Run α} (hx : Tends sc {} x fun r => ⟨result r, []⟩) :
    Ends sc x result := fun a => (hx a).mono (fun _ _ h => h.concludes) fun _ _ h => h

theorem bind {x : Run β} {f : β → Run α} (hx : Tends sc {} x fun _ => {})
    (hf : ∀ b, Ends sc (f b) result) : Ends sc (x >>= f) result := fun a =>
  Ensures.bind_iff.mpr ((hx a).mono (fun b t ht => (hf b t).mono
    (fun _ _ h => ht.trans_concludes h) fun _ _ h => ht.trans h) fun _ _ h => h)

theorem mapError {x : Run α} (f : ScriptError → ScriptError) (hx : Ends sc x result) :
    Ends sc (x.mapError f) result := fun a => Ensures.run_mapError_iff.mpr (hx a)

end Ends

namespace Run

variable {hand : Hand}

/-- Emptying the slots leaves none that holds a value, and everything else as it was. -/
theorem tends_clearAll (count : Nat) :
    Tends sc hand (clearAll count) fun _ =>
      ⟨hand.values, ((List.range count).map fun i => PinId.mk (i + 1)) ++ hand.vacant⟩ := by
  induction count generalizing hand with
  | zero => exact .pure rfl
  | succ count ih =>
    rw [List.range_succ, List.map_append, List.append_assoc]
    exact (tends_clear _).bind fun _ => ih

theorem strays_clearAll (count : Nat) (a : Activation) :
    Ensures (clearAll count) sc a
      (fun _ b => b.machine.care.strays = a.machine.care.strays) fun _ _ => False := by
  induction count generalizing a with
  | zero => rfl
  | succ count ih =>
    refine Ensures.bind_iff.mpr (clear_ensures (fun v m _ hcare _ => ?_) fun _ => ih _)
    refine (ih _).mono (fun _ b hb => ?_) fun _ _ h => h
    rw [hb, hcare, Care.strays_lose]

/-- A value whose slot says otherwise is not ended. -/
theorem forgets_clearAll (count : Nat) {first : Nat} {result : List Charge} {a : Activation}
    (ha : a.Forgets sc first result) :
    Ensures (clearAll count) sc a (fun _ b => b.Forgets sc first result) fun _ _ => False := by
  induction count generalizing a with
  | zero => exact ha
  | succ count ih =>
    obtain ⟨id, v, hv, hstate, hcharge⟩ := ha.forgotten
    have hkept : ∀ (cleared : PinId) (m : Machine), m.memory = a.machine.memory → m.Ordered →
        v ∈ m.care.alive →
        Activation.Forgets sc first result ⟨a.frame.set cleared .empty, m⟩ :=
      fun cleared m hmemory hordered hm =>
        ⟨by rw [Frame.firstBlock_set]; exact ha.first_eq, hordered, hmemory ▸ ha.le_next,
          hmemory ▸ ha.behind, id, v, hm, Frame.state_set_ne_owned hstate (by simp),
          by rwa [Frame.charge?_set]⟩
    refine Ensures.bind_iff.mpr (clear_ensures
      (fun u m hu hcare hmemory => ih (hkept _ m hmemory (fun w hw => ?_) ?_))
      fun _ => ih (hkept _ _ rfl ha.ordered hv))
    · rw [hcare] at hw
      rw [hmemory]
      exact ha.ordered w (Care.mem_of_mem_alive_lose hw)
    · -- The slot that is cleared holds a value, so it is not the one of the forgotten value.
      have hne : v ≠ u := by
        intro he
        have hmem := Frame.mem_charges.mpr ⟨_, hu⟩
        exact Frame.not_mem_charges hstate hcharge (he ▸ hmem)
      rw [hcare]
      exact Care.mem_alive_lose hne hv

/-- A statement goes on as it should, or ends the call. -/
def Proceeds (sc : Scope) (x : Run Outcome) : Prop :=
  ∀ a, Ensures x sc a
    (fun outcome b =>
      match outcome with
      | .next _ => a.Carries sc {} {} b
      | .done result => a.Concludes sc (resultCharges result) b)
    fun _ b => a.Carries sc {} {} b

namespace Proceeds

theorem bind {x : Run β} {f : β → Run Outcome} (hx : Tends sc {} x fun _ => {})
    (hf : ∀ b, Proceeds sc (f b)) : Proceeds sc (x >>= f) := by
  intro a
  refine Ensures.bind_iff.mpr ((hx a).mono (fun b t ht => (hf b t).mono (fun outcome c hc => ?_)
    fun _ _ h => ht.trans h) fun _ _ h => h)
  cases outcome with
  | next next => exact ht.trans hc
  | done result => exact ht.trans_concludes hc

theorem next {x : Run (Option PinId)} (hx : Tends sc {} x fun _ => {}) :
    Proceeds sc (x >>= fun next => Pure.pure (.next next)) := fun a =>
  Ensures.bind_iff.mpr (hx a)

theorem done {x : Run (Option Value)} (hx : Ends sc x resultCharges) :
    Proceeds sc (x >>= fun result => Pure.pure (.done result)) := fun a =>
  Ensures.bind_iff.mpr (hx a)

theorem throw (e : ScriptError) : Proceeds sc (MonadExcept.throw e) := fun _ => Carries.refl

end Proceeds

section Calls

variable {invoke : Invoke} (h : invoke.Settles)
include h

omit h in
theorem handOver_ensures {t : TypeInfo} {source target : Place} {a : Activation} {owner : PinId}
    {v : Charge} {Q : Unit → Activation → Prop} {E : ScriptError → Activation → Prop}
    (howner : a.frame.owner? sc.program source = some owner)
    (hv : a.frame.charge? sc.context.catalogue sc.program owner = some v)
    (hQ : ∀ b : Activation, b.frame = a.frame.set owner .empty →
      b.machine.care = a.machine.care.handOver ⟨source, t.id⟩ (some v) →
      b.machine.memory.next = a.machine.memory.next → Q () b) :
    Ensures (handOver invoke t source target) sc a Q E := by
  simp only [handOver, charge?, Ensures.bind_iff, Ensures.run_frame_iff, Ensures.run_program_iff,
    howner, Ensures.read_iff, Ensures.pure_iff, hv, Ensures.run_liftTotal_iff,
    Ensures.exec_modifyMemory_iff, Ensures.exec_modifyCare_iff, forget, Ensures.run_modifyFrame_iff]
  exact hQ _ rfl rfl rfl

/-- The value of the owner that was found is moved away and its slot forgotten. That is another value
than the one meant exactly if it has gone astray. -/
theorem ends_handOver (t : TypeInfo) (source target : Place) :
    Ends sc (handOver invoke t source target) fun _ => [] := by
  intro a
  cases howner : a.frame.owner? sc.program source with
  | none =>
    simp only [handOver, Ensures.bind_iff, Ensures.run_frame_iff, Ensures.run_program_iff, howner]
    exact Ends.of_tends (.lift _ (Invoke.tidy_copyAt h t target source)) a
  | some owner =>
    obtain ⟨v, hv⟩ := Frame.held_of_owner? (c := sc.context.catalogue) howner
    have hcharge := (Frame.held_eq_some.mp hv).2
    refine handOver_ensures howner hcharge fun b hframe hcare hnext => ?_
    have hle := Nat.le_of_eq hnext.symm
    by_cases hmeant : v = ⟨source, t.id⟩
    · rw [hmeant, Care.handOver_self, ← hmeant] at hcare
      refine Carries.concludes (.of_set hframe hle (by rw [hcare, Care.strays_lose])
        (fun _ _ hused hl => hl.lose hcare hle (.inl (hused owner v hcharge))) fun _ _ _ _ ha => ?_)
      exact (ha.release hv hframe hcare hle).forget
    · have hstrays : b.machine.care.strays.length = a.machine.care.strays.length + 1 := by
        rw [hcare, Care.strays_handOver _ hmeant]
        rfl
      refine ⟨hle, by omega, fun first strays low used ha => ?_, fun first faults room others ha => ?_⟩
      · refine ha.step (by rw [hframe, Frame.size_slots_set]) (by rw [hframe, Frame.firstBlock_set])
          (.inl ?_)
        have := ha.machine.grew
        omega
      · refine .inr (.inr ⟨hstrays, ?_, fun u hu => ?_, ?_, List.forall_mem_nil _, owner, v, ?_, ?_, ?_⟩)
        · rw [hframe, Frame.firstBlock_set]
          exact ha.first_eq
        · rw [hcare] at hu
          have := ha.machine.known u (ha.machine.alive.mem_iff.mp (Care.mem_of_mem_alive_handOver hu))
          omega
        · have := ha.le_next
          omega
        · rw [hcare]
          refine Care.mem_alive_handOver hmeant (ha.machine.alive.mem_iff.mpr ?_)
          exact List.mem_append_right _ (List.mem_append_left _ (Frame.mem_charges.mpr ⟨owner, hv⟩))
        · rw [hframe]
          exact Frame.state_set_self_ne_owned (by simp)
        · rwa [hframe, Frame.charge?_set]

omit h in
/-- Storage of its own that a result is constructed in becomes a value in hand. -/
theorem ends_produce (t : TypeInfo) (ret : Option Place) {init : Place → Run Unit}
    (hi : ∀ place, Ends sc (init place) fun _ => []) :
    Ends sc (produce t ret init) resultCharges := by
  intro a
  cases ret with
  | some place =>
    exact Ensures.bind_iff.mpr ((hi place a).mono (fun _ _ h => h) fun _ _ h => h)
  | none =>
    simp only [produce, Ensures.bind_iff, Ensures.run_liftTotal_iff, Exec.allocate,
      Ensures.modifyGet_iff, Ensures.run_attempt_iff]
    refine (hi _ _).mono (fun _ b h => ?_) fun e b h => ?_
    · exact .adopt h rfl rfl rfl rfl rfl rfl rfl
    · refine Carries.trans (Carries.trans ?_ h) ?_
      · exact .of_machine rfl rfl rfl (.still rfl (Nat.le_succ _))
      · exact .of_machine rfl rfl rfl (.still rfl (Nat.le_refl _))

theorem ends_finish (n : ProgramNode) (ret : Option Place) :
    Ends sc (finish invoke n ret) resultCharges := by
  refine .bind (.looks looks_program) fun p => ?_
  cases p.result with
  | none => exact .of_tends (.pure rfl)
  | some result =>
    obtain ⟨type, form⟩ := result
    refine .bind (.looks .read) fun s => .bind (.looks (looks_nth _ _)) fun id =>
      .bind (tends_pullInput h id) fun value => ?_
    split
    · cases value with
      | none => exact .of_tends (.throw _)
      | some source =>
        exact ends_produce _ ret fun place => (ends_handOver h _ source place).mapError _
    · cases value with
      | none =>
        dsimp only
        split
        · exact .of_tends (.pure rfl)
        · exact .of_tends (.throw _)
      | some place =>
        refine .bind (.looks looks_interpreter) fun i => .bind (.looks looks_frame) fun f => ?_
        split
        · exact .of_tends (.throw _)
        · exact .of_tends (.pure (by rw [resultCharges_borrowed]))

theorem ends_finishEmpty (ret : Option Place) :
    Ends sc (finishEmpty invoke ret) resultCharges := by
  refine .bind (.looks looks_program) fun p => ?_
  cases p.result with
  | none => exact .of_tends (.pure rfl)
  | some result =>
    obtain ⟨type, form⟩ := result
    refine .bind (.looks .read) fun s => ?_
    dsimp only
    split
    · exact .of_tends (.pure rfl)
    · split
      · exact .of_tends (.throw _)
      · exact ends_produce _ ret fun place =>
          .of_tends (.lift _ (Invoke.tidy_defaultAt h _ place))

theorem proceeds_statement (ret : Option Place) (arrival : Arrival) :
    Proceeds sc (statement invoke ret arrival) := by
  have hgo : ∀ n : ProgramNode, Proceeds sc
      (nth n.flowOut 0 >>= fun id => target id >>= fun next => Pure.pure (.next next)) :=
    fun n => .bind (.looks (looks_nth _ _)) fun id => .next (.looks (looks_target id))
  cases arrival with
  | again marker =>
    refine .bind (.looks (looks_node _)) fun n => .bind (tends_noteNode _ n) fun _ => ?_
    cases marker with
    | forLoop id => exact .next (tends_visitFor h n none)
    | whileLoop id => exact .next (tends_visitWhile h n none)
  | through id =>
    refine .bind (.looks (looks_pin id)) fun p => .bind (.looks (looks_node _)) fun n =>
      .bind (tends_noteNode _ n) fun _ => ?_
    cases n.op with
    | ret => exact .done (ends_finish h n ret)
    | call f => exact .bind (tends_callNode h (tends_pullInput h) n f) fun _ => hgo n
    | fieldSet offset type => exact .bind (tends_setField h n offset type) fun _ => hgo n
    | branch =>
      exact .bind (.looks (looks_nth _ _)) fun id => .bind (tends_pullBool h id) fun _ =>
        .bind (.looks (looks_nth _ _)) fun id => .next (.looks (looks_target id))
    | forLoop => exact .next (tends_visitFor h n (some id))
    | whileLoop => exact .next (tends_visitWhile h n (some id))
    | reroute => exact hgo n
    | entry => exact .throw _
    | fieldGet offset type => exact .throw _
    | comment => exact .throw _

/-- By induction on the number of statements: every one but the last carries on, and the last one
ends the call. -/
theorem ends_statements (ret : Option Place) (fuel : Nat) (next : Option PinId) :
    Ends sc (statements invoke ret fuel next) resultCharges := by
  induction fuel generalizing next with
  | zero => exact .of_tends (.throw _)
  | succ fuel ih =>
    refine .bind (.looks looks_frame) fun f => ?_
    cases arrival? next f with
    | none => exact ends_finishEmpty h ret
    | some arrival =>
      refine .bind tends_tick fun _ a => ?_
      refine Ensures.bind_iff.mpr ((proceeds_statement h ret arrival a).mono
        (fun outcome b hb => ?_) fun _ _ h => h)
      cases outcome with
      | done result => exact hb
      | next next =>
        have hrest : Ends sc (modifyFrame (fun f => { f with statements := f.statements + 1 }) >>=
            fun _ => statements invoke ret fuel next) resultCharges :=
          .bind (.modifyFrame fun _ => ⟨rfl, rfl, rfl⟩) fun _ => ih next
        exact (hrest b).mono (fun _ _ h => hb.trans_concludes h) fun _ _ h => hb.trans h

theorem ends_body (args : List Value) (ret : Option Place) :
    Ends sc (body invoke args ret) resultCharges := by
  refine .bind (.looks looks_program) fun p => .bind (.looks (looks_node _)) fun entry =>
    .bind (tends_bindArguments _ _ _) fun _ => ?_
  split
  · refine .bind tends_tick fun _ => ?_
    cases p.returnNode with
    | none => exact .of_tends (.throw _)
    | some id => exact .bind (.looks (looks_node id)) fun n => ends_finish h n ret
  · cases entry.flowOut.head? with
    | some output =>
      exact .bind (.looks (looks_target output)) fun next => ends_statements h ret patience next
    | none => exact ends_statements h ret patience none

end Calls

end Run

namespace Program

open Exec

variable {a b : Activation} {m : Machine} {result : List Charge}

/-- Closing a frame empties its slots, and nothing else happens to the values in care. -/
theorem closeFrame_spec (sc : Scope) (b : Activation) :
    ∃ c : Activation, Run.clearAll sc.program.pins.size sc b = .ok () c ∧
      (closeFrame sc b).care = c.machine.care ∧
      (closeFrame sc b).memory.next = c.machine.memory.next ∧
      c.machine.care.strays = b.machine.care.strays := by
  have hstrays : Ensures (Run.clearAll sc.program.pins.size) sc b
      (fun _ c => c.machine.care.strays = b.machine.care.strays) fun _ _ => False :=
    Run.strays_clearAll _ b
  have hfree : ∀ (blocks : List Nat) (memory : Memory),
      (blocks.foldl Memory.free memory).next = memory.next := by
    intro blocks
    induction blocks with
    | nil => exact fun _ => rfl
    | cons block blocks ih => exact fun memory => ih _
  unfold closeFrame
  cases hr : Run.clearAll sc.program.pins.size sc b with
  | ok u c =>
    refine ⟨c, rfl, c.machine.care_modifyInterpreter _ _, ?_, hstrays.ok hr⟩
    exact (hfree _ _).trans (by rw [Machine.memory_modifyInterpreter])
  | error e c => exact (hstrays.error hr).elim

/-- A call that is about to run: its frame is new and empty. -/
structure Starts (sc : Scope) (m : Machine) (a : Activation) : Prop where
  size_eq : a.frame.slots.size = sc.program.pins.size
  vacant : ∀ id, a.frame.state id ≠ .owned
  first_eq : a.frame.firstBlock = m.memory.next
  care_eq : a.machine.care = m.care
  next_eq : a.machine.memory.next = m.memory.next + sc.program.pins.size

namespace Starts

theorem holds (h : Starts sc m a) (hm : m.Ordered) :
    a.Holds sc m.memory.next m.care.faults (m.memory.next + sc.program.pins.size ≤ ·) m.care.alive
      {} := by
  refine ⟨h.size_eq, h.first_eq, fun _ hk => hk, fun v hv => .inl (hm v hv), List.forall_mem_nil _, ?_⟩
  rw [Frame.charges_eq_nil fun id _ => h.vacant id]
  refine ⟨by rw [h.care_eq], by rw [h.care_eq]; exact .refl _, List.forall_mem_nil _, fun v hv => ?_,
    fun k hk => ?_⟩
  · have := hm v hv
    have := h.next_eq
    omega
  · rw [h.next_eq] at hk
    exact hk

theorem spoilt {strays low : Nat} {used : Nat → Prop} (h : Starts sc m a)
    (hm : m.Spoilt strays low used []) :
    a.Spoilt sc m.memory.next strays low
      (fun k => used k ∨ m.memory.next ≤ k ∧ k < m.memory.next + sc.program.pins.size) {} := by
  have hnext := h.next_eq
  refine ⟨h.size_eq, h.first_eq, fun k hk hlt => .inr ⟨hk, hlt⟩, ?_⟩
  refine hm.step (by rw [h.care_eq]) fun hl => ?_
  obtain ⟨v, hv, hlow, hfree, hhand⟩ := hl.leak
  have hl' := hl.still h.care_eq (by omega)
  refine { hl' with
    bound := fun k hk => hk.elim (hl'.bound k) (by omega)
    leak := ⟨v, h.care_eq ▸ hv, hlow, fun hk => hk.elim hfree fun hb => ?_, hhand⟩ }
  have := hl.ordered v hv
  omega

theorem settles_closeFrame
    (h : b.Holds sc m.memory.next m.care.faults (m.memory.next + sc.program.pins.size ≤ ·)
      m.care.alive ⟨result, []⟩) : m.Settles (closeFrame sc b) result := by
  obtain ⟨c, hclear, hcare, hnext, hstrays⟩ := closeFrame_spec sc b
  have hclears : b.Carries sc ⟨result, []⟩ _ c :=
    (Run.tends_clearAll sc.program.pins.size b).ok hclear
  have hc := ((hclears.holds _ _ _ _ h).resolve_left fun hs => by
    have := hs.machine.grew
    rw [hstrays] at this
    omega).2
  have hm := hc.machine
  rw [Frame.charges_eq_nil, List.nil_append] at hm
  · refine ⟨hcare ▸ hm.alive, hcare ▸ hm.faults_eq, fun v hv => ?_, ?_, fun v hv => ?_⟩
    · have := hm.inside v hv
      omega
    · have := hm.beyond _ (Nat.le_refl _)
      omega
    · rw [hcare] at hv
      rw [hnext]
      exact hm.known v (hm.alive.mem_iff.mp hv)
  · intro id hid
    refine hc.vacant id (List.mem_append_left _ ?_)
    rw [← hc.size_eq]
    exact hid

/-- The value that a call has forgotten is still in care when its frame is closed. -/
theorem leaks_closeFrame (h : b.Forgets sc m.memory.next result) :
    (closeFrame sc b).Leaks m.memory.next (· < m.memory.next) result := by
  obtain ⟨c, hclear, hcare, hnext, -⟩ := closeFrame_spec sc b
  have hc := (Run.forgets_clearAll sc.program.pins.size h).ok hclear
  obtain ⟨id, v, hv, -, hcharge⟩ := hc.forgotten
  obtain ⟨hblock, -, hlt⟩ := Frame.block_of_charge? hcharge
  have hfirst := hc.first_eq
  have hle := hc.le_next
  refine ⟨fun u hu => ?_, fun k hk => ?_, fun u hu => ?_, v, hcare ▸ hv, by omega, by omega,
    fun u hu => ?_⟩
  · rw [hcare] at hu
    rw [hnext]
    exact hc.ordered u hu
  · omega
  · rw [hnext]
    exact (hc.behind u hu).2
  · have := (hc.behind u hu).1
    omega

theorem leaves_closeFrame (h : Starts sc m a) (hb : a.Concludes sc result b) :
    m.Leaves (closeFrame sc b) result := by
  obtain ⟨c, hclear, hcare, hnext, hstrays⟩ := closeFrame_spec sc b
  have hclears : b.Carries sc ⟨result, []⟩ _ c :=
    (Run.tends_clearAll sc.program.pins.size b).ok hclear
  -- What spoils the account while the frame is open still does when it is closed.
  have hspoilt : ∀ first strays low used, b.Spoilt sc first strays low used ⟨result, []⟩ →
      (closeFrame sc b).Spoilt strays low used result := fun first strays low used hs =>
    (hclears.spoilt _ _ _ _ hs).machine.step (by rw [hcare]) fun hl =>
      hl.still hcare (Nat.le_of_eq hnext.symm)
  have hm := h.next_eq
  refine ⟨?_, ?_, fun strays low used hs => ?_, fun hordered => ?_⟩
  · have := hb.next
    have := hclears.next
    omega
  · rw [hcare, hstrays, ← h.care_eq]
    exact hb.strays
  · refine (hspoilt _ _ _ _ (hb.spoilt _ _ _ _ (h.spoilt hs))).mono (Nat.le_refl low) fun _ => .inl
  · rw [hcare, hstrays, ← h.care_eq]
    rcases hb.holds _ _ _ _ (h.holds hordered) with hs | ⟨heq, hb⟩ | ⟨hlen, hb⟩
    · refine .inl ((hspoilt _ _ _ _ hs).mono (by omega) fun k hk => ?_)
      exact Nat.lt_of_lt_of_le hk (by omega)
    · exact .inr ⟨heq, settles_closeFrame hb⟩
    · refine .inl (.inr ⟨?_, leaks_closeFrame hb⟩)
      rw [hcare, hstrays, hlen]

end Starts

theorem takeFrame_starts {p : Program} {seat : Seat} (args : List Value) {w : Context} {m : Machine} :
    Ensures (p.takeFrame seat) w m (fun f m' => Starts (p.scope seat args w) m ⟨f, m'⟩)
      fun _ m' => m'.care = m.care ∧ m'.memory.next = m.memory.next := by
  simp only [takeFrame, Ensures.bind_iff, Ensures.get_iff]
  cases hframe : Frame.take? p (m.interpreter seat).stack with
  | mk base stack =>
    cases base with
    | none =>
      refine ⟨m.care_modifyInterpreter seat _, ?_⟩
      exact congrArg Memory.next (m.memory_modifyInterpreter seat _)
    | some base =>
      have hnext := congrArg Memory.next (m.memory_modifyInterpreter seat fun i => { i with stack })
      refine ⟨Array.size_replicate, fun id => ?_, hnext, m.care_modifyInterpreter seat _,
        congrArg (· + p.pins.size) hnext⟩
      rw [Frame.state_replicate]
      simp

variable {invoke : Invoke}

theorem tidy_runFramed (h : invoke.Settles) (p : Program) (seat : Seat) (args : List Value)
    (ret : Option Place) : Tidy [] (p.runFramed invoke seat args ret) resultCharges := by
  intro w m
  unfold runFramed
  split
  · exact Machine.Carries.refl
  · refine Ensures.bind_iff.mpr ((takeFrame_starts args).mono (fun f m' hf => ?_) fun _ _ hf =>
      .still hf.1 (Nat.le_of_eq hf.2.symm))
    refine runIn_iff.mpr ((Run.ends_body h args ret ⟨f, m'⟩).mono (fun v b hb => ?_) fun _ b hb => ?_)
    · refine (Machine.Carries.iff_leaves.mpr (hf.leaves_closeFrame hb)).trans (.still ?_ ?_)
      · exact Machine.care_watchResult _ v
      · exact Nat.le_of_eq (by rw [Machine.memory_watchResult])
    · exact Machine.Carries.iff_leaves.mpr (hf.leaves_closeFrame hb.concludes)

theorem idle_recordFailure (p : Program) (seat : Seat) (nested : Bool) (e : ScriptError) :
    Idle (p.recordFailure seat nested e) := by
  unfold recordFailure
  split
  · refine (idle_trace _ _).bind fun _ => .modify fun m => ⟨m.care_modifyInterpreter seat _, ?_⟩
    exact congrArg Memory.next (m.memory_modifyInterpreter seat _)
  · exact idle_trace _ _

theorem tidy_execute (h : invoke.Settles) (p : Program) (seat : Seat) (args : List Value)
    (ret : Option Place) : Tidy [] (p.execute invoke seat args ret) resultCharges := by
  intro w m
  have henter : m.Carries [] [] (p.enter seat args m) :=
    .still (m.care_modifyInterpreter seat _)
      (Nat.le_of_eq (congrArg Memory.next (m.memory_modifyInterpreter seat _)).symm)
  have hleave : ∀ (m' : Machine) (hand : List Charge),
      m'.Carries hand hand (leave seat m.current (m.interpreter seat).world m') := fun m' hand =>
    .still (m'.care_modifyInterpreter seat _)
      (Nat.le_of_eq (congrArg Memory.next (m'.memory_modifyInterpreter seat _)).symm)
  refine execute_iff.mpr ((tidy_runFramed h p seat args ret w (p.enter seat args m)).mono
    (fun v m' hm' => henter.trans (hm'.trans (hleave m' _))) fun e m' hm' => ?_)
  refine (idle_recordFailure p seat _ _ w m').mono (fun _ m'' hm'' => ?_) fun _ _ _ => trivial
  exact henter.trans (hm'.trans (.trans (.still hm''.1 (Nat.le_of_eq hm''.2.symm)) (hleave m'' [])))

end Program

theorem settles_invokeUnder {native : List Call → Native} (hn : ∀ calls, (native calls).Settles)
    (depth : Nat) (calls : List Call) : (invokeUnder native depth calls).Settles := by
  induction depth generalizing calls with
  | zero => exact Invoke.settles_iff.mpr fun _ _ _ => .throw _
  | succ depth ih =>
    refine Invoke.settles_iff.mpr fun f args ret => ?_
    have hnative : Tidy [] (native calls (invokeUnder native depth calls) f args ret)
        resultCharges := Invoke.settles_iff.mp (hn calls _ (ih calls)) f args ret
    unfold invokeUnder
    cases f.check (args.map Value.argument) with
    | error e => exact .throw e
    | ok u =>
      cases f.body with
      | script number =>
        have hready : Idle (readyProgram number) := fun w m =>
          readyProgram_ensures (fun _ _ => ⟨rfl, rfl⟩) fun _ => ⟨rfl, rfl⟩
        exact (Tidy.idle hready).bind fun p => (Tidy.looks .get).bind fun m =>
          (Program.tidy_execute (ih _) p _ args ret).mapError _
      | native op shape destructor => exact hnative
      | aggregate op whole => exact hnative
      | host host => exact hnative

/-- However deep calls nest, and whether they succeed or fail: if no value goes astray, then every value
that was constructed has either ended once or been given to the caller, and nothing else has
happened to the values in care. If one goes astray, then that is not so. -/
theorem Program.execute_settles_iff (native : List Call → Native)
    (hn : ∀ calls, (native calls).Settles) (depth : Nat) (calls : List Call) (p : Program)
    (seat : Seat) (args : List Value) (ret : Option Place) (w : Context) (m : Machine)
    (hm : m.Ordered) :
    Ensures (p.execute (invokeUnder native depth calls) seat args ret) w m
      (fun v m' => m'.care.strays.length ≤ m.care.strays.length + 1 →
        (m.Settles m' (resultCharges v) ↔ m'.care.strays = m.care.strays))
      fun _ m' => m'.care.strays.length ≤ m.care.strays.length + 1 →
        (m.Settles m' [] ↔ m'.care.strays = m.care.strays) := by
  have hiff : ∀ (m' : Machine) (extra : List Charge), m.Carries [] extra m' →
      m'.care.strays.length ≤ m.care.strays.length + 1 →
      (m.Settles m' extra ↔ m'.care.strays = m.care.strays) := by
    intro m' extra hcarries hone
    rcases (Machine.Carries.iff_leaves.mp hcarries).settles hm with hs | ⟨heq, hs⟩
    · obtain ⟨hne, hnot⟩ := hs.not_settles hm hone
      exact ⟨fun h => absurd h hnot, fun h => absurd h hne⟩
    · exact ⟨fun _ => heq, fun _ => hs⟩
  exact (tidy_execute (settles_invokeUnder hn depth calls) p seat args ret w m).mono
    (fun _ m' hm' => hiff m' _ hm') fun _ m' hm' => hiff m' _ hm'

namespace Program

def doNothing (name : String) (params : List Param) : Function :=
  { name, params, result := none, pure := false, body := .host ⟨false, .nothing, 0⟩ }

def plainType (id : UInt32) (name : String) (layout : Layout) : TypeInfo :=
  { id := ⟨id⟩, name, layout, traits := { default := true }
    functions := [(.operator .construct, [doNothing "new" []])] }

/-- Shows a tag, which takes no room, and returns a token that lies at the same address. -/
def astray : Program where
  name := "Astray"
  script := none
  nodes := #[some { id := ⟨1⟩, label := "Entry", op := .entry, pure := false, flowOut := [⟨1⟩] },
    some { id := ⟨2⟩, label := "Show", op := .call (doNothing "Show" [⟨"tag", ⟨1⟩, .constRef⟩])
           pure := false, flowIn := [⟨2⟩], flowOut := [⟨3⟩], dataIn := [⟨4⟩] },
    some { id := ⟨3⟩, label := "Return", op := .ret, pure := false, flowIn := [⟨5⟩], dataIn := [⟨6⟩] }]
  pins := #[some (flowPin ⟨1⟩ (some ⟨2⟩)), some (flowPin ⟨2⟩ none), some (flowPin ⟨2⟩ (some ⟨5⟩)),
    some (dataPin ⟨2⟩ 0 .constRef), some (flowPin ⟨3⟩ none), some (dataPin ⟨3⟩ 1 .value)]
  entry := ⟨1⟩
  returnNode := some ⟨3⟩
  result := some (1, .value)
  pure := false
  params := 0
  hasWorld := false
  thisType := none
  storage := ⟨4, 4⟩
where
  flowPin (node : NodeId) (target : Option PinId) : ProgramPin :=
    { node, type := none, form := .value, default := none, target, storage := 0 }
  dataPin (node : NodeId) (type : Handle) (form : Form) : ProgramPin :=
    { node, type := some type, form, default := none, storage := 0 }

def astrayContext : Context where
  catalogue := { infos := #[plainType 1 "Tag" ⟨0, 1⟩, plainType 2 "Token" ⟨4, 4⟩] }

/-- How many strays there are after a run that succeeds. -/
def strayCount : EStateM.Result ScriptError Machine (Option Value) → Option Nat
  | .ok _ m => some m.care.strays.length
  | .error _ _ => none

theorem astray_not_settles :
    ∃ v m', astray.execute (invokeUnder (fun _ => Native.builtin) 2 []) .own [] none astrayContext {}
        = .ok v m' ∧ m'.care.strays.length = 1 ∧ ¬({} : Machine).Settles m' (resultCharges v) := by
  have hcount : strayCount (astray.execute (invokeUnder (fun _ => Native.builtin) 2 []) .own [] none
      astrayContext {}) = some 1 := by decide +kernel
  have hiff := execute_settles_iff (fun _ => Native.builtin) (fun _ => Native.settles_builtin) 2 []
    astray .own [] none astrayContext {} (List.forall_mem_nil _)
  cases hr : astray.execute (invokeUnder (fun _ => Native.builtin) 2 []) .own [] none astrayContext {} with
  | error e m' =>
    rw [hr] at hcount
    cases hcount
  | ok v m' =>
    rw [hr] at hcount
    have hone : m'.care.strays.length = 1 := Option.some.inj hcount
    refine ⟨v, m', rfl, hone, fun hs => ?_⟩
    have hnone := (hiff.ok hr (Nat.le_of_eq hone)).mp hs
    rw [hnone] at hone
    cases hone

end Program

end Flowscript
