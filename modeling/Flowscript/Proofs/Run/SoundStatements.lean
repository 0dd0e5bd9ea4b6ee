import Flowscript.Proofs.Run.SafeRuns
import Flowscript.Proofs.Run.SoundPulls

/-! # What statements leave behind

Between statements a call has nothing in hand, and its slots are sound. Every statement leaves it so,
since all it pulls is sound and the slots it fills may hold what it fills them with. The statement that
ends the call gives back a value of its own, or a reference to what was lent or into the frame.
-/
namespace Flowscript

open Activation (Upright)

variable {T : Terms} {sc : Scope} {room : Nat → Prop}

/-- Between statements nothing is in hand, and the slots are sound. -/
abbrev Activation.Stands (T : Terms) (sc : Scope) (room : Nat → Prop) : Activation → Prop :=
  Upright T sc room [] {} (Frame.Firm T sc [])

open Activation (Stands)

/-- What a call ends with, if anything: a value as the program returns it. A reference leads to what was
lent or into the frame. -/
def Finished (T : Terms) (sc : Scope) (result : Option Value) : Prop :=
  ∀ v, result = some v → ∃ h form, sc.program.result = some (h, form) ∧
    v.type = (sc.context.catalogue.info h).id ∧ v.isOwning = form.isOwning ∧
      (v.isOwning = false → ∀ place, v.place? = some place →
        Lent T.lies T.lent place (sc.context.catalogue.info h).id ∨
          T.first ≤ place.block ∧ place.block < T.first + sc.program.pins.size)

theorem Finished.none : Finished T sc none := fun _ hv => nomatch hv

@[simp] theorem Value.isOwning_borrowed (type : TypeId) (form : Form) (place : Place) :
    (Value.borrowed type form place).isOwning = false := by
  unfold Value.borrowed Value.isOwning
  cases form.isPointer <;> rfl

theorem Care.strays_le_handOver (care : Care) (v : Charge) (released : Option Charge) :
    care.strays.length ≤ (care.handOver v released).strays.length := by
  unfold handOver
  dsimp only
  split
  · rw [strays_lose]
  · rw [strays_lose]
    exact Nat.le_succ _

namespace Run

variable {invoke : Invoke} {n : ProgramNode} {nid : NodeId} {id : PinId} {F : Frame → Prop}

theorem modest_writeInt (id : PinId) (k : Int) : Modest sc (writeInt id k) := by
  refine (modest_clear id).bind fun _ => (Modest.looks (looks_storage? id)).bind fun place => ?_
  cases place with
  | none => exact .pure _
  | some place =>
    have hwrite : Modest sc (liftTotal
        (Exec.modifyMemory (·.write place (.int .i32) (.int k)))) := fun _ => ⟨rfl, rfl⟩
    exact hwrite.bind fun _ => modest_setOwned id

theorem frame_writeInt {q : ProgramPin} {handle : Handle} (hq : sc.program.pin? id = some q)
    (hhandle : q.type = some handle) (k : Int) (a : Activation) :
    Ensures (writeInt id k) sc a (fun _ b => b.frame = (a.frame.set id .empty).set id .owned)
      fun _ _ => True := by
  refine Ensures.bind_iff.mpr ((frame_clear id a).mono (fun _ b hb => ?_) fun _ _ _ => trivial)
  simp only [storage?, Ensures.bind_iff, Ensures.run_frame_iff, Ensures.run_program_iff,
    Ensures.pure_iff, Frame.storage?, hq, hhandle, Option.isSome_some, if_true,
    Ensures.run_liftTotal_iff, Ensures.exec_modifyMemory_iff]
  refine (frame_setOwned id _).mono (fun _ c hc => ?_) fun _ _ _ => trivial
  rw [hc, hb]

/-- Only the loops under way or the count of statements change. -/
theorem upholds_modifyFrame {f : Frame → Frame} (hslots : ∀ g, (f g).slots = g.slots ∧
      (f g).firstBlock = g.firstBlock ∧ (f g).base = g.base) (hmark : ∀ g, (f g).mark = g.mark) :
    Upholds T sc (Stands T sc room) (modifyFrame f) fun _ => Stands T sc room := by
  refine .tended (.modifyFrame f) (.modifyFrame hslots) (.modifyFrame fun g => ⟨hmark g, (hslots g).2.2⟩)
    fun a ha => ha.congr ?_
  obtain ⟨hs, hf, hb⟩ := hslots a.frame
  refine ⟨fun id => ?_, fun o _ => ?_⟩
  · show (f a.frame).charge? _ _ id = _
    simp only [Frame.charge?, Frame.storage?, hf, hb]
  · show (f a.frame).state o = _
    simp only [Frame.state, hs]

theorem upholds_enterLoop (marker : LoopMarker) :
    Upholds T sc (Stands T sc room) (modifyFrame (·.enterLoop marker)) fun _ =>
      Stands T sc room := by
  refine upholds_modifyFrame (fun g => ?_) fun g => ?_ <;> unfold Frame.enterLoop
  · split <;> exact ⟨rfl, rfl, rfl⟩
  · split <;> rfl

theorem upholds_complete (n : ProgramNode) (completed : PinId) :
    Upholds T sc (Stands T sc room) (complete n completed) fun _ => Stands T sc room := by
  refine Upholds.bind (upholds_modifyFrame (fun g => ?_) fun g => ?_) fun _ =>
    .looks (looks_target completed)
  · unfold Frame.exitLoop
    split <;> exact ⟨rfl, rfl, rfl⟩
  · unfold Frame.exitLoop
    split <;> rfl

theorem modest_clearAll (count : Nat) : Modest sc (clearAll count) := by
  induction count with
  | zero => exact .pure _
  | succ count ih => exact (modest_clear _).bind fun _ => ih

section Statements

variable (h : T.Met sc invoke) (hn : sc.program.node? nid = some n)
include h hn

theorem upholds_pullAtom (hid : id ∈ n.dataIn) (name : String) (prim : Prim) :
    Upholds T sc (Stands T sc room) (pullAtom invoke id name prim) fun _ => Stands T sc room := by
  refine (pulls_pullInput h room [] [] nid n id hn hid).bind fun data => ?_
  cases data with
  | none => exact .throw _
  | some place =>
    exact (Upholds.looks (looks_expectType id name)).bind fun _ =>
      (Upholds.looks looks_memory).bind fun _ => .pure fun a ha => ha.imp (·.1)

theorem upholds_pullBool (hid : id ∈ n.dataIn) :
    Upholds T sc (Stands T sc room) (pullBool invoke id) fun _ => Stands T sc room :=
  (upholds_pullAtom h hn hid _ _).bind fun _ => .pure fun _ ha => ha

theorem upholds_pullInt (hid : id ∈ n.dataIn) :
    Upholds T sc (Stands T sc room) (pullInt invoke id) fun _ => Stands T sc room := by
  refine (upholds_pullAtom h hn hid _ _).bind fun atom => ?_
  cases atom <;> exact .pure fun _ ha => ha

/-- Nothing is read for the outputs of a node that computes none. -/
theorem acc_unread (hout : id ∈ n.dataOut) (hreads : n.reads = []) : Acc sc.program.Feeds id :=
  acc_output h hn hout (by rw [hreads]; exact List.forall_mem_nil _)

theorem upholds_writeInt (hop : n.op = .forLoop) (hout : id ∈ n.dataOut) (k : Int) :
    Upholds T sc (Stands T sc room) (writeInt id k) fun _ => Stands T sc room := by
  obtain ⟨q, handle, hq, hhandle⟩ := h.program.formed.data nid n hn id (.inr hout)
  have hfilled : Upholds T sc (Stands T sc room) (writeInt id k) fun _ =>
      Upright T sc room [] {} fun g => ∃ f : Frame, f.Firm T sc [] ∧
        g = (f.set id .empty).set id .owned :=
    .tended (modest_writeInt id k) (tends_writeInt id k) (steady_writeInt id k) fun a ha =>
      (frame_writeInt hq hhandle k a).mono (fun _ b hb => ⟨a.frame, ha, hb⟩) fun _ _ _ => trivial
  refine hfilled.mono (fun _ ha => ha) fun _ b hb => hb.imp ?_
  rintro ⟨f, hfirm, hf⟩
  have hmem := mem_ids_of_pin? hb hq
  rw [hf, Frame.ids_set] at hmem
  have howns : sc.program.Owns sc.context.catalogue id := by
    rw [h.program.typed.owns_output_iff hn hout, hop]
    trivial
  rw [hf]
  exact hfirm.own ((Frame.like_set f id .empty).set List.mem_cons_self .owned)
    (Frame.state_set_self hmem) (acc_unread h hn hout (by rw [ProgramNode.reads, hop])) howns

theorem upholds_visitFor (hop : n.op = .forLoop) (via : Option PinId) :
    Upholds T sc (Stands T sc room) (visitFor invoke n via) fun _ => Stands T sc room := by
  refine .look_nth fun break' _ => .look_nth fun index hindex => .look_nth fun body _ =>
    .look_nth fun completed _ => ?_
  have hwrite : ∀ k, Upholds T sc (Stands T sc room) (writeInt index k) fun _ => Stands T sc room :=
    upholds_writeInt h hn hop (List.mem_of_getElem? hindex)
  have hend : Upholds T sc (Stands T sc room)
      (nth n.dataIn 1 >>= fun id => pullInt invoke id >>= fun stop => readInt index >>= fun i =>
        if i ≥ stop then complete n completed else target body) fun _ => Stands T sc room := by
    refine .look_nth fun id hid => (upholds_pullInt h hn (List.mem_of_getElem? hid)).bind fun stop =>
      (Upholds.looks (looks_readInt index)).bind fun i => ?_
    split
    · exact upholds_complete n completed
    · exact .looks (looks_target body)
  split
  · exact upholds_complete n completed
  · cases via with
    | some pin =>
      exact .look_nth fun id hid => (upholds_pullInt h hn (List.mem_of_getElem? hid)).bind fun start =>
        (hwrite start).bind fun _ => (upholds_enterLoop _).bind fun _ => hend
    | none =>
      exact (Upholds.looks (looks_readInt index)).bind fun _ => (hwrite _).bind fun _ => hend

theorem upholds_visitWhile (via : Option PinId) :
    Upholds T sc (Stands T sc room) (visitWhile invoke n via) fun _ => Stands T sc room := by
  refine .look_nth fun break' _ => .look_nth fun body _ => .look_nth fun completed _ => ?_
  have hend : Upholds T sc (Stands T sc room)
      (nth n.dataIn 0 >>= fun id => pullBool invoke id >>= fun condition =>
        if condition then target body else complete n completed) fun _ => Stands T sc room := by
    refine .look_nth fun id hid =>
      (upholds_pullBool h hn (List.mem_of_getElem? hid)).bind fun condition => ?_
    split
    · exact .looks (looks_target body)
    · exact upholds_complete n completed
  split
  · exact upholds_complete n completed
  · split
    · exact (upholds_enterLoop _).bind fun _ => hend
    · exact hend

omit h hn in
theorem upholds_moveAway (t : TypeInfo) (temp field : Place) :
    Upholds T sc (Upright T sc room [] ⟨[⟨temp, t.id⟩], []⟩ (Frame.Firm T sc [])) (liftTotal do
      Exec.destroy t.destructor field
      Exec.modifyMemory (·.transfer temp field t.layout.size)
      Exec.modifyCare (·.lose ⟨temp, t.id⟩)
      Exec.free temp) fun _ => Stands T sc room := by
  have hmodest : ∀ a : Activation, Ensures (liftTotal do
      Exec.destroy t.destructor field
      Exec.modifyMemory (·.transfer temp field t.layout.size)
      Exec.modifyCare (·.lose ⟨temp, t.id⟩)
      Exec.free temp) sc a
      (fun _ b => (b.machine.watch = a.machine.watch ∧
        b.machine.care.strays = a.machine.care.strays) ∧ b.frame = a.frame) fun _ _ => False := by
    intro a
    cases ht : t.destructor with
    | none => exact ⟨⟨rfl, Care.strays_lose _ _⟩, rfl⟩
    | some d => exact ⟨⟨rfl, Care.strays_lose _ _⟩, rfl⟩
  refine .tended (fun a => (hmodest a).mono (fun _ _ h => h.1) fun _ _ h => h.elim)
    (.liftTotal (Exec.tidy_moveAway _ _ _ fun m => m.next_transfer _ _ _))
    (.liftTotal ?_) fun a ha => (hmodest a).mono (fun _ _ h => h.2 ▸ ha) fun _ _ h => h.elim
  exact (Exec.keeps_destroy _ _).bind fun _ => (Exec.keeps_modifyMemory _).bind fun _ =>
    (Exec.keeps_modifyCare _).bind fun _ => Exec.keeps_free _

theorem upholds_setField {offset : Nat} {type : Handle} (hop : n.op = .fieldSet offset type) :
    Upholds T sc (Stands T sc room) (setField invoke n offset type) fun _ => Stands T sc room := by
  have hfits := h.program.typed.fits nid n hn
  rw [Program.Fits, hop] at hfits
  refine ((upholds_pullTarget (pulls_pullInput h) hn).mono (fun _ ha => ha) fun _ _ hb =>
    (hb.imp (·.1) : Stands T sc room _)).bind fun owner => .look_nth fun id hid =>
      (pulls_pullInput h room [] [] nid n id hn (List.mem_of_getElem? hid)).bind fun source => ?_
  cases source with
  | none => exact .throw _
  | some source =>
    refine .look_read (upholds_withStack ?_)
    refine Upholds.bind (((upholds_copyTemp h type source).mapError _).mono (fun a ha => ?_)
      fun _ _ hb => hb) fun temp => upholds_moveAway _ temp _
    obtain ⟨hfirm, s, -, -, hleads⟩ := ha.frame
    exact ha.imp fun _ => ⟨hfirm, ha.lent_of_leads (hleads source rfl _ (hfits.2 id hid))⟩

omit hn in
/-- A value is moved out of the frame, or copied from what was lent. Afterwards the call ends. -/
theorem upholds_handOver (handle : Handle) (source target : Place) :
    Upholds T sc
      (Upright T sc room [] {} fun g => Lent T.lies
        (g.charges sc.context.catalogue sc.program ++ ([] ++ T.others)) source
          (sc.context.catalogue.info handle).id)
      (handOver invoke (sc.context.catalogue.info handle) source target) fun _ _ => True := by
  refine (Upholds.looks looks_frame).bind fun f => .look_program ?_
  cases f.owner? sc.program source with
  | none =>
    exact (upholds_lift _ (Invoke.tidy_copyAt h.trusted.settles _ target source)
      (Invoke.keeps_copyAt (h.trusted.calls sc.seat) _ target source)
      (fun g => g.charges sc.context.catalogue sc.program ++ ([] ++ T.others))
      (fun g => Invoke.honors_copyAt h.trusted h.context handle target source)
      (fun g v hv => List.mem_append_right _ (List.mem_append_right _ hv)) fun g v hv => hv).mono
        (fun _ ha => ha) fun _ _ _ => trivial
  | some owner =>
    refine (Upholds.looks (looks_charge? owner)).bind fun released => ?_
    refine Upholds.bind (R := fun _ _ => True) (fun a => ?_) fun _ =>
      .modest (.modifyFrame _) fun _ _ => trivial
    refine ⟨⟨?_, Nat.le_refl _⟩, fun _ hw _ => ⟨hw, trivial⟩⟩
    exact Care.strays_le_handOver _ _ _

omit h hn in
/-- What is constructed in the caller's storage, or in storage of its own, is a value. -/
theorem upholds_produce (t : TypeInfo) (ret : Option Place) {init : Place → Run Unit}
    (hi : ∀ place, Upholds T sc (Upright T sc room [] {} F) (init place) fun _ _ => True) :
    Upholds T sc (Upright T sc room [] {} F) (produce t ret init) fun result _ =>
      ∀ v, result = some v → v.type = t.id ∧ v.isOwning = true := by
  cases ret with
  | some place => exact (hi place).bind fun _ => .pure fun _ _ _ hv => nomatch hv
  | none =>
    have hallocate : Upholds T sc (Upright T sc room [] {} F)
        (liftTotal (Exec.allocate t.layout)) fun _ => Upright T sc room [] {} F :=
      .tended (fun _ => ⟨rfl, rfl⟩) (fun _ => .of_machine rfl rfl rfl (.still rfl (Nat.le_succ _)))
        (.liftTotal (Exec.keeps_allocate _)) fun _ ha => ha
    refine hallocate.bind fun place => (hi place).attempt.bind fun outcome => ?_
    cases outcome with
    | ok u =>
      refine Upholds.bind (R := fun v _ => v.type = t.id ∧ v.isOwning = true)
        (.modest (fun _ => ⟨rfl, Care.strays_take _ _⟩) fun _ _ => ⟨rfl, rfl⟩) fun v => .pure ?_
      rintro a hv _ ⟨⟩
      exact hv
    | error e =>
      exact Upholds.bind (R := fun _ _ => True)
        (.modest (fun _ => ⟨rfl, rfl⟩) fun _ _ => trivial) fun _ => .throw e

theorem upholds_finish (hop : n.op = .ret) (ret : Option Place) :
    Upholds T sc (Stands T sc room) (finish invoke n ret) fun result _ => Finished T sc result := by
  refine .look_program ?_
  cases hresult : sc.program.result with
  | none => exact .pure fun _ _ => .none
  | some result =>
    obtain ⟨handle, form⟩ := result
    refine .look_read (.look_nth fun id hid =>
      (pulls_pullInput h room [] [] nid n id hn (List.mem_of_getElem? hid)).bind fun value => ?_)
    have htype : sc.program.typeOf sc.context.catalogue id =
        some (sc.context.catalogue.info handle).id := by
      have hfits := h.program.typed.fits nid n hn
      rw [Program.Fits, hop] at hfits
      exact hfits handle form hresult id hid
    split
    · rename_i hform
      cases value with
      | none => exact .throw _
      | some source =>
        refine Upholds.mono (P := Upright T sc room [] {} fun g => Lent T.lies
            (g.charges sc.context.catalogue sc.program ++ ([] ++ T.others)) source
              (sc.context.catalogue.info handle).id)
          (upholds_produce _ ret fun place => (upholds_handOver h handle source place).mapError _)
          (fun a ha => ?_) fun result b hb v hv => ?_
        · obtain ⟨-, s, -, -, hleads⟩ := ha.frame
          exact ha.imp fun _ => ha.lent_of_leads (hleads source rfl _ htype)
        · obtain ⟨hvtype, howning⟩ := hb v hv
          refine ⟨handle, form, hresult, hvtype, howning.trans hform.symm, fun hborrowed => ?_⟩
          rw [howning] at hborrowed
          cases hborrowed
    · rename_i hform
      cases value with
      | none =>
        dsimp only
        split
        · refine .pure ?_
          rintro a - _ ⟨⟩
          refine ⟨handle, form, hresult, rfl, (Bool.not_eq_true _ ▸ hform).symm,
            fun _ _ hplace => ?_⟩
          cases hplace
        · exact .throw _
      | some place =>
        refine (Upholds.looks looks_interpreter).bind fun i =>
          (Upholds.looks looks_frame).bind fun f => ?_
        split
        · exact .throw _
        · refine .pure ?_
          rintro a ha _ ⟨⟩
          refine ⟨handle, form, hresult, rfl, ?_, fun _ source hsource => ?_⟩
          · rw [Value.isOwning_borrowed]
            exact (Bool.not_eq_true _ ▸ hform).symm
          rw [Value.place?_borrowed] at hsource
          cases hsource
          obtain ⟨-, s, -, -, hleads⟩ := ha.frame
          refine (hleads place rfl _ htype).imp_right ?_
          rintro ⟨k, v, -, hheld, hhas⟩
          obtain ⟨faults, hholds⟩ := ha.holds
          obtain ⟨hle, hlt⟩ := Frame.block_of_mem_charges (Frame.mem_charges.mpr ⟨k, hheld⟩)
          rw [hholds.first_eq] at hle hlt
          rw [hhas.block_eq]
          exact ⟨hle, hlt⟩

omit hn in
theorem upholds_finishEmpty (ret : Option Place) :
    Upholds T sc (Stands T sc room) (finishEmpty invoke ret) fun result _ =>
      Finished T sc result := by
  refine .look_program ?_
  cases hresult : sc.program.result with
  | none => exact .pure fun _ _ => .none
  | some result =>
    obtain ⟨handle, form⟩ := result
    refine .look_read ?_
    dsimp only
    split
    · rename_i hpointer
      refine .pure ?_
      rintro a - _ ⟨⟩
      refine ⟨handle, form, hresult, rfl, ?_, fun _ _ hplace => nomatch hplace⟩
      cases form <;> first | rfl | cases hpointer
    · split
      · exact .throw _
      · rename_i hform
        refine (upholds_produce _ ret fun place => (upholds_lift _
          (Invoke.tidy_defaultAt h.trusted.settles _ place)
          (Invoke.keeps_defaultAt (h.trusted.calls sc.seat) _ place) (fun _ => T.others)
          (fun g => Invoke.honors_defaultAt h.trusted h.context handle place)
          (fun _ _ hv => hv) fun g v hv => List.mem_append_right _ (List.mem_append_right _ hv)).mono
            (fun _ ha => ha) fun _ _ _ => trivial).mono (fun _ ha => ha) fun result b hb v hv => ?_
        obtain ⟨hvtype, howning⟩ := hb v hv
        have howns : form.isOwning = true := by
          by_contra hnot
          simp [hnot] at hform
        refine ⟨handle, form, hresult, hvtype, howning.trans howns.symm, fun hborrowed => ?_⟩
        rw [howning] at hborrowed
        cases hborrowed

end Statements

/-- What a statement leaves behind: a call that goes on, or what it ends with. -/
def Leaves (T : Terms) (sc : Scope) (room : Nat → Prop) : Outcome → Activation → Prop
  | .next _, a => a.Stands T sc room
  | .done result, _ => Finished T sc result

section Runs

variable (h : T.Met sc invoke)
include h

theorem upholds_statement (ret : Option Place) {arrival : Arrival}
    (harrival : Arrives sc.program arrival) :
    Upholds T sc (Stands T sc room) (statement invoke ret arrival) (Leaves T sc room) := by
  have hgo : ∀ n : ProgramNode, Upholds T sc (Stands T sc room)
      (nth n.flowOut 0 >>= fun id => target id >>= fun next => Pure.pure (.next next))
      (Leaves T sc room) := fun n => .look_nth fun id _ =>
    (Upholds.looks (looks_target id)).bind fun _ => .pure fun _ ha => ha
  have hnext : ∀ {x : Run (Option PinId)}, Upholds T sc (Stands T sc room) x
      (fun _ => Stands T sc room) → Upholds T sc (Stands T sc room)
        (x >>= fun next => Pure.pure (.next next)) (Leaves T sc room) :=
    fun hx => hx.bind fun _ => .pure fun _ ha => ha
  cases arrival with
  | again marker =>
    refine .look_node fun n hn => (upholds_noteNode _ n).bind fun _ => ?_
    obtain ⟨n', hn', hop⟩ := harrival
    rw [hn] at hn'
    cases hn'
    cases marker with
    | forLoop id => exact hnext (upholds_visitFor h hn hop none)
    | whileLoop id => exact hnext (upholds_visitWhile h hn none)
  | through id =>
    refine .look_pin fun q _ => .look_node fun n hn => (upholds_noteNode _ n).bind fun _ => ?_
    cases hop : n.op with
    | ret => exact (upholds_finish h hn hop ret).bind fun _ => .pure fun _ ha => ha
    | call f =>
      exact ((upholds_callNode h (pulls_pullInput h) hn hop).mono (fun _ ha => ha) fun _ _ hb =>
        (hb.imp (·.1) : Stands T sc room _)).bind fun _ => hgo n
    | fieldSet offset type => exact (upholds_setField h hn hop).bind fun _ => hgo n
    | branch =>
      exact .look_nth fun id hid => (upholds_pullBool h hn (List.mem_of_getElem? hid)).bind fun _ =>
        .look_nth fun id _ => hnext (.looks (looks_target id))
    | forLoop => exact hnext (upholds_visitFor h hn hop (some id))
    | whileLoop => exact hnext (upholds_visitWhile h hn (some id))
    | reroute => exact hgo n
    | entry => exact .throw _
    | fieldGet offset type => exact .throw _
    | comment => exact .throw _

/-- By induction on the number of statements: every one but the last leaves a call that goes on, in
loops of the program. -/
theorem upholds_statements (ret : Option Place) (fuel : Nat) {next : Option PinId}
    (hnext : sc.program.Leads next) {a : Activation} (hloops : a.frame.LoopsIn sc.program) :
    UpholdsAt T sc (Stands T sc room) (statements invoke ret fuel next)
      (fun result _ => Finished T sc result) a := by
  have halike : invoke.Alike invoke := fun _ _ _ _ => rfl
  induction fuel generalizing next a with
  | zero => exact Upholds.throw _ a
  | succ fuel ih =>
    refine (Upholds.looks looks_frame a).bind (S := fun f b => f = b.frame ∧ b = a) ⟨rfl, rfl⟩ ?_
    rintro _ a ⟨rfl, rfl⟩
    cases harrival : arrival? next a.frame with
    | none => exact upholds_finishEmpty h ret a
    | some arrival =>
      have harrives := arrives_of_arrival? hloops hnext harrival
      refine (upholds_tick a).bind ((safe_tick a hloops).2.mono (fun _ _ hb => hb.2)
        fun _ _ _ => trivial) fun _ b hb => ?_
      refine (upholds_statement h ret harrives b).bind ((safe_statement halike h.program.formed ret
        harrives b hb).2.mono (fun _ _ hc => hc) fun _ _ _ => trivial) fun outcome c hc => ?_
      cases outcome with
      | done result =>
        exact Upholds.pure (P := fun _ => Finished T sc result) (fun _ hresult => hresult) c
      | next next =>
        have hcount : Upholds T sc (Stands T sc room)
            (modifyFrame fun f => { f with statements := f.statements + 1 }) fun _ =>
            Stands T sc room := upholds_modifyFrame (fun _ => ⟨rfl, rfl, rfl⟩) fun _ => rfl
        exact (hcount c).bind (S := fun _ d => d.frame.LoopsIn sc.program) hc.2 fun _ d hd =>
          ih hc.1 hd

theorem upholds_bindArgument (hn : sc.program.node? nid = some n) (hop : n.op = .entry)
    (hid : id ∈ n.dataOut) (index : Nat) (v : Value) :
    Upholds T sc (fun a => v.IsLent T.lies T.lent ∧ a.Stands T sc room) (bindArgument index id v)
      fun _ => Stands T sc room := by
  refine .look_pinType fun q handle hq hhandle => ?_
  have hfree : ¬ sc.program.Owns sc.context.catalogue id := by
    rw [h.program.typed.owns_output_iff hn hid, hop]
    exact not_false
  have hreset : ∀ {state : SlotState} {b : Activation}, state ≠ .owned →
      (∀ place type, state = .borrowed place → sc.program.typeOf sc.context.catalogue id = some type →
        Lent T.lies T.lent place type) →
      b.Upright T sc room [] {} (fun g => ∃ f : Frame, f.Firm T sc [] ∧
        g = (f.set id .empty).set id state) → b.Stands T sc room := by
    intro state b hstate hlent hb
    obtain ⟨f, hfirm, hf⟩ := hb.frame
    have hmem := mem_ids_of_pin? hb hq
    rw [hf, Frame.ids_set, Frame.ids_set] at hmem
    refine hb.imp fun _ => ?_
    rw [hf]
    exact hfirm.reset hmem hstate hfree (acc_unread h hn hid (by rw [ProgramNode.reads, hop]))
      fun place type hplace htype => .inl (hlent place type hplace htype)
  split
  · exact .throw _
  · rename_i htype
    cases hplace : v.place? with
    | some place =>
      refine ((upholds_setBorrowed id place).and_pure _).mono (fun _ ha => ha) ?_
      rintro _ b ⟨hv, hb⟩
      refine hreset (by simp) (fun source type hsource htype' => ?_) hb
      cases hsource
      rw [Program.typeOf, hq, Option.bind_some, hhandle] at htype'
      cases htype'
      have hlent := hv place hplace
      rwa [not_not.mp htype] at hlent
    | none =>
      dsimp only
      split
      · exact (upholds_setNull id).mono (fun _ ha => ha.2) fun _ b hb =>
          hreset (by simp) (fun _ _ hnull => by cases hnull) hb
      · exact .throw _

theorem upholds_bindArguments (hn : sc.program.node? nid = some n) (hop : n.op = .entry)
    (index : Nat) {ids : List PinId} (hids : ∀ id ∈ ids, id ∈ n.dataOut) (args : List Value) :
    Upholds T sc (fun a => (∀ v ∈ args, v.IsLent T.lies T.lent) ∧ a.Stands T sc room)
      (bindArguments index ids args) fun _ => Stands T sc room := by
  induction ids generalizing index args with
  | nil => exact .pure fun _ ha => ha.2
  | cons id ids ih =>
    cases args with
    | nil => exact .pure fun _ ha => ha.2
    | cons v vs =>
      obtain ⟨hid, hids⟩ := List.forall_mem_cons.mp hids
      refine Upholds.bind (((upholds_bindArgument h hn hop hid index v).and_pure
        (∀ u ∈ vs, u.IsLent T.lies T.lent)).mono ?_ fun _ _ hb => hb) fun _ =>
          ih (index + 1) hids vs
      rintro a ⟨hargs, ha⟩
      obtain ⟨hv, hvs⟩ := List.forall_mem_cons.mp hargs
      exact ⟨hvs, hv, ha⟩

theorem upholds_body (args : List Value) (ret : Option Place) {a : Activation}
    (hloops : a.frame.LoopsIn sc.program) :
    UpholdsAt T sc (fun a => (∀ v ∈ args, v.IsLent T.lies T.lent) ∧ a.Stands T sc room)
      (body invoke args ret) (fun result _ => Finished T sc result) a := by
  have hp := h.program.formed
  obtain ⟨entry, hentry⟩ := hp.entry
  have hop := h.program.typed.entry entry hentry
  refine (Upholds.looks looks_program a).bind (S := fun p b => p = sc.program ∧ b = a) ⟨rfl, rfl⟩ ?_
  rintro _ a ⟨rfl, rfl⟩
  refine (Upholds.looks (looks_node _) a).bind ((safe_node hentry a hloops).2.mono
    (fun _ _ hb => hb) fun _ _ _ => trivial) ?_
  rintro entry b ⟨rfl, hb⟩
  have hbind : Upholds T sc (fun a => (∀ v ∈ args, v.IsLent T.lies T.lent) ∧ a.Stands T sc room)
      (bindArguments 0 entry.dataOut (args.drop sc.program.implicitArgs)) fun _ => Stands T sc room :=
    (upholds_bindArguments h hentry hop 0 (fun _ hid => hid) _).mono
      (fun _ ha => ⟨fun v hv => ha.1 v (List.mem_of_mem_drop hv), ha.2⟩) fun _ _ hc => hc
  refine (hbind b).bind
    ((safe_bindArguments 0 (fun id hid => hp.data _ entry hentry id (.inr hid)) _ b hb).2.mono
      (fun _ _ hc => hc.2) fun _ _ _ => trivial) fun _ c hc => ?_
  split
  · rename_i hpure
    obtain ⟨id, n, hid, hn, hret⟩ := hp.result hpure
    rw [hid]
    refine (upholds_tick.bind fun _ => ?_) c
    refine .look_node fun n' hn' => ?_
    rw [hn] at hn'
    cases hn'
    exact upholds_finish h hn hret ret
  · cases hhead : entry.flowOut.head? with
    | some output =>
      exact (Upholds.looks (looks_target output) c).bind ((safe_target hp hentry
        (List.mem_of_mem_head? hhead) c hc).2.mono (fun _ _ hd => hd) fun _ _ _ => trivial)
          fun next d hd => upholds_statements h ret patience hd.1 hd.2
    | none => exact upholds_statements h ret patience (fun _ hnone => by cases hnone) hc

end Runs

end Run

end Flowscript
