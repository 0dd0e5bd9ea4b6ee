import Flowscript.Proofs.Run.UprightActivations

/-! # What inputs are given

Pulling an input delivers data of its type: from a value that was lent, or from a slot that holds a
value and that the input was computed from. The slots that hold values still do so afterwards, even
those that were filled anew meanwhile, so that what one input was given lasts while others are pulled.
-/
namespace Flowscript

open Relation

open Activation (Upright)

variable {ε α β : Type} {T : Terms} {sc : Scope} {room : Nat → Prop} {aside : List Charge}
  {kept : List (PinId × Charge)}

namespace Frame

variable {c : Catalogue} {p : Program} {f g : Frame} {id : PinId}

@[simp] theorem storage?_set (f : Frame) (id other : PinId) (state : SlotState) :
    (f.set id state).storage? p other = f.storage? p other := by
  unfold set
  split <;> rfl

theorem mem_charges_of_mem_chargesBut {v : Charge} (h : v ∈ f.chargesBut c p id) :
    v ∈ f.charges c p := by
  obtain ⟨k, -, hv⟩ := List.mem_filterMap.mp h
  exact mem_charges.mpr ⟨k, hv⟩

structure Like (c : Catalogue) (p : Program) (slots : List PinId) (f g : Frame) : Prop where
  charge : ∀ id, g.charge? c p id = f.charge? c p id
  state : ∀ o, o ∉ slots → g.state o = f.state o

theorem Like.refl (slots : List PinId) (f : Frame) : f.Like c p slots f := ⟨fun _ => rfl, fun _ _ => rfl⟩

theorem Like.set {slots : List PinId} (h : f.Like c p slots g) (hid : id ∈ slots) (state : SlotState) :
    f.Like c p slots (g.set id state) := by
  refine ⟨fun other => (charge?_set g id other state).trans (h.charge other), fun o ho => ?_⟩
  have hne : o ≠ id := fun he => ho (he ▸ hid)
  exact (state_set_of_ne hne).trans (h.state o ho)

theorem Like.mono {slots slots' : List PinId} (h : f.Like c p slots g)
    (hsub : ∀ id ∈ slots, id ∈ slots') : f.Like c p slots' g :=
  ⟨h.charge, fun o ho => h.state o fun hm => ho (hsub o hm)⟩

theorem like_set (f : Frame) (id : PinId) (state : SlotState) :
    f.Like c p [id] (f.set id state) :=
  (Like.refl [id] f).set List.mem_cons_self state

structure Firm (T : Terms) (sc : Scope) (kept : List (PinId × Charge)) (f : Frame) : Prop where
  sound : f.Sound T.lies sc.context.catalogue sc.program T.lent
  kept : ∀ x ∈ kept, f.held sc.context.catalogue sc.program x.1 = some x.2

namespace Firm

theorem own (h : f.Firm T sc kept) (hl : f.Like sc.context.catalogue sc.program [id] g)
    (hs : g.state id = .owned) (hacc : Acc sc.program.Feeds id)
    (howns : sc.program.Owns sc.context.catalogue id) : g.Firm T sc kept := by
  have hother : ∀ o, o ≠ id → g.state o = f.state o := fun o ho =>
    hl.state o fun hm => ho (List.mem_singleton.mp hm)
  refine ⟨h.sound.own hl.charge hother hs hacc howns, fun x hx => ?_⟩
  have hheld := h.kept x hx
  refine held_eq_of_state hl.charge hheld ?_
  by_cases hid : x.1 = id
  · rw [hid, hs]
  · rw [hother _ hid]
    exact (held_eq_some.mp hheld).1

/-- A slot that never holds a value is filled. -/
theorem refer (h : f.Firm T sc kept) (hl : f.Like sc.context.catalogue sc.program [id] g)
    (hs : g.state id ≠ .owned) (hfree : ¬ sc.program.Owns sc.context.catalogue id)
    (hacc : Acc sc.program.Feeds id)
    (hleads : ∀ place type, g.state id = .borrowed place →
      sc.program.typeOf sc.context.catalogue id = some type → Lent T.lies T.lent place type ∨
        ∃ k v, TransGen sc.program.Feeds k id ∧
          f.held sc.context.catalogue sc.program k = some v ∧ v.Has T.lies place type) :
    g.Firm T sc kept := by
  have hother : ∀ o, o ≠ id → g.state o = f.state o := fun o ho =>
    hl.state o fun hm => ho (List.mem_singleton.mp hm)
  refine ⟨h.sound.refer hl.charge hother hs hfree hacc hleads, fun x hx => ?_⟩
  have hheld := h.kept x hx
  have hne : x.1 ≠ id := fun he => hfree (he ▸ h.sound.owns x.1 (held_eq_some.mp hheld).1)
  exact held_eq_of_state hl.charge hheld ((hother _ hne).trans (held_eq_some.mp hheld).1)

/-- A slot that never holds a value is emptied and filled again. -/
theorem reset {state : SlotState} (h : f.Firm T sc kept) (hmem : id ∈ f.ids) (hs : state ≠ .owned)
    (hfree : ¬ sc.program.Owns sc.context.catalogue id) (hacc : Acc sc.program.Feeds id)
    (hleads : ∀ place type, state = .borrowed place →
      sc.program.typeOf sc.context.catalogue id = some type → Lent T.lies T.lent place type ∨
        ∃ k v, TransGen sc.program.Feeds k id ∧
          f.held sc.context.catalogue sc.program k = some v ∧ v.Has T.lies place type) :
    ((f.set id .empty).set id state).Firm T sc kept := by
  have hstate : ((f.set id .empty).set id state).state id = state :=
    state_set_self (by rwa [ids_set])
  refine h.refer ((like_set f id .empty).set List.mem_cons_self state) (by rwa [hstate]) hfree hacc
    fun place type hplace => hleads place type (hstate.symm.trans hplace)

theorem congr (h : f.Firm T sc kept) (hl : f.Like sc.context.catalogue sc.program [] g) :
    g.Firm T sc kept := by
  have hstate : ∀ o, g.state o = f.state o := fun o => hl.state o List.not_mem_nil
  have hheld : ∀ id, g.held sc.context.catalogue sc.program id =
      f.held sc.context.catalogue sc.program id := by
    intro id
    unfold held
    rw [hstate, hl.charge]
  refine ⟨⟨?_, ?_, ?_⟩, fun x hx => (hheld x.1).trans (h.kept x hx)⟩
  · intro o place type ho htype
    simp only [hheld]
    exact h.sound.refers o place type ((hstate o).symm.trans ho) htype
  · exact fun o ho => h.sound.grounded o (hstate o ▸ ho)
  · exact fun o ho => h.sound.owns o (hstate o ▸ ho)

end Firm

def Delivers (T : Terms) (sc : Scope) (id : PinId) (data : Option Place) (f : Frame) : Prop :=
  ∃ s, sc.program.Source id s ∧ Acc sc.program.Feeds s ∧ ∀ place, data = some place →
    ∀ type, sc.program.typeOf sc.context.catalogue id = some type →
      f.Leads T.lies sc.context.catalogue sc.program T.lent s place type

end Frame

namespace Run

theorem modest_endCharge {w : Context} (destructor : Option Destructor) (v : Charge) (m : Machine) :
    Ensures (Exec.endCharge destructor v : Exec Empty Unit) w m
      (fun _ m' => m'.watch = m.watch ∧ m'.care.strays = m.care.strays) fun _ _ => True := by
  cases destructor with
  | none => exact ⟨rfl, Care.strays_lose _ _⟩
  | some d => exact ⟨rfl, Care.strays_lose _ _⟩

theorem modest_clear (id : PinId) : Modest sc (clear id) := by
  refine (Modest.looks looks_program).bind fun p => (Modest.looks looks_frame).bind fun f => ?_
  dsimp only
  split
  · split
    · exact (Modest.looks .read).bind fun _ => (Modest.liftTotal (modest_endCharge _ _)).bind fun _ =>
        .modifyFrame _
    · exact .modifyFrame _
  · exact .modifyFrame _

theorem modest_setOwned (id : PinId) : Modest sc (setOwned id) := by
  refine (Modest.looks (looks_charge? id)).bind fun charge => ?_
  cases charge with
  | none => exact .modifyFrame _
  | some v =>
    have htake : Modest sc (liftTotal (Exec.modifyCare (·.take v))) := fun a =>
      ⟨rfl, Care.strays_take _ _⟩
    exact htake.bind fun _ => .modifyFrame _

theorem frame_clear (id : PinId) (a : Activation) :
    Ensures (clear id) sc a (fun _ b => b.frame = a.frame.set id .empty) fun _ _ => True :=
  clear_ensures (fun _ _ _ _ _ => rfl) fun _ => rfl

theorem frame_setOwned (id : PinId) (a : Activation) :
    Ensures (setOwned id) sc a (fun _ b => b.frame = a.frame.set id .owned) fun _ _ => True := by
  simp only [setOwned, charge?, Ensures.bind_iff, Ensures.read_iff, Ensures.run_frame_iff,
    Ensures.pure_iff]
  cases a.frame.charge? sc.context.catalogue sc.program id <;> exact rfl

/-- A slot is emptied and filled again, with a reference or with nothing. -/
theorem frame_reset (id : PinId) (state : SlotState) (a : Activation) :
    Ensures (clear id >>= fun _ => modifyFrame (·.set id state)) sc a
      (fun _ b => b.frame = (a.frame.set id .empty).set id state) fun _ _ => True :=
  Ensures.bind_iff.mpr ((frame_clear id a).mono
    (fun _ b hb => Ensures.run_modifyFrame_iff.mpr (by rw [hb])) fun _ _ _ => trivial)

end Run

/-- The functions that a call calls can be trusted, and all programs are as they should be. -/
structure Terms.Met (T : Terms) (sc : Scope) (invoke : Invoke) : Prop where
  trusted : invoke.Trusted T.lies T.hosts sc.context
  context : sc.context.Sound T.lies
  program : sc.context.Suits T.lies sc.program

namespace Run

variable {invoke : Invoke} {vacant : List PinId} {F : Frame → Prop}

theorem upholds_clear (id : PinId) {hand : Hand} :
    Upholds T sc (Upright T sc room aside hand F) (clear id) fun _ =>
      Upright T sc room aside ⟨hand.values, id :: hand.vacant⟩
        fun g => ∃ f, F f ∧ g = f.set id .empty :=
  .tended (modest_clear id) (tends_clear id) (steady_clear id) fun a ha =>
    (frame_clear id a).mono (fun _ _ hb => ⟨a.frame, ha, hb⟩) fun _ _ _ => trivial

theorem upholds_setOwned (id : PinId) {values : List Charge} :
    Upholds T sc (Upright T sc room aside ⟨values, id :: vacant⟩ F) (setOwned id) fun _ =>
      Upright T sc room aside ⟨values, []⟩ fun g => ∃ f, F f ∧ g = f.set id .owned :=
  .tended (modest_setOwned id) (tends_setOwned id) (steady_setOwned id) fun a ha =>
    (frame_setOwned id a).mono (fun _ _ hb => ⟨a.frame, ha, hb⟩) fun _ _ _ => trivial

theorem upholds_reset (id : PinId) {state : SlotState} (hs : state ≠ .owned) {hand : Hand} :
    Upholds T sc (Upright T sc room aside hand F)
      (clear id >>= fun _ => modifyFrame (·.set id state)) fun _ =>
      Upright T sc room aside ⟨hand.values, []⟩
        fun g => ∃ f, F f ∧ g = (f.set id .empty).set id state :=
  .tended ((modest_clear id).bind fun _ => .modifyFrame _)
    ((tends_clear id).bind fun _ => tends_set id hs)
    ((steady_clear id).bind fun _ => steady_set id state) fun a ha =>
      (frame_reset id state a).mono (fun _ _ hb => ⟨a.frame, ha, hb⟩) fun _ _ _ => trivial

theorem upholds_setNull (id : PinId) {hand : Hand} :
    Upholds T sc (Upright T sc room aside hand F) (setNull id) fun _ =>
      Upright T sc room aside ⟨hand.values, []⟩
        fun g => ∃ f, F f ∧ g = (f.set id .empty).set id .null :=
  upholds_reset id (by simp)

theorem upholds_setBorrowed (id : PinId) (place : Place) {hand : Hand} :
    Upholds T sc (Upright T sc room aside hand F) (setBorrowed id place) fun _ =>
      Upright T sc room aside ⟨hand.values, []⟩
        fun g => ∃ f, F f ∧ g = (f.set id .empty).set id (.borrowed place) :=
  upholds_reset id (by simp)

theorem upholds_lift {x : Exec ε Unit} (f : ε → ScriptError)
    (ht : Tidy [] x fun _ => []) (hk : (Conduct.free .any sc.seat).pact.Keeps fun _ => x)
    (lentTo : Frame → List Charge)
    (hx : ∀ g, Honors T.lies T.hosts (lentTo g) sc.context (F g) x)
    (hlent : ∀ g, ∀ v ∈ T.others, v ∈ lentTo g)
    (halive : ∀ g, ∀ v ∈ lentTo g,
      v ∈ g.charges sc.context.catalogue sc.program ++ (aside ++ T.others)) :
    Upholds T sc (Upright T sc room aside ⟨[], vacant⟩ F) (lift f x) fun _ =>
      Upright T sc room aside ⟨[], vacant⟩ F := by
  refine .whole (.lift f ht) (.lift f hk) fun a => ?_
  have hfair : a.machine.Watched T.lies T.start → a.Upright T sc room aside ⟨[], vacant⟩ F →
      a.machine.Fair T.lies T.hosts (lentTo a.frame) T.start := fun hw ha =>
    ha.fair hw (fun v hv => hlent _ v (ha.lent v hv)) (halive a.frame)
  refine Ensures.run_lift_iff.mpr ((hx a.frame T.start a.machine).mono
    (fun r m hm => ⟨hm.1, fun hu hw ha => ⟨?_, ha.frame⟩⟩) fun e m hm => ⟨hm.1, fun hu hw ha => ?_⟩)
  · exact (hm.2 hu ha.frame (hfair hw ha)).watched
  · exact (hm.2 hu ha.frame (hfair hw ha)).watched

theorem upholds_storage (id : PinId) (missing : String) :
    Upholds T sc (Upright T sc room aside ⟨[], vacant⟩ F) (storage id missing) fun place =>
      Upright T sc room aside ⟨[], vacant⟩ fun g => F g ∧ g.storage? sc.program id = some place := by
  refine .tended (.looks (looks_storage id missing)) (.looks (looks_storage id missing))
    (.looks (looks_storage id missing)) fun a ha => ?_
  simp only [storage, storage?, Ensures.bind_iff, Ensures.run_frame_iff, Ensures.run_program_iff,
    Ensures.pure_iff]
  cases hplace : a.frame.storage? sc.program id with
  | some place => exact ⟨ha, hplace⟩
  | none => trivial

theorem mem_ids_of_pin? {a : Activation} {hand : Hand} {id : PinId} {q : ProgramPin}
    (ha : a.Upright T sc room aside hand F) (hq : sc.program.pin? id = some q) :
    id ∈ a.frame.ids := by
  obtain ⟨faults, hholds⟩ := ha.holds
  exact Frame.mem_ids_of_pin? hholds.size_eq hq

/-- A value is constructed in the slot of a pin, from what other slots hold and what is left aside. -/
theorem upholds_fillOwned {id : PinId} {q : ProgramPin}
    (hq : sc.program.pin? id = some q) (howns : sc.program.Owns sc.context.catalogue id)
    (missing : String) {init : Place → Exec ε Unit} (f : Place → ε → ScriptError)
    (ht : ∀ place, Tidy [] (init place) fun _ => [])
    (hk : ∀ place, (Conduct.free .any sc.seat).pact.Keeps fun _ => init place)
    {P : List Charge → Prop}
    (hx : ∀ lent place, Honors T.lies T.hosts lent sc.context (P lent) (init place)) :
    Upholds T sc
      (Upright T sc room aside {} fun g => g.Firm T sc kept ∧ Acc sc.program.Feeds id ∧
        P (g.chargesBut sc.context.catalogue sc.program id ++ (aside ++ T.others)))
      (fillOwned id missing fun place => lift (f place) (init place))
      fun r => Upright T sc room aside {} fun g => g.Firm T sc kept ∧ g.state id = .owned ∧
        g.value? sc.program id = r := by
  refine (upholds_clear id).bind fun _ => (upholds_storage id missing).bind fun place => ?_
  refine Upholds.bind (upholds_lift (f place) (ht place) (hk place)
    (fun g => g.chargesBut sc.context.catalogue sc.program id ++ (aside ++ T.others))
    (fun g => (hx _ place).mono ?_) ?_ ?_) fun _ => (upholds_setOwned id).bind fun _ =>
      .pure fun a ha => ?_
  · rintro ⟨⟨f₀, ⟨-, -, hP⟩, rfl⟩, -⟩
    rwa [Frame.chargesBut_set]
  · exact fun g v hv => List.mem_append_right _ (List.mem_append_right _ hv)
  · refine fun g v hv => (List.mem_append.mp hv).elim (fun hv => ?_) (List.mem_append_right _)
    exact List.mem_append_left _ (Frame.mem_charges_of_mem_chargesBut hv)
  · obtain ⟨g, ⟨⟨f₀, ⟨hfirm, hacc, -⟩, rfl⟩, hstorage⟩, hg⟩ := ha.frame
    have hstate : a.frame.state id = .owned := by
      have hmem := mem_ids_of_pin? ha hq
      rw [hg] at hmem ⊢
      rw [Frame.ids_set] at hmem
      exact Frame.state_set_self hmem
    refine ha.imp fun _ => ⟨hfirm.own ?_ hstate hacc howns, hstate, ?_⟩
    · rw [hg]
      exact (Frame.like_set f₀ id .empty).set List.mem_cons_self .owned
    · unfold Frame.value?
      rw [hstate, hg]
      exact (Frame.storage?_set ..).trans hstorage

variable {n : ProgramNode} {nid : NodeId} {id : PinId} {q : ProgramPin}

section Inputs

variable (h : T.Met sc invoke) (hn : sc.program.node? nid = some n) (hid : id ∈ n.dataIn)
include h hn hid

theorem acc_input : Acc sc.program.Feeds id :=
  .intro id fun _ hk => absurd hk (h.program.typed.not_feeds hn hid)

omit hn hid in
theorem pin_of_dataIn (hn : sc.program.node? nid = some n) (hid : id ∈ n.dataIn)
    (hq : sc.program.pin? id = some q) : q.node = nid ∧ id ∉ n.dataOut := by
  obtain ⟨hnot, q', hq', hnode⟩ := h.program.typed.input nid n hn id hid
  rw [hq] at hq'
  cases hq'
  exact ⟨hnode, hnot⟩

theorem owns_input_iff (hq : sc.program.pin? id = some q) :
    sc.program.Owns sc.context.catalogue id ↔ q.default.isSome ∨
      ∃ handle, q.type = some handle ∧ (sc.context.catalogue.info handle).traits.default = true := by
  obtain ⟨hnode, hnot⟩ := pin_of_dataIn h hn hid hq
  constructor
  · rintro ⟨q', n', hq', hn', howns⟩
    rw [hq] at hq'
    cases hq'
    rw [hnode, hn] at hn'
    cases hn'
    rcases howns with ⟨-, howns⟩ | ⟨hout, -⟩
    · exact howns
    · exact absurd hout hnot
  · exact fun howns => ⟨q, n, hq, by rw [hnode]; exact hn, .inl ⟨hid, howns⟩⟩

variable (hq : sc.program.pin? id = some q) (hsource : q.source = none)
include hq hsource

theorem delivers_unlinked {g : Frame} {data : Option Place}
    (hdata : ∀ place, data = some place → ∀ type,
      sc.program.typeOf sc.context.catalogue id = some type →
      g.Leads T.lies sc.context.catalogue sc.program T.lent id place type) :
    g.Delivers T sc id data :=
  ⟨id, .unlinked hq hsource, acc_input h hn hid, hdata⟩

theorem upholds_fillInput (howns : sc.program.Owns sc.context.catalogue id) (missing : String)
    {init : Place → Exec ε Unit} (f : Place → ε → ScriptError)
    (ht : ∀ place, Tidy [] (init place) fun _ => [])
    (hk : ∀ place, (Conduct.free .any sc.seat).pact.Keeps fun _ => init place)
    (hx : ∀ lent place, Honors T.lies T.hosts lent sc.context True (init place)) :
    Upholds T sc (Upright T sc room aside {} (Frame.Firm T sc kept))
      (fillOwned id missing fun place => lift (f place) (init place)) fun data =>
      Upright T sc room aside {} fun g => g.Firm T sc kept ∧ g.Delivers T sc id data := by
  refine (upholds_fillOwned hq howns missing f ht hk hx).mono
    (fun a ha => ha.imp fun hF => ⟨hF, acc_input h hn hid, trivial⟩) fun data b hb => hb.imp ?_
  rintro ⟨hfirm, -, hvalue⟩
  refine ⟨hfirm, delivers_unlinked h hn hid hq hsource fun place hdata type htype => ?_⟩
  exact hfirm.sound.leads h.context.whole htype (hvalue.trans hdata)

theorem upholds_constructed {handle : Handle} (hhandle : q.type = some handle)
    (hlent : ∀ place g, Lent T.lies T.lent place (sc.context.catalogue.info handle).id →
      Frame.Delivers T sc id (some place) g)
    (hdefault : q.default = none) (world : Option (TypeId × Place)) :
    Upholds T sc
      (fun a => (∀ type place, world = some (type, place) → Lent T.lies T.lent place type) ∧
        a.Upright T sc room aside {} (Frame.Firm T sc kept))
      (fallback.constructed invoke id q (sc.context.catalogue.info handle) world) fun data =>
      Upright T sc room aside {} fun g => g.Firm T sc kept ∧ g.Delivers T sc id data := by
  have howns := owns_input_iff h hn hid hq
  unfold fallback.constructed
  cases hworld : world.filter (·.1 == (sc.context.catalogue.info handle).id) with
  | some found =>
    obtain ⟨type, place⟩ := found
    obtain ⟨hsome, hbeq⟩ := Option.filter_eq_some_iff.mp hworld
    refine .pure fun a ha => ha.2.imp fun hF => ⟨hF, hlent place a.frame ?_⟩
    rw [← eq_of_beq hbeq]
    exact ha.1 type place hsome
  | none =>
    dsimp only
    split
    · rename_i htrait
      exact (upholds_fillInput h hn hid hq hsource (howns.mpr (.inr ⟨handle, hhandle, htrait⟩)) _ _
        (Invoke.tidy_defaultAt h.trusted.settles _)
        (Invoke.keeps_defaultAt (h.trusted.calls sc.seat) _)
        fun lent place => Invoke.honors_defaultAt h.trusted h.context handle place).mono
          (fun a ha => ha.2) fun _ _ hb => hb
    · rename_i htrait
      have hfree : ¬ sc.program.Owns sc.context.catalogue id := by
        rw [howns, hdefault]
        rintro (hsome | ⟨handle', hhandle', htrait'⟩)
        · cases hsome
        · rw [hhandle] at hhandle'
          cases hhandle'
          exact htrait htrait'
      split
      · refine Upholds.bind ((upholds_setNull id).mono (fun a ha => ha.2) fun _ _ hb => hb)
          fun _ => .pure fun a ha => ?_
        have hmem := mem_ids_of_pin? ha hq
        obtain ⟨f, hfirm, hf⟩ := ha.frame
        rw [hf, Frame.ids_set, Frame.ids_set] at hmem
        refine ha.imp fun _ => ⟨?_, delivers_unlinked h hn hid hq hsource fun _ hnone => nomatch hnone⟩
        rw [hf]
        exact hfirm.reset hmem (by simp) hfree (acc_input h hn hid) fun _ _ hb => nomatch hb
      · exact .throw _

/-- An input that is not linked gets its default, the owner of the function, the active world or a
default of its type. -/
theorem upholds_fallback :
    Upholds T sc (Upright T sc room aside {} (Frame.Firm T sc kept)) (fallback invoke id) fun data =>
      Upright T sc room aside {} fun g => g.Firm T sc kept ∧ g.Delivers T sc id data := by
  refine .look_pin fun q' hq' => .look_pinType fun q'' handle hq'' hhandle => .look_read ?_
  rw [hq] at hq' hq''
  cases hq'
  cases hq''
  have hlent : ∀ place g, Lent T.lies T.lent place (sc.context.catalogue.info handle).id →
      Frame.Delivers T sc id (some place) g := by
    intro place g hlent
    refine delivers_unlinked h hn hid hq hsource fun place' hplace type htype => .inl ?_
    cases hplace
    rw [Program.typeOf, hq, Option.bind_some, hhandle] at htype
    cases htype
    exact hlent
  cases hdefault : q.default with
  | some j =>
    exact upholds_fillInput h hn hid hq hsource
      ((owns_input_iff h hn hid hq).mpr (.inl (by rw [hdefault]; rfl))) _ _
      (Invoke.tidy_decodeAt h.trusted.settles _ j)
      (Invoke.keeps_decodeAt (h.trusted.calls sc.seat) _ j)
      fun lent place => Invoke.honors_decodeAt h.trusted h.context _ j place
  | none =>
    refine .look_interpreter fun i => ?_
    have hconstructed : Upholds T sc
        (fun a => a.Upright T sc room aside {} (Frame.Firm T sc kept) ∧
          a.machine.interpreter sc.seat = i)
        (fallback.constructed invoke id q (sc.context.catalogue.info handle) i.world) fun data =>
        Upright T sc room aside {} fun g => g.Firm T sc kept ∧ g.Delivers T sc id data := by
      refine (upholds_constructed h hn hid hq hsource hhandle hlent hdefault i.world).mono
        (fun a ha => ⟨fun type place hworld => ?_, ha.1⟩) fun _ _ hb => hb
      exact ha.1.world sc.seat type place (by rw [ha.2]; exact hworld)
    cases hthis : sc.this with
    | none => exact hconstructed
    | some this =>
      dsimp only
      split
      · rename_i htype
        exact .pure fun a ha => ha.1.imp fun hF => ⟨hF, hlent this a.frame (ha.1.this this _ hthis htype)⟩
      · exact hconstructed

end Inputs

theorem modest_allocTemp (l : Layout) : Modest sc (allocTemp l) := fun a =>
  allocTemp_ensures (fun _ => ⟨rfl, rfl⟩) fun _ _ _ => ⟨a.machine.watch_modifyInterpreter _ _,
    congrArg Care.strays (a.machine.care_modifyInterpreter _ _)⟩

theorem upholds_allocTemp (l : Layout) :
    Upholds T sc (Upright T sc room aside {} F) (allocTemp l) fun _ =>
      Upright T sc room aside {} F := by
  refine .tended (modest_allocTemp l) (fun a => ?_) (steady_allocTemp l) fun a ha =>
    allocTemp_ensures (fun _ => ha) fun _ _ _ => ha
  exact allocTemp_ensures (fun _ => .refl) fun start stack _ => .of_machine rfl rfl rfl
    (.still (a.machine.care_modifyInterpreter _ _) (Nat.le_succ _))

theorem upholds_copyTemp (h : T.Met sc invoke) (handle : Handle) (source : Place) :
    Upholds T sc
      (Upright T sc room aside {} fun g => F g ∧
        Lent T.lies (g.charges sc.context.catalogue sc.program ++ (aside ++ T.others)) source
          (sc.context.catalogue.info handle).id)
      (copyTemp invoke (sc.context.catalogue.info handle) source) fun temp =>
      Upright T sc room aside ⟨[⟨temp, (sc.context.catalogue.info handle).id⟩], []⟩ F := by
  refine .whole (tends_copyTemp h.trusted.settles _ source)
    (steady_copyTemp (h.trusted.calls sc.seat) _ source) ?_
  refine (upholds_allocTemp _).bind fun temp => ?_
  cases temp with
  | none => exact .throw _
  | some temp =>
    refine Upholds.bind (upholds_lift _ (Invoke.tidy_copyAt h.trusted.settles _ temp source)
      (Invoke.keeps_copyAt (h.trusted.calls sc.seat) _ temp source)
      (fun g => g.charges sc.context.catalogue sc.program ++ (aside ++ T.others))
      (fun g => (Invoke.honors_copyAt h.trusted h.context handle temp source).mono (·.2))
      (fun g v hv => List.mem_append_right _ (List.mem_append_right _ hv)) fun g v hv => hv)
      fun _ => ?_
    refine Upholds.bind (.modest (fun a => ⟨rfl, Care.strays_take _ _⟩) fun a ha => ?_)
      fun _ => .pure fun _ hb => hb
    exact ha.frame.1

/-- A copy that is passed on ends when the rest is done, whether that failed or not. -/
theorem upholds_andEnd {x : Run α} {P : Activation → Prop} {after : α → Hand} {G : α → Frame → Prop}
    (destructor : Option Destructor) (v : Charge)
    (hx : Upholds T sc P x fun r => Upright T sc room (v :: aside) (after r) (G r)) :
    Upholds T sc P (x.andFinally do
      Exec.endCharge destructor v
      Exec.free v.place) fun r => Upright T sc room aside (after r) (G r) := by
  refine hx.andFinally (fun m => ?_) fun r b hb => ?_
  · exact Ensures.bind_iff.mpr ((modest_endCharge destructor v m).mono (fun _ _ h => h)
      fun _ _ h => h)
  · have hkeeps : (Conduct.free .any sc.seat).pact.Keeps fun _ => (do
        Exec.endCharge destructor v
        Exec.free v.place : Exec Empty Unit) :=
      (Exec.keeps_endCharge destructor v).bind fun _ => Exec.keeps_free v.place
    have hcare : Ensures (do
        Exec.endCharge destructor v
        Exec.free v.place : Exec Empty Unit) sc.context b.machine
        (fun _ m => m.care = b.machine.care.lose v ∧ m.memory.next = b.machine.memory.next)
        fun _ _ => True :=
      Ensures.bind_iff.mpr ((Exec.endCharge_ensures destructor v).mono
        (fun _ m hm => ⟨hm.1, (congrArg Memory.next hm.2 : m.memory.next = b.machine.memory.next)⟩)
        fun _ _ _ => trivial)
    refine ((hkeeps.ensures trivial).and hcare).mono (fun _ m hm => ?_) fun _ _ _ => trivial
    obtain ⟨faults, hholds⟩ := hb.holds
    exact { hb with
      holds := ⟨faults, hholds.lose rfl hm.2.1 (Nat.le_of_eq hm.2.2.symm)⟩
      world := hb.world.of_standing hm.1.standing }

end Run

end Flowscript
