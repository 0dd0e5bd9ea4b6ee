import Flowscript.Proofs.Run.InputDelivery

/-! # What calls give back

The arguments of a call are rooted in what was lent, in copies, and in slots that the node reads from.
None of these is the slot that the result goes to, so they all last until the call has returned. A
reference that it gives back leads into one of them; if it leads into a copy, it is left dangling.
-/
namespace Flowscript

open Relation

open Activation (Upright)

variable {ε α β : Type} {T : Terms} {sc : Scope} {room : Nat → Prop} {aside : List Charge}
  {kept : List (PinId × Charge)}

namespace Program

/-- What an input is looked for in does not depend on itself. -/
def Grounded (p : Program) (id : PinId) : Prop := ∃ s, p.Source id s ∧ Acc p.Feeds s

def Upstream (p : Program) (n : ProgramNode) (k : PinId) : Prop :=
  ∃ i s, i ∈ n.reads ∧ p.Source i s ∧ ReflTransGen p.Feeds k s

end Program

namespace Activation.Upright

variable {a : Activation} {hand : Hand} {F : Frame → Prop}

theorem put {v : Charge} (h : a.Upright T sc room aside ⟨[v], []⟩ F) :
    room v.place.block ∧ a.Upright T sc room (v :: aside) {} F := by
  obtain ⟨faults, hholds⟩ := h.holds
  exact ⟨hholds.machine.inside v List.mem_cons_self, { h with holds := ⟨faults, hholds.put⟩ }⟩

theorem lent_of_leads (h : a.Upright T sc room aside hand F) {s : PinId} {place : Place}
    {type : TypeId}
    (hleads : a.frame.Leads T.lies sc.context.catalogue sc.program T.lent s place type) :
    Lent T.lies (a.frame.charges sc.context.catalogue sc.program ++ (aside ++ T.others)) place
      type := by
  rcases hleads with hlent | ⟨k, v, -, hheld, hhas⟩
  · exact hlent.mono fun v hv =>
      List.mem_append_right _ (List.mem_append_right _ (h.lent v hv))
  · exact ⟨v, List.mem_append_left _ (Frame.mem_charges.mpr ⟨k, hheld⟩), hhas⟩

end Activation.Upright

@[simp] theorem Value.place?_borrowed (type : TypeId) (form : Form) (place : Place) :
    (Value.borrowed type form place).place? = some place := by
  unfold Value.borrowed Value.place?
  cases form.isPointer <;> rfl

namespace Run

/-- Inputs of nodes are given what was found for them. -/
def Pulls (T : Terms) (sc : Scope) (pull : Pull) : Prop :=
  ∀ room aside kept nid n id, sc.program.node? nid = some n → id ∈ n.dataIn →
    Upholds T sc (Upright T sc room aside {} (Frame.Firm T sc kept)) (pull id) fun data =>
      Upright T sc room aside {} fun g => g.Firm T sc kept ∧ g.Delivers T sc id data

/-- Arguments that were pulled are rooted in what was lent, in copies and in slots further up. -/
structure Rooted (T : Terms) (sc : Scope) (room : Nat → Prop) (n : ProgramNode) (temps : List Charge)
    (roots : List (PinId × Charge)) (args : List Value) (pulled : List PinId) : Prop where
  upstream : ∀ x ∈ roots, sc.program.Upstream n x.1
  lent : ∀ v ∈ args, v.IsLent T.lies (T.lent ++ temps ++ roots.map (·.2))
  grounded : ∀ i ∈ pulled, sc.program.Grounded i
  fresh : ∀ v ∈ temps, room v.place.block

variable {invoke : Invoke} {pull : Pull} {n : ProgramNode} {nid : NodeId} {temps : List Charge}
  {args : List Value} {pulled : List PinId} {roots : List (PinId × Charge)}

namespace Rooted

variable {v : Value}

theorem ground (h : Rooted T sc room n temps roots args pulled) {i : PinId}
    (hi : sc.program.Grounded i) : Rooted T sc room n temps roots args (pulled ++ [i]) :=
  { h with
    grounded := List.forall_mem_append.mpr ⟨h.grounded, List.forall_mem_singleton.mpr hi⟩ }

theorem add (h : Rooted T sc room n temps roots args pulled) {temps' : List Charge}
    {roots' : List (PinId × Charge)} (htemps : ∀ u ∈ temps, u ∈ temps')
    (hroots : ∀ x ∈ roots, x ∈ roots') (hup : ∀ x ∈ roots', sc.program.Upstream n x.1)
    (hfresh : ∀ u ∈ temps', room u.place.block)
    (hv : v.IsLent T.lies (T.lent ++ temps' ++ roots'.map (·.2))) :
    Rooted T sc room n temps' roots' (args ++ [v]) pulled := by
  refine ⟨hup, List.forall_mem_append.mpr ⟨fun u hu place hplace => ?_,
    List.forall_mem_singleton.mpr hv⟩, h.grounded, hfresh⟩
  refine (h.lent u hu place hplace).mono fun x hx => ?_
  simp only [List.mem_append, List.mem_map] at hx ⊢
  rcases hx with (hx | hx) | ⟨y, hy, rfl⟩
  · exact .inl (.inl hx)
  · exact .inl (.inr (htemps x hx))
  · exact .inr ⟨y, hroots y hy, rfl⟩

theorem null (h : Rooted T sc room n temps roots args pulled) (hv : v.place? = none) :
    Rooted T sc room n temps roots (args ++ [v]) pulled :=
  h.add (fun _ hu => hu) (fun _ hx => hx) h.upstream h.fresh fun place hplace => by
    rw [hv] at hplace
    cases hplace

theorem copy (h : Rooted T sc room n temps roots args pulled) {temp : Charge}
    (htemp : room temp.place.block) (hwhole : ∀ type, T.lies type 0 type)
    (hv : v.place? = some temp.place) (htype : v.type = temp.type) :
    Rooted T sc room n (temp :: temps) roots (args ++ [v]) pulled := by
  refine h.add (fun _ hu => List.mem_cons_of_mem _ hu) (fun _ hx => hx) h.upstream
    (List.forall_mem_cons.mpr ⟨htemp, h.fresh⟩) fun place hplace => ⟨temp, ?_, ?_⟩
  · exact List.mem_append_left _ (List.mem_append_right _ List.mem_cons_self)
  · rw [hv] at hplace
    cases hplace
    rw [htype]
    exact .self hwhole

theorem refer (h : Rooted T sc room n temps roots args pulled) {f : Frame} {i s : PinId}
    {place : Place} (hf : f.Firm T sc (roots ++ kept)) (hi : i ∈ n.reads)
    (hs : sc.program.Source i s) (hv : v.place? = some place)
    (hleads : f.Leads T.lies sc.context.catalogue sc.program T.lent s place v.type) :
    ∃ roots', Rooted T sc room n temps roots' (args ++ [v]) pulled ∧
      f.Firm T sc (roots' ++ kept) := by
  have hplace : ∀ {lent}, Lent T.lies lent place v.type → v.IsLent T.lies lent := by
    intro lent hlent source hsource
    rw [hv] at hsource
    cases hsource
    exact hlent
  rcases hleads with hlent | ⟨k, u, hk, hheld, hhas⟩
  · refine ⟨roots, h.add (fun _ hu => hu) (fun _ hx => hx) h.upstream h.fresh (hplace ?_), hf⟩
    exact hlent.mono fun x hx => List.mem_append_left _ (List.mem_append_left _ hx)
  · refine ⟨(k, u) :: roots, h.add (fun _ hu => hu) (fun _ hx => List.mem_cons_of_mem _ hx)
      (List.forall_mem_cons.mpr ⟨⟨i, s, hi, hs, hk⟩, h.upstream⟩) h.fresh
      (hplace ⟨u, List.mem_append_right _ List.mem_cons_self, hhas⟩), hf.sound, ?_⟩
    exact List.forall_mem_cons.mpr ⟨hheld, hf.kept⟩

end Rooted

def Gathers (T : Terms) (sc : Scope) (room : Nat → Prop) (aside : List Charge)
    (kept : List (PinId × Charge)) (n : ProgramNode) (temps : List Charge) (args : List Value)
    (pulled : List PinId) (a : Activation) : Prop :=
  ∃ roots, Rooted T sc room n temps roots args pulled ∧
    a.Upright T sc room (temps ++ aside) {} (Frame.Firm T sc (roots ++ kept))

section Calls

variable (h : T.Met sc invoke) (hpull : Pulls T sc pull) (hn : sc.program.node? nid = some n)
include h hpull hn

omit h in
theorem upholds_gather {id : PinId} (hid : id ∈ n.reads) :
    Upholds T sc (Gathers T sc room aside kept n temps args pulled) (pull id) fun data b =>
      ∃ roots, Rooted T sc room n temps roots args (pulled ++ [id]) ∧
        b.Upright T sc room (temps ++ aside) {} fun g => g.Firm T sc (roots ++ kept) ∧
          g.Delivers T sc id data := by
  refine .of_exists fun roots => ?_
  have hspec := hpull room (temps ++ aside) (roots ++ kept) nid n id hn (n.mem_dataIn_of_mem_reads hid)
  refine (hspec.and_pure (Rooted T sc room n temps roots args pulled)).mono (fun _ ha => ha) ?_
  rintro data b ⟨hrooted, hb⟩
  obtain ⟨-, s, hs, hacc, -⟩ := hb.frame
  exact ⟨roots, hrooted.ground ⟨s, hs, hacc⟩, hb⟩

omit hpull hn in
theorem upholds_copyArgument {id : PinId} {source : Place} (handle : Handle)
    (htype : sc.program.typeOf sc.context.catalogue id = some (sc.context.catalogue.info handle).id)
    (place : ScriptError → ScriptError) :
    Upholds T sc
      (fun a => ∃ roots, Rooted T sc room n temps roots args (pulled ++ [id]) ∧
        a.Upright T sc room (temps ++ aside) {} fun g => g.Firm T sc (roots ++ kept) ∧
          g.Delivers T sc id (some source))
      ((copyTemp invoke (sc.context.catalogue.info handle) source).mapError place)
      fun temp b => ∃ roots, Rooted T sc room n temps roots args (pulled ++ [id]) ∧
        b.Upright T sc room (temps ++ aside) ⟨[⟨temp, (sc.context.catalogue.info handle).id⟩], []⟩
          (Frame.Firm T sc (roots ++ kept)) := by
  refine .of_exists fun roots => (((upholds_copyTemp h handle source).mapError _).and_pure
    (Rooted T sc room n temps roots args (pulled ++ [id]))).mono ?_ fun _ _ hb => ⟨roots, hb⟩
  rintro a ⟨hrooted, ha⟩
  obtain ⟨hfirm, s, -, -, hleads⟩ := ha.frame
  exact ⟨hrooted, ha.imp fun _ => ⟨hfirm, ha.lent_of_leads (hleads source rfl _ htype)⟩⟩

variable {after : α → Hand} {G : α → Frame → Prop}

theorem upholds_withArguments (f : Function) (pins : List (Param × PinId))
    (hpins : ∀ x ∈ pins, x.2 ∈ n.reads ∧
      sc.program.typeOf sc.context.catalogue x.2 = some x.1.type) {k : List Value → Run α}
    (hk : ∀ args' temps', Upholds T sc
      (Gathers T sc room aside kept n temps' (args ++ args') (pulled ++ pins.map (·.2))) (k args')
      fun r => Upright T sc room (temps' ++ aside) (after r) (G r)) :
    Upholds T sc (Gathers T sc room aside kept n temps args pulled)
      (withArguments invoke pull n f pins k)
      fun r => Upright T sc room (temps ++ aside) (after r) (G r) := by
  induction pins generalizing k temps args pulled with
  | nil =>
    have hend := hk [] temps
    rw [List.append_nil, List.map_nil, List.append_nil] at hend
    exact hend
  | cons first rest ih =>
    obtain ⟨p, id⟩ := first
    obtain ⟨⟨hid, htype⟩, hrest⟩ := List.forall_mem_cons.mp hpins
    have hstep : ∀ (v : Value) (temps : List Charge), Upholds T sc
        (Gathers T sc room aside kept n temps (args ++ [v]) (pulled ++ [id]))
        (withArguments invoke pull n f rest fun args => k (v :: args))
        fun r => Upright T sc room (temps ++ aside) (after r) (G r) := by
      intro v temps
      refine ih hrest fun args' temps' => ?_
      rw [List.append_assoc, List.append_assoc]
      exact hk (v :: args') temps'
    refine (upholds_gather hpull hn hid).bind fun data => .look_pinType fun q handle hq hhandle => ?_
    cases data with
    | none =>
      dsimp only
      split
      · refine (hstep (.null p.type p.form) temps).mono ?_ fun _ _ hb => hb
        rintro a ⟨roots, hrooted, ha⟩
        exact ⟨roots, hrooted.null rfl, ha.imp (·.1)⟩
      · exact .throw _
    | some source =>
      have hid' : (sc.context.catalogue.info handle).id = p.type := by
        rw [Program.typeOf, hq, Option.bind_some, hhandle] at htype
        exact Option.some.inj htype
      dsimp only
      split
      · refine (upholds_copyArgument h handle (hid' ▸ htype) _).bind fun temp =>
          upholds_andEnd _ _ ((hstep (.borrowed p.type p.form temp)
            (⟨temp, (sc.context.catalogue.info handle).id⟩ :: temps)).mono ?_ fun _ _ hb => hb)
        rintro a ⟨roots, hrooted, ha⟩
        obtain ⟨hroom, hput⟩ := ha.put
        exact ⟨roots, hrooted.copy hroom h.context.whole (Value.place?_borrowed _ _ _) hid'.symm, hput⟩
      · refine (hstep (.borrowed p.type p.form source) temps).mono ?_ fun _ _ hb => hb
        rintro a ⟨roots, hrooted, ha⟩
        obtain ⟨hfirm, s, hs, -, hleads⟩ := ha.frame
        obtain ⟨roots', hrooted', hfirm'⟩ := hrooted.refer hfirm hid hs
          (Value.place?_borrowed p.type p.form source) (hleads source rfl _ htype)
        exact ⟨roots', hrooted', ha.imp fun _ => hfirm'⟩

end Calls

theorem modest_resultStorage (out : Option PinId) (form : Option Form) :
    Modest sc (resultStorage out form) := by
  unfold resultStorage
  split
  · split
    · exact (modest_clear _).bind fun _ => .looks (looks_storage? _)
    · exact .pure _
  · exact .pure _

theorem upholds_resultStorage (out : Option PinId) (form : Option Form) {F : Frame → Prop} :
    Upholds T sc (Upright T sc room aside {} F) (resultStorage out form) fun _ =>
      Upright T sc room aside ⟨[], resultSlot? out form⟩ fun g =>
        ∃ f, F f ∧ f.Like sc.context.catalogue sc.program (resultSlot? out form) g := by
  refine .tended (modest_resultStorage out form) (tends_resultStorage out form)
    (steady_resultStorage out form) fun a ha => ?_
  unfold resultStorage
  split
  · rename_i id form
    split
    · rename_i hform
      refine Ensures.bind_iff.mpr ((frame_clear id a).mono (fun _ b hb => ?_) fun _ _ _ => trivial)
      refine ⟨a.frame, ha, ?_⟩
      rw [resultSlot?, resultSlot, if_pos hform, hb]
      exact Frame.like_set a.frame id .empty
    · exact ⟨a.frame, ha, .refl _ _⟩
  · exact ⟨a.frame, ha, .refl _ _⟩

/-- A result that a node was given: a reference leads to what was lent, into a slot further up, or into
a block there is room in. -/
def Returned (T : Terms) (sc : Scope) (room : Nat → Prop) (n : ProgramNode) (f : Function)
    (result : Option Value) (g : Frame) : Prop :=
  ∀ r v, f.result = some r → result = some v → v.isOwning = r.form.isOwning ∧
    (v.isOwning = false → ∀ place, v.place? = some place →
      Lent T.lies T.lent place r.type ∨
      (∃ k u, sc.program.Upstream n k ∧
        g.held sc.context.catalogue sc.program k = some u ∧ u.Has T.lies place r.type) ∨
      room place.block)

def Answered (T : Terms) (sc : Scope) (room : Nat → Prop) (kept : List (PinId × Charge))
    (n : ProgramNode) (f : Function) (slots : List PinId) (result : Option Value) (g : Frame) : Prop :=
  ∃ g₀ : Frame, g₀.Firm T sc kept ∧ g₀.Like sc.context.catalogue sc.program slots g ∧
    (∀ i ∈ n.reads, sc.program.Grounded i) ∧ Returned T sc room n f result g₀

section Calls

variable (h : T.Met sc invoke) (hn : sc.program.node? nid = some n)
include h hn

theorem ne_of_upstream {g : Frame} {k out : PinId} {u : Charge}
    (hg : g.Sound T.lies sc.context.catalogue sc.program T.lent)
    (hheld : g.held sc.context.catalogue sc.program k = some u) (hk : sc.program.Upstream n k)
    (hout : out ∈ n.dataOut) : k ≠ out := by
  obtain ⟨i, s, hi, hs, hks⟩ := hk
  exact hg.not_leads_self hheld hks ((h.program.typed.feeds_iff hn hout).mpr ⟨i, hi, hs⟩)

/-- An output whose node reads only what does not depend on itself does not either. -/
theorem acc_output {out : PinId} (hout : out ∈ n.dataOut)
    (hreads : ∀ i ∈ n.reads, sc.program.Grounded i) : Acc sc.program.Feeds out := by
  refine .intro out fun k hk => ?_
  obtain ⟨i, hi, hs⟩ := (h.program.typed.feeds_iff hn hout).mp hk
  obtain ⟨s, hs', hacc⟩ := hreads i hi
  rw [hs'.unique hs]
  exact hacc

theorem upholds_invoke {f : Function} (hop : n.op = .call f) {slots : List PinId}
    (hslots : ∀ o ∈ slots, o ∈ n.dataOut) (args : List Value) (buffer : Option Place) :
    Upholds T sc
      (fun a => ∃ roots, a.Upright T sc room (temps ++ aside) ⟨[], slots⟩ fun g =>
        Rooted T sc room n temps roots args n.reads ∧ ∃ g₀ : Frame,
          g₀.Firm T sc (roots ++ kept) ∧ g₀.Like sc.context.catalogue sc.program slots g)
      (liftTotal (Exec.attempt (invoke f args buffer))) fun outcome =>
      Upright T sc room (temps ++ aside) ⟨outcomeCharges resultCharges outcome, slots⟩ fun g =>
        ∀ result, outcome = .ok result → Answered T sc room kept n f slots result g := by
  refine .of_exists fun roots => ?_
  have htends : Tends sc ⟨[], slots⟩ (liftTotal (Exec.attempt (invoke f args buffer)))
      fun outcome => ⟨outcomeCharges resultCharges outcome, slots⟩ :=
    .liftTotal (Invoke.settles_iff.mp h.trusted.settles f args buffer).attempt
  have hsteady : Steady sc (.free .any sc.seat) .growing fun _ =>
      liftTotal (Exec.attempt (invoke f args buffer)) :=
    .liftTotal ((h.trusted.calls sc.seat) f args buffer).attempt
  refine .whole htends hsteady fun a => ?_
  have hdeclares := h.program.declares nid n f hn hop
  -- Everything that the arguments are rooted in is still there, since none of it lies in the slot.
  have hfair : a.machine.Watched T.lies T.start →
      a.Upright T sc room (temps ++ aside) ⟨[], slots⟩ (fun g =>
        Rooted T sc room n temps roots args n.reads ∧ ∃ g₀ : Frame,
          g₀.Firm T sc (roots ++ kept) ∧ g₀.Like sc.context.catalogue sc.program slots g) →
      a.machine.Fair T.lies T.hosts (T.lent ++ temps ++ roots.map (·.2)) T.start := by
    intro hw ha
    obtain ⟨hrooted, g₀, hfirm, hlike⟩ := ha.frame
    refine ha.fair hw (fun v hv => List.mem_append_left _ (List.mem_append_left _ hv)) fun v hv => ?_
    simp only [List.mem_append, List.mem_map] at hv ⊢
    rcases hv with (hv | hv) | ⟨x, hx, rfl⟩
    · exact .inr (.inr (ha.lent v hv))
    · exact .inr (.inl (.inl hv))
    · have hheld := hfirm.kept x (List.mem_append_left _ hx)
      have hfree : x.1 ∉ slots := fun hs =>
        ne_of_upstream h hn hfirm.sound hheld (hrooted.upstream x hx) (hslots _ hs) rfl
      refine .inl (Frame.mem_charges.mpr ⟨x.1, Frame.held_eq_of_state hlike.charge hheld ?_⟩)
      exact (hlike.state _ hfree).trans (Frame.held_eq_some.mp hheld).1
  have hcall := h.trusted.faithful f args buffer a.machine (T.lent ++ temps ++ roots.map (·.2)) T.start
  refine Ensures.run_liftTotal_iff.mpr (Ensures.exec_attempt_iff.mpr
    (hcall.mono (fun result m hm => ⟨hm.1, fun hu hw ha => ?_⟩) fun e m hm => ⟨hm.1, fun hu hw ha => ?_⟩))
  · obtain ⟨hrooted, g₀, hfirm, hlike⟩ := ha.frame
    obtain ⟨hw', hgives⟩ := hm.2 hu hdeclares hrooted.lent (hfair hw ha)
    refine ⟨hw', ?_⟩
    rintro _ ⟨⟩
    refine ⟨g₀, ⟨hfirm.sound, fun x hx => hfirm.kept x (List.mem_append_right _ hx)⟩, hlike,
      hrooted.grounded, fun r v hr hv => ?_⟩
    obtain ⟨-, howning, hplace⟩ := hgives r v hr hv
    refine ⟨howning, fun hborrowed place hsome => ?_⟩
    obtain ⟨u, hu, hhas⟩ := hplace hborrowed place hsome
    simp only [List.mem_append, List.mem_map] at hu
    rcases hu with (hu | hu) | ⟨x, hx, rfl⟩
    · exact .inl ⟨u, hu, hhas⟩
    · exact .inr (.inr (hhas.block_eq ▸ hrooted.fresh u hu))
    · exact .inr (.inl ⟨x.1, x.2, hrooted.upstream x hx, hfirm.kept x (List.mem_append_left _ hx),
        hhas⟩)
  · obtain ⟨hrooted, -⟩ := ha.frame
    exact ⟨hm.2 hu hdeclares hrooted.lent (hfair hw ha), fun _ hok => nomatch hok⟩

end Calls

/-- A reference is nothing that the caller has to answer for. -/
theorem resultCharges_of_not_owning {v : Value} (hv : v.isOwning = false) :
    resultCharges (some v) = [] := by
  obtain ⟨type, form, held⟩ := v
  cases held with
  | owned place size destructor => cases hv
  | borrowed place => rfl
  | pointer place => rfl

theorem modest_dropResult (result : Option Value) :
    Modest sc (liftTotal (result.forM Exec.drop)) := by
  refine .liftTotal fun m => ?_
  cases result with
  | none => exact ⟨rfl, rfl⟩
  | some v =>
    obtain ⟨type, form, held⟩ := v
    cases held with
    | owned place size destructor =>
      exact Ensures.bind_iff.mpr ((modest_endCharge destructor ⟨place, type⟩ m).mono
        (fun _ _ h => h) fun _ _ h => h)
    | borrowed place => exact ⟨rfl, rfl⟩
    | pointer place => exact ⟨rfl, rfl⟩

theorem upholds_dropResult (result : Option Value) {F : Frame → Prop} :
    Upholds T sc (Upright T sc room aside ⟨resultCharges result, []⟩ F)
      (liftTotal (result.forM Exec.drop)) fun _ => Upright T sc room aside {} F :=
  .tended (modest_dropResult result) (.liftTotal (Exec.tidy_dropResult result))
    (steady_dropResult result) fun a ha => Ensures.run_liftTotal_iff.mpr
      ((Exec.tidy_dropResult result sc.context a.machine).mono (fun _ _ _ => ha) fun _ _ _ => trivial)

theorem modest_relocate (v : Value) (place : Place) :
    Modest sc (liftTotal (Exec.relocate v place)) := by
  refine .liftTotal fun m => ?_
  obtain ⟨type, form, held⟩ := v
  cases held with
  | owned place size destructor => exact ⟨rfl, Care.strays_lose _ _⟩
  | borrowed place => exact ⟨rfl, rfl⟩
  | pointer place => exact ⟨rfl, rfl⟩

theorem upholds_relocate (v : Value) (place : Place) {vacant : List PinId} {F : Frame → Prop} :
    Upholds T sc (Upright T sc room aside ⟨resultCharges (some v), vacant⟩ F)
      (liftTotal (Exec.relocate v place)) fun _ => Upright T sc room aside ⟨[], vacant⟩ F := by
  exact .tended (modest_relocate v place) (.liftTotal (Exec.tidy_relocate v place))
    (.liftTotal (Exec.keeps_relocate v place)) fun a ha => Ensures.run_liftTotal_iff.mpr
      ((Exec.tidy_relocate v place sc.context a.machine).mono (fun _ _ _ => ha) fun _ _ _ => trivial)

/-- If a reference that is given back is not left dangling, it leads to a value in care. -/
theorem upholds_watchResult {v : Value} (hv : v.isOwning = false) {vacant : List PinId}
    {F : Frame → Prop} :
    Upholds T sc (Upright T sc room aside ⟨[], vacant⟩ F)
      (liftTotal (modify (·.watchResult (some v)))) fun _ b =>
      b.Upright T sc room aside ⟨[], vacant⟩ F ∧
        ∀ place, v.place? = some place → b.machine.care.covers place = true := by
  have hidle : Idle (modify (·.watchResult (some v)) : Exec Empty PUnit) := .modify fun m => by
    rw [Machine.care_watchResult, Machine.memory_watchResult]
    exact ⟨rfl, rfl⟩
  have honward := fun a : Activation => a.machine.onward_watchResult (some v)
  refine (Upholds.whole (.liftTotal (.idle hidle))
    (.liftTotal (Exec.keeps_watch fun m => m.watchResult_eq _)) fun a => ?_).and fun a => ?_
  · exact ⟨honward a, fun _ hw ha => ⟨hw.watchResult _, ha.frame⟩⟩
  · refine ⟨honward a, fun hu hw _ => ⟨hw.watchResult _, fun place hplace => ?_⟩⟩
    rw [Machine.care_watchResult]
    exact hu.covers hv hplace

/-- What is in care lies in earlier blocks than the given one. -/
structure Early (T : Terms) (sc : Scope) (aside : List Charge) (low : Nat) : Prop where
  others : ∀ v ∈ aside ++ T.others, v.place.block < low
  frame : T.first + sc.program.pins.size ≤ low

theorem Early.lt_of_covers {low : Nat} {a : Activation} {vacant : List PinId} {F : Frame → Prop}
    {place : Place} (h : Early T sc aside low) (ha : a.Upright T sc room aside ⟨[], vacant⟩ F)
    (hcovers : a.machine.care.covers place = true) : place.block < low := by
  obtain ⟨faults, hholds⟩ := ha.holds
  obtain ⟨v, hv, hblock⟩ := List.any_eq_true.mp hcovers
  rw [← eq_of_beq hblock]
  rcases List.mem_append.mp (hholds.machine.alive.mem_iff.mp hv) with hv | hv
  · cases hv
  · rcases List.mem_append.mp hv with hv | hv
    · have := (Frame.block_of_mem_charges hv).2
      rw [hholds.first_eq] at this
      exact Nat.lt_of_lt_of_le this h.frame
    · exact h.others v hv

section Results

variable (h : T.Met sc invoke) (hn : sc.program.node? nid = some n) {f : Function}
  (hop : n.op = .call f) {out : PinId} (hout : out ∈ n.dataOut)
include h hn hop hout

theorem result_of_output : n.dataOut.head? = some out ∧ ∃ r, f.result = some r ∧
    sc.program.typeOf sc.context.catalogue out = some r.type := by
  have hfits := h.program.typed.fits nid n hn
  rw [Program.Fits, hop] at hfits
  exact hfits.2 out hout

theorem owns_output_iff {r : Param} (hr : f.result = some r) :
    sc.program.Owns sc.context.catalogue out ↔ r.form.isOwning = true := by
  rw [h.program.typed.owns_output_iff hn hout, hop]
  constructor
  · rintro ⟨r', hr', hform⟩
    rw [hr] at hr'
    cases hr'
    exact hform
  · exact fun hform => ⟨r, hr, hform⟩

theorem owned_output {r : Param} (hr : f.result = some r) (hform : r.form.isOwning = true)
    {g₀ g : Frame} (hfirm : g₀.Firm T sc kept) (hreads : ∀ i ∈ n.reads, sc.program.Grounded i)
    (hlike : g₀.Like sc.context.catalogue sc.program [out] g) {b : Activation} {F : Frame → Prop}
    (hb : b.Upright T sc room aside {} F) (hg : b.frame = g.set out .owned) :
    b.Upright T sc room aside {} fun g => g.Firm T sc kept ∧ g.state out ≠ .empty := by
  obtain ⟨q, hq, -⟩ := h.program.typed.output nid n hn out hout
  have hstate : b.frame.state out = .owned := by
    have hmem := mem_ids_of_pin? hb hq
    rw [hg, Frame.ids_set] at hmem
    rw [hg]
    exact Frame.state_set_self hmem
  refine hb.imp fun _ => ⟨hfirm.own ?_ hstate (acc_output h hn hout hreads)
    ((owns_output_iff h hn hop hout hr).mpr hform), by rw [hstate]; simp⟩
  rw [hg]
  exact hlike.set List.mem_cons_self .owned

/-- The slot of an output holds a reference now, or nothing. -/
theorem referred_output {r : Param} (hr : f.result = some r) (hform : r.form.isOwning = false)
    (htype : sc.program.typeOf sc.context.catalogue out = some r.type) {g₀ g : Frame}
    (hfirm : g₀.Firm T sc kept) (hreads : ∀ i ∈ n.reads, sc.program.Grounded i)
    (hlike : g₀.Like sc.context.catalogue sc.program (resultSlot out r.form) g) {state : SlotState}
    (howned : state ≠ .owned) (hempty : state ≠ .empty)
    (hleads : ∀ place, state = .borrowed place → Lent T.lies T.lent place r.type ∨
      ∃ k u, sc.program.Upstream n k ∧ g₀.held sc.context.catalogue sc.program k = some u ∧
        u.Has T.lies place r.type)
    {b : Activation} {F : Frame → Prop} (hb : b.Upright T sc room aside {} F)
    (hg : b.frame = (g.set out .empty).set out state) :
    b.Upright T sc room aside {} fun g => g.Firm T sc kept ∧ g.state out ≠ .empty := by
  rw [resultSlot, if_neg (by simp [hform])] at hlike
  obtain ⟨q, hq, -⟩ := h.program.typed.output nid n hn out hout
  have hmem : out ∈ g.ids := by
    have hmem := mem_ids_of_pin? hb hq
    rwa [hg, Frame.ids_set, Frame.ids_set] at hmem
  have hfree : ¬ sc.program.Owns sc.context.catalogue out := by
    rw [owns_output_iff h hn hop hout hr, hform]
    simp
  refine hb.imp fun _ => ⟨?_, ?_⟩
  · rw [hg]
    refine (hfirm.congr hlike).reset hmem howned hfree (acc_output h hn hout hreads) ?_
    intro place type hplace htype'
    rw [htype] at htype'
    cases htype'
    refine (hleads place hplace).imp id ?_
    rintro ⟨k, u, ⟨i, s, hi, hs, hks⟩, hheld, hhas⟩
    refine ⟨k, u, .tail' hks ((h.program.typed.feeds_iff hn hout).mpr ⟨i, hi, hs⟩), ?_, hhas⟩
    refine Frame.held_eq_of_state hlike.charge hheld ?_
    exact (hlike.state k List.not_mem_nil).trans (Frame.held_eq_some.mp hheld).1
  · rw [hg, Frame.state_set_self (by rwa [Frame.ids_set])]
    exact hempty

theorem upholds_storeResult {r : Param} (hr : f.result = some r)
    (htype : sc.program.typeOf sc.context.catalogue out = some r.type) {low : Nat}
    (result : Option Value) :
    Upholds T sc
      (fun a => Early T sc aside low ∧
        a.Upright T sc (low ≤ ·) aside ⟨resultCharges result, resultSlot out r.form⟩
          (Answered T sc (low ≤ ·) kept n f (resultSlot out r.form) result))
      (storeResult out r.form result) fun _ =>
      Upright T sc (low ≤ ·) aside {} fun g => g.Firm T sc kept ∧ g.state out ≠ .empty := by
  have hslot : ∀ id ∈ resultSlot out r.form, id ∈ [out] := by
    intro id hid
    unfold resultSlot at hid
    split at hid
    · exact hid
    · cases hid
  refine (Upholds.looks (looks_storage? out)).bind fun place => ?_
  cases place with
  | none =>
    exact Upholds.bind (.modest (modest_dropResult result) fun a _ =>
      (modest_dropResult result a).mono (fun _ _ _ => trivial) fun _ _ _ => trivial) fun _ => .throw _
  | some place =>
    cases result with
    | none =>
      dsimp only
      split
      · rename_i hform
        simp only [resultSlot, if_pos hform]
        refine (upholds_setOwned out).mono (fun a ha => ha.2) fun _ b hb => ?_
        obtain ⟨g, ⟨g₀, hfirm, hlike, hreads, -⟩, hg⟩ := hb.frame
        exact owned_output h hn hop hout hr hform hfirm hreads hlike hb hg
      · exact .throw _
    | some v =>
      dsimp only
      cases hv : v.isOwning with
      | true =>
        refine Upholds.bind ((upholds_clear out).mono (fun a ha => ha.2) fun _ _ hb => hb) fun _ =>
          (upholds_relocate v place).bind fun _ => (upholds_setOwned out).mono (fun _ ha => ha)
            fun _ b hb => ?_
        obtain ⟨_, ⟨g, ⟨g₀, hfirm, hlike, hreads, hreturned⟩, rfl⟩, hg⟩ := hb.frame
        have hform : r.form.isOwning = true := (hreturned r v hr rfl).1.symm.trans hv
        exact owned_output h hn hop hout hr hform hfirm hreads
          ((hlike.mono hslot).set List.mem_cons_self .empty) hb hg
      | false =>
        rw [resultCharges_of_not_owning hv]
        refine ((upholds_watchResult hv).and_pure (Early T sc aside low)).bind fun _ => ?_
        cases hplace : v.place? with
        | none =>
          refine (upholds_setNull out).mono (fun a ha => ha.2.1) fun _ b hb => ?_
          obtain ⟨g, ⟨g₀, hfirm, hlike, hreads, hreturned⟩, hg⟩ := hb.frame
          have hform : r.form.isOwning = false := (hreturned r v hr rfl).1.symm.trans hv
          refine referred_output h hn hop hout hr hform htype hfirm hreads hlike (by simp) (by simp)
            (fun _ hnull => ?_) hb hg
          cases hnull
        | some source =>
          refine ((upholds_setBorrowed out source).and_pure (source.block < low)).mono
            (fun a ha => ⟨ha.1.lt_of_covers ha.2.1 (ha.2.2 source rfl), ha.2.1⟩) ?_
          rintro _ b ⟨hlow, hb⟩
          obtain ⟨g, ⟨g₀, hfirm, hlike, hreads, hreturned⟩, hg⟩ := hb.frame
          obtain ⟨howning, hleads⟩ := hreturned r v hr rfl
          refine referred_output h hn hop hout hr (howning.symm.trans hv) htype hfirm hreads hlike
            (by simp) (by simp) (fun place hborrowed => ?_) hb hg
          cases hborrowed
          -- A reference into a copy would be left dangling.
          refine (hleads hv source hplace).imp id fun hrest => hrest.resolve_right ?_
          exact Nat.not_le.mpr hlow

end Results

theorem upholds_modifyInterpreter {f : Interpreter → Interpreter} (hstance : ∀ i, (f i).stance = i.stance)
    (hmeter : ∀ i, (f i).meter = i.meter) {hand : Hand} {F : Frame → Prop} :
    Upholds T sc (Upright T sc room aside hand F) (modifyInterpreter f) fun _ =>
      Upright T sc room aside hand F :=
  .tended (.modifyInterpreter f) (.modifyInterpreter f) (.modifyInterpreter hstance hmeter)
    fun _ ha => ha

/-- Giving back room on the stack changes nothing that a call relies on. -/
theorem upholds_withStack {x : Run α} {P : Activation → Prop} {after : α → Hand}
    {G : α → Frame → Prop}
    (hx : Upholds T sc P x fun r => Upright T sc room aside (after r) (G r)) :
    Upholds T sc P (withStack x) fun r => Upright T sc room aside (after r) (G r) := by
  refine .look_interpreter fun i => .look_read ?_
  refine Upholds.andFinally (hx.mono (fun a ha => ha.1) fun _ _ hb => hb) (fun m => ?_)
    fun r b hb => ?_
  · exact ⟨m.watch_modifyInterpreter _ _, congrArg Care.strays (m.care_modifyInterpreter _ _)⟩
  · obtain ⟨faults, hholds⟩ := hb.holds
    refine { hb with
      holds := ⟨faults, hholds.still rfl rfl rfl (hholds.machine.still
        (b.machine.care_modifyInterpreter _ _)
        (Nat.le_of_eq (congrArg Memory.next (b.machine.memory_modifyInterpreter _ _).symm)))⟩
      world := fun seat type place hworld => hb.world seat type place ?_ }
    by_cases hseat : seat = sc.seat
    · rw [hseat, Machine.interpreter_modifyInterpreter] at hworld
      rw [hseat]
      exact hworld
    · rwa [Machine.interpreter_modifyInterpreter_of_ne _ hseat] at hworld

theorem modest_callFailure (f : Function) (e : CallError) : Modest sc (callFailure f e) := by
  refine (Modest.looks looks_interpreter).bind fun i => (Modest.modifyInterpreter _).bind fun _ => ?_
  split
  · split <;> exact .pure _
  · exact .pure _

section Nodes

variable (h : T.Met sc invoke) (hpull : Pulls T sc pull) (hn : sc.program.node? nid = some n)
include h hpull hn

omit hpull in
/-- A node's function is called with the arguments that were gathered, after the slot for the result
was emptied. -/
theorem upholds_callGathered {f : Function} (hop : n.op = .call f) (args : List Value) :
    Upholds T sc (Gathers T sc room aside kept n temps args n.reads) (do
        let buffer ← resultStorage n.dataOut.head? (f.result.map (·.form))
        modifyInterpreter fun i => { i with nestedFailure := none }
        liftTotal (Exec.attempt (invoke f args buffer))) fun outcome =>
      Upright T sc room (temps ++ aside) ⟨outcomeCharges resultCharges outcome,
        resultSlot? n.dataOut.head? (f.result.map (·.form))⟩ fun g =>
          ∀ result, outcome = .ok result → Answered T sc room kept n f
            (resultSlot? n.dataOut.head? (f.result.map (·.form))) result g := by
  have hslots : ∀ o ∈ resultSlot? n.dataOut.head? (f.result.map (·.form)), o ∈ n.dataOut := by
    intro o ho
    unfold resultSlot? at ho
    split at ho
    · rename_i id form hhead _
      unfold resultSlot at ho
      split at ho
      · obtain rfl := List.mem_singleton.mp ho
        exact List.mem_of_mem_head? hhead
      · cases ho
    · cases ho
  refine .of_exists fun roots => ?_
  refine Upholds.bind ((upholds_resultStorage _ _).and_pure _) fun buffer => ?_
  refine Upholds.bind ((upholds_modifyInterpreter ?_ ?_).and_pure _) fun _ =>
    (upholds_invoke h hn hop hslots args buffer).mono ?_ fun _ _ hb => hb
  · exact fun _ => rfl
  · exact fun _ => rfl
  · exact fun a ha => ⟨roots, ha.2.imp fun hg => ⟨ha.1, hg⟩⟩

/-- A node's function is called with what its inputs are given. Whatever is constructed meanwhile lies
in later blocks than all that was there before. -/
theorem upholds_callLate {f : Function} (hop : n.op = .call f) {low : Nat} :
    Upholds T sc
      (fun a => Early T sc aside low ∧ a.Upright T sc (low ≤ ·) aside {} (Frame.Firm T sc kept))
      (callNode invoke pull n f) fun _ => Upright T sc (low ≤ ·) aside {} fun g =>
        g.Firm T sc kept ∧ ∀ out ∈ n.dataOut, g.state out ≠ .empty := by
  have hreads : n.reads = (f.params.zip n.dataIn).map (·.2) := by rw [ProgramNode.reads, hop]
  have hfits := h.program.typed.fits nid n hn
  rw [Program.Fits, hop] at hfits
  have hcall : Upholds T sc (Upright T sc (low ≤ ·) aside {} (Frame.Firm T sc kept))
      (withStack <| withArguments invoke pull n f (f.params.zip n.dataIn) fun args => do
        let buffer ← resultStorage n.dataOut.head? (f.result.map (·.form))
        modifyInterpreter fun i => { i with nestedFailure := none }
        liftTotal (Exec.attempt (invoke f args buffer))) fun outcome =>
      Upright T sc (low ≤ ·) aside ⟨outcomeCharges resultCharges outcome,
        resultSlot? n.dataOut.head? (f.result.map (·.form))⟩ fun g =>
          ∀ result, outcome = .ok result → Answered T sc (low ≤ ·) kept n f
            (resultSlot? n.dataOut.head? (f.result.map (·.form))) result g := by
    refine upholds_withStack ((upholds_withArguments h hpull hn f _ (fun x hx => ⟨?_, hfits.1 x hx⟩)
      fun args temps => ?_).mono (fun a ha => (⟨[], ⟨List.forall_mem_nil _, List.forall_mem_nil _,
        List.forall_mem_nil _, List.forall_mem_nil _⟩, ha⟩ :
          Gathers T sc (low ≤ ·) aside kept n [] [] [] a)) fun _ _ hb => hb)
    · rw [hreads]
      exact List.mem_map_of_mem hx
    · rw [List.nil_append, List.nil_append, ← hreads]
      exact upholds_callGathered h hn hop args
  refine Upholds.bind (hcall.and_pure (Early T sc aside low)) fun outcome => ?_
  cases outcome with
  | error e =>
    exact Upholds.bind (.modest (modest_callFailure f e) fun a _ =>
      (modest_callFailure f e a).mono (fun _ _ _ => trivial) fun _ _ _ => trivial) fun _ => .throw _
  | ok result =>
    dsimp only
    cases hhead : n.dataOut.head? with
    | none =>
      refine (upholds_dropResult result).mono (fun a ha => ha.2) fun _ b hb => hb.imp fun hg => ?_
      obtain ⟨g₀, hfirm, hlike, -⟩ := hg result rfl
      refine ⟨hfirm.congr hlike, fun out hout => ?_⟩
      have hfirst := (result_of_output h hn hop hout).1
      rw [hhead] at hfirst
      cases hfirst
    | some out =>
      have hout : out ∈ n.dataOut := List.mem_of_mem_head? hhead
      obtain ⟨-, r, hr, htype⟩ := result_of_output h hn hop hout
      simp only [hr, Option.map_some]
      refine ((upholds_storeResult h hn hop hout hr htype result).mapError _).mono
        (fun a ha => ⟨ha.1, ha.2.imp fun hg => hg result rfl⟩) fun _ b hb => hb.imp ?_
      rintro ⟨hfirm, hstate⟩
      refine ⟨hfirm, fun other hother => ?_⟩
      have hfirst := (result_of_output h hn hop hother).1
      rw [hhead] at hfirst
      cases hfirst
      exact hstate

theorem upholds_callNode {f : Function} (hop : n.op = .call f) :
    Upholds T sc (Upright T sc room aside {} (Frame.Firm T sc kept)) (callNode invoke pull n f)
      fun _ => Upright T sc room aside {} fun g =>
        g.Firm T sc kept ∧ ∀ out ∈ n.dataOut, g.state out ≠ .empty := by
  have hlate : ∀ low, Upholds T sc
      (fun a => ((∀ k, low ≤ k → room k) ∧ ∀ k, room k → T.first + sc.program.pins.size ≤ k) ∧
        Early T sc aside low ∧ a.Upright T sc (low ≤ ·) aside {} (Frame.Firm T sc kept))
      (callNode invoke pull n f) fun _ => Upright T sc room aside {} fun g =>
        g.Firm T sc kept ∧ ∀ out ∈ n.dataOut, g.state out ≠ .empty := by
    intro low
    refine ((upholds_callLate h hpull hn hop).and_pure _).mono (fun _ ha => ha) ?_
    rintro _ b ⟨⟨hroom, hbehind⟩, hb⟩
    obtain ⟨faults, hholds⟩ := hb.holds
    exact { hb with
      holds := ⟨faults, { hholds with
        behind := hbehind
        machine := { hholds.machine with
          inside := List.forall_mem_nil _
          beyond := fun k hk => hroom k (hholds.machine.beyond k hk) } }⟩ }
  refine (Upholds.of_exists hlate).mono (fun a ha => ⟨a.machine.memory.next, ?_⟩) fun _ _ hb => hb
  obtain ⟨faults, hholds⟩ := ha.holds
  refine ⟨⟨hholds.machine.beyond, hholds.behind⟩, ⟨fun v hv => ?_, hholds.le_next⟩, { ha with
    holds := ⟨faults, { hholds with
      behind := fun k hk => Nat.le_trans hholds.le_next hk
      machine := { hholds.machine with
        inside := List.forall_mem_nil _
        beyond := fun _ hk => hk } }⟩ }⟩
  exact hholds.machine.known v (List.mem_append_right _ (List.mem_append_right _ hv))

end Nodes

end Run

end Flowscript
