import Flowscript.Proofs.Run.CallResults

/-! # Pulling sound data

An expression is computed from what its inputs are given, so its outputs lead to sound data if the
inputs do. A reroute passes on what it is given, and any other output what its slot leads to. So, by
the depth of the pull, every input of a node is given sound data, and what it is given is remembered
as such.
-/
namespace Flowscript

open Relation

open Activation (Upright)

variable {T : Terms} {sc : Scope} {room : Nat → Prop} {aside : List Charge}
  {kept : List (PinId × Charge)}

theorem Frame.mem_chargesBut {f : Frame} {c : Catalogue} {p : Program} {id k : PinId} {v : Charge}
    (h : f.held c p k = some v) (hne : k ≠ id) : v ∈ f.chargesBut c p id := by
  refine List.mem_filterMap.mpr ⟨k, ?_, h⟩
  exact ((nodup_ids f).mem_erase_iff).mpr ⟨hne, mem_ids_of_held h⟩

theorem Frame.Leads.field {lies : Layouts} {lent : List Charge} {f : Frame} {c : Catalogue}
    {p : Program} {s : PinId} {place : Place} {type field : TypeId} {offset : Nat}
    (h : f.Leads lies c p lent s place type) (hfield : Program.HasField lies type offset field) :
    f.Leads lies c p lent s (place.shift offset) field := by
  rcases h with ⟨v, hv, hhas⟩ | ⟨k, v, hk, hheld, hhas⟩
  · exact .inl ⟨v, hv, hhas.field hfield⟩
  · exact .inr ⟨k, v, hk, hheld, hhas.field hfield⟩

namespace Run

variable {invoke : Invoke} {pull : Pull} {n : ProgramNode} {nid : NodeId} {id : PinId}
  {F : Frame → Prop}

theorem modest_trace {ε : Type} {w : Context} (severity : Severity) (note : Unit → Trace) (m : Machine) :
    Ensures (Exec.trace severity note : Exec ε Unit) w m
      (fun _ m' => m'.watch = m.watch ∧ m'.care.strays = m.care.strays) fun _ _ => True := by
  refine Ensures.bind_iff.mpr (Ensures.read_iff.mpr ?_)
  split
  · split <;> exact ⟨rfl, rfl⟩
  · exact ⟨rfl, rfl⟩

theorem modest_noteNode (message : String) (n : ProgramNode) : Modest sc (noteNode message n) := by
  refine (Modest.looks .read).bind fun s => ?_
  split
  · exact .pure _
  · exact .liftTotal (modest_trace _ _)

theorem modest_tick : Modest sc tick := by
  refine (Modest.looks looks_interpreter).bind fun i => ?_
  dsimp only
  split
  · exact (Modest.modifyInterpreter _).bind fun _ => .throw _
  · exact .modifyInterpreter _

theorem upholds_tick :
    Upholds T sc (Upright T sc room aside {} F) tick fun _ => Upright T sc room aside {} F :=
  .tended modest_tick tends_tick steady_tick fun _ ha =>
    tick_ensures rfl fun _ _ _ => ⟨fun _ => ha, fun _ _ _ => trivial⟩

theorem upholds_noteNode (message : String) (n : ProgramNode) :
    Upholds T sc (Upright T sc room aside {} F) (noteNode message n) fun _ =>
      Upright T sc room aside {} F := by
  refine .tended (modest_noteNode message n) (tends_noteNode message n) (steady_noteNode message n)
    fun a ha => Ensures.bind_iff.mpr (Ensures.read_iff.mpr ?_)
  split
  · exact ha
  · exact Ensures.run_liftTotal_iff.mpr ((modest_trace _ _ _).mono (fun _ _ _ => ha) fun _ _ _ => trivial)

section Expressions

variable (h : T.Met sc invoke) (hpull : Pulls T sc pull) (hn : sc.program.node? nid = some n)
include h hpull hn

omit h in
/-- The data that a field is read from or written to is that of the first input. -/
theorem upholds_pullTarget :
    Upholds T sc (Upright T sc room aside {} (Frame.Firm T sc kept)) (pullTarget pull n) fun place =>
      Upright T sc room aside {} fun g => g.Firm T sc kept ∧
        ∃ id, n.dataIn[0]? = some id ∧ g.Delivers T sc id (some place) := by
  refine .look_nth fun id hid => ?_
  refine (hpull room aside kept nid n id hn (List.mem_of_getElem? hid)).bind fun data => ?_
  cases data with
  | some place => exact .pure fun a ha => ha.imp fun ⟨hfirm, hdata⟩ => ⟨hfirm, id, hid, hdata⟩
  | none => exact .throw _

theorem upholds_getField {offset : Nat} {type : Handle} (hop : n.op = .fieldGet offset type) :
    Upholds T sc (Upright T sc room aside {} (Frame.Firm T sc kept))
      (getField invoke pull n offset type) fun _ => Upright T sc room aside {} fun g =>
        g.Firm T sc kept ∧ ∀ out ∈ n.dataOut, g.state out ≠ .empty := by
  have hfits := h.program.typed.fits nid n hn
  rw [Program.Fits, hop] at hfits
  refine (upholds_pullTarget hpull hn).bind fun source => .look_nth fun out hout => .look_read ?_
  have hmem : out ∈ n.dataOut := List.mem_of_getElem? hout
  obtain ⟨q, hq, -⟩ := h.program.typed.output nid n hn out hmem
  have howns : sc.program.Owns sc.context.catalogue out := by
    rw [h.program.typed.owns_output_iff hn hmem, hop]
    trivial
  refine Upholds.bind (R := fun _ => Upright T sc room aside {} fun g => g.Firm T sc kept ∧
    g.state out = .owned) ((upholds_fillOwned hq howns _ _
    (fun place => Invoke.tidy_copyAt h.trusted.settles _ place (source.shift offset))
    (fun place => Invoke.keeps_copyAt (h.trusted.calls sc.seat) _ place (source.shift offset))
    fun lent place => Invoke.honors_copyAt h.trusted h.context type place (source.shift offset)).mono
      (fun a ha => ha.imp ?_) fun _ _ hb => hb.imp fun hg => ⟨hg.1, hg.2.1⟩) fun _ =>
        .pure fun a ha => ha.imp ?_
  · rintro ⟨hfirm, id, hid, s, hs, hacc, hleads⟩
    have hreads : ∀ i ∈ n.reads, i = id := by
      intro i hi
      rw [ProgramNode.reads, hop] at hi
      obtain ⟨k, hk⟩ := List.mem_iff_getElem?.mp hi
      rw [List.getElem?_take] at hk
      split at hk
      · obtain rfl : k = 0 := by omega
        exact Option.some.inj (hk.symm.trans hid)
      · cases hk
    have hin : id ∈ n.reads := by
      rw [ProgramNode.reads, hop]
      refine List.mem_iff_getElem?.mpr ⟨0, ?_⟩
      rw [List.getElem?_take, if_pos Nat.zero_lt_one, hid]
    refine ⟨hfirm, acc_output h hn hmem fun i hi => ⟨s, hreads i hi ▸ hs, hacc⟩, ?_⟩
    obtain ⟨owner, howner, hfield⟩ := hfits.1 id hid
    rcases (hleads source rfl owner howner).field hfield with hlent | ⟨k, v, hk, hheld, hhas⟩
    · exact hlent.mono fun v hv => List.mem_append_right _ (List.mem_append_right _ (ha.lent v hv))
    · have hne := ne_of_upstream h hn hfirm.sound hheld ⟨id, s, hin, hs, hk⟩ hmem
      exact ⟨v, List.mem_append_left _ (Frame.mem_chargesBut hheld hne), hhas⟩
  · rintro ⟨hfirm, hstate⟩
    refine ⟨hfirm, fun other hother => ?_⟩
    obtain rfl := Option.some.inj (hout.symm.trans (hfits.2 other hother).1)
    rw [hstate]
    simp

theorem upholds_evaluate :
    Upholds T sc (Upright T sc room aside {} (Frame.Firm T sc kept)) (evaluate invoke pull n)
      fun _ => Upright T sc room aside {} fun g =>
        g.Firm T sc kept ∧ ∀ out ∈ n.dataOut, g.state out ≠ .empty := by
  refine upholds_tick.bind fun _ => (upholds_noteNode _ _).bind fun _ => ?_
  cases hop : n.op with
  | call f => exact upholds_callNode h hpull hn hop
  | fieldGet offset type => exact upholds_getField h hpull hn hop
  | _ => exact .throw _

end Expressions

section Inputs

variable (h : T.Met sc invoke) (hpull : Pulls T sc pull) {q : ProgramPin} {o : PinId}
include h hpull

omit hpull in
/-- What the slot of an output leads to is what an input linked with it is given. -/
theorem delivers_output {r : ProgramPin} {f : Frame} (hq : sc.program.pin? id = some q)
    (hsource : q.source = some o) (hr : sc.program.pin? o = some r)
    (hn : sc.program.node? r.node = some n) (hop : n.op ≠ .reroute) (hf : f.Firm T sc kept)
    (hfilled : f.state o ≠ .empty) : f.Delivers T sc id (f.value? sc.program o) := by
  obtain ⟨source, target, hsourceType, htargetType, hcasts⟩ := h.program.typed.link id q o hq hsource
  refine ⟨o, .output hq hsource hr hn hop, hf.sound.grounded o hfilled, fun place hplace type htype => ?_⟩
  rw [htargetType] at htype
  cases htype
  exact (hf.sound.leads h.context.whole hsourceType hplace).cast hcasts

/-- A linked input is given the data of its output, which is computed first if it has to be. -/
theorem upholds_pullOutput (hq : sc.program.pin? id = some q) (hsource : q.source = some o) :
    Upholds T sc (Upright T sc room aside {} (Frame.Firm T sc kept)) (pullOutput invoke pull o)
      fun data => Upright T sc room aside {} fun g => g.Firm T sc kept ∧ g.Delivers T sc id data := by
  obtain ⟨r, n, hr, hn, hout⟩ := h.program.formed.source id q o hq hsource
  refine .look_pin fun r' hr' => .look_node fun n' hn' => ?_
  rw [hr] at hr'
  cases hr'
  rw [hn] at hn'
  cases hn'
  by_cases hop : n.op = .reroute
  · rw [hop]
    refine .look_nth fun j hj => ?_
    refine (hpull room aside kept r.node n j hn (List.mem_of_getElem? hj)).mono (fun _ ha => ha)
      fun data b hb => hb.imp ?_
    rintro ⟨hfirm, s, hs, hacc, hleads⟩
    obtain ⟨source, target, hsourceType, htargetType, hcasts⟩ :=
      h.program.typed.link id q o hq hsource
    have hfits := h.program.typed.fits r.node n hn
    rw [Program.Fits, hop] at hfits
    refine ⟨hfirm, s, .reroute hq hsource hr hn hop hj hs, hacc, fun place hplace type htype => ?_⟩
    rw [htargetType] at htype
    cases htype
    exact (hleads place hplace source ((hfits j hj o hout).symm.trans hsourceType)).cast hcasts
  · have hvalue : Upholds T sc
        (Upright T sc room aside {} fun g => g.Firm T sc kept ∧ g.state o ≠ .empty)
        (frame >>= fun f => program >>= fun p => Pure.pure (f.value? p o)) fun data =>
        Upright T sc room aside {} fun g => g.Firm T sc kept ∧ g.Delivers T sc id data := by
      refine .look_frame fun f => .look_program (.pure ?_)
      rintro a ⟨ha, rfl⟩
      exact ha.imp fun hg => ⟨hg.1, delivers_output h hq hsource hr hn hop hg.1 hg.2⟩
    split
    · rename_i hreroute
      exact absurd hreroute hop
    · dsimp only
      split
      · refine .look_frame fun f => ?_
        split
        · exact ((upholds_evaluate h hpull hn).bind fun _ => hvalue.mono
            (fun a ha => ha.imp fun hg => ⟨hg.1, hg.2 o hout⟩)
              fun _ _ hb => hb).mono (fun a ha => ha.1) fun _ _ hb => hb
        · rename_i hfresh
          refine hvalue.mono ?_ fun _ _ hb => hb
          rintro a ⟨ha, rfl⟩
          refine ha.imp fun hfirm => ⟨hfirm, ?_⟩
          simp only [isFresh, Bool.not_eq_true, Bool.not_eq_false', Bool.and_eq_true] at hfresh
          exact bne_iff_ne.mp hfresh.1
      · refine .look_frame fun f => ?_
        split
        · exact Upholds.bind (.throw _) fun _ => hvalue
        · rename_i hfilled
          refine hvalue.mono ?_ fun _ _ hb => hb
          rintro a ⟨ha, rfl⟩
          refine ha.imp fun hfirm => ⟨hfirm, ?_⟩
          simp only [Bool.not_eq_true, Bool.not_eq_false'] at hfilled
          exact bne_iff_ne.mp hfilled

theorem upholds_supply (hn : sc.program.node? nid = some n) (hid : id ∈ n.dataIn) :
    Upholds T sc (Upright T sc room aside {} (Frame.Firm T sc kept)) (supply invoke pull id)
      fun data => Upright T sc room aside {} fun g => g.Firm T sc kept ∧ g.Delivers T sc id data := by
  refine .look_pin fun q hq => ?_
  cases hsource : q.source with
  | some o => exact upholds_pullOutput h hpull hq hsource
  | none => exact upholds_fallback h hn hid hq hsource

omit h hpull

theorem upholds_watchInput (id : PinId) (data : Option Place) :
    Upholds T sc
      (Upright T sc room aside {} fun g => g.Firm T sc kept ∧ g.Delivers T sc id data)
      (watchInput id data) fun _ => Upright T sc room aside {} fun g =>
        g.Firm T sc kept ∧ g.Delivers T sc id data := by
  refine .whole (tends_watchInput id data) (steady_watchInput id data) (.look_read ?_)
  split
  · rename_i place handle hhandle
    refine fun a => ⟨⟨Nat.le_refl _, Nat.le_refl _⟩, fun _ hw ha => ⟨?_, ha.frame⟩⟩
    obtain ⟨-, s, -, -, hleads⟩ := ha.frame
    have htype : sc.program.typeOf sc.context.catalogue id =
        some (sc.context.catalogue.info handle).id := by
      rw [Program.typeOf, hhandle]
      rfl
    refine List.forall_mem_cons.mpr ⟨.inr ?_, hw⟩
    exact (ha.lent_of_leads (hleads place rfl _ htype)).mono ha.alive
  · exact .pure fun a ha => ha.frame

variable (h : T.Met sc invoke)
include h

theorem pulls_pullStep (hpull : Pulls T sc pull) : Pulls T sc (pullStep invoke pull) :=
  fun _ _ _ _ _ id hn hid => (upholds_supply h hpull hn hid).bind fun data =>
    (upholds_watchInput id data).bind fun _ => .pure fun _ ha => ha

theorem pulls_pullWithin (depth : Nat) : Pulls T sc (pullWithin invoke depth) := by
  induction depth with
  | zero => exact fun _ _ _ _ _ _ _ _ => .throw _
  | succ depth ih => exact pulls_pullStep h ih

theorem pulls_pullInput : Pulls T sc (pullInput invoke) :=
  fun room aside kept nid n id hn hid => .look_program
    (pulls_pullWithin h (sc.program.pins.size + 1) room aside kept nid n id hn hid)

end Inputs

end Run

end Flowscript
