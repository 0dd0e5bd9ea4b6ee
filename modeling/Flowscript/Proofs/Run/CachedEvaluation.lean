import Flowscript.Proofs.Run.ExpressionMeanings

/-! # Pulling with and without a cache

An evaluator reuses what it likes of the slots that were filled in this statement, and computes the rest
anew. Whatever it reuses, it gives every input what the input is meant to be given. So an audit of what
inputs are given finds nothing, and the audited statement does what the statement does.
-/
namespace Flowscript

open Juncture

open Program.WellFormed (height height_lt height_le)

namespace Run

variable {K : Juncture} (hK : K.Ready) {a b : Activation} {id o : PinId} {n : ProgramNode} {nid : NodeId}
  {q r : ProgramPin} {pull pull' : Pull} {reuse : Frame → PinId → Bool}
include hK

omit hK in
theorem holding_settled (ho : K.program.Settled o) : K.holding o = K.settled o := by
  obtain ⟨q, n, hq, hn, hout, himpure⟩ := ho
  unfold holding content
  simp only [hq, hn, hout, if_true, himpure, Bool.false_eq_true, if_false]

theorem delivered_settled (hb : K.During none b) (ho : K.program.Settled o) {target : TypeId}
    (htarget : K.kind id = some target)
    (hsense : K.sense id = (K.holding o).map (·.datum (K.slot o)))
    (hfilled : b.frame.isFilled o = true) : K.Delivered b.frame id (b.frame.value? K.program o) := by
  have hstate := hb.settled o ho
  have hvalue : b.frame.value? K.program o = K.start.frame.value? K.program o := by
    unfold Frame.value?
    rw [hstate]
    cases K.start.frame.state o with
    | owned => exact hb.storage? o
    | _ => rfl
  have hstart : K.start.frame.isFilled o = true := by
    rw [← hfilled, Frame.isFilled, Frame.isFilled, hstate]
  rw [holding_settled ho, Juncture.settled, if_pos hstart] at hsense
  rw [hvalue]
  cases hplace : K.start.frame.value? K.program o with
  | none =>
    rw [hplace] at hsense
    exact hsense
  | some place =>
    rw [hplace] at hsense
    refine ⟨_, target, hsense, rfl, htarget, .inl ⟨hK.outside_settled ho
      (d := ⟨place, K.memory.block place.block⟩) ?_, rfl⟩⟩
    rw [Juncture.settled, if_pos hstart, hplace]

theorem agree_pullOutputBy (hreuse : ∀ f o, reuse f o = true → isFresh f o = true)
    (hq : K.program.pin? id = some q) (hsource : q.source = some o) (ha : K.During none a)
    (hsupplies : ∀ j, K.program.Pulls id j → K.Supplies pull' pull j) :
    Agree (pullOutputBy K.invoke reuse pull' o) (pullOutputBy K.invoke reuse pull o) K.scope a
      (fun data b => K.Amid a none b ∧ K.Delivered b.frame id data)
      fun e b => K.sense id = none ∨ e.Starved b.machine := by
  obtain ⟨r, n, hr, hn, hout⟩ := hK.formed.source id q o hq hsource
  obtain ⟨root, target, hroot, htarget, hcast⟩ := hK.typed.link id q o hq hsource
  refine .of_ok (pin_ok hr) (.of_ok (node_ok hn) ?_)
  split
  · rename_i hop
    have hsuits := hK.formed.suits r.node n hn
    rw [Program.Suits, hop] at hsuits
    obtain ⟨j, hj⟩ : ∃ j, n.dataIn[0]? = some j :=
      ⟨_, List.getElem?_eq_getElem (hsuits.1 (List.ne_nil_of_mem hout)).2⟩
    have hsense := hK.sense_rerouted hq hsource hr hn hop hj
    have hfits := hK.typed.fits r.node n hn
    rw [Program.Fits, hop] at hfits
    have hpulls := pulls_reroute hK.formed hq hsource hr hn hop (List.mem_of_getElem? hj)
    refine .of_ok (nth_ok hj) ((hsupplies j hpulls a ha).mono (fun data b hb => ⟨hb.1, ?_⟩)
      fun e b he => he.imp_left hsense.trans)
    cases data with
    | none => exact hsense.trans hb.2
    | some place =>
      obtain ⟨d, type, hd, rfl, htype, hanchored⟩ := hb.2
      obtain rfl : type = root :=
        Option.some.inj (htype.symm.trans ((hfits j hj o hout).symm.trans hroot))
      exact ⟨d, target, hsense.trans hd, rfl, htarget, hanchored.cast hcast⟩
  · rename_i hop
    have hsense := hK.sense_linked hq hsource hr hn hop
    split
    · rename_i hpure
      have hvolatile := hK.volatile_output hn hpure hout
      have hvalue : ∀ b, K.Amid a none b → isFresh b.frame o = true →
          K.Amid a none b ∧ K.Delivered b.frame id (b.frame.value? K.program o) := fun b hb hfresh =>
        ⟨hb, .of_holds hb.during hroot htarget hcast hsense hvolatile hfresh⟩
      refine .of_ok (b := a.frame) (t := a) rfl ?_
      split
      · refine Agree.bind ((agree_evaluate hK hn hpure hout ha fun j hj => hsupplies j
          ⟨q, o, r, n, hq, hsource, hr, hn, hpure, hj⟩).mono (fun _ _ h => h) fun e b he =>
            he.imp_left fun hnone => by rw [hsense, hnone]; rfl) fun _ b hb => ?_
        exact ⟨rfl, hvalue b hb.1 hb.2⟩
      · rename_i hreused
        refine ⟨rfl, hvalue a (.refl ha) (hreuse a.frame o ?_)⟩
        simpa using hreused
    · rename_i himpure
      have hsettled : K.program.Settled o := ⟨r, n, hr, hn, hout, Bool.not_eq_true _ ▸ himpure⟩
      refine .of_ok (b := a.frame) (t := a) rfl ?_
      split
      · rename_i hempty
        refine ⟨rfl, .inl ?_⟩
        have hempty : K.start.frame.isFilled o ≠ true := by
          rw [Frame.isFilled, ← ha.settled o hsettled]
          simpa [Frame.isFilled] using hempty
        rw [hsense, holding_settled hsettled, Juncture.settled, if_neg hempty]
        rfl
      · rename_i hfilled
        refine ⟨rfl, .refl ha, delivered_settled hK ha hsettled htarget hsense ?_⟩
        simpa using hfilled

/-- Whatever is reused, an input is given what it is meant to be given, if the inputs that are pulled for
it are. -/
theorem supplies_pullStepBy (hreuse : ∀ f o, reuse f o = true → isFresh f o = true)
    (hid : K.program.IsInput id) (hsupplies : ∀ j, K.program.Pulls id j → K.Supplies pull' pull j) :
    K.Supplies (pullStepBy K.invoke reuse pull') (pullStepBy K.invoke reuse pull) id := by
  intro a ha
  obtain ⟨nid, n, hn, hin⟩ := hid
  obtain ⟨q, _, _, hq, -⟩ := hK.pin hn (.inl hin)
  have hsupply : Agree (supplyBy K.invoke reuse pull' id) (supplyBy K.invoke reuse pull id) K.scope a
      (fun data b => K.Amid a none b ∧ K.Delivered b.frame id data)
      fun e b => K.sense id = none ∨ e.Starved b.machine := by
    refine .of_ok (pin_ok hq) ?_
    cases hsource : q.source with
    | some o => exact agree_pullOutputBy hK hreuse hq hsource ha hsupplies
    | none => exact ⟨rfl, ensures_fallback hK (.refl ha) hn hin hq hsource⟩
  refine Agree.bind hsupply fun data b hb => ⟨rfl, ?_⟩
  refine Ensures.bind (P := fun _ c => K.Amid a none c ∧ K.Delivered c.frame id data)
    (Ensures.bind_iff.mpr (Ensures.read_iff.mpr ?_)) fun _ _ hc => hc
  split
  · exact ⟨hb.1.still hK ⟨Nat.le_refl _, fun _ _ _ => rfl, fun _ => rfl, rfl, rfl⟩, hb.2⟩
  · exact hb

omit hK in
theorem isInput_of_pulls {i j : PinId} (h : K.program.Pulls i j) : K.program.IsInput j := by
  obtain ⟨_, _, r, n, -, -, -, hn, -, hj⟩ := h
  exact ⟨r.node, n, hn, hj⟩

theorem supplies_pullWithinBy (reuse : Frame → PinId → Bool)
    (hreuse : ∀ f o, reuse f o = true → isFresh f o = true) {depth : Nat}
    (hid : K.program.IsInput id) (hdepth : height K.program id < depth) :
    K.Supplies (pullWithinBy K.invoke reuse depth) (pullWithinBy K.invoke reuse depth) id := by
  induction depth generalizing id with
  | zero => cases hdepth
  | succ depth ih =>
    refine supplies_pullStepBy hK hreuse hid fun j hj => ih (isInput_of_pulls hj) ?_
    exact (hK.formed.height_lt hj).trans_le (Nat.le_of_lt_succ hdepth)

section Audited

omit hK in
theorem unfailed_beside (m : Machine) : m.Beside (fun _ => False) m.unfailed :=
  ⟨Nat.le_refl _, fun _ _ _ => rfl, fun seat => by cases seat <;> rfl, rfl, rfl⟩

omit hK in
theorem consistent_of_delivered {x y : Run (Option Place)}
    (hx : Ensures x K.scope a (fun data b => K.Amid a none b ∧ K.Delivered b.frame id data)
      fun e b => K.sense id = none ∨ e.Starved b.machine)
    (hy : Ensures y K.scope a (fun data b => K.Amid a none b ∧ K.Delivered b.frame id data)
      fun e b => K.sense id = none ∨ e.Starved b.machine) :
    Consistent K.notion K.scope id (x K.scope a) (y K.scope a) := by
  have hmeant : ∀ {f : Frame} {data : Option Place}, K.Delivered f id data → K.sense id ≠ none := by
    intro f data hdata hnone
    cases data with
    | none => cases hnone.symm.trans hdata
    | some place =>
      obtain ⟨d, _, hd, -⟩ := hdata
      cases hnone.symm.trans hd
  unfold Consistent
  cases hrun : x K.scope a with
  | error e b =>
    cases hrun' : y K.scope a with
    | error e' b' => trivial
    | ok data' b' => exact (hx.error hrun).resolve_left (hmeant (hy.ok hrun').2)
  | ok data b =>
    obtain ⟨hb, hdata⟩ := hx.ok hrun
    cases hrun' : y K.scope a with
    | error e' b' => exact (hy.error hrun').resolve_left (hmeant hdata)
    | ok data' b' =>
      obtain ⟨hb', hdata'⟩ := hy.ok hrun'
      cases data with
      | none =>
        cases data' with
        | none => exact ⟨rfl, fun _ _ hp => nomatch hp⟩
        | some place' =>
          obtain ⟨d, _, hd, -⟩ := hdata'
          cases (show K.sense id = some none from hdata).symm.trans hd
      | some place =>
        obtain ⟨d, root, hd, rfl, hroot, hanchored⟩ := hdata
        cases data' with
        | none => cases (show K.sense id = some none from hdata').symm.trans hd
        | some place' =>
          obtain ⟨d', root', hd', rfl, hroot', hanchored'⟩ := hdata'
          obtain rfl : d = d' := Option.some.inj (Option.some.inj (hd.symm.trans hd'))
          refine ⟨rfl, fun place type hplace htype => ?_⟩
          cases hplace
          obtain rfl : root = root' := Option.some.inj (hroot.symm.trans hroot')
          obtain rfl : root = type := Option.some.inj (hroot.symm.trans htype)
          rw [hb.during.data hanchored, hb'.during.data hanchored']

/-- What is audited is what an evaluator without a cache is given, so that the audit finds nothing. -/
theorem supplies_audit (hid : K.program.IsInput id) (h : K.Supplies pull' pull id) :
    K.Supplies (audit K.notion K.invoke pull') pull id := by
  intro a ha
  have hafresh : ∀ b, K.During none b → Ensures (pullAfresh K.invoke id) K.scope b
      (fun data c => K.Amid b none c ∧ K.Delivered c.frame id data)
      fun e c => K.sense id = none ∨ e.Starved c.machine := fun b hb =>
    .of_bind_ok (b := K.program) (t := b) rfl (supplies_pullWithinBy hK (fun _ _ => false)
      (fun _ _ hno => Bool.noConfusion hno) hid (Nat.lt_succ_of_le (height_le K.program id)) b hb).2
  have hconsistent : ∀ b, b = a ∨ b = a.unfailed → Consistent K.notion K.scope id
      (pull' id K.scope b) (pullAfresh K.invoke id K.scope b) := by
    have hone : ∀ b, K.During none b → Consistent K.notion K.scope id (pull' id K.scope b)
        (pullAfresh K.invoke id K.scope b) := fun b hb =>
      consistent_of_delivered (h b hb).2 (hafresh b hb)
    rintro b (rfl | rfl)
    · exact hone _ ha
    · exact hone _ (ha.still hK (unfailed_beside _))
  have haudit : audit K.notion K.invoke pull' id K.scope a = pull' id K.scope a := by
    unfold audit
    exact if_pos hconsistent
  have hsame := h a ha
  refine ⟨haudit.trans hsame.1, ?_⟩
  unfold Ensures
  rw [haudit]
  exact hsame.2

theorem supplies_auditedWithin {depth : Nat} (hid : K.program.IsInput id)
    (hdepth : height K.program id < depth) :
    K.Supplies (auditedWithin K.notion K.invoke depth) (pullWithin K.invoke depth) id := by
  induction depth generalizing id with
  | zero => cases hdepth
  | succ depth ih =>
    rw [auditedWithin, pullWithin, ← pullStepBy_isFresh, ← pullStepBy_isFresh]
    refine supplies_audit hK hid (supplies_pullStepBy hK (fun _ _ h => h) hid fun j hj =>
      ih (isInput_of_pulls hj) ?_)
    exact (hK.formed.height_lt hj).trans_le (Nat.le_of_lt_succ hdepth)

theorem supplies_auditedInput (hid : K.program.IsInput id) :
    K.Supplies (auditedInput K.notion K.invoke) (pullInput K.invoke) id := fun a ha =>
  .of_ok (b := K.program) (t := a) rfl (supplies_auditedWithin hK hid (Nat.lt_succ_of_le (height_le K.program id)) a ha)

end Audited

end Run

end Flowscript
