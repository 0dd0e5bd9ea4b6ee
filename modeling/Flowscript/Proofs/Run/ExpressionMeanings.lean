import Flowscript.Proofs.Run.EvaluatorAgreement

/-! # Computing expressions

The inputs of an expression are pulled one after another, so each of them is still what it was when the
last one has been pulled. Then the expression is computed as it is meant to be, and its slot is filled.
-/
namespace Flowscript

namespace Juncture

variable {K : Juncture} {a₀ a b c : Activation} {m : Machine} {id o : PinId} {n : ProgramNode} {f : Function}
  {form : Form} {skip : Option PinId} {high : Nat} {result : Option Value}

/-- What a call gave back is what an output is meant to hold. A value of its own is newer than the copies
that were passed to it. -/
def Returned (K : Juncture) (o : PinId) (form : Form) (skip : Option PinId) (high : Nat) (b : Activation) :
    Option Value → Prop
  | none => form.isOwning = true ∧ K.Owns b.machine.memory o ∨
      form.isOwning = false ∧ K.holding o = none
  | some v =>
    match v.held with
    | .owned place size _ => high ≤ place.block ∧ ∃ held root, K.holding o = some (.own held) ∧
        K.kind o = some root ∧ ∀ (memory : Memory) (target : Place),
          memory.block place.block = b.machine.memory.block place.block →
            K.notion.data (memory.transfer place target size) root target = K.notion.look root held 0
    | .borrowed place | .pointer (some place) => ∃ d root, K.holding o = some (.elsewhere d) ∧
        d.place = place ∧ K.kind o = some root ∧ K.Anchored b.frame skip root d
    | .pointer none => K.holding o = some .null

def Answered (K : Juncture) (a₀ : Activation) (o : PinId) (form : Form) (skip : Option PinId) (high : Nat)
    (outcome : Except CallError (Option Value)) (b : Activation) : Prop :=
  match outcome with
  | .ok result => K.Amid a₀ skip b ∧ K.Returned o form skip high b result
  | .error _ => K.holding o = none ∨ b.machine.Starved

theorem Returned.congr (h : K.Returned o form skip high b result)
    (hslot : ∀ slot, K.slot o = some slot →
      m.memory.block slot.block = b.machine.memory.block slot.block)
    (hnew : ∀ k, high ≤ k → m.memory.block k = b.machine.memory.block k) :
    K.Returned o form skip high ⟨b.frame, m⟩ result := by
  cases result with
  | none => exact h.imp_left fun ⟨howning, howns⟩ => ⟨howning, howns.congr hslot⟩
  | some v =>
    obtain ⟨type, form', held⟩ := v
    cases held with
    | owned place size destructor =>
      obtain ⟨hhigh, data, root, hhold, hkind, hdata⟩ := h
      exact ⟨hhigh, data, root, hhold, hkind, fun memory target hsame =>
        hdata memory target (hsame.trans (hnew _ hhigh))⟩
    | borrowed place => exact h
    | pointer place => cases place <;> exact h

theorem Answered.still {outcome : Except CallError (Option Value)} (hK : K.Ready)
    (h : K.Answered a₀ o form skip high outcome b)
    (hm : b.machine.Beside (fun k => a₀.machine.memory.next ≤ k ∧ k < high) m)
    (hnested : ∀ seat, (m.interpreter seat).nestedFailure = (b.machine.interpreter seat).nestedFailure)
    (hnew : ∀ k, high ≤ k → m.memory.block k = b.machine.memory.block k) :
    K.Answered a₀ o form skip high outcome ⟨b.frame, m⟩ := by
  cases outcome with
  | error e => exact h.imp_right fun hs => hs.congr hnested
  | ok result =>
    obtain ⟨hamid, hcame⟩ := h
    refine ⟨hamid.machine hK hm fun k hk => .inl hk.1,
      hcame.congr (fun slot hslot => hm.block _ ?_ fun hk => ?_) hnew⟩
    · exact (hK.slot_lt hslot).trans_le hamid.during.beside.next
    · exact absurd (hK.slot_lt hslot) (Nat.not_lt.mpr (hamid.origin.trans hk.1))

end Juncture

theorem ScriptError.Starved.of_machine {e e' : ScriptError} {m m' : Machine} (h : e.Starved m)
    (he : e'.kind = e.kind)
    (hnested : ∀ seat, (m'.interpreter seat).nestedFailure = (m.interpreter seat).nestedFailure) :
    e'.Starved m' :=
  h.imp (fun hb => he ▸ hb) fun hs => hs.congr hnested

namespace Run

open Juncture

variable {K : Juncture} (hK : K.Ready) {a₀ a b : Activation} {id o : PinId} {n : ProgramNode} {nid : NodeId}
  {f : Function} {pull pull' : Pull} {α : Type}

theorem ensures_endCopy (destructor : Option Destructor) (v : Charge) (w : Context) (m : Machine) :
    Ensures (do
        Exec.endCharge destructor v
        Exec.free v.place : Exec Empty Unit) w m
      (fun _ t => m.Beside (· = v.place.block) t ∧
        (∀ seat, t.interpreter seat = m.interpreter seat) ∧
        ∀ k, k ≠ v.place.block → t.memory.block k = m.memory.block k) fun _ _ => True := by
  refine Ensures.bind_iff.mpr ((Exec.ensures_endCharge destructor v (· = v.place.block)).mono
    (fun _ t ht => ?_) fun _ _ _ => trivial)
  obtain ⟨hbeside, hmemory, hinterpreter⟩ := ht
  refine ⟨hbeside.trans (.free t v.place.block) fun _ _ ho => ho, hinterpreter, fun k hk => ?_⟩
  exact (t.memory.block_free_of_ne (Ne.symm hk)).trans (congrArg (Memory.block · k) hmemory)

variable {pins : List (Param × PinId)} {Q : Nat → α → Activation → Prop} {P : Prop}
include hK

/-- One argument is pulled, and copied if it is taken by value. The copy ends after the rest is done. -/
theorem agree_withArgument {p : Param} {rest : List (Param × PinId)} {k k' : List Value → Run α}
    (ha : K.During none a) (hsupplies : K.Supplies pull' pull id) {n' : ProgramNode}
    (hn : K.program.node? nid = some n') (hin : id ∈ n'.dataIn) (hkind : K.kind id = some p.type)
    (hgo : ∀ (v : Value) (given : Given K.notion.Data) (b : Activation), K.Amid a none b →
      K.argument K.sense p id = some given → K.Argued b a.machine.memory.next p v given →
      (v.form.isOwning = true → ∀ place, v.place? = some place → place.block < b.machine.memory.next) →
      Agree (withArguments K.invoke pull' n f rest fun args => k' (v :: args))
        (withArguments K.invoke pull n f rest fun args => k (v :: args)) K.scope b
        (fun r c => ∃ high, b.machine.memory.next ≤ high ∧ Q high r c)
        fun e c => P ∨ e.Starved c.machine)
    (hnone : K.argument K.sense p id = none → P)
    (hend : ∀ high r c m temp, a.machine.memory.next ≤ temp → temp < high → Q high r c →
      c.machine.Beside (· = temp) m → (∀ seat, m.interpreter seat = c.machine.interpreter seat) →
      (∀ k, k ≠ temp → m.memory.block k = c.machine.memory.block k) → Q high r ⟨c.frame, m⟩) :
    Agree (withArguments K.invoke pull' n f ((p, id) :: rest) k')
      (withArguments K.invoke pull n f ((p, id) :: rest) k) K.scope a
      (fun r c => ∃ high, a.machine.memory.next ≤ high ∧ Q high r c)
      fun e c => P ∨ e.Starved c.machine := by
  obtain ⟨name, type, form⟩ := p
  obtain ⟨q, handle, slot, hq, -, ht, hkind', -⟩ := hK.pin hn (.inl hin)
  obtain rfl : (K.info handle).id = type := Option.some.inj (hkind'.symm.trans hkind)
  set p : Param := ⟨name, (K.info handle).id, form⟩
  have hmore : ∀ {b : Activation} {r c}, K.Amid a none b →
      (∃ high, b.machine.memory.next ≤ high ∧ Q high r c) →
      ∃ high, a.machine.memory.next ≤ high ∧ Q high r c := by
    intro b r c hb hrest
    obtain ⟨high, hle, hq⟩ := hrest
    exact ⟨high, hb.onward.beside.next.trans hle, hq⟩
  refine Agree.bind ((hsupplies a ha).mono (fun _ _ h => h) fun e b he => he.imp_left fun hs =>
    hnone (by rw [argument, hs])) fun data b hb => ?_
  obtain ⟨hb, hdata⟩ := hb
  refine .of_ok (pinType_ok hq ht) ?_
  cases data with
  | none =>
    dsimp only
    have hsense : K.sense id = some none := hdata
    split
    · rename_i hpointer
      refine (hgo (.null p.type p.form) .null b hb ?_ rfl fun _ _ hp => by cases hp).mono
        (fun _ _ => hmore hb) fun _ _ h => h
      rw [argument, hsense]
      exact if_pos hpointer
    · rename_i hpointer
      refine ⟨rfl, .inl (hnone ?_)⟩
      rw [argument, hsense]
      exact if_neg hpointer
  | some place =>
    obtain ⟨d, root, hsense, rfl, hroot, hd⟩ := hdata
    obtain rfl : (K.info handle).id = root := Option.some.inj (hkind'.symm.trans hroot)
    dsimp only
    split
    · rename_i howning
      have hargument : K.argument K.sense p id =
          (K.built (.construct handle) (K.OnStack handle) [K.glance handle d]).map .copy := by
        rw [argument, hsense]
        simp only [howning, if_true, hq, Option.bind_some, ht]
      refine Agree.bind ⟨rfl, Ensures.run_mapError_iff.mpr
        ((ensures_copyTemp hK (.refl hb.during) handle hd).mono (fun _ _ h => h) fun e c he => ?_)⟩
        fun temp c hc => ?_
      · exact he.imp (fun hb => hnone (by rw [hargument, hb]; rfl)) fun hs =>
          hs.of_machine rfl fun _ => rfl
      · obtain ⟨hc, -, -, hle, hlt, hbuilt⟩ := hc
        have hac := hb.trans hc
        have hrest := hgo (.borrowed p.type p.form temp) (.copy _) c hac
          (by rw [hargument, hbuilt]; rfl)
          ⟨howning, temp, rfl, hb.onward.beside.next.trans hle, hlt, rfl⟩
          (fun _ place hp => by
            rw [Value.place?_borrowed] at hp
            cases hp
            exact hlt)
        refine Agree.run_andFinally (hrest.mono (fun r e he => ?_) fun e e' he => ?_)
        · refine (ensures_endCopy _ ⟨temp, (K.info handle).id⟩ K.scope.context e.machine).mono
            (fun _ m hm => ?_) fun _ _ h => h
          obtain ⟨high, hhigh, hq⟩ := he
          exact ⟨high, hac.onward.beside.next.trans hhigh, hend high r e m _
            (hb.onward.beside.next.trans hle) (hlt.trans_le hhigh) hq hm.1 hm.2.1 hm.2.2⟩
        · refine (ensures_endCopy _ ⟨temp, (K.info handle).id⟩ K.scope.context e'.machine).mono
            (fun _ m hm => he.imp_right fun hs => hs.of_machine rfl fun seat => ?_) fun _ _ h => h
          rw [hm.2.1 seat]
    · rename_i howning
      refine (hgo (.borrowed p.type p.form d.place) (.shared d) b hb ?_
        ⟨Bool.not_eq_true _ ▸ howning, rfl, hd⟩ fun hform => absurd hform howning).mono
        (fun _ _ => hmore hb) fun _ _ h => h
      rw [argument, hsense]
      exact if_neg howning

/-- Arguments are pulled one after another. What the rest makes of them may not depend on the copies once
these have ended. -/
theorem agree_withArguments {k k' : List Value → Run α} (ha : K.During none a)
    (hpins : ∀ x ∈ pins, K.Supplies pull' pull x.2 ∧ ∃ nid n, K.program.node? nid = some n ∧
      x.2 ∈ n.dataIn ∧ K.kind x.2 = some x.1.type)
    (hk : ∀ args givens b, K.Amid a none b → K.arguments K.sense pins = some givens →
      K.Gathered b a.machine.memory.next args givens →
      Agree (k' args) (k args) K.scope b (Q b.machine.memory.next) fun e c => P ∨ e.Starved c.machine)
    (hP : K.arguments K.sense pins = none → P)
    (hend : ∀ high r c m temp, a.machine.memory.next ≤ temp → temp < high → Q high r c →
      c.machine.Beside (· = temp) m → (∀ seat, m.interpreter seat = c.machine.interpreter seat) →
      (∀ k, k ≠ temp → m.memory.block k = c.machine.memory.block k) → Q high r ⟨c.frame, m⟩) :
    Agree (withArguments K.invoke pull' n f pins k') (withArguments K.invoke pull n f pins k) K.scope a
      (fun r c => ∃ high, a.machine.memory.next ≤ high ∧ Q high r c)
      fun e c => P ∨ e.Starved c.machine := by
  induction pins generalizing a k k' with
  | nil =>
    exact (hk [] [] a (.refl ha) rfl .nil).mono (fun _ _ h => ⟨_, Nat.le_refl _, h⟩) fun _ _ h => h
  | cons x rest ih =>
    obtain ⟨p, id⟩ := x
    obtain ⟨⟨hsupplies, nid, n', hn, hin, hkind⟩, hrest⟩ := List.forall_mem_cons.mp hpins
    refine agree_withArgument hK ha hsupplies hn hin hkind (fun v given b hb hgiven hv hbelow => ?_)
      (fun hnone => hP (by rw [arguments, hnone])) hend
    refine ih hb.during hrest (fun args givens c hc hgivens hgathered => ?_) (fun hnone => hP ?_)
      fun high r c m temp hle => hend high r c m temp (hb.onward.beside.next.trans hle)
    · refine hk (v :: args) ((p, given) :: givens) c (hb.trans hc) ?_
        (.cons (hv.onward hK ha.beside.next hc.onward) hb.onward.beside.next hbelow hgathered)
      rw [arguments, hgiven, hgivens]
    · rw [arguments, hnone]
      cases K.argument K.sense p id <;> rfl

omit hK in
theorem agree_withStack {x y : Run α} {Q : α → Activation → Prop} {E : ScriptError → Activation → Prop}
    (h : Agree x y K.scope a Q E)
    (hQ : ∀ r b f, Q r b → (∀ i, (f i).world = i.world ∧ (f i).nestedFailure = i.nestedFailure) →
      Q r ⟨b.frame, b.machine.modifyInterpreter K.scope.seat f⟩)
    (hE : ∀ e b f, E e b → (∀ i, (f i).world = i.world ∧ (f i).nestedFailure = i.nestedFailure) →
      E e ⟨b.frame, b.machine.modifyInterpreter K.scope.seat f⟩) :
    Agree (withStack x) (withStack y) K.scope a Q E := by
  refine .of_ok (b := a.machine.interpreter K.scope.seat) (t := a) rfl ?_
  refine .of_ok (b := K.scope) (t := a) rfl (Agree.run_andFinally (h.mono (fun r b hb => ?_) fun e b he => ?_))
  · exact hQ r b _ hb fun _ => ⟨rfl, rfl⟩
  · exact hE e b _ he fun _ => ⟨rfl, rfl⟩

end Run

namespace Machine

theorem nestedFailure_modifyInterpreter (m : Machine) (seat other : Seat) {f : Interpreter → Interpreter}
    (hf : (f (m.interpreter seat)).nestedFailure = (m.interpreter seat).nestedFailure) :
    ((m.modifyInterpreter seat f).interpreter other).nestedFailure =
      (m.interpreter other).nestedFailure := by
  by_cases hother : other = seat
  · rw [hother, interpreter_modifyInterpreter, hf]
  · rw [interpreter_modifyInterpreter_of_ne _ hother]

end Machine

namespace Juncture

variable {K : Juncture} {a b c : Activation} {m t : Machine} {id o : PinId} {n : ProgramNode} {nid : NodeId}
  {f : Function} {r : Param} {skip : Option PinId} {high : Nat} {args : List Value} {ret : Option Place}
  {givens : List (Param × Given K.notion.Data)} {result : Option Value} {slot : Place}

section Output

variable (hK : K.Ready) (hn : K.program.node? nid = some n) (hpure : n.pure = true) (hout : o ∈ n.dataOut)
include hK hn hpure hout

theorem Ready.volatile_output : K.program.Volatile o := by
  obtain ⟨q, _, _, hq, rfl, -⟩ := hK.pin hn (.inr hout)
  exact ⟨q, n, hq, hn, fun _ => hpure⟩

theorem Ready.holding_called (hop : n.op = .call f) : K.holding o = K.called K.sense f n o := by
  obtain ⟨q, _, _, hq, rfl, -⟩ := hK.pin hn (.inr hout)
  unfold holding content
  simp only [hq, hn, hout, if_true, hpure, hop]

theorem Ready.holding_field {offset : Nat} {type : Handle} (hop : n.op = .fieldGet offset type) :
    K.holding o = K.field K.sense n offset type o := by
  obtain ⟨q, _, _, hq, rfl, -⟩ := hK.pin hn (.inr hout)
  unfold holding content
  simp only [hq, hn, hout, if_true, hpure, hop]

end Output

/-- What a call gave back is what the output is meant to hold, where the call did what it is meant to. -/
theorem returned_of_yield
    (hgathered : K.Gathered b high args givens) (hkind : K.kind o = some r.type)
    (hslot : K.slot o = some slot)
    (hproper : K.notion.Proper (K.start.vol K.scope) K.start.machine m r.type args result)
    (hret : ret = K.ret r o)
    (hhold : K.holding o = K.result r.type givens (K.notion.yield t.memory r.type ret result))
    (hfresh : ∀ id, K.program.Volatile id → Run.isFresh b.frame id = true →
      Run.isFresh c.frame id = true ∨ skip = some id) :
    K.Returned o r.form skip m.memory.next ⟨c.frame, t⟩ result := by
  have hrefer : ∀ v place, result = some v → v.isOwning = false → v.place? = some place →
      K.holding o = some (.elsewhere (K.refer givens place)) →
      ∃ d root, K.holding o = some (.elsewhere d) ∧ d.place = place ∧ K.kind o = some root ∧
        K.Anchored c.frame skip root d := by
    intro v place hv howning hplace helsewhere
    have hd := hgathered.refer (hproper.reference v place hv howning hplace)
    exact ⟨_, r.type, helsewhere, rfl, hkind, hd.mono fun id hid hfilled =>
      hfresh id hid (hfilled.resolve_right fun hnone => nomatch hnone)⟩
  cases result with
  | none =>
    by_cases howning : r.form.isOwning = true
    · left
      rw [hret, Juncture.ret, if_pos howning, hslot] at hhold
      refine ⟨howning, _, slot, r.type, hhold, hslot, hkind, ?_⟩
      refine (Notion.look_sample (b := t.memory.block slot.block) ?_).symm
      rw [Notion.data, (Frame.block_of_storage? hslot).2.1]
    · right
      rw [hret, Juncture.ret, if_neg howning] at hhold
      exact ⟨Bool.not_eq_true _ ▸ howning, hhold⟩
  | some v =>
    obtain ⟨type, form, held⟩ := v
    cases held with
    | owned place size destructor =>
      obtain ⟨hnew, hmoved⟩ := hproper.owned _ place size destructor rfl rfl
      refine ⟨hnew, _, r.type, hhold, hkind, fun memory target hsame => ?_⟩
      have hdata := hmoved memory target
      rw [hdata, Notion.data, hsame]
      refine (Notion.look_sample
        (b := (t.memory.transfer place ⟨0, 0, .apart 0⟩ size).block 0) ?_).symm
      exact hmoved t.memory ⟨0, 0, .apart 0⟩
    | borrowed place => exact hrefer _ place rfl rfl rfl hhold
    | pointer place =>
      cases place with
      | none => exact hhold
      | some place => exact hrefer _ place rfl rfl rfl hhold

end Juncture

namespace Run

open Juncture

variable {K : Juncture} (hK : K.Ready) {a b : Activation} {o : PinId} {n : ProgramNode} {nid : NodeId}
  {f : Function} {r : Param} {args : List Value} {givens : List (Param × Given K.notion.Data)}
  (hn : K.program.node? nid = some n) (hpure : n.pure = true) (hout : o ∈ n.dataOut)
include hK hn hpure hout

theorem ensures_resultStorage (hb : K.Amid a none b) :
    Ensures (resultStorage (some o) (some r.form)) K.scope b
      (fun buffer c => buffer = K.ret r o ∧
        K.Amid a (if r.form.isOwning then some o else none) c ∧
        c.machine.memory = b.machine.memory ∧
        ∀ id, K.program.Volatile id → Run.isFresh b.frame id = true →
          Run.isFresh c.frame id = true ∨ (if r.form.isOwning then some o else none) = some id)
      fun _ _ => False := by
  unfold resultStorage
  dsimp only
  split
  · rename_i howning
    have hclear := amid_clear hK hb (hK.volatile_output hn hpure hout) fun _ hr => nomatch hr
    refine Ensures.bind (hclear.mono (fun _ _ h => h) fun _ _ => False.elim) fun _ c hc => ?_
    obtain ⟨hc, hframe, hmemory⟩ := hc
    refine ⟨?_, hc, hmemory, fun id _ hfresh => ?_⟩
    · rw [Juncture.ret, if_pos howning]
      exact hc.during.storage? o
    · by_cases he : id = o
      · exact .inr (he ▸ rfl)
      · rw [hframe, Frame.isFresh_set_of_ne he]
        exact .inl hfresh
  · rename_i howning
    refine ⟨?_, hb, rfl, fun _ _ hfresh => .inl hfresh⟩
    rw [Juncture.ret, if_neg howning]

theorem handed_gathered (hb : K.Amid a none b)
    (hgivens : K.arguments K.sense (f.params.zip n.dataIn) = some givens)
    (hgathered : K.Gathered b a.machine.memory.next args givens) {m : Machine}
    (hm : b.machine.Beside (K.start.vol K.scope) m) :
    K.start.machine.Handed (K.start.vol K.scope) m args (K.ret r o) := by
  have hplace : ∀ v ∈ args, ∀ place, v.place? = some place →
      v.form.isOwning = false ∧ (∃ i ∈ n.dataIn, ∃ d, K.sense i = some (some d) ∧ d.place = place ∧
          place.block < K.memory.next) ∨
        v.form.isOwning = true ∧ a.machine.memory.next ≤ place.block ∧
          place.block < b.machine.memory.next := by
    intro v hv place hplace
    obtain ⟨g, hg, hargued⟩ := hgathered.of_mem hv
    cases howning : v.form.isOwning with
    | true => exact .inr ⟨rfl, hargued.copied howning hplace⟩
    | false =>
      obtain ⟨d, hshared, rfl, hd⟩ := hargued.shared howning hplace
      obtain ⟨x, hx, hsense⟩ := Ready.shared_of_arguments hgivens hg hshared
      exact .inl ⟨rfl, x.2, (List.of_mem_zip hx).2, d, hsense, rfl, hd.lt hK⟩
  refine ⟨hb.during.beside.trans hm fun _ _ ho => ho, fun v hv => ?_, fun v hv hform place hp => ?_,
    fun v hv hform place hp => ?_, hgathered.apart, fun target htarget => ?_⟩
  · obtain ⟨g, -, hargued⟩ := hgathered.of_mem hv
    exact hargued.plain
  · rcases hplace v hv place hp with ⟨-, _, _, _, -, -, hlt⟩ | ⟨howning, -⟩
    · exact hlt
    · cases howning.symm.trans hform
  · rcases hplace v hv place hp with ⟨hshared, -⟩ | ⟨-, hle, hlt⟩
    · cases hshared.symm.trans hform
    · exact ⟨hb.origin.trans hle, hlt.trans_le hm.next⟩
  · have hslot : K.slot o = some target := by
      unfold Juncture.ret at htarget
      split at htarget
      · exact htarget
      · cases htarget
    refine ⟨(hK.slot_lt hslot).trans_le (hb.during.beside.next.trans hm.next),
      .inl (Ready.vol_of_slot (hK.volatile_output hn hpure hout) hslot), fun v hv place hp => ?_⟩
    obtain ⟨q, _, _, hq, rfl, -⟩ := hK.pin hn (.inr hout)
    rcases hplace v hv place hp with ⟨-, i, hi, d, hsense, rfl, -⟩ | ⟨-, hle, -⟩
    · exact hK.apart_of_sense hq hn hout hpure hi hsense hslot
    · exact Nat.ne_of_gt ((hK.slot_lt hslot).trans_le (hb.origin.trans hle))

/-- A function is called for an output, and what comes of it is what the output is meant to hold. -/
theorem ensures_answer (hop : n.op = .call f) (hr : f.result = some r) (hkind : K.kind o = some r.type)
    (hb : K.Amid a none b) (hgivens : K.arguments K.sense (f.params.zip n.dataIn) = some givens)
    (hgathered : K.Gathered b a.machine.memory.next args givens) :
    Ensures (do
        let buffer ← resultStorage (some o) (some r.form)
        modifyInterpreter fun i => { i with nestedFailure := none }
        liftTotal (Exec.attempt (K.invoke f args buffer))) K.scope b
      (K.Answered a o r.form (if r.form.isOwning then some o else none) b.machine.memory.next)
      fun _ _ => False := by
  have hvolatile := hK.volatile_output hn hpure hout
  obtain ⟨_, _, slot, -, -, -, -, hslot⟩ := hK.pin hn (.inr hout)
  refine Ensures.bind (ensures_resultStorage hK hn hpure hout (.refl hb.during)) fun buffer c hc => ?_
  obtain ⟨rfl, hc, hmemory, hfresh⟩ := hc
  refine Ensures.bind_iff.mpr (Ensures.run_modifyInterpreter_iff.mpr ?_)
  set m := c.machine.modifyInterpreter K.scope.seat fun i => { i with nestedFailure := none }
  have hm : c.machine.Beside (fun _ => False) m := .modifyInterpreter _ _ rfl
  have hsame : m.memory = b.machine.memory := (Machine.memory_modifyInterpreter _ _ _).trans hmemory
  have hhanded := handed_gathered hK hn hpure hout hb hgivens hgathered (r := r) (m := m)
    (hc.onward.beside.trans hm fun _ _ => False.elim)
  have hdetermined := hK.calls nid n f r hn hpure hop hr
  have hrooms : ∀ ret ret', ret = K.ret r o → ret' = K.ret r o →
      (Chore.call f r.type).Rooms K.scope.context.catalogue ret ret' := fun _ _ h h' => .inl (h.trans h'.symm)
  have hmeans := (hdetermined.discreet _ _ m args _ hhanded).and (hdetermined.means hrooms hhanded rfl)
  have hsights : args.map (K.notion.sight m.memory) = givens.map fun g => g.2.sight K.notion g.1 := by
    rw [hsame]
    exact hgathered.sights hb.during
  have hcalled : K.holding o = (K.meaning (.call f r.type) (· = K.ret r o)
      (givens.map fun g => g.2.sight K.notion g.1)).bind (K.result r.type givens) := by
    rw [hK.holding_called hn hpure hout hop, called, hr, hgivens]
  rw [hsights] at hmeans
  refine Ensures.run_liftTotal_iff.mpr (Ensures.exec_attempt_iff.mpr (hmeans.mono (fun result t ht => ?_)
    fun e t ht => ht.2.imp_left fun hnone => ?_))
  · obtain ⟨⟨hbeside, hproper⟩, hmeaning⟩ := ht
    refine ⟨((hb.trans hc).still hK hm).machine hK hbeside fun k hk => ?_, ?_⟩
    · rcases hk with ⟨target, htarget, rfl⟩ | ⟨v, hv, howning, place, hplace, rfl⟩
      · unfold Juncture.ret at htarget
        split at htarget
        · rename_i howning
          exact .inr ⟨o, target, if_pos howning, hvolatile, htarget, rfl⟩
        · cases htarget
      · obtain ⟨_, -, hargued⟩ := hgathered.of_mem hv
        exact .inl (hargued.copied howning hplace).1
    · have hreturned := returned_of_yield (c := c) (t := t) hgathered hkind hslot hproper rfl
        (by rw [hcalled, meaning, hmeaning]; rfl) hfresh
      rwa [hsame] at hreturned
  · rw [hcalled, meaning, hnone]
    rfl

/-- What a call gave back is put into the slot of the output. -/
theorem ensures_storeResult {skip : Option PinId} {high : Nat} {result : Option Value}
    (hb : K.Amid a skip b) (hskip : ∀ s, skip = some s → s = o) (hnew : a.machine.memory.next ≤ high)
    (hreturned : K.Returned o r.form skip high b result) :
    Ensures (storeResult o r.form result) K.scope b
      (fun _ c => K.Amid a none c ∧ isFresh c.frame o = true)
      fun e c => K.holding o = none ∨ e.Starved c.machine := by
  have hvolatile := hK.volatile_output hn hpure hout
  obtain ⟨_, _, slot, -, -, -, -, hslot⟩ := hK.pin hn (.inr hout)
  have hfilled : ∀ {state c}, K.Filled a o state c → K.Amid a none c ∧ isFresh c.frame o = true :=
    fun h => ⟨h.amid, h.fresh⟩
  refine .of_bind_ok (b := K.slot o) (t := b)
    (congrArg (EStateM.Result.ok · b) (hb.during.storage? o)) ?_
  rw [hslot]
  cases result with
  | none =>
    dsimp only
    rcases hreturned with ⟨howning, howns⟩ | ⟨howning, hnone⟩
    · rw [if_pos howning]
      refine (amid_setOwned hK (hb.weaken hskip) hvolatile howns).mono (fun _ _ h => hfilled h)
        fun _ _ => False.elim
    · rw [howning]
      exact .inl hnone
  | some v =>
    obtain ⟨type, form, held⟩ := v
    -- A reference is remembered, and the slot is made to hold it.
    have hwatched : K.Amid a skip ⟨b.frame, b.machine.watchResult (some ⟨type, form, held⟩)⟩ := by
      rw [Machine.watchResult_eq]
      exact hb.still hK ⟨Nat.le_refl _, fun _ _ _ => rfl, fun _ => rfl, rfl, rfl⟩
    have hborrowed : ∀ place, (∃ d root, K.holding o = some (.elsewhere d) ∧ d.place = place ∧
        K.kind o = some root ∧ K.Anchored b.frame skip root d) →
        Ensures (setBorrowed o place) K.scope
          ⟨b.frame, b.machine.watchResult (some ⟨type, form, held⟩)⟩
          (fun _ c => K.Amid a none c ∧ isFresh c.frame o = true)
          fun e c => K.holding o = none ∨ e.Starved c.machine := by
      rintro _ ⟨d, root, hhold, rfl, hkind, hd⟩
      exact (ensures_setBorrowed hK hwatched hvolatile hskip hhold hkind hd).mono
        (fun _ _ h => hfilled h) fun _ _ => False.elim
    cases held with
    | owned place size destructor =>
      obtain ⟨hle, data, root, hhold, hkind, hdata⟩ := hreturned
      have hlt := (hK.slot_lt hslot).trans_le (hb.origin.trans (hnew.trans hle))
      refine Ensures.bind ((amid_clear hK hb hvolatile hskip).mono (fun _ _ h => h)
        fun _ _ => False.elim) fun _ c hc => ?_
      obtain ⟨hc, -, hmemory⟩ := hc
      refine Ensures.bind_iff.mpr (Ensures.run_liftTotal_iff.mpr ?_)
      have hmoved : ∀ care, c.machine.Beside (fun k => k = slot.block ∨ k = place.block)
          { c.machine with
            memory := (c.machine.memory.transfer place slot size).free place.block, care } :=
        fun care => ⟨Nat.le_refl _, fun k _ hk => by
          rw [not_or] at hk
          exact (Memory.block_free_of_ne _ (Ne.symm hk.2)).trans
            (Memory.block_transfer_of_ne _ _ (Ne.symm hk.1)), fun _ => rfl, rfl, rfl⟩
      refine (amid_setOwned hK (hc.machine hK (hmoved _) fun k hk => ?_) hvolatile ?_).mono
        (fun _ _ h => hfilled h) fun _ _ => False.elim
      · rcases hk with rfl | rfl
        · exact .inr ⟨o, slot, rfl, hvolatile, hslot, rfl⟩
        · exact .inl (hnew.trans hle)
      · refine ⟨data, slot, root, hhold, hslot, hkind, ?_⟩
        rw [← hdata c.machine.memory slot (by rw [hmemory]), Notion.data, Notion.data]
        rw [Memory.block_free_of_ne _ (Nat.ne_of_gt hlt)]
    | borrowed place => exact hborrowed place hreturned
    | pointer place =>
      cases place with
      | some place => exact hborrowed place hreturned
      | none =>
        exact (ensures_setNull hK hwatched hvolatile hskip hreturned).mono (fun _ _ h => hfilled h)
          fun _ _ => False.elim

omit hK hn hpure hout in
/-- A call that failed because a nested one used up a budget fails so itself. -/
theorem ensures_callFailure {P : Prop} (f : Function) (e : CallError) (h : P ∨ b.machine.Starved) :
    Ensures (callFailure f e) K.scope b (fun e' c => P ∨ e'.Starved c.machine) fun _ _ => False := by
  unfold callFailure
  refine Ensures.bind_iff.mpr (Ensures.run_interpreter_iff.mpr (Ensures.bind_iff.mpr
    (Ensures.run_modifyInterpreter_iff.mpr ?_)))
  rcases h with h | ⟨seat, n, hnested, hbudget⟩
  · split
    · split <;> exact .inl h
    · exact .inl h
  · by_cases hseat : seat = K.scope.seat
    · subst hseat
      rw [hnested]
      dsimp only
      rw [if_pos hbudget]
      exact .inr (.inl hbudget)
    · have hother : ∀ e' : ScriptError, e'.Starved (b.machine.modifyInterpreter K.scope.seat
          fun i => { i with nestedFailure := none }) := fun e' =>
        .inr ⟨seat, n, by rw [Machine.interpreter_modifyInterpreter_of_ne _ hseat]; exact hnested,
          hbudget⟩
      split
      · split <;> exact .inr (hother _)
      · exact .inr (hother _)

omit hpure hout in
theorem supplied_arguments {pull pull' : Pull} (hop : n.op = .call f)
    (hsupplies : ∀ j ∈ n.dataIn, K.Supplies pull' pull j) :
    ∀ x ∈ f.params.zip n.dataIn, K.Supplies pull' pull x.2 ∧ ∃ nid n, K.program.node? nid = some n ∧
      x.2 ∈ n.dataIn ∧ K.kind x.2 = some x.1.type := by
  have hfits := hK.typed.fits nid n hn
  rw [Program.Fits, hop] at hfits
  intro x hx
  have hin := (List.of_mem_zip hx).2
  exact ⟨hsupplies _ hin, nid, n, hn, hin, hfits.1 x hx⟩

theorem agree_callNode {pull pull' : Pull} (hop : n.op = .call f) (ha : K.During none a)
    (hsupplies : ∀ j ∈ n.dataIn, K.Supplies pull' pull j) :
    Agree (callNode K.invoke pull' n f) (callNode K.invoke pull n f) K.scope a
      (fun _ c => K.Amid a none c ∧ isFresh c.frame o = true)
      fun e c => K.holding o = none ∨ e.Starved c.machine := by
  have hfits := hK.typed.fits nid n hn
  rw [Program.Fits, hop] at hfits
  obtain ⟨hhead, r, hr, hkind⟩ := hfits.2 o hout
  unfold callNode
  rw [hhead, hr]
  dsimp only [Option.map_some]
  refine Agree.bind (P := fun outcome c => ∃ high, a.machine.memory.next ≤ high ∧
    K.Answered a o r.form (if r.form.isOwning then some o else none) high outcome c)
    (agree_withStack (agree_withArguments hK ha
      (supplied_arguments hK hn hop hsupplies)
      (fun args givens b hb hgivens hgathered => ⟨rfl, (ensures_answer hK hn hpure hout hop hr hkind hb
        hgivens hgathered).mono (fun _ _ h => h) fun _ _ => False.elim⟩)
      (fun hnone => ?_) fun high outcome c m temp hle hlt hc hm hinterpreter hblock => ?_)
      (fun outcome c g hc hg => ?_) fun e c g he hg => ?_) fun outcome c hc => ?_
  · rw [hK.holding_called hn hpure hout hop, called, hr, hnone]
  · refine hc.still hK ((Machine.Beside.refl _ _).trans hm fun _ _ hk => hk ▸ ⟨hle, hlt⟩)
      (fun seat => by rw [hinterpreter]) fun k hk => hblock k (Nat.ne_of_gt (hlt.trans_le hk))
  · obtain ⟨high, hle, hc⟩ := hc
    exact ⟨high, hle, hc.still hK (.modifyInterpreter _ _ (hg _).1)
      (fun seat => Machine.nestedFailure_modifyInterpreter _ _ _ (hg _).2)
      fun k _ => congrArg (Memory.block · k) (Machine.memory_modifyInterpreter _ _ _)⟩
  · exact he.imp_right fun hs =>
      hs.of_machine rfl fun seat => Machine.nestedFailure_modifyInterpreter _ _ _ (hg _).2
  · obtain ⟨high, hle, hc⟩ := hc
    refine ⟨rfl, ?_⟩
    cases outcome with
    | error e =>
      exact Ensures.bind ((ensures_callFailure f e hc).mono (fun _ _ h => h) fun _ _ => False.elim)
        fun e' c' he => he.imp_right fun hs => hs.of_machine rfl fun _ => rfl
    | ok result =>
      refine Ensures.run_mapError_iff.mpr ((ensures_storeResult hK hn hpure hout hc.1 (fun s hs => ?_)
        hle hc.2).mono (fun _ _ h => h) fun e c' he =>
          he.imp_right fun hs => hs.of_machine rfl fun _ => rfl)
      split at hs
      · exact (Option.some.inj hs).symm
      · cases hs

omit hK hn hpure hout in
theorem agree_pullTarget {pull pull' : Pull} {i : PinId} (hi : n.dataIn[0]? = some i)
    (ha : K.During none a) (hsupplies : K.Supplies pull' pull i) :
    Agree (pullTarget pull' n) (pullTarget pull n) K.scope a
      (fun place b => K.Amid a none b ∧ ∃ d root, K.sense i = some (some d) ∧ d.place = place ∧
        K.kind i = some root ∧ K.Anchored b.frame none root d)
      fun e b => (∀ d, K.sense i ≠ some (some d)) ∨ e.Starved b.machine := by
  refine .of_ok (nth_ok hi) (Agree.bind ((hsupplies a ha).mono (fun _ _ h => h) fun e b he =>
    he.imp_left fun hnone d hd => ?_) fun data b hb => ?_)
  · rw [hnone] at hd
    cases hd
  · obtain ⟨hb, hdata⟩ := hb
    cases data with
    | none =>
      refine ⟨rfl, .inl fun d hd => ?_⟩
      cases (hdata : K.sense i = some none).symm.trans hd
    | some place => exact ⟨rfl, hb, hdata⟩

theorem agree_getField {pull pull' : Pull} {offset : Nat} {type : Handle}
    (hop : n.op = .fieldGet offset type) (ha : K.During none a)
    (hsupplies : ∀ j ∈ n.dataIn, K.Supplies pull' pull j) :
    Agree (getField K.invoke pull' n offset type) (getField K.invoke pull n offset type) K.scope a
      (fun _ c => K.Amid a none c ∧ isFresh c.frame o = true)
      fun e c => K.holding o = none ∨ e.Starved c.machine := by
  have hsuits := hK.formed.suits nid n hn
  rw [Program.Suits, hop] at hsuits
  have hfits := hK.typed.fits nid n hn
  rw [Program.Fits, hop] at hfits
  obtain ⟨howner, hresult⟩ := hfits
  obtain ⟨i, hi⟩ : ∃ i, n.dataIn[0]? = some i := ⟨_, List.getElem?_eq_getElem hsuits.2.1⟩
  obtain ⟨hhead, hkind⟩ := hresult o hout
  obtain ⟨q, _, slot, hq, rfl, -, -, hslot⟩ := hK.pin hn (.inr hout)
  have hin := List.mem_of_getElem? hi
  have hfield := hK.holding_field hn hpure hout hop
  rw [field, hi, Option.bind_some] at hfield
  refine Agree.bind ((agree_pullTarget hi ha (hsupplies i hin)).mono (fun _ _ h => h) fun e c he =>
    he.imp_left fun hnone => ?_) fun source b hb => ?_
  · rw [hfield]
    split
    · rename_i d hd
      exact absurd hd (hnone d)
    · rfl
  · obtain ⟨hb, d, root, hsense, rfl, hroot, hd⟩ := hb
    obtain ⟨owner, howner, hhas⟩ := howner i hi
    obtain rfl : owner = root := Option.some.inj (howner.symm.trans hroot)
    have hpart : K.Anchored b.frame none (K.info type).id ⟨d.place.shift offset, d.held⟩ :=
      hd.within rfl rfl hhas
    rw [hsense] at hfield
    refine .of_ok (nth_ok hhead) (.of_ok (b := K.scope) (t := b) rfl ⟨rfl, ?_⟩)
    have hfill := ensures_fillOwned hK (.refl hb.during) (hK.volatile_output hn hpure hout) hslot
      (hK.constructs type) hkind [.borrowed (K.info type).id .constRef (d.place.shift offset)]
      (List.forall_mem_singleton.mpr ⟨rfl, _, rfl, hd.lt hK,
        hK.apart_of_sense hq hn hout hpure hin hsense hslot⟩)
      (by rw [hb.during.sight hpart]; exact hfield)
      (x := fun place => K.invoke.copyAt (K.info type) place (d.place.shift offset)) rfl
      (fun e => (callFailed s!"reading field failed: {e.message}").atNode n.id)
      "field output has no storage"
    exact Ensures.bind hfill fun _ c hc => ⟨hb.trans hc.2.amid, hc.2.fresh⟩

theorem agree_evaluate {pull pull' : Pull} (ha : K.During none a)
    (hsupplies : ∀ j ∈ n.dataIn, K.Supplies pull' pull j) :
    Agree (evaluate K.invoke pull' n) (evaluate K.invoke pull n) K.scope a
      (fun _ c => K.Amid a none c ∧ isFresh c.frame o = true)
      fun e c => K.holding o = none ∨ e.Starved c.machine := by
  unfold evaluate
  refine Agree.bind ⟨rfl, (amid_tick hK (.refl ha)).mono (fun _ _ h => h) fun e _ he => .inr (.inl he)⟩
    fun _ b hb => Agree.bind ⟨rfl, (amid_noteNode hK hb.1 _ n).mono (fun _ _ h => h)
      fun _ _ => False.elim⟩ fun _ c hc => ?_
  have hthen : ∀ {x y : Run Unit}, Agree x y K.scope c
      (fun _ d => K.Amid c none d ∧ isFresh d.frame o = true)
      (fun e d => K.holding o = none ∨ e.Starved d.machine) → Agree x y K.scope c
      (fun _ d => K.Amid a none d ∧ isFresh d.frame o = true)
      (fun e d => K.holding o = none ∨ e.Starved d.machine) := fun h =>
    h.mono (fun _ _ hd => ⟨hc.1.trans hd.1, hd.2⟩) fun _ _ he => he
  have hnone : (∀ f, n.op ≠ .call f) → (∀ offset type, n.op ≠ .fieldGet offset type) →
      K.holding o = none := by
    intro hcall hget
    obtain ⟨q, _, _, hq, rfl, -⟩ := hK.pin hn (.inr hout)
    unfold holding content
    simp only [hq, hn, hout, if_true, hpure]
  split
  · exact hthen (agree_callNode hK hn hpure hout ‹_› hc.1.during hsupplies)
  · exact hthen (agree_getField hK hn hpure hout ‹_› hc.1.during hsupplies)
  · exact ⟨rfl, .inl (hnone ‹_› ‹_›)⟩

end Run

end Flowscript
