import Flowscript.Proofs.Run.SlotContents

/-! # Filling slots

What a statement does with a slot: it empties the slot, constructs a value in its storage or finds a
reference, and fills it. Values are constructed as they are meant to be, since constructing is determined;
it fails only where nothing is meant to be there, or for want of a budget.
-/
namespace Flowscript

variable {ρ ε σ α β : Type}

theorem Agree.of_ok {x : ReaderT ρ (EStateM ε σ) β} {f g : β → ReaderT ρ (EStateM ε σ) α} {r : ρ} {s t : σ}
    {b : β} {Q : α → σ → Prop} {E : ε → σ → Prop} (hx : x r s = .ok b t)
    (h : Agree (f b) (g b) r t Q E) : Agree (x >>= f) (x >>= g) r s Q E := by
  unfold Agree Ensures
  rw [bind_of_ok hx, bind_of_ok hx]
  exact h

theorem Agree.of_eq {x y : ReaderT ρ (EStateM ε σ) α} {r : ρ} {s : σ} {Q : α → σ → Prop}
    {E : ε → σ → Prop} (h : x r s = y r s) (hy : Ensures y r s Q E) : Agree x y r s Q E := by
  refine ⟨h, ?_⟩
  unfold Ensures
  rw [h]
  exact hy

theorem Ensures.of_bind_ok {x : ReaderT ρ (EStateM ε σ) β} {f : β → ReaderT ρ (EStateM ε σ) α} {r : ρ}
    {s t : σ} {b : β} {Q : α → σ → Prop} {E : ε → σ → Prop} (hx : x r s = .ok b t)
    (h : Ensures (f b) r t Q E) : Ensures (x >>= f) r s Q E := by
  unfold Ensures
  rw [bind_of_ok hx]
  exact h

namespace Run

variable {sc : Scope} {a : Activation} {id : PinId} {q : ProgramPin}

theorem pin_ok (h : sc.program.pin? id = some q) : pin id sc a = .ok q a := by
  unfold pin
  rw [bind_of_ok (show program sc a = .ok sc.program a from rfl), h]
  rfl

theorem node_ok {id : NodeId} {n : ProgramNode} (h : sc.program.node? id = some n) :
    node id sc a = .ok n a := by
  unfold node
  rw [bind_of_ok (show program sc a = .ok sc.program a from rfl), h]
  rfl

theorem pinType_ok (h : sc.program.pin? id = some q) {handle : Handle} (ht : q.type = some handle) :
    pinType id sc a = .ok (sc.context.catalogue.info handle) a := by
  unfold pinType
  rw [bind_of_ok (pin_ok h), ht]
  rfl

theorem nth_ok {pins : List PinId} {index : Nat} (h : pins[index]? = some id) :
    nth pins index sc a = .ok id a := by
  unfold nth
  rw [h]
  rfl

theorem storage_ok {place : Place} (h : a.frame.storage? sc.program id = some place) (missing : String) :
    storage id missing sc a = .ok place a := by
  unfold storage
  rw [bind_of_ok (show storage? id sc a = .ok (some place) a from congrArg (EStateM.Result.ok · a) h)]
  rfl

end Run

namespace Machine

variable {own : Nat → Prop} {m m' : Machine}

/-- Where memory and the worlds stay, nothing is written. -/
theorem Beside.modifyInterpreter (m : Machine) (seat : Seat) {f : Interpreter → Interpreter}
    (hf : (f (m.interpreter seat)).world = (m.interpreter seat).world) :
    m.Beside own (m.modifyInterpreter seat f) := by
  refine ⟨?_, fun b _ _ => ?_, fun other => ?_, ?_, ?_⟩
  · rw [memory_modifyInterpreter]
  · rw [memory_modifyInterpreter]
  · by_cases hseat : other = seat
    · rw [hseat, interpreter_modifyInterpreter, hf]
    · rw [interpreter_modifyInterpreter_of_ne _ hseat]
  · cases seat <;> rfl
  · cases seat <;> rfl

theorem Beside.free (m : Machine) (b : Nat) :
    m.Beside (· = b) { m with memory := m.memory.free b } :=
  ⟨Nat.le_refl _, fun _ _ hne => m.memory.block_free_of_ne (Ne.symm hne), fun _ => rfl, rfl, rfl⟩

theorem Starved.congr (h : m.Starved)
    (hnested : ∀ seat, (m'.interpreter seat).nestedFailure = (m.interpreter seat).nestedFailure) :
    m'.Starved := by
  obtain ⟨seat, e, he, hbudget⟩ := h
  exact ⟨seat, e, (hnested seat).trans he, hbudget⟩

end Machine

namespace Exec

variable {w : Context} {m : Machine}

theorem ensures_endCharge (destructor : Option Destructor) (v : Charge) (own : Nat → Prop) :
    Ensures (endCharge destructor v : Exec ε Unit) w m
      (fun _ t => m.Beside own t ∧ t.memory = m.memory ∧
        ∀ seat, t.interpreter seat = m.interpreter seat) fun _ _ => False := by
  cases destructor with
  | none => exact ⟨⟨Nat.le_refl _, fun _ _ _ => rfl, fun _ => rfl, rfl, rfl⟩, rfl, fun _ => rfl⟩
  | some d => exact ⟨⟨Nat.le_refl _, fun _ _ _ => rfl, fun _ => rfl, rfl, rfl⟩, rfl, fun _ => rfl⟩

end Exec

namespace Juncture

variable {K : Juncture} {a₀ a b : Activation} {m : Machine} {skip : Option PinId} {id : PinId} {slot : Place}

/-- A later state of a statement, as seen from an earlier one. -/
structure Amid (K : Juncture) (a₀ : Activation) (skip : Option PinId) (a : Activation) : Prop where
  during : K.During skip a
  onward : K.Onward skip a₀ a
  origin : K.memory.next ≤ a₀.machine.memory.next

namespace Amid

theorem refl (h : K.During none a) : K.Amid a none a := ⟨h, .refl a, h.beside.next⟩

theorem trans (h : K.Amid a₀ none a) (h' : K.Amid a skip b) : K.Amid a₀ skip b :=
  ⟨h'.during, h.onward.trans h'.onward (fun _ hr => nomatch hr), h.origin⟩

theorem machine (h : K.Amid a₀ skip a) (hK : K.Ready) {own : Nat → Prop} (hm : a.machine.Beside own m)
    (hown : ∀ k, own k → a₀.machine.memory.next ≤ k ∨ ∃ r slot, skip = some r ∧
      K.program.Volatile r ∧ K.slot r = some slot ∧ slot.block = k) : K.Amid a₀ skip ⟨a.frame, m⟩ := by
  refine ⟨h.during.machine hK hm fun k hk => (hown k hk).imp_left h.origin.trans,
    h.onward.machine hm fun k hlt hk => ?_, h.origin⟩
  rcases hown k hk with hnew | ⟨r, slot, -, hr, hslot, rfl⟩
  · exact absurd hlt (Nat.not_lt.mpr hnew)
  · exact Ready.vol_of_slot hr hslot

theorem still (h : K.Amid a₀ skip a) (hK : K.Ready) (hm : a.machine.Beside (fun _ => False) m) :
    K.Amid a₀ skip ⟨a.frame, m⟩ := h.machine hK hm fun _ => False.elim

theorem release (h : K.Amid a₀ skip a) (hid : K.program.Volatile id)
    (hskip : ∀ r, skip = some r → r = id) :
    K.Amid a₀ (some id) ⟨a.frame.set id .empty, a.machine⟩ :=
  ⟨h.during.release hid hskip, h.onward.release hskip, h.origin⟩

theorem weaken (h : K.Amid a₀ skip a) (hskip : ∀ r, skip = some r → r = id) :
    K.Amid a₀ (some id) a :=
  ⟨h.during.weaken hskip, ⟨h.onward.beside, fun r hr hfresh =>
    (h.onward.fresh r hr hfresh).imp_right fun hs => hskip r hs ▸ rfl⟩, h.origin⟩

end Amid

structure Filled (K : Juncture) (a₀ : Activation) (id : PinId) (state : SlotState) (b : Activation) : Prop
    where
  amid : K.Amid a₀ none b
  fresh : Run.isFresh b.frame id = true
  state : b.frame.state id = state

theorem Amid.fill (h : K.Amid a₀ (some id) a) (hK : K.Ready) (hid : K.program.Volatile id)
    {state : SlotState} (hstate : state ≠ .empty)
    (hholds : K.Holds a.machine.memory a.frame (some id) id state) :
    K.Filled a₀ id state ⟨a.frame.set id state, a.machine⟩ := by
  have ⟨_, _, hq, _⟩ := hid
  have hmem := h.during.mem_ids hK hq
  refine ⟨⟨h.during.fill hK hid hstate hholds, h.onward.fill hmem hstate, h.origin⟩, ?_,
    Frame.state_set_self hmem⟩
  rw [Frame.isFresh_set_self hmem]
  exact bne_iff_ne.mpr hstate

theorem Anchored.lt (hK : K.Ready) {f : Frame} {type : TypeId} {d : Datum}
    (h : K.Anchored f skip type d) : d.place.block < K.memory.next := by
  rcases h with ⟨hout, -⟩ | ⟨_, _, _, -, -, -, hslot, hin, -⟩
  · exact hout.1
  · exact hin ▸ hK.slot_lt hslot

theorem During.sight (h : K.During none a) {handle : Handle} {d : Datum}
    (hd : K.Anchored a.frame none (K.info handle).id d) :
    [Value.borrowed (K.info handle).id .constRef d.place].map (K.notion.sight a.machine.memory) =
      [K.glance handle d] := by
  have hdata := h.data hd
  rw [List.map_singleton, Notion.sight, Value.place?_borrowed, Option.map_some]
  exact congrArg (fun data => [(⟨_, _, _, some data⟩ : Sight K.notion.Data)]) hdata

theorem During.handed (h : K.During skip a) (args : List Value) (ret : Option Place)
    (hargs : ∀ v ∈ args, v.form.isOwning = false ∧ ∃ place, v = .borrowed v.type v.form place ∧
      place.block < K.memory.next ∧ ∀ target, ret = some target → place.block ≠ target.block)
    (hret : ∀ target, ret = some target → target.block < a.machine.memory.next ∧
      (K.start.vol K.scope target.block ∨ K.memory.next ≤ target.block)) :
    K.start.machine.Handed (K.start.vol K.scope) a.machine args ret := by
  have hplace : ∀ v ∈ args, ∀ place, v.place? = some place → place.block < K.memory.next ∧
      ∀ target, ret = some target → place.block ≠ target.block := by
    intro v hv place hplace
    obtain ⟨-, source, heq, hrest⟩ := hargs v hv
    rw [heq, Value.place?_borrowed] at hplace
    cases hplace
    exact hrest
  have hshared : ∀ v ∈ args, v.form.isOwning = true → False := fun v hv howning =>
    Bool.false_ne_true ((hargs v hv).1.symm.trans howning)
  exact ⟨h.beside, fun v hv => .inr ⟨_, (hargs v hv).2.choose_spec.1⟩, fun v hv _ place hp =>
    (hplace v hv place hp).1, fun v hv howning => (hshared v hv howning).elim,
    List.pairwise_iff_forall_sublist.mpr fun hsub howning =>
      (hshared _ (hsub.subset List.mem_cons_self) howning).elim,
    fun target ht => ⟨(hret target ht).1, (hret target ht).2, fun v hv place hp =>
      (hplace v hv place hp).2 target ht⟩⟩

/-- What is constructed in given storage, or read into it, is what is meant to be there. -/
theorem ensures_built {d : Chore} (hd : d.Determined K.notion K.scope.context K.invoke)
    {fits : Option Place → Prop}
    (hfits : ∀ ret ret', fits ret → fits ret' → d.Rooms K.scope.context.catalogue ret ret')
    {x : Exec CallError Unit} {args : List Value} {target : Place}
    (hperform : d.perform K.scope.context.catalogue K.invoke args (some target) =
      (x >>= fun _ => Pure.pure none))
    (hm : K.start.machine.Handed (K.start.vol K.scope) m args (some target)) (htarget : fits (some target)) :
    Ensures x K.scope.context m
      (fun _ t => m.Beside (Writes args (some target)) t ∧
        K.built d fits (args.map (K.notion.sight m.memory)) =
          some (K.notion.data t.memory (d.type K.scope.context.catalogue) target))
      fun _ t => K.built d fits (args.map (K.notion.sight m.memory)) = none ∨ t.Starved := by
  have h := (hd.discreet _ _ m args _ hm).and (hd.means hfits hm htarget)
  rw [hperform, Ensures.bind_iff] at h
  refine h.mono (fun _ t ht => ⟨ht.1.1, ?_⟩) fun _ t ht => ht.2.imp_left fun hnone => ?_
  · rw [built, meaning, ht.2]
    rfl
  · rw [built, meaning, hnone]

end Juncture

namespace Run

open Juncture

variable {K : Juncture} (hK : K.Ready) {a₀ a : Activation} {skip : Option PinId} {id : PinId} {slot : Place}
include hK

theorem amid_tick (h : K.Amid a₀ skip a) :
    Ensures tick K.scope a (fun _ b => K.Amid a₀ skip b ∧ b.frame = a.frame)
      fun e _ => e.kind.isBudget = true := by
  simp only [tick, Ensures.bind_iff, Ensures.run_interpreter_iff]
  split
  · exact rfl
  · exact ⟨h.still hK (.modifyInterpreter _ _ rfl), rfl⟩

theorem amid_noteNode (h : K.Amid a₀ skip a) (message : String) (n : ProgramNode) :
    Ensures (noteNode message n) K.scope a (fun _ b => K.Amid a₀ skip b ∧ b.frame = a.frame)
      fun _ _ => False := by
  refine Ensures.bind_iff.mpr (Ensures.read_iff.mpr ?_)
  split
  · exact ⟨h, rfl⟩
  · refine Ensures.run_liftTotal_iff.mpr (Ensures.bind_iff.mpr (Ensures.read_iff.mpr ?_))
    split
    · split
      · exact ⟨h.still hK ⟨Nat.le_refl _, fun _ _ _ => rfl, fun _ => rfl, rfl, rfl⟩, rfl⟩
      · exact ⟨h, rfl⟩
    · exact ⟨h, rfl⟩

theorem amid_clear (h : K.Amid a₀ skip a) (hid : K.program.Volatile id)
    (hskip : ∀ r, skip = some r → r = id) :
    Ensures (clear id) K.scope a (fun _ b => K.Amid a₀ (some id) b ∧
      b.frame = a.frame.set id .empty ∧ b.machine.memory = a.machine.memory) fun _ _ => False := by
  have hempty := h.release hid hskip
  refine Ensures.bind_iff.mpr (Ensures.run_program_iff.mpr (Ensures.bind_iff.mpr
    (Ensures.run_frame_iff.mpr ?_)))
  dsimp only
  split
  · split
    · refine Ensures.bind_iff.mpr (Ensures.read_iff.mpr (Ensures.bind_iff.mpr
        (Ensures.run_liftTotal_iff.mpr ?_)))
      refine (Exec.ensures_endCharge _ _ fun _ => False).mono (fun _ t ht => ?_) fun _ _ => False.elim
      exact ⟨hempty.still hK ht.1, rfl, ht.2.1⟩
    · exact ⟨hempty, rfl, rfl⟩
  · exact ⟨hempty, rfl, rfl⟩

theorem amid_setOwned (h : K.Amid a₀ (some id) a) (hid : K.program.Volatile id)
    (howns : K.Owns a.machine.memory id) :
    Ensures (setOwned id) K.scope a (fun _ b => K.Filled a₀ id .owned b) fun _ _ => False := by
  have hset : ∀ care, K.Filled a₀ id .owned ⟨a.frame.set id .owned, { a.machine with care }⟩ :=
    fun care => (h.still hK (m := { a.machine with care })
      ⟨Nat.le_refl _, fun _ _ _ => rfl, fun _ => rfl, rfl, rfl⟩).fill hK hid
        (fun hstate => nomatch hstate) howns
  refine Ensures.bind_iff.mpr (Ensures.bind_iff.mpr (Ensures.read_iff.mpr (Ensures.bind_iff.mpr
    (Ensures.run_frame_iff.mpr (Ensures.pure_iff.mpr ?_)))))
  split
  · exact hset _
  · exact hset a.machine.care

theorem ensures_setBorrowed (h : K.Amid a₀ skip a) (hid : K.program.Volatile id)
    (hskip : ∀ r, skip = some r → r = id) {d : Datum} {root : TypeId}
    (hhold : K.holding id = some (.elsewhere d)) (hkind : K.kind id = some root)
    (hd : K.Anchored a.frame skip root d) :
    Ensures (setBorrowed id d.place) K.scope a (fun _ b => K.Filled a₀ id (.borrowed d.place) b)
      fun _ _ => False := by
  refine (amid_clear hK h hid hskip).bind fun _ b hb => ?_
  obtain ⟨hb, hframe, -⟩ := hb
  refine hb.fill hK hid (fun hstate => nomatch hstate) ⟨d, root, hhold, rfl, hkind, ?_⟩
  refine hd.mono fun r _ hr => ?_
  by_cases he : r = id
  · exact .inr (he ▸ rfl)
  · rw [hframe, Frame.isFresh_set_of_ne he]
    exact hr.imp_right fun hs => absurd (hskip r hs) he

theorem ensures_setNull (h : K.Amid a₀ skip a) (hid : K.program.Volatile id)
    (hskip : ∀ r, skip = some r → r = id) (hhold : K.holding id = some .null) :
    Ensures (setNull id) K.scope a (fun _ b => K.Filled a₀ id .null b) fun _ _ => False :=
  (amid_clear hK h hid hskip).bind fun _ _ hb =>
    hb.1.fill hK hid (fun hstate => nomatch hstate) hhold

theorem ensures_fillOwned (h : K.Amid a₀ none a) (hid : K.program.Volatile id)
    (hslot : K.slot id = some slot) {d : Chore} (hd : d.Determined K.notion K.scope.context K.invoke)
    (hkind : K.kind id = some (d.type K.scope.context.catalogue)) (args : List Value)
    (hargs : ∀ v ∈ args, v.form.isOwning = false ∧ ∃ place, v = .borrowed v.type v.form place ∧
      place.block < K.memory.next ∧ place.block ≠ slot.block)
    (hhold : K.holding id = K.filled d id (args.map (K.notion.sight a.machine.memory)))
    {x : Place → Exec CallError Unit}
    (hperform : d.perform K.scope.context.catalogue K.invoke args (some slot) =
      (x slot >>= fun _ => Pure.pure none)) (f : CallError → ScriptError) (missing : String) :
    Ensures (fillOwned id missing fun place => lift f (x place)) K.scope a
      (fun place b => place = some slot ∧ K.Filled a₀ id .owned b)
      fun e b => K.holding id = none ∨ e.Starved b.machine := by
  refine Ensures.bind ((amid_clear hK h hid fun _ hr => nomatch hr).mono (fun _ _ hb => hb)
    fun _ _ => False.elim) fun _ b hb => ?_
  obtain ⟨hb, -, hmemory⟩ := hb
  refine .of_bind_ok (storage_ok ((hb.during.storage? id).trans hslot) missing) ?_
  have hhanded : K.start.machine.Handed (K.start.vol K.scope) b.machine args (some slot) := by
    refine hb.during.handed args _ (fun v hv => ?_) ?_
    · obtain ⟨hform, place, heq, hlt, hne⟩ := hargs v hv
      exact ⟨hform, place, heq, hlt, by rintro _ ⟨⟩; exact hne⟩
    · rintro _ ⟨⟩
      exact ⟨(hK.slot_lt hslot).trans_le hb.during.beside.next, .inl (Ready.vol_of_slot hid hslot)⟩
  have hrooms : ∀ ret ret', ret = K.slot id → ret' = K.slot id → d.Rooms K.scope.context.catalogue ret ret' :=
    fun _ _ h h' => .inl (h.trans h'.symm)
  have hbuilt := ensures_built hd hrooms hperform hhanded hslot.symm
  rw [hmemory] at hbuilt
  refine Ensures.bind (P := fun _ c => K.Amid a₀ (some id) c ∧ K.Owns c.machine.memory id)
    (Ensures.run_lift_iff.mpr (hbuilt.mono (fun _ t ht => ?_) fun _ t ht => ?_)) fun _ c hc => ?_
  · obtain ⟨hbeside, hdata⟩ := ht
    refine ⟨hb.machine hK hbeside fun k hk => .inr ⟨id, slot, rfl, hid, hslot, ?_⟩, ?_⟩
    · rcases hk with ⟨_, ⟨⟩, hk⟩ | ⟨v, hv, howning, -⟩
      · exact hk
      · exact absurd howning (by rw [(hargs v hv).1]; exact Bool.false_ne_true)
    · refine ⟨_, slot, _, ?_, hslot, hkind, (Notion.look_sample (b := t.memory.block slot.block) ?_).symm⟩
      · rw [hhold, filled, hdata, Option.map_some]
      · rw [Notion.data, (Frame.block_of_storage? hslot).2.1]
  · refine ht.imp (fun hnone => ?_) .inr
    rw [hhold, filled, hnone, Option.map_none]
  · exact Ensures.bind ((amid_setOwned hK hc.1 hid hc.2).mono (fun _ _ h => h) fun _ _ => False.elim)
      fun _ _ hfilled => ⟨rfl, hfilled⟩

theorem ensures_allocTemp (h : K.Amid a₀ none a) (l : Layout) :
    Ensures (allocTemp l) K.scope a
      (fun temp b => K.Amid a₀ none b ∧ b.frame = a.frame ∧
        a.machine.Beside (fun _ => False) b.machine ∧ ∀ place, temp = some place →
          place.block = a.machine.memory.next ∧ place.block < b.machine.memory.next ∧
            place.Rounded l.align) fun _ _ => False := by
  refine allocTemp_ensures (fun _ => ⟨h, rfl, .refl _ _, fun _ hp => nomatch hp⟩)
    fun start stack hstack => ?_
  have hroom : a.machine.Beside (fun _ => False)
      { a.machine.modifyInterpreter K.scope.seat fun i => { i with stack } with
        memory := { a.machine.memory with next := a.machine.memory.next + 1 } } := by
    have hstack : a.machine.Beside (fun _ => False)
        (a.machine.modifyInterpreter K.scope.seat fun i => { i with stack }) := .modifyInterpreter _ _ rfl
    exact ⟨Nat.le_succ _, fun _ _ _ => rfl, hstack.world, hstack.current, hstack.counts⟩
  refine ⟨h.still hK hroom, rfl, hroom, ?_⟩
  rintro _ ⟨⟩
  refine ⟨rfl, Nat.lt_succ_self _, (a.machine.interpreter K.scope.seat).stack.used,
    congrArg Address.stack ?_⟩
  unfold BumpStack.alloc? at hstack
  dsimp only at hstack
  split at hstack
  · cases hstack
    rfl
  · cases hstack

theorem ensures_copyTemp (h : K.Amid a₀ none a) (handle : Handle) {d : Datum}
    (hd : K.Anchored a.frame none (K.info handle).id d) :
    Ensures (copyTemp K.invoke (K.info handle) d.place) K.scope a
      (fun temp b => K.Amid a₀ none b ∧ b.frame = a.frame ∧
        a.machine.Beside (fun _ => False) b.machine ∧
        a.machine.memory.next ≤ temp.block ∧ temp.block < b.machine.memory.next ∧
        K.built (.construct handle) (K.OnStack handle) [K.glance handle d] =
          some (K.notion.data b.machine.memory (K.info handle).id temp))
      fun e b => K.built (.construct handle) (K.OnStack handle) [K.glance handle d] = none ∨
        e.Starved b.machine := by
  refine Ensures.bind ((ensures_allocTemp hK h _).mono (fun _ _ hb => hb) fun _ _ => False.elim)
    fun temp b hb => ?_
  obtain ⟨hb, hframe, hroom, htemp⟩ := hb
  cases temp with
  | none => exact .inr (.inl rfl)
  | some temp =>
    obtain ⟨hblock, hlt, hrounded⟩ := htemp temp rfl
    have hnext := hblock ▸ h.onward.beside.next
    have hd' : K.Anchored b.frame none (K.info handle).id d := hframe ▸ hd
    have hne : d.place.block ≠ temp.block :=
      Nat.ne_of_lt ((hd.lt hK).trans_le (hblock ▸ h.during.beside.next))
    have hhanded := hb.during.handed [.borrowed (K.info handle).id .constRef d.place] (some temp)
      (List.forall_mem_singleton.mpr ⟨rfl, d.place, rfl, hd.lt hK, fun _ ht => Option.some.inj ht ▸ hne⟩)
      fun _ ht => Option.some.inj ht ▸ ⟨hlt, .inr (h.origin.trans hnext)⟩
    have hrooms : ∀ ret ret', K.OnStack handle ret → K.OnStack handle ret' →
        (Chore.construct handle).Rooms K.scope.context.catalogue ret ret' := by
      rintro _ _ ⟨target, rfl, htarget⟩ ⟨target', rfl, htarget'⟩
      exact .inr ⟨handle, target, target', rfl, rfl, rfl, htarget, htarget'⟩
    have hbuilt := ensures_built (hK.constructs handle) hrooms
      (x := K.invoke.copyAt (K.info handle) temp d.place) rfl hhanded ⟨temp, rfl, hrounded⟩
    rw [hb.during.sight hd'] at hbuilt
    have hown : ∀ k, Writes [.borrowed (K.info handle).id .constRef d.place] (some temp) k →
        k = temp.block := by
      rintro k (⟨_, ⟨⟩, hk⟩ | ⟨v, hv, howning, -⟩)
      · exact hk.symm
      · rw [List.mem_singleton.mp hv] at howning
        cases howning
    refine Ensures.bind_iff.mpr (Ensures.run_lift_iff.mpr (hbuilt.mono (fun _ t ht => ?_)
      fun _ _ ht => ht.imp_right .inr))
    obtain ⟨hbeside, hdata⟩ := ht
    have hcare : ∀ care, t.Beside (fun _ => False) { t with care } := fun care =>
      ⟨Nat.le_refl _, fun _ _ _ => rfl, fun _ => rfl, rfl, rfl⟩
    refine ⟨(hb.machine hK hbeside fun k hk => .inl (hown k hk ▸ hnext)).still hK (hcare _), hframe,
      (hroom.trans hbeside fun k hlt hk => ?_).trans (hcare _) fun _ _ => id, hblock.ge,
      hlt.trans_le hbeside.next, hdata⟩
    exact Nat.ne_of_lt hlt ((hown k hk).trans hblock)

end Run

end Flowscript
