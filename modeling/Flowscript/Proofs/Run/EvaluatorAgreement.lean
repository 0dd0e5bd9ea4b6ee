import Flowscript.Proofs.Run.SlotFilling

/-! # Evaluators deliver what is meant

Whatever an evaluator reuses of what was filled in this statement, it gives an input what the input is
meant to be given, or fails for want of a budget, or where nothing is meant. So two evaluators are given
the same.
-/
namespace Flowscript

namespace Program

def IsInput (p : Program) (id : PinId) : Prop := ∃ nid n, p.node? nid = some n ∧ id ∈ n.dataIn

end Program

namespace Juncture

variable {K : Juncture} (hK : K.Ready) {id o : PinId} {q : ProgramPin} {n : ProgramNode} {nid : NodeId}
include hK

namespace Ready

theorem lt_of_vol {block : Nat} (h : K.start.vol K.scope block) : block < K.memory.next := by
  obtain ⟨id, ⟨q, _, hq, -⟩, rfl⟩ := h
  have hbound : 0 < id.val ∧ id.val ≤ K.program.pins.size := slot?_bound hq
  have hroom := hK.room
  omega

theorem pin (hn : K.program.node? nid = some n) (hid : id ∈ n.dataIn ∨ id ∈ n.dataOut) :
    ∃ q handle slot, K.program.pin? id = some q ∧ q.node = nid ∧ q.type = some handle ∧
      K.kind id = some (K.info handle).id ∧ K.slot id = some slot := by
  obtain ⟨q, handle, hq, ht⟩ := hK.formed.data nid n hn id hid
  refine ⟨q, handle, ⟨K.start.frame.firstBlock + (id.val - 1), 0,
    .stack (K.start.frame.base + q.storage)⟩, hq, ?_, ht, ?_, ?_⟩
  · rcases hid with hin | hout
    · obtain ⟨-, q', hq', hnode⟩ := hK.typed.input nid n hn id hin
      rw [hq] at hq'
      cases hq'
      exact hnode
    · obtain ⟨q', hq', hnode⟩ := hK.typed.output nid n hn id hout
      rw [hq] at hq'
      cases hq'
      exact hnode
  · rw [kind, Program.typeOf, hq, Option.bind_some, ht, Option.map_some]
  · rw [slot, Frame.storage?, hq]
    simp only [ht, Option.isSome_some, if_true]

theorem holding_input (hn : K.program.node? nid = some n) (hid : id ∈ n.dataIn)
    (hq : K.program.pin? id = some q) : K.program.Volatile id ∧ K.holding id = K.fallback id q := by
  obtain ⟨hnot, q', hq', rfl⟩ := hK.typed.input nid n hn id hid
  rw [hq] at hq'
  cases hq'
  refine ⟨⟨q, n, hq, hn, fun hout => absurd hout hnot⟩, ?_⟩
  unfold holding content
  simp only [hq, hn, hnot, if_false]

theorem sense_unlinked (hq : K.program.pin? id = some q) (hsource : q.source = none) :
    K.sense id = (K.fallback id q).map (·.datum (K.slot id)) := by
  rw [sense_eq hK.formed, step]
  simp only [hq, hsource]

theorem sense_linked (hq : K.program.pin? id = some q) (hsource : q.source = some o) {r : ProgramPin}
    (hr : K.program.pin? o = some r) (hn : K.program.node? r.node = some n) (hop : n.op ≠ .reroute) :
    K.sense id = (K.holding o).map (·.datum (K.slot o)) := by
  rw [sense_eq hK.formed, step]
  simp only [hq, hsource, hr, Option.bind_some, hn]

theorem sense_rerouted (hq : K.program.pin? id = some q) (hsource : q.source = some o) {r : ProgramPin}
    (hr : K.program.pin? o = some r) (hn : K.program.node? r.node = some n) (hop : n.op = .reroute)
    {j : PinId} (hj : n.dataIn[0]? = some j) : K.sense id = K.sense j := by
  rw [sense_eq hK.formed id, step]
  simp only [hq, hsource, hr, Option.bind_some, hn, hop, hj]

end Ready

end Juncture

namespace Juncture

variable {K : Juncture} {a₀ a b : Activation} {m : Machine} {low high : Nat} {p : Param} {v : Value}
  {given : Given K.notion.Data} {args : List Value} {givens : List (Param × Given K.notion.Data)}
  {place : Place} {type : TypeId}

/-- Pulling an input in two ways gives what is meant, in both of them. -/
def Supplies (K : Juncture) (pull' pull : Run.Pull) (id : PinId) : Prop :=
  ∀ a, K.During none a → Agree (pull' id) (pull id) K.scope a
    (fun data b => K.Amid a none b ∧ K.Delivered b.frame id data)
    fun e b => K.sense id = none ∨ e.Starved b.machine

/-- An argument is as it is meant to be; a copy is newer than a block. -/
def Argued (K : Juncture) (b : Activation) (low : Nat) (p : Param) (v : Value) :
    Given K.notion.Data → Prop
  | .null => v = .null p.type p.form
  | .copy data => p.form.isOwning = true ∧ ∃ temp, v = .borrowed p.type p.form temp ∧
      low ≤ temp.block ∧ temp.block < b.machine.memory.next ∧
        K.notion.data b.machine.memory p.type temp = data
  | .shared d => p.form.isOwning = false ∧ v = .borrowed p.type p.form d.place ∧
      K.Anchored b.frame none p.type d

/-- All arguments are as they are meant to be; every copy is newer than those before it. -/
inductive Gathered (K : Juncture) (b : Activation) : Nat → List Value →
    List (Param × Given K.notion.Data) → Prop
  | nil {low : Nat} : Gathered K b low [] []
  | cons {low high : Nat} {p : Param} {v : Value} {given : Given K.notion.Data} {args : List Value}
    {givens : List (Param × Given K.notion.Data)} (hv : K.Argued b low p v given) (hle : low ≤ high)
    (hbelow : v.form.isOwning = true → ∀ place, v.place? = some place → place.block < high)
    (hrest : Gathered K b high args givens) : Gathered K b low (v :: args) ((p, given) :: givens)

namespace Argued

theorem plain (h : K.Argued b low p v given) :
    v = .null v.type v.form ∨ ∃ place, v = .borrowed v.type v.form place := by
  cases given with
  | null => obtain rfl := h; exact .inl rfl
  | copy data => obtain ⟨-, temp, rfl, -⟩ := h; exact .inr ⟨temp, rfl⟩
  | shared d => obtain ⟨-, rfl, -⟩ := h; exact .inr ⟨_, rfl⟩

theorem mono (h : K.Argued b high p v given) (hle : low ≤ high) : K.Argued b low p v given := by
  cases given with
  | null => exact h
  | copy data =>
    obtain ⟨hform, temp, heq, hlow, hrest⟩ := h
    exact ⟨hform, temp, heq, hle.trans hlow, hrest⟩
  | shared d => exact h

theorem onward (h : K.Argued a low p v given) (hK : K.Ready) (hlow : K.memory.next ≤ low)
    (hb : K.Onward none a b) : K.Argued b low p v given := by
  cases given with
  | null => exact h
  | copy data =>
    obtain ⟨hform, temp, heq, hle, hlt, hdata⟩ := h
    refine ⟨hform, temp, heq, hle, hlt.trans_le hb.beside.next, ?_⟩
    rw [← hdata, Notion.data, Notion.data, hb.beside.block _ hlt fun hvol => ?_]
    exact absurd (hK.lt_of_vol hvol) (Nat.not_lt.mpr (hlow.trans hle))
  | shared d => exact ⟨h.1, h.2.1, hb.anchored h.2.2⟩

theorem sight (h : K.Argued b low p v given) (hb : K.During none b) :
    K.notion.sight b.machine.memory v = given.sight K.notion p := by
  cases given with
  | null =>
    obtain rfl := h
    rw [Notion.sight, Given.sight]
    exact congrArg (Sight.mk _ _ · none) (ite_self none)
  | copy data =>
    obtain ⟨hform, temp, rfl, -, -, rfl⟩ := h
    rw [Notion.sight, Given.sight, Value.place?_borrowed]
    exact congrArg (Sight.mk _ _ · _) (if_pos hform)
  | shared d =>
    obtain ⟨hform, rfl, hanchored⟩ := h
    rw [Notion.sight, Given.sight, Value.place?_borrowed, Option.map_some]
    have howning : p.form.isOwning ≠ true := by rw [hform]; exact Bool.false_ne_true
    exact congr (congrArg (Sight.mk _ _) (if_neg howning)) (congrArg some (hb.data hanchored))

theorem shared (h : K.Argued b low p v given) (hform : v.form.isOwning = false)
    (hplace : v.place? = some place) :
    ∃ d, given = .shared d ∧ d.place = place ∧ K.Anchored b.frame none v.type d := by
  cases given with
  | null => obtain rfl := h; cases hplace
  | copy data =>
    obtain ⟨howning, _, rfl, -⟩ := h
    cases howning.symm.trans hform
  | shared d =>
    obtain ⟨-, rfl, hanchored⟩ := h
    rw [Value.place?_borrowed] at hplace
    exact ⟨d, rfl, Option.some.inj hplace, hanchored⟩

theorem copied (h : K.Argued b low p v given) (hform : v.form.isOwning = true)
    (hplace : v.place? = some place) : low ≤ place.block ∧ place.block < b.machine.memory.next := by
  cases given with
  | null => obtain rfl := h; cases hplace
  | copy data =>
    obtain ⟨-, temp, rfl, hle, hlt, -⟩ := h
    rw [Value.place?_borrowed] at hplace
    cases hplace
    exact ⟨hle, hlt⟩
  | shared d =>
    obtain ⟨hshared, rfl, -⟩ := h
    cases hshared.symm.trans hform

end Argued

namespace Gathered

theorem of_mem (h : K.Gathered b low args givens) (hv : v ∈ args) :
    ∃ g ∈ givens, K.Argued b low g.1 v g.2 := by
  induction h with
  | nil => cases hv
  | cons hfirst hle _ _ ih =>
    rcases List.mem_cons.mp hv with rfl | hv
    · exact ⟨_, List.mem_cons_self, hfirst⟩
    · obtain ⟨g, hg, hargued⟩ := ih hv
      exact ⟨g, List.mem_cons_of_mem _ hg, hargued.mono hle⟩

theorem anchored (h : K.Gathered b low args givens) {g : Param × Given K.notion.Data} (hg : g ∈ givens)
    {d : Datum} (hd : g.2 = .shared d) : K.Anchored b.frame none g.1.type d := by
  induction h with
  | nil => cases hg
  | cons hfirst _ _ _ ih =>
    rcases List.mem_cons.mp hg with rfl | hg
    · dsimp only at hd
      subst hd
      exact hfirst.2.2
    · exact ih hg

theorem sights (h : K.Gathered b low args givens) (hb : K.During none b) :
    args.map (K.notion.sight b.machine.memory) = givens.map fun g => g.2.sight K.notion g.1 := by
  induction h with
  | nil => rfl
  | cons hfirst _ _ _ ih => rw [List.map_cons, List.map_cons, ih, hfirst.sight hb]

theorem apart (h : K.Gathered b low args givens) :
    args.Pairwise fun u v => u.form.isOwning = true → v.form.isOwning = true →
      ∀ p q, u.place? = some p → v.place? = some q → p.block ≠ q.block := by
  induction h with
  | nil => exact .nil
  | cons _ _ hbelow hrest ih =>
    refine .cons (fun v hv hform hform' p q hp hq => ?_) ih
    obtain ⟨_, -, hargued⟩ := hrest.of_mem hv
    exact Nat.ne_of_lt ((hbelow hform p hp).trans_le (hargued.copied hform' hq).1)

/-- A reference that a function gives back for such arguments leads to an anchored datum. -/
theorem refer (h : K.Gathered b low args givens)
    (hplace : place.block < K.memory.next ∧ ¬ K.start.vol K.scope place.block ∨
      ∃ u ∈ args, u.form.isOwning = false ∧ ∃ source k, u.place? = some source ∧
        place.block = source.block ∧ place.offset = source.offset + k ∧ K.notion.lies u.type k type) :
    K.Anchored b.frame none type (K.refer givens place) := by
  have hheld : ∀ {c : Frame} {t : TypeId} {d : Datum}, K.Anchored c none t d →
      d.place.block = place.block → (∀ g ∈ givens, ∀ d', g.2 = .shared d' →
        d'.place.block = place.block → d'.held = d.held) ∧
      ((∀ g ∈ givens, ∀ d', g.2 = .shared d' → d'.place.block ≠ place.block) →
        K.memory.block place.block = d.held) → K.refer givens place = ⟨place, d.held⟩ := by
    intro c t d hd hblock ⟨hsame, hnone⟩
    unfold Juncture.refer
    congr 1
    cases hfound : givens.findSome? _ with
    | none =>
      rw [List.findSome?_eq_none_iff] at hfound
      refine hnone fun g hg d' hd' heq => ?_
      have hg := hfound g hg
      rw [hd'] at hg
      dsimp only at hg
      rw [if_pos heq] at hg
      cases hg
    | some held =>
      obtain ⟨g, hg, hfound⟩ := List.exists_of_findSome?_eq_some hfound
      split at hfound
      · rename_i d' hd'
        split at hfound
        · rename_i heq
          cases hfound
          exact hsame g hg d' hd' heq
        · cases hfound
      · cases hfound
  have hall : ∀ {c : Frame} {t : TypeId} {d : Datum}, K.Anchored c none t d →
      d.place.block = place.block → ∀ g ∈ givens, ∀ d', g.2 = .shared d' →
        d'.place.block = place.block → d'.held = d.held := fun hd hblock g hg d' hd' heq =>
    (h.anchored hg hd').held_eq hd (heq.trans hblock.symm)
  rcases hplace with hout | ⟨u, hu, hform, source, k, hsource, hblock, hoffset, hlies⟩
  · have hd : K.Anchored b.frame none type ⟨place, K.memory.block place.block⟩ := .inl ⟨hout, rfl⟩
    rw [hheld hd rfl ⟨hall hd rfl, fun _ => rfl⟩]
    exact hd
  · obtain ⟨g, hg, hargued⟩ := h.of_mem hu
    obtain ⟨d, hshared, rfl, hd⟩ := hargued.shared hform hsource
    rw [hheld hd hblock.symm ⟨hall hd hblock.symm, fun hnone =>
      absurd hblock.symm (hnone g hg d hshared)⟩]
    exact hd.within hblock hoffset fun whole start hwhole => hwhole.trans hlies

end Gathered

end Juncture

namespace Run

open Juncture

variable {K : Juncture} (hK : K.Ready) {a₀ a : Activation} {skip : Option PinId} {id : PinId} {slot : Place}
  {q : ProgramPin} {n : ProgramNode} {nid : NodeId}
include hK

section Fallback

variable (h : K.Amid a₀ none a) (hn : K.program.node? nid = some n) (hid : id ∈ n.dataIn)
  (hq : K.program.pin? id = some q) (hsource : q.source = none)
include h hn hid hq hsource

omit h in
theorem delivered_filled {b : Activation} {state : SlotState} (hb : K.Filled a₀ id state b) :
    K.Delivered b.frame id (b.frame.value? K.program id) := by
  obtain ⟨_, handle, _, -, -, -, hkind, -⟩ := hK.pin hn (.inl hid)
  obtain ⟨hvolatile, hhold⟩ := hK.holding_input hn hid hq
  exact .of_holds hb.amid.during hkind hkind (fun _ _ h => h)
    ((hK.sense_unlinked hq hsource).trans (by rw [hhold])) hvolatile hb.fresh

/-- A value that an input falls back to is constructed in its storage, or read into it. -/
theorem ensures_fillInput {d : Chore} (hd : d.Determined K.notion K.scope.context K.invoke)
    (hkind : K.kind id = some (d.type K.scope.context.catalogue))
    (hfallback : K.fallback id q = K.filled d id []) {x : Place → Exec CallError Unit}
    (hperform : ∀ place, d.perform K.scope.context.catalogue K.invoke [] (some place) =
      (x place >>= fun _ => Pure.pure none)) (f : CallError → ScriptError) (missing : String) :
    Ensures (fillOwned id missing fun place => lift f (x place)) K.scope a
      (fun data b => K.Amid a₀ none b ∧ K.Delivered b.frame id data)
      fun e b => K.sense id = none ∨ e.Starved b.machine := by
  obtain ⟨_, _, slot, -, -, -, -, hslot⟩ := hK.pin hn (.inl hid)
  obtain ⟨hvolatile, hhold⟩ := hK.holding_input hn hid hq
  refine (ensures_fillOwned hK h hvolatile hslot hd hkind [] (List.forall_mem_nil _)
    (hhold.trans hfallback) (hperform slot) f missing).mono ?_ fun e b he => he.imp_left fun hnone => ?_
  · rintro _ b ⟨rfl, hb⟩
    have hdata := delivered_filled hK hn hid hq hsource hb
    rw [Frame.value?, hb.state] at hdata
    exact ⟨hb.amid, (hb.amid.during.storage? id).trans hslot ▸ hdata⟩
  · rw [hK.sense_unlinked hq hsource, ← hhold, hnone]
    rfl

omit hn hid in
theorem delivered_outside {place : Place} {handle : Handle} (hkind : K.kind id = some (K.info handle).id)
    (hout : K.start.Outside K.scope place)
    (hfallback : K.fallback id q = some (.elsewhere ⟨place, K.memory.block place.block⟩)) :
    K.Amid a₀ none a ∧ K.Delivered a.frame id (some place) :=
  ⟨h, ⟨place, _⟩, _, (hK.sense_unlinked hq hsource).trans (by rw [hfallback]; rfl), rfl, hkind,
    .inl ⟨hout, rfl⟩⟩

theorem ensures_constructed {handle : Handle} (hkind : K.kind id = some (K.info handle).id)
    (hfallback : K.fallback id q = Juncture.fallback.constructed K id q handle) :
    Ensures (Run.fallback.constructed K.invoke id q (K.info handle)
        (a.machine.interpreter K.scope.seat).world) K.scope a
      (fun data b => K.Amid a₀ none b ∧ K.Delivered b.frame id data)
      fun e b => K.sense id = none ∨ e.Starved b.machine := by
  unfold Juncture.fallback.constructed at hfallback
  unfold Run.fallback.constructed
  rw [h.during.beside.world K.scope.seat]
  cases hworld : (K.start.machine.interpreter K.scope.seat).world.filter
      (·.1 == (K.info handle).id) with
  | some found =>
    obtain ⟨type, place⟩ := found
    rw [hworld] at hfallback
    exact delivered_outside hK h hq hsource hkind
      (hK.world _ _ (Option.filter_eq_some_iff.mp hworld).1) hfallback
  | none =>
    rw [hworld] at hfallback
    dsimp only at hfallback ⊢
    split
    · rename_i hdefault
      rw [if_pos hdefault] at hfallback
      exact ensures_fillInput hK h hn hid hq hsource (hK.constructs handle) hkind hfallback
        (fun _ => rfl) _ _
    · rename_i hdefault
      rw [if_neg hdefault] at hfallback
      obtain ⟨hvolatile, hhold⟩ := hK.holding_input hn hid hq
      split
      · rename_i hpointer
        rw [if_pos hpointer] at hfallback
        refine Ensures.bind ((ensures_setNull hK h hvolatile (fun _ hr => nomatch hr)
          (hhold.trans hfallback)).mono (fun _ _ hb => hb) fun _ _ => False.elim) fun _ b hb => ?_
        have hdata := delivered_filled hK hn hid hq hsource hb
        rw [Frame.value?, hb.state] at hdata
        exact ⟨hb.amid, hdata⟩
      · rename_i hpointer
        rw [if_neg hpointer] at hfallback
        exact .inl (by rw [hK.sense_unlinked hq hsource, hfallback]; rfl)

theorem ensures_fallback :
    Ensures (Run.fallback K.invoke id) K.scope a
      (fun data b => K.Amid a₀ none b ∧ K.Delivered b.frame id data)
      fun e b => K.sense id = none ∨ e.Starved b.machine := by
  obtain ⟨q', handle, slot, hq', -, ht, hkind, -⟩ := hK.pin hn (.inl hid)
  rw [hq] at hq'
  cases hq'
  refine .of_bind_ok (pin_ok hq) (.of_bind_ok (pinType_ok hq ht) (.of_bind_ok (b := K.scope) rfl ?_))
  cases hdefault : q.default with
  | some j =>
    have hfallback : K.fallback id q = K.filled (.decode handle j) id [] := by
      simp only [Juncture.fallback, ht, hdefault]
    exact ensures_fillInput hK h hn hid hq hsource (hK.decodes id q handle j hq ht hdefault) hkind hfallback
      (fun _ => rfl) _ _
  | none =>
    refine .of_bind_ok (b := a.machine.interpreter K.scope.seat) (t := a) rfl ?_
    cases hthis : K.scope.this with
    | none =>
      exact ensures_constructed hK h hn hid hq hsource hkind
        (by simp only [Juncture.fallback, ht, hdefault, hthis])
    | some this =>
      dsimp only
      split
      · rename_i htype
        exact delivered_outside hK h hq hsource hkind (hK.this this hthis)
          (by simp only [Juncture.fallback, ht, hdefault, hthis, htype, if_true])
      · rename_i htype
        exact ensures_constructed hK h hn hid hq hsource hkind
          (by simp only [Juncture.fallback, ht, hdefault, hthis, htype, if_false])

end Fallback

end Run

end Flowscript
