import Flowscript.Proofs.Run.PinArrangement
import Flowscript.Proofs.Run.SlotStamps

/-! # How often expressions are computed

While a statement runs, an expression that is not under way is fresh exactly if one of its outputs was asked
for, and then it was computed once. An expression that is under way was asked for and computed once, too;
its inputs do not lead back to it, so nothing that is pulled for it computes it again. After a statement
nothing is fresh. So in every statement an expression is computed once if it is asked for, and else not.
-/
namespace Flowscript

open Run

def Incident.asks (n : ProgramNode) : Incident → Bool
  | .asked output => n.dataOut.contains output
  | _ => false

def Incident.computes (n : ProgramNode) : Incident → Bool
  | .computed id => id == n.id
  | _ => false

def ProgramNode.isAsked (n : ProgramNode) (visit : List Incident) : Bool := visit.any (·.asks n)

def ProgramNode.evaluations (n : ProgramNode) (visit : List Incident) : Nat := visit.countP (·.computes n)

/-- Where an expression stands in a statement: it is not followed, it is not under way, it was asked for but
is still to be computed, it is being computed, or the statement is about to end. -/
inductive Stand where
  | unknown
  | idle
  | due
  | busy
  | spent
deriving DecidableEq

namespace Stand

def Tally (m : ProgramNode) (now : List Incident) : Stand → Prop
  | .unknown => True
  | .idle | .spent => m.evaluations now = (m.isAsked now).toNat
  | .due => m.isAsked now = true ∧ m.evaluations now = 0
  | .busy => m.isAsked now = true ∧ m.evaluations now = 1

def last : Stand → Stand
  | .idle => .spent
  | w => w

structure Suits (p : Program) (m : ProgramNode) (k : Nat) (now : List Incident) (w : Stand) (f : Frame) : Prop where
  loops : f.LoopsIn p
  clocked : w ≠ .unknown → f.Clocked p k
  fresh : w = .idle → ∀ o ∈ m.dataOut, isFresh f o = m.isAsked now

variable {p : Program} {m : ProgramNode} {k : Nat} {now : List Incident} {w : Stand}

theorem spares {id : PinId} (hid : w = .idle → id ∉ m.dataOut) : Frame.Spares (w.Suits p m k now) id := by
  refine fun f state h => ⟨Frame.loopsIn_set h.loops id state, fun hw => (h.clocked hw).set id state, ?_⟩
  intro hw o ho
  have hne : o ≠ id := by
    rintro rfl
    exact hid hw ho
  rw [Frame.isFresh_set_of_ne hne]
  exact h.fresh hw o ho

theorem Suits.congr {f f' : Frame} (h : w.Suits p m k now f) (hloops : f'.LoopsIn p) (hslots : f'.slots = f.slots)
    (hstatements : f'.statements = f.statements) : w.Suits p m k now f' := by
  refine ⟨hloops, fun hw => (h.clocked hw).congr hslots hstatements, fun hw o ho => ?_⟩
  rw [← h.fresh hw o ho]
  unfold isFresh Frame.isFilled Frame.state Frame.stamp?
  rw [hslots, hstatements]

end Stand

/-- Where an expression stands in a running call, and what was told of the statements before. -/
structure Telling.Stands (p : Program) (m : ProgramNode) (v : List (List Incident)) (w : Stand)
    (t : Telling) : Prop where
  visits : t.tale.visits = v
  frame : w.Suits p m v.length t.tale.now t.act.frame
  tally : w.Tally m t.tale.now

/-- A told computation takes an expression from one stand to another. It does not complete the statement. -/
def Takes (sc : Scope) (m : ProgramNode) (v : List (List Incident)) (w w' : Stand) {α : Type} (x : Told α)
    (R : α → Prop) : Prop :=
  ∀ t, t.Stands sc.program m v w →
    Ensures x sc t (fun r t' => t'.Stands sc.program m v w' ∧ R r) fun _ t' => t'.tale.visits = v

variable {α β : Type} {sc : Scope} {m : ProgramNode} {v : List (List Incident)} {w w' w'' : Stand}
  {R : α → Prop}

namespace Takes

theorem pure {r : α} (hr : R r) : Takes sc m v w w (Pure.pure r : Told α) R := fun _ ht => ⟨ht, hr⟩

theorem throw (e : ScriptError) : Takes sc m v w w' (MonadExcept.throw e : Told α) R := fun _ ht => ht.visits

theorem bind {S : β → Prop} {x : Told β} {f : β → Told α} (hx : Takes sc m v w w' x S)
    (hf : ∀ b, S b → Takes sc m v w' w'' (f b) R) : Takes sc m v w w'' (x >>= f) R := by
  intro t ht
  refine Ensures.bind (hx t ht) fun b t' h => ?_
  exact hf b h.2 t' h.1

theorem andThen {S : β → Prop} {x : Told β} {f : β → Told α} (hx : Takes sc m v w w' x S)
    (hf : ∀ b, Takes sc m v w' w'' (f b) R) : Takes sc m v w w'' (x >>= f) R := hx.bind fun b _ => hf b

theorem ite {c : Prop} [Decidable c] {x y : Told α} (hx : Takes sc m v w w' x R)
    (hy : Takes sc m v w w' y R) : Takes sc m v w w' (if c then x else y) R := by
  split
  · exact hx
  · exact hy

theorem of {x : Run α} (hx : ∀ now, Maintains (fun a => w.Suits sc.program m v.length now a.frame) sc x R) :
    Takes sc m v w w (Told.of x) R := by
  intro t ht
  have h := hx t.tale.now t.act ht.frame
  simp only [Ensures, Told.of] at h ⊢
  cases hr : x sc t.act with
  | ok r a => rw [hr] at h; exact ⟨⟨ht.visits, h.1, ht.tally⟩, h.2⟩
  | error e a => exact ht.visits

theorem lasts {x : Run α} (hx : ∀ now, Lasts (w.Suits sc.program m v.length now) sc x) :
    Takes sc m v w w (Told.of x) fun _ => True := of hx

theorem looks {x : Run α} (hx : Looks x) : Takes sc m v w w (Told.of x) fun _ => True := of fun _ => .looks hx

theorem pin (id : PinId) : Takes sc m v w w (Told.of (Run.pin id)) fun q => sc.program.pin? id = some q :=
  of fun _ => maintains_pin id

theorem node (id : NodeId) : Takes sc m v w w (Told.of (Run.node id)) fun n => sc.program.node? id = some n :=
  of fun _ => maintains_node id

theorem nth (pins : List PinId) (index : Nat) :
    Takes sc m v w w (Told.of (Run.nth pins index)) fun id => pins[index]? = some id :=
  of fun _ => maintains_nth pins index

theorem program : Takes sc m v w w (Told.of Run.program) fun p => p = sc.program :=
  of fun _ => maintains_program

theorem andFinally {x : Told α} (hx : Takes sc m v w w' x R) (after : Exec Empty Unit) :
    Takes sc m v w w' (x.andFinally after) R := by
  intro t ht
  have h := hx t ht
  simp only [Ensures, Told.andFinally] at h ⊢
  cases hr : x sc t with
  | ok r t' =>
    rw [hr] at h
    dsimp only
    cases after sc.context t'.act.machine with
    | ok u machine => exact ⟨⟨h.1.visits, h.1.frame, h.1.tally⟩, h.2⟩
    | error e machine => cases e
  | error e t' =>
    rw [hr] at h
    dsimp only
    cases after sc.context t'.act.machine with
    | ok u machine => exact h
    | error e machine => cases e

theorem withStack {x : Told α} (hx : Takes sc m v w w' x R) : Takes sc m v w w' x.withStack R := by
  refine (looks looks_interpreter).andThen fun i => ?_
  refine bind (S := fun s => s = sc) (fun t ht => ⟨ht, rfl⟩) ?_
  rintro s rfl
  exact hx.andFinally _

theorem tell {d : Incident} (hd : w = .unknown ∨ d.asks m = false ∧ d.computes m = false) :
    Takes sc m v w w (Told.tell d) fun _ => True := by
  intro t ht
  refine ⟨⟨ht.visits, ⟨ht.frame.loops, ht.frame.clocked, fun hw o ho => ?_⟩, ?_⟩, trivial⟩
  · obtain rfl | ⟨hasks, -⟩ := hd
    · cases hw
    · rw [ht.frame.fresh hw o ho]
      simp [ProgramNode.isAsked, hasks]
  · have htally := ht.tally
    obtain rfl | ⟨hasks, hcomputes⟩ := hd
    · trivial
    · cases w with
      | unknown => trivial
      | _ => simpa [Stand.Tally, ProgramNode.isAsked, ProgramNode.evaluations, hasks, hcomputes] using htally

theorem begin : Takes sc m v .due .busy (Told.tell (.computed m.id)) fun _ => True := by
  intro t ht
  obtain ⟨hasked, hnone⟩ := ht.tally
  refine ⟨⟨ht.visits, ⟨ht.frame.loops, fun _ => ht.frame.clocked nofun, nofun⟩, ?_, ?_⟩, trivial⟩
  · simpa [Incident.asks, ProgramNode.isAsked] using hasked
  · simpa [Incident.computes, ProgramNode.evaluations] using hnone

theorem fill {x : Run α} (hx : ∀ now, Lasts (Stand.busy.Suits sc.program m v.length now) sc x)
    (hfills : ∀ o ∈ m.dataOut, Fills o sc x) (hpins : ∀ o ∈ m.dataOut, ∃ q, sc.program.pin? o = some q) :
    Takes sc m v .busy .idle (Told.of x) fun _ => True := by
  intro t ht
  obtain ⟨hasked, hone⟩ := ht.tally
  have hlasts := hx t.tale.now t.act ht.frame
  have hknown : Stand.busy ≠ .unknown := fun h => by cases h
  simp only [Ensures, Told.of] at hlasts ⊢
  cases hr : x sc t.act with
  | error e a => exact ht.visits
  | ok r a =>
    rw [hr] at hlasts
    refine ⟨⟨ht.visits, ⟨hlasts.1.loops, fun _ => hlasts.1.clocked hknown, fun _ o ho => ?_⟩, ?_⟩, trivial⟩
    · obtain ⟨q, hq⟩ := hpins o ho
      rw [(hfills o ho t.act ((ht.frame.clocked hknown).mem_ids hq)).ok hr, hasked]
    · rw [Stand.Tally, hone, hasked]
      rfl

end Takes

namespace Told

variable {invoke : Invoke} {pull : PinId → Told (Option Place)} {n : ProgramNode}

section Node

variable (hpull : ∀ i ∈ n.dataIn, Takes sc m v w w (pull i) fun _ => True)
include hpull

theorem takes_withArguments {f : Function} (pins : List (Param × PinId)) (hpins : ∀ x ∈ pins, x.2 ∈ n.dataIn)
    {k : List Value → Told α} (hk : ∀ args, Takes sc m v w w (k args) R) :
    Takes sc m v w w (withArguments invoke pull n f pins k) R := by
  induction pins generalizing k with
  | nil => exact hk []
  | cons first rest ih =>
    obtain ⟨q, id⟩ := first
    obtain ⟨hid, hrest⟩ := List.forall_mem_cons.mp hpins
    refine (hpull id hid).andThen fun data => (Takes.looks (looks_pinType id)).andThen fun t => ?_
    cases data with
    | none => exact .ite (ih hrest fun args => hk _) (.throw _)
    | some source =>
      refine .ite ?_ (ih hrest fun args => hk _)
      refine (Takes.lasts fun now => (lasts_copyTemp invoke t source).mapError _).andThen fun temp => ?_
      exact (ih hrest fun args => hk _).andFinally _

theorem takes_makeCall (hout : ∀ o ∈ n.dataOut, w = .idle → o ∉ m.dataOut) (f : Function) :
    Takes sc m v w w (withStack (withArguments invoke pull n f (f.params.zip n.dataIn) (makeCall invoke n f)))
      fun _ => True := by
  refine (takes_withArguments hpull _ (fun x hx => (List.of_mem_zip hx).2) fun args => ?_).withStack
  refine (Takes.lasts fun now => lasts_resultStorage (fun o ho => Stand.spares (hout o ho)) _).andThen
    fun buffer => ?_
  refine (Takes.lasts fun now => Lasts.modifyInterpreter _).andThen fun _ => ?_
  refine Takes.bind (S := fun _ => True) (x := get) (fun t ht => ⟨ht, trivial⟩) fun t _ => ?_
  exact (Takes.tell (.inr ⟨rfl, rfl⟩)).andThen fun _ => .lasts fun now => Lasts.liftTotal _

theorem takes_pullTarget : Takes sc m v w w (pullTarget pull n) fun _ => True := by
  refine (Takes.nth n.dataIn 0).bind fun id hid => ?_
  refine (hpull id (List.mem_of_getElem? hid)).andThen fun data => ?_
  cases data with
  | none => exact .throw _
  | some place => exact .pure trivial

section Other

variable (hout : ∀ o ∈ n.dataOut, w = .idle → o ∉ m.dataOut)
include hout

theorem takes_callNode (f : Function) : Takes sc m v w w (callNode invoke pull n f) fun _ => True := by
  refine (takes_makeCall hpull hout f).andThen fun outcome => .lasts fun now => ?_
  exact lasts_settleCall (fun o ho => Stand.spares (hout o ho)) f outcome

theorem takes_getField (offset : Nat) (type : Handle) :
    Takes sc m v w w (getField invoke pull n offset type) fun _ => True := by
  refine (takes_pullTarget hpull).andThen fun source => .lasts fun now => ?_
  exact lasts_fillField invoke (fun o ho => Stand.spares (hout o ho)) offset type source

theorem takes_evaluate_other (hn : w = .unknown ∨ n.id ≠ m.id) :
    Takes sc m v w w (evaluate invoke pull n) fun _ => True := by
  refine (Takes.lasts fun _ => lasts_tick).andThen fun _ => ?_
  refine (Takes.lasts fun _ => lasts_noteNode _ n).andThen fun _ => ?_
  have hd : w = .unknown ∨ (Incident.computed n.id).asks m = false ∧ (Incident.computed n.id).computes m = false :=
    hn.imp_right fun hne => ⟨rfl, by simpa [Incident.computes] using hne⟩
  refine (Takes.tell hd).andThen fun _ => ?_
  unfold compute
  cases n.op with
  | call f => exact takes_callNode hpull hout f
  | fieldGet offset type => exact takes_getField hpull hout offset type
  | _ => exact .throw _

end Other

end Node

theorem takes_askOutput_other (hpull : n.pure = true → ∀ i ∈ n.dataIn, Takes sc m v w w (pull i) fun _ => True)
    (hout : ∀ o ∈ n.dataOut, w = .idle → o ∉ m.dataOut) (hn : w = .unknown ∨ n.id ≠ m.id) {o : PinId}
    (ho : w = .unknown ∨ o ∉ m.dataOut) :
    Takes sc m v w w (askOutput invoke pull n o) fun _ => True := by
  have hvalue : Takes sc m v w w (do return (← of Run.frame).value? (← of Run.program) o) fun _ => True :=
    (Takes.looks looks_frame).andThen fun _ => (Takes.looks looks_program).andThen fun _ => .pure trivial
  have hd : w = .unknown ∨ (Incident.asked o).asks m = false ∧ (Incident.asked o).computes m = false :=
    ho.imp_right fun hne => ⟨by simpa [Incident.asks] using hne, rfl⟩
  refine (Takes.tell hd).andThen fun _ => ?_
  split
  · rename_i hpure
    refine Takes.andThen (S := fun _ => True) ?_ fun _ => hvalue
    refine (Takes.looks looks_frame).andThen fun f => .ite ?_ (.pure trivial)
    exact takes_evaluate_other (hpull hpure) hout hn
  · exact (Takes.looks looks_frame).andThen fun f => .ite (.throw _) hvalue

section Own

variable (ha : sc.program.Arranged) (hm : sc.program.node? m.id = some m) (hexpr : m.IsExpression)
  (hpull : ∀ i ∈ m.dataIn, Takes sc m v .busy .busy (pull i) fun _ => True)
include ha hm hexpr hpull

theorem takes_compute : Takes sc m v .busy .idle (compute invoke pull m) fun _ => True := by
  have hpins : ∀ o ∈ m.dataOut, ∃ q, sc.program.pin? o = some q := by
    intro o ho
    obtain ⟨q, hq, -⟩ := ha.output _ m hm o ho
    exact ⟨q, hq⟩
  have hspares : ∀ now, ∀ o ∈ m.dataOut, Frame.Spares (Stand.busy.Suits sc.program m v.length now) o :=
    fun now o _ => Stand.spares nofun
  unfold compute
  obtain ⟨f, hop, -⟩ | ⟨offset, type, hop⟩ := hexpr
  · rw [hop]
    refine (takes_makeCall hpull (fun _ _ => nofun) f).andThen fun outcome => ?_
    refine .fill (fun now => lasts_settleCall (hspares now) f outcome) (fun o ho => ?_) hpins
    obtain ⟨hone, r, hr⟩ := ha.call _ m f hm hop o ho
    exact fills_settleCall o hone hr outcome
  · rw [hop]
    refine (takes_pullTarget hpull).andThen fun source => ?_
    refine .fill (fun now => lasts_fillField invoke (hspares now) offset type source) (fun o ho => ?_) hpins
    exact fills_fillField o invoke (ha.field _ m offset type hm hop o ho) offset type source

theorem takes_evaluate : Takes sc m v .due .idle (evaluate invoke pull m) fun _ => True := by
  refine (Takes.lasts fun _ => lasts_tick).andThen fun _ => ?_
  refine (Takes.lasts fun _ => lasts_noteNode _ m).andThen fun _ => ?_
  exact Takes.begin.andThen fun _ => takes_compute ha hm hexpr hpull

theorem takes_askOutput {o : PinId} (ho : o ∈ m.dataOut) :
    Takes sc m v .idle .idle (askOutput invoke pull m o) fun _ => True := by
  intro t ht
  have hasks : (Incident.asked o).asks m = true := by simpa [Incident.asks] using ho
  have hcomputes : (Incident.asked o).computes m = false := rfl
  have hasked : ∀ now, m.isAsked (.asked o :: now) = true := fun now => by
    simp [ProgramNode.isAsked, hasks]
  have hcount : ∀ now, m.evaluations (.asked o :: now) = m.evaluations now := fun now => by
    simp [ProgramNode.evaluations, hcomputes]
  have hvalue : Takes sc m v .idle .idle (do return (← of Run.frame).value? (← of Run.program) o) fun _ => True :=
    (Takes.looks looks_frame).andThen fun _ => (Takes.looks looks_program).andThen fun _ => .pure trivial
  have htally : m.evaluations t.tale.now = (m.isAsked t.tale.now).toNat := ht.tally
  have hfresh := ht.frame.fresh rfl
  simp only [askOutput, ha.pure _ m hm hexpr, if_true]
  refine Ensures.bind (P := fun _ t' => t' = ⟨t.act, ⟨t.tale.visits, .asked o :: t.tale.now⟩⟩) rfl ?_
  rintro - _ rfl
  refine Ensures.bind (P := fun _ t' => t'.Stands sc.program m v .idle) ?_ fun _ t' ht' => hvalue t' ht'
  show Ensures (refresh invoke pull m o) sc _ _ _
  unfold refresh
  refine Ensures.bind (P := fun f t' => f = t.act.frame ∧
    t' = ⟨t.act, ⟨t.tale.visits, .asked o :: t.tale.now⟩⟩) ⟨rfl, rfl⟩ ?_
  rintro f t' ⟨rfl, rfl⟩
  rw [hfresh o ho]
  cases hold : m.isAsked t.tale.now with
  | true =>
    refine ⟨ht.visits, ⟨ht.frame.loops, ht.frame.clocked, fun _ o' ho' => ?_⟩, ?_⟩
    · exact (hfresh o' ho').trans (hold.trans (hasked _).symm)
    · rw [Stand.Tally, hcount, hasked, htally, hold]
  | false =>
    refine (takes_evaluate ha hm hexpr hpull _ ?_).mono (fun _ _ h => h.1) fun _ _ h => h
    refine ⟨ht.visits, ⟨ht.frame.loops, fun _ => ht.frame.clocked nofun, nofun⟩, hasked _, ?_⟩
    rw [hcount, htally, hold]
    rfl

end Own

end Told

namespace Program

variable {p : Program} {c : Catalogue}

/-- What an input is given comes from a node, or from what that needs. -/
def Needs (p : Program) (i : PinId) (id : NodeId) : Prop :=
  ∃ j q o r, Relation.ReflTransGen p.Pulls i j ∧ p.pin? j = some q ∧ q.source = some o ∧
    p.pin? o = some r ∧ r.node = id

theorem Needs.head {i j : PinId} {id : NodeId} (hij : p.Pulls i j) (h : p.Needs j id) : p.Needs i id := by
  obtain ⟨k, q, o, r, hjk, hq, ho, hr, hid⟩ := h
  exact ⟨k, q, o, r, .head hij hjk, hq, ho, hr, hid⟩

theorem WellFormed.not_needs (hp : p.WellFormed c) {n : ProgramNode} (hn : p.node? n.id = some n)
    (hpure : n.pure = true) {j : PinId} (hj : j ∈ n.dataIn) : ¬ p.Needs j n.id := by
  rintro ⟨k, q, o, r, hjk, hq, ho, hr, hid⟩
  have hkj : p.Pulls k j := ⟨q, o, r, n, hq, ho, hr, hid ▸ hn, hpure, hj⟩
  exact hp.acyclic j (Relation.TransGen.tail' hjk hkj)

end Program

/-- An input that may be pulled: it is one of a node, and not given what is being computed. -/
structure Stand.Admits (p : Program) (m : ProgramNode) (w : Stand) (i : PinId) : Prop where
  stand : w = .unknown ∨ w = .idle ∨ w = .busy
  input : ∀ id n, p.node? id = some n → i ∉ n.dataOut
  apart : w = .busy → ¬ p.Needs i m.id

namespace Told

variable {invoke : Invoke} {c : Catalogue}

section Pulls

variable (hp : sc.program.WellFormed c) (ha : sc.program.Arranged) (hm : sc.program.node? m.id = some m)
  (hexpr : m.IsExpression)
include hp ha hm hexpr

section Step

variable {pull : PinId → Told (Option Place)}
  (hpull : ∀ w i, w.Admits sc.program m i → Takes sc m v w w (pull i) fun _ => True)
include hpull

theorem takes_pullOutput {i : PinId} (hi : w.Admits sc.program m i) {q : ProgramPin} {o : PinId}
    (hq : sc.program.pin? i = some q) (hsource : q.source = some o) :
    Takes sc m v w w (pullOutput invoke pull o) fun _ => True := by
  obtain ⟨r, n, hr, hn, ho⟩ := hp.source i q o hq hsource
  have hsuits := hp.suits r.node n hn
  have hid := hp.node_id r.node n hn
  have hadmits : n.pure = true → ∀ j ∈ n.dataIn, w.Admits sc.program m j := fun hpure j hj =>
    ⟨hi.stand, ha.input _ n hn j hj, fun hw hneeds =>
      hi.apart hw (.head ⟨q, o, r, n, hq, hsource, hr, hn, hpure, hj⟩ hneeds)⟩
  refine (Takes.pin o).bind fun r' hr' => ?_
  obtain rfl : r = r' := Option.some.inj (hr.symm.trans hr')
  refine (Takes.node r.node).bind fun n' hn' => ?_
  obtain rfl : n = n' := Option.some.inj (hn.symm.trans hn')
  have hask : n.op ≠ .reroute → Takes sc m v w w (askOutput invoke pull n o) fun _ => True := by
    intro hop
    by_cases hsame : n.id = m.id
    · obtain rfl : m = n := by
        rw [← hid, hsame, hm] at hn
        exact Option.some.inj hn
      obtain rfl | rfl | rfl := hi.stand
      · exact takes_askOutput_other (fun hpure j hj => hpull _ j (hadmits hpure j hj)) (fun _ _ h => by cases h)
          (.inl rfl) (.inl rfl)
      · refine takes_askOutput ha hm hexpr (fun j hj => hpull _ j ⟨.inr (.inr rfl), ha.input _ m hm j hj, ?_⟩) ho
        exact fun _ => hp.not_needs hm (ha.pure _ m hm hexpr) hj
      · exact absurd ⟨i, q, o, r, .refl, hq, hsource, hr, hid.symm⟩ (hi.apart rfl)
    · have hother := ha.apart hn hm (hid ▸ hsame)
      exact takes_askOutput_other (fun hpure j hj => hpull _ j (hadmits hpure j hj)) (fun o' ho' _ => hother o' ho')
        (.inr hsame) (.inr (hother o ho))
  cases hop : n.op with
  | reroute =>
    rw [Program.Suits, hop] at hsuits
    refine (Takes.nth n.dataIn 0).bind fun j hj => hpull w j ?_
    exact hadmits (hsuits.1 (List.ne_nil_of_mem ho)).1 j (List.mem_of_getElem? hj)
  | _ => exact hask fun h => by rw [hop] at h; cases h

theorem takes_pullStep {i : PinId} (hi : w.Admits sc.program m i) :
    Takes sc m v w w (pullStep invoke pull i) fun _ => True := by
  have hsupply : Takes sc m v w w (supply invoke pull i) fun _ => True := by
    refine (Takes.pin i).bind fun q hq => ?_
    cases hsource : q.source with
    | some o => exact takes_pullOutput hp ha hm hexpr hpull hi hq hsource
    | none => exact .lasts fun now => lasts_fallback invoke (Stand.spares fun _ => hi.input _ m hm)
  refine hsupply.andThen fun data => ?_
  exact (Takes.lasts fun _ => lasts_watchInput i data).andThen fun _ => .pure trivial

end Step

theorem takes_pullWithin (depth : Nat) (w : Stand) (i : PinId) (hi : w.Admits sc.program m i) :
    Takes sc m v w w (pullWithin invoke depth i) fun _ => True := by
  induction depth generalizing w i with
  | zero => exact .throw _
  | succ depth ih => exact takes_pullStep hp ha hm hexpr ih hi

theorem takes_pullInput {i : PinId} (hi : w.Admits sc.program m i) :
    Takes sc m v w w (pullInput invoke i) fun _ => True :=
  Takes.program.andThen fun _ => takes_pullWithin hp ha hm hexpr _ w i hi

theorem takes_pullAtom {i : PinId} (hi : w.Admits sc.program m i) (name : String) (prim : Prim) :
    Takes sc m v w w (pullAtom invoke i name prim) fun _ => True := by
  refine (takes_pullInput hp ha hm hexpr hi).andThen fun data => ?_
  cases data with
  | none => exact .throw _
  | some place =>
    refine (Takes.looks (looks_expectType i name)).andThen fun _ => ?_
    exact (Takes.looks looks_memory).andThen fun _ => .pure trivial

theorem takes_pullBool {i : PinId} (hi : w.Admits sc.program m i) :
    Takes sc m v w w (pullBool invoke i) fun _ => True :=
  (takes_pullAtom hp ha hm hexpr hi _ _).andThen fun _ => .pure trivial

theorem takes_pullInt {i : PinId} (hi : w.Admits sc.program m i) :
    Takes sc m v w w (pullInt invoke i) fun _ => True := by
  refine (takes_pullAtom hp ha hm hexpr hi _ _).andThen fun a => ?_
  cases a <;> exact .pure trivial

end Pulls

end Told

end Flowscript
