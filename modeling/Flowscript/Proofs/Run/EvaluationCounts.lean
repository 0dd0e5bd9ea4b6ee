import Flowscript.Proofs.Run.ExpressionTallies
import Flowscript.Proofs.Run.PullDepth

/-! # Expressions are computed once in every statement that asks for them

A statement keeps count of every expression, and a run of statements keeps the counts of all of them.
-/
namespace Flowscript

open Run

variable {α : Type} {sc : Scope} {m : ProgramNode} {v : List (List Incident)} {w : Stand} {R : α → Prop}

theorem Telling.Stands.last {t : Telling} (h : t.Stands sc.program m v w) : t.Stands sc.program m v w.last := by
  obtain ⟨hvisits, hframe, htally⟩ := h
  cases w with
  | idle => exact ⟨hvisits, ⟨hframe.loops, fun _ => hframe.clocked nofun, nofun⟩, htally⟩
  | _ => exact ⟨hvisits, hframe, htally⟩

/-- A statement that keeps the count of an expression, whether it goes on or is the last one. -/
def Concludes (sc : Scope) (m : ProgramNode) (v : List (List Incident)) (w : Stand) (x : Told Outcome) : Prop :=
  ∀ t, t.Stands sc.program m v w → Ensures x sc t
    (fun outcome t' => match outcome with
      | .next next => t'.Stands sc.program m v w ∧ sc.program.Leads next
      | .done _ => t'.Stands sc.program m v w.last)
    fun _ t' => t'.tale.visits = v

namespace Concludes

theorem throw (e : ScriptError) : Concludes sc m v w (MonadExcept.throw e) := fun _ ht => ht.visits

theorem bind {x : Told α} {f : α → Told Outcome} (hx : Takes sc m v w w x R)
    (hf : ∀ r, R r → Concludes sc m v w (f r)) : Concludes sc m v w (x >>= f) := by
  intro t ht
  refine Ensures.bind (hx t ht) fun r t' h => ?_
  exact hf r h.2 t' h.1

theorem next {x : Told (Option PinId)} (hx : Takes sc m v w w x fun next => sc.program.Leads next) :
    Concludes sc m v w (do return .next (← x)) := fun t ht => Ensures.bind (hx t ht) fun _ _ h => h

theorem done {x : Told (Option Value)} (hx : Takes sc m v w w.last x fun _ => True) :
    Concludes sc m v w (do return .done (← x)) := fun t ht => Ensures.bind (hx t ht) fun _ _ h => h.1

end Concludes

namespace Told

variable {invoke : Invoke} {c : Catalogue}

section Statement

variable (hp : sc.program.WellFormed c) (ha : sc.program.Arranged) (hm : sc.program.node? m.id = some m)
  (hexpr : m.IsExpression) (hw : w = .unknown ∨ w = .idle)
include hp

theorem takes_target (output : PinId) :
    Takes sc m v w w (of (target output)) fun next => sc.program.Leads next := by
  refine .of fun now => .look_pin fun q hq => .pure ?_
  intro t ht
  exact hp.target output q t hq ht

theorem takes_complete (n : ProgramNode) (completed : PinId) :
    Takes sc m v w w (of (complete n completed)) fun next => sc.program.Leads next := by
  refine .of fun now => ?_
  refine Maintains.andThen (y := modifyFrame (·.exitLoop n.id)) ?_ fun _ => .look_pin fun q hq => .pure ?_
  · refine Lasts.modifyFrame fun f hf => ?_
    have hloops := hf.loops.exitLoop n.id
    obtain ⟨loops, heq⟩ := f.exitLoop_eq n.id
    rw [heq] at hloops ⊢
    exact hf.congr hloops rfl rfl
  · intro t ht
    exact hp.target completed q t hq ht

variable {n : ProgramNode} {id : NodeId} (hn : sc.program.node? id = some n)

include hn in
omit hp in
theorem takes_enterLoop (marker : LoopMarker) (hmarker : marker.node = id) (hop : n.op = marker.op) :
    Takes sc m v w w (of (modifyFrame (·.enterLoop marker))) fun _ => True := by
  refine .lasts fun now => Lasts.modifyFrame fun f hf => ?_
  have hloops := hf.loops.enterLoop (hmarker ▸ hn) hop
  obtain ⟨loops, heq⟩ := f.enterLoop_eq marker
  rw [heq] at hloops ⊢
  exact hf.congr hloops rfl rfl

include ha hm hexpr hw hn

omit hp hm hexpr in
theorem admits_of_statement {i : PinId} (hi : i ∈ n.dataIn) : w.Admits sc.program m i := by
  refine ⟨hw.imp_right .inl, ha.input id n hn i hi, fun hbusy => ?_⟩
  rcases hw with rfl | rfl <;> cases hbusy

theorem takes_visitFor (hop : n.op = .forLoop) (hid : id ≠ m.id) (via : Option PinId) :
    Takes sc m v w w (visitFor invoke n via) fun next => sc.program.Leads next := by
  have hint : ∀ i ∈ n.dataIn, Takes sc m v w w (pullInt invoke i) fun _ => True := fun i hi =>
    takes_pullInt hp ha hm hexpr (admits_of_statement ha hw hn hi)
  have hturn : ∀ index body completed, Takes sc m v w w (turnFor invoke n index body completed)
      fun next => sc.program.Leads next := by
    intro index body completed
    refine (Takes.nth n.dataIn 1).bind fun i hi => (hint i (List.mem_of_getElem? hi)).andThen fun stop => ?_
    refine (Takes.looks (looks_readInt index)).andThen fun k => ?_
    exact .ite (takes_complete hp n completed) (takes_target hp body)
  have hwrite : ∀ index ∈ n.dataOut, ∀ k, Takes sc m v w w (of (writeInt index k)) fun _ => True :=
    fun index hindex k => .lasts fun now =>
      lasts_writeInt (Stand.spares fun _ => ha.apart hn hm hid index hindex) k
  refine (Takes.nth n.flowIn 1).andThen fun break' => (Takes.nth n.dataOut 0).bind fun index hindex => ?_
  refine (Takes.nth n.flowOut 0).andThen fun body => (Takes.nth n.flowOut 1).andThen fun completed => ?_
  have hindex := List.mem_of_getElem? hindex
  refine .ite (takes_complete hp n completed) ?_
  cases via with
  | some pin =>
    refine (Takes.nth n.dataIn 0).bind fun i hi => (hint i (List.mem_of_getElem? hi)).andThen fun start => ?_
    refine (hwrite index hindex start).andThen fun _ => ?_
    exact (takes_enterLoop hn (.forLoop n.id) (hp.node_id id n hn) hop).andThen fun _ => hturn index body completed
  | none =>
    refine (Takes.looks (looks_readInt index)).andThen fun k => ?_
    exact (hwrite index hindex _).andThen fun _ => hturn index body completed

theorem takes_visitWhile (hop : n.op = .whileLoop) (via : Option PinId) :
    Takes sc m v w w (visitWhile invoke n via) fun next => sc.program.Leads next := by
  refine (Takes.nth n.flowIn 1).andThen fun break' => (Takes.nth n.flowOut 0).andThen fun body => ?_
  refine (Takes.nth n.flowOut 1).andThen fun completed => .ite (takes_complete hp n completed) ?_
  have hturn : Takes sc m v w w (do
      if ← pullBool invoke (← of (nth n.dataIn 0)) then of (target body) else of (complete n completed))
      fun next => sc.program.Leads next := by
    refine (Takes.nth n.dataIn 0).bind fun i hi => ?_
    refine (takes_pullBool hp ha hm hexpr (admits_of_statement ha hw hn (List.mem_of_getElem? hi))).andThen
      fun condition => ?_
    exact .ite (takes_target hp body) (takes_complete hp n completed)
  split
  · exact (takes_enterLoop hn (.whileLoop n.id) (hp.node_id id n hn) hop).andThen fun _ => hturn
  · exact hturn

theorem takes_setField (offset : Nat) (type : Handle) :
    Takes sc m v w w (setField invoke n offset type) fun _ => True := by
  have hpull : ∀ i ∈ n.dataIn, Takes sc m v w w (pullInput invoke i) fun _ => True := fun i hi =>
    takes_pullInput hp ha hm hexpr (admits_of_statement ha hw hn hi)
  refine (takes_pullTarget hpull).andThen fun owner => (Takes.nth n.dataIn 1).bind fun i hi => ?_
  refine (hpull i (List.mem_of_getElem? hi)).andThen fun data => ?_
  cases data with
  | none => exact .throw _
  | some source => exact .lasts fun now => lasts_storeField invoke n offset type owner source

theorem takes_finish (ret : Option Place) :
    Takes sc m v w w.last (finish invoke n ret) fun _ => True := by
  refine Takes.program.andThen fun p => ?_
  cases p.result with
  | none => exact fun t ht => ⟨ht.last, trivial⟩
  | some result =>
    obtain ⟨h, form⟩ := result
    refine (Takes.looks .read).andThen fun s => (Takes.nth n.dataIn 0).bind fun i hi => ?_
    refine (takes_pullInput hp ha hm hexpr (admits_of_statement ha hw hn (List.mem_of_getElem? hi))).andThen
      fun value => ?_
    have hspares : ∀ now id, Frame.Spares (w.last.Suits sc.program m v.length now) id := fun now id =>
      Stand.spares (by rcases hw with rfl | rfl <;> nofun)
    have hback : Takes sc m v w.last w.last (of (giveBack invoke n ret (s.context.catalogue.info h) form i value))
        fun _ => True :=
      .lasts fun now => lasts_giveBack invoke (fun id f => hspares now id f .empty) n ret _ form i value
    exact fun t ht => hback t ht.last

omit hn in
theorem concludes_statement (ret : Option Place) {arrival : Arrival} (harrival : Arrives sc.program arrival) :
    Concludes sc m v w (statement invoke ret arrival) := by
  have hnote : ∀ message n, Takes sc m v w w (of (noteNode message n)) fun _ => True := fun message n =>
    .lasts fun _ => lasts_noteNode message n
  cases arrival with
  | again marker =>
    obtain ⟨n, hn, hop⟩ := harrival
    refine .bind (Takes.node marker.node) fun n' hn' => ?_
    obtain rfl : n = n' := Option.some.inj (hn.symm.trans hn')
    refine .bind (hnote _ n) fun _ _ => ?_
    cases marker with
    | forLoop id =>
      have hid : id ≠ m.id := by
        rintro rfl
        rw [LoopMarker.node, hm] at hn
        cases hn
        rcases hexpr with ⟨f, hf, -⟩ | ⟨offset, type, hf⟩ <;> rw [hf] at hop <;> cases hop
      exact .next (takes_visitFor hp ha hm hexpr hw hn hop hid none)
    | whileLoop id => exact .next (takes_visitWhile hp ha hm hexpr hw hn hop none)
  | through id =>
    obtain ⟨q, n, hq, hn, hin⟩ := harrival
    have hid : q.node ≠ m.id := by
      intro hid
      rw [hid, hm] at hn
      cases hn
      rw [ha.flowless _ m hm hexpr] at hin
      cases hin
    have hpull : ∀ i ∈ n.dataIn, Takes sc m v w w (pullInput invoke i) fun _ => True := fun i hi =>
      takes_pullInput hp ha hm hexpr (admits_of_statement ha hw hn hi)
    have hgo : ∀ pins index, Concludes sc m v w
        (do return Outcome.next (← of (target (← of (nth pins index))))) :=
      fun pins index => .bind (Takes.nth pins index) fun id _ => .next (takes_target hp id)
    refine .bind (Takes.pin id) fun q' hq' => ?_
    obtain rfl : q = q' := Option.some.inj (hq.symm.trans hq')
    refine .bind (Takes.node q.node) fun n' hn' => ?_
    obtain rfl : n = n' := Option.some.inj (hn.symm.trans hn')
    refine .bind (hnote _ n) fun _ _ => ?_
    cases hop : n.op with
    | ret => exact .done (takes_finish hp ha hm hexpr hw hn ret)
    | call f => exact .bind (takes_callNode hpull (fun o ho _ => ha.apart hn hm hid o ho) f) fun _ _ => hgo _ _
    | fieldSet offset type => exact .bind (takes_setField hp ha hm hexpr hw hn offset type) fun _ _ => hgo _ _
    | branch =>
      refine .bind (Takes.nth n.dataIn 0) fun i hi => ?_
      have hadmits : w.Admits sc.program m i := admits_of_statement ha hw hn (List.mem_of_getElem? hi)
      exact .bind (takes_pullBool hp ha hm hexpr hadmits) fun condition _ => hgo _ _
    | forLoop => exact .next (takes_visitFor hp ha hm hexpr hw hn hop hid _)
    | whileLoop => exact .next (takes_visitWhile hp ha hm hexpr hw hn hop _)
    | reroute => exact hgo _ _
    | entry => exact .throw _
    | fieldGet offset type => exact .throw _
    | comment => exact .throw _

end Statement

end Told

/-- Of the statements that can be told apart by their number, those that ask for an expression compute it
once, and the others do not. -/
def Balanced (m : ProgramNode) (visits : List (List Incident)) : Prop :=
  ∀ visit ∈ visits.reverse.take (2 ^ 32), m.evaluations visit = (m.isAsked visit).toNat

theorem Balanced.cons {now : List Incident} (h : Balanced m v)
    (hnow : v.length < 2 ^ 32 → m.evaluations now = (m.isAsked now).toNat) : Balanced m (now :: v) := by
  intro visit hvisit
  rw [List.reverse_cons, List.take_append] at hvisit
  rcases List.mem_append.mp hvisit with hold | hnew
  · exact h visit hold
  · obtain rfl := List.mem_singleton.mp (List.mem_of_mem_take hnew)
    refine hnow ?_
    by_contra hlong
    rw [List.length_reverse, Nat.sub_eq_zero_of_le (Nat.le_of_not_lt hlong)] at hnew
    cases hnew

/-- Nothing is known of an expression when the count of statements has started over. -/
def Stand.first (v : List (List Incident)) : Stand := if v.length < 2 ^ 32 then .idle else .unknown

theorem Stand.first_cases (v : List (List Incident)) :
    Stand.first v = .unknown ∨ Stand.first v = .idle := by
  unfold Stand.first
  split
  · exact .inr rfl
  · exact .inl rfl

structure Telling.Poised (p : Program) (m : ProgramNode) (v : List (List Incident)) (t : Telling) : Prop where
  now : t.tale.now = []
  stands : t.Stands p m v (.first v)
  balanced : Balanced m v

theorem Balanced.close {t : Telling} (ht : t.Stands sc.program m v (Stand.first v).last)
    (hv : Balanced m v) : Balanced m (t.tale.now :: t.tale.visits) := by
  rw [ht.visits]
  refine hv.cons fun hlt => ?_
  have htally := ht.tally
  rwa [Stand.first, if_pos hlt] at htally

namespace Told

theorem of_tale (x : Run α) (t : Telling) :
    Ensures (of x) sc t (fun _ t' => t'.tale = t.tale) fun _ t' => t'.tale = t.tale := by
  simp only [Ensures, of]
  cases x sc t.act <;> rfl

theorem poised_of {x : Run α}
    (hx : ∀ (w : Stand) now, Maintains (fun a => w.Suits sc.program m v.length now a.frame) sc x R) {t : Telling}
    (ht : t.Poised sc.program m v) :
    Ensures (of x) sc t (fun r t' => t'.Poised sc.program m v ∧ R r) fun _ t' => Balanced m t'.tale.visits := by
  refine ((Takes.of (hx _) t ht.stands).and (of_tale x t)).mono (fun r t' h => ?_) fun _ t' h => ?_
  · exact ⟨⟨by rw [h.2, ht.now], h.1.1, ht.balanced⟩, h.1.2⟩
  · rw [h.1]
    exact ht.balanced

variable {invoke : Invoke} {c : Catalogue} (hp : sc.program.WellFormed c) (ha : sc.program.Arranged)
  (hm : sc.program.node? m.id = some m) (hexpr : m.IsExpression)
include hp ha hm hexpr

theorem balanced_statements (ret : Option Place) (fuel : Nat) {next : Option PinId}
    (hnext : sc.program.Leads next) {t : Telling} (ht : t.Poised sc.program m v) :
    Ensures (statements invoke ret fuel next) sc t (fun _ t' => Balanced m t'.tale.visits)
      fun _ t' => Balanced m t'.tale.visits := by
  induction fuel generalizing next v t with
  | zero =>
    show Balanced m t.tale.visits
    rw [ht.stands.visits]
    exact ht.balanced
  | succ fuel ih =>
    have hkept : ∀ {t' : Telling}, t'.tale.visits = v → Balanced m t'.tale.visits := by
      intro t' hv
      rw [hv]
      exact ht.balanced
    refine Ensures.bind (P := fun f t' => f = t.act.frame ∧ t' = t) ⟨rfl, rfl⟩ ?_
    rintro f t ⟨rfl, rfl⟩
    cases harrival : arrival? next t.act.frame with
    | none =>
      refine (of_tale _ t).mono (fun _ t' h => hkept ?_) fun _ t' h => hkept ?_
      all_goals rw [h, ht.stands.visits]
    | some arrival =>
      have hstatement : Concludes sc m v (Stand.first v) (statement invoke ret arrival) :=
        concludes_statement hp ha hm hexpr (Stand.first_cases v) ret
          (arrives_of_arrival? ht.stands.frame.loops hnext harrival)
      refine Ensures.bind (poised_of (fun _ _ => lasts_tick) ht) ?_
      rintro - t₁ ⟨ht₁, -⟩
      refine Ensures.bind ((hstatement t₁ ht₁.stands).mono (fun _ _ h => h) fun _ _ => hkept) ?_
      intro outcome t₂ ht₂
      cases outcome with
      | done result => exact Balanced.close ht₂ ht.balanced
      | next next =>
        obtain ⟨ht₂, hleads⟩ := ht₂
        have hbalanced : Balanced m (t₂.tale.now :: v) := by
          have h := Balanced.close ht₂.last ht.balanced
          rwa [ht₂.visits] at h
        refine ih (v := t₂.tale.now :: v)
          (t := ⟨⟨{ t₂.act.frame with statements := t₂.act.frame.statements + 1 }, t₂.act.machine⟩,
            ⟨t₂.tale.now :: t₂.tale.visits, []⟩⟩) hleads ⟨rfl, ?_, hbalanced⟩
        by_cases hlt : (t₂.tale.now :: v).length < 2 ^ 32
        · have hlast : v.length < 2 ^ 32 := Nat.lt_of_succ_lt hlt
          have hclocked := ht₂.frame.clocked (by rw [Stand.first, if_pos hlast]; nofun)
          obtain ⟨hstep, hstale⟩ := hclocked.step hlt
          rw [Stand.first, if_pos hlt]
          exact ⟨by rw [ht₂.visits], ⟨ht₂.frame.loops, fun _ => hstep, fun _ o _ => hstale o⟩, rfl⟩
        · rw [Stand.first, if_neg hlt]
          exact ⟨by rw [ht₂.visits], ⟨ht₂.frame.loops, fun hw => absurd rfl hw, nofun⟩, trivial⟩

theorem balanced_body (args : List Value) (ret : Option Place) {t : Telling} (ht : t.Poised sc.program m []) :
    Ensures (body invoke args ret) sc t (fun _ t' => Balanced m t'.tale.visits)
      fun _ t' => Balanced m t'.tale.visits := by
  refine Ensures.bind (P := fun p t' => p = sc.program ∧ t' = t) ⟨rfl, rfl⟩ ?_
  rintro p t ⟨rfl, rfl⟩
  obtain ⟨entry, hentry⟩ := hp.entry
  refine Ensures.bind (poised_of (fun _ _ => maintains_node sc.program.entry) ht) ?_
  rintro n t₁ ⟨ht₁, hn⟩
  have hid : sc.program.entry ≠ m.id := by
    intro hid
    have hop := ha.entry n hn
    rw [hid, hm] at hn
    cases hn
    rcases hexpr with ⟨f, hf, -⟩ | ⟨offset, type, hf⟩ <;> rw [hf] at hop <;> cases hop
  have hbind : ∀ (w : Stand) now, Lasts (w.Suits sc.program m 0 now) sc
      (bindArguments 0 n.dataOut (args.drop sc.program.implicitArgs)) := fun w now =>
    lasts_bindArguments (fun o ho => Stand.spares fun _ => ha.apart hn hm hid o ho) 0 _
  refine Ensures.bind (poised_of hbind ht₁) ?_
  rintro - t₂ ⟨ht₂, -⟩
  split
  · refine Ensures.bind (poised_of (fun _ _ => lasts_tick) ht₂) ?_
    rintro - t₃ ⟨ht₃, -⟩
    cases sc.program.returnNode with
    | none =>
      show Balanced m t₃.tale.visits
      rw [ht₃.stands.visits]
      exact ht₃.balanced
    | some id =>
      refine Ensures.bind (poised_of (fun _ _ => maintains_node id) ht₃) ?_
      rintro n t₄ ⟨ht₄, hn⟩
      have hfinish : Takes sc m [] (Stand.first []) (Stand.first []).last (finish invoke n ret) fun _ => True :=
        takes_finish hp ha hm hexpr (Stand.first_cases []) hn ret
      refine Ensures.bind ((hfinish t₄ ht₄.stands).mono (fun _ _ h => h) fun _ _ hv => ?_) ?_
      · rw [hv]
        exact ht₄.balanced
      · rintro r t₅ ⟨ht₅, -⟩
        exact Balanced.close ht₅ ht₄.balanced
  · cases n.flowOut.head? with
    | some output =>
      refine Ensures.bind (poised_of (R := fun next => sc.program.Leads next) (fun w now => ?_) ht₂) ?_
      · exact .look_pin fun q hq => .pure fun id hid => hp.target output q id hq hid
      · rintro next t₃ ⟨ht₃, hnext⟩
        exact balanced_statements hp ha hm hexpr ret patience hnext ht₃
    | none => exact balanced_statements hp ha hm hexpr ret patience (fun _ hid => by cases hid) ht₂

end Told

/-- Of fewer statements than can be counted, each computes an expression once if it asks for one of its
outputs, and else does not. So the expression is computed as often as there are statements that ask for it. -/
def Tale.Counts (p : Program) (t : Tale) : Prop :=
  t.visits.length < 2 ^ 32 → ∀ id n, p.node? id = some n → n.IsExpression →
    (∀ visit ∈ t.visits, n.evaluations visit = (n.isAsked visit).toNat) ∧
      n.evaluations t.visits.flatten = t.visits.countP n.isAsked

theorem ProgramNode.evaluations_flatten (n : ProgramNode) {visits : List (List Incident)}
    (h : ∀ visit ∈ visits, n.evaluations visit = (n.isAsked visit).toNat) :
    n.evaluations visits.flatten = visits.countP n.isAsked := by
  induction visits with
  | nil => rfl
  | cons visit rest ih =>
    obtain ⟨hvisit, hrest⟩ := List.forall_mem_cons.mp h
    have happend : n.evaluations (visit :: rest).flatten = n.evaluations visit + n.evaluations rest.flatten := by
      rw [List.flatten_cons, evaluations, List.countP_append]
      rfl
    rw [happend, hvisit, ih hrest, List.countP_cons, Nat.add_comm]
    cases n.isAsked visit <;> rfl

theorem Program.takeFrame_poised {p : Program} (m : ProgramNode) (seat : Seat) (w : Context) (machine : Machine) :
    Ensures (p.takeFrame seat) w machine (fun f m' => Telling.Poised p m [] ⟨⟨f, m'⟩, {}⟩) fun _ _ => True := by
  simp only [takeFrame, Ensures.bind_iff, Ensures.get_iff]
  split
  · trivial
  · exact ⟨rfl, ⟨rfl, ⟨List.forall_mem_nil _, fun _ => Frame.clocked_replicate p _ _ _,
      fun _ o _ => Frame.isFresh_replicate _ _ _ _ o⟩, rfl⟩, List.forall_mem_nil _⟩

/-- However a program of an edited graph is run, whatever the functions it calls do, and whether it fails or
not: of its completed statements, if they are fewer than can be counted, each computes a pure call or a field
read once if it asks for its output, however often it does so, and else not at all. -/
theorem Program.evaluations_eq_visits {g : Graph} {c : Catalogue} {s : Setting} {p : Program} (hg : g.Edited)
    (hp : compile g c s = .ok p) (invoke : Invoke) (seat : Seat) (args : List Value) (ret : Option Place)
    (w : Context) {m m' : Machine} {frame : Frame} (hframe : p.takeFrame seat w m = .ok frame m') :
    Told.Retells (Told.body invoke args ret) (Run.body invoke args ret) ∧
      Ensures (Told.body invoke args ret) (p.scope seat args w) ⟨⟨frame, m'⟩, {}⟩
        (fun _ t => t.tale.Counts p) fun _ t => t.tale.Counts p := by
  refine ⟨Told.retells_body args ret, ?_⟩
  have hformed := wellFormed_of_compile hg hp
  have harranged := arranged_of_compile hg hp
  have hcounts : ∀ t : Tale, (∀ id n, p.node? id = some n → n.IsExpression → Balanced n t.visits) →
    t.Counts p := by
    intro t ht hfew id n hn hexpr
    have hall : ∀ visit ∈ t.visits, n.evaluations visit = (n.isAsked visit).toNat := by
      intro visit hvisit
      refine ht id n hn hexpr visit ?_
      rw [List.take_of_length_le (by rw [List.length_reverse]; exact Nat.le_of_lt hfew)]
      exact List.mem_reverse.mpr hvisit
    exact ⟨hall, n.evaluations_flatten hall⟩
  have hbalanced : ∀ id n, p.node? id = some n → n.IsExpression →
      Ensures (Told.body invoke args ret) (p.scope seat args w) ⟨⟨frame, m'⟩, {}⟩
        (fun _ t => Balanced n t.tale.visits) fun _ t => Balanced n t.tale.visits := by
    intro id n hn hexpr
    have hself : (p.scope seat args w).program.node? n.id = some n := hformed.node_id id n hn ▸ hn
    exact Told.balanced_body hformed harranged hself hexpr args ret ((takeFrame_poised n seat w m).ok hframe)
  unfold Ensures
  cases hr : Told.body invoke args ret (p.scope seat args w) ⟨⟨frame, m'⟩, {}⟩ with
  | ok r t => exact hcounts t.tale fun id n hn hexpr => (hbalanced id n hn hexpr).ok hr
  | error e t => exact hcounts t.tale fun id n hn hexpr => (hbalanced id n hn hexpr).error hr

/-- Both copies are asked for in both of two statements, the second copy twice in the first statement. -/
theorem Program.chained_evaluations_eq_visits :
    chained.Edited ∧ compile chained (worded comparings) {} = .ok chainedProgram ∧
      ∃ frame m' v t first second,
        chainedProgram.takeFrame .own { catalogue := worded comparings } holding = .ok frame m' ∧
        Told.body (invokeUnder (fun _ => Native.builtin) 2 [])
          [.borrowed (.ofName "T") .constRef ⟨0, 0, .apart 0⟩] none
          (chainedProgram.scope .own [.borrowed (.ofName "T") .constRef ⟨0, 0, .apart 0⟩]
            { catalogue := worded comparings }) ⟨⟨frame, m'⟩, {}⟩ = .ok v t ∧
        chainedProgram.node? ⟨2⟩ = some first ∧ first.IsExpression ∧
          chainedProgram.node? ⟨3⟩ = some second ∧
        second.IsExpression ∧ t.tale.Counts chainedProgram ∧ t.tale.visits.length = 2 ∧
        first.evaluations t.tale.visits.flatten = 2 ∧ second.evaluations t.tale.visits.flatten = 2 := by
  let args : List Value := [.borrowed (.ofName "T") .constRef ⟨0, 0, .apart 0⟩]
  let told := fun frame m' => Told.body (invokeUnder (fun _ => Native.builtin) 2 []) args none
    (chainedProgram.scope .own args { catalogue := worded comparings }) ⟨⟨frame, m'⟩, {}⟩
  let first : ProgramNode := { id := ⟨2⟩, label := "Call", op := .call copyWord, pure := true, dataIn := [⟨3⟩]
                               dataOut := [⟨4⟩] }
  let second : ProgramNode := { id := ⟨3⟩, label := "Call", op := .call copyWord, pure := true, dataIn := [⟨5⟩]
                                dataOut := [⟨6⟩] }
  have hruns : passes (chainedProgram.takeFrame .own { catalogue := worded comparings } holding) (fun frame m' =>
      passes (told frame m') fun _ t => t.tale.visits.length == 2 &&
        (first.evaluations t.tale.visits.flatten == 2 && second.evaluations t.tale.visits.flatten == 2)) = true := by
    decide +kernel
  refine ⟨edited_chained, compile_chained, ?_⟩
  cases htake : chainedProgram.takeFrame .own { catalogue := worded comparings } holding with
  | error e m' =>
    rw [htake] at hruns
    cases hruns
  | ok frame m' =>
    rw [htake, passes] at hruns
    have hcounts := (evaluations_eq_visits edited_chained compile_chained
      (invokeUnder (fun _ => Native.builtin) 2 []) .own args none { catalogue := worded comparings } htake).2
    cases htold : told frame m' with
    | error e t =>
      rw [htold] at hruns
      cases hruns
    | ok v t =>
      rw [htold, passes] at hruns
      obtain ⟨htwo, heval⟩ := Bool.and_eq_true_iff.mp hruns
      obtain ⟨hfirst, hsecond⟩ := Bool.and_eq_true_iff.mp heval
      exact ⟨frame, m', v, t, first, second, rfl, htold, rfl, .inl ⟨copyWord, rfl, rfl⟩, rfl,
        .inl ⟨copyWord, rfl, rfl⟩, hcounts.ok htold, eq_of_beq htwo, eq_of_beq hfirst, eq_of_beq hsecond⟩

end Flowscript
