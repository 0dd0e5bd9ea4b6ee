import Flowscript.Proofs.Run.VisitedNodes

/-! # Coming to a return

A call gives back what the input of a return holds: that of an expression at once, that of a function with
statements once it has come to it. Nothing but a return gives back a reference.
-/
namespace Flowscript

open Run

namespace Run

variable {sc : Scope} {a b : Activation}

theorem node?_of_node {id : NodeId} {n : ProgramNode} (h : node id sc a = .ok n b) :
    sc.program.node? id = some n ∧ b = a := by
  have hnode : Maintains (fun c => c = a) sc (node id) fun n => sc.program.node? id = some n := maintains_node id
  obtain ⟨hb, hn⟩ := (hnode a rfl).ok h
  exact ⟨hn, hb⟩

theorem pin?_of_pin {id : PinId} {q : ProgramPin} (h : pin id sc a = .ok q b) :
    sc.program.pin? id = some q ∧ b = a := by
  have hpin : Maintains (fun c => c = a) sc (pin id) fun q => sc.program.pin? id = some q := maintains_pin id
  obtain ⟨hb, hq⟩ := (hpin a rfl).ok h
  exact ⟨hq, hb⟩

end Run

namespace Course

/-- A call of a function is about to give back what the input of a return holds. -/
inductive AtReturn (r : Course) (args : List Value) (frame : Frame) (machine : Machine) (n : ProgramNode)
    (a : Activation) : Prop
  /-- An expression has bound its arguments. -/
  | expression {entry : ProgramNode} {id : NodeId} {b : Activation} (hpure : r.scope.program.pure = true)
    (hentry : r.scope.program.node? r.scope.program.entry = some entry)
    (hbind : bindArguments 0 entry.dataOut (args.drop r.scope.program.implicitArgs) r.scope ⟨frame, machine⟩ =
      .ok () b)
    (htick : tick r.scope b = .ok () a) (hreturn : r.scope.program.returnNode = some id)
    (hnode : r.scope.program.node? id = some n)
  /-- Statements have run up to the return. -/
  | statement {m v : Moment} {ms : List Moment} {t : PinId} {q : ProgramPin} {b : Activation}
    (hopens : r.Opens args frame machine m) (hruns : r.Runs m ms v) (hpatient : ms.length < patience)
    (harrival : arrival? v.next v.act.frame = some (.through t)) (htick : tick r.scope v.act = .ok () b)
    (hpin : r.scope.program.pin? t = some q) (hnode : r.scope.program.node? q.node = some n) (hop : n.op = .ret)
    (hnote : noteNode "Executing node" n r.scope b = .ok () a)

variable {r : Course} {c : Catalogue} {args : List Value} {frame : Frame} {machine : Machine} {n : ProgramNode}
  {a b : Activation}

theorem statement_of_ret {t : PinId} {q : ProgramPin} (hpin : r.scope.program.pin? t = some q)
    (hnode : r.scope.program.node? q.node = some n) (hop : n.op = .ret)
    (hnote : noteNode "Executing node" n r.scope b = .ok () a) :
    statement r.invoke r.ret (.through t) r.scope b =
      (finish r.invoke n r.ret >>= fun result => Pure.pure (.done result)) r.scope a := by
  rw [statement, bind_of_ok (pin_of_pin? hpin b), bind_of_ok (node_of_node? hnode b), bind_of_ok hnote, hop]

theorem AtReturn.body_eq (hp : r.scope.program.WellFormed c) (h : r.AtReturn args frame machine n a) :
    body r.invoke args r.ret r.scope ⟨frame, machine⟩ = finish r.invoke n r.ret r.scope a := by
  cases h with
  | expression hpure hentry hbind htick hreturn hnode =>
    have hprogram : (program : Run Program) r.scope ⟨frame, machine⟩ = .ok r.scope.program ⟨frame, machine⟩ :=
      rfl
    rw [body, bind_of_ok hprogram, bind_of_ok (node_of_node? hentry _), bind_of_ok hbind, hpure, if_pos rfl,
      bind_of_ok htick, hreturn]
    exact bind_of_ok (node_of_node? hnode a)
  | @statement m v ms t q b hopens hruns hpatient harrival htick hpin hnode hop hnote =>
    obtain ⟨fuel, hfuel⟩ : ∃ fuel, patience = ms.length + (fuel + 1) := ⟨patience - ms.length - 1, by omega⟩
    have hframe : (Run.frame : Run Frame) r.scope v.act = .ok v.act.frame v.act := rfl
    rw [hopens.body_eq hp, hfuel, hruns.statements_eq, statements, bind_of_ok hframe]
    simp only [harrival]
    rw [bind_of_ok htick]
    have hstatement := statement_of_ret hpin hnode hop hnote
    cases hfinish : finish r.invoke n r.ret r.scope a with
    | ok result b =>
      rw [bind_of_ok hfinish] at hstatement
      rw [bind_of_ok hstatement]
      rfl
    | error e b =>
      rw [bind_of_error hfinish] at hstatement
      rw [bind_of_error hstatement]

/-- A statement after which the call goes on, if it does not fail. -/
def Proceeding (sc : Scope) (x : Run Outcome) : Prop := ∀ a result b, x sc a ≠ .ok (.done result) b

namespace Proceeding

variable {sc : Scope}

theorem bind {β : Type} {x : Run β} {f : β → Run Outcome} (hf : ∀ v, Proceeding sc (f v)) :
    Proceeding sc (x >>= f) := fun a result b h => by
  obtain ⟨v, c, -, hrest⟩ := exists_of_bind_ok h
  exact hf v c result b hrest

theorem next (next : Option PinId) : Proceeding sc (Pure.pure (.next next)) := fun _ _ _ h => by cases h

theorem throw (e : ScriptError) : Proceeding sc (MonadExcept.throw e) := fun _ _ _ h => by cases h

end Proceeding

theorem exists_return {arrival : Arrival} {result : Option Value}
    (h : statement r.invoke r.ret arrival r.scope a = .ok (.done result) b) :
    ∃ t q n a', arrival = .through t ∧ r.scope.program.pin? t = some q ∧ r.scope.program.node? q.node = some n ∧
      n.op = .ret ∧ noteNode "Executing node" n r.scope a = .ok () a' ∧
      finish r.invoke n r.ret r.scope a' = .ok result b := by
  cases arrival with
  | again marker =>
    refine absurd h (Proceeding.bind (fun n => .bind fun _ => ?_) a result b)
    cases marker <;> exact .bind fun _ => .next _
  | through t =>
    obtain ⟨q, c, hpin, h₁⟩ := exists_of_bind_ok h
    obtain ⟨hq, rfl⟩ := pin?_of_pin hpin
    obtain ⟨n, d, hnode, h₂⟩ := exists_of_bind_ok h₁
    obtain ⟨hn, rfl⟩ := node?_of_node hnode
    obtain ⟨_, e, hnote, h₃⟩ := exists_of_bind_ok h₂
    have hgoes : ∀ {x : Run Outcome}, Proceeding r.scope x → x r.scope e ≠ .ok (.done result) b :=
      fun hx => hx e result b
    cases hop : n.op with
    | ret =>
      rw [hop] at h₃
      obtain ⟨value, d, hfinish, hdone⟩ := exists_of_bind_ok h₃
      cases hdone
      exact ⟨t, q, n, e, rfl, hq, hn, hop, hnote, hfinish⟩
    | call f =>
      rw [hop] at h₃
      exact absurd h₃ (hgoes (.bind fun _ => .bind fun _ => .bind fun _ => .next _))
    | fieldSet offset type =>
      rw [hop] at h₃
      exact absurd h₃ (hgoes (.bind fun _ => .bind fun _ => .bind fun _ => .next _))
    | branch =>
      rw [hop] at h₃
      exact absurd h₃ (hgoes (.bind fun _ => .bind fun _ => .bind fun _ => .bind fun _ => .next _))
    | forLoop | whileLoop =>
      rw [hop] at h₃
      exact absurd h₃ (hgoes (.bind fun _ => .next _))
    | reroute =>
      rw [hop] at h₃
      exact absurd h₃ (hgoes (.bind fun _ => .bind fun _ => .next _))
    | entry | fieldGet | comment =>
      rw [hop] at h₃
      exact absurd h₃ (hgoes (.throw _))

section References

variable {h : Handle} {form : Form} (hresult : r.scope.program.result = some (h, form)) (hform : form.isOwning = false)
  {place : Place} {u : Value} (hu : u.place? = some place)
include hresult hform hu

/-- A call that runs out of statements gives back no reference. -/
theorem finishEmpty_ne : finishEmpty r.invoke r.ret r.scope a ≠ .ok (some u) b := by
  have hnull : Ensures (finishEmpty r.invoke r.ret) r.scope a (fun v _ => ∀ u, v = some u → u.place? = none)
      fun _ _ => True := by
    refine Ensures.bind_iff.mpr (Ensures.run_program_iff.mpr ?_)
    rw [hresult]
    refine Ensures.bind_iff.mpr (Ensures.read_iff.mpr ?_)
    dsimp only
    rw [hform, Bool.not_false, Bool.true_or, if_pos rfl]
    split
    · rintro u hu
      cases hu
      rfl
    · trivial
  intro hok
  rw [hnull.ok hok u rfl] at hu
  cases hu

theorem exists_return_of_statements {fuel : Nat} {m : Moment}
    (hok : statements r.invoke r.ret fuel m.next r.scope m.act = .ok (some u) b) :
    ∃ ms v t q n b' a, r.Runs m ms v ∧ ms.length < fuel ∧ arrival? v.next v.act.frame = some (.through t) ∧
      tick r.scope v.act = .ok () b' ∧ r.scope.program.pin? t = some q ∧ r.scope.program.node? q.node = some n ∧
      n.op = .ret ∧ noteNode "Executing node" n r.scope b' = .ok () a ∧
      finish r.invoke n r.ret r.scope a = .ok (some u) b := by
  induction fuel generalizing m with
  | zero => cases hok
  | succ fuel ih =>
    have hframe : (Run.frame : Run Frame) r.scope m.act = .ok m.act.frame m.act := rfl
    rw [statements, bind_of_ok hframe] at hok
    cases harrival : arrival? m.next m.act.frame with
    | none =>
      rw [harrival] at hok
      exact absurd hok (finishEmpty_ne hresult hform hu)
    | some arrival =>
      simp only [harrival] at hok
      obtain ⟨_, c, htick, hok⟩ := exists_of_bind_ok hok
      obtain ⟨outcome, d, hstatement, hok⟩ := exists_of_bind_ok hok
      cases outcome with
      | done result =>
        cases hok
        obtain ⟨t, q, n, a, rfl, hq, hn, hop, hnote, hfinish⟩ := exists_return hstatement
        exact ⟨[], m, t, q, n, c, a, .refl m, Nat.succ_pos _, harrival, htick, hq, hn, hop, hnote, hfinish⟩
      | next next =>
        let m' : Moment := ⟨next, ⟨{ d.frame with statements := d.frame.statements + 1 }, d.machine⟩⟩
        have hstep : r.step? m = some m' := by
          rw [step?, outcome?, harrival, Option.map_some, bind_of_ok htick, hstatement]
        obtain ⟨ms, v, t, q, n, b', a, hruns, hlength, hrest⟩ := ih (m := m') hok
        exact ⟨m :: ms, v, t, q, n, b', a, .step hstep hruns, Nat.succ_lt_succ hlength, hrest⟩

/-- A reference that a call gives back comes from a return that it comes to. -/
theorem exists_atReturn (hp : r.scope.program.WellFormed c)
    (hfresh : ∃ before, r.scope.program.takeFrame r.scope.seat r.scope.context before = .ok frame machine)
    (hok : body r.invoke args r.ret r.scope ⟨frame, machine⟩ = .ok (some u) b) :
    ∃ n a, r.AtReturn args frame machine n a ∧ finish r.invoke n r.ret r.scope a = .ok (some u) b := by
  have hprogram : (program : Run Program) r.scope ⟨frame, machine⟩ = .ok r.scope.program ⟨frame, machine⟩ := rfl
  have hbody := hok
  rw [body, bind_of_ok hprogram] at hbody
  obtain ⟨entry, c, hread, hbound⟩ := exists_of_bind_ok hbody
  obtain ⟨hentry, rfl⟩ := node?_of_node hread
  obtain ⟨_, d, hbind, hrest⟩ := exists_of_bind_ok hbound
  cases hpure : r.scope.program.pure with
  | true =>
    rw [hpure, if_pos rfl] at hrest
    obtain ⟨_, e, htick, hends⟩ := exists_of_bind_ok hrest
    cases hreturn : r.scope.program.returnNode with
    | none =>
      rw [hreturn] at hends
      cases hends
    | some id =>
      rw [hreturn] at hends
      obtain ⟨n, e', hnode, hfinish⟩ := exists_of_bind_ok hends
      obtain ⟨hn, rfl⟩ := node?_of_node hnode
      exact ⟨n, _, .expression hpure hentry hbind htick hreturn hn, hfinish⟩
  | false =>
    have hopens : r.Opens args frame machine ⟨r.scope.program.follow entry 0, d⟩ :=
      ⟨hpure, hfresh, entry, hentry, hbind, rfl⟩
    rw [hopens.body_eq hp] at hok
    obtain ⟨ms, v, t, q, n, b', a, hruns, hlength, harrival, htick, hq, hn, hop, hnote, hfinish⟩ :=
      exists_return_of_statements hresult hform hu hok
    exact ⟨n, a, .statement hopens hruns hlength harrival htick hq hn hop hnote, hfinish⟩

end References

end Course

end Flowscript
