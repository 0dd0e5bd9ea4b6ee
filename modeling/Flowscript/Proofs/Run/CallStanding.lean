import Flowscript.Proofs.Run.SteadyCalls

/-! # Calls give back the standing

A call of a program is steady, so that after it the standing is what it was before, however the call
ended; and every function that is called meanwhile finds the world of the innermost call that has
one.
-/
namespace Flowscript

/-- The standing of a machine that runs a call on a seat. -/
def Standing.Inside (seat : Seat) (world : Option (TypeId × Place)) (depth : Nat) (s : Standing) :
    Prop :=
  s.current = some seat ∧ (s.stance seat).world = world ∧ (s.stance seat).depth = depth

variable {world : Option (TypeId × Place)} {depth : Nat}

def Conduct.inside (seat : Seat) (world : Option (TypeId × Place)) (depth : Nat) :
    Conduct Bool seat :=
  .whenever .any (fun m => m.standing.Inside seat world depth) fun hm h =>
    ⟨h.current.trans hm.1, h.world.trans hm.2.1, h.depth.trans hm.2.2⟩

namespace Program

variable {invoke invoke' : Invoke}

theorem inside_enter (p : Program) (seat : Seat) (args : List Value) (m : Machine) :
    (p.enter seat args m).standing.Inside seat
      ((p.worldOf args).getD (m.interpreter seat).world) ((m.interpreter seat).depth + 1) := by
  cases seat <;> exact ⟨rfl, rfl, rfl⟩

/-- A call of a program leaves the standing as it was, however it ends, and calls functions only
inside. -/
theorem agree_execute {p : Program} {seat : Seat} {args : List Value} {m : Machine}
    (h : invoke.Level (Standing.Inside seat ((p.worldOf args).getD (m.interpreter seat).world)
      ((m.interpreter seat).depth + 1)) invoke') (ret : Option Place) (w : Context) :
    Agree (p.execute invoke seat args ret) (p.execute invoke' seat args ret) w m
      (fun _ m' => m'.standing = m.standing) fun _ m' => m'.standing = m.standing := by
  let C := Conduct.inside seat ((p.worldOf args).getD (m.interpreter seat).world)
    ((m.interpreter seat).depth + 1)
  have hcalls : C.pact.Calls (either invoke invoke') := Invoke.Level.calls_iff.mp h
  have hrun := settles_execute (w := w) hcalls
    (fun m' hm' _ _ => C.lasts (p.inside_enter seat args m) hm') ret
  refine Settles.agree_iff.mp ((hrun.congr (.of_forall fun i => ?_)).mono (fun _ _ h => h.1)
    fun _ _ h => h.1)
  cases i <;> rfl

end Program

/-- The world inside of calls, the innermost first: that of the innermost call that has one, or else
the one outside of all of them. -/
def worldWithin (outside : Option (TypeId × Place)) : List Call → Option (TypeId × Place)
  | [] => outside
  | call :: calls => (call.program.worldOf call.args).getD (worldWithin outside calls)

def Standing.seat (s : Standing) : Seat := s.current.getD .spare

/-- Functions called at any depth leave the standing. With two kinds of native code that do the same
wherever they are called, the calls do the same. -/
theorem level_invokeUnder {native native' : List Call → Native}
    (hn : ∀ calls, (native calls).Confined) {S : List Call → Standing → Prop}
    (hS : ∀ calls p args s s', S calls s →
      s'.Inside s.seat ((Program.worldOf p args).getD (s.stance s.seat).world)
        ((s.stance s.seat).depth + 1) → S (⟨p, args⟩ :: calls) s')
    (hagree : ∀ calls invoke f args ret w (m : Machine), S calls m.standing →
      native calls invoke f args ret w m = native' calls invoke f args ret w m)
    (depth : Nat) (calls : List Call) :
    (invokeUnder native depth calls).Level (S calls) (invokeUnder native' depth calls) := by
  induction depth generalizing calls with
  | zero => exact fun _ _ _ _ _ _ => ⟨rfl, rfl⟩
  | succ depth ih =>
    intro f args ret w m hm
    have hnative : Agree (native calls (invokeUnder native depth calls) f args ret)
        (native' calls (invokeUnder native' depth calls) f args ret) w m
        (fun _ m' => m'.standing = m.standing) fun _ m' => m'.standing = m.standing := by
      have h := hn calls (S calls) _ _ (ih calls) f args ret w m hm
      exact ⟨h.1.trans (hagree calls _ f args ret w m hm), h.2⟩
    unfold invokeUnder
    cases f.check (args.map Value.argument) with
    | error e => exact ⟨rfl, rfl⟩
    | ok u =>
      cases f.body with
      | script number =>
        refine Agree.bind (P := fun _ m' => m' = m)
          ⟨rfl, readyProgram_ensures (fun _ _ => rfl) fun _ => rfl⟩ fun p m' hp => ?_
        obtain rfl := hp
        refine Agree.bind (P := fun r m'' => m'' = m' ∧ r = m') ⟨rfl, rfl, rfl⟩ fun r m'' hr => ?_
        obtain ⟨rfl, rfl⟩ := hr
        refine Agree.exec_mapError (Program.agree_execute (fun g args' ret' w' t ht => ?_) ret w)
        exact ih (⟨p, args⟩ :: calls) g args' ret' w' t (hS calls p args _ _ hm ht)
      | native op shape destructor => exact hnative
      | aggregate op whole => exact hnative
      | host host => exact hnative

theorem leaves_invokeUnder {native : List Call → Native} (hn : ∀ calls, (native calls).Confined)
    (depth : Nat) (calls : List Call) :
    (invokeUnder native depth calls).Level (fun _ => True) (invokeUnder native depth calls) :=
  level_invokeUnder (S := fun _ _ => True) hn (fun _ _ _ _ _ _ _ => trivial) (fun _ _ _ _ _ _ _ _ => rfl)
    depth calls

theorem Invoke.Level.calls {invoke : Invoke} (h : invoke.Level (fun _ => True) invoke) (seat : Seat) :
    (Conduct.free .any seat).pact.Calls fun _ => invoke := fun f args ret w m _ =>
  .const ((h f args ret w m trivial).2.mono (fun _ _ => Machine.kept_any_iff.mpr)
    fun _ _ => Machine.kept_any_iff.mpr)

/-- However a call of a program ends, the stack in use, the depth, the seat and the world of every
interpreter are afterwards what they were before, and the same holds of every call nested in it.
Whatever native code is called meanwhile finds itself on the same seat, as deep as calls are under
way, and in the world of the innermost of them that has one: what it would do elsewhere does not
matter. -/
theorem Program.execute_gives_back_standing (native : List Call → Native)
    (hn : ∀ calls, (native calls).Confined) (depth : Nat) (p : Program) (seat : Seat)
    (args : List Value) (ret : Option Place) (w : Context) (m : Machine) :
    Ensures (p.execute (invokeUnder native depth [⟨p, args⟩]) seat args ret) w m
      (fun _ m' => m'.standing = m.standing) (fun _ m' => m'.standing = m.standing) ∧
    (∀ calls f args ret w m, Ensures (invokeUnder native depth calls f args ret) w m
      (fun _ m' => m'.standing = m.standing) fun _ m' => m'.standing = m.standing) ∧
    ∀ native' : List Call → Native,
      (∀ calls invoke f args ret w (m' : Machine),
        m'.standing.Inside seat (worldWithin (m.interpreter seat).world calls)
          ((m.interpreter seat).depth + calls.length) →
        native calls invoke f args ret w m' = native' calls invoke f args ret w m') →
      p.execute (invokeUnder native depth [⟨p, args⟩]) seat args ret w m =
        p.execute (invokeUnder native' depth [⟨p, args⟩]) seat args ret w m := by
  have hleaves := leaves_invokeUnder hn depth
  refine ⟨?_, fun calls f args ret w m => (hleaves calls f args ret w m trivial).2, ?_⟩
  · exact (agree_execute (fun f args ret w m' _ => hleaves _ f args ret w m' trivial) ret w).2
  · intro native' hagree
    -- Inside of calls, counted from the machine outside, entering one more call stays inside.
    have hinside := level_invokeUnder hn
      (S := fun calls s => s.Inside seat (worldWithin (m.interpreter seat).world calls)
        ((m.interpreter seat).depth + calls.length))
      (fun calls p args s s' hs hs' => by
        have hseat : s.seat = seat := by rw [Standing.seat, hs.1]; rfl
        rw [hseat, hs.2.1, hs.2.2] at hs'
        exact hs') hagree depth
    exact (agree_execute (hinside [⟨p, args⟩]) ret w).1

namespace Program

def ringing : Program where
  name := "Ring"
  script := none
  nodes := #[some { id := ⟨1⟩, label := "Entry", op := .entry, pure := false, flowOut := [⟨1⟩] },
    some { id := ⟨2⟩, label := "Call", op := .call bell, pure := false, flowIn := [⟨2⟩], flowOut := [⟨3⟩] }]
  pins := #[some (flowPin 1 (some 2)), some (flowPin 2 none), some (flowPin 2 none)]
  entry := ⟨1⟩
  returnNode := none
  result := none
  pure := false
  params := 0
  hasWorld := true
  thisType := none
  storage := ⟨8, 4⟩
where
  bell : Function := { name := "Bell", params := [], result := none, pure := false, body := .script 0 }
  flowPin (node : Nat) (target : Option Nat) : ProgramPin :=
    { node := ⟨node⟩, type := none, form := .value, default := none, target := target.map (⟨·⟩), storage := 0 }

def tolling : Program :=
  { ringing with
    name := "Bell", script := some "Tower", hasWorld := false
    nodes := #[some { id := ⟨1⟩, label := "Entry", op := .entry, pure := false, flowOut := [⟨1⟩] },
      some { id := ⟨2⟩, label := "Return", op := .ret, pure := false, flowIn := [⟨2⟩] }] }

def failingFunction : EStateM.Result ScriptError Machine (Option Value) → Option String
  | .ok _ _ => none
  | .error e _ => e.location.function

/-- With a budget of one step the function fails inside of the event. -/
theorem ringing_gives_back_standing :
    let tower : Context := { bodies := #[⟨"Tower::Bell", .ready tolling⟩] }
    let brief : Machine := { own := .new { maxSteps := 1 } }
    let world : Value := .borrowed ⟨7⟩ .ptr ⟨0, 0, .apart 0⟩
    ∃ e m', ringing.execute (invokeUnder (fun _ => Native.builtin) 3 [⟨ringing, [world]⟩]) .own [world] none
        tower brief = .error e m' ∧ e.location.function = some "Bell" ∧ m'.standing = brief.standing := by
  intro tower brief world
  have hgives := (execute_gives_back_standing (fun _ => Native.builtin) (fun _ => Native.confined_builtin) 3 ringing
    .own [world] none tower brief).1
  have hfails : failingFunction (ringing.execute (invokeUnder (fun _ => Native.builtin) 3 [⟨ringing, [world]⟩]) .own
      [world] none tower brief) = some "Bell" := by
    rw [invokeUnder_builtin]
    decide +kernel
  cases hr : ringing.execute (invokeUnder (fun _ => Native.builtin) 3 [⟨ringing, [world]⟩]) .own [world] none tower
      brief with
  | ok v m' =>
    rw [hr] at hfails
    cases hfails
  | error e m' =>
    rw [hr] at hfails
    exact ⟨e, m', rfl, hfails, hgives.error hr⟩

end Program

end Flowscript
