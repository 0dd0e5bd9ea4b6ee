import Flowscript.Proofs.Run.LoopBodies

/-! # Counting loops count

A counting loop with constant bounds enters its body once for every index from the start up to the end, as
long as the body comes back to it, and goes on where it is completed. The body may leave it earlier.
-/
namespace Flowscript

open Run

namespace Course

variable {r : Course} {n : ProgramNode} {s e : Int} {S : List LoopMarker} {a : Activation} {ms : List Moment}

/-- A run of statements from a loop's first input to where the loop is completed, with the same loops running
as before. -/
structure Completes (r : Course) (n : ProgramNode) (S : List LoopMarker) (a : Activation) (ms : List Moment)
    (c : Activation) : Prop where
  runs : r.Runs (n.entering a) ms ⟨r.scope.program.follow n 1, c⟩
  driven : ∀ fuel, statements r.invoke r.ret (ms.length + fuel) n.flowIn[0]? r.scope a =
    statements r.invoke r.ret fuel (r.scope.program.follow n 1) r.scope c
  loops : c.frame.loops = S

theorem Runs.completes {c : Activation} (h : r.Runs (n.entering a) ms ⟨r.scope.program.follow n 1, c⟩)
    (hloops : c.frame.loops = S) : r.Completes n S a ms c := ⟨h, h.statements_eq, hloops⟩

/-- A counting loop with constant bounds, in a program of an edited graph, counts. If its body always comes
back, it is entered with every index from the start up to the end, and then the loop is completed. If its body
leads to the loop's second input when it is entered for some time, the loop is completed then. And a loop that is
entered anew each time the body begins counts as often. -/
theorem forLoop_counts {g : Graph} {c : Catalogue} {setting : Setting} (hg : g.Edited)
    (hp : Program.compile g c setting = .ok r.scope.program) (hn : r.Counting n s e) (ha : r.Enters n S a) :
    ((∀ ms b, r.Begins n (n.entering a) ms b → r.Returns n S (fun _ => True) b) →
      ∃ ms c, r.Completes n S a ms c ∧ r.entries n ms = indices s (e - s).toNat) ∧
    (∀ k, 0 < k → k ≤ (e - s).toNat →
      (∀ ms b, r.Begins n (n.entering a) ms b → (r.entries n ms).length < k → r.Returns n S (fun _ => True) b) →
      (∀ ms b, r.Begins n (n.entering a) ms b → (r.entries n ms).length = k → r.Breaks n S b) →
      ∃ ms c, r.Completes n S a ms c ∧ r.entries n ms = indices s k) ∧
    ∀ m s' e', r.Counting m s' e' → m.id ≠ n.id →
      (∀ ms b, r.Begins n (n.entering a) ms b → r.Nests n m S b) →
      ∃ ms c, r.Completes n S a ms c ∧ r.entries n ms = indices s (e - s).toNat ∧
        r.entries m ms = (List.replicate (e - s).toNat (indices s' (e' - s').toNat)).flatten ∧
        (r.entries m ms).length = (e - s).toNat * (e' - s').toNat := by
  have hformed := Program.wellFormed_of_compile hg hp
  have hin := Program.ownInputs_of_compile hg hp hn.node
  refine ⟨fun hreturns => ?_, fun k hpos hle hreturns hbreaks => ?_, fun m s' e' hm hne hnests => ?_⟩
  · obtain ⟨ms, c, hruns, hloops, htours⟩ := hn.completes hformed hin ha hreturns
    exact ⟨ms, c, hruns.completes hloops, htours.entries⟩
  · obtain ⟨k, rfl⟩ := Nat.exists_eq_add_one.mpr hpos
    have hk : s + k < e := by omega
    obtain ⟨ms, c, hruns, hloops, hentries⟩ := hn.breaks hformed hin ha k hk
      (fun ms b hb hle => hreturns ms b hb (Nat.lt_succ_of_le hle)) hbreaks
    exact ⟨ms, c, hruns.completes hloops, hentries⟩
  · have hin' := Program.ownInputs_of_compile hg hp hm.node
    obtain ⟨ms, c, hruns, hloops, htours⟩ := hn.completes hformed hin ha fun ms b hb =>
      hm.nests hformed hin' hne (hnests ms b hb)
    have hentries := htours.entries_other hne fun _ hround => hround
    refine ⟨ms, c, hruns.completes hloops, htours.entries, hentries, ?_⟩
    rw [hentries]
    simp

end Course

namespace Program

/-- A catalogue with nothing but an integer type. -/
def numbers : Catalogue where
  infos := #[{ TypeInfo.new "i32" ⟨4, 4⟩ with
    traits := { copy := true }
    codec := some (.native (.scalar (.int .i32))) }]
  index := (∅ : Std.HashMap TypeId Handle).insert (.ofName "i32") 0

theorem handleNamed?_numbers : numbers.handleNamed? "i32" = some 0 := by
  have hhandle : numbers.handle? (.ofName "i32") = some 0 := by simp [Catalogue.handle?, numbers]
  rw [Catalogue.handleNamed?, hhandle]
  rfl

theorem lookupName?_numbers : numbers.lookupName? "i32" = some (numbers.info 0) := by
  rw [Catalogue.lookupName?, handleNamed?_numbers]
  rfl

/-- Edits that add four loops. The second is the body of the first, and the fourth is the body of the third, which
it leaves. -/
def griddingEdits : List EditOp := [.addNode .entry, .addNode .forLoop, .addNode .forLoop, .addNode .forLoop,
  .addNode .forLoop,
  .addLink ⟨1⟩ ⟨2⟩, .addLink ⟨6⟩ ⟨9⟩, .addLink ⟨7⟩ ⟨16⟩, .addLink ⟨20⟩ ⟨23⟩,
    .addLink ⟨27⟩ ⟨17⟩,
  .setDefault ⟨4⟩ (some (.num (.int 0))), .setDefault ⟨5⟩ (some (.num (.int 2))),
  .setDefault ⟨11⟩ (some (.num (.int 1))), .setDefault ⟨12⟩ (some (.num (.int 3))),
  .setDefault ⟨18⟩ (some (.num (.int 0))), .setDefault ⟨19⟩ (some (.num (.int 5))),
  .setDefault ⟨25⟩ (some (.num (.int 0))), .setDefault ⟨26⟩ (some (.num (.int 1)))]

def gridding : Graph := griddingEdits.foldl (fun g op => op.apply numbers g) { name := "Grid" }

theorem edited_gridding : gridding.Edited := by
  refine .foldl_apply numbers griddingEdits (.new "Grid" {}) ?_
  unfold Graph.Numbered
  decide

def countingNode (id first : Nat) : ProgramNode :=
  { id := ⟨id⟩, label := "ForLoop", op := .forLoop, pure := false, flowIn := [⟨first⟩, ⟨first + 1⟩]
    flowOut := [⟨first + 4⟩, ⟨first + 5⟩], dataIn := [⟨first + 2⟩, ⟨first + 3⟩],
      dataOut := [⟨first + 6⟩] }

def countingPin (id storage : Nat) (k : Option Int) : ProgramPin :=
  { node := ⟨id⟩, type := some 0, form := .value, default := k.map fun k => .num (.int k), storage }

def countingPins (id storage : Nat) (s e : Int) (body completed : Option PinId) : List (Option ProgramPin) :=
  let flow (target : Option PinId) : ProgramPin :=
    { node := ⟨id⟩, type := none, form := .value, default := none, target, storage := 0 }
  [some (flow none), some (flow none), some (countingPin id storage (some s)),
    some (countingPin id (storage + 4) (some e)), some (flow body), some (flow completed),
    some (countingPin id (storage + 8) none)]

def griddingProgram : Program where
  name := "Grid"
  script := none
  nodes := #[some { id := ⟨1⟩, label := "Entry", op := .entry, pure := false, flowOut := [⟨1⟩] },
    some (countingNode 2 2), some (countingNode 3 9), some (countingNode 4 16), some (countingNode 5 23)]
  pins := (some { node := ⟨1⟩, type := none, form := .value, default := none, target := some ⟨2⟩,
                  storage := 0 } ::
    (countingPins 2 0 0 2 (some ⟨9⟩) (some ⟨16⟩) ++ countingPins 3 12 1 3 none none ++
      countingPins 4 24 0 5 (some ⟨23⟩) none ++ countingPins 5 36 0 1 (some ⟨17⟩) none)).toArray
  entry := ⟨1⟩
  returnNode := none
  result := none
  pure := false
  params := 0
  hasWorld := false
  thisType := none
  storage := ⟨48, 4⟩

def loopPins (id first : Nat) (s e : Int) : List Pin :=
  [⟨⟨first⟩, ⟨id⟩, .input, "Exec", .flow, none⟩,
    ⟨⟨first + 1⟩, ⟨id⟩, .input, "Break", .flow, none⟩,
    ⟨⟨first + 2⟩, ⟨id⟩, .input, "Start", .data "i32" .value, some (.num (.int s))⟩,
    ⟨⟨first + 3⟩, ⟨id⟩, .input, "End", .data "i32" .value, some (.num (.int e))⟩,
    ⟨⟨first + 4⟩, ⟨id⟩, .output, "Loop Body", .flow, none⟩,
      ⟨⟨first + 5⟩, ⟨id⟩, .output, "Completed", .flow, none⟩,
    ⟨⟨first + 6⟩, ⟨id⟩, .output, "Index", .data "i32" .value, none⟩]

set_option maxRecDepth 20000 in
theorem livePins_gridding : gridding.livePins =
    ⟨⟨1⟩, ⟨1⟩, .output, "Then", .flow, none⟩ ::
      (loopPins 2 2 0 2 ++ loopPins 3 9 1 3 ++ loopPins 4 16 0 5 ++
      loopPins 5 23 0 1) := rfl

theorem liveNodes_gridding : gridding.liveNodes =
    [{ id := ⟨1⟩, kind := .entry, firstPin := ⟨1⟩, pinCount := 1 },
      { id := ⟨2⟩, kind := .forLoop, firstPin := ⟨2⟩, pinCount := 7 },
      { id := ⟨3⟩, kind := .forLoop, firstPin := ⟨9⟩, pinCount := 7 },
      { id := ⟨4⟩, kind := .forLoop, firstPin := ⟨16⟩, pinCount := 7 },
      { id := ⟨5⟩, kind := .forLoop, firstPin := ⟨23⟩, pinCount := 7 }] := by
  decide +kernel

theorem checkNode_of_loopPins {g : Graph} (id first : Nat) (s e : Int)
    (hpins : g.nodePins ⟨id⟩ = loopPins id first s e)
    (hrange : g.rangeLeaves { id := ⟨id⟩, kind := .forLoop, firstPin := ⟨first⟩, pinCount := 7 } = false) :
    g.checkNode numbers { id := ⟨id⟩, kind := .forLoop, firstPin := ⟨first⟩, pinCount := 7 } = [] := by
  simp only [Graph.checkNode, hrange, hpins]
  simp [loopPins, NodeKind.expectedPins, PinSpec.fits, PinSpec.dataIn, PinSpec.dataOut, PinSpec.flowIn,
    PinSpec.flowOut, PinType.type?, lookupName?_numbers]

set_option maxRecDepth 20000 in
theorem findings_gridding : gridding.findings numbers = [] := by
  have hnode : ∀ n ∈ gridding.liveNodes, gridding.checkNode numbers n = [] := by
    rw [liveNodes_gridding]
    simp only [List.forall_mem_cons]
    exact ⟨rfl, checkNode_of_loopPins 2 2 0 2 rfl rfl, checkNode_of_loopPins 3 9 1 3 rfl rfl,
      checkNode_of_loopPins 4 16 0 5 rfl rfl, checkNode_of_loopPins 5 23 0 1 rfl rfl, List.forall_mem_nil _⟩
  rw [Graph.findings, List.flatMap_eq_nil_iff.mpr hnode]
  rfl

set_option maxRecDepth 20000 in
theorem compile_gridding : compile gridding numbers {} = .ok griddingProgram := by
  have herrors : gridding.errors numbers none = [] := by
    rw [Graph.errors, findings_gridding]
    rfl
  refine compile_eq_ok_iff.mpr ⟨edited_gridding.overflows_eq_false, herrors, ?_⟩
  simp only [assemble, livePins_gridding, liveNodes_gridding, loopPins, List.cons_append, List.nil_append,
    placePins, placePin, handleNamed?_numbers, compileNodes, compileNode, opOf, bind, Except.bind]
  rfl

end Program

namespace Course

def gridding : Course where
  invoke _ _ _ := throw .tooDeep
  ret := none
  scope := Program.griddingProgram.scope .own [] { catalogue := Program.numbers }

def started : Activation where
  frame := { slots := Array.replicate 29 {}, firstBlock := 0, base := 0, mark := 0 }
  machine := { memory := { next := 29 }, own := .new { maxSteps := 0xffffffff } }

open Program

theorem fit_started : gridding.Fit started := ⟨Nat.le_refl _, rfl⟩

theorem calls_gridding : (Conduct.free .counting gridding.scope.seat).pact.Calls fun _ => gridding.invoke :=
  fun _ _ _ => .throw _

theorem plain_of_defaults {r : Course} (hcatalogue : r.scope.context.catalogue = numbers) {id first storage : Nat}
    {s e : Int} (hnode : r.scope.program.node? ⟨id⟩ = some (countingNode id first))
    (hstart : r.scope.program.pin? ⟨first + 2⟩ = some (countingPin id storage (some s)))
    (hstop : r.scope.program.pin? ⟨first + 3⟩ = some (countingPin id (storage + 4) (some e)))
    (hs : IntKind.i32.contains s = true) (he : IntKind.i32.contains e = true) :
    r.Plain (countingNode id first) s e where
  node := hnode
  op := rfl
  start i hi := by
    cases hi
    exact ⟨_, 0, hstart, rfl, rfl, rfl, by rw [hcatalogue]; rfl, by rw [hcatalogue]; rfl, hs⟩
  stop i hi := by
    cases hi
    exact ⟨_, 0, hstop, rfl, rfl, rfl, by rw [hcatalogue]; rfl, by rw [hcatalogue]; rfl, he⟩
  apart := by simp [countingNode]
  first := hs
  last := he

theorem gridding_counts :
    Graph.Edited Program.gridding ∧ compile Program.gridding numbers {} = .ok gridding.scope.program ∧
      (∃ ms c, gridding.Completes (countingNode 3 9) [] started ms c ∧
        gridding.entries (countingNode 3 9) ms = [1, 2]) ∧
      (∃ ms c, gridding.Completes (countingNode 4 16) [] started ms c ∧
        gridding.entries (countingNode 4 16) ms = [0]) ∧
      ∃ ms c, gridding.Completes (countingNode 2 2) [] started ms c ∧
        gridding.entries (countingNode 2 2) ms = [0, 1] ∧ gridding.entries (countingNode 3 9) ms = [1, 2, 1, 2] := by
  have hformed := wellFormed_of_compile edited_gridding compile_gridding
  have hin : ∀ {n s e}, gridding.Plain n s e → gridding.scope.program.OwnInputs n :=
    fun hn => ownInputs_of_compile edited_gridding compile_gridding hn.node
  have houter : gridding.Plain (countingNode 2 2) 0 2 := plain_of_defaults rfl rfl rfl rfl (by decide) (by decide)
  have hinner : gridding.Plain (countingNode 3 9) 1 3 := plain_of_defaults rfl rfl rfl rfl (by decide) (by decide)
  have hleft : gridding.Plain (countingNode 4 16) 0 5 := plain_of_defaults rfl rfl rfl rfl (by decide) (by decide)
  have hleaving : gridding.Plain (countingNode 5 23) 0 1 := plain_of_defaults rfl rfl rfl rfl (by decide) (by decide)
  have hnone : ∀ {id : NodeId}, ∀ k ∈ ([] : List LoopMarker),
    k.node ≠ id := fun k hk => absurd hk List.not_mem_nil
  have hdue : ∀ n s e, gridding.Due n s e [] (n.entering started) := fun _ _ _ =>
    ⟨fit_started, .inl ⟨rfl, rfl⟩⟩
  refine ⟨edited_gridding, compile_gridding, ?_, ?_, ?_⟩
  · have hstart := hdue (countingNode 3 9) 1 3
    have henters : gridding.Enters (countingNode 3 9) [] started :=
      ⟨rfl, hnone, rfl, hstart.affords calls_gridding hformed hinner (hin hinner) hnone rfl⟩
    refine (forLoop_counts edited_gridding compile_gridding hinner.counting henters).1 fun ms b hb => ?_
    exact hstart.returns calls_gridding hformed hinner (hin hinner) hnone rfl hb trivial
  · have hstart := hdue (countingNode 4 16) 0 5
    have hinside : gridding.Inner (countingNode 4 16) (countingNode 5 23) [] := by
      refine ⟨by decide, hnone, ?_, rfl, ?_⟩ <;> simp [countingNode, Apart, LoopMarker.node]
    have henters : gridding.Enters (countingNode 4 16) [] started :=
      ⟨rfl, hnone, rfl, Leading.affords calls_gridding hformed hleft (hin hleft) hleaving (hin hleaving) hinside
        (by decide) rfl (.inl hstart)⟩
    refine (forLoop_counts edited_gridding compile_gridding hleft.counting henters).2.1 1 (by decide) (by decide)
      (fun ms b hb hlt => ?_) fun ms b hb _ => ?_
    · exact absurd hb.length_pos (Nat.not_lt.mpr (Nat.le_of_lt_succ hlt))
    · exact hstart.breaks calls_gridding hformed hleft (hin hleft) hleaving (hin hleaving) hinside (by decide) rfl hb
  · have hstart := hdue (countingNode 2 2) 0 2
    have hinside : gridding.Inner (countingNode 2 2) (countingNode 3 9) [] := by
      refine ⟨by decide, hnone, ?_, rfl, ?_⟩ <;> simp [countingNode, Apart, LoopMarker.node]
    have henters : gridding.Enters (countingNode 2 2) [] started :=
      ⟨rfl, hnone, rfl, Nested.affords calls_gridding hformed houter (hin houter) hinner (hin hinner) hinside rfl rfl
        (.inl hstart)⟩
    obtain ⟨ms, c, hcompletes, hentries, hother, -⟩ :=
      (forLoop_counts edited_gridding compile_gridding houter.counting henters).2.2 (countingNode 3 9) 1 3
        hinner.counting (by decide) fun ms b hb =>
          hstart.nests calls_gridding hformed houter (hin houter) hinner (hin hinner) hinside rfl rfl hb
    exact ⟨ms, c, hcompletes, hentries, hother⟩

end Course

end Flowscript
