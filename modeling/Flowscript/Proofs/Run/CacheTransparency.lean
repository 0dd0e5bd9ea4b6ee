import Flowscript.Proofs.Machine.NumberCopies
import Flowscript.Proofs.Run.AuditedStatements
import Flowscript.Proofs.Run.CallStanding
import Flowscript.Proofs.Run.OutlivingReferences

/-! # Caching does not change what is meant

A run that is audited, statement by statement, does what the run does, if what is done for expressions is
determined. Statements are not audited while a settled output refers to storage that is filled anew: an
expression may be filled again within a statement that goes on using what was computed from it.
-/
namespace Flowscript

namespace Program

variable {N : Notion} {p : Program} {seat : Seat} {args : List Value} {w : Context} {m : Machine}

/-- Caching does not change what is meant. In a run of a compiled program, every input that a statement
pulls is given what an evaluator without a cache would give it, from the same frame, arguments and worlds:
the same place, and the same data there. That holds if what is done for expressions is determined, as long
as no settled output holds a reference into storage that expressions fill; and for as many statements as
are counted. -/
theorem execute_as_uncached {native : List Call → Native} (hn : ∀ calls, (native calls).Confined)
    (hs : ∀ calls, (native calls).Settles) {g : Graph} {c : Catalogue} {s : Setting} (hedited : g.Edited)
    (hcompile : compile g c s = .ok p) (hc : c.Filed) (hw : w.catalogue.Filed)
    (hkeeps : c.Keeps w.catalogue) (hlies : c.Embeds N.lies) (depth : Nat) (calls : List Call)
    (hpure : ∀ id n f r, p.node? id = some n → n.pure = true → n.op = .call f → f.result = some r →
      (Chore.call f r.type).Determined N w (invokeUnder native depth calls))
    (hconstructs : ∀ h, (Chore.construct h).Determined N w (invokeUnder native depth calls))
    (hdecodes : ∀ id q h j, p.pin? id = some q → q.type = some h → q.default = some j →
      (Chore.decode h j).Determined N w (invokeUnder native depth calls)) (hm : m.Given seat args)
    (ret : Option Place) :
    p.executeWith (Run.auditedBody N (invokeUnder native depth calls)) seat args ret w m =
      p.execute (invokeUnder native depth calls) seat args ret w m := by
  have hlevel : ∀ calls, (invokeUnder native depth calls).Level (fun _ => True)
      (invokeUnder native depth calls) :=
    level_invokeUnder hn (fun _ _ _ _ _ _ _ => trivial) (fun _ _ _ _ _ _ _ _ => rfl) depth
  have hp : p.Determinate N w (invokeUnder native depth calls) :=
    ⟨(wellFormed_of_compile hedited hcompile).of_keeps hkeeps,
      typed_of_compile hedited hcompile hc hw hkeeps hlies, hpure, hconstructs, hdecodes⟩
  exact executeWith_audited hp (settles_invokeUnder hs depth calls) ((hlevel calls).calls seat) hm ret

/-- The expressions of a program copy numbers and move out of them, and inputs have no defaults. -/
structure Wordy (p : Program) : Prop where
  calls : ∀ n ∈ live p.nodes, n.pure = true → ∀ f, n.op = .call f → f = copyWord ∨ f = takeWord
  defaults : ∀ q ∈ live p.pins, q.default.isNone = true

theorem Wordy.determined (h : p.Wordy) (depth : Nat) (calls : List Call) {id : NodeId} {n : ProgramNode} {f : Function}
    {r : Param} (hn : p.node? id = some n) (hpure : n.pure = true) (hop : n.op = .call f) (hr : f.result = some r) :
    (Chore.call f r.type).Determined words w (invokeUnder (fun _ => Native.builtin) (depth + 1) calls) := by
  have hf := h.calls n (mem_live_iff.mpr ⟨_, hn⟩) hpure f hop
  have htype : r.type = .ofName "T" := by
    rcases hf with rfl | rfl <;>
      · cases hr
        rfl
  rw [htype]
  exact determined_word depth calls hf

theorem Wordy.default_eq_none (h : p.Wordy) {id : PinId} {q : ProgramPin} (hq : p.pin? id = some q) :
    q.default = none :=
  Option.isNone_iff_eq_none.mp (h.defaults q (mem_live_iff.mpr ⟨_, hq⟩))

theorem wordy_sampling : samplingProgram.Wordy := by
  refine ⟨fun n hn hpure f hop => ?_, by decide +kernel⟩
  simp only [live, samplingProgram, List.filterMap_cons, List.filterMap_nil, id_eq, List.mem_cons,
    List.not_mem_nil, or_false] at hn
  rcases hn with rfl | rfl | rfl <;> cases hop
  exact .inr rfl

/-- The function of the sample is determined, and so are constructors; inputs have no defaults. -/
theorem sampling_as_uncached :
    sampling.Edited ∧ compile sampling taking {} = .ok samplingProgram ∧
      ∃ v m', samplingProgram.execute (invokeUnder (fun _ => Native.builtin) 2 []) .own
          [.borrowed (.ofName "T") .value ⟨0, 0, .apart 0⟩] none { catalogue := taking } holding = .ok v m' ∧
        samplingProgram.executeWith (Run.auditedBody words (invokeUnder (fun _ => Native.builtin) 2 [])) .own
          [.borrowed (.ofName "T") .value ⟨0, 0, .apart 0⟩] none { catalogue := taking } holding =
            .ok v m' := by
  have hsucceeds : succeeds (samplingProgram.execute (invokeUnder (fun _ => Native.builtin) 2 []) .own
      [.borrowed (.ofName "T") .value ⟨0, 0, .apart 0⟩] none { catalogue := taking } holding) = true := by
    decide +kernel
  have hgiven : holding.Given .own [.borrowed (.ofName "T") .value ⟨0, 0, .apart 0⟩] := by
    refine ⟨List.forall_mem_singleton.mpr fun place hplace => ?_, fun _ _ h => by cases h⟩
    cases hplace
    exact Nat.one_pos
  have hconstructs : ∀ h, (Chore.construct h).Determined words { catalogue := taking }
      (invokeUnder (fun _ => Native.builtin) 2 []) := taking_eq_worded ▸ determined_construct 1 [] rfl
  have hsame := execute_as_uncached (fun _ => Native.confined_builtin) (fun _ => Native.settles_builtin)
    edited_sampling compile_sampling filed_worded (w := { catalogue := taking }) filed_worded (.refl taking)
    embeds_worded 2 [] (fun id n f r => wordy_sampling.determined 1 []) hconstructs
    (fun id q h j hq _ hj => by cases (wordy_sampling.default_eq_none hq).symm.trans hj) hgiven none
  refine ⟨edited_sampling, compile_sampling, ?_⟩
  cases hr : samplingProgram.execute (invokeUnder (fun _ => Native.builtin) 2 []) .own
      [.borrowed (.ofName "T") .value ⟨0, 0, .apart 0⟩] none { catalogue := taking } holding with
  | error e m' =>
    rw [hr] at hsucceeds
    cases hsucceeds
  | ok v m' => exact ⟨v, m', rfl, hsame.trans hr⟩

/-- A function that gives back a reference to its argument. -/
def pickWord : Function :=
  { name := "Pick", params := [⟨"other", .ofName "T", .constRef⟩]
    result := some (Function.resultParam (.ofName "T") .constRef), pure := false
    body := .host ⟨false, .argument 0, 0⟩ }

/-- A function that moves out of what its argument refers to. -/
def drainWord : Function :=
  { name := "Drain", params := [⟨"other", .ofName "T", .ref⟩]
    result := some (Function.resultParam (.ofName "T") .value), pure := false
    body := .native .moveConstruct wordShape none }

def seeWords : Function :=
  { name := "See"
    params := [⟨"p", .ofName "T", .constRef⟩, ⟨"q", .ofName "T", .constRef⟩, ⟨"r", .ofName "T", .constRef⟩]
    result := none, pure := false, body := .host ⟨false, .nothing, 0⟩ }

def keepings : List (FunctionKey × List Function) :=
  [(.ofName "Construct", [copyWord]), (.operator .construct, [copyWord]), (.ofName "Pick", [pickWord]),
    (.ofName "Drain", [drainWord]), (.ofName "See", [seeWords])]

def keeping : Catalogue := worded keepings

theorem lookup_keepings (hf : f = copyWord ∨ f = pickWord ∨ f = drainWord ∨ f = seeWords) :
    keepings.lookup (.ofName f.name) = some [f] := by
  rcases hf with rfl | rfl | rfl | rfl <;> with_unfolding_all rfl

def pickPins : List PinSpec :=
  [.flowIn "Exec", .dataIn "other" "T" .constRef, .flowOut "Then", .dataOut Function.resultName "T" .constRef]

def drainPins : List PinSpec :=
  [.flowIn "Exec", .dataIn "other" "T" .ref, .flowOut "Then", .dataOut Function.resultName "T" .value]

def threePins : List PinSpec :=
  [.flowIn "Exec", .dataIn "p" "T" .constRef, .dataIn "q" "T" .constRef, .dataIn "r" "T" .constRef, .flowOut "Then"]

/-- Edits that copy what an argument refers to, pick the copy and drain the argument; then they look at a copy of
what was picked, before and after the first copy is made again. -/
def stalingEdits : List EditOp :=
  [.addNode .entry, .addNodeWithPins (.call "T" "Construct" copyWord.signature) copyPins,
    .addNodeWithPins (.call "T" "Pick" pickWord.signature) pickPins,
    .addNodeWithPins (.call "T" "Construct" copyWord.signature) copyPins,
    .addNodeWithPins (.call "T" "Drain" drainWord.signature) drainPins,
    .addNodeWithPins (.call "T" "See" seeWords.signature) threePins,
    .addLink ⟨1⟩ ⟨5⟩, .addLink ⟨7⟩ ⟨11⟩, .addLink ⟨13⟩ ⟨15⟩, .addLink ⟨2⟩ ⟨3⟩,
      .addLink ⟨4⟩ ⟨6⟩, .addLink ⟨8⟩ ⟨9⟩,
    .addLink ⟨2⟩ ⟨12⟩, .addLink ⟨10⟩ ⟨16⟩, .addLink ⟨4⟩ ⟨17⟩, .addLink ⟨10⟩ ⟨18⟩]

def staling : Graph :=
  stalingEdits.foldl (fun g op => op.apply keeping g)
    { name := "Stale", signature := { params := [⟨"a", "T", .ref⟩], isStatic := true } }

theorem edited_staling : staling.Edited := by
  refine .foldl_apply keeping stalingEdits (.new "Stale" { params := [⟨"a", "T", .ref⟩], isStatic := true }) ?_
  unfold Graph.Numbered
  decide +kernel

theorem liveNodes_staling : staling.liveNodes =
    [{ id := ⟨1⟩, kind := .entry, firstPin := ⟨1⟩, pinCount := 2 },
      { id := ⟨2⟩, kind := .call "T" "Construct" copyWord.signature, firstPin := ⟨3⟩, pinCount := 2 },
      { id := ⟨3⟩, kind := .call "T" "Pick" pickWord.signature, firstPin := ⟨5⟩, pinCount := 4 },
      { id := ⟨4⟩, kind := .call "T" "Construct" copyWord.signature, firstPin := ⟨9⟩, pinCount := 2 },
      { id := ⟨5⟩, kind := .call "T" "Drain" drainWord.signature, firstPin := ⟨11⟩, pinCount := 4 },
      { id := ⟨6⟩, kind := .call "T" "See" seeWords.signature, firstPin := ⟨15⟩, pinCount := 5 }] := by
  decide +kernel

set_option maxRecDepth 20000 in
theorem livePins_staling : staling.livePins =
    ⟨⟨1⟩, ⟨1⟩, .output, "Then", .flow, none⟩ ::
      ⟨⟨2⟩, ⟨1⟩, .output, "a", .data "T" .ref, none⟩ ::
      (pinsOf ⟨2⟩ 3 copyPins ++ pinsOf ⟨3⟩ 5 pickPins ++ pinsOf ⟨4⟩ 9 copyPins ++
        pinsOf ⟨5⟩ 11 drainPins ++
        pinsOf ⟨6⟩ 15 threePins) := by
  with_unfolding_all rfl

set_option maxRecDepth 20000 in
theorem findings_staling : staling.findings keeping = [] := by
  have htype : NodeKind.typeName keeping (.ofName "T") = .ok "T" := typeName_worded
  have hcopy : NodeKind.callPins keeping copyWord = .ok copyPins := callPins_copyWord
  have hpick : NodeKind.callPins keeping pickWord = .ok pickPins := by
    simp only [NodeKind.callPins, pickWord, Function.resultParam, List.mapM_cons, List.mapM_nil, htype]
    rfl
  have hdrain : NodeKind.callPins keeping drainWord = .ok drainPins := by
    simp only [NodeKind.callPins, drainWord, Function.resultParam, List.mapM_cons, List.mapM_nil, htype]
    rfl
  have hsee : NodeKind.callPins keeping seeWords = .ok threePins := by
    simp only [NodeKind.callPins, seeWords, List.mapM_cons, List.mapM_nil, htype]
    rfl
  have hnode : ∀ n ∈ staling.liveNodes, staling.checkNode keeping n = [] := by
    rw [liveNodes_staling]
    simp only [List.forall_mem_cons]
    refine ⟨rfl, checkNode_worded (lookup_keepings (.inl rfl)) hcopy rfl ?_ ?_ ?_,
      checkNode_worded (lookup_keepings (.inr (.inl rfl))) hpick rfl ?_ ?_ ?_,
      checkNode_worded (lookup_keepings (.inl rfl)) hcopy rfl ?_ ?_ ?_,
      checkNode_worded (lookup_keepings (.inr (.inr (.inl rfl)))) hdrain rfl ?_ ?_ ?_,
      checkNode_worded (lookup_keepings (.inr (.inr (.inr rfl)))) hsee rfl ?_ ?_ ?_, List.forall_mem_nil _⟩
    all_goals decide +kernel
  have hsignature : Graph.checkSignature keeping staling.signature = [] := by
    have hdeclared : staling.signature = { params := [⟨"a", "T", .ref⟩], isStatic := true } := by decide +kernel
    rw [hdeclared]
    simp only [Graph.checkSignature, Graph.checkParams, Graph.checkType, keeping, lookupName?_worded]
    rfl
  have hlinks : staling.checkLinks keeping = [] := by decide +kernel
  have hstructure : staling.checkStructure = [] := by decide +kernel
  rw [Graph.findings, List.flatMap_eq_nil_iff.mpr hnode, hsignature, hlinks, hstructure]
  rfl

def stalingProgram : Program where
  name := "Stale"
  script := none
  nodes :=
    #[some { id := ⟨1⟩, label := "Entry", op := .entry, pure := false, flowOut := [⟨1⟩], dataOut := [⟨2⟩] },
      some { id := ⟨2⟩, label := "Call", op := .call copyWord, pure := true, dataIn := [⟨3⟩],
             dataOut := [⟨4⟩] },
      some { id := ⟨3⟩, label := "Call", op := .call pickWord, pure := false, flowIn := [⟨5⟩],
             flowOut := [⟨7⟩]
             dataIn := [⟨6⟩], dataOut := [⟨8⟩] },
      some { id := ⟨4⟩, label := "Call", op := .call copyWord, pure := true, dataIn := [⟨9⟩],
             dataOut := [⟨10⟩] },
      some { id := ⟨5⟩, label := "Call", op := .call drainWord, pure := false, flowIn := [⟨11⟩],
             flowOut := [⟨13⟩]
             dataIn := [⟨12⟩], dataOut := [⟨14⟩] },
      some { id := ⟨6⟩, label := "Call", op := .call seeWords, pure := false, flowIn := [⟨15⟩],
             flowOut := [⟨19⟩]
             dataIn := [⟨16⟩, ⟨17⟩, ⟨18⟩] }]
  pins :=
    #[some (flow 1 (some 5)), some (data 1 .ref none 0), some (data 2 .constRef (some 2) 4),
      some (data 2 .value none 8), some (flow 3 none), some (data 3 .constRef (some 4) 12),
      some (flow 3 (some 11)), some (data 3 .constRef none 16), some (data 4 .constRef (some 8) 20),
      some (data 4 .value none 24), some (flow 5 none), some (data 5 .ref (some 2) 28),
      some (flow 5 (some 15)), some (data 5 .value none 32), some (flow 6 none),
      some (data 6 .constRef (some 10) 36), some (data 6 .constRef (some 4) 40),
      some (data 6 .constRef (some 10) 44), some (flow 6 none)]
  entry := ⟨1⟩
  returnNode := none
  result := none
  pure := false
  params := 1
  hasWorld := false
  thisType := none
  storage := ⟨48, 4⟩
where
  flow (node : Nat) (target : Option Nat) : ProgramPin :=
    { node := ⟨node⟩, type := none, form := .value, default := none, target := target.map (⟨·⟩), storage := 0 }
  data (node : Nat) (form : Form) (source : Option Nat) (storage : Nat) : ProgramPin :=
    { node := ⟨node⟩, type := some 0, form, default := none, source := source.map (⟨·⟩), storage }

set_option maxRecDepth 20000 in
theorem compile_staling : compile staling keeping {} = .ok stalingProgram := by
  have herrors : staling.errors keeping none = [] := by
    rw [Graph.errors, findings_staling]
    rfl
  have hhandle : keeping.handleNamed? "T" = some 0 := handleNamed?_worded
  have hpins : placePins keeping .empty (Array.replicate staling.pins.size none) staling.livePins =
      .ok (⟨48, 4⟩, stalingProgram.pins.map (·.map fun q => { q with source := none, target := none })) := by
    rw [livePins_staling]
    simp only [pinsOf, List.zipIdx, List.map_cons, List.map_nil, List.cons_append, List.nil_append, copyPins, pickPins,
      drainPins, threePins, placePins, placePin, PinSpec.flowIn, PinSpec.dataIn, PinSpec.flowOut, PinSpec.dataOut,
      hhandle, bind, Except.bind]
    with_unfolding_all rfl
  have hnodes : compileNodes staling keeping (Array.replicate staling.nodes.size none) staling.liveNodes =
      .ok stalingProgram.nodes := by
    have hcopy : NodeKind.resolveCall keeping "T" "Construct" copyWord.signature = .ok copyWord :=
      resolveCall_worded (lookup_keepings (.inl rfl))
    have hpick : NodeKind.resolveCall keeping "T" "Pick" pickWord.signature = .ok pickWord :=
      resolveCall_worded (lookup_keepings (.inr (.inl rfl)))
    have hdrain : NodeKind.resolveCall keeping "T" "Drain" drainWord.signature = .ok drainWord :=
      resolveCall_worded (lookup_keepings (.inr (.inr (.inl rfl))))
    have hsee : NodeKind.resolveCall keeping "T" "See" seeWords.signature = .ok seeWords :=
      resolveCall_worded (lookup_keepings (.inr (.inr (.inr rfl))))
    simp only [liveNodes_staling, compileNodes, compileNode, opOf, hcopy, hpick, hdrain, hsee, bind, Except.bind]
    rfl
  refine compile_eq_ok_iff.mpr ⟨edited_staling.overflows_eq_false, herrors, ?_⟩
  simp only [assemble, hpins, hnodes, bind, Except.bind]
  with_unfolding_all rfl

theorem wordy_staling : stalingProgram.Wordy := by
  refine ⟨fun n hn hpure f hop => ?_, by decide +kernel⟩
  simp only [live, stalingProgram, List.filterMap_cons, List.filterMap_nil, id_eq, List.mem_cons,
    List.not_mem_nil, or_false] at hn
  rcases hn with rfl | rfl | rfl | rfl | rfl | rfl <;> cases hpure <;> cases hop <;> exact .inl rfl

def stalingCourse : Course :=
  stalingProgram.course (invokeUnder (fun _ => Native.builtin) 2 []) .own
    [.borrowed (.ofName "T") .ref ⟨0, 0, .apart 0⟩] none { catalogue := keeping }

theorem determinate_staling :
    stalingProgram.Determinate words { catalogue := keeping } (invokeUnder (fun _ => Native.builtin) 2 []) where
  formed := wellFormed_of_compile edited_staling compile_staling
  typed := typed_of_compile edited_staling compile_staling filed_worded filed_worded (.refl keeping) embeds_worded
  calls _ _ _ _ := wordy_staling.determined 1 []
  constructs := determined_construct 1 [] rfl
  decodes id q h j hq _ hj := by cases (wordy_staling.default_eq_none hq).symm.trans hj

def drained : Place := ⟨0, 0, .apart 0⟩

def firstCopy : Place := ⟨4, 0, .stack 464⟩

def secondCopy : Place := ⟨10, 0, .stack 480⟩

def drain : Place := ⟨14, 0, .stack 488⟩

def copied (source target : Place) (m : Memory) : Memory :=
  m.write target (.int .i32) (m.read source (.int .i32))

def moved (source target : Place) (m : Memory) : Memory :=
  (m.write source (.int .i32) (.int 0)).write target (.int .i32) (m.read source (.int .i32))

section Copied

variable {m : Memory} {source target place : Place} {k : Int}

theorem read_copied (hk : IntKind.i32.contains k = true) (h : m.read source (.int .i32) = .int k) :
    (copied source target m).read target (.int .i32) = .int k := by
  rw [copied, h]
  exact Memory.read_write_int m target hk

theorem read_copied_of_ne (h : place.block ≠ target.block) :
    (copied source target m).read place (.int .i32) = m.read place (.int .i32) :=
  Memory.read_write_of_ne m _ _ _ h

theorem read_moved (h : source.block ≠ target.block) : (moved source target m).read source (.int .i32) = .int 0 :=
  (Memory.read_write_of_ne _ _ _ _ h).trans (Memory.read_write_int m source rfl)

theorem read_moved_of_ne (hsource : place.block ≠ source.block) (htarget : place.block ≠ target.block) :
    (moved source target m).read place (.int .i32) = m.read place (.int .i32) :=
  (Memory.read_write_of_ne _ _ _ _ htarget).trans (Memory.read_write_of_ne m _ _ _ hsource)

end Copied

def stalingMachine (memory : Memory) (steps : Nat) (alive : List Place) (uses : List Use) : Machine :=
  let own := Interpreter.new {}
  { memory
    own := { own with stack := { own.stack with used := 504, highWater := 504 }, steps, visits := steps, depth := 1 }
    current := some .own, care := { alive := alive.map (⟨·, .ofName "T"⟩) }, watch := { uses } }

def stalingFrame : Frame := { slots := Array.replicate 19 {}, firstBlock := 1, base := 456, mark := 0 }

def boundFrame : Frame := stalingFrame.set ⟨2⟩ (.borrowed drained)

def pickedFrame : Frame := { (boundFrame.set ⟨4⟩ .owned).set ⟨8⟩ (.borrowed firstCopy) with statements := 1 }

def drainedFrame : Frame := { pickedFrame.set ⟨14⟩ .owned with statements := 2 }

def stalingMemory : Memory := { holding.memory with next := 20 }

section Steps

variable (m : Memory) (uses : List Use)

theorem takeFrame_staling :
    stalingProgram.takeFrame .own { catalogue := keeping }
        (stalingProgram.enter .own [.borrowed (.ofName "T") .ref drained] holding) =
      .ok stalingFrame (stalingMachine stalingMemory 0 [] []) := by
  with_unfolding_all rfl

theorem bindArguments_staling : ∃ uses',
    Run.bindArguments 0 [⟨2⟩] [.borrowed (.ofName "T") .ref drained] stalingCourse.scope
        ⟨stalingFrame, stalingMachine m 0 [] uses⟩ =
      .ok () ⟨boundFrame, stalingMachine m 0 [] uses'⟩ :=
  ⟨_, by with_unfolding_all rfl⟩

theorem step_pick : ∃ uses',
    stalingCourse.step? ⟨some ⟨5⟩, ⟨boundFrame, stalingMachine m 0 [] uses⟩⟩ =
      some ⟨some ⟨11⟩, ⟨pickedFrame, stalingMachine (copied drained firstCopy m) 2 [firstCopy] uses'⟩⟩ :=
  ⟨_, by with_unfolding_all rfl⟩

theorem step_drain : ∃ uses',
    stalingCourse.step? ⟨some ⟨11⟩, ⟨pickedFrame, stalingMachine m 2 [firstCopy] uses⟩⟩ =
      some ⟨some ⟨15⟩, ⟨drainedFrame, stalingMachine (moved drained drain m) 3 [drain, firstCopy] uses'⟩⟩ :=
  ⟨_, by with_unfolding_all rfl⟩

theorem tick_staling :
    Run.tick stalingCourse.scope ⟨drainedFrame, stalingMachine m 3 [drain, firstCopy] uses⟩ =
      .ok () ⟨drainedFrame, stalingMachine m 4 [drain, firstCopy] uses⟩ := by
  with_unfolding_all rfl

theorem pull_second : ∃ uses',
    Run.pullInput stalingCourse.invoke ⟨16⟩ stalingCourse.scope
        ⟨drainedFrame, stalingMachine m 4 [drain, firstCopy] uses⟩ =
      .ok (some secondCopy) ⟨drainedFrame.set ⟨10⟩ .owned,
        stalingMachine (copied firstCopy secondCopy m) 5 [secondCopy, drain, firstCopy] uses'⟩ :=
  ⟨_, by with_unfolding_all rfl⟩

theorem pull_first : ∃ uses',
    Run.pullInput stalingCourse.invoke ⟨17⟩ stalingCourse.scope
        ⟨drainedFrame.set ⟨10⟩ .owned, stalingMachine m 5 [secondCopy, drain, firstCopy] uses⟩ =
      .ok (some firstCopy) ⟨(drainedFrame.set ⟨10⟩ .owned).set ⟨4⟩ .owned,
        stalingMachine (copied drained firstCopy m) 6 [firstCopy, secondCopy, drain] uses'⟩ :=
  ⟨_, by with_unfolding_all rfl⟩

theorem pull_cached : ∃ uses',
    Run.pullInput stalingCourse.invoke ⟨18⟩ stalingCourse.scope
        ⟨(drainedFrame.set ⟨10⟩ .owned).set ⟨4⟩ .owned,
          stalingMachine m 6 [firstCopy, secondCopy, drain] uses⟩ =
      .ok (some secondCopy) ⟨(drainedFrame.set ⟨10⟩ .owned).set ⟨4⟩ .owned,
        stalingMachine m 6 [firstCopy, secondCopy, drain] uses'⟩ :=
  ⟨_, by with_unfolding_all rfl⟩

theorem pull_afresh : ∃ f uses',
    Run.pullAfresh stalingCourse.invoke ⟨18⟩ stalingCourse.scope
        ⟨(drainedFrame.set ⟨10⟩ .owned).set ⟨4⟩ .owned,
          stalingMachine m 6 [firstCopy, secondCopy, drain] uses⟩ =
      .ok (some secondCopy)
        ⟨f, stalingMachine (copied firstCopy secondCopy m) 7 [secondCopy, firstCopy, drain] uses'⟩ :=
  ⟨_, _, by with_unfolding_all rfl⟩

end Steps

/-- The first input of the last statement is a copy of what was picked. Pulling the second one fills that anew, with
what the argument was drained to. So the third one, which is linked like the first, is given the number of before
from the cache, and another one without a cache. -/
theorem staling_delivers_outdated :
    staling.Edited ∧ compile staling keeping {} = .ok stalingCourse.scope.program ∧
      stalingCourse.scope.program.Determinate words stalingCourse.scope.context stalingCourse.invoke ∧
      ∃ frame machine m ms v a b c d e place,
        stalingCourse.Opens [.borrowed (.ofName "T") .ref drained] frame machine m ∧ stalingCourse.Runs m ms v ∧
        stalingCourse.node? v = some ⟨6⟩ ∧ Run.tick stalingCourse.scope v.act = .ok () a ∧
        Run.pullInput stalingCourse.invoke ⟨16⟩ stalingCourse.scope a = .ok (some secondCopy) b ∧
        Run.pullInput stalingCourse.invoke ⟨17⟩ stalingCourse.scope b = .ok (some firstCopy) c ∧
        Run.pullInput stalingCourse.invoke ⟨18⟩ stalingCourse.scope c = .ok (some place) d ∧
        words.data d.machine.memory (.ofName "T") place = Atom.int 5 ∧
        Run.pullAfresh stalingCourse.invoke ⟨18⟩ stalingCourse.scope c = .ok (some place) e ∧
        words.data e.machine.memory (.ofName "T") place = Atom.int 0 := by
  let m₁ := copied drained firstCopy stalingMemory
  let m₂ := moved drained drain m₁
  let m₃ := copied firstCopy secondCopy m₂
  let m₄ := copied drained firstCopy m₃
  obtain ⟨u₀, hbind⟩ := bindArguments_staling stalingMemory []
  obtain ⟨u₁, hpick⟩ := step_pick stalingMemory u₀
  obtain ⟨u₂, hdrain⟩ := step_drain m₁ u₁
  obtain ⟨u₃, hsecond⟩ := pull_second m₂ u₂
  obtain ⟨u₄, hfirst⟩ := pull_first m₃ u₃
  obtain ⟨u₅, hcached⟩ := pull_cached m₄ u₄
  obtain ⟨f, u₆, hafresh⟩ := pull_afresh m₄ u₄
  have hopens : stalingCourse.Opens [.borrowed (.ofName "T") .ref drained] stalingFrame
      (stalingMachine stalingMemory 0 [] []) ⟨some ⟨5⟩, boundFrame, stalingMachine stalingMemory 0 [] u₀⟩ :=
    ⟨rfl, ⟨_, takeFrame_staling⟩, _, rfl, hbind, rfl⟩
  have hgiven : stalingMemory.read drained (.int .i32) = .int 5 := Memory.read_write_int _ _ rfl
  have hpicked : m₂.read firstCopy (.int .i32) = .int 5 := by
    rw [read_moved_of_ne (by decide) (by decide)]
    exact read_copied rfl hgiven
  have hold : m₄.read secondCopy (.int .i32) = .int 5 := by
    rw [read_copied_of_ne (by decide)]
    exact read_copied rfl hpicked
  have hnew : m₄.read firstCopy (.int .i32) = .int 0 := by
    refine read_copied rfl ?_
    rw [read_copied_of_ne (by decide)]
    exact read_moved (by decide)
  exact ⟨edited_staling, compile_staling, determinate_staling, _, _, _, _, _, _, _, _, _, _, _, hopens,
    .step hpick (.one hdrain), rfl, tick_staling m₂ u₂, hsecond, hfirst, hcached, hold, hafresh,
      read_copied rfl hnew⟩

end Program

end Flowscript
