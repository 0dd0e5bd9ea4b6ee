import Flowscript.Proofs.Machine.NumberCopies
import Flowscript.Proofs.Run.LoopVisits
import Flowscript.Proofs.Run.PureFunctions

/-! # How deep pulls nest

To pull an input is to pull the inputs of the expression that feeds it, and no others. Along such a chain every
input is fed by another expression, so there are no more of them than there are expressions, and one more: what
lies further up is never asked for. So pulling ends, and what it comes to does not depend on the bound that is
set to it.
-/
namespace Flowscript

namespace Run

variable {α β : Type} {sc : Scope}

theorem bind_congr_at {x y : Run β} {f g : β → Run α} (hx : x sc = y sc) (hf : ∀ b, f b sc = g b sc) :
    (x >>= f) sc = (y >>= g) sc := by
  funext a
  simp only [bind, ReaderT.bind, EStateM.bind, hx]
  cases y sc a with
  | ok b t => exact congrFun (hf b) t
  | error e t => rfl

theorem node_congr_at {id : NodeId} {f g : ProgramNode → Run α}
    (h : ∀ n, sc.program.node? id = some n → f n sc = g n sc) : (node id >>= f) sc = (node id >>= g) sc := by
  funext a
  cases hn : sc.program.node? id with
  | some n =>
    rw [Flowscript.bind_of_ok (node_of_node? hn a), Flowscript.bind_of_ok (node_of_node? hn a)]
    exact congrFun (h n hn) a
  | none =>
    have hfails : ∃ e, node id sc a = .error e a := by
      unfold node
      rw [Flowscript.bind_of_ok (show program sc a = .ok sc.program a from rfl), hn]
      exact ⟨_, rfl⟩
    obtain ⟨e, he⟩ := hfails
    rw [Flowscript.bind_of_error he, Flowscript.bind_of_error he]

theorem pin_congr_at {id : PinId} {f g : ProgramPin → Run α}
    (h : ∀ q, sc.program.pin? id = some q → f q sc = g q sc) : (pin id >>= f) sc = (pin id >>= g) sc := by
  funext a
  cases hq : sc.program.pin? id with
  | some q =>
    rw [Flowscript.bind_of_ok (pin_of_pin? hq a), Flowscript.bind_of_ok (pin_of_pin? hq a)]
    exact congrFun (h q hq) a
  | none =>
    have hfails : ∃ e, pin id sc a = .error e a := by
      unfold pin
      rw [Flowscript.bind_of_ok (show program sc a = .ok sc.program a from rfl), hq]
      exact ⟨_, rfl⟩
    obtain ⟨e, he⟩ := hfails
    rw [Flowscript.bind_of_error he, Flowscript.bind_of_error he]

theorem nth_congr_at {pins : List PinId} {index : Nat} {f g : PinId → Run α}
    (h : ∀ id, pins[index]? = some id → f id sc = g id sc) :
    (nth pins index >>= f) sc = (nth pins index >>= g) sc := by
  unfold nth
  cases hid : pins[index]? with
  | none => rfl
  | some id => exact h id hid

theorem andFinally_congr_at {x y : Run α} (after : Exec Empty Unit) (hx : x sc = y sc) :
    x.andFinally after sc = y.andFinally after sc := by
  funext a
  simp only [andFinally, hx]

theorem withStack_congr_at {x y : Run α} (hx : x sc = y sc) : withStack x sc = withStack y sc :=
  bind_congr_at rfl fun _ => bind_congr_at rfl fun _ => andFinally_congr_at _ hx

variable {invoke : Invoke} {pull pull' : Pull} {n : ProgramNode}

theorem withArguments_congr_at (f : Function) {rest : List (Param × PinId)} {k k' : List Value → Run α}
    (hpull : ∀ x ∈ rest, pull x.2 sc = pull' x.2 sc) (hk : ∀ args, k args sc = k' args sc) :
    withArguments invoke pull n f rest k sc = withArguments invoke pull' n f rest k' sc := by
  induction rest generalizing k k' with
  | nil => exact hk []
  | cons x rest ih =>
    obtain ⟨p, id⟩ := x
    have hmore : ∀ v : Value, withArguments invoke pull n f rest (fun args => k (v :: args)) sc =
        withArguments invoke pull' n f rest (fun args => k' (v :: args)) sc := fun v =>
      ih (fun y hy => hpull y (List.mem_cons_of_mem _ hy)) fun args => hk _
    refine bind_congr_at (hpull (p, id) List.mem_cons_self) fun source => bind_congr_at rfl fun t => ?_
    cases source with
    | none =>
      dsimp only
      split
      · exact hmore _
      · rfl
    | some source =>
      dsimp only
      split
      · exact bind_congr_at rfl fun temp => andFinally_congr_at _ (hmore _)
      · exact hmore _

theorem pullTarget_congr_at (hpull : ∀ id ∈ n.dataIn, pull id sc = pull' id sc) :
    pullTarget pull n sc = pullTarget pull' n sc :=
  nth_congr_at fun id hid => bind_congr_at (hpull id (List.mem_of_getElem? hid)) fun _ => rfl

theorem evaluate_congr_at (hpull : ∀ id ∈ n.dataIn, pull id sc = pull' id sc) :
    evaluate invoke pull n sc = evaluate invoke pull' n sc := by
  refine bind_congr_at rfl fun _ => bind_congr_at rfl fun _ => ?_
  cases n.op with
  | call f =>
    refine bind_congr_at (withStack_congr_at (withArguments_congr_at f
      (fun x hx => hpull x.2 (List.of_mem_zip (a := x.1) (b := x.2) hx).2) fun _ => rfl)) fun _ => rfl
  | fieldGet offset type => exact bind_congr_at (pullTarget_congr_at hpull) fun _ => rfl
  | _ => rfl

/-- An output is read from the node it belongs to; only an expression pulls its inputs for that. -/
theorem pullOutput_congr_at {o : PinId} {r : ProgramPin} (ho : sc.program.pin? o = some r)
    (hn : sc.program.node? r.node = some n) (hreroute : n.op = .reroute → n.pure = true)
    (hpull : n.pure = true → ∀ id ∈ n.dataIn, pull id sc = pull' id sc) :
    pullOutput invoke pull o sc = pullOutput invoke pull' o sc := by
  refine pin_congr_at fun r' hr => ?_
  cases ho.symm.trans hr
  refine node_congr_at fun n' hn' => ?_
  cases hn.symm.trans hn'
  dsimp only
  by_cases hpure : n.pure = true
  · simp only [hpure, if_true]
    cases n.op with
    | reroute => exact nth_congr_at fun id hid => hpull hpure id (List.mem_of_getElem? hid)
    | _ =>
      refine bind_congr_at rfl fun f => ?_
      split
      · exact bind_congr_at (evaluate_congr_at (hpull hpure)) fun _ => rfl
      · rfl
  · simp only [if_neg hpure]
    cases hop : n.op with
    | reroute => exact absurd (hreroute hop) hpure
    | _ => rfl

theorem pullStep_congr_at {c : Catalogue} (hp : sc.program.WellFormed c) {id : PinId}
    (hpull : ∀ j, sc.program.Pulls id j → pull j sc = pull' j sc) :
    pullStep invoke pull id sc = pullStep invoke pull' id sc := by
  refine bind_congr_at (pin_congr_at fun q hq => ?_) fun _ => rfl
  cases hsource : q.source with
  | none => rfl
  | some o =>
    obtain ⟨r, n, ho, hn, hout⟩ := hp.source id q o hq hsource
    refine pullOutput_congr_at ho hn (fun hop => ?_) fun hpure j hj =>
      hpull j ⟨q, o, r, n, hq, hsource, ho, hn, hpure, hj⟩
    have hsuits := hp.suits r.node n hn
    rw [Program.Suits, hop] at hsuits
    exact (hsuits.1 (List.ne_nil_of_mem hout)).1

/-- The data of an input, where `bottom` gives that of what lies so many pulls further up. -/
def pullFrom (invoke : Invoke) (bottom : Pull) : Nat → Pull
  | 0 => bottom
  | depth + 1 => pullStep invoke (pullFrom invoke bottom depth)

theorem pullWithin_eq_pullFrom (depth : Nat) :
    pullWithin invoke depth = pullFrom invoke (pullWithin invoke 0) depth := by
  induction depth with
  | zero => rfl
  | succ depth ih => exact congrArg (pullStep invoke) ih

end Run

namespace Program

variable {p : Program} {c : Catalogue} {i j : PinId}

def expressions (p : Program) : List ProgramNode := (live p.nodes).filter (·.pure)

def Computes (p : Program) (n : ProgramNode) (i : PinId) : Prop :=
  ∃ q o r, p.pin? i = some q ∧ q.source = some o ∧ p.pin? o = some r ∧ p.node? r.node = some n ∧ n.pure = true

theorem pulls_iff : p.Pulls i j ↔ ∃ n, p.Computes n i ∧ j ∈ n.dataIn := by
  constructor
  · rintro ⟨q, o, r, n, hq, hsource, ho, hn, hpure, hj⟩
    exact ⟨n, ⟨q, o, r, hq, hsource, ho, hn, hpure⟩, hj⟩
  · rintro ⟨n, ⟨q, o, r, hq, hsource, ho, hn, hpure⟩, hj⟩
    exact ⟨q, o, r, n, hq, hsource, ho, hn, hpure, hj⟩

theorem Computes.mem_expressions {n : ProgramNode} (h : p.Computes n i) : n ∈ p.expressions := by
  obtain ⟨-, -, r, -, -, -, hn, hpure⟩ := h
  exact List.mem_filter.mpr ⟨mem_live_iff.mpr ⟨_, hn⟩, hpure⟩

open Classical in
noncomputable def rank (p : Program) (i : PinId) : Nat :=
  (p.expressions.filter fun n => ∃ j, Relation.ReflTransGen p.Pulls i j ∧ p.Computes n j).length

theorem rank_le (p : Program) (i : PinId) : p.rank i ≤ p.expressions.length := List.length_filter_le _ _

/-- The expression that feeds an input is computed for it, but not for what it is computed from. -/
theorem WellFormed.rank_lt (h : p.WellFormed c) (hij : p.Pulls i j) : p.rank j < p.rank i := by
  classical
  obtain ⟨n, hn, hj⟩ := pulls_iff.mp hij
  have hsub : p.expressions.filter (fun n => ∃ k, Relation.ReflTransGen p.Pulls j k ∧ p.Computes n k) =
      (p.expressions.filter fun n => ∃ k, Relation.ReflTransGen p.Pulls i k ∧ p.Computes n k).filter
        fun n => ∃ k, Relation.ReflTransGen p.Pulls j k ∧ p.Computes n k := by
    rw [List.filter_filter]
    refine List.filter_congr fun m _ => ?_
    rw [← Bool.decide_and, decide_eq_decide]
    exact ⟨fun ⟨k, hk, hm⟩ => ⟨⟨k, hk, hm⟩, k, .head hij hk, hm⟩, And.left⟩
  unfold rank
  rw [hsub]
  refine List.length_filter_lt_length_iff_exists.mpr ⟨n, ?_, ?_⟩
  · exact List.mem_filter.mpr ⟨hn.mem_expressions, decide_eq_true ⟨i, .refl, hn⟩⟩
  · rw [decide_eq_true_iff]
    rintro ⟨k, hjk, hk⟩
    exact h.acyclic j (Relation.TransGen.trans_right hjk (.single (pulls_iff.mpr ⟨n, hk, hj⟩)))

end Program

namespace Run

variable {invoke : Invoke} {c : Catalogue} {sc : Scope} {id : PinId}

/-- What is pulled does not depend on a bound that it cannot reach, nor on what lies there. -/
theorem pullFrom_eq (hp : sc.program.WellFormed c) {μ ν : PinId → Nat}
    (hμ : ∀ i j, sc.program.Pulls i j → μ j < μ i) (hν : ∀ i j, sc.program.Pulls i j → ν j < ν i)
    {bottom bottom' : Pull} {depth depth' : Nat} (hdepth : μ id < depth) (hdepth' : ν id < depth') :
    pullFrom invoke bottom depth id sc = pullFrom invoke bottom' depth' id sc := by
  induction depth generalizing depth' id with
  | zero => cases hdepth
  | succ depth ih =>
    obtain ⟨depth', rfl⟩ := Nat.exists_eq_add_of_lt hdepth'
    refine pullStep_congr_at hp fun j hj => ih ?_ ?_
    · exact Nat.lt_of_lt_of_le (hμ id j hj) (Nat.lt_succ_iff.mp hdepth)
    · have := hν id j hj
      omega

open Program in
theorem pullInput_eq_pullFrom (hp : sc.program.WellFormed c) {μ : PinId → Nat}
    (hμ : ∀ i j, sc.program.Pulls i j → μ j < μ i) (bottom : Pull) {depth : Nat} (hdepth : μ id < depth) :
    pullInput invoke id sc = pullFrom invoke bottom depth id sc := by
  change pullWithin invoke (sc.program.pins.size + 1) id sc = _
  rw [pullWithin_eq_pullFrom]
  exact pullFrom_eq hp (fun _ _ => hp.height_lt) hμ (Nat.lt_succ_of_le (WellFormed.height_le _ id)) hdepth

end Run

namespace Program

variable {p : Program} {c : Catalogue}

/-- Pulling in a program ends. Any input is pulled from those that it depends on alone, and along these
dependencies no input comes again and there are no more inputs than expressions, and one. So no bound beyond
that is ever reached, and without a bound pulling is the same: it solves the equation that a step gives, and
nothing else does. -/
structure Descends (p : Program) : Prop where
  wellFounded : WellFounded fun j i => p.Pulls i j
  nested : ∀ ids : List PinId, ids.IsChain p.Pulls → ids.Nodup ∧ ids.length ≤ p.expressions.length + 1
  asks : ∀ invoke (sc : Scope) id pull pull', sc.program = p → (∀ j, p.Pulls id j → pull j sc = pull' j sc) →
    Run.pullStep invoke pull id sc = Run.pullStep invoke pull' id sc
  ends : ∀ invoke (sc : Scope) id bottom depth, sc.program = p → p.expressions.length < depth →
    Run.pullFrom invoke bottom depth id sc = Run.pullInput invoke id sc
  solves : ∀ invoke (sc : Scope) id, sc.program = p →
    Run.pullInput invoke id sc = Run.pullStep invoke (Run.pullInput invoke) id sc
  unique : ∀ invoke (sc : Scope) (pull : Run.Pull), sc.program = p →
    (∀ id, pull id sc = Run.pullStep invoke pull id sc) → ∀ id, pull id sc = Run.pullInput invoke id sc

theorem WellFormed.length_le (h : p.WellFormed c) {i : PinId} {ids : List PinId} (hids : (i :: ids).IsChain p.Pulls) :
    (i :: ids).length ≤ p.rank i + 1 := by
  induction ids generalizing i with
  | nil => exact Nat.le_add_left _ _
  | cons j ids ih =>
    obtain ⟨hij, hids⟩ := List.isChain_cons_cons.mp hids
    have hj := ih hids
    have := h.rank_lt hij
    rw [List.length_cons]
    omega

theorem WellFormed.nodup (h : p.WellFormed c) {ids : List PinId} (hids : ids.IsChain p.Pulls) : ids.Nodup := by
  have : IsTrans PinId fun i j => p.rank j < p.rank i := ⟨fun _ _ _ hij hjk => hjk.trans hij⟩
  refine (hids.imp fun _ _ => h.rank_lt).pairwise.imp fun hlt heq => ?_
  rw [heq] at hlt
  exact lt_irrefl _ hlt

theorem WellFormed.pullInput_eq {invoke : Invoke} (sc : Scope) (h : sc.program.WellFormed c) (id : PinId) :
    Run.pullInput invoke id sc = Run.pullStep invoke (Run.pullInput invoke) id sc := by
  rw [Run.pullInput_eq_pullFrom h (fun _ _ => h.rank_lt) (Run.pullInput invoke) (Nat.lt_succ_self _), Run.pullFrom]
  refine Run.pullStep_congr_at h fun j hj => ?_
  exact (Run.pullInput_eq_pullFrom h (fun _ _ => h.rank_lt) _ (h.rank_lt hj)).symm

theorem WellFormed.descends (h : p.WellFormed c) : p.Descends where
  wellFounded := Subrelation.wf (fun hj => h.rank_lt hj) (measure p.rank).wf
  nested ids hids := by
    refine ⟨h.nodup hids, ?_⟩
    cases ids with
    | nil => exact Nat.zero_le _
    | cons i ids => exact (h.length_le hids).trans (Nat.succ_le_succ (rank_le p i))
  asks := by
    rintro invoke sc id pull pull' rfl hpull
    exact Run.pullStep_congr_at h hpull
  ends := by
    rintro invoke sc id bottom depth rfl hdepth
    exact (Run.pullInput_eq_pullFrom h (fun _ _ => h.rank_lt) bottom ((rank_le _ id).trans_lt hdepth)).symm
  solves _ sc id hsc := by
    subst hsc
    exact h.pullInput_eq sc id
  unique := by
    rintro invoke sc pull rfl hpull id
    induction hrank : sc.program.rank id using Nat.strong_induction_on generalizing id with
    | _ r ih =>
      rw [hpull, h.pullInput_eq]
      exact Run.pullStep_congr_at h fun j hj => ih _ (hrank ▸ h.rank_lt hj) j rfl

/-- However a graph was edited: if it compiles, pulling in its program ends, and no more pulls nest than there are
expressions, and one. -/
theorem descends_of_compile {g : Graph} {s : Setting} (hg : g.Edited) (hp : compile g c s = .ok p) : p.Descends :=
  (wellFormed_of_compile hg hp).descends

def compareWords : Function :=
  { name := "Compare", params := [⟨"p", .ofName "T", .constRef⟩, ⟨"q", .ofName "T", .constRef⟩]
    result := none, pure := false, body := .host ⟨false, .nothing, 0⟩ }

def comparings : List (FunctionKey × List Function) :=
  [(.ofName "Construct", [copyWord]), (.operator .construct, [copyWord]), (.ofName "Compare", [compareWords])]

theorem lookup_comparings {f : Function} (hf : f = copyWord ∨ f = compareWords) :
    comparings.lookup (.ofName f.name) = some [f] := by
  rcases hf with rfl | rfl <;> with_unfolding_all rfl

def comparePins : List PinSpec :=
  [.flowIn "Exec", .dataIn "p" "T" .constRef, .dataIn "q" "T" .constRef, .flowOut "Then"]

/-- Edits that copy a number, copy the copy, compare the second copy with itself, and then with the first one. -/
def chainedEdits : List EditOp :=
  [.addNode .entry,
    .addNodeWithPins (.call "T" "Construct" copyWord.signature) copyPins,
    .addNodeWithPins (.call "T" "Construct" copyWord.signature) copyPins,
    .addNodeWithPins (.call "T" "Compare" compareWords.signature) comparePins,
    .addNodeWithPins (.call "T" "Compare" compareWords.signature) comparePins,
    .addLink ⟨1⟩ ⟨7⟩, .addLink ⟨10⟩ ⟨11⟩, .addLink ⟨2⟩ ⟨3⟩, .addLink ⟨4⟩ ⟨5⟩,
      .addLink ⟨6⟩ ⟨8⟩, .addLink ⟨6⟩ ⟨9⟩,
    .addLink ⟨6⟩ ⟨12⟩, .addLink ⟨4⟩ ⟨13⟩]

def chained : Graph :=
  chainedEdits.foldl (fun g op => op.apply (worded comparings) g)
    { name := "Chain", signature := { params := [⟨"a", "T", .constRef⟩], isStatic := true } }

theorem edited_chained : chained.Edited := by
  refine .foldl_apply (worded comparings) chainedEdits
    (.new "Chain" { params := [⟨"a", "T", .constRef⟩], isStatic := true }) ?_
  unfold Graph.Numbered
  decide +kernel

theorem liveNodes_chained : chained.liveNodes =
    [{ id := ⟨1⟩, kind := .entry, firstPin := ⟨1⟩, pinCount := 2 },
      { id := ⟨2⟩, kind := .call "T" "Construct" copyWord.signature, firstPin := ⟨3⟩, pinCount := 2 },
      { id := ⟨3⟩, kind := .call "T" "Construct" copyWord.signature, firstPin := ⟨5⟩, pinCount := 2 },
      { id := ⟨4⟩, kind := .call "T" "Compare" compareWords.signature, firstPin := ⟨7⟩, pinCount := 4 },
      { id := ⟨5⟩, kind := .call "T" "Compare" compareWords.signature, firstPin := ⟨11⟩, pinCount := 4 }] := by
  decide +kernel

set_option maxRecDepth 20000 in
theorem livePins_chained : chained.livePins =
    ⟨⟨1⟩, ⟨1⟩, .output, "Then", .flow, none⟩ ::
      ⟨⟨2⟩, ⟨1⟩, .output, "a", .data "T" .constRef, none⟩ ::
      (pinsOf ⟨2⟩ 3 copyPins ++ pinsOf ⟨3⟩ 5 copyPins ++ pinsOf ⟨4⟩ 7 comparePins ++
        pinsOf ⟨5⟩ 11 comparePins) := by
  with_unfolding_all rfl

set_option maxRecDepth 20000 in
theorem findings_chained : chained.findings (worded comparings) = [] := by
  have htype : NodeKind.typeName (worded comparings) (.ofName "T") = .ok "T" := typeName_worded
  have hcopy : NodeKind.callPins (worded comparings) copyWord = .ok copyPins := callPins_copyWord
  have hcompare : NodeKind.callPins (worded comparings) compareWords = .ok comparePins := by
    simp only [NodeKind.callPins, compareWords, List.mapM_cons, List.mapM_nil, htype]
    rfl
  have hfirst := lookup_comparings (.inl rfl)
  have hlast := lookup_comparings (.inr rfl)
  have hnode : ∀ n ∈ chained.liveNodes, chained.checkNode (worded comparings) n = [] := by
    rw [liveNodes_chained]
    simp only [List.forall_mem_cons]
    refine ⟨rfl, checkNode_worded hfirst hcopy rfl ?_ ?_ ?_, checkNode_worded hfirst hcopy rfl ?_ ?_ ?_,
      checkNode_worded hlast hcompare rfl ?_ ?_ ?_, checkNode_worded hlast hcompare rfl ?_ ?_ ?_,
      List.forall_mem_nil _⟩
    all_goals decide +kernel
  have hsignature : Graph.checkSignature (worded comparings) chained.signature = [] := by
    have hdeclared : chained.signature = { params := [⟨"a", "T", .constRef⟩], isStatic := true } := by
      decide +kernel
    rw [hdeclared]
    simp only [Graph.checkSignature, Graph.checkParams, Graph.checkType, lookupName?_worded]
    rfl
  have hlinks : chained.checkLinks (worded comparings) = [] := by decide +kernel
  have hstructure : chained.checkStructure = [] := by decide +kernel
  rw [Graph.findings, List.flatMap_eq_nil_iff.mpr hnode, hsignature, hlinks, hstructure]
  rfl

def chainedProgram : Program where
  name := "Chain"
  script := none
  nodes :=
    #[some { id := ⟨1⟩, label := "Entry", op := .entry, pure := false, flowOut := [⟨1⟩], dataOut := [⟨2⟩] },
      some { id := ⟨2⟩, label := "Call", op := .call copyWord, pure := true, dataIn := [⟨3⟩],
             dataOut := [⟨4⟩] },
      some { id := ⟨3⟩, label := "Call", op := .call copyWord, pure := true, dataIn := [⟨5⟩],
             dataOut := [⟨6⟩] },
      some { id := ⟨4⟩, label := "Call", op := .call compareWords, pure := false, flowIn := [⟨7⟩],
             flowOut := [⟨10⟩]
             dataIn := [⟨8⟩, ⟨9⟩] },
      some { id := ⟨5⟩, label := "Call", op := .call compareWords, pure := false, flowIn := [⟨11⟩],
             flowOut := [⟨14⟩]
             dataIn := [⟨12⟩, ⟨13⟩] }]
  pins :=
    #[some (flow 1 (some 7)), some (data 1 .constRef none 0), some (data 2 .constRef (some 2) 4),
      some (data 2 .value none 8), some (data 3 .constRef (some 4) 12), some (data 3 .value none 16),
      some (flow 4 none), some (data 4 .constRef (some 6) 20), some (data 4 .constRef (some 6) 24),
      some (flow 4 (some 11)), some (flow 5 none), some (data 5 .constRef (some 6) 28),
      some (data 5 .constRef (some 4) 32), some (flow 5 none)]
  entry := ⟨1⟩
  returnNode := none
  result := none
  pure := false
  params := 1
  hasWorld := false
  thisType := none
  storage := ⟨36, 4⟩
where
  flow (node : Nat) (target : Option Nat) : ProgramPin :=
    { node := ⟨node⟩, type := none, form := .value, default := none, target := target.map (⟨·⟩), storage := 0 }
  data (node : Nat) (form : Form) (source : Option Nat) (storage : Nat) : ProgramPin :=
    { node := ⟨node⟩, type := some 0, form, default := none, source := source.map (⟨·⟩), storage }

set_option maxRecDepth 20000 in
theorem compile_chained : compile chained (worded comparings) {} = .ok chainedProgram := by
  have herrors : chained.errors (worded comparings) none = [] := by
    rw [Graph.errors, findings_chained]
    rfl
  have hhandle : (worded comparings).handleNamed? "T" = some 0 := handleNamed?_worded
  have hpins : placePins (worded comparings) .empty (Array.replicate chained.pins.size none) chained.livePins =
      .ok (⟨36, 4⟩, chainedProgram.pins.map (·.map fun q => { q with source := none, target := none })) := by
    rw [livePins_chained]
    simp only [pinsOf, List.zipIdx, List.map_cons, List.map_nil, List.cons_append, List.nil_append, copyPins,
      comparePins, placePins, placePin, PinSpec.flowIn, PinSpec.dataIn, PinSpec.flowOut, PinSpec.dataOut, hhandle,
      bind, Except.bind]
    with_unfolding_all rfl
  have hnodes : compileNodes chained (worded comparings) (Array.replicate chained.nodes.size none)
      chained.liveNodes = .ok chainedProgram.nodes := by
    have hcopy : NodeKind.resolveCall (worded comparings) "T" "Construct" copyWord.signature = .ok copyWord :=
      resolveCall_worded (lookup_comparings (.inl rfl))
    have hcompare : NodeKind.resolveCall (worded comparings) "T" "Compare" compareWords.signature =
        .ok compareWords := resolveCall_worded (lookup_comparings (.inr rfl))
    simp only [liveNodes_chained, compileNodes, compileNode, opOf, hcopy, hcompare, bind, Except.bind]
    rfl
  refine compile_eq_ok_iff.mpr ⟨edited_chained.overflows_eq_false, herrors, ?_⟩
  simp only [assemble, hpins, hnodes, bind, Except.bind]
  with_unfolding_all rfl

/-- The second copy is made of the first one, and that of the argument. -/
theorem descends_chained : chained.Edited ∧ compile chained (worded comparings) {} = .ok chainedProgram ∧
    [⟨8⟩, ⟨5⟩, ⟨3⟩].IsChain chainedProgram.Pulls ∧ chainedProgram.expressions.length = 2 ∧
    chainedProgram.Descends := by
  refine ⟨edited_chained, compile_chained, ?_, rfl, descends_of_compile edited_chained compile_chained⟩
  refine List.isChain_cons_cons.mpr ⟨?_, List.isChain_cons_cons.mpr ⟨?_, .singleton _⟩⟩ <;>
    exact ⟨_, _, _, _, rfl, rfl, rfl, rfl, rfl, List.mem_singleton_self _⟩

end Program

end Flowscript
