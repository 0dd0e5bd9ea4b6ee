import Flowscript.Proofs.Run.LoopVisits

/-! # Rounds of a counting loop

A counting loop is visited when it is entered, when its body comes back, and when its body leaves it. Its index
tells how often the body was entered so far.
-/
namespace Flowscript

open Run

/-- How execution comes to a counting loop. -/
def Run.Arrival.via : Arrival → Option PinId
  | .through id => some id
  | .again _ => none

def ProgramNode.entering (n : ProgramNode) (a : Activation) : Moment := ⟨n.flowIn[0]?, a⟩

/-- Flow leads to the second input of a loop. -/
def ProgramNode.leaving (n : ProgramNode) (a : Activation) : Moment := ⟨n.flowIn[1]?, a⟩

namespace Course

def indices (s : Int) (count : Nat) : List Int := (List.range count).map fun i => s + i

theorem indices_succ (s : Int) (count : Nat) : indices s (count + 1) = indices s count ++ [s + count] := by
  simp [indices, List.range_succ]

@[simp] theorem length_indices (s : Int) (count : Nat) : (indices s count).length = count := by
  simp [indices]

variable (r : Course) (n : ProgramNode)

/-- Execution comes to a counting loop through one of its inputs, or after its body. -/
def Comes : Arrival → Prop
  | .through id => ∃ q, r.scope.program.pin? id = some q ∧ q.node = n.id
  | .again marker => marker = .forLoop n.id

/-- The budget allows every visit of a loop until it is over. -/
def Affords (m : Moment) : Prop :=
  ∀ ms v, r.Runs m ms v → r.Stays n ms → r.node? v = some n.id → ¬ r.Exceeds v

/-- A loop is entered while other loops are running, and the budget allows to visit it. -/
structure Enters (S : List LoopMarker) (a : Activation) : Prop where
  loops : a.frame.loops = S
  outside : ∀ m ∈ S, m.node ≠ n.id
  size : a.frame.slots.size = r.scope.program.pins.size
  affords : r.Affords n (n.entering a)

/-- The body of a loop begins: so far the loop was not over, and it was visited just now. -/
structure Begins (m : Moment) (ms : List Moment) (b : Moment) : Prop where
  runs : r.Runs m ms b
  stays : r.Stays n ms
  visited : ∃ v ∈ ms.getLast?, r.node? v = some n.id

/-- From a moment in the body of a loop, the flow ends with the loops that were running when the body began,
without a visit of the loop on the way. The index is then what it was. -/
def Returns (S : List LoopMarker) (Q : List Moment → Prop) (b : Moment) : Prop :=
  ∃ ms c, r.Runs b ms ⟨none, c⟩ ∧ r.Avoids n.id ms ∧ c.frame.loops = .forLoop n.id :: S ∧
    (∀ index ∈ n.dataOut, ∀ x, b.act.Stores r.scope.program index x → c.Stores r.scope.program index x) ∧ Q ms

/-- From the body of a loop, and perhaps of loops inside it, the flow leads to the loop's second input. -/
def Breaks (S : List LoopMarker) (b : Moment) : Prop :=
  ∃ ms c T, r.Runs b ms (n.leaving c) ∧ r.Avoids n.id ms ∧
    c.frame.loops = T ++ .forLoop n.id :: S ∧ ∀ m ∈ T, m.node ≠ n.id

/-- The body of a loop leads into another loop, which comes back to itself without visiting the first. When it is
completed, the flow ends like the body of the first. -/
def Nests (m : ProgramNode) (S : List LoopMarker) (b : Moment) : Prop :=
  ∃ before a, r.Runs b before (m.entering a) ∧ r.Avoids n.id before ∧ r.Avoids m.id before ∧
    r.Enters m a.frame.loops a ∧
    (∀ ms b', r.Begins m (m.entering a) ms b' → r.Returns m a.frame.loops (r.Avoids n.id) b') ∧
    ∀ ms c, r.Runs (m.entering a) ms ⟨r.scope.program.follow m 1, c⟩ → r.Avoids n.id ms →
      c.frame.loops = a.frame.loops →
      ∃ after c', r.Runs ⟨r.scope.program.follow m 1, c⟩ after ⟨none, c'⟩ ∧ r.Avoids n.id after ∧
        r.Avoids m.id after ∧ c'.frame.loops = .forLoop n.id :: S ∧
        ∀ index ∈ n.dataOut, ∀ x, b.act.Stores r.scope.program index x → c'.Stores r.scope.program index x

variable {r n} {c : Catalogue} {s e x : Int} {S T : List LoopMarker} {a : Activation} {m m' b v : Moment}
  {ms : List Moment} {arrival : Arrival} {P : Option PinId → Activation → Prop} {Q : List Moment → Prop}

theorem node?_of_comes (harrival : arrival? m.next m.act.frame = some arrival) (hcomes : r.Comes n arrival) :
    r.node? m = some n.id := by
  unfold node?
  rw [harrival]
  cases arrival with
  | again marker =>
    cases hcomes
    rfl
  | through id =>
    obtain ⟨q, hq, hid⟩ := hcomes
    simp only [hq, Option.map_some, hid]

/-- A statement that fails only for want of budget leads somewhere when there is enough. -/
theorem exists_step (harrival : arrival? m.next m.act.frame = some arrival)
    (h : ∀ a, a.frame = m.act.frame → a.machine.memory = m.act.machine.memory →
      Ensures (statement r.invoke r.ret arrival) r.scope a (fun o b => ∃ next, o = .next next ∧ P next b) TimesOut)
    (hbudget : ¬ r.Exceeds m) :
    ∃ next b, r.step? m = some ⟨next, ⟨{ b.frame with statements := b.frame.statements + 1 }, b.machine⟩⟩ ∧
      P next b := by
  have hoc : r.outcome? m = some ((do tick; statement r.invoke r.ret arrival : Run Outcome) r.scope m.act) := by
    rw [outcome?, harrival, Option.map_some]
  have hensures : Ensures (do tick; statement r.invoke r.ret arrival : Run Outcome) r.scope m.act
      (fun o b => ∃ next, o = .next next ∧ P next b) TimesOut := by
    refine Ensures.bind ((ensures_tick m.act).mono (fun _ _ h => h) fun _ _ h => h) ?_
    rintro - a ⟨hframe, hmemory⟩
    exact h a hframe hmemory
  cases hrun : (do tick; statement r.invoke r.ret arrival : Run Outcome) r.scope m.act with
  | error e b =>
    rw [hrun] at hoc
    exact absurd ⟨e, b, hoc, hensures.error hrun⟩ hbudget
  | ok o b =>
    obtain ⟨next, rfl, hP⟩ := hensures.ok hrun
    refine ⟨next, b, ?_, hP⟩
    rw [step?, hoc, hrun]

/-- A run that enters the body of a loop with so many indices from a start on. What it does besides visiting the
loop is to come back from the body so many times, each time in a way that is known. -/
structure Tours (r : Course) (n : ProgramNode) (s : Int) (Q : List Moment → Prop) (ms : List Moment)
    (count back : Nat) : Prop where
  entries : r.entries n ms = indices s count
  rounds : ∃ rounds : List (List Moment), rounds.length = back ∧ (∀ round ∈ rounds, Q round) ∧
    ms.filter (r.node? · ≠ some n.id) = rounds.flatten

namespace Tours

variable {count back : Nat}

theorem nil (n : ProgramNode) (s : Int) (Q : List Moment → Prop) : r.Tours n s Q [] 0 0 :=
  ⟨rfl, [], rfl, nofun, rfl⟩

theorem rounds_visit (h : r.Tours n s Q ms count back) (hat : r.node? v = some n.id) :
    ∃ rounds : List (List Moment), rounds.length = back ∧ (∀ round ∈ rounds, Q round) ∧
      (ms ++ [v]).filter (r.node? · ≠ some n.id) = rounds.flatten := by
  obtain ⟨rounds, hlength, hrounds, hrest⟩ := h.rounds
  refine ⟨rounds, hlength, hrounds, ?_⟩
  rw [List.filter_append, hrest]
  simp [hat]

theorem visit (h : r.Tours n s Q ms count back) (hat : r.node? v = some n.id)
    (hentry : r.index? n v = some (s + count)) : r.Tours n s Q (ms ++ [v]) (count + 1) back := by
  refine ⟨?_, h.rounds_visit hat⟩
  rw [entries_append, h.entries, indices_succ, entries_singleton, hentry]
  rfl

theorem pass (h : r.Tours n s Q ms count back) (hat : r.node? v = some n.id) (hentry : r.index? n v = none) :
    r.Tours n s Q (ms ++ [v]) count back := by
  refine ⟨?_, h.rounds_visit hat⟩
  rw [entries_append, h.entries, entries_singleton, hentry]
  exact List.append_nil _

theorem round {round : List Moment} (h : r.Tours n s Q ms count back) (havoids : r.Avoids n.id round)
    (hQ : Q round) : r.Tours n s Q (ms ++ round) count (back + 1) := by
  obtain ⟨rounds, hlength, hrounds, hrest⟩ := h.rounds
  refine ⟨?_, rounds ++ [round], ?_, fun round' hround' => ?_, ?_⟩
  · rw [entries_append, h.entries, havoids.entries_eq_nil, List.append_nil]
  · rw [List.length_append, hlength]
    rfl
  · rcases List.mem_append.mp hround' with hold | hnew
    · exact hrounds round' hold
    · rwa [List.mem_singleton.mp hnew]
  · have hround : round.filter (r.node? · ≠ some n.id) = round :=
      List.filter_eq_self.mpr fun m hm => decide_eq_true (havoids m hm)
    rw [List.filter_append, hrest, hround, List.flatten_append, List.flatten_singleton]

theorem avoids {id : NodeId} (h : r.Tours n s Q ms count back) (hid : id ≠ n.id)
    (hQ : ∀ round, Q round → r.Avoids id round) : r.Avoids id ms := by
  obtain ⟨rounds, -, hrounds, hrest⟩ := h.rounds
  intro m hm hat
  have hmem : m ∈ ms.filter (r.node? · ≠ some n.id) := by
    refine List.mem_filter.mpr ⟨hm, decide_eq_true ?_⟩
    rw [hat]
    exact fun he => hid (Option.some.inj he)
  rw [hrest] at hmem
  obtain ⟨round, hround, hm⟩ := List.mem_flatten.mp hmem
  exact hQ round (hrounds round hround) m hm hat

theorem entries_other {m : ProgramNode} {xs : List Int} (h : r.Tours n s Q ms count back) (hm : m.id ≠ n.id)
    (hQ : ∀ round, Q round → r.entries m round = xs) :
    r.entries m ms = (List.replicate back xs).flatten := by
  obtain ⟨rounds, hlength, hrounds, hrest⟩ := h.rounds
  rw [← entries_filter hm, hrest, entries_flatten fun round hround => hQ round (hrounds round hround), hlength]

end Tours

theorem Stays.one {x : Int} (hentry : r.index? n v = some x) : r.Stays n [v] := by
  intro v' hv' _
  rw [List.mem_singleton.mp hv', hentry]
  rfl

/-- A visit after which none of the loops is running that is visited does not enter its body. -/
theorem index?_eq_none (hstep : r.step? v = some b) (hloops : b.act.frame.loops = S)
    (hS : ∀ m ∈ S, m.node ≠ n.id) : r.index? n v = none := by
  unfold index?
  split
  · rw [hstep, Option.bind_some]
    refine if_neg fun hinside => ?_
    obtain ⟨m, hm, hid⟩ := Option.map_eq_some_iff.mp hinside
    rw [hloops] at hm
    exact hS m (List.mem_of_head? hm) hid
  · rfl

section Visits

variable (hn : r.Counting n s e)
include hn

theorem Counting.ensures_statement {E : ScriptError → Activation → Prop} (hcomes : r.Comes n arrival)
    (h : ∀ b, b.frame = a.frame → b.machine.memory = a.machine.memory →
      Ensures (visitFor r.invoke n arrival.via) r.scope b P E) :
    Ensures (statement r.invoke r.ret arrival) r.scope a (fun o b => ∃ next, o = .next next ∧ P next b) E := by
  have hvisit : Ensures (noteNode "Executing node" n >>= fun _ => do
      return Outcome.next (← visitFor r.invoke n arrival.via)) r.scope a
      (fun o b => ∃ next, o = .next next ∧ P next b) E := by
    refine Ensures.bind ((ensures_noteNode _ n a).mono (fun _ _ h => h) fun _ _ h => h.elim) ?_
    rintro - b ⟨hframe, hmemory⟩
    refine (h b hframe hmemory).bind fun next b hP => ?_
    exact ⟨next, rfl, hP⟩
  cases arrival with
  | again marker =>
    cases hcomes
    exact Ensures.bind_of_ok (node_of_node? hn.node a) hvisit
  | through id =>
    obtain ⟨q, hq, hid⟩ := hcomes
    refine Ensures.bind_of_ok (pin_of_pin? hq a) (Ensures.bind_of_ok (node_of_node? (hid ▸ hn.node) a) ?_)
    simp only [hn.op]
    exact hvisit

/-- A visit that fails only for want of budget leads somewhere, if it is allowed. -/
theorem Counting.exists_visit (harrival : arrival? m.next m.act.frame = some arrival) (hcomes : r.Comes n arrival)
    (hbudget : r.node? m = some n.id → ¬ r.Exceeds m)
    (h : ∀ b, b.frame = m.act.frame → b.machine.memory = m.act.machine.memory →
      Ensures (visitFor r.invoke n arrival.via) r.scope b P TimesOut)
    (hP : ∀ next b k, P next b → P next ⟨{ b.frame with statements := k }, b.machine⟩) :
    r.node? m = some n.id ∧ ∃ m', r.step? m = some m' ∧ P m'.next m'.act := by
  have hat := node?_of_comes harrival hcomes
  refine ⟨hat, ?_⟩
  obtain ⟨next, b, hstep, hnext⟩ := exists_step harrival
    (fun a hframe hmemory => hn.ensures_statement hcomes fun b hframe' hmemory' =>
      h b (hframe'.trans hframe) (hmemory'.trans hmemory)) (hbudget hat)
  exact ⟨_, hstep, hP next b _ hnext⟩

omit hn in
theorem Turned.restate {next : Option PinId} {b : Activation} (h : r.Turned n S e x next b) (k : UInt32) :
    r.Turned n S e x next ⟨{ b.frame with statements := k }, b.machine⟩ := by
  unfold Turned at h ⊢
  split
  · rename_i hlt
    rw [if_pos hlt] at h
    refine ⟨h.1, h.2.1, fun index hindex => ?_⟩
    exact (h.2.2 index hindex).congr rfl rfl fun _ _ => rfl
  · rename_i hge
    rw [if_neg hge] at h
    exact h

variable (hp : r.scope.program.WellFormed c)
include hp

theorem Counting.visits_first (hin : r.scope.program.OwnInputs n) (hloops : a.frame.loops = S)
    (hS : ∀ m ∈ S, m.node ≠ n.id) (hsize : a.frame.slots.size = r.scope.program.pins.size)
    (hbudget : r.node? (n.entering a) = some n.id → ¬ r.Exceeds (n.entering a)) :
    r.node? (n.entering a) = some n.id ∧ ∃ b, r.step? (n.entering a) = some b ∧
      r.Turned n S e s b.next b.act := by
  obtain ⟨exec, -, -, -, -, -, -, hexec, -⟩ := hn.pins hp
  have harrival : arrival? (n.entering a).next (n.entering a).act.frame = some (.through exec) := by
    rw [ProgramNode.entering, hexec]
    rfl
  have hcomes : r.Comes n (.through exec) := hin.own exec (List.mem_of_getElem? hexec)
  refine hn.exists_visit harrival hcomes hbudget ?_ fun _ _ k h => h.restate k
  intro b hframe _
  refine hn.visit_first hp hexec hin.nodup ?_ ?_ hS
  · rw [hframe]
    exact hsize
  · rw [hframe]
    exact hloops

theorem Counting.enters (hin : r.scope.program.OwnInputs n) (ha : r.Enters n S a) :
    r.node? (n.entering a) = some n.id ∧ ∃ b, r.step? (n.entering a) = some b ∧
      r.Turned n S e s b.next b.act := by
  refine hn.visits_first hp hin ha.loops ha.outside ha.size ?_
  exact ha.affords [] (n.entering a) (.refl _) (by intro m hm; cases hm)

theorem Counting.visits_again {c : Activation} (hloops : c.frame.loops = .forLoop n.id :: S)
    (hx : ∀ index ∈ n.dataOut.head?, c.Stores r.scope.program index x) (hlt : x < e)
    (hlow : IntKind.i32.contains x = true)
    (hbudget : r.node? ⟨none, c⟩ = some n.id → ¬ r.Exceeds ⟨none, c⟩) :
    r.node? ⟨none, c⟩ = some n.id ∧ ∃ b, r.step? ⟨none, c⟩ = some b ∧
      r.Turned n S e (x + 1) b.next b.act := by
  have harrival : arrival? none c.frame = some (.again (.forLoop n.id)) := by
    rw [arrival?, hloops]
    rfl
  refine hn.exists_visit harrival rfl hbudget ?_ fun _ _ k h => h.restate k
  intro b hframe hmemory
  refine hn.visit_again hp (by rw [hframe]; exact hloops) (fun index hindex => ?_) hlt hlow
  exact (hx index hindex).of_eq hframe hmemory

theorem Counting.visits_leave {c : Activation} (hin : r.scope.program.OwnInputs n)
    (hloops : c.frame.loops = T ++ .forLoop n.id :: S) (hT : ∀ m ∈ T, m.node ≠ n.id)
    (hbudget : r.node? (n.leaving c) = some n.id → ¬ r.Exceeds (n.leaving c)) :
    r.node? (n.leaving c) = some n.id ∧ ∃ b, r.step? (n.leaving c) = some b ∧
      b.next = r.scope.program.follow n 1 ∧ b.act.frame.loops = S := by
  obtain ⟨-, leave, -, -, -, -, -, -, hleave, -⟩ := hn.pins hp
  have harrival : arrival? (n.leaving c).next (n.leaving c).act.frame = some (.through leave) := by
    rw [ProgramNode.leaving, hleave]
    rfl
  have hcomes : r.Comes n (.through leave) := hin.own leave (List.mem_of_getElem? hleave)
  refine hn.exists_visit (P := fun next b => next = r.scope.program.follow n 1 ∧ b.frame.loops = S) harrival hcomes
    hbudget ?_ fun _ _ _ h => h
  intro b hframe _
  exact hn.visit_leave hp hleave (by rw [hframe]; exact hloops) hT

theorem Counting.index?_eq (hat : r.node? v = some n.id) (hstep : r.step? v = some b)
    (hS : ∀ m ∈ S, m.node ≠ n.id) (h : r.Turned n S e x b.next b.act) :
    r.index? n v = if x < e then some x else none := by
  obtain ⟨-, -, -, -, -, -, index, -, -, -, -, -, -, hindex⟩ := hn.pins hp
  rw [← List.head?_eq_getElem?] at hindex
  unfold Turned at h
  by_cases hlt : x < e
  · rw [if_pos hlt] at h ⊢
    obtain ⟨-, hloops, hstores⟩ := h
    rw [index?, if_pos hat, hstep, Option.bind_some]
    have hinside : b.act.frame.Inside n.id := by
      rw [Frame.Inside, hloops]
      rfl
    rw [if_pos hinside, hindex, Option.bind_some]
    exact (hstores index hindex).2
  · rw [if_neg hlt] at h ⊢
    exact index?_eq_none hstep h.2 hS

theorem Counting.comes_back (ha : r.Enters n S a) (hb : r.Begins n (n.entering a) ms b)
    (hx : ∀ index ∈ n.dataOut.head?, b.act.Stores r.scope.program index x) (hlt : x < e)
    (hlow : IntKind.i32.contains x = true) (hreturns : r.Returns n S Q b) :
    ∃ round v b', Q round ∧ r.Avoids n.id round ∧ r.Runs (n.entering a) (ms ++ round ++ [v]) b' ∧
      r.node? v = some n.id ∧ r.step? v = some b' ∧ r.Turned n S e (x + 1) b'.next b'.act := by
  obtain ⟨round, c, hround, havoids, hloops, hkept, hQ⟩ := hreturns
  have hruns := hb.runs.trans hround
  have hx' : ∀ index ∈ n.dataOut.head?, c.Stores r.scope.program index x := fun index hindex =>
    hkept index (List.mem_of_head? hindex) x (hx index hindex)
  obtain ⟨hat, b', hstep, hturned⟩ := hn.visits_again hp hloops hx' hlt hlow
    (ha.affords _ _ hruns (hb.stays.append havoids.stays))
  exact ⟨round, ⟨none, c⟩, b', hQ, havoids, hruns.trans (.one hstep), hat, hstep, hturned⟩

omit hp in
theorem Counting.contains_index (hle : s ≤ x) (hlt : x < e) : IntKind.i32.contains x = true := by
  have hfirst := hn.first
  have hlast := hn.last
  simp only [IntKind.contains, IntKind.least, IntKind.greatest, IntKind.signed, IntKind.modulus, if_true,
    Bool.and_eq_true, decide_eq_true_eq] at hfirst hlast ⊢
  omega

variable (hin : r.scope.program.OwnInputs n)
include hin

theorem Counting.begins (ha : r.Enters n S a) (k : Nat) (hk : s + k < e)
    (hreturns : ∀ ms b, r.Begins n (n.entering a) ms b → (r.entries n ms).length ≤ k → r.Returns n S Q b) :
    ∃ ms b, r.Begins n (n.entering a) ms b ∧ b.act.frame.loops = .forLoop n.id :: S ∧
      (∀ index ∈ n.dataOut.head?, b.act.Stores r.scope.program index (s + k)) ∧ r.Tours n s Q ms (k + 1) k := by
  induction k with
  | zero =>
    obtain ⟨hat, b, hstep, hturned⟩ := hn.enters hp hin ha
    have hlt : s < e := by omega
    have hentry := hn.index?_eq hp hat hstep ha.outside hturned
    rw [if_pos hlt] at hentry
    rw [Turned, if_pos hlt] at hturned
    refine ⟨[n.entering a], b, ⟨.one hstep, .one hentry, _, rfl, hat⟩, hturned.2.1, ?_, ?_⟩
    · simpa using hturned.2.2
    · exact (Tours.nil n s Q).visit hat (by simpa using hentry)
  | succ k ih =>
    obtain ⟨ms, b, hb, -, hx, htours⟩ := ih (by omega) fun ms b hb hle =>
      hreturns ms b hb (Nat.le_succ_of_le hle)
    have hreturn := hreturns ms b hb (by rw [htours.entries, length_indices])
    have hbefore : s + k < e := by omega
    obtain ⟨round, v, b', hQ, havoids, hruns, hat, hstep, hturned⟩ :=
      hn.comes_back hp ha hb hx hbefore (hn.contains_index (by omega) hbefore) hreturn
    have hcount : s + ((k + 1 : Nat) : Int) = s + k + 1 := by omega
    rw [hcount] at hk ⊢
    have hentry := hn.index?_eq hp hat hstep ha.outside hturned
    rw [if_pos hk] at hentry
    rw [Turned, if_pos hk] at hturned
    refine ⟨ms ++ round ++ [v], b', ⟨hruns, (hb.stays.append havoids.stays).append (.one hentry), v,
      List.getLast?_concat, hat⟩, hturned.2.1, hturned.2.2, ?_⟩
    exact (htours.round havoids hQ).visit hat (by rw [hentry, hcount])

/-- When the body always comes back, the loop is completed after the last index. -/
theorem Counting.completes (ha : r.Enters n S a)
    (hreturns : ∀ ms b, r.Begins n (n.entering a) ms b → r.Returns n S Q b) :
    ∃ ms c, r.Runs (n.entering a) ms ⟨r.scope.program.follow n 1, c⟩ ∧ c.frame.loops = S ∧
      r.Tours n s Q ms (e - s).toNat (e - s).toNat := by
  cases hcount : (e - s).toNat with
  | zero =>
    obtain ⟨hat, b, hstep, hturned⟩ := hn.enters hp hin ha
    have hge : ¬ s < e := by omega
    have hentry := hn.index?_eq hp hat hstep ha.outside hturned
    rw [if_neg hge] at hentry
    rw [Turned, if_neg hge] at hturned
    refine ⟨[n.entering a], b.act, ?_, hturned.2, (Tours.nil n s Q).pass hat hentry⟩
    rw [← hturned.1]
    exact .one hstep
  | succ k =>
    have hk : s + k < e := by omega
    obtain ⟨ms, b, hb, -, hx, htours⟩ := hn.begins hp hin ha k hk fun ms b hb _ => hreturns ms b hb
    obtain ⟨round, v, b', hQ, havoids, hruns, hat, hstep, hturned⟩ :=
      hn.comes_back hp ha hb hx hk (hn.contains_index (by omega) hk) (hreturns ms b hb)
    have hge : ¬ s + k + 1 < e := by omega
    have hentry := hn.index?_eq hp hat hstep ha.outside hturned
    rw [if_neg hge] at hentry
    rw [Turned, if_neg hge] at hturned
    refine ⟨ms ++ round ++ [v], b'.act, ?_, hturned.2, (htours.round havoids hQ).pass hat hentry⟩
    rw [← hturned.1]
    exact hruns

/-- When the body leads to the second input instead of coming back, the loop is completed then. -/
theorem Counting.breaks (ha : r.Enters n S a) (k : Nat) (hk : s + k < e)
    (hreturns : ∀ ms b, r.Begins n (n.entering a) ms b → (r.entries n ms).length ≤ k → r.Returns n S Q b)
    (hbreaks : ∀ ms b, r.Begins n (n.entering a) ms b → (r.entries n ms).length = k + 1 → r.Breaks n S b) :
    ∃ ms c, r.Runs (n.entering a) ms ⟨r.scope.program.follow n 1, c⟩ ∧ c.frame.loops = S ∧
      r.entries n ms = indices s (k + 1) := by
  obtain ⟨ms, b, hb, -, -, htours⟩ := hn.begins hp hin ha k hk hreturns
  obtain ⟨rest, c, T, hrest, havoids, hloops, hT⟩ := hbreaks ms b hb (by rw [htours.entries, length_indices])
  have hruns := hb.runs.trans hrest
  obtain ⟨hat, b', hstep, hnext, hafter⟩ := hn.visits_leave hp hin hloops hT
    (ha.affords _ _ hruns (hb.stays.append havoids.stays))
  have hentry := index?_eq_none hstep hafter ha.outside
  refine ⟨ms ++ rest ++ [n.leaving c], b'.act, ?_, hafter, ?_⟩
  · rw [← hnext]
    exact hruns.trans (.one hstep)
  · rw [entries_append, entries_append, htours.entries, havoids.entries_eq_nil, entries_singleton, hentry]
    simp

omit hn hin in
/-- A loop inside the body of another is entered anew each time. -/
theorem Counting.nests {m : ProgramNode} {s' e' : Int} (hm : r.Counting m s' e') (hin' : r.scope.program.OwnInputs m)
    (hne : m.id ≠ n.id) (hb : r.Nests n m S b) :
    r.Returns n S (fun round => r.entries m round = indices s' (e' - s').toNat) b := by
  obtain ⟨before, a, hbefore, havoids, havoids', ha, hreturns, hafter⟩ := hb
  obtain ⟨ms, c, hruns, hloops, htours⟩ := hm.completes hp hin' ha hreturns
  have hnever : r.Avoids n.id ms := htours.avoids hne.symm fun _ h => h
  obtain ⟨after, c', hafter, hclear, hclear', hloops', hkept⟩ := hafter ms c hruns hnever hloops
  refine ⟨before ++ ms ++ after, c', (hbefore.trans hruns).trans hafter, ?_, hloops', hkept, ?_⟩
  · exact (havoids.append hnever).append hclear
  · show r.entries m (before ++ ms ++ after) = _
    rw [entries_append, entries_append, havoids'.entries_eq_nil, htours.entries, hclear'.entries_eq_nil]
    simp

end Visits

end Course

end Flowscript
