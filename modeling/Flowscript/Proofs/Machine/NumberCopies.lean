import Flowscript.Proofs.Machine.DeterminedComputations
import Flowscript.Proofs.Run.PureFunctions
import Flowscript.Proofs.Run.StoredIntegers

/-! # Numbers are copied and moved as they are seen

Of a value of a type that is laid out as a number, the number is seen. The constructor that copies it and the
function that moves out of it make what they see, and write nothing else; so both are determined.
-/
namespace Flowscript

namespace Program

/-- Of a value, the number at its beginning is seen. -/
def words : Notion where
  Data := Atom
  look _ b o := b.read o (.int .i32)

/-- The number that is read where a number was written. -/
def kept (n : Int) : Atom := (Prim.int .i32).ofBits ((Prim.int .i32).bits (.int n) % 256 ^ 4)

def made (n : Int) : Option Place → Yield Atom
  | some _ => .built (kept n)
  | none => .moved (kept n)

def worded (functions : List (FunctionKey × List Function)) : Catalogue where
  infos := #[{ TypeInfo.new "T" ⟨4, 4⟩ with traits := { copy := true }, functions }]
  index := (∅ : Std.HashMap TypeId Handle).insert (.ofName "T") 0

theorem taking_eq_worded : taking = worded [(.ofName "Take", [takeWord]), (.operator .construct, [copyWord])] := rfl

variable {functions : List (FunctionKey × List Function)} {f : Function}

theorem handle?_worded {id : TypeId} {h : Handle} (hh : (worded functions).handle? id = some h) :
    id = .ofName "T" ∧ h = 0 := by
  simp only [Catalogue.handle?, worded, Std.HashMap.getElem?_insert] at hh
  split at hh
  · rename_i heq
    exact ⟨(eq_of_beq heq).symm, (Option.some.inj hh).symm⟩
  · simp at hh

theorem filed_worded : (worded functions).Filed := by
  refine ⟨fun h t ht => ?_, fun id h hh => ?_⟩
  · cases h with
    | zero =>
      cases ht
      rfl
    | succ h => cases ht
  · obtain ⟨rfl, rfl⟩ := handle?_worded hh
    exact ⟨_, rfl, rfl⟩

theorem embeds_worded : (worded functions).Embeds words.lies where
  whole := Notion.lies_self
  base h _ := h
  field _ ht hf := by
    obtain ⟨handle, hhandle, rfl⟩ := Option.map_eq_some_iff.mp ht
    obtain ⟨-, rfl⟩ := handle?_worded hhandle
    cases hf

theorem overload_worded {h : Handle} {key : FunctionKey} (hf : f ∈ ((worded functions).info h).overloads key) :
    h = 0 ∧ f ∈ (functions.lookup key).getD [] := by
  cases h with
  | zero => exact ⟨rfl, hf⟩
  | succ h => cases hf

theorem handleNamed?_worded : (worded functions).handleNamed? "T" = some 0 := by
  have hhandle : (worded functions).handle? (.ofName "T") = some 0 := by simp [Catalogue.handle?, worded]
  rw [Catalogue.handleNamed?, hhandle]
  rfl

theorem lookupName?_worded : (worded functions).lookupName? "T" = some ((worded functions).info 0) := by
  rw [Catalogue.lookupName?, handleNamed?_worded]
  rfl

theorem typeName_worded : NodeKind.typeName (worded functions) (.ofName "T") = .ok "T" := by
  rw [NodeKind.typeName, Catalogue.lookup?, Catalogue.handle?_of_handleNamed? handleNamed?_worded]
  rfl

theorem resolveCall_worded (hf : functions.lookup (.ofName f.name) = some [f]) :
    NodeKind.resolveCall (worded functions) "T" f.name f.signature = .ok f := by
  rw [NodeKind.resolveCall, lookupName?_worded]
  simp [worded, Catalogue.info, TypeInfo.functionsNamed, TypeInfo.overloads, TypeInfo.new, hf]

def copyPins : List PinSpec := [.dataIn "other" "T" .constRef, .dataOut Function.resultName "T" .value]

theorem callPins_copyWord : NodeKind.callPins (worded functions) copyWord = .ok copyPins := by
  simp only [NodeKind.callPins, copyWord, Function.resultParam, List.mapM_cons, List.mapM_nil, typeName_worded]
  rfl

def pinsOf (node : NodeId) (first : Nat) (specs : List PinSpec) : List Pin :=
  (specs.zipIdx first).map fun (s, i) => ⟨⟨i⟩, node, s.direction, s.name, s.type, none⟩

theorem checkNode_worded {g : Graph} {n : Node} {pins : List PinSpec}
    (hf : functions.lookup (.ofName f.name) = some [f]) (hpins : NodeKind.callPins (worded functions) f = .ok pins)
    (hkind : n.kind = .call "T" f.name f.signature)
    (hrange : n.firstPin.val ≠ 0 ∧ n.firstPin.val - 1 + n.pinCount ≤ g.pins.size)
    (hown : ∀ p ∈ g.nodePins n.id, p.node = n.id ∧ ∀ type ∈ p.type.type?, type = "T")
    (hfits : ((g.nodePins n.id).length == n.pinCount && pins.length == (g.nodePins n.id).length
        && (pins.zip (g.nodePins n.id)).all fun (s, p) => s.fits p) = true) :
    g.checkNode (worded functions) n = [] := by
  obtain ⟨hfull, hfits⟩ := Graph.fitting_iff.mp hfits
  refine Graph.checkNode_eq_nil_iff.mpr ⟨hrange.1, hrange.2, fun p hp => (hown p hp).1, hfull, ⟨pins, ?_, hfits⟩,
    fun _ _ p hp type htype => ?_⟩
  · rw [hkind, NodeKind.expectedPins, resolveCall_worded hf]
    exact hpins
  · rw [(hown p hp).2 type htype, lookupName?_worded]
    rfl

/-- A number was made, and nothing was written but the number and what was handed over. -/
structure MadeWord (args : List Value) (ret : Option Place) (n : Int) (m : Machine) (result : Option Value)
    (t : Machine) : Prop where
  beside : m.Beside (Writes args ret) t
  yield : words.yield t.memory (.ofName "T") ret result = made n ret
  owned : ∀ v, result = some v → ret = none ∧ ∃ place, v = .owned (.ofName "T") place 4 none ∧
    m.memory.next ≤ place.block

variable {args : List Value} {ret : Option Place} {result : Option Value} {w : Context} {m t : Machine} {n : Int}

theorem made_giveBack {x : Exec CallError (List Atom)} {P : Int → Prop} {E : CallError → Machine → Prop}
    (hx : Ensures x w m (fun data t => ∃ n, data = [.int n] ∧ P n ∧ m.Beside (Writes args none) t) E) :
    Ensures (x >>= fun data => Exec.giveBack wordShape none ret data) w m
      (fun result t => ∃ n, P n ∧ MadeWord args ret n m result t) E := by
  have hread : ∀ (n : Int) (memory : Memory) (place : Place),
      words.data (memory.write place (.int .i32) (.int n)) (.ofName "T") place = kept n := by
    have hprim : Prim.int .i32 ≠ .text := fun h => nomatch h
    have hatom : ∀ n s, Atom.int n ≠ .text s := fun _ _ h => nomatch h
    exact fun n _ _ => Memory.read_write hprim (hatom n)
  refine Ensures.bind hx ?_
  rintro _ t ⟨n, rfl, hn, hbeside⟩
  cases ret with
  | some place =>
    refine ⟨n, hn, ⟨hbeside.next, fun b hb hnot => ?_, hbeside.world, hbeside.current, hbeside.counts⟩,
      congrArg Yield.built (hread n t.memory place), fun _ hv => nomatch hv⟩
    refine (Memory.block_write_of_ne _ _ _ fun he => hnot (.inl ⟨place, rfl, he⟩)).trans ?_
    exact hbeside.block b hb fun hw => hnot (hw.imp_left fun ⟨_, h, _⟩ => nomatch h)
  | none =>
    refine ⟨n, hn, ⟨hbeside.next.trans (Nat.le_succ _), fun b hb hnot => ?_, hbeside.world,
      hbeside.current, hbeside.counts⟩, congrArg Yield.moved (hread n _ _),
      fun v hv => ⟨rfl, _, (Option.some.inj hv).symm, hbeside.next⟩⟩
    refine (Memory.block_write_of_ne _ _ _ ?_).trans (hbeside.block b hb hnot)
    exact Nat.ne_of_gt (hb.trans_le hbeside.next)

/-- The number that is seen of the first argument. -/
def word? : List (Sight words.Data) → Option Int
  | [] => none
  | s :: _ =>
    if s.type = .ofName wordShape.name then
      match (s.data : Option Atom) with
      | some (.int n) => some n
      | _ => none
    else none

theorem argument_sight (m : Memory) (args : List Value) : args.map Value.argument =
    (args.map (words.sight m)).map fun s => ⟨s.type, s.form, s.data.isNone⟩ := by
  rw [List.map_map]
  refine List.map_congr_left fun v _ => ?_
  rw [Function.comp_apply, Notion.sight, Value.argument, Value.isNull, Option.isNone_map]

theorem word?_cons (m : Memory) (v : Value) (vs : List Value) :
    (∃ place n, v.type = .ofName wordShape.name ∧ v.place? = some place ∧
      m.read place (.int .i32) = .int n ∧ word? ((v :: vs).map (words.sight m)) = some n) ∨
    (∀ place, v.place? = some place → v.type ≠ .ofName wordShape.name) ∧
      word? ((v :: vs).map (words.sight m)) = none := by
  rw [List.map_cons, word?, Notion.sight]
  by_cases htype : v.type = .ofName wordShape.name
  · cases hplace : v.place? with
    | none => exact .inr ⟨fun _ h => (by cases h), if_pos htype⟩
    | some place => exact .inl ⟨place, _, htype, rfl, rfl, if_pos htype⟩
  · exact .inr ⟨fun _ _ => htype, if_neg htype⟩

theorem ensures_argumentData (v : Value) (vs : List Value) :
    Ensures (NativeOp.argumentData wordShape (v :: vs) 0) w m
      (fun data t => ∃ n, data = [.int n] ∧ word? ((v :: vs).map (words.sight m.memory)) = some n ∧
        m.Beside (Writes (v :: vs) none) t)
      fun _ _ => word? ((v :: vs).map (words.sight m.memory)) = none := by
  unfold NativeOp.argumentData readArgument
  simp only [List.getElem?_cons_zero]
  rcases word?_cons m.memory v vs with ⟨place, n, htype, hplace, hread, hword⟩ | ⟨hnone, hword⟩
  · rw [hplace]
    dsimp only
    rw [if_pos htype]
    exact ⟨n, congrArg ([·]) hread, hword, .refl _ _⟩
  · cases hplace : v.place? with
    | none => exact hword
    | some place =>
      dsimp only
      rw [if_neg (hnone place hplace)]
      exact hword

theorem ensures_takeData {v : Value} (vs : List Value) (hform : v.form.isOwning = true) :
    Ensures (NativeOp.takeData wordShape (v :: vs) 0) w m
      (fun data t => ∃ n, data = [.int n] ∧ word? ((v :: vs).map (words.sight m.memory)) = some n ∧
        m.Beside (Writes (v :: vs) none) t)
      fun _ _ => word? ((v :: vs).map (words.sight m.memory)) = none := by
  have hmutable : ∀ {f : Form}, f.isOwning = true → f.isMutable = true := by
    intro f hf
    cases f <;> first | rfl | cases hf
  unfold NativeOp.takeData changeArgument
  simp only [List.getElem?_cons_zero]
  rcases word?_cons m.memory v vs with ⟨place, n, htype, hplace, hread, hword⟩ | ⟨hnone, hword⟩
  · rw [hplace]
    dsimp only
    rw [if_pos ⟨htype, hmutable hform⟩]
    refine ⟨n, congrArg ([·]) hread, hword, Nat.le_refl _, fun b _ hb => ?_, fun _ => rfl, rfl, rfl⟩
    exact Memory.block_write_of_ne _ _ _ fun he => hb (.inr ⟨v, List.mem_cons_self, hform, place, hplace, he⟩)
  · cases hplace : v.place? with
    | none => exact hword
    | some place =>
      dsimp only
      rw [if_neg fun h => hnone place hplace h.1]
      exact hword

theorem ensures_word {f : Function} (hf : f = copyWord ∨ f = takeWord) (depth : Nat) (calls : List Call) :
    Ensures (invokeUnder (fun _ => Native.builtin) (depth + 1) calls f args ret) w m
      (fun result t => f.check (args.map Value.argument) = .ok () ∧
        ∃ n, word? (args.map (words.sight m.memory)) = some n ∧ MadeWord args ret n m result t)
      fun _ _ => f.check (args.map Value.argument) ≠ .ok () ∨
        word? (args.map (words.sight m.memory)) = none := by
  unfold invokeUnder
  cases hcheck : f.check (args.map Value.argument) with
  | error e => exact .inl fun h => by cases h
  | ok u =>
    have hmake : ∀ {y : Exec CallError (Option Value)},
        Ensures y w m (fun result t => ∃ n, word? (args.map (words.sight m.memory)) = some n ∧
          MadeWord args ret n m result t) (fun _ _ => word? (args.map (words.sight m.memory)) = none) →
        Ensures y w m (fun result t => Except.ok (ε := CallError) u = .ok () ∧
          ∃ n, word? (args.map (words.sight m.memory)) = some n ∧ MadeWord args ret n m result t)
          fun _ _ => Except.ok (ε := CallError) u ≠ .ok () ∨
            word? (args.map (words.sight m.memory)) = none := fun hy =>
      hy.mono (fun _ _ h => ⟨rfl, h⟩) fun _ _ h => .inr h
    cases args with
    | nil => rcases hf with rfl | rfl <;> cases hcheck
    | cons v vs =>
      rcases hf with rfl | rfl
      · exact hmake (made_giveBack (ensures_argumentData v vs))
      · obtain ⟨q, hq, haccepts⟩ := Function.accepts_of_check (i := 0) hcheck rfl
        cases hq
        exact hmake (made_giveBack (ensures_takeData vs (Form.isOwning_of_accepts haccepts)))

theorem MadeWord.proper (h : MadeWord args ret n m result t) (vol : Nat → Prop) (base : Machine) (type : TypeId) :
    words.Proper vol base m type args result where
  owned v place size destructor hv hheld := by
    obtain ⟨-, _, rfl, hle⟩ := h.owned v hv
    cases hheld
    have hprim : Prim.int .i32 ≠ .text := fun h => nomatch h
    exact ⟨hle, fun memory target => Memory.read_transfer hprim (Nat.le_refl 4)⟩
  reference v place hv howning := by
    obtain ⟨-, _, rfl, -⟩ := h.owned v hv
    cases howning

variable (depth : Nat) (calls : List Call)

theorem determined_word (hf : f = copyWord ∨ f = takeWord) : (Chore.call f (.ofName "T")).Determined words w
    (invokeUnder (fun _ => Native.builtin) (depth + 1) calls) where
  discreet vol base m args ret _ := (ensures_word hf depth calls).mono
    (fun _ _ ⟨_, _, _, hmade⟩ => ⟨hmade.beside, hmade.proper vol base _⟩) fun _ _ _ => trivial
  same vol base m args ret m' args' ret' _ _ hsights hrooms result t hrun := by
    obtain ⟨hcheck, n, hword, hmade⟩ := (ensures_word hf depth calls).ok hrun
    obtain rfl : ret = ret' := hrooms.resolve_right fun ⟨_, _, _, h, _⟩ => nomatch h
    rw [argument_sight m.memory, hsights, ← argument_sight] at hcheck
    rw [hsights] at hword
    refine (ensures_word hf depth calls).mono (fun result' t' h => ?_) fun _ _ h => ?_
    · obtain ⟨-, n', hword', hmade'⟩ := h
      obtain rfl : n = n' := Option.some.inj (hword.symm.trans hword')
      exact hmade'.yield.trans hmade.yield.symm
    · rcases h with h | h
      · exact absurd hcheck h
      · cases hword.symm.trans h

variable (hfunctions : functions.lookup (.operator .construct) = some [copyWord])
include hfunctions

/-- The constructor is found by what is checked of arguments, and makes the number that is seen. -/
theorem ensures_construct (h : Handle) {target : Place} :
    Ensures ((Chore.construct h).perform (worded functions)
        (invokeUnder (fun _ => Native.builtin) (depth + 1) calls) args (some target)) w m
      (fun result t => h = 0 ∧ target.isAligned 4 = true ∧
        (∃ f, ((worded functions).info h).resolve (.operator .construct) (args.map Value.argument) = .ok f) ∧
          ∃ n, word? (args.map (words.sight m.memory)) = some n ∧ MadeWord args (some target) n m result t)
      fun _ _ => target.isAligned ((worded functions).info h).layout.align ≠ true ∨
        (∃ e, ((worded functions).info h).resolve (.operator .construct) (args.map Value.argument) = .error e) ∨
          word? (args.map (words.sight m.memory)) = none := by
  refine Ensures.bind_iff.mpr ?_
  unfold Invoke.constructAt Invoke.callKey
  split
  · rename_i haligned
    cases hresolve : ((worded functions).info h).resolve (.operator .construct) (args.map Value.argument) with
    | error e => exact .inr (.inl ⟨e, rfl⟩)
    | ok f =>
      obtain ⟨rfl, hmem⟩ := overload_worded (TypeInfo.mem_of_resolve hresolve)
      rw [hfunctions] at hmem
      obtain rfl := List.mem_singleton.mp hmem
      refine Ensures.bind ((ensures_word (.inl rfl) depth calls).mono (fun _ _ h => h) fun _ _ h => ?_) ?_
      · rcases h with h | h
        · exact absurd (TypeInfo.check_of_resolve hresolve) h
        · exact .inr (.inr h)
      · rintro result t ⟨-, n, hword, hmade⟩
        cases result with
        | none => exact ⟨rfl, haligned, ⟨copyWord, rfl⟩, n, hword, hmade⟩
        | some v => exact nomatch (hmade.owned v rfl).1
  · rename_i haligned
    exact .inl haligned

omit hfunctions in
theorem isAligned_rounded {place : Place} {align : Nat} (hpos : 0 < align) (h : place.Rounded align) :
    place.isAligned align = true := by
  obtain ⟨n, hn⟩ := h
  rw [Place.isAligned, hn, roundUp, if_neg (Nat.ne_of_gt hpos)]
  exact beq_iff_eq.mpr (Nat.mul_mod_left _ _)

theorem determined_construct (h : Handle) : (Chore.construct h).Determined words { catalogue := worded functions }
    (invokeUnder (fun _ => Native.builtin) (depth + 1) calls) where
  discreet vol base m args ret _ := by
    cases ret with
    | none => exact ⟨.refl _ _, ⟨fun _ _ _ _ h => (nomatch h), fun _ _ h => (nomatch h)⟩⟩
    | some target =>
      exact (ensures_construct depth calls hfunctions h).mono (fun _ _ ⟨_, _, _, _, _, hmade⟩ =>
        ⟨hmade.beside, hmade.proper vol base _⟩) fun _ _ _ => trivial
  same vol base m args ret m' args' ret' _ _ hsights hrooms result t hrun := by
    cases ret with
    | none =>
      obtain rfl : none = ret' := hrooms.resolve_right fun ⟨_, _, _, _, h, _⟩ => nomatch h
      cases hrun
      rfl
    | some target =>
      obtain ⟨rfl, haligned, ⟨f, hresolve⟩, n, hword, hmade⟩ :=
        (ensures_construct depth calls hfunctions h).ok hrun
      rw [argument_sight m.memory, hsights, ← argument_sight] at hresolve
      rw [hsights] at hword
      obtain ⟨target', rfl, haligned'⟩ : ∃ target', ret' = some target' ∧ target'.isAligned 4 = true := by
        rcases hrooms with rfl | ⟨_, _, target', h, -, rfl, -, hrounded⟩
        · exact ⟨target, rfl, haligned⟩
        · cases h
          exact ⟨target', rfl, isAligned_rounded (Nat.succ_pos 3) hrounded⟩
      refine (ensures_construct depth calls hfunctions 0).mono (fun result' t' h => ?_) fun _ _ h => ?_
      · obtain ⟨-, -, -, n', hword', hmade'⟩ := h
        obtain rfl : n = n' := Option.some.inj (hword.symm.trans hword')
        exact hmade'.yield.trans hmade.yield.symm
      · rcases h with h | ⟨e, h⟩ | h
        · exact absurd haligned' h
        · cases hresolve.symm.trans h
        · cases hword.symm.trans h

end Program

end Flowscript
