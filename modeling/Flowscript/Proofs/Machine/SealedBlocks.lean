import Flowscript.Proofs.Run.ShelteredPins

/-! # Sealed data

A block of storage is sealed when what it holds is not to change. Computations on the machine keep the
seal intact as long as they write elsewhere; and a function does that is handed the block only where it
has to spare it. Copying a value, and reading one from a document, are calls of constructors.
-/
namespace Flowscript

variable {ρ ε δ σ α β : Type}

/-- A computation that leaves an invariant standing, whether it fails or not, and what holds of its
result. -/
def Maintains (I : σ → Prop) (r : ρ) (x : ReaderT ρ (EStateM ε σ) α) (R : α → Prop) : Prop :=
  ∀ s, I s → Ensures x r s (fun a t => I t ∧ R a) fun _ t => I t

namespace Maintains

variable {I : σ → Prop} {r : ρ} {R : α → Prop} {x : ReaderT ρ (EStateM ε σ) α}

theorem mono {R' : α → Prop} (hx : Maintains I r x R) (hR : ∀ a, R a → R' a) :
    Maintains I r x R' := fun s hs =>
  (hx s hs).mono (fun a _ h => ⟨h.1, hR a h.2⟩) fun _ _ h => h

theorem pure {a : α} (ha : R a) : Maintains I r (Pure.pure a : ReaderT ρ (EStateM ε σ) α) R :=
  fun _ hs => ⟨hs, ha⟩

theorem throw (e : ε) : Maintains I r (MonadExcept.throw e : ReaderT ρ (EStateM ε σ) α) R :=
  fun _ hs => hs

theorem bind {y : ReaderT ρ (EStateM ε σ) β} {f : β → ReaderT ρ (EStateM ε σ) α} {S : β → Prop}
    (hy : Maintains I r y S) (hf : ∀ b, S b → Maintains I r (f b) R) :
    Maintains I r (y >>= f) R := fun s hs =>
  (hy s hs).bind fun b t ht => hf b ht.2 t ht.1

/-- The same if nothing has to be known of the first result. -/
theorem andThen {y : ReaderT ρ (EStateM ε σ) β} {f : β → ReaderT ρ (EStateM ε σ) α}
    (hy : Maintains I r y fun _ => True) (hf : ∀ b, Maintains I r (f b) R) :
    Maintains I r (y >>= f) R := hy.bind fun b _ => hf b

theorem look {y : ReaderT ρ (EStateM ε σ) β} {f : β → ReaderT ρ (EStateM ε σ) α} {S : β → Prop}
    (hl : Looks y) (hS : ∀ s, I s → Ensures y r s (fun b _ => S b) fun _ _ => True)
    (hf : ∀ b, S b → Maintains I r (f b) R) : Maintains I r (y >>= f) R := by
  refine bind (S := S) (fun s hs => ((hl r s).and (hS s hs)).mono ?_ ?_) hf
  · rintro b t ⟨rfl, hb⟩
    exact ⟨hs, hb⟩
  · rintro e t ⟨rfl, -⟩
    exact hs

theorem looks (hl : Looks x) : Maintains I r x fun _ => True := fun s hs =>
  (hl r s).mono (fun _ _ h => ⟨h ▸ hs, trivial⟩) fun _ _ h => h ▸ hs

theorem modify {f : σ → σ} (hf : ∀ s, I s → I (f s)) :
    Maintains I r (modify f : ReaderT ρ (EStateM ε σ) PUnit) fun _ => True :=
  fun s hs => ⟨hf s hs, trivial⟩

end Maintains

namespace Memory

theorem block_modifyBlock_of_ne (m : Memory) {b other : Nat} (f : Block → Block) (h : b ≠ other) :
    (m.modifyBlock b f).block other = m.block other := by
  simp [block, modifyBlock, Std.HashMap.getD_alter, h]

theorem block_write_of_ne (m : Memory) {p : Place} {other : Nat} (prim : Prim) (a : Atom)
    (h : p.block ≠ other) : (m.write p prim a).block other = m.block other :=
  m.block_modifyBlock_of_ne _ h

theorem block_transfer_of_ne (m : Memory) {source target : Place} {other : Nat} (size : Nat)
    (h : target.block ≠ other) : (m.transfer source target size).block other = m.block other :=
  m.block_modifyBlock_of_ne _ h

theorem block_writeLeaves_of_ne (m : Memory) {p : Place} {other : Nat} (leaves : List (Nat × Prim))
    (data : List Atom) (h : p.block ≠ other) :
    (m.writeLeaves p leaves data).block other = m.block other := by
  unfold writeLeaves
  induction leaves.zip data generalizing m with
  | nil => rfl
  | cons leaf rest ih =>
    rw [List.foldl_cons, ih]
    exact m.block_write_of_ne _ _ h

theorem block_free_of_ne (m : Memory) {b other : Nat} (h : b ≠ other) :
    (m.free b).block other = m.block other := by
  simp [block, free, Std.HashMap.getD_erase, h]

theorem block_foldl_free (m : Memory) {blocks : List Nat} {other : Nat} (h : other ∉ blocks) :
    (blocks.foldl free m).block other = m.block other := by
  induction blocks generalizing m with
  | nil => rfl
  | cons b rest ih =>
    obtain ⟨hne, hrest⟩ := List.ne_and_not_mem_of_not_mem_cons h
    exact (ih _ hrest).trans (m.block_free_of_ne (Ne.symm hne))

theorem next_foldl_free (m : Memory) (blocks : List Nat) : (blocks.foldl free m).next = m.next := by
  induction blocks generalizing m with
  | nil => rfl
  | cons b rest ih => exact ih _

end Memory

/-- A block of storage, and what it holds and is to hold. -/
structure Seal where
  block : Nat
  data : Block

def Seal.Free (κ : Seal) (place : Option Place) : Prop := ∀ p, place = some p → p.block ≠ κ.block

theorem Seal.free_none (κ : Seal) : κ.Free none := fun _ h => nomatch h

theorem Seal.free_some {κ : Seal} {place : Place} (h : place.block ≠ κ.block) : κ.Free (some place) := by
  rintro _ ⟨⟩
  exact h

def Seal.Apart (κ : Seal) (result : Option Value) : Prop := ∀ v, result = some v → κ.Free v.place?

theorem Seal.apart_none (κ : Seal) : κ.Apart none := fun _ h => nomatch h

/-- The place, if there is one, lies in the sealed block only under a condition. -/
def Seal.Only (κ : Seal) (P : Prop) (place : Option Place) : Prop :=
  ∀ p, place = some p → p.block = κ.block → P

theorem Seal.Free.only {κ : Seal} {place : Option Place} (h : κ.Free place) (P : Prop) :
    κ.Only P place := fun p hp hblock => absurd hblock (h p hp)

def Seal.Withholds (κ : Seal) (args : List Value) : Prop :=
  ∀ v ∈ args, ∀ place, v.place? = some place → place.block = κ.block → v.form.isMutable = false

/-- The block holds what it held, no new block takes its place, and no world lies in it. -/
structure Machine.Intact (κ : Seal) (m : Machine) : Prop where
  data : m.memory.block κ.block = κ.data
  known : κ.block < m.memory.next
  world : ∀ seat type place, (m.interpreter seat).world = some (type, place) →
    place.block ≠ κ.block

namespace Machine.Intact

variable {κ : Seal} {m m' : Machine}

theorem congr (h : m.Intact κ) (hdata : m'.memory.block κ.block = m.memory.block κ.block)
    (hnext : m.memory.next ≤ m'.memory.next)
    (hworld : ∀ seat, (m'.interpreter seat).world = (m.interpreter seat).world) : m'.Intact κ :=
  ⟨hdata.trans h.data, h.known.trans_le hnext,
    fun seat type place hplace => h.world seat type place ((hworld seat).symm.trans hplace)⟩

end Machine.Intact

/-- An invariant of the machine that computations keep which leave the block and the worlds alone. -/
class Machine.Sealing (κ : outParam Seal) (I : Machine → Prop) : Prop where
  known : ∀ {m : Machine}, I m → κ.block < m.memory.next
  congr : ∀ {m m' : Machine}, I m → m'.memory.block κ.block = m.memory.block κ.block →
    m.memory.next ≤ m'.memory.next →
    (∀ seat, (m'.interpreter seat).world = (m.interpreter seat).world) → I m'

instance {κ : Seal} : Machine.Sealing κ (Machine.Intact κ) := ⟨Machine.Intact.known, Machine.Intact.congr⟩

theorem Machine.Sealing.modifyInterpreter {κ : Seal} {I : Machine → Prop} [Machine.Sealing κ I]
    {m : Machine} (h : I m) (seat : Seat) {f : Interpreter → Interpreter}
    (hf : ∀ i, (f i).world = i.world) : I (m.modifyInterpreter seat f) := by
  refine congr h (by rw [memory_modifyInterpreter]) (by rw [memory_modifyInterpreter]) fun other => ?_
  by_cases hseat : other = seat
  · rw [hseat, interpreter_modifyInterpreter, hf]
  · rw [interpreter_modifyInterpreter_of_ne _ hseat]

/-- A result that owns its data does not lie in the sealed block. -/
def Seal.Unowned (κ : Seal) (result : Option Value) : Prop :=
  ∀ v, result = some v → κ.Only (v.isOwning = false) v.place?

theorem Seal.Apart.unowned {κ : Seal} {result : Option Value} (h : κ.Apart result) :
    κ.Unowned result := fun v hv => (h v hv).only _

/-- A result lies in the sealed block only if it is declared constant, and does not own the data. -/
def Function.Yields (κ : Seal) (f : Function) (result : Option Value) : Prop :=
  ∀ v place, result = some v → v.place? = some place → place.block = κ.block →
    v.isOwning = false ∧ ∃ r, f.result = some r ∧ r.form.isMutable = false

theorem Function.Yields.unowned {κ : Seal} {f : Function} {result : Option Value}
    (h : f.Yields κ result) : κ.Unowned result := fun v hv place hplace hblock =>
  (h v place hv hplace hblock).1

theorem Seal.Apart.yields {κ : Seal} {result : Option Value} (h : κ.Apart result) (f : Function) :
    f.Yields κ result := fun v place hv hplace hblock => absurd hblock (h v hv place hplace)

namespace Context

/-- An argument of the function stays as it is as far as that depends on a script. -/
def Guards (w : Context) (f : Function) (index : Nat) : Prop :=
  ∀ number body p, f.body = .script number → w.bodies[number]? = some body →
    body.state = .ready p → p.Guards index

/-- So does what the function takes by value, without changing it. -/
def GuardsCopies (w : Context) (f : Function) : Prop :=
  ∀ i q, f.params[i]? = some q → q.form = .value → w.Guards f i

/-- What lies in the sealed block is handed on as constant, to where it stays as it is. -/
structure Entrusts (κ : Seal) (w : Context) (f : Function) (args : List Value) : Prop where
  constant : κ.Withholds args
  guarded : ∀ i v q place, args[i]? = some v → f.params[i]? = some q → v.place? = some place →
    place.block = κ.block → q.form.accepts v.form = true → w.Guards f i

end Context

/-- Functions keep the seal intact if they are handed the block as constant only. -/
def Invoke.Spares (κ : Seal) (callable : Function → Prop) (w : Context) (invoke : Invoke) : Prop :=
  ∀ f args ret, callable f → w.Entrusts κ f args → κ.Free ret →
    Maintains (Machine.Intact κ) w (invoke f args ret) (f.Yields κ)

/-- A program of an edited graph that is secure, and calls what can be called. -/
structure Program.Sparing (callable : Function → Prop) (p : Program) : Prop where
  compiled : ∃ g c s, Graph.Edited g ∧ Program.compile g c s = .ok p
  secure : p.Secure
  calls : ∀ id n f, p.node? id = some n → n.op = .call f → callable f

/-- All programs are so, and each is called as the function that its graph declares. Constructors can be
called; one that is a script and takes by value what it copies leaves it as it is. -/
structure Context.Sparing (callable : Function → Prop) (w : Context) : Prop where
  programs : ∀ p, w.Offers p → p.Sparing callable
  implements : ∀ f, callable f → ∀ number body p, f.body = .script number →
    w.bodies[number]? = some body → body.state = .ready p → p.Implements f
  constructs : ∀ h f, f ∈ (w.catalogue.info h).overloads (.operator .construct) → callable f
  copies : ∀ h f, f ∈ (w.catalogue.info h).overloads (.operator .construct) → w.GuardsCopies f

namespace Context.Sparing

variable {callable : Function → Prop} {w : Context} (hw : w.Sparing callable) {f : Function} {i : Nat}
  {q : Param}
include hw

theorem guards (hf : callable f) (hq : f.params[i]? = some q) (hconstant : q.form.isMutable = false) :
    w.Guards f i := fun number body p hbody hready hstate =>
  (hw.implements f hf number body p hbody hready hstate).guards
    (hw.programs p ⟨number, body, hready, hstate⟩).secure hq hconstant

/-- Constant arguments can be handed to a function that does not change what it takes by value. -/
theorem entrusts (hf : callable f) (hcopies : w.GuardsCopies f) {κ : Seal} {args : List Value}
    (hargs : κ.Withholds args) : w.Entrusts κ f args := by
  refine ⟨hargs, fun i v q place hv hq hplace hblock haccepts => ?_⟩
  have hspares := Form.spares_of_accepts haccepts
    (hargs v (List.mem_of_getElem? hv) place hplace hblock)
  by_cases hvalue : q.form = .value
  · exact hcopies i q hq hvalue
  · exact hw.guards hf hq (Form.constant_of_spares hspares hvalue)

end Context.Sparing

variable {κ : Seal} {I : Machine → Prop} {w : Context} {R : α → Prop}

namespace Maintains

theorem exec_mapError {x : Exec ε α} (f : ε → δ) (hx : Maintains I w x R) :
    Maintains I w (Exec.mapError f x) R := fun m hm =>
  Ensures.exec_mapError_iff.mpr (hx m hm)

theorem exec_attempt {x : Exec ε α} (hx : Maintains I w x R) :
    Maintains I w (Exec.attempt x : Exec δ (Except ε α))
      fun outcome => ∀ r, outcome = .ok r → R r := fun m hm =>
  Ensures.exec_attempt_iff.mpr ((hx m hm).mono
    (fun r _ h => ⟨h.1, fun r' hr => by cases hr; exact h.2⟩)
    fun _ _ h => ⟨h, fun _ hr => nomatch hr⟩)

theorem modifyMemory [Machine.Sealing κ I] {f : Memory → Memory}
    (hf : ∀ m, (f m).block κ.block = m.block κ.block ∧ m.next ≤ (f m).next) :
    Maintains I w (Exec.modifyMemory f : Exec ε Unit) fun _ => True :=
  .modify fun m hm => Machine.Sealing.congr hm (hf m.memory).1 (hf m.memory).2 fun _ => rfl

end Maintains

namespace Exec

section Sealing

variable [hI : Machine.Sealing κ I]
include hI

theorem spares_modifyCare (f : Care → Care) :
    Maintains I w (modifyCare f : Exec ε Unit) fun _ => True :=
  .modify fun _ hm => Machine.Sealing.congr hm rfl (Nat.le_refl _) fun _ => rfl

theorem spares_trace (severity : Severity) (note : Unit → Trace) :
    Maintains I w (trace severity note : Exec ε Unit) fun _ => True := by
  unfold trace
  refine Maintains.look (S := fun _ => True) .read (fun _ _ => trivial) fun v _ => ?_
  split
  · split
    · exact .modify fun _ hm => Machine.Sealing.congr hm rfl (Nat.le_refl _) fun _ => rfl
    · exact .pure trivial
  · exact .pure trivial

theorem spares_destroy (destructor : Option Destructor) (place : Place) :
    Maintains I w (destroy destructor place : Exec ε Unit) fun _ => True := by
  cases destructor with
  | none => exact .pure trivial
  | some d => exact .modify fun _ hm => Machine.Sealing.congr hm rfl (Nat.le_refl _) fun _ => rfl

theorem spares_endCharge (destructor : Option Destructor) (v : Charge) :
    Maintains I w (endCharge destructor v : Exec ε Unit) fun _ => True :=
  (spares_destroy destructor v.place).andThen fun _ => spares_modifyCare _

theorem spares_free {place : Place} (h : place.block ≠ κ.block) :
    Maintains I w (free place : Exec ε Unit) fun _ => True :=
  .modifyMemory fun m => ⟨m.block_free_of_ne h, Nat.le_refl _⟩

theorem spares_transfer (source : Place) {target : Place} (size : Nat)
    (h : target.block ≠ κ.block) :
    Maintains I w
      (modifyMemory (·.transfer source target size) : Exec ε Unit) fun _ => True :=
  .modifyMemory fun m => ⟨m.block_transfer_of_ne size h, Nat.le_refl m.next⟩

theorem spares_allocate (l : Layout) :
    Maintains I w (allocate l : Exec ε Place) fun place =>
      place.block ≠ κ.block := fun _ hm =>
  ⟨Machine.Sealing.congr hm rfl (Nat.le_succ _) fun _ => rfl, Nat.ne_of_gt (Machine.Sealing.known hm)⟩

theorem spares_adopt (type : TypeId) (place : Place) (size : Nat) (destructor : Option Destructor) :
    Maintains I w (adopt type place size destructor : Exec ε Value)
      fun v => v = .owned type place size destructor :=
  (spares_modifyCare _).andThen fun _ => .pure rfl

theorem spares_relocate {v : Value} {target : Place}
    (hv : κ.Only (v.isOwning = false) v.place?) (htarget : target.block ≠ κ.block) :
    Maintains I w (relocate v target : Exec ε Bool) fun _ => True := by
  obtain ⟨type, form, held⟩ := v
  cases held with
  | owned place size destructor =>
    have hplace : place.block ≠ κ.block := fun hblock => Bool.noConfusion (hv place rfl hblock)
    exact (spares_transfer place size htarget).andThen fun _ => (spares_modifyCare _).andThen fun _ =>
      (spares_free hplace).andThen fun _ => .pure trivial
  | borrowed place => exact .pure trivial
  | pointer place => exact .pure trivial

theorem spares_drop {v : Value} (hv : κ.Only (v.isOwning = false) v.place?) :
    Maintains I w (drop v : Exec ε Unit) fun _ => True := by
  obtain ⟨type, form, held⟩ := v
  cases held with
  | owned place size destructor =>
    have hplace : place.block ≠ κ.block := fun hblock => Bool.noConfusion (hv place rfl hblock)
    exact (spares_endCharge destructor _).andThen fun _ => spares_free hplace
  | borrowed place => exact .pure trivial
  | pointer place => exact .pure trivial

theorem spares_orEnd (destructor : Option Destructor) (place : Place) {rest : Exec ε Unit}
    (hrest : Maintains I w rest fun _ => True) :
    Maintains I w (orEnd destructor place rest) fun _ => True := by
  refine hrest.exec_attempt.bind fun outcome _ => ?_
  cases outcome with
  | ok u => exact .pure trivial
  | error e => exact (spares_destroy destructor place).andThen fun _ => .throw e

end Sealing

end Exec

/-- Constructors keep the seal intact if they are handed the block as constant only. -/
def Invoke.Builds (κ : Seal) (I : Machine → Prop) (w : Context) (invoke : Invoke) : Prop :=
  ∀ handle f args target, f ∈ (w.catalogue.info handle).overloads (.operator .construct) →
    κ.Withholds args → target.block ≠ κ.block →
    Maintains I w (invoke f args (some target)) κ.Unowned

theorem Invoke.Spares.builds {callable : Function → Prop} {invoke : Invoke}
    (h : invoke.Spares κ callable w) (hw : w.Sparing callable) :
    invoke.Builds κ (Machine.Intact κ) w := by
  intro handle f args target hmem hargs htarget
  have hcallable := hw.constructs handle f hmem
  exact (h f args (some target) hcallable (hw.entrusts hcallable (hw.copies handle f hmem) hargs)
    (Seal.free_some htarget)).mono fun _ hresult => hresult.unowned

namespace Invoke

open Exec

variable {invoke : Invoke} [hI : Machine.Sealing κ I] (h : invoke.Builds κ I w) {target : Place}
  (htarget : target.block ≠ κ.block)
include hI h htarget

theorem spares_constructAt (handle : Handle) {args : List Value}
    (hargs : κ.Withholds args) :
    Maintains I w (constructAt invoke (w.catalogue.info handle) target args)
      fun _ => True := by
  unfold constructAt
  split
  · unfold callKey
    cases hf : (w.catalogue.info handle).resolve (.operator .construct) (args.map Value.argument) with
    | error e => exact (Maintains.throw (R := fun _ => False) e).bind fun _ hfalse => hfalse.elim
    | ok f =>
      refine (h handle f args target (TypeInfo.mem_of_resolve hf) hargs htarget).bind fun result hresult => ?_
      cases result with
      | none => exact .pure trivial
      | some v =>
        refine (spares_relocate (hresult v rfl) htarget).bind fun moved _ => ?_
        cases moved with
        | true => exact .pure trivial
        | false => exact .throw _
  · exact .throw _

theorem spares_defaultAt (handle : Handle) :
    Maintains I w (defaultAt invoke (w.catalogue.info handle) target)
      fun _ => True :=
  spares_constructAt h htarget handle (List.forall_mem_nil _)

/-- Data is copied from wherever it is: a constructor has to spare what it copies. -/
theorem spares_copyAt (handle : Handle) (source : Place) :
    Maintains I w (copyAt invoke (w.catalogue.info handle) target source)
      fun _ => True := by
  exact spares_constructAt h htarget handle (List.forall_mem_singleton.mpr fun _ _ _ => rfl)

omit h htarget

mutual

theorem spares_decode (h : invoke.Builds κ I w) (codec : Codec)
    (j : Json) {target : Place} (htarget : target.block ≠ κ.block) :
    Maintains I w (decode invoke codec j target) fun _ => True := by
  cases codec with
  | native c =>
    unfold decode
    cases c.decode j with
    | ok data =>
      exact .modifyMemory fun m => ⟨m.block_writeLeaves_of_ne _ _ htarget,
        Nat.le_of_eq (m.next_writeLeaves _ _ _).symm⟩
    | error e => exact .throw e
  | aggregate parts =>
    unfold decode
    cases j with
    | obj entries => exact spares_decodeParts h parts entries htarget
    | _ => exact .throw _

theorem spares_decodeParts (h : invoke.Builds κ I w)
    (parts : List (Part × Codec)) (entries : List (String × Json)) {target : Place}
    (htarget : target.block ≠ κ.block) :
    Maintains I w (decodeParts invoke parts entries target) fun _ => True := by
  match parts with
  | [] =>
    unfold decodeParts
    exact .pure trivial
  | (part, codec) :: rest =>
    have hpart : (target.shift part.offset).block ≠ κ.block := htarget
    have hrest : Maintains I w (orEnd part.destructor (target.shift part.offset)
        (decodeParts invoke rest entries target)) fun _ => True :=
      spares_orEnd _ _ (spares_decodeParts h rest entries htarget)
    unfold decodeParts
    cases entries.lookup part.name with
    | some j => exact ((spares_decode h codec j hpart).exec_mapError _).andThen fun _ => hrest
    | none =>
      cases part.default with
      | some j => exact ((spares_decode h codec j hpart).exec_mapError _).andThen fun _ => hrest
      | none => exact (spares_defaultAt h hpart part.type).andThen fun _ => hrest

end

theorem spares_decodeAt (h : invoke.Builds κ I w) (t : TypeInfo)
    (j : Json) {target : Place} (htarget : target.block ≠ κ.block) :
    Maintains I w (decodeAt invoke t j target) fun _ => True := by
  unfold decodeAt
  cases t.codec with
  | some codec => exact spares_decode h codec j htarget
  | none => exact .throw _

end Invoke

end Flowscript
