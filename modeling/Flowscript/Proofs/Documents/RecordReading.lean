import Flowscript.Proofs.Documents.DocumentReading
import Flowscript.Script

/-! # Records are read back

What is interpreted again from a record that was written. Nodes, pins and links come back as they were
if their numbers fit, positions if the text of their coordinates is read as the same coordinates, and
the value of a pin or field if it is not null and is itself read back: each of its numbers is, its keys
are in order and nothing of it lies below the depth limit.
-/
namespace Flowscript

namespace Json

/-- A document stands within another one, so many levels down. -/
inductive Part : Json → Nat → Json → Prop
  | whole (j : Json) : Part j 0 j
  | item {items : List Json} {j part : Json} {level : Nat} (mem : j ∈ items) (inner : Part j level part) :
    Part (.arr items) (level + 1) part
  | entry {entries : List (String × Json)} {k : String} {j part : Json} {level : Nat}
    (mem : (k, j) ∈ entries) (inner : Part j level part) : Part (.obj entries) (level + 1) part

/-- Lists and objects hold other documents. -/
def holds : Json → Bool
  | .arr _ => true
  | .obj _ => true
  | _ => false

def Ordered {α : Type} (entries : List (String × α)) : Prop := entries.Pairwise fun a b => a.1 < b.1

/-- All numbers of the document are read back as they are. -/
def Rereads (j : Json) : Prop := ∀ level n, Part j level (.num n) → n.Rereads

/-- The objects of the document have their keys in order. -/
def Sorted (j : Json) : Prop := ∀ level entries, Part j level (.obj entries) → Ordered entries

/-- Written at a depth, no part of the document lies below the depth limit. -/
def Within (depth : Nat) (j : Json) : Prop :=
  ∀ level part, Part j level part → part.holds = true → depth + level < Draft.maxDepth

structure Reloads (depth : Nat) (j : Json) : Prop where
  rereads : j.Rereads
  sorted : j.Sorted
  within : j.Within depth

variable {depth : Nat}

theorem reloads_num (n : Number) : Reloads depth (.num n) ↔ n.Rereads := by
  constructor
  · intro h
    exact h.rereads 0 n (.whole _)
  · intro h
    refine ⟨?_, ?_, ?_⟩
    · rintro level m ⟨⟩
      exact h
    · rintro level entries ⟨⟩
    · rintro level part ⟨⟩ hholds
      cases hholds

theorem reloads_scalar {j : Json} (hholds : j.holds = false) (hnum : ∀ n, j ≠ .num n) : Reloads depth j := by
  refine ⟨?_, ?_, ?_⟩
  · intro level n hpart
    cases hpart with
    | whole => exact absurd rfl (hnum n)
    | item mem inner => cases hholds
    | entry mem inner => cases hholds
  · intro level entries hpart
    cases hpart with
    | whole => cases hholds
    | item mem inner => cases hholds
    | entry mem inner => cases hholds
  · intro level part hpart hpartHolds
    cases hpart with
    | whole =>
      rw [hholds] at hpartHolds
      cases hpartHolds
    | item mem inner => cases hholds
    | entry mem inner => cases hholds

theorem reloads_arr (items : List Json) :
    Reloads depth (.arr items) ↔ depth < Draft.maxDepth ∧ ∀ j ∈ items, Reloads (depth + 1) j := by
  constructor
  · intro h
    refine ⟨h.within 0 _ (.whole _) rfl, fun j hj => ⟨?_, ?_, ?_⟩⟩
    · exact fun level n hpart => h.rereads _ n (.item hj hpart)
    · exact fun level entries hpart => h.sorted _ entries (.item hj hpart)
    · intro level part hpart hholds
      have := h.within _ part (.item hj hpart) hholds
      omega
  · rintro ⟨hdepth, h⟩
    refine ⟨?_, ?_, ?_⟩
    · intro level n hpart
      cases hpart with
      | item mem inner => exact (h _ mem).rereads _ n inner
    · intro level entries hpart
      cases hpart with
      | item mem inner => exact (h _ mem).sorted _ entries inner
    · intro level part hpart hholds
      cases hpart with
      | whole => exact hdepth
      | item mem inner =>
        have := (h _ mem).within _ part inner hholds
        omega

theorem reloads_obj (entries : List (String × Json)) :
    Reloads depth (.obj entries) ↔
      depth < Draft.maxDepth ∧ Ordered entries ∧ ∀ e ∈ entries, Reloads (depth + 1) e.2 := by
  constructor
  · intro h
    refine ⟨h.within 0 _ (.whole _) rfl, h.sorted 0 _ (.whole _), fun e he => ⟨?_, ?_, ?_⟩⟩
    · exact fun level n hpart => h.rereads _ n (.entry he hpart)
    · exact fun level inner hpart => h.sorted _ inner (.entry he hpart)
    · intro level part hpart hholds
      have := h.within _ part (.entry he hpart) hholds
      omega
  · rintro ⟨hdepth, hordered, h⟩
    refine ⟨?_, ?_, ?_⟩
    · intro level n hpart
      cases hpart with
      | entry mem inner => exact (h _ mem).rereads _ n inner
    · intro level inner hpart
      cases hpart with
      | whole => exact hordered
      | entry mem inner' => exact (h _ mem).sorted _ inner inner'
    · intro level part hpart hholds
      cases hpart with
      | whole => exact hdepth
      | entry mem inner =>
        have := (h _ mem).within _ part inner hholds
        omega

/-! ## Keys in order -/

section Order

variable {α : Type} {entries : List (String × α)} {key : String} {value : α}

theorem mem_insertEntry {e : String × α} (h : e ∈ insertEntry key value entries) :
    e = (key, value) ∨ e ∈ entries := by
  induction entries with
  | nil => exact .inl (List.mem_singleton.mp h)
  | cons head rest ih =>
    unfold insertEntry at h
    split at h
    · exact List.mem_cons.mp h
    · split at h
      · rcases List.mem_cons.mp h with h | h
        · exact .inl h
        · exact .inr (List.mem_cons_of_mem _ h)
      · rcases List.mem_cons.mp h with h | h
        · exact .inr (h ▸ List.mem_cons_self)
        · exact (ih h).imp_right (List.mem_cons_of_mem _)

theorem ordered_insertEntry (h : Ordered entries) : Ordered (insertEntry key value entries) := by
  induction entries with
  | nil => exact List.pairwise_singleton _ _
  | cons head rest ih =>
    obtain ⟨hhead, hrest⟩ := List.pairwise_cons.mp h
    unfold insertEntry
    split
    · rename_i hlt
      refine List.pairwise_cons.mpr ⟨fun e he => ?_, h⟩
      rcases List.mem_cons.mp he with rfl | he
      · exact hlt
      · exact String.lt_trans hlt (hhead e he)
    · rename_i hlt
      split
      · rename_i heq
        exact List.pairwise_cons.mpr ⟨fun e he => by rw [heq]; exact hhead e he, hrest⟩
      · rename_i hne
        refine List.pairwise_cons.mpr ⟨fun e he => ?_, ih hrest⟩
        rcases mem_insertEntry he with rfl | he
        · exact Std.lt_of_le_of_ne (String.not_lt.mp hlt) (Ne.symm hne)
        · exact hhead e he

theorem insertEntry_of_lt (h : ∀ e ∈ entries, e.1 < key) :
    insertEntry key value entries = entries ++ [(key, value)] := by
  induction entries with
  | nil => rfl
  | cons head rest ih =>
    have hlt := h head List.mem_cons_self
    have hnot : ¬ key < head.1 := fun h' => String.lt_irrefl _ (String.lt_trans hlt h')
    have hne : key ≠ head.1 := by
      rintro rfl
      exact String.lt_irrefl _ hlt
    rw [insertEntry, if_neg hnot, if_neg hne, ih fun e he => h e (List.mem_cons_of_mem _ he)]
    rfl

theorem ordered_sortEntries (entries : List (String × α)) : Ordered (sortEntries entries) := by
  have hfold : ∀ (sorted : List (String × α)), Ordered sorted →
      Ordered (entries.foldl (fun sorted e => insertEntry e.1 e.2 sorted) sorted) := by
    induction entries with
    | nil => exact fun sorted h => h
    | cons e entries ih => exact fun sorted h => ih _ (ordered_insertEntry h)
  exact hfold [] List.Pairwise.nil

theorem sortEntries_of_ordered (h : Ordered entries) : sortEntries entries = entries := by
  have hfold : ∀ (sorted : List (String × α)), Ordered (sorted ++ entries) →
      entries.foldl (fun sorted e => insertEntry e.1 e.2 sorted) sorted = sorted ++ entries := by
    clear h
    induction entries with
    | nil => exact fun sorted _ => (List.append_nil sorted).symm
    | cons e entries ih =>
      intro sorted h
      have hlast : insertEntry e.1 e.2 sorted = sorted ++ [e] :=
        insertEntry_of_lt fun e' he' => (List.pairwise_append.mp h).2.2 e' he' e List.mem_cons_self
      rw [List.foldl_cons, hlast, ih (sorted ++ [e]) (by rwa [List.append_assoc]), List.append_assoc]
      rfl
  exact hfold [] h

end Order

end Json

namespace Draft

open Json (Reloads Ordered)

theorem written_arr {depth : Nat} (h : depth < maxDepth) (items : List Json) :
    written depth (.arr items) = .arr (writtenItems (depth + 1) items) none := by
  rw [written, bounded, if_pos h]

theorem written_obj {depth : Nat} (h : depth < maxDepth) (entries : List (String × Json)) :
    written depth (.obj entries) = .obj (writtenEntries (depth + 1) entries) none := by
  rw [written, bounded, if_pos h]

theorem eq_of_toJson {d : Draft} {j : Json} (hj : j.holds = false) (h : d.toJson = .ok j) :
    d = ofJson j := by
  unfold toJson at h
  split at h
  · cases h
    rfl
  · cases h
    rfl
  · cases h
    rfl
  · cases h
    rfl
  · rename_i items ending
    cases hitems : itemsToJson items <;> cases ending <;> rw [hitems] at h <;> cases h
    cases hj
  · rename_i entries ending
    cases hentries : entriesToJson entries <;> cases ending <;> rw [hentries] at h <;> cases h
    cases hj
  · cases h
  · cases h

theorem toJson_num_iff {d : Draft} {n : Number} : d.toJson = .ok (.num n) ↔ d = .num n :=
  ⟨eq_of_toJson rfl, fun h => by rw [h]; rfl⟩

theorem keys_entriesToJson {depth : Nat} {entries out : List (String × Json)}
    (h : entriesToJson (writtenEntries depth entries) = .ok out) : out.map (·.1) = entries.map (·.1) := by
  induction entries generalizing out with
  | nil =>
    cases h
    rfl
  | cons e entries ih =>
    simp only [writtenEntries, entriesToJson, EntryKey.asText] at h
    cases hj : (written depth e.2).toJson with
    | error fault =>
      rw [hj] at h
      cases h
    | ok j =>
      cases hrest : entriesToJson (writtenEntries depth entries) with
      | error fault =>
        rw [hj, hrest] at h
        cases h
      | ok rest =>
        rw [hj, hrest] at h
        cases h
        simp only [List.map_cons, ih hrest]

theorem ordered_of_keys {entries out : List (String × Json)} (h : out.map (·.1) = entries.map (·.1))
    (hordered : Ordered entries) : Ordered out := by
  have hkeys : (entries.map (·.1)).Pairwise (· < ·) := List.pairwise_map.mpr hordered
  rw [← h] at hkeys
  exact List.pairwise_map.mp hkeys

mutual

/-- What is read back from a written document is that document exactly if it is one that reloads. -/
theorem toJson_written (j : Json) (depth : Nat) : (written depth j).toJson = .ok j ↔ j.Reloads depth := by
  match j with
  | .null => exact ⟨fun _ => Json.reloads_scalar rfl (by simp), fun _ => rfl⟩
  | .bool b => exact ⟨fun _ => Json.reloads_scalar rfl (by simp), fun _ => rfl⟩
  | .num n => exact toJson_num_iff.trans (Json.reloads_num n).symm
  | .str s => exact ⟨fun _ => Json.reloads_scalar rfl (by simp), fun _ => rfl⟩
  | .arr items =>
    rw [Json.reloads_arr, ← itemsToJson_written items (depth + 1)]
    by_cases hdepth : depth < maxDepth
    · rw [written_arr hdepth, toJson]
      cases itemsToJson (writtenItems (depth + 1) items) with
      | error fault => simp [hdepth, bind, Except.bind]
      | ok out => simp [hdepth, bind, Except.bind]
    · simp [written, bounded, hdepth, toJson]
  | .obj entries =>
    rw [Json.reloads_obj, ← entriesToJson_written entries (depth + 1)]
    by_cases hdepth : depth < maxDepth
    · rw [written_obj hdepth, toJson]
      cases hout : entriesToJson (writtenEntries (depth + 1) entries) with
      | error fault => simp [bind, Except.bind]
      | ok out =>
        simp only [bind, Except.bind, Json.ofEntries, Except.ok.injEq, Json.obj.injEq, hdepth, true_and]
        constructor
        · intro hsort
          have hordered : Ordered entries := hsort ▸ Json.ordered_sortEntries out
          have hout := ordered_of_keys (keys_entriesToJson hout) hordered
          exact ⟨hordered, by rw [← hsort, Json.sortEntries_of_ordered hout]⟩
        · rintro ⟨hordered, rfl⟩
          exact Json.sortEntries_of_ordered hordered
    · simp [written, bounded, hdepth, toJson]

theorem itemsToJson_written (items : List Json) (depth : Nat) :
    itemsToJson (writtenItems depth items) = .ok items ↔ ∀ j ∈ items, j.Reloads depth := by
  match items with
  | [] => exact ⟨fun _ _ hj => absurd hj List.not_mem_nil, fun _ => rfl⟩
  | j :: items =>
    rw [List.forall_mem_cons, ← toJson_written j depth, ← itemsToJson_written items depth]
    simp only [writtenItems, itemsToJson]
    cases (written depth j).toJson with
    | error fault => simp [bind, Except.bind]
    | ok out =>
      cases itemsToJson (writtenItems depth items) with
      | error fault => simp [bind, Except.bind]
      | ok rest => simp [bind, Except.bind]

theorem entriesToJson_written (entries : List (String × Json)) (depth : Nat) :
    entriesToJson (writtenEntries depth entries) = .ok entries ↔ ∀ e ∈ entries, e.2.Reloads depth := by
  match entries with
  | [] => exact ⟨fun _ _ hj => absurd hj List.not_mem_nil, fun _ => rfl⟩
  | (k, j) :: entries =>
    rw [List.forall_mem_cons, ← toJson_written j depth, ← entriesToJson_written entries depth]
    simp only [writtenEntries, entriesToJson, EntryKey.asText]
    cases (written depth j).toJson with
    | error fault => simp [bind, Except.bind]
    | ok out =>
      cases entriesToJson (writtenEntries depth entries) with
      | error fault => simp [bind, Except.bind]
      | ok rest => simp [bind, Except.bind]

end

/-- The value of a pin or field comes back unless it is null or does not reload. -/
theorem asDocument_written (j : Json) (depth : Nat) :
    asDocument (written depth j) = .ok (some j) ↔ j ≠ .null ∧ j.Reloads depth := by
  rw [← toJson_written]
  have hdocument : ∀ d : Draft, d.asDocument = .ok (some j) ↔ j ≠ .null ∧ d.toJson = .ok j := by
    intro d
    unfold asDocument asOption
    split
    · simp [toJson, eq_comm]
    · rename_i hne
      constructor
      · intro h
        cases hj : d.toJson with
        | error fault =>
          rw [hj] at h
          cases h
        | ok out =>
          rw [hj] at h
          cases h
          refine ⟨?_, rfl⟩
          rintro rfl
          exact hne (eq_of_toJson rfl hj)
      · rintro ⟨-, h⟩
        rw [h]
        rfl
  exact hdocument _

theorem written_str (depth : Nat) (s : String) : written depth (.str s) = .str s := rfl

theorem written_bool (depth : Nat) (b : Bool) : written depth (.bool b) = .bool b := rfl

theorem written_nat {n : Nat} (h : n < 0x100000000) (depth : Nat) :
    written depth (.nat n) = .num (.int n) := Number.rereads_int (by omega) (by omega)

theorem asU32_nat {n : Nat} (h : n < 0x100000000) :
    asU32 (.num (.int n)) = .ok (UInt32.ofNat n) := by
  have hfits : (0 : Int) ≤ n ∧ (n : Int) < 0x100000000 := by omega
  simp [asU32, hfits]

theorem asU32_written {n : Nat} (h : n < 0x100000000) (depth : Nat) :
    asU32 (written depth (.nat n)) = .ok (UInt32.ofNat n) := by
  rw [written_nat h, asU32_nat h]

theorem asNode_written {id : NodeId} (h : id.val < 0x100000000) (depth : Nat) :
    asNode (written depth (.nat id.val)) = .ok id := by
  simp only [asNode, asU32_written h, bind, Except.bind, pure, Except.pure, UInt32.toNat_ofNat_of_lt' h]

theorem asPin_written {id : PinId} (h : id.val < 0x100000000) (depth : Nat) :
    asPin (written depth (.nat id.val)) = .ok id := by
  simp only [asPin, asU32_written h, bind, Except.bind, pure, Except.pure, UInt32.toNat_ofNat_of_lt' h]

theorem asLink_written {id : LinkId} (h : id.val < 0x100000000) (depth : Nat) :
    asLink (written depth (.nat id.val)) = .ok id := by
  simp only [asLink, asU32_written h, bind, Except.bind, pure, Except.pure, UInt32.toNat_ofNat_of_lt' h]

theorem mapM_written {α : Type} (decode : Draft → Except ReadFault α) (encode : α → Json) (depth : Nat)
    (items : List α) : (writtenItems depth (items.map encode)).mapM decode = .ok items ↔
      ∀ a ∈ items, decode (written depth (encode a)) = .ok a := by
  induction items with
  | nil => simp [writtenItems, pure, Except.pure]
  | cons a items ih =>
    rw [List.forall_mem_cons, ← ih, List.map_cons, writtenItems, List.mapM_cons]
    cases decode (written depth (encode a)) with
    | error fault => simp [bind, Except.bind]
    | ok out =>
      cases (writtenItems depth (items.map encode)).mapM decode with
      | error fault => simp [bind, Except.bind]
      | ok rest => simp [bind, Except.bind, pure, Except.pure]

theorem asList_written {α : Type} (decode : Draft → Except ReadFault α) (encode : α → Json) {depth : Nat}
    (h : depth < maxDepth) (items : List α) :
    asList decode (written depth (.arr (items.map encode))) = .ok items ↔
      ∀ a ∈ items, decode (written (depth + 1) (encode a)) = .ok a := by
  rw [written_arr h, asList, ← mapM_written]
  cases (writtenItems (depth + 1) (items.map encode)).mapM decode with
  | error fault => simp [bind, Except.bind]
  | ok out => simp [bind, Except.bind]

end Draft

open Draft

variable {depth : Nat}

/-! ## Forms, types and kinds -/

theorem Direction.ofDraft_tag (origin : Origin) (d : Direction) :
    Direction.ofDraft origin (.str d.tag) = .ok d := by
  cases d <;> cases origin <;> rfl

theorem PinType.ofDraft_written (origin : Origin) (h : depth < maxDepth) (t : PinType) :
    PinType.ofDraft origin (written depth t.toJson) = .ok t := by
  cases t with
  | flow =>
    rw [PinType.toJson, written_obj h]
    cases origin <;> rfl
  | data type form =>
    rw [PinType.toJson, written_obj h]
    cases form <;> cases origin <;> rfl

theorem PinType.toJson_written (h : depth < maxDepth) (t : PinType) :
    ∃ j, (written depth t.toJson).toJson = .ok j := by
  cases t with
  | flow =>
    rw [PinType.toJson, written_obj h]
    exact ⟨_, rfl⟩
  | data type form =>
    rw [PinType.toJson, written_obj h]
    exact ⟨_, rfl⟩

theorem ParamDecl.ofDraft_written (origin : Origin) (h : depth < maxDepth) (p : ParamDecl) :
    ParamDecl.ofDraft origin (written depth p.toJson) = .ok p := by
  obtain ⟨name, type, form⟩ := p
  rw [ParamDecl.toJson, written_obj h]
  cases form <;> cases origin <;> rfl

theorem ParamDecl.toJson_written (h : depth < maxDepth) (p : ParamDecl) :
    ∃ j, (written depth p.toJson).toJson = .ok j := by
  rw [ParamDecl.toJson, written_obj h]
  exact ⟨_, rfl⟩

theorem ResultDecl.ofDraft_written (origin : Origin) (h : depth < maxDepth) (r : ResultDecl) :
    ResultDecl.ofDraft origin (written depth r.toJson) = .ok r := by
  obtain ⟨type, form⟩ := r
  rw [ResultDecl.toJson, written_obj h]
  cases form <;> cases origin <;> rfl

theorem ResultDecl.toJson_written (h : depth < maxDepth) (r : ResultDecl) :
    ∃ j, (written depth r.toJson).toJson = .ok j := by
  rw [ResultDecl.toJson, written_obj h]
  exact ⟨_, rfl⟩

/-! ## Links, nodes and pins -/

structure Link.Fits (l : Link) : Prop where
  id : l.id.val < 0x100000000
  input : l.input.val < 0x100000000
  output : l.output.val < 0x100000000

theorem Link.ofDraft_written (origin : Origin) (h : depth < maxDepth) {l : Link} (hl : l.Fits) :
    Link.ofDraft origin (written depth l.toJson) = .ok l := by
  rw [Link.toJson, written_obj h]
  simp [Link.ofDraft, writtenEntries, asRecord, walkEntries, need, asLink_written hl.id,
    asPin_written hl.input, asPin_written hl.output, bind, Except.bind, pure, Except.pure]

structure Position.Rereads (p : Position) : Prop where
  x : (Number.single p.x).reread.asF32 = .ok p.x
  y : (Number.single p.y).reread.asF32 = .ok p.y

theorem Position.ofDraft_written (origin : Origin) (h : depth < maxDepth) (p : Position) :
    Position.ofDraft origin (written depth p.toJson) = .ok p ↔ p.Rereads := by
  have hrereads : p.Rereads ↔ (Number.single p.x).reread.asF32 = .ok p.x ∧
      (Number.single p.y).reread.asF32 = .ok p.y := ⟨fun h => ⟨h.x, h.y⟩, fun h => ⟨h.1, h.2⟩⟩
  rw [hrereads, Position.toJson, written_obj h]
  simp only [Position.ofDraft, writtenEntries, Json.single, written, asRecord, walkEntries]
  cases (Number.single p.x).reread.asF32 with
  | error fault => simp [bind, Except.bind]
  | ok x =>
    cases (Number.single p.y).reread.asF32 with
    | error fault => simp [bind, Except.bind, pure, Except.pure]
    | ok y =>
      obtain ⟨px, py⟩ := p
      simp [need, bind, Except.bind, pure, Except.pure]

theorem Draft.setAside_of_toJson {d : Draft} (h : ∃ j, d.toJson = .ok j) : d.setAside = .ok d := by
  obtain ⟨j, hj⟩ := h
  simp [Draft.setAside, hj, bind, Except.bind]

theorem Draft.setAside_str (s : String) : (Draft.str s).setAside = .ok (.str s) := rfl

theorem Draft.setAside_bool (b : Bool) : (Draft.bool b).setAside = .ok (.bool b) := rfl

theorem Draft.setAside_nat {n : Nat} (h : n < 0x100000000) (depth : Nat) :
    (written depth (.nat n)).setAside = .ok (written depth (.nat n)) :=
  setAside_of_toJson ⟨.num (.int n), by rw [written_nat h]; rfl⟩

theorem Draft.walkEntries_own {σ : Type} {names seen : List String} {step other : Step σ} {key : String}
    {d : Draft} {s s' : σ} (hname : names.contains key = true) (hseen : seen.contains key = false)
    (hstep : step key d s = .ok s') (rest : List (EntryKey × Draft)) :
    walkEntries names step other seen ((.text key, d) :: rest) s
      = walkEntries names step other (key :: seen) rest s' := by
  rw [walkEntries, if_pos hname, hseen, if_neg Bool.false_ne_true, hstep]
  rfl

theorem Draft.walkEntries_aside {σ : Type} {names : List String} {step : Step σ}
    (put : String → Draft → σ → σ) (keep : List (String × Draft) → σ)
    (hput : ∀ key d aside, put key d (keep aside) = keep ((key, d) :: aside))
    {fields : List (String × Draft)} (hnames : ∀ f ∈ fields, names.contains f.1 = false)
    (haside : ∀ f ∈ fields, f.2.setAside = .ok f.2) (aside : List (String × Draft)) (seen : List String)
    (rest : List (EntryKey × Draft)) :
    walkEntries names step (fun key d s => return put key (← d.setAside) s) seen
        (fields.map (fun f => (.text f.1, f.2)) ++ rest) (keep aside)
      = walkEntries names step (fun key d s => return put key (← d.setAside) s) seen rest
        (keep (fields.reverse ++ aside)) := by
  induction fields generalizing aside with
  | nil => rfl
  | cons f fields ih =>
    obtain ⟨hname, hnames⟩ := List.forall_mem_cons.mp hnames
    obtain ⟨hset, haside⟩ := List.forall_mem_cons.mp haside
    have hrest := ih hnames haside (f :: aside)
    rw [List.reverse_cons, List.append_assoc, List.singleton_append, ← hrest, ← hput f.1 f.2 aside]
    simp only [List.map_cons, List.cons_append, walkEntries, hname, Bool.false_eq_true, if_false, hset]
    rfl

theorem Draft.asTagged_record (origin : Origin) {tags : List String} {tag : String} {i : Nat}
    (hi : tags.findIdx? (· == tag) = some i) (fields : List (String × Draft))
    (hnames : ∀ f ∈ fields, ["kind"].contains f.1 = false)
    (haside : ∀ f ∈ fields, f.2.setAside = .ok f.2) :
    asTagged origin tags (.record (("kind", .str tag) :: fields)) = .ok ⟨i, .record fields⟩ := by
  have htag : asTag origin tags (.str tag) = .ok i := by simp only [asTag, hi, need]
  rw [record, List.map_cons, asTagged, ← List.append_nil (fields.map _),
    walkEntries_own rfl rfl (by rw [htag]; rfl),
    walkEntries_aside (fun key d (s : Tagging) => { s with rest := (key, d) :: s.rest })
      (fun aside => { tag := some i, rest := aside }) (fun _ _ _ => rfl) hnames haside]
  simp [walkEntries, need, bind, Except.bind, pure, Except.pure]

theorem NodeKind.ofDraft_written (h : depth < maxDepth) (kind : NodeKind) :
    NodeKind.ofDraft .setAside (.record (kind.entries.map fun e => (e.1, written depth e.2))) = .ok kind := by
  cases kind with
  | call type function signature =>
    have hhash := asU32_written signature.hash.toNat_lt depth
    have haside := setAside_nat signature.hash.toNat_lt depth
    have htagged := asTagged_record .setAside (show tags.findIdx? (· == "Call") = some 2 from rfl)
      [("type", .str type), ("function", .str function),
        ("signature", written depth (.nat signature.hash.toNat))] (by simp) (by simp [haside, setAside_str])
    simp only [NodeKind.ofDraft, NodeKind.entries, List.map_cons, List.map_nil, written]
    rw [htagged]
    simp [tags, callOfDraft, record, asRecord, walkEntries, asText, hhash, need, bind, Except.bind, pure,
      Except.pure]
  | reroute type =>
    have haside := setAside_of_toJson (PinType.toJson_written h type)
    have htype := PinType.ofDraft_written .setAside h type
    have htagged := asTagged_record .setAside (show tags.findIdx? (· == "Reroute") = some 9 from rfl)
      [("pin_type", written depth type.toJson)] (by simp) (by simp [haside])
    simp only [NodeKind.ofDraft, NodeKind.entries, List.map_cons, List.map_nil, written]
    rw [htagged]
    simp [tags, rerouteOfDraft, record, asRecord, walkEntries, htype, need, bind, Except.bind, pure,
      Except.pure]
  | fieldGet type field => rfl
  | fieldSet type field => rfl
  | comment text => rfl
  | entry => rfl
  | ret => rfl
  | branch => rfl
  | forLoop => rfl
  | whileLoop => rfl

theorem Draft.writtenEntries_append (depth : Nat) (first second : List (String × Json)) :
    writtenEntries depth (first ++ second) = writtenEntries depth first ++ writtenEntries depth second := by
  induction first with
  | nil => rfl
  | cons e first ih => rw [List.cons_append, writtenEntries, writtenEntries, ih, List.cons_append]

theorem Draft.writtenEntries_eq_map (depth : Nat) (entries : List (String × Json)) :
    writtenEntries depth entries
      = (entries.map fun e => (e.1, written depth e.2)).map fun f => (.text f.1, f.2) := by
  induction entries with
  | nil => rfl
  | cons e entries ih => rw [writtenEntries, ih, List.map_cons, List.map_cons]

theorem Draft.walkEntries_last {σ : Type} {names seen : List String} {step other : Step σ} {key : String}
    (hname : names.contains key = true) (hseen : seen.contains key = false) (d : Draft) (s : σ) :
    walkEntries names step other seen [(.text key, d)] s = step key d s := by
  rw [walkEntries, if_pos hname, hseen, if_neg Bool.false_ne_true]
  cases step key d s <;> rfl

structure Node.Fits (n : Node) : Prop where
  id : n.id.val < 0x100000000
  firstPin : n.firstPin.val < 0x100000000
  pinCount : n.pinCount < 0x100000000

theorem NodeKind.entries_aside (h : depth < maxDepth) (kind : NodeKind) :
    ∀ f ∈ kind.entries.map (fun e => (e.1, written depth e.2)),
      ["id", "first_pin", "pin_count", "position"].contains f.1 = false ∧ f.2.setAside = .ok f.2 := by
  cases kind with
  | call type function signature =>
    have haside := setAside_nat signature.hash.toNat_lt depth
    simp [NodeKind.entries, written, setAside_str, haside]
  | reroute type =>
    have haside := setAside_of_toJson (PinType.toJson_written h type)
    simp [NodeKind.entries, written, setAside_str, haside]
  | _ => simp [NodeKind.entries, written, setAside_str]

theorem Node.ofDraft_written (origin : Origin) (h : depth + 1 < maxDepth) {n : Node} (hn : n.Fits) :
    Node.ofDraft origin (written depth n.toJson) = .ok n ↔ n.position.Rereads := by
  have hkind := NodeKind.ofDraft_written h n.kind
  have haside := NodeKind.entries_aside h n.kind
  rw [← Position.ofDraft_written origin h n.position, Node.toJson, written_obj (by omega)]
  simp only [writtenEntries_append, writtenEntries_eq_map _ n.kind.entries, writtenEntries,
    List.cons_append, List.nil_append]
  rw [Node.ofDraft, walkEntries_own rfl rfl (by rw [asNode_written hn.id]; rfl),
    walkEntries_aside (fun key d (s : Found) => { s with rest := (key, d) :: s.rest })
      (fun aside => { id := some n.id, rest := aside }) (fun _ _ _ => rfl)
      (fun f hf => (haside f hf).1) (fun f hf => (haside f hf).2),
    walkEntries_own rfl rfl (by rw [asPin_written hn.firstPin]; rfl),
    walkEntries_own rfl rfl (by rw [asU32_written hn.pinCount]; rfl), walkEntries_last rfl rfl]
  cases Position.ofDraft origin (written (depth + 1) n.position.toJson) with
  | error fault => simp [bind, Except.bind]
  | ok p =>
    obtain ⟨id, kind, firstPin, pinCount, position⟩ := n
    simp [hkind, need, bind, Except.bind, pure, Except.pure, UInt32.toNat_ofNat_of_lt' hn.pinCount]

structure Pin.Fits (p : Pin) : Prop where
  id : p.id.val < 0x100000000
  node : p.node.val < 0x100000000

/-- An initial value, if there is one, is not null and comes back. -/
def Json.Kept (depth : Nat) (value : Option Json) : Prop := ∀ j ∈ value, j ≠ .null ∧ j.Reloads depth

theorem Pin.ofDraft_written (origin : Origin) (h : depth + 1 < maxDepth) {p : Pin} (hp : p.Fits) :
    Pin.ofDraft origin (written depth p.toJson) = .ok p ↔ Json.Kept (depth + 1) p.default := by
  have hid := asPin_written hp.id (depth + 1)
  have hnode := asNode_written hp.node (depth + 1)
  have hdirection := Direction.ofDraft_tag origin p.direction
  have htype := PinType.ofDraft_written origin h p.type
  obtain ⟨id, node, direction, name, type, default⟩ := p
  rw [Pin.toJson, written_obj (by omega)]
  cases default with
  | none =>
    simp [Pin.ofDraft, entry?, writtenEntries, written, asRecord, walkEntries, need, hid, hnode, hdirection,
      htype, asText, Json.Kept, bind, Except.bind, pure, Except.pure]
  | some j =>
    have hkept : Json.Kept (depth + 1) (some j) ↔ (written (depth + 1) j).asDocument = .ok (some j) := by
      rw [asDocument_written]
      simp [Json.Kept]
    rw [hkept]
    simp only [Pin.ofDraft, entry?, Option.map_some, Option.toList_some, List.cons_append, List.nil_append,
      writtenEntries, written, asRecord]
    cases hdocument : (written (depth + 1) j).asDocument with
    | error fault =>
      simp [walkEntries, hid, hnode, hdirection, htype, hdocument, asText, bind, Except.bind, pure,
        Except.pure]
    | ok out =>
      simp [walkEntries, need, hid, hnode, hdirection, htype, hdocument, asText, bind, Except.bind, pure,
        Except.pure]

/-! ## Graphs -/

theorem Draft.itemsToJson_of_forall (depth : Nat) {items : List Json}
    (h : ∀ j ∈ items, ∃ out, (written depth j).toJson = .ok out) :
    ∃ out, itemsToJson (writtenItems depth items) = .ok out := by
  induction items with
  | nil => exact ⟨[], rfl⟩
  | cons j items ih =>
    obtain ⟨⟨out, hout⟩, h⟩ := List.forall_mem_cons.mp h
    obtain ⟨rest, hrest⟩ := ih h
    exact ⟨out :: rest, by simp [writtenItems, itemsToJson, hout, hrest, bind, Except.bind]⟩

theorem ParamDecl.list_aside (h : depth + 1 < maxDepth) (params : List ParamDecl) :
    (written depth (.arr (params.map ParamDecl.toJson))).setAside
      = .ok (written depth (.arr (params.map ParamDecl.toJson))) := by
  have hitems : ∀ j ∈ params.map ParamDecl.toJson, ∃ out, (written (depth + 1) j).toJson = .ok out := by
    intro j hj
    obtain ⟨p, -, rfl⟩ := List.mem_map.mp hj
    exact ParamDecl.toJson_written h p
  obtain ⟨out, hout⟩ := itemsToJson_of_forall (depth + 1) hitems
  refine setAside_of_toJson ⟨.arr out, ?_⟩
  rw [written_arr (by omega), Draft.toJson, hout]
  rfl

theorem GraphSignature.entries_aside (h : depth + 1 < maxDepth) (s : GraphSignature) :
    ∀ f ∈ s.entries.map (fun e => (e.1, written depth e.2)),
      ["name", "nodes", "pins", "links"].contains f.1 = false ∧ f.2.setAside = .ok f.2 := by
  have hparams := ParamDecl.list_aside h s.params
  have hresult : ∀ r : ResultDecl, (written depth r.toJson).setAside = .ok (written depth r.toJson) :=
    fun r => setAside_of_toJson (ResultDecl.toJson_written (by omega) r)
  obtain ⟨params, result, pure, isStatic, event⟩ := s
  cases result <;> cases event <;>
    simp [GraphSignature.entries, entry?, written_str, written_bool, setAside_str, setAside_bool, hparams,
      hresult]

theorem GraphSignature.ofDraft_written (h : depth + 1 < maxDepth) (s : GraphSignature) :
    GraphSignature.ofDraft .setAside (.record (s.entries.map fun e => (e.1, written depth e.2))) = .ok s := by
  have hparams : asList (ParamDecl.ofDraft .setAside) (written depth (.arr (s.params.map ParamDecl.toJson)))
      = .ok s.params :=
    (asList_written _ _ (by omega) _).mpr fun p _ => ParamDecl.ofDraft_written .setAside h p
  have hresult : ∀ r : ResultDecl, asOption (ResultDecl.ofDraft .setAside) (written depth r.toJson)
      = .ok (some r) := by
    intro r
    have hr := ResultDecl.ofDraft_written .setAside (show depth < maxDepth by omega) r
    rw [ResultDecl.toJson, written_obj (by omega)] at hr ⊢
    rw [asOption, hr]
    · rfl
    · simp
  have hevent : ∀ e : String, asOption asText (.str e) = .ok (some e) := fun e => rfl
  obtain ⟨params, result, pure, isStatic, event⟩ := s
  cases result <;> cases event <;>
    simp [GraphSignature.ofDraft, GraphSignature.entries, entry?, record, written_str, written_bool, asRecord,
      walkEntries, asBool, hparams, hresult, hevent, bind, Except.bind, Pure.pure, Except.pure]

theorem Draft.asList_slots {α : Type} (decode : Draft → Except ReadFault α) (encode : α → Json)
    (h : depth < maxDepth) (hencode : ∀ a, ∃ entries, encode a = .obj entries) (slots : Array (Option α)) :
    asList (·.asOption decode) (written depth (Graph.slotsJson encode slots)) = .ok slots.toList ↔
      ∀ a ∈ live slots, decode (written (depth + 1) (encode a)) = .ok a := by
  have hslot : ∀ a, asOption decode (written (depth + 1) (encode a)) = .ok (some a) ↔
      decode (written (depth + 1) (encode a)) = .ok a := by
    intro a
    have hne : written (depth + 1) (encode a) ≠ .null := by
      obtain ⟨entries, hentries⟩ := hencode a
      rw [hentries, written, bounded]
      split <;> exact Draft.noConfusion
    rw [asOption]
    · cases decode (written (depth + 1) (encode a)) <;> simp [Except.map]
    · exact hne
  rw [Graph.slotsJson, asList_written _ _ h]
  simp only [live, List.mem_filterMap, id]
  constructor
  · rintro hall a ⟨slot, hmem, rfl⟩
    exact (hslot a).mp (hall (some a) hmem)
  · rintro hall (- | a) hmem
    · rfl
    · exact (hslot a).mpr (hall a ⟨some a, hmem, rfl⟩)

structure Graph.Fits (g : Graph) : Prop where
  node : ∀ n ∈ g.liveNodes, n.Fits
  pin : ∀ p ∈ g.livePins, p.Fits
  link : ∀ l ∈ g.liveLinks, l.Fits

structure Graph.Kept (depth : Nat) (g : Graph) : Prop where
  position : ∀ n ∈ g.liveNodes, n.position.Rereads
  default : ∀ p ∈ g.livePins, Json.Kept (depth + 3) p.default

/-- A graph comes back exactly if its positions and defaults do. -/
theorem Graph.ofDraft_written (origin : Origin) (h : depth + 3 < maxDepth) {g : Graph} (hg : g.Fits) :
    Graph.ofDraft origin (written depth g.toJson) = .ok g ↔ g.Kept depth := by
  have hsignature := GraphSignature.ofDraft_written (show depth + 1 + 1 < maxDepth by omega) g.signature
  have haside := GraphSignature.entries_aside (show depth + 1 + 1 < maxDepth by omega) g.signature
  have hnodes := asList_slots (Node.ofDraft origin) Node.toJson
    (show depth + 1 < maxDepth by omega) (fun n => ⟨_, rfl⟩) g.nodes
  have hpins := asList_slots (Pin.ofDraft origin) Pin.toJson
    (show depth + 1 < maxDepth by omega) (fun p => ⟨_, rfl⟩) g.pins
  have hlinks := (asList_slots (Link.ofDraft origin) Link.toJson
    (show depth + 1 < maxDepth by omega) (fun l => ⟨_, rfl⟩) g.links).mpr fun l hl =>
      Link.ofDraft_written origin (by omega) (hg.link l hl)
  have hkept : g.Kept depth ↔
      asList (·.asOption (Node.ofDraft origin)) (written (depth + 1) (slotsJson Node.toJson g.nodes))
        = .ok g.nodes.toList ∧
      asList (·.asOption (Pin.ofDraft origin)) (written (depth + 1) (slotsJson Pin.toJson g.pins))
        = .ok g.pins.toList := by
    rw [hnodes, hpins]
    constructor
    · intro hkept
      exact ⟨fun n hn => (Node.ofDraft_written origin h (hg.node n hn)).mpr (hkept.position n hn),
        fun p hp => (Pin.ofDraft_written origin h (hg.pin p hp)).mpr (hkept.default p hp)⟩
    · rintro ⟨hn, hp⟩
      exact ⟨fun n hmem => (Node.ofDraft_written origin h (hg.node n hmem)).mp (hn n hmem),
        fun p hmem => (Pin.ofDraft_written origin h (hg.pin p hmem)).mp (hp p hmem)⟩
  rw [hkept, Graph.toJson, written_obj (by omega)]
  simp only [writtenEntries_append, writtenEntries_eq_map _ g.signature.entries, writtenEntries,
    List.cons_append, List.nil_append]
  rw [Graph.ofDraft, walkEntries_own rfl rfl (by rw [written_str]; rfl),
    walkEntries_aside (fun key d (s : Found) => { s with rest := (key, d) :: s.rest })
      (fun aside => { name := some g.name, rest := aside }) (fun _ _ _ => rfl)
      (fun f hf => (haside f hf).1) (fun f hf => (haside f hf).2)]
  obtain ⟨name, signature, nodes, pins, links⟩ := g
  cases hns : asList (·.asOption (Node.ofDraft origin)) (written (depth + 1) (slotsJson Node.toJson nodes)) with
  | error fault => simp [walkEntries, hns, bind, Except.bind]
  | ok ns =>
    cases hps : asList (·.asOption (Pin.ofDraft origin)) (written (depth + 1) (slotsJson Pin.toJson pins)) with
    | error fault => simp [walkEntries, hns, hps, bind, Except.bind, pure, Except.pure]
    | ok ps =>
      have harray : ns.toArray = nodes ∧ ps.toArray = pins ↔ ns = nodes.toList ∧ ps = pins.toList := by
        constructor <;>
          · rintro ⟨rfl, rfl⟩
            exact ⟨rfl, rfl⟩
      simpa [walkEntries, hns, hps, hlinks, hsignature, need, bind, Except.bind, pure, Except.pure] using harray

/-! ## Scripts -/

theorem FieldDecl.ofDraft_written (origin : Origin) (h : depth < maxDepth) (f : FieldDecl) :
    FieldDecl.ofDraft origin (written depth f.toJson) = .ok f ↔ Json.Kept (depth + 1) f.default := by
  obtain ⟨name, type, default⟩ := f
  rw [FieldDecl.toJson, written_obj h]
  cases default with
  | none =>
    simp [FieldDecl.ofDraft, entry?, writtenEntries, written_str, asRecord, walkEntries, need, asText,
      Json.Kept, bind, Except.bind, pure, Except.pure]
  | some j =>
    have hkept : Json.Kept (depth + 1) (some j) ↔ (written (depth + 1) j).asDocument = .ok (some j) := by
      rw [asDocument_written]
      simp [Json.Kept]
    rw [hkept]
    simp only [FieldDecl.ofDraft, entry?, Option.map_some, Option.toList_some, List.cons_append,
      List.nil_append, writtenEntries, written_str, asRecord, id]
    cases hdocument : (written (depth + 1) j).asDocument with
    | error fault => simp [walkEntries, hdocument, asText, bind, Except.bind, pure, Except.pure]
    | ok out => simp [walkEntries, need, hdocument, asText, bind, Except.bind, pure, Except.pure]

/-- Written at a depth, the initial values of the fields and the functions come back. -/
structure Script.Kept (depth : Nat) (s : Script) : Prop where
  field : ∀ f ∈ s.fields, Json.Kept (depth + 3) f.default
  function : ∀ g ∈ s.functions, g.Kept (depth + 2)

/-- A script comes back exactly if its initial values and functions do. -/
theorem Script.ofDraft_written (origin : Origin) (h : depth + 5 < maxDepth) {s : Script}
    (hs : ∀ g ∈ s.functions, g.Fits) :
    Script.ofDraft origin (written depth s.toJson) = .ok s ↔ s.Kept depth := by
  have hkept : s.Kept depth ↔
      asList (FieldDecl.ofDraft origin) (written (depth + 1) (.arr (s.fields.map FieldDecl.toJson)))
        = .ok s.fields ∧
      asList (Graph.ofDraft origin) (written (depth + 1) (.arr (s.functions.map Graph.toJson)))
        = .ok s.functions := by
    rw [asList_written _ _ (by omega), asList_written _ _ (by omega)]
    constructor
    · intro hkept
      exact ⟨fun f hf => (FieldDecl.ofDraft_written origin (by omega) f).mpr (hkept.field f hf),
        fun g hg => (Graph.ofDraft_written origin (by omega) (hs g hg)).mpr (hkept.function g hg)⟩
    · rintro ⟨hf, hg⟩
      exact ⟨fun f hmem => (FieldDecl.ofDraft_written origin (by omega) f).mp (hf f hmem),
        fun g hmem => (Graph.ofDraft_written origin (by omega) (hs g hmem)).mp (hg g hmem)⟩
  obtain ⟨name, fields, functions⟩ := s
  rw [hkept, Script.toJson, written_obj (by omega)]
  simp only [Script.ofDraft, writtenEntries, written_str, asRecord]
  cases hfs : asList (FieldDecl.ofDraft origin) (written (depth + 1) (.arr (fields.map FieldDecl.toJson))) with
  | error fault => simp [walkEntries, hfs, asText, bind, Except.bind, pure, Except.pure]
  | ok fs =>
    cases hgs : asList (Graph.ofDraft origin) (written (depth + 1) (.arr (functions.map Graph.toJson))) with
    | error fault => simp [walkEntries, hfs, hgs, asText, bind, Except.bind, pure, Except.pure]
    | ok gs => simp [walkEntries, hfs, hgs, need, asText, bind, Except.bind, pure, Except.pure]

end Flowscript
