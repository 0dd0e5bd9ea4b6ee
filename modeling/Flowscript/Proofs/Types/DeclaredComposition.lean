import Flowscript.Proofs.Loading.CallConvention
import Flowscript.Proofs.Types.RegistryEvolution

/-! # How declared types are composed

Whatever becomes of a registry, each type that a script declared is made of parts: each of these has a type that was
registered before, and has its place behind the one before it. All of this can be read off the registry as it is now.
-/
namespace Flowscript

namespace Catalogue

variable {c c' : Catalogue} {h : Handle}

/-- The type behind a handle is made of the same in two registries. -/
def Agree (c c' : Catalogue) (h : Handle) : Prop := (c.info h).makeup = (c'.info h).makeup

namespace Agree

variable (hh : c.Agree c' h)
include hh

theorem proj {α : Type} (f : TypeInfo → α) (hf : ∀ t : TypeInfo, f t.makeup = f t) :
    f (c.info h) = f (c'.info h) := by
  rw [← hf (c.info h), ← hf (c'.info h), show (c.info h).makeup = (c'.info h).makeup from hh]

theorem id : (c.info h).id = (c'.info h).id := hh.proj TypeInfo.id fun _ => rfl

theorem symm : c'.Agree c h := Eq.symm hh

theorem name : (c.info h).name = (c'.info h).name := hh.proj TypeInfo.name fun _ => rfl

theorem layout : (c.info h).layout = (c'.info h).layout := hh.proj TypeInfo.layout fun _ => rfl

theorem traits : (c.info h).traits = (c'.info h).traits := hh.proj TypeInfo.traits fun _ => rfl

theorem destructor : (c.info h).destructor = (c'.info h).destructor := hh.proj TypeInfo.destructor fun _ => rfl

theorem codec : (c.info h).codec = (c'.info h).codec := hh.proj TypeInfo.codec fun _ => rfl

end Agree

/-- A registry of some types, none of which is filed under an identity. -/
def ofTypes (ts : List TypeInfo) : Catalogue := { infos := ts.toArray }

theorem agree_ofTypes {ts : List TypeInfo} (hc : ts <+: c.makeups) (hh : h < ts.length) : (ofTypes ts).Agree c h := by
  obtain ⟨rest, hrest⟩ := hc
  have hinfo : (ofTypes ts).info h = (c.info h).makeup := by
    rw [makeup_info, info, ofTypes, Array.getD_eq_getD_getElem?, List.getElem?_toArray, List.getD_eq_getElem?_getD,
      ← hrest, List.getElem?_append_left hh]
  rw [Agree, hinfo]
  rfl

end Catalogue

namespace Aggregate

variable {c c' : Catalogue} {members : List Member} {parts : List Part}

theorem place?_congr (h : ∀ m ∈ members, c.Agree c' m.type) : place? c members = place? c' members := by
  have hlayouts : (members.map fun m => (c.info m.type).layout) = members.map fun m => (c'.info m.type).layout :=
    List.map_congr_left fun m hm => (h m hm).layout
  rw [place?, place?, hlayouts]
  congr 1
  funext placed
  refine congrArg (placed.1, ·) (List.map_congr_left fun q hq => ?_)
  dsimp only
  rw [(h q.1 (List.of_mem_zip hq).1).destructor]

theorem makeup_info (c : Catalogue) (script : String) (layout : Layout) (parts : List Part) :
    (info c script layout parts).makeup =
      { id := .ofName script, name := script, layout, source := .script script, destructor := destructorOf c parts
        traits :=
          { default := hasDefault c parts, copy := canCopy c parts, move := canMove c parts
            trivial := (destructorOf c parts).isNone }
        fields := parts.map fun p => ⟨p.name, (c.info p.type).id, p.offset⟩
        codec := codecOf? c parts } := by
  rw [info, TypeInfo.makeup_addFunctions]
  rfl

theorem all_congr_of_mem {p q : Part → Bool} (h : ∀ part ∈ parts, p part = q part) :
    parts.all p = parts.all q := by
  rw [Bool.eq_iff_iff, List.all_eq_true, List.all_eq_true]
  exact forall₂_congr fun part hpart => by rw [h part hpart]

theorem mapM_congr_of_mem {f g : Part → Option (Part × Codec)} (h : ∀ part ∈ parts, f part = g part) :
    parts.mapM f = parts.mapM g := by
  induction parts with
  | nil => rfl
  | cons part parts ih =>
    obtain ⟨hfirst, hrest⟩ := List.forall_mem_cons.mp h
    rw [List.mapM_cons, List.mapM_cons, hfirst, ih hrest]

theorem makeup_info_congr (h : ∀ p ∈ parts, c.Agree c' p.type) (script : String) (layout : Layout) :
    (info c script layout parts).makeup = (info c' script layout parts).makeup := by
  have htraits : ∀ p ∈ parts, (c.info p.type).traits = (c'.info p.type).traits := fun p hp => (h p hp).traits
  have hdestructor : destructorOf c parts = destructorOf c' parts := by
    rw [destructorOf, destructorOf, all_congr_of_mem fun p hp => congrArg Traits.trivial (htraits p hp)]
  have hdefault : hasDefault c parts = hasDefault c' parts := all_congr_of_mem fun p hp => by rw [htraits p hp]
  have hcopy : canCopy c parts = canCopy c' parts := all_congr_of_mem fun p hp => by rw [htraits p hp]
  have hmove : canMove c parts = canMove c' parts := all_congr_of_mem fun p hp => by rw [htraits p hp]
  have hfields : (parts.map fun p => (⟨p.name, (c.info p.type).id, p.offset⟩ : FieldInfo)) =
      parts.map fun p => ⟨p.name, (c'.info p.type).id, p.offset⟩ :=
    List.map_congr_left fun p hp => by rw [(h p hp).id]
  have hcodec : codecOf? c parts = codecOf? c' parts := by
    rw [codecOf?, codecOf?, mapM_congr_of_mem fun p hp => by rw [(h p hp).codec]]
  rw [makeup_info, makeup_info, hdestructor, hdefault, hcopy, hmove, hfields, hcodec]

theorem map_members {layout : Layout} (h : place? c members = some (layout, parts)) :
    (parts.map fun p => (⟨p.name, p.type, p.default⟩ : Member)) = members := by
  obtain ⟨⟨whole, offsets⟩, hplace, heq⟩ := Option.map_eq_some_iff.mp h
  obtain ⟨-, rfl⟩ := Prod.mk.inj heq
  obtain ⟨⟨_, _⟩, hgo, hpad⟩ := Option.map_eq_some_iff.mp hplace
  obtain ⟨-, rfl⟩ := Prod.mk.inj hpad
  have hlength := Layout.length_place hgo
  rw [List.length_map] at hlength
  rw [List.map_map]
  exact List.map_fst_zip hlength.ge

theorem type_of_mem {layout : Layout} (h : place? c members = some (layout, parts)) {p : Part} (hp : p ∈ parts) :
    ∃ m ∈ members, p.type = m.type := by
  rw [← map_members h]
  exact ⟨_, List.mem_map_of_mem hp, rfl⟩

end Aggregate

/-- A type is not declared by a script, or it is made of members that are fields of a script, with types from among
those before it. -/
def TypeInfo.Composed (declared : Script → Prop) (before : List TypeInfo) (t : TypeInfo) : Prop :=
  t.isScripted → ∃ s ms layout parts, declared s ∧ Loader.Membership (.ofTypes before) s.fields ms ∧
    Aggregate.place? (.ofTypes before) ms = some (layout, parts) ∧
    t = (Aggregate.info (.ofTypes before) s.name layout parts).makeup

namespace Loader

variable {c c' : Catalogue} {fields : List FieldDecl} {ms : List Member} {declared : Script → Prop}

theorem Membership.congr (h : Membership c fields ms) (hagree : ∀ m ∈ ms, c.Agree c' m.type)
    (hlt : ∀ m ∈ ms, m.type < c'.infos.size) : Membership c' fields ms := by
  refine ⟨h.nodup, hlt, ?_⟩
  have hnames : (ms.map fun m => (m.name, (c'.info m.type).name, m.default)) =
      ms.map fun m => (m.name, (c.info m.type).name, m.default) :=
    List.map_congr_left fun m hm => by rw [(hagree m hm).name]
  rw [hnames]
  exact h.sublist

/-- A declared type is an aggregate of members that are placed: its own, or none if these are too large. -/
theorem exists_placed (script : String) (h : Membership c fields ms) :
    ∃ ms' layout parts, Membership c fields ms' ∧ Aggregate.place? c ms' = some (layout, parts) ∧
      (typeOf c script ms).1 = Aggregate.info c script layout parts := by
  unfold typeOf
  cases hplace : Aggregate.place? c ms with
  | some placed => exact ⟨ms, placed.1, placed.2, h, hplace, rfl⟩
  | none => exact ⟨[], Layout.empty, [], membership_nil c fields, rfl, rfl⟩

theorem establishes_composed : Establishes declared (TypeInfo.Composed declared) := by
  intro c s ms hs hms _ _
  obtain ⟨ms', layout, parts, hms', hplace, htype⟩ := exists_placed s.name hms
  have hlength : ∀ m ∈ ms', m.type < c.makeups.length := fun m hm => by
    rw [c.length_makeups]
    exact hms'.registered m hm
  have hagree : ∀ m ∈ ms', c.Agree (.ofTypes c.makeups) m.type := fun m hm =>
    (Catalogue.agree_ofTypes List.prefix_rfl (hlength m hm)).symm
  refine ⟨s, ms', layout, parts, hs, hms'.congr hagree hlength, ?_, ?_⟩
  · rw [← Aggregate.place?_congr hagree, hplace]
  · rw [htype]
    refine Aggregate.makeup_info_congr (fun p hp => ?_) s.name layout
    obtain ⟨m, hm, hpm⟩ := Aggregate.type_of_mem hplace hp
    exact hpm ▸ hagree m hm

end Loader

/-- What a declared type is made of, read off a registry that has it behind a handle: fields of a script that have
types from before and names of their own, one placed behind the other. -/
structure Catalogue.Composes (c : Catalogue) (h : Handle) (s : Script) (ms : List Member) (layout : Layout)
    (parts : List Part) : Prop where
  membership : Loader.Membership c s.fields ms
  older : ∀ m ∈ ms, m.type < h
  placed : Aggregate.place? c ms = some (layout, parts)
  makeup : (c.info h).makeup = (Aggregate.info c s.name layout parts).makeup

theorem Layered.composes {c : Catalogue} {declared : Script → Prop}
    (hc : Layered (TypeInfo.Composed declared) c.makeups) {h : Handle} (hh : h < c.infos.size)
    (hscripted : (c.info h).isScripted) :
    ∃ s ms layout parts, declared s ∧ c.Composes h s ms layout parts := by
  obtain ⟨s, ms, layout, parts, hs, hms, hplace, hmakeup⟩ := hc.info hh hscripted
  have hlength : (c.makeups.take h).length = h := by
    rw [List.length_take, c.length_makeups]
    exact Nat.min_eq_left (Nat.le_of_lt hh)
  have holder : ∀ m ∈ ms, m.type < h := fun m hm => by
    have hlt := hms.registered m hm
    rwa [Catalogue.ofTypes, List.size_toArray, hlength] at hlt
  have hagree : ∀ m ∈ ms, (Catalogue.ofTypes (c.makeups.take h)).Agree c m.type := fun m hm =>
    Catalogue.agree_ofTypes (List.take_prefix _ _) (by rw [hlength]; exact holder m hm)
  refine ⟨s, ms, layout, parts, hs, hms.congr hagree fun m hm => (holder m hm).trans hh, holder, ?_, ?_⟩
  · rw [← Aggregate.place?_congr hagree, hplace]
  · rw [hmakeup]
    refine Aggregate.makeup_info_congr (fun p hp => ?_) s.name layout
    obtain ⟨m, hm, hpm⟩ := Aggregate.type_of_mem hplace hp
    exact hpm ▸ hagree m hm

namespace Shared

open Catalogue

variable {s s' : Shared} {hs : List Happening} {P : TypeInfo → Prop}

theorem brings_loaded (hs : List Happening) :
    ∀ h ∈ hs, h.Brings fun script => ∃ scripts, .loader (.load scripts) ∈ hs ∧ script ∈ scripts := by
  intro h hh
  unfold Happening.Brings
  split
  · exact fun script hscript => ⟨_, hh, hscript⟩
  · trivial

/-- Whatever a host and a loader do, each type of a script is composed of fields that the script had in a load. -/
theorem composes_run (hP : ∀ t, P t → t.Named ∧ t.isScripted = false)
    (hstart : ({} : Catalogue).Evolves P s.catalogue)
    (hhs : ∀ h ∈ hs, h.Registers P) (hrun : run hs s = some s') {h : Handle} (hh : h < s'.catalogue.infos.size)
    (hscripted : (s'.catalogue.info h).isScripted) :
    ∃ script ms layout parts, (∃ scripts, .loader (.load scripts) ∈ hs ∧ script ∈ scripts) ∧
      s'.catalogue.Composes h script ms layout parts := by
  have hnative (declared : Script → Prop) (ts : List TypeInfo) (t : TypeInfo) (ht : P t) :
      TypeInfo.Composed declared ts t.makeup :=
    fun hscripted => absurd hscripted (Bool.eq_false_iff.mp (hP t ht).2)
  exact Layered.composes (run_layered_of_evolves (hnative _) (fun t ht => (hP t ht).1) Loader.establishes_composed
    hstart hhs (brings_loaded hs) hrun) hh hscripted

open Loader

def digits : NativeType := .ofPrim "i32" (.int .i32) true

def point : Script := { name := "Point", fields := [{ name := "x", type := "i32" }, { name := "y", type := "i32" }] }

structure Digital (t : TypeInfo) : Prop where
  bases : t.bases = []
  name : t.name = "i32"
  named : t.Named
  layout : t.layout = ⟨4, 4⟩
  visible : t.visible = true
  ownable : t.isOwnable = true

theorem digital_digits : Digital digits.info := by
  refine ⟨?_, ?_, digits.id_info, ?_, ?_, ?_⟩
  all_goals rw [NativeType.info, TypeInfo.addFunctions_eq]
  all_goals rfl

theorem declares_point {c c' : Catalogue} {t : TypeInfo} {es : List ScriptError} {h : Handle} {heirs : List TypeId}
    (ht : Digital t) (hnumber : c.handleNamed? "i32" = some 0) (hinfo : c.info 0 = Catalogue.withHeirs heirs t)
    (hfree : c.handle? point.type = none) (hdeclares : Declares c point [] es h c') :
    h = c.infos.size ∧ c'.infos.size = c.infos.size + 1 ∧ (c'.info h).isScripted ∧
      (c'.info h).fields.map (·.name) = ["x", "y"] := by
  rw [Catalogue.withHeirs_eq] at hinfo
  have hmay (names : List String) (f : FieldDecl) (hf : f.type = "i32") (hfresh : names.contains f.name = false) :
      refuseField? c "Point" [] names f = .ok 0 := by
    have hownable : (c.info 0).isOwnable = true := by
      rw [hinfo]
      exact ht.ownable
    have hvisible : (c.info 0).visible = true := by
      rw [hinfo]
      exact ht.visible
    simp only [refuseField?, hf, hfresh, hnumber, hvisible, hownable]
    rfl
  cases hdeclares with
  | @intro es ms judged =>
    have hmembers : ms = [⟨"x", 0, none⟩, ⟨"y", 0, none⟩] := by
      cases judged with
      | cons first rest =>
        cases rest with
        | cons second rest =>
          cases rest
          rw [(first.eq_kept (hmay _ _ rfl rfl) rfl).2, (second.eq_kept (hmay _ _ rfl rfl) rfl).2]
          rfl
    obtain ⟨parts, hplace⟩ : ∃ parts, Aggregate.place? c ms = some (⟨8, 4⟩, parts) := by
      have hlayout : (c.info 0).layout = ⟨4, 4⟩ := by
        rw [hinfo]
        exact ht.layout
      rw [hmembers, Aggregate.place?, List.map_cons, List.map_cons, List.map_nil, hlayout,
        show Layout.place? [⟨4, 4⟩, ⟨4, 4⟩] = some (⟨8, 4⟩, [0, 4]) by decide]
      exact ⟨_, rfl⟩
    obtain ⟨hid, -, hbases⟩ := typeOf_eq c point.name ms
    have hnew := Catalogue.register_of_fresh hbases (by rw [hid]; exact hfree)
    rw [hnew]
    have hlast : ∀ ids,
        ((c.infos.push (Catalogue.withHeirs ids (typeOf c point.name ms).1)).getD c.infos.size default) =
      Catalogue.withHeirs ids (typeOf c point.name ms).1 := by
      intro ids
      simp
    refine ⟨rfl, Array.size_push _, ?_, ?_⟩
    · rw [Catalogue.info, hlast, Catalogue.withHeirs_eq, TypeInfo.isScripted]
      dsimp only
      rw [source_typeOf]
    · rw [Catalogue.info, hlast, Catalogue.withHeirs_eq]
      rw [typeOf, hplace]
      dsimp only
      have hnames := congrArg (List.map Member.name) (Aggregate.map_members hplace)
      rw [List.map_map, hmembers] at hnames
      rw [(Aggregate.info_eq ..).2.2.2, List.map_map]
      exact hnames

theorem exists_chart {t : TypeInfo} (ht : Digital t) : ∃ s heirs,
    (unladen.change (.register t ht.named)).catalogue.infos.size = 1 ∧
    (unladen.change (.register t ht.named)).act (.load [point]) = some s ∧ s.catalogue.infos.size = 2 ∧
    s.catalogue.info 0 = Catalogue.withHeirs heirs t ∧ (s.catalogue.info 1).isScripted ∧
    (s.catalogue.info 1).fields.map (·.name) = ["x", "y"] := by
  obtain ⟨hsize, hhandle, heirs, hinfo⟩ := Catalogue.register_first ht.bases
  obtain ⟨s₀, hs₀⟩ : ∃ s₀, s₀ = unladen.change (.register t ht.named) := ⟨_, rfl⟩
  have hcatalogue : s₀.catalogue = (({} : Catalogue).register t).2 := by
    rw [hs₀]
    show (unladen.workspace.register t).2.context.catalogue = _
    rw [(register_context _ _).2]
    rfl
  rw [← hcatalogue] at hsize hhandle hinfo
  have hthrough : (s₀.loader.load [point] s₀.workspace).1.isSome := isSome_load_of_functions (by decide) _
  obtain ⟨s', -, hworkspace, hact, -⟩ := run_load hthrough []
  obtain ⟨es, handles, c, k, hbuilds⟩ := exists_builds s₀.loader.worldType [point]
    (s₀.loader.unload s₀.workspace).2
  have hfresh : s₀.loader.Fresh := by
    rw [hs₀]
    exact ⟨rfl, rfl⟩
  have hstart : (s₀.loader.unload s₀.workspace).2.catalogue = s₀.catalogue := by
    rw [Workspace.catalogue, hfresh.unload]
    rfl
  have hfree : s₀.catalogue.handle? point.type = none := by
    rw [hhandle, ht.named, ht.name]
    exact if_neg (by decide +kernel)
  have hnumber : s₀.catalogue.handleNamed? "i32" = some 0 := by
    rw [Catalogue.handleNamed?, hhandle, ht.named, ht.name, if_pos rfl, Option.filter_some, hinfo,
      Catalogue.withHeirs_eq]
    exact if_pos (beq_iff_eq.mpr ht.name)
  have hdeclares := hbuilds.declares
  rw [schedule_single (by rw [Catalogue.contains_eq, hstart, hfree]; rfl), hstart] at hdeclares
  cases hdeclares with
  | @cons _ _ _ _ _ _ _ _ h _ first rest =>
    cases rest
    have hold : c.info 0 = Catalogue.withHeirs heirs t :=
      (first.grows.info_of_lt (hsize ▸ Nat.one_pos)).trans hinfo
    obtain ⟨rfl, hgrown, hpoint⟩ := declares_point ht hnumber hinfo hfree first
    rw [hsize] at hgrown hpoint
    have hsame : s'.catalogue = c := by
      rw [Shared.catalogue, hworkspace, (load_built _ _ _).2, Workspace.catalogue, hbuilds.context]
      dsimp only
      rw [hbuilds.furnished.catalogue, allPieces_eq_nil (by decide)]
      rfl
    rw [← hs₀]
    rw [← hsame] at hgrown hpoint hold
    exact ⟨s', heirs, hsize, hact, hgrown, hold, hpoint⟩

theorem exists_charting {t : TypeInfo} (ht : Digital t) : ∃ s h,
    run [.host (.register t ht.named), .loader (.load [point])] unladen = some s ∧ h < s.catalogue.infos.size ∧
      (s.catalogue.info h).isScripted ∧ (s.catalogue.info h).fields.map (·.name) = ["x", "y"] := by
  obtain ⟨s, -, -, hact, hsize, -, hpoint⟩ := exists_chart ht
  refine ⟨s, 1, ?_, hsize ▸ Nat.one_lt_two, hpoint⟩
  rw [run_host]
  exact congrArg (fun r : Option Shared => r.bind (run [])) hact

end Shared

end Flowscript
