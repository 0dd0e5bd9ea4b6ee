import Flowscript.Proofs.Loading.DeclaredScripts

/-! # Fields that are refused

The errors of a script's fields tell which field was refused and why: from an error that is found, and
from one that is not, follows what the fields are. A field that no error speaks of is a member of the
declared type.
-/
namespace Flowscript.Loader

/-- What says that a script is the type of a field of its own. -/
def itself (script : String) : ErrorKind × String :=
  (.typeCannotBeMember, s!"`{script}` cannot contain itself")

/-- What says that the type of a field leads back to the script. -/
def mutually (script type : String) : ErrorKind × String :=
  (.typeCannotBeMember, s!"`{script}` and `{type}` contain each other")

/-- What says that the type of a field is not known. -/
def unregistered (type : String) : ErrorKind × String :=
  (.unreflectedType, s!"type `{type}` is not registered")

/-- What says that scripts may not name the type of a field. -/
def hidden (type : String) : ErrorKind × String :=
  (.typeCannotBeReferenced, s!"type `{type}` is hidden from scripts")

/-- What says that scripts may not hold values of the type of a field. -/
def unownable (type : String) : ErrorKind × String :=
  (.typeCannotBeOwned, s!"type `{type}` cannot be held by value")

section Texts

theorem unregistered_inj {a b : String} (h : unregistered a = unregistered b) : a = b := by
  have h : toString a = toString b := by simpa [unregistered] using h
  exact h

theorem mutually_ne_unreadable (script type : String) (f : FieldDecl) (why : String) :
    mutually script type ≠ unreadable f why := by
  intro h
  have h := congrArg (fun t : ErrorKind × String => t.2.toList.head?) h
  simp [mutually, unreadable, toString] at h

theorem itself_ne_unreadable (script : String) (f : FieldDecl) (why : String) :
    itself script ≠ unreadable f why := by
  intro h
  have h := congrArg (fun t : ErrorKind × String => t.2.toList.head?) h
  simp [itself, unreadable, toString] at h

theorem refusal_inj {script script' : String} {why why' : ErrorKind × String}
    (h : refusal script why = refusal script' why') : script = script' ∧ why = why' := by
  simp only [refusal, ScriptError.inScript, ScriptError.mk.injEq, Location.mk.injEq, Option.some.injEq] at h
  exact ⟨h.2.2.1, Prod.ext h.1 h.2.1⟩

end Texts

variable {c : Catalogue} {script : String} {blocked names : List String} {f : FieldDecl}
  {why : ErrorKind × String} {es : List ScriptError} {ms : List Member}

section Refuse

theorem refuseField?_of_mem (h : f.name ∈ names) : refuseField? c script blocked names f =
    .error (.nameNotUnique, s!"field `{f.name}` is declared more than once") := by
  rw [refuseField?, if_pos (List.contains_iff_mem.mpr h)]

theorem refuseField?_of_not_mem (h : f.name ∉ names) :
    refuseField? c script blocked names f = refuseField? c script blocked [] f := by
  have hnames : names.contains f.name = false := by simpa using h
  simp only [refuseField?, hnames, List.contains_nil, Bool.false_eq_true, if_false]

theorem refuseField?_cases (c : Catalogue) (script : String) (blocked : List String) (f : FieldDecl) :
    (f.type = script ∧ refuseField? c script blocked [] f = .error (itself script)) ∨
    (f.type ≠ script ∧ f.type ∈ blocked ∧
      refuseField? c script blocked [] f = .error (mutually script f.type)) ∨
    (f.type ≠ script ∧ f.type ∉ blocked ∧ c.handleNamed? f.type = none ∧
      refuseField? c script blocked [] f = .error (unregistered f.type)) ∨
    (f.type ≠ script ∧ f.type ∉ blocked ∧ ∃ h, c.handleNamed? f.type = some h ∧
      (refuseField? c script blocked [] f = .ok h ∨
        refuseField? c script blocked [] f = .error (hidden f.type) ∨
        refuseField? c script blocked [] f = .error (unownable f.type))) := by
  simp only [refuseField?, List.contains_nil, Bool.false_eq_true, if_false]
  by_cases hself : f.type = script
  · exact .inl ⟨hself, if_pos hself⟩
  · rw [if_neg hself]
    by_cases hblocked : f.type ∈ blocked
    · exact .inr (.inl ⟨hself, hblocked, if_pos (List.contains_iff_mem.mpr hblocked)⟩)
    · rw [if_neg (fun h => hblocked (List.contains_iff_mem.mp h))]
      cases hhandle : c.handleNamed? f.type with
      | none => exact .inr (.inr (.inl ⟨hself, hblocked, rfl, rfl⟩))
      | some h =>
        refine .inr (.inr (.inr ⟨hself, hblocked, h, rfl, ?_⟩))
        dsimp only
        split
        · exact .inr (.inl rfl)
        · split
          · exact .inr (.inr rfl)
          · exact .inl rfl

theorem refuse_unregistered_iff {type : String} :
    refuseField? c script blocked [] f = .error (unregistered type) ↔
      f.type = type ∧ type ≠ script ∧ type ∉ blocked ∧ c.handleNamed? type = none := by
  rcases refuseField?_cases c script blocked f with ⟨hself, h⟩ | ⟨hself, hblocked, h⟩ |
    ⟨hself, hblocked, hnone, h⟩ | ⟨hself, hblocked, k, hsome, h⟩
  · rw [h, Except.error.injEq]
    constructor
    · intro he
      cases congrArg Prod.fst he
    · exact fun ⟨htype, hne, _⟩ => absurd (htype ▸ hself) hne
  · rw [h, Except.error.injEq]
    constructor
    · intro he
      cases congrArg Prod.fst he
    · rintro ⟨rfl, -, hmem, -⟩
      exact absurd hblocked hmem
  · rw [h, Except.error.injEq]
    constructor
    · intro he
      obtain rfl := unregistered_inj he
      exact ⟨rfl, hself, hblocked, hnone⟩
    · rintro ⟨rfl, -, -, -⟩
      rfl
  · constructor
    · intro he
      rcases h with h | h | h <;> rw [he] at h <;> cases h
    · rintro ⟨rfl, -, -, hnone⟩
      rw [hsome] at hnone
      cases hnone

theorem handleNamed?_of_refuseField? {h : Handle} (hf : refuseField? c script blocked names f = .ok h) :
    c.handleNamed? f.type = some h := by
  by_cases hnames : f.name ∈ names
  · rw [refuseField?_of_mem hnames] at hf
    cases hf
  · rw [refuseField?_of_not_mem hnames] at hf
    rcases refuseField?_cases c script blocked f with ⟨-, hr⟩ | ⟨-, -, hr⟩ | ⟨-, -, -, hr⟩ |
      ⟨-, -, k, hk, hr | hr | hr⟩ <;> rw [hf] at hr <;> cases hr
    exact hk

/-- Why a field is not one of the declared type. -/
inductive Excuse (script : String) (f : FieldDecl) : ErrorKind × String → Prop where
  | repeated : Excuse script f (.nameNotUnique, s!"field `{f.name}` is declared more than once")
  | itself (h : f.type = script) : Excuse script f (itself script)
  | mutually : Excuse script f (mutually script f.type)
  | unregistered : Excuse script f (unregistered f.type)
  | hidden : Excuse script f (hidden f.type)
  | unownable : Excuse script f (unownable f.type)
  | unreadable (text : String) : Excuse script f (unreadable f text)
  | overflow : Excuse script f (overflow script)

theorem excuse_of_refuseField? (h : refuseField? c script blocked names f = .error why) :
    Excuse script f why := by
  by_cases hname : f.name ∈ names
  · rw [refuseField?_of_mem hname] at h
    cases h
    exact .repeated
  · rw [refuseField?_of_not_mem hname] at h
    rcases refuseField?_cases c script blocked f with ⟨hself, hr⟩ | ⟨-, -, hr⟩ | ⟨-, -, -, hr⟩ |
      ⟨-, -, k, -, hr | hr | hr⟩ <;> rw [h] at hr <;> cases hr
    · exact .itself hself
    · exact .mutually
    · exact .unregistered
    · exact .hidden
    · exact .unownable

end Refuse

section Judged

/-- What only a refusal says is said exactly if the field is refused for it. -/
theorem Judged.refusal_mem_iff {m : Option Member} (h : Judged c script blocked names f es m)
    (hreads : ∀ g text, why ≠ Loader.unreadable g text) :
    refusal script why ∈ es ↔ refuseField? c script blocked names f = .error why := by
  cases h with
  | @refused why' hrefuse =>
    rw [List.mem_singleton, hrefuse, Except.error.injEq]
    constructor
    · exact fun he => (refusal_inj he).2.symm
    · exact fun he => by rw [he]
  | unreadable hrefuse _ text =>
    rw [List.mem_singleton, hrefuse]
    constructor
    · exact fun he => absurd (refusal_inj he).2 (hreads f text)
    · exact fun he => nomatch he
  | kept hrefuse =>
    rw [hrefuse]
    simp

theorem Judged.script_of_mem {m : Option Member} (h : Judged c script blocked names f es m) :
    ∀ e ∈ es, ∃ why, e = refusal script why := by
  cases h with
  | refused hrefuse => exact List.forall_mem_singleton.mpr ⟨_, rfl⟩
  | unreadable hrefuse _ text => exact List.forall_mem_singleton.mpr ⟨_, rfl⟩
  | kept hrefuse => exact List.forall_mem_nil _

theorem JudgedAll.script_of_mem {fields : List FieldDecl} (h : JudgedAll c script blocked names fields es ms) :
    ∀ e ∈ es, ∃ why, e = refusal script why := by
  induction h with
  | nil => exact List.forall_mem_nil _
  | cons first _ ih => exact List.forall_mem_append.mpr ⟨first.script_of_mem, ih⟩

theorem JudgedAll.refusal_mem_iff {fields : List FieldDecl}
    (h : JudgedAll c script blocked names fields es ms) (hkind : why.1 ≠ .nameNotUnique)
    (hreads : ∀ g text, why ≠ Loader.unreadable g text) :
    refusal script why ∈ es ↔ ∃ f, fields.find? (·.name == f.name) = some f ∧ f.name ∉ names ∧
      refuseField? c script blocked [] f = .error why := by
  have hnew : ∀ {names : List String} {f : FieldDecl},
      refuseField? c script blocked names f = .error why ↔
        f.name ∉ names ∧ refuseField? c script blocked [] f = .error why := by
    intro names f
    by_cases hmem : f.name ∈ names
    · rw [refuseField?_of_mem hmem]
      refine ⟨fun he => ?_, fun he => absurd hmem he.1⟩
      cases he
      exact absurd rfl hkind
    · rw [refuseField?_of_not_mem hmem]
      exact ⟨fun he => ⟨hmem, he⟩, fun he => he.2⟩
  induction h with
  | nil => simp
  | @cons names f fields es es' m ms first _ ih =>
    rw [List.mem_append, first.refusal_mem_iff hreads, hnew]
    constructor
    · rintro (⟨hname, hrefuse⟩ | hrest)
      · exact ⟨f, by simp, hname, hrefuse⟩
      · obtain ⟨g, hfind, hname, hrefuse⟩ := ih.mp hrest
        obtain ⟨hne, hname⟩ := not_or.mp (List.mem_cons.not.mp hname)
        refine ⟨g, ?_, hname, hrefuse⟩
        rw [List.find?_cons_of_neg (by simpa using Ne.symm hne), hfind]
    · rintro ⟨g, hfind, hname, hrefuse⟩
      rw [List.find?_cons] at hfind
      split at hfind
      · cases hfind
        exact .inl ⟨hname, hrefuse⟩
      · next hne =>
        have hne : f.name ≠ g.name := by simpa using hne
        exact .inr <| ih.mpr ⟨g, hfind, List.mem_cons.not.mpr (not_or.mpr ⟨Ne.symm hne, hname⟩), hrefuse⟩

theorem JudgedAll.kept_or_refused {fields : List FieldDecl}
    (h : JudgedAll c script blocked names fields es ms) {f : FieldDecl} (hf : f ∈ fields) :
    (∃ m ∈ ms, m.name = f.name ∧ c.handleNamed? f.type = some m.type) ∨
      ∃ why, Excuse script f why ∧ refusal script why ∈ es := by
  induction h with
  | nil => cases hf
  | @cons names g fields es es' m ms first _ ih =>
    rcases List.mem_cons.mp hf with rfl | hf
    · cases first with
      | @refused why hrefuse =>
        exact .inr ⟨why, excuse_of_refuseField? hrefuse, List.mem_append_left _ (List.mem_singleton_self _)⟩
      | unreadable _ _ text =>
        exact .inr ⟨_, .unreadable text, List.mem_append_left _ (List.mem_singleton_self _)⟩
      | @kept type hrefuse =>
        exact .inl ⟨_, List.mem_append_left _ (List.mem_singleton_self _), rfl,
          handleNamed?_of_refuseField? hrefuse⟩
    · rcases ih hf with ⟨m', hm, hmember⟩ | ⟨why, hexcuse, he⟩
      · exact .inl ⟨m', List.mem_append_right _ hm, hmember⟩
      · exact .inr ⟨why, hexcuse, List.mem_append_right _ he⟩

theorem JudgedAll.cases_of_mem {fields : List FieldDecl}
    (h : JudgedAll c script blocked names fields es ms) {e : ScriptError} (he : e ∈ es) :
    ∃ f ∈ fields, (∃ names why, refuseField? c script blocked names f = .error why ∧ e = refusal script why) ∨
      ∃ text, e = refusal script (Loader.unreadable f text) := by
  induction h with
  | nil => cases he
  | @cons names f fields es es' m ms first _ ih =>
    rcases List.mem_append.mp he with he | he
    · refine ⟨f, List.mem_cons_self, ?_⟩
      cases first with
      | @refused why hrefuse => exact .inl ⟨names, why, hrefuse, List.mem_singleton.mp he⟩
      | unreadable _ _ text => exact .inr ⟨text, List.mem_singleton.mp he⟩
      | kept => cases he
    · obtain ⟨g, hg, hcases⟩ := ih he
      exact ⟨g, List.mem_cons_of_mem f hg, hcases⟩

theorem JudgedAll.field_of_mem {fields : List FieldDecl}
    (h : JudgedAll c script blocked names fields es ms) {m : Member} (hm : m ∈ ms) :
    ∃ f ∈ fields, m.name = f.name ∧ c.handleNamed? f.type = some m.type := by
  induction h with
  | nil => cases hm
  | @cons names g fields es es' m' ms first _ ih =>
    rcases List.mem_append.mp hm with hm | hm
    · cases first with
      | refused => cases hm
      | unreadable => cases hm
      | @kept type hrefuse =>
        cases List.mem_singleton.mp hm
        exact ⟨g, List.mem_cons_self, rfl, handleNamed?_of_refuseField? hrefuse⟩
    · obtain ⟨f, hf, hmember⟩ := ih hm
      exact ⟨f, List.mem_cons_of_mem g hf, hmember⟩

end Judged

end Flowscript.Loader
