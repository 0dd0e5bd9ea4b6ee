import Mathlib.Logic.Relation
import Flowscript.Proofs.Graph.CheckFindings

/-! # Chains of Reroutes

Links are checked one by one, while data is pulled straight through any chain of Reroutes. `Feeds`
joins an input with the output at the far end of such a chain. Acceptance of forms is not transitive:
a Reroute by value takes what it would copy, and everything takes a value. This module says exactly
when the two ends of a chain do not fit although all links do.
-/
namespace Flowscript

namespace Catalogue

variable {c : Catalogue}

/-- A type is another one, or has it among its declared bases, theirs, and so on. -/
def Derives (c : Catalogue) : TypeId → TypeId → Prop :=
  Relation.ReflTransGen fun id base => ∃ t, c.lookup? id = some t ∧ base ∈ t.bases

theorem derives_of_reaches {base : TypeId} {fuel : Nat} {seen pending : List TypeId}
    (h : c.reaches base fuel seen pending = true) : ∃ id ∈ pending, c.Derives id base := by
  induction fuel generalizing seen pending with
  | zero => simp [reaches] at h
  | succ fuel ih =>
    cases pending with
    | nil => simp [reaches] at h
    | cons id pending =>
      simp only [reaches] at h
      split at h
      · rename_i hid
        exact ⟨id, List.mem_cons_self, hid ▸ .refl⟩
      · split at h
        · obtain ⟨k, hk, hd⟩ := ih h
          exact ⟨k, List.mem_cons_of_mem id hk, hd⟩
        · obtain ⟨k, hk, hd⟩ := ih h
          rcases List.mem_append.mp hk with hk | hk
          · refine ⟨id, List.mem_cons_self, .head ?_ hd⟩
            cases ht : c.lookup? id with
            | none => simp [ht] at hk
            | some t => exact ⟨t, rfl, by simpa [ht] using hk⟩
          · exact ⟨k, List.mem_cons_of_mem id hk, hd⟩

theorem derives_of_isDerivedFrom {id base : TypeId} (h : c.isDerivedFrom id base = true) :
    c.Derives id base := by
  obtain ⟨k, hk, hd⟩ := derives_of_reaches h
  rwa [List.mem_singleton.mp hk] at hd

end Catalogue

namespace Form

def refers (f : Form) : Bool := f.isReference || f.isPointer

/-- Outputs and inputs that a Reroute by value joins although the input does not accept the output. -/
def loosened : List (Form × Form) :=
  [(.ref, .rvalue), (.constRef, .rvalue), (.constRef, .ref), (.constRef, .ptr), (.rvalue, .ref),
    (.rvalue, .ptr), (.rvalue, .constPtr)]

/-- The forms of the Reroutes of a chain let an output through to an input that does not accept it. -/
def Loosens (via : List Form) (output input : Form) : Prop :=
  .value ∈ via ∧ (output, input) ∈ loosened ∨
    .constRef ∈ via ∧ output = .rvalue ∧ input = .constPtr

/-- Each form accepts the next; the input's form comes first, the output's last. -/
def Accepted (output : Form) : List Form → Form → Prop
  | [], input => input.accepts output = true
  | f :: via, input => input.accepts f = true ∧ Accepted output via f

/-- A chain whose links are all accepted loosens exactly when its ends do not fit. -/
theorem accepts_eq_false_iff {output input : Form} {via : List Form}
    (h : Accepted output via input) : input.accepts output = false ↔ Loosens via output input := by
  induction via generalizing input with
  | nil =>
    rw [Accepted] at h
    simp [h, Loosens]
  | cons f via ih =>
    obtain ⟨hf, hrest⟩ := h
    have hvia := ih hrest
    simp only [Loosens, List.mem_cons] at hvia ⊢
    -- Only forms that fit each other are left. Either the rest of the chain fits and this link decides, or it
    -- was loosened before.
    cases input <;> cases f <;> first
      | exact absurd hf (by decide)
      | clear hf
    all_goals cases output <;> simp [accepts, loosened] at hvia ⊢
    all_goals first
      | exact hvia
      | exact .inl hvia

end Form

namespace Graph

/-- What one would expect of the two ends of a chain: the input's form accepts the output's, and the
types are the same or, for an input that refers to its data, the output's derives from the input's. -/
def Transparent (c : Catalogue) : PinType → PinType → Prop
  | .data outType outForm, .data inType inForm =>
    inForm.accepts outForm = true ∧
      (TypeId.ofName outType = .ofName inType ∨
        inForm.refers = true ∧ c.Derives (.ofName outType) (.ofName inType))
  | _, _ => False

/-- An input is fed by an output through Reroutes of these types and forms, the one next to the input
first. -/
inductive Feeds (g : Graph) (output : Pin) : List (String × Form) → Pin → Prop
  | link {l : Link} {input : Pin} (hl : l ∈ g.liveLinks) (hout : g.pin? l.output = some output)
      (hin : g.pin? l.input = some input) (hdata : output.isFlow = false) : Feeds g output [] input
  | reroute {via : List (String × Form)} {entrance exit input : Pin} {n : Node} {type : String}
      {form : Form} {l : Link} (hfed : Feeds g output via entrance) (hn : n ∈ g.liveNodes)
      (hkind : n.kind = .reroute (.data type form)) (hentrance : entrance ∈ g.nodePins n.id)
      (hexit : exit ∈ g.nodePins n.id) (hl : l ∈ g.liveLinks) (hout : g.pin? l.output = some exit)
      (hin : g.pin? l.input = some input) : Feeds g output ((type, form) :: via) input

variable {g : Graph} {c : Catalogue}

theorem NodeChecked.type_of_reroute {n : Node} {type : PinType} (h : g.NodeChecked c n)
    (hkind : n.kind = .reroute type) {p : Pin} (hp : p ∈ g.nodePins n.id) : p.type = type := by
  obtain ⟨s, hs, -, -, htype⟩ := h.exists_spec hp
    (show n.kind.expectedPins g.signature c =
      .ok [⟨.input, "In", type⟩, ⟨.output, "Out", type⟩] by rw [hkind]; rfl)
  rw [htype]
  rcases List.mem_pair.mp hs with rfl | rfl <;> rfl

/-- What the checks say of a chain: all its forms are accepted one by one, the types derive one from
the other, and on the way to an input that holds its data they change only at a Reroute that
refers. -/
theorem Feeds.checked (h : g.findings c = []) {output input : Pin} {via : List (String × Form)}
    (hf : g.Feeds output via input) :
    ∃ outType outForm inType inForm, output.type = .data outType outForm ∧
      input.type = .data inType inForm ∧ Form.Accepted outForm (via.map (·.2)) inForm ∧
      c.Derives (.ofName outType) (.ofName inType) ∧
      (inForm.refers = true ∨ TypeId.ofName outType = .ofName inType ∨
        ∃ r ∈ via, r.2.refers = true ∧ TypeId.ofName r.1 = .ofName inType) := by
  obtain ⟨-, hnodes, hlinks, -, -⟩ := findings_eq_nil_iff.mp h
  have hlink : ∀ l ∈ g.liveLinks, ∀ p q : Pin, g.pin? l.output = some p → g.pin? l.input = some q →
      Joins c p.type q.type := by
    intro l hl p q hp hq
    obtain ⟨p', q', hp', hq', -, -, hj⟩ := hlinks l hl
    rw [hp] at hp'
    rw [hq] at hq'
    cases hp'
    cases hq'
    exact hj
  induction hf with
  | @link l input hl hout hin hdata =>
    have hj := hlink l hl output input hout hin
    cases ho : output.type with
    | flow =>
      rw [Pin.isFlow, ho] at hdata
      cases hdata
    | data outType outForm =>
      cases hi : input.type with
      | flow => rw [ho, hi] at hj; exact hj.elim
      | data inType inForm =>
        rw [ho, hi] at hj
        obtain ⟨htype, haccepts⟩ := hj
        refine ⟨outType, outForm, inType, inForm, rfl, rfl, haccepts, ?_⟩
        rcases htype with htype | ⟨hrefers, hderived⟩
        · exact ⟨htype ▸ .refl, .inr (.inl htype)⟩
        · exact ⟨Catalogue.derives_of_isDerivedFrom hderived, .inl hrefers⟩
  | @reroute via entrance exit input n type form l _ hn hkind hentrance hexit hl hout hin ih =>
    obtain ⟨outType, outForm, _, _, ho, hi, haccepted, hderives, htypes⟩ := ih
    rw [(hnodes n hn).type_of_reroute hkind hentrance] at hi
    cases hi
    have hj := hlink l hl exit input hout hin
    rw [(hnodes n hn).type_of_reroute hkind hexit] at hj
    cases hi : input.type with
    | flow => rw [hi] at hj; exact hj.elim
    | data inType inForm =>
      rw [hi] at hj
      obtain ⟨htype, haccepts⟩ := hj
      refine ⟨outType, outForm, inType, inForm, ho, rfl, ⟨haccepts, haccepted⟩, ?_⟩
      rcases htype with htype | ⟨hrefers, hderived⟩
      · refine ⟨htype ▸ hderives, .inr ?_⟩
        rcases htypes with hrefers | hsame | ⟨r, hr, hrefers, hsame⟩
        · exact .inr ⟨(type, form), List.mem_cons_self, hrefers, htype⟩
        · exact .inl (hsame.trans htype)
        · exact .inr ⟨r, List.mem_cons_of_mem _ hr, hrefers, hsame.trans htype⟩
      · exact ⟨hderives.trans (Catalogue.derives_of_isDerivedFrom hderived), .inl hrefers⟩

/-- In a graph without findings the ends of a chain of Reroutes fit, except in these cases: the chain
has a Reroute by value and joins a pair of forms that it loosens; it has a Reroute by constant
reference and passes a value that may be moved on to a constant pointer; or a Reroute that refers to
its data takes it for one of the input's type, which the input then holds. -/
theorem not_transparent_iff (h : g.findings c = []) {output input : Pin}
    {via : List (String × Form)} (hf : g.Feeds output via input) :
    ¬ Transparent c output.type input.type ↔
      ∃ outType outForm inType inForm, output.type = .data outType outForm ∧
        input.type = .data inType inForm ∧
        (Form.Loosens (via.map (·.2)) outForm inForm ∨
          inForm.refers = false ∧ TypeId.ofName outType ≠ .ofName inType ∧
            ∃ r ∈ via, r.2.refers = true ∧ TypeId.ofName r.1 = .ofName inType) := by
  obtain ⟨outType, outForm, inType, inForm, ho, hi, haccepted, hderives, htypes⟩ := hf.checked h
  have hforms := Form.accepts_eq_false_iff haccepted
  rw [ho, hi]
  constructor
  · intro hnot
    refine ⟨outType, outForm, inType, inForm, rfl, rfl, ?_⟩
    cases hacc : inForm.accepts outForm with
    | false => exact .inl (hforms.mp hacc)
    | true =>
      refine .inr ?_
      have hne : TypeId.ofName outType ≠ .ofName inType := fun he => hnot ⟨hacc, .inl he⟩
      have hrefers : inForm.refers = false := by
        cases hr : inForm.refers with
        | false => rfl
        | true => exact absurd ⟨hacc, .inr ⟨hr, hderives⟩⟩ hnot
      refine ⟨hrefers, hne, ?_⟩
      rcases htypes with ht | ht | ht
      · rw [hrefers] at ht; cases ht
      · exact absurd ht hne
      · exact ht
  · rintro ⟨_, _, _, _, ho', hi', hcase⟩ ⟨hacc, htype⟩
    cases ho'
    cases hi'
    rcases hcase with hloose | ⟨hrefers, hne, -⟩
    · rw [hforms.mpr hloose] at hacc
      cases hacc
    · rcases htype with htype | ⟨ht, -⟩
      · exact hne htype
      · rw [hrefers] at ht; cases ht

/-- A function that returns its constant argument as one that may be changed, through a Reroute by
value. -/
def looseGraph : Graph where
  name := "Loose"
  signature := { params := [⟨"a", "T", .constRef⟩], result := some ⟨"T", .ref⟩ }
  nodes := #[some { id := ⟨1⟩, kind := .entry, firstPin := ⟨1⟩, pinCount := 2 },
    some { id := ⟨2⟩, kind := .reroute (.data "T" .value), firstPin := ⟨3⟩, pinCount := 2 },
    some { id := ⟨3⟩, kind := .ret, firstPin := ⟨5⟩, pinCount := 2 }]
  pins := #[some { id := ⟨1⟩, node := ⟨1⟩, direction := .output, name := "Then", type := .flow },
    some { id := ⟨2⟩, node := ⟨1⟩, direction := .output, name := "a", type := .data "T" .constRef },
    some { id := ⟨3⟩, node := ⟨2⟩, direction := .input, name := "In", type := .data "T" .value },
    some { id := ⟨4⟩, node := ⟨2⟩, direction := .output, name := "Out", type := .data "T" .value },
    some { id := ⟨5⟩, node := ⟨3⟩, direction := .input, name := "Exec", type := .flow },
    some
      { id := ⟨6⟩, node := ⟨3⟩, direction := .input, name := "Return Value", type := .data "T" .ref }]
  links := #[some ⟨⟨1⟩, ⟨3⟩, ⟨2⟩⟩, some ⟨⟨2⟩, ⟨6⟩, ⟨4⟩⟩]

def looseCatalogue : Catalogue where
  infos := #[.new "T" ⟨4, 4⟩]
  index := (∅ : Std.HashMap TypeId Handle).insert (.ofName "T") 0

theorem findings_looseGraph : looseGraph.findings looseCatalogue = [] := by
  have htype : looseCatalogue.lookupName? "T" = some (.new "T" ⟨4, 4⟩) := by
    simp [Catalogue.lookupName?, Catalogue.handleNamed?, Catalogue.handle?, Catalogue.info,
      looseCatalogue, TypeInfo.new]
  have hsignature : checkSignature looseCatalogue looseGraph.signature = [] := by
    simp [checkSignature, checkParams, checkType, checkEvent, looseGraph, htype, TypeInfo.new,
      Form.isOwning]
  have hnodes : looseGraph.liveNodes.flatMap (looseGraph.checkNode looseCatalogue) = [] := by
    simp [liveNodes, live, looseGraph, checkNode, rangeLeaves, nodePins, node?, slot?, pinsOf,
      pinRange, Node.pinStop, List.range', pin?, NodeKind.expectedPins, PinSpec.fits,
      Function.resultName, PinSpec.dataIn, PinSpec.dataOut, PinSpec.flowIn, PinSpec.flowOut, htype,
      PinType.type?]
  have hlinks : looseGraph.checkLinks looseCatalogue = [] := by
    simp [checkLinks, liveLinks, live, looseGraph, checkLink, pin?, slot?, Pin.isOutput,
      Pin.isInput, linkProblem, Form.accepts, checkFans, limitedEnd?, Pin.isFlow, PinType.isFlow]
  have hstructure : looseGraph.checkStructure = [] := rfl
  rw [findings, hsignature, hnodes, hlinks, hstructure]
  rfl

theorem not_transparent_looseGraph :
    looseGraph.findings looseCatalogue = [] ∧
      ¬ Transparent looseCatalogue (.data "T" .constRef) (.data "T" .ref) := by
  refine ⟨findings_looseGraph, ?_⟩
  have hfed : looseGraph.Feeds _ [("T", .value)] _ :=
    .reroute (l := ⟨⟨2⟩, ⟨6⟩, ⟨4⟩⟩)
      (n := { id := ⟨2⟩, kind := .reroute (.data "T" .value), firstPin := ⟨3⟩, pinCount := 2 })
      (.link (l := ⟨⟨1⟩, ⟨3⟩, ⟨2⟩⟩) (by simp [liveLinks, live, looseGraph]) rfl rfl rfl)
      (by simp [liveNodes, live, looseGraph]) rfl (.head _) (.tail _ (.head _))
      (by simp [liveLinks, live, looseGraph]) rfl rfl
  refine (not_transparent_iff findings_looseGraph hfed).mpr ?_
  exact ⟨"T", .constRef, "T", .ref, rfl, rfl, .inl (.inl ⟨by decide, by decide⟩)⟩

end Graph

end Flowscript
