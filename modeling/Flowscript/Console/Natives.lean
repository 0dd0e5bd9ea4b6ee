import Flowscript.Type.Builtin

/-! # Types of the console's host

The types that a session may register: records with numbers and texts, among them one that tells when
it ends, one hidden from scripts, one that cannot be copied and one without any operation.
-/
namespace Flowscript.Console

/-- A record type. The fields shown to scripts are those of the record unless listed as withheld. -/
def recordType (name record : String) (layout : Layout) (abilities : Abilities)
    (fields : List RecordField) (withheld : List String) : NativeType :=
  { name, layout, abilities, codec := .record record fields
    fields := (fields.filter fun f => !withheld.contains f.name).map fun f =>
      ⟨f.name, .ofName (primName f.prim), f.offset⟩
    destructor := if fields.any (·.prim == .text) then some .silent else none }
where
  primName : Prim → String
    | .bool => "bool"
    | .int kind => kind.text
    | .f32 => "f32"
    | .f64 => "f64"
    | .text => "String"

def vec2 : NativeType :=
  recordType "game::Vec2" "Vec2" ⟨8, 4⟩
    { default := true, clone := true, equal := true, order := true, codec := true }
    [{ name := "x", prim := .f32, offset := 0 }, { name := "y", prim := .f32, offset := 4 }] []

def actorFields : List RecordField :=
  [{ name := "id", prim := .int .u32, offset := 0 }, { name := "name", prim := .text, offset := 8 }]

def actor : NativeType :=
  recordType "game::Actor" "Actor" ⟨32, 8⟩
    { default := true, clone := true, equal := true, codec := true } actorFields []

def pawn : NativeType :=
  { recordType "game::Pawn" "Pawn" ⟨40, 8⟩ { default := true, clone := true, codec := true }
      (actorFields ++ [{ name := "speed", prim := .f32, offset := 32 },
        { name := "secret", prim := .int .i32, offset := 36, optional := true }]) ["secret"] with
    bases := ["game::Actor"] }

def hero : NativeType :=
  { recordType "game::Hero" "Hero" ⟨48, 8⟩ { default := true, clone := true, codec := true }
      (actorFields ++ [{ name := "speed", prim := .f32, offset := 32 },
        { name := "secret", prim := .int .i32, offset := 36 },
        { name := "level", prim := .int .i64, offset := 40 }]) [] with
    bases := ["game::Pawn", "game::Tag"] }

def tag : NativeType :=
  { name := "game::Tag", layout := ⟨0, 1⟩, codec := .unit "Tag"
    abilities := { default := true, clone := true, equal := true, order := true, codec := true } }

def world : NativeType :=
  recordType "game::World" "World" ⟨32, 8⟩ { default := true, clone := true, codec := true }
    [{ name := "ticks", prim := .int .i32, offset := 0 },
      { name := "title", prim := .text, offset := 8 }] []

def hidden : NativeType :=
  { recordType "game::Hidden" "Hidden" ⟨4, 4⟩ { default := true, clone := true, codec := true }
      [{ name := "value", prim := .int .i32, offset := 0 }] [] with
    visible := false }

def handle : NativeType :=
  recordType "game::Handle" "Handle" ⟨8, 8⟩ { default := true, equal := true, codec := true }
    [{ name := "raw", prim := .int .u64, offset := 0 }] []

def badge : NativeType :=
  recordType "game::Badge" "Badge" ⟨4, 4⟩ { clone := true, equal := true, codec := true }
    [{ name := "code", prim := .int .i32, offset := 0 }] []

def sealedType : NativeType :=
  recordType "Opaque" "Opaque" ⟨4, 4⟩ {} [{ name := "raw", prim := .int .u32, offset := 0 }] []

def tracked : NativeType :=
  { recordType "game::Tracked" "Tracked" ⟨4, 4⟩
      { default := true, clone := true, equal := true, codec := true }
      [{ name := "id", prim := .int .i32, offset := 0 }] [] with
    destructor := some .counted }

def natives : List NativeType :=
  [vec2, actor, pawn, hero, tag, world, hidden, handle, badge, sealedType, tracked]
    ++ NativeType.primitives.filter fun t => ["bool", "i32", "String"].contains t.name

def native? (name : String) : Option NativeType := natives.find? (·.name == name)

/-- Functions of primitive types that a session may add: the type's name and the function. -/
def preset? : String → Option (String × Function)
  | "i32.Max" => some ("i32", fn "Max" "i32" i32 .largest ["a", "b"] "i32")
  | "i32.Double" => some ("i32", fn "Double" "i32" i32 .twice ["a"] "i32")
  | "String.Len" => some ("String", fn "Len" "String" text .byteLength ["a"] "u64")
  | "String.StartsWith" => some ("String", fn "StartsWith" "String" text .startsWith ["a", "b"] "bool")
  | _ => none
where
  i32 : Shape := .ofPrim "i32" (.int .i32)
  text : Shape := .ofPrim "String" .text
  fn (name type : String) (shape : Shape) (op : NativeOp) (params : List String) (result : String) :
      Function :=
    { name, pure := true, params := params.map fun p => ⟨p, .ofName type, .constRef⟩
      result := some (Function.resultParam (.ofName result) .value)
      body := .native op shape none }

end Flowscript.Console
