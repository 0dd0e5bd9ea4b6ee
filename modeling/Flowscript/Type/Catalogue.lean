import Std.Data.HashMap
import Flowscript.Type.Info

/-! # The catalogue of types

Types are registered under the hash of their name. A removed type stays behind its handle, so that
values and compiled functions that were made with it can still be ended and shown, but it has no
functions any more. Every change is announced; a subscriber that falls too far behind loses the
oldest announcements.
-/
namespace Flowscript

inductive TypeChange where
  | added (id : TypeId) (name : String)
  | removed (id : TypeId) (name : String)
deriving DecidableEq, Repr

/-- The signature of a well-known event. The world is passed besides these parameters. -/
structure EventSignature where
  name : String
  params : List Param
  result : Option Param
deriving DecidableEq, Repr

/-- The types known to the interpreter. -/
structure Catalogue where
  /-- Every type ever registered, by handle. -/
  infos : Array TypeInfo := #[]
  /-- The handle registered under an identity. -/
  index : Std.HashMap TypeId Handle := {}
  events : List (UInt32 × EventSignature) := []
  /-- All announcements, the oldest first. -/
  history : Array TypeChange := #[]
deriving Inhabited

namespace Catalogue

def info (c : Catalogue) (h : Handle) : TypeInfo := c.infos.getD h default

def handle? (c : Catalogue) (id : TypeId) : Option Handle := c.index[id]?

def lookup? (c : Catalogue) (id : TypeId) : Option TypeInfo := (c.handle? id).map c.info

/-- The handle of the type registered under a name. Another type whose name has the same hash does
not count. -/
def handleNamed? (c : Catalogue) (name : String) : Option Handle :=
  (c.handle? (.ofName name)).filter fun h => (c.info h).name == name

def lookupName? (c : Catalogue) (name : String) : Option TypeInfo := (c.handleNamed? name).map c.info

def contains (c : Catalogue) (id : TypeId) : Bool := c.index.contains id

def modify (c : Catalogue) (h : Handle) (f : TypeInfo → TypeInfo) : Catalogue :=
  { c with infos := c.infos.modify h f }

def modifyId (c : Catalogue) (id : TypeId) (f : TypeInfo → TypeInfo) : Catalogue :=
  match c.handle? id with
  | some h => c.modify h f
  | none => c

def addDerived (id : TypeId) (t : TypeInfo) : TypeInfo :=
  if t.derived.contains id then t else { t with derived := t.derived ++ [id] }

def removeDerived (id : TypeId) (t : TypeInfo) : TypeInfo :=
  { t with derived := t.derived.filter (· != id) }

def registered (c : Catalogue) : List (TypeId × Handle) :=
  (List.range c.infos.size).filterMap fun h =>
    let id := (c.info h).id
    if c.handle? id = some h then some (id, h) else none

/-- Registers a type and links it with its bases and with the types that name it as a base. A type
whose identity is taken changes nothing. The handle is that of the registered type. -/
def register (c : Catalogue) (t : TypeInfo) : Handle × Catalogue :=
  match c.handle? t.id with
  | some h => (h, c)
  | none =>
    let h := c.infos.size
    let c := { c with infos := c.infos.push t, index := c.index.insert t.id h }
    let c := t.bases.foldl (fun c base => c.modifyId base (addDerived t.id)) c
    let heirs := (c.registered.filter fun (_, k) => (c.info k).bases.contains t.id).map (·.1)
    let c := heirs.foldl (fun c heir => c.modify h (addDerived heir)) c
    (h, { c with history := c.history.push (.added t.id t.name) })

def remove (c : Catalogue) (id : TypeId) : Option TypeInfo × Catalogue :=
  match c.handle? id with
  | none => (none, c)
  | some h =>
    let t := c.info h
    let c := { c with index := c.index.erase id }
    let c := t.bases.foldl (fun c base => c.modifyId base (removeDerived id)) c
    let c := c.modify h TypeInfo.clearFunctions
    (some t, { c with history := c.history.push (.removed id t.name) })

def types (c : Catalogue) : List TypeInfo :=
  (c.registered.map fun (_, h) => c.info h).mergeSort fun a b => a.name ≤ b.name

def size (c : Catalogue) : Nat := c.index.size

/-- Walks from types to their bases. A type is expanded once, so the number of types bounds the
walk. -/
def reaches (c : Catalogue) (base : TypeId) : Nat → List TypeId → List TypeId → Bool
  | 0, _, _ => false
  | _ + 1, _, [] => false
  | fuel + 1, seen, id :: pending =>
    if id = base then true
    else if seen.contains id then c.reaches base fuel seen pending
    else
      let bases := match c.lookup? id with
        | some t => t.bases
        | none => []
      c.reaches base fuel (id :: seen) (bases.reverse ++ pending)

def walkBound (c : Catalogue) : Nat :=
  2 + c.infos.foldl (fun n t => n + t.bases.length + 1) 0

/-- Whether a type is `base` or has it among its bases, theirs, and so on. -/
def isDerivedFrom (c : Catalogue) (id base : TypeId) : Bool := c.reaches base c.walkBound [] [id]

/-- Registers an event; a name whose hash is taken changes nothing. The event is the one that is
then registered. -/
def registerEvent (c : Catalogue) (e : EventSignature) : EventSignature × Catalogue :=
  let hash := NameHash.ofString e.name
  match c.events.lookup hash with
  | some old => (old, c)
  | none => (e, { c with events := c.events ++ [(hash, e)] })

def event? (c : Catalogue) (name : String) : Option EventSignature :=
  (c.events.lookup (NameHash.ofString name)).filter (·.name == name)

def kept : Nat := 256

def changesSince (c : Catalogue) (position : Nat) : Nat × List TypeChange :=
  let missed := c.history.size - position
  let lost := missed - kept
  (lost, (c.history.toList.drop (position + lost)))

end Catalogue

end Flowscript
